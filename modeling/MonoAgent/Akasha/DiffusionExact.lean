import Mathlib
import MonoAgent.Akasha.Diffusion

/-!
# The error of a residual push is exact

Every turn of the loop keeps `PushInv`: the heap is a heap of the nodes with residual,
the running total is the residual that is left, reserve and residual sum to one, and
what the seed's fixed point has over the reserve is the fixed point of the residual
(`Solves.push`).  A turn settles at least the restart part of the mean residual, which
bounds the number of turns.
-/

namespace MonoAgent.Akasha

open Lib Finset

variable {n : ℕ}

/-! ## The heap of a residual -/

/-- The order of the heap: the larger residual first, then the smaller id. -/
abbrev key (residual : Fin n → ℚ) (v : Fin n) : ℚ ×ₗ (Fin n)ᵒᵈ :=
  toLex (residual v, OrderDual.toDual v)

theorem better_iff (residual : Fin n → ℚ) (a b : Fin n) :
    better residual a b = true ↔ key residual b < key residual a := by
  rw [better, decide_eq_true_iff, Prod.Lex.toLex_lt_toLex]
  simp only [gt_iff_lt, OrderDual.toDual_lt_toDual]
  exact or_congr Iff.rfl (and_congr_left fun _ => eq_comm)

/-- The heap holds the nodes with residual, in order. -/
structure Queued (residual : Fin n → ℚ) (h : IndexedHeap (Fin n)) : Prop where
  nonneg : ∀ v, 0 ≤ residual v
  placed : h.Placed
  ordered : IndexedHeap.Ordered (key residual) h
  mem : ∀ v, v ∈ h.nodes ↔ residual v ≠ 0

theorem queued_empty : Queued (fun _ : Fin n => 0) .empty where
  nonneg _ := le_refl 0
  placed := IndexedHeap.empty_placed
  ordered := IndexedHeap.empty_ordered
  mem v := by simp [IndexedHeap.empty]

/-- Residual that grows at one node. -/
theorem Queued.update {residual : Fin n → ℚ} {h : IndexedHeap (Fin n)} (hq : Queued residual h)
    {v : Fin n} {x : ℚ} (hx : 0 < x) (hgrown : residual v ≤ x) :
    Queued (Function.update residual v x) (h.update (better (Function.update residual v x)) v) := by
  have hsame (w : Fin n) (hw : w ≠ v) : key (Function.update residual v x) w = key residual w := by
    simp [key, hw]
  have hle : key residual v ≤ key (Function.update residual v x) v := by
    simp only [key, Function.update_self, Prod.Lex.toLex_le_toLex, le_refl, and_true]
    exact lt_or_eq_of_le hgrown
  obtain ⟨hplaced, hordered, hmem⟩ := IndexedHeap.update_spec (better_iff _) hq.placed hq.ordered
    hsame fun _ => hle
  refine ⟨fun w => ?_, hplaced, hordered, fun w => ?_⟩
  · by_cases hw : w = v
    · rw [hw, Function.update_self]
      exact hx.le
    · rw [Function.update_of_ne hw]
      exact hq.nonneg w
  · rw [hmem, hq.mem]
    by_cases hw : w = v
    · simp [hw, hx.ne']
    · simp [hw]

/-- The node that the heap gives up has the largest residual and of these the smallest
id. -/
theorem Queued.pop {residual : Fin n → ℚ} {h h' : IndexedHeap (Fin n)} (hq : Queued residual h)
    {v : Fin n} (hpop : h.pop (better residual) = some (v, h')) :
    (∀ w, residual w < residual v ∨ residual w = residual v ∧ v ≤ w) ∧ 0 < residual v ∧
      Queued (Function.update residual v 0) h' := by
  obtain ⟨hv, hmax, hplaced, hordered, hmem⟩ :=
    IndexedHeap.pop_spec (better_iff residual) hq.placed hq.ordered hpop
  have hpos : 0 < residual v := lt_of_le_of_ne (hq.nonneg v) (Ne.symm ((hq.mem v).mp hv))
  refine ⟨fun w => ?_, hpos, fun w => ?_, hplaced, fun i a b hi ha hb => ?_, fun w => ?_⟩
  · by_cases hw : w ∈ h.nodes
    · have hle := hmax w hw
      simp only [key, Prod.Lex.toLex_le_toLex, OrderDual.toDual_le_toDual] at hle
      exact hle
    · have hzero := not_not.mp (mt (hq.mem w).mpr hw)
      exact Or.inl (hzero ▸ hpos)
  · by_cases hw : w = v
    · simp [hw]
    · rw [Function.update_of_ne hw]
      exact hq.nonneg w
  · have hkeep {u : Fin n} (hu : u ∈ h'.nodes) :
        key (Function.update residual v 0) u = key residual u := by
      simp [key, ((hmem u).mp hu).1]
    rw [hkeep (List.mem_of_getElem? ha), hkeep (List.mem_of_getElem? hb)]
    exact hordered i a b hi ha hb
  · rw [hmem, hq.mem]
    by_cases hw : w = v
    · simp [hw]
    · simp [hw]

theorem Queued.zero_of_pop {residual : Fin n → ℚ} {h : IndexedHeap (Fin n)}
    (hq : Queued residual h) (hpop : h.pop (better residual) = none) (v : Fin n) :
    residual v = 0 := by
  have hnodes := IndexedHeap.pop_eq_none.mp hpop
  by_contra hv
  have hmem := (hq.mem v).mpr hv
  rw [hnodes] at hmem
  cases hmem

theorem Queued.heapTotal {s : PushState n} (hq : Queued s.residual s.heap) :
    s.heapTotal = ∑ v, s.residual v := by
  have hzero (v : Fin n) (hv : v ∉ s.heap.nodes.toFinset) : s.residual v = 0 := by
    rw [List.mem_toFinset, hq.mem] at hv
    exact not_not.mp hv
  calc s.heapTotal = (s.heap.nodes.map s.residual).sum :=
        ((List.perm_insertionSort _ _).map _).sum_eq
    _ = ∑ v ∈ s.heap.nodes.toFinset, s.residual v := (List.sum_toFinset _ hq.placed.nodup).symm
    _ = ∑ v, s.residual v := sum_subset (subset_univ _) fun v _ hv => hzero v hv

/-! ## Additions -/

/-- `s'` is `s` with entries added to the residual. -/
structure Gained (s s' : PushState n) (entries : List (Fin n × ℚ)) : Prop where
  residual : ∀ w, s'.residual w = s.residual w + weightOf entries w
  total : s'.residualTotal = s.residualTotal + (entries.map Prod.snd).sum
  reserve : s'.reserve = s.reserve
  pushes : s'.pushes = s.pushes
  queued : Queued s'.residual s'.heap

theorem Gained.trans {s t u : PushState n} {l m : List (Fin n × ℚ)} (h : Gained s t l)
    (h' : Gained t u m) : Gained s u (l ++ m) where
  residual w := by rw [h'.residual, h.residual, weightOf_append, add_assoc]
  total := by rw [h'.total, h.total, List.map_append, List.sum_append, add_assoc]
  reserve := h'.reserve.trans h.reserve
  pushes := h'.pushes.trans h.pushes
  queued := h'.queued

theorem gained_add {s : PushState n} (hq : Queued s.residual s.heap) (target : Fin n)
    {addition : ℚ} (h : 0 ≤ addition) :
    Gained s (s.add target addition) [(target, addition)] := by
  unfold PushState.add
  split_ifs with hne
  · have hpos : 0 < addition := lt_of_le_of_ne h (Ne.symm hne)
    have hbefore := hq.nonneg target
    refine ⟨fun w => ?_, by simp, rfl, rfl, hq.update (by linarith) (by linarith)⟩
    by_cases hw : w = target
    · simp [weightOf, hw]
    · simp [weightOf, hw, Ne.symm hw]
  · have hzero := not_not.mp hne
    exact ⟨fun w => by simp [weightOf_cons, hzero], by simp [hzero], rfl, rfl, hq⟩

/-- A loop each of whose turns adds one entry. -/
theorem gained_foldl {β : Type*} {f : PushState n → β → PushState n} {entry : β → Fin n × ℚ}
    {l : List β} (hstep : ∀ s, Queued s.residual s.heap → ∀ e ∈ l, Gained s (f s e) [entry e])
    {s : PushState n} (hq : Queued s.residual s.heap) :
    Gained s (l.foldl f s) (l.map entry) := by
  induction l generalizing s with
  | nil => exact ⟨fun w => by simp, by simp, rfl, rfl, hq⟩
  | cons e l ih =>
      have hone := hstep s hq e (List.mem_cons_self ..)
      exact hone.trans (ih (fun s hs e he => hstep s hs e (List.mem_cons_of_mem _ he)) hone.queued)

theorem weightOf_scale {β : Type*} (c : ℚ) (f : β → Fin n) (g : β → ℚ) (l : List β) (w : Fin n) :
    weightOf (l.map fun e => (f e, c * g e)) w = c * weightOf (l.map fun e => (f e, g e)) w := by
  induction l with
  | nil => simp
  | cons e l ih =>
      rw [List.map_cons, List.map_cons, weightOf_cons, weightOf_cons, ih, mul_add, mul_ite, mul_zero]

theorem sum_weightOf (l : List (Fin n × ℚ)) : ∑ w, weightOf l w = (l.map Prod.snd).sum := by
  induction l with
  | nil => simp
  | cons e l ih => simp [weightOf_cons, sum_add_distrib, ih]

theorem weightOf_nonneg {l : List (Fin n × ℚ)} (h : ∀ e ∈ l, 0 ≤ e.2) (w : Fin n) :
    0 ≤ weightOf l w := by
  refine List.sum_nonneg fun x hx => ?_
  obtain ⟨e, he, rfl⟩ := List.mem_map.mp hx
  exact h e (List.mem_of_mem_filter he)

/-! ## The walk -/

variable {g : Transitions n} {seed : List (Fin n × ℚ)} {restart tolerance : ℚ} {s : PushState n}

theorem isKernel_kernel (hg : Stochastic g) (hseed : IsSeed seed) : IsKernel (kernel g seed) where
  nonneg v w := by
    have hout : 0 ≤ weightOf ((g v).1.map fun e => (e.1, e.2.1)) w :=
      weightOf_nonneg (fun e he => by
        obtain ⟨t, ht, rfl⟩ := List.mem_map.mp he
        exact hg.nonneg v t ht) w
    have hback : 0 ≤ weightOf seed w := weightOf_nonneg (fun e he => (hseed.positive e he).le) w
    exact add_nonneg hout (mul_nonneg (hg.unspread v) hback)
  total v := by
    have hout : ∑ w, weightOf ((g v).1.map fun e => (e.1, e.2.1)) w =
        ((g v).1.map fun e => e.2.1).sum := by
      rw [sum_weightOf, List.map_map]
      rfl
    simp only [kernel]
    rw [sum_add_distrib, ← mul_sum, hout, sum_weightOf, hseed.total, mul_one, hg.total]

/-- What a push adds to the residual is what the walk takes on from the node. -/
theorem weightOf_spread (c : ℚ) (v w : Fin n) :
    weightOf (((g v).1.map fun e => (e.1, c * e.2.1)) ++
      seed.map fun e => (e.1, c * (g v).2 * e.2)) w = c * kernel g seed v w := by
  have hseed : seed.map (fun e => (e.1, e.2)) = seed := by simp
  rw [weightOf_append, weightOf_scale, weightOf_scale, hseed, kernel, mul_add, mul_assoc]

theorem sum_spread (hg : Stochastic g) (hseed : IsSeed seed) (c : ℚ) (v : Fin n) :
    ((((g v).1.map fun e => (e.1, c * e.2.1)) ++
      seed.map fun e => (e.1, c * (g v).2 * e.2)).map Prod.snd).sum = c := by
  rw [← sum_weightOf]
  calc ∑ w, _ = ∑ w, c * kernel g seed v w := sum_congr rfl fun w _ => weightOf_spread c v w
    _ = c := by rw [← mul_sum, (isKernel_kernel hg hseed).total, mul_one]

/-! ## The invariant of the loop -/

structure PushInv (g : Transitions n) (seed : List (Fin n × ℚ)) (restart tolerance : ℚ)
    (s : PushState n) : Prop where
  queued : Queued s.residual s.heap
  total : s.residualTotal = ∑ v, s.residual v
  mass : ∑ v, s.reserve v + ∑ v, s.residual v = 1
  solved : ∀ x, Solves restart (kernel g seed) (weightOf seed) x →
    Solves restart (kernel g seed) s.residual fun v => x v - s.reserve v
  progress : s.pushes * (restart * tolerance) ≤ n * ∑ v, s.reserve v

/-- The loop over the seed before the first turn. -/
theorem filled_spec (seed : List (Fin n × ℚ)) (hdistinct : (seed.map Prod.fst).Nodup)
    (hpositive : ∀ e ∈ seed, 0 < e.2) (residual : Fin n → ℚ) (heap : IndexedHeap (Fin n))
    (hq : Queued residual heap) (hfresh : ∀ e ∈ seed, residual e.1 = 0) :
    let filled := seed.foldl
      (fun (p : (Fin n → ℚ) × IndexedHeap (Fin n)) e =>
        let residual := Function.update p.1 e.1 e.2
        (residual, p.2.update (better residual) e.1)) (residual, heap)
    Queued filled.1 filled.2 ∧ ∀ w, filled.1 w = residual w + weightOf seed w := by
  induction seed generalizing residual heap with
  | nil => exact ⟨hq, fun w => by simp⟩
  | cons e seed ih =>
      rw [List.map_cons, List.nodup_cons] at hdistinct
      have hpos := hpositive e (List.mem_cons_self ..)
      have hzero := hfresh e (List.mem_cons_self ..)
      have hnext := hq.update hpos (hzero ▸ hpos.le)
      have hfresh' (e' : Fin n × ℚ) (he' : e' ∈ seed) : Function.update residual e.1 e.2 e'.1 = 0 := by
        have hne : e'.1 ≠ e.1 := fun heq => hdistinct.1 (heq ▸ List.mem_map_of_mem he')
        rw [Function.update_of_ne hne]
        exact hfresh e' (List.mem_cons_of_mem _ he')
      obtain ⟨hqueued, hvalue⟩ := ih hdistinct.2 (fun e' he' => hpositive e' (List.mem_cons_of_mem _ he'))
        _ _ hnext hfresh'
      refine ⟨hqueued, fun w => ?_⟩
      rw [List.foldl_cons, hvalue, weightOf_cons]
      by_cases hw : w = e.1
      · simp [hw, hzero]
      · simp [hw, Ne.symm hw]

theorem initialState_inv (hseed : IsSeed seed) (capturePaths : Bool) :
    PushInv g seed restart tolerance (initialState seed capturePaths) := by
  obtain ⟨hqueued, hvalue⟩ := filled_spec seed hseed.distinct hseed.positive _ _ queued_empty
    fun _ _ => rfl
  have hresidual : (initialState seed capturePaths).residual = weightOf seed := by
    funext w
    exact (hvalue w).trans (zero_add _)
  have hsum : ∑ v, (initialState seed capturePaths).residual v = 1 := by
    rw [hresidual, sum_weightOf, hseed.total]
  refine ⟨hqueued, ?_, ?_, fun x hx => ?_, ?_⟩
  · rw [hsum]
    exact hseed.total
  · rw [hsum]
    simp [initialState]
  · rw [hresidual]
    simpa [initialState] using hx
  · simp [initialState]

section Step

variable {node : Fin n} {heap : IndexedHeap (Fin n)}

/-- Counting a turn again from the heap changes nothing. -/
theorem PushInv.recount (h : PushInv g seed restart tolerance s) :
    { s with residualTotal := s.heapTotal } = s := by
  have htotal : s.heapTotal = s.residualTotal := h.queued.heapTotal.trans h.total.symm
  rw [htotal]

/-- The residual that a push takes from its node, and where it goes. -/
structure Pushed (g : Transitions n) (seed : List (Fin n × ℚ)) (restart : ℚ) (node : Fin n)
    (s t : PushState n) : Prop where
  queued : Queued t.residual t.heap
  residual : ∀ w, t.residual w = s.residual w - (if w = node then s.residual node else 0) +
    (1 - restart) * s.residual node * kernel g seed node w
  total : t.residualTotal = ∑ v, t.residual v
  reserve : ∀ w, t.reserve w = s.reserve w + if w = node then restart * s.residual node else 0
  pushes : t.pushes = s.pushes + 1

theorem push_pushed (hg : Stochastic g) (hseed : IsSeed seed) (hrestart : restart ≤ 1)
    (h : PushInv g seed restart tolerance s)
    (hpop : s.heap.pop (better s.residual) = some (node, heap)) :
    Pushed g seed restart node s (s.push g seed restart node heap) := by
  obtain ⟨-, hpos, hpopped⟩ := h.queued.pop hpop
  set value := s.residual node with hvalue
  set propagated := (1 - restart) * value with hpropagated
  have hspread : 0 ≤ propagated := mul_nonneg (sub_nonneg.mpr hrestart) hpos.le
  set s₁ : PushState n :=
    { s with
      residual := Function.update s.residual node 0
      reserve := Function.update s.reserve node (s.reserve node + restart * value)
      heap
      residualTotal := s.residualTotal - value } with hs₁
  have hout : Gained s₁ ((g node).1.foldl (PushState.settle node propagated) s₁)
      ((g node).1.map fun e => (e.1, propagated * e.2.1)) := by
    refine gained_foldl (fun t ht e he => ?_) hpopped
    have hadd := gained_add ht e.1 (mul_nonneg hspread (hg.nonneg node e he))
    exact ⟨hadd.residual, hadd.total, hadd.reserve, hadd.pushes, hadd.queued⟩
  have hback : Gained ((g node).1.foldl (PushState.settle node propagated) s₁)
      (seed.foldl (PushState.giveBack (propagated * (g node).2))
        ((g node).1.foldl (PushState.settle node propagated) s₁))
      (seed.map fun e => (e.1, propagated * (g node).2 * e.2)) :=
    gained_foldl (fun t ht e he => gained_add ht e.1
      (mul_nonneg (mul_nonneg hspread (hg.unspread node)) (hseed.positive e he).le)) hout.queued
  have hall := hout.trans hback
  set s₃ := seed.foldl (PushState.giveBack (propagated * (g node).2))
    ((g node).1.foldl (PushState.settle node propagated) s₁) with hs₃
  have hresidual (w : Fin n) : s₃.residual w =
      s.residual w - (if w = node then value else 0) + propagated * kernel g seed node w := by
    rw [hall.residual, weightOf_spread]
    by_cases hw : w = node
    · simp [hs₁, hw, hvalue]
    · simp [hs₁, hw]
  have hsum : ∑ v, s₃.residual v = s.residualTotal - value + propagated := by
    calc ∑ v, s₃.residual v
        = ∑ v, (s.residual v - (if v = node then value else 0) + propagated * kernel g seed node v) :=
          sum_congr rfl fun v _ => hresidual v
      _ = s.residualTotal - value + propagated := by
          rw [sum_add_distrib, sum_sub_distrib, ← mul_sum, (isKernel_kernel hg hseed).total, mul_one,
            sum_ite_eq' univ node, if_pos (mem_univ node), h.total]
  have htotal : s₃.residualTotal = ∑ v, s₃.residual v := by
    rw [hall.total, sum_spread hg hseed, hsum]
  have hreserve (w : Fin n) :
      s₃.reserve w = s.reserve w + if w = node then restart * value else 0 := by
    rw [hall.reserve]
    by_cases hw : w = node
    · simp [hs₁, hw]
    · simp [hs₁, hw]
  have hpushes : s₃.pushes + 1 = s.pushes + 1 := by rw [hall.pushes]
  have hpush : s.push g seed restart node heap =
      if (s₃.pushes + 1) % 4096 = 0 then
        { s₃ with pushes := s₃.pushes + 1, residualTotal := s₃.heapTotal }
      else { s₃ with pushes := s₃.pushes + 1 } := rfl
  rw [hpush]
  split_ifs with hcount
  · exact ⟨hall.queued, hresidual, hall.queued.heapTotal, hreserve, hpushes⟩
  · exact ⟨hall.queued, hresidual, htotal, hreserve, hpushes⟩

/-- The largest residual is at least the mean. -/
theorem PushInv.mean_le (h : PushInv g seed restart tolerance s)
    (hpop : s.heap.pop (better s.residual) = some (node, heap)) :
    s.residualTotal ≤ n * s.residual node := by
  obtain ⟨hmax, -, -⟩ := h.queued.pop hpop
  have hle (v : Fin n) : s.residual v ≤ s.residual node :=
    (hmax v).elim le_of_lt fun heq => heq.1.le
  calc s.residualTotal = ∑ v, s.residual v := h.total
    _ ≤ ∑ _v : Fin n, s.residual node := sum_le_sum fun v _ => hle v
    _ = n * s.residual node := by simp

theorem PushInv.push (hg : Stochastic g) (hseed : IsSeed seed) (hrestart : 0 < restart)
    (hrestart' : restart ≤ 1) (h : PushInv g seed restart tolerance s)
    (hopen : tolerance < s.residualTotal)
    (hpop : s.heap.pop (better s.residual) = some (node, heap)) :
    PushInv g seed restart tolerance (s.push g seed restart node heap) := by
  have hpushed := push_pushed hg hseed hrestart' h hpop
  have hreserve : ∑ v, (s.push g seed restart node heap).reserve v =
      ∑ v, s.reserve v + restart * s.residual node := by
    rw [sum_congr rfl fun v _ => hpushed.reserve v, sum_add_distrib, sum_ite_eq' univ node,
      if_pos (mem_univ node)]
  have hresidual : ∑ v, (s.push g seed restart node heap).residual v =
      ∑ v, s.residual v - restart * s.residual node := by
    rw [sum_congr rfl fun v _ => hpushed.residual v, sum_add_distrib, sum_sub_distrib, ← mul_sum,
      (isKernel_kernel hg hseed).total, sum_ite_eq' univ node, if_pos (mem_univ node)]
    ring
  refine ⟨hpushed.queued, hpushed.total, ?_, fun x hx => ?_, ?_⟩
  · rw [hreserve, hresidual]
    linarith [h.mass]
  · have hstep := (h.solved x hx).push node (s.residual node)
    intro w
    have hw := hstep w
    have hleft (v : Fin n) : x v - (s.push g seed restart node heap).reserve v =
        x v - s.reserve v - if v = node then restart * s.residual node else 0 := by
      rw [hpushed.reserve, sub_sub]
    simp only [hleft, hpushed.residual]
    exact hw
  · rw [hpushed.pushes, hreserve]
    have hmean : restart * tolerance ≤ n * (restart * s.residual node) := by
      have hscaled := mul_le_mul_of_nonneg_left (hopen.le.trans (h.mean_le hpop)) hrestart.le
      linarith
    push_cast
    linarith [h.progress]

end Step

/-! ## Turns -/

/-- A turn either stops with the total within the tolerance or pushes the node that the
heap gives up. -/
theorem PushInv.turn (h : PushInv g seed restart tolerance s) (htolerance : 0 < tolerance) :
    s.residualTotal ≤ tolerance ∧ turn g seed restart tolerance s = .stop s ∨
      ∃ node heap, tolerance < s.residualTotal ∧
        s.heap.pop (better s.residual) = some (node, heap) ∧
        turn g seed restart tolerance s = .again node (s.push g seed restart node heap) := by
  have hrecount : (if s.residualTotal ≤ tolerance then { s with residualTotal := s.heapTotal }
      else s) = s := by
    rw [h.recount, ite_self]
  unfold Akasha.turn
  rw [hrecount]
  by_cases hclosed : s.residualTotal ≤ tolerance
  · exact Or.inl ⟨hclosed, if_pos hclosed⟩
  · cases hpop : s.heap.pop (better s.residual) with
    | none =>
        have hzero : s.residualTotal = 0 := by
          rw [h.total, sum_congr rfl fun v _ => h.queued.zero_of_pop hpop v, sum_const_zero]
        exact absurd (hzero.le.trans htolerance.le) hclosed
    | some p =>
        refine Or.inr ⟨p.1, p.2, not_le.mp hclosed, rfl, ?_⟩
        simp [hclosed, hpop]

variable {capturePaths : Bool}

theorem next_some (htolerance : 0 < tolerance) {s t : PushState n} {v : Fin n}
    (h : PushInv g seed restart tolerance s)
    (hn : (pushMachine g seed restart tolerance capturePaths).next s v = some t) :
    ∃ heap, tolerance < s.residualTotal ∧ s.heap.pop (better s.residual) = some (v, heap) ∧
      t = s.push g seed restart v heap := by
  simp only [pushMachine] at hn
  obtain ⟨-, hturn⟩ | ⟨node, heap, hopen, hpop, hturn⟩ := h.turn htolerance
  · rw [hturn] at hn
    cases hn
  · rw [hturn] at hn
    simp only [Option.ite_none_right_eq_some, Option.some.injEq] at hn
    obtain ⟨rfl, rfl⟩ := hn
    exact ⟨heap, hopen, hpop, rfl⟩

theorem PushInv.next (hg : Stochastic g) (hseed : IsSeed seed) (hrestart : 0 < restart)
    (hrestart' : restart ≤ 1) (htolerance : 0 < tolerance) {s t : PushState n} {v : Fin n}
    (h : PushInv g seed restart tolerance s)
    (hn : (pushMachine g seed restart tolerance capturePaths).next s v = some t) :
    PushInv g seed restart tolerance t := by
  obtain ⟨heap, hopen, hpop, rfl⟩ := next_some htolerance h hn
  exact h.push hg hseed hrestart hrestart' hopen hpop

theorem reachable_inv (hg : Stochastic g) (hseed : IsSeed seed) (hrestart : 0 < restart)
    (hrestart' : restart ≤ 1) (htolerance : 0 < tolerance) {s : PushState n}
    (h : (pushMachine g seed restart tolerance capturePaths).Reachable s) :
    PushInv g seed restart tolerance s := by
  refine h.invariant (fun s hs => ?_) fun s v t hs _ hn =>
    hs.next hg hseed hrestart hrestart' htolerance hn
  rw [hs]
  exact initialState_inv hseed capturePaths

/-- The pushes are bounded, since each leaves its part in the reserve. -/
theorem PushInv.pushes_le (h : PushInv g seed restart tolerance s) :
    s.pushes * (restart * tolerance) ≤ n := by
  have hleft : 0 ≤ ∑ v, s.residual v := sum_nonneg fun v _ => h.queued.nonneg v
  have hreserve : ∑ v, s.reserve v ≤ 1 := by linarith [h.mass]
  calc s.pushes * (restart * tolerance) ≤ n * ∑ v, s.reserve v := h.progress
    _ ≤ n * 1 := mul_le_mul_of_nonneg_left hreserve (Nat.cast_nonneg n)
    _ = n := mul_one _

/-! ## The loop -/

/-- With fuel for the pushes that are left the loop ends. -/
theorem pushLoop_ok (hg : Stochastic g) (hseed : IsSeed seed) (hrestart : 0 < restart)
    (hrestart' : restart ≤ 1) (htolerance : 0 < tolerance) {fuel : ℕ} {s : PushState n}
    (h : (pushMachine g seed restart tolerance capturePaths).Reachable s)
    (hfuel : n < ((s.pushes + fuel : ℕ) : ℚ) * (restart * tolerance)) :
    ∃ t, pushLoop g seed restart tolerance fuel s = some (.ok t) ∧
      (pushMachine g seed restart tolerance capturePaths).Reachable t ∧
      t.residualTotal ≤ tolerance := by
  induction fuel generalizing s with
  | zero =>
      have hbound := (reachable_inv hg hseed hrestart hrestart' htolerance h).pushes_le
      exact absurd hfuel (not_lt.mpr hbound)
  | succ fuel ih =>
      have hinv := reachable_inv hg hseed hrestart hrestart' htolerance h
      obtain ⟨hclosed, hturn⟩ | ⟨node, heap, -, hpop, hturn⟩ := hinv.turn htolerance
      · exact ⟨s, by rw [pushLoop, hturn], h, hclosed⟩
      · have hnext : (pushMachine g seed restart tolerance capturePaths).next s node =
            some (s.push g seed restart node heap) := by
          simp [pushMachine, hturn]
        have hpushes := (push_pushed hg hseed hrestart' hinv hpop).pushes
        rw [pushLoop, hturn]
        refine ih (h.step trivial hnext) ?_
        rw [hpushes, add_assoc, Nat.add_comm 1]
        exact hfuel

theorem pushLoop_mono {fuel more : ℕ} {s : PushState n} {r : Except String (PushState n)}
    (h : pushLoop g seed restart tolerance fuel s = some r) (hle : fuel ≤ more) :
    pushLoop g seed restart tolerance more s = some r := by
  induction fuel generalizing s more with
  | zero => cases h
  | succ fuel ih =>
      obtain ⟨more, rfl⟩ := Nat.exists_eq_add_of_le' (Nat.le_of_add_left_le hle)
      have hle' := Nat.le_of_add_le_add_right hle
      rw [pushLoop] at h ⊢
      cases hturn : Akasha.turn g seed restart tolerance s with
      | stop t =>
          rw [hturn] at h
          exact h
      | raise message =>
          rw [hturn] at h
          exact h
      | again node t =>
          rw [hturn] at h
          exact ih h hle'

theorem residualPush_eq (hseed : IsSeed seed) (fuel : ℕ) :
    residualPush fuel g seed restart tolerance capturePaths =
      (pushLoop g seed restart tolerance fuel (initialState seed capturePaths)).map
        (Except.map PushState.result) := by
  refine if_neg fun hnil => ?_
  have htotal := hseed.total
  rw [hnil] at htotal
  simp at htotal

/-- Every turn pushes a node with the largest residual, reserve and residual always sum
to one, and the push ends below the tolerance with an error that is its residual. -/
theorem residualPush_exact (g : Transitions n) (seed : List (Fin n × ℚ)) (restart tolerance : ℚ)
    (capturePaths : Bool) (hg : Stochastic g) (hseed : IsSeed seed) (hrestart : 0 < restart)
    (hrestart' : restart ≤ 1) (htolerance : 0 < tolerance) :
    (∀ s, (pushMachine g seed restart tolerance capturePaths).Reachable s →
      ∑ v, s.reserve v + ∑ v, s.residual v = 1 ∧
      s.heap.nodes.Nodup ∧ (∀ v, v ∈ s.heap.nodes ↔ s.residual v ≠ 0) ∧
      ∀ v t, (pushMachine g seed restart tolerance capturePaths).next s v = some t →
        ∀ w, s.residual w < s.residual v ∨ s.residual w = s.residual v ∧ v ≤ w) ∧
    (∀ fuel message,
      residualPush fuel g seed restart tolerance capturePaths ≠ some (.error message)) ∧
    ∃ fuel s, (pushMachine g seed restart tolerance capturePaths).Reachable s ∧
      (∀ more, fuel ≤ more →
        residualPush more g seed restart tolerance capturePaths = some (.ok s.result)) ∧
      s.result.residualL1 = ∑ v, s.residual v ∧ s.result.residualL1 ≤ tolerance ∧
      ∃ x, (∀ y, Solves restart (kernel g seed) (weightOf seed) y ↔ y = x) ∧
        (∀ v, s.result.reserve v ≤ x v) ∧
        ∑ v, (x v - s.result.reserve v) = s.result.residualL1 := by
  have hinv (s : PushState n)
      (h : (pushMachine g seed restart tolerance capturePaths).Reachable s) :=
    reachable_inv hg hseed hrestart hrestart' htolerance h
  have hkernel := isKernel_kernel hg hseed
  have hstart : (pushMachine g seed restart tolerance capturePaths).Reachable
      (initialState seed capturePaths) := .start rfl
  obtain ⟨fuel, hfuel⟩ := exists_nat_gt ((n : ℚ) / (restart * tolerance))
  have hbound : (n : ℚ) <
      (((initialState seed capturePaths).pushes + fuel : ℕ) : ℚ) * (restart * tolerance) := by
    simpa [initialState] using (div_lt_iff₀ (mul_pos hrestart htolerance)).mp hfuel
  obtain ⟨s, hloop, hreach, hclosed⟩ :=
    pushLoop_ok hg hseed hrestart hrestart' htolerance hstart hbound
  have hresult (more : ℕ) (hle : fuel ≤ more) :
      residualPush more g seed restart tolerance capturePaths = some (.ok s.result) := by
    rw [residualPush_eq hseed, pushLoop_mono hloop hle]
    rfl
  have hs := hinv s hreach
  refine ⟨fun t ht => ?_, fun less message herror => ?_, fuel, s, hreach, hresult, hs.total,
    hclosed, ?_⟩
  · have hqueued := (hinv t ht).queued
    refine ⟨(hinv t ht).mass, hqueued.placed.nodup, hqueued.mem, fun v u hn => ?_⟩
    obtain ⟨heap, -, hpop, -⟩ := next_some htolerance (hinv t ht) hn
    exact (hqueued.pop hpop).1
  · -- an error with some fuel would be the answer with all the fuel that is enough
    rw [residualPush_eq hseed] at herror
    obtain ⟨r, hr, hmap⟩ := Option.map_eq_some_iff.mp herror
    have hmore := pushLoop_mono hr (Nat.le_max_left less fuel)
    rw [pushLoop_mono hloop (Nat.le_max_right less fuel)] at hmore
    cases hmore
    cases hmap
  · obtain ⟨x, hx, hunique⟩ := existsUnique_solves hkernel hrestart hrestart' (weightOf seed)
    have hrest := hs.solved x hx
    refine ⟨x, fun y => ⟨hunique y, fun heq => heq ▸ hx⟩, fun v => ?_, ?_⟩
    · exact sub_nonneg.mp (hrest.nonneg hkernel hrestart hrestart' hs.queued.nonneg v)
    · exact (hrest.total hkernel hrestart).trans hs.total.symm

/-- One node passes half of its mass on, the other keeps nothing back. -/
theorem residualPush_exact_two :
    ∃ fuel s, (pushMachine (n := 2) ![([(1, 1 / 2, 0)], 1 / 2), ([], 1)] [(0, 1)] (1 / 2) (1 / 4)
        true).Reachable s ∧ ∀ more, fuel ≤ more → residualPush more
          ![([(1, 1 / 2, 0)], 1 / 2), ([], 1)] [(0, 1)] (1 / 2) (1 / 4) true = some (.ok s.result) := by
  have hg : Stochastic (n := 2) ![([(1, 1 / 2, 0)], 1 / 2), ([], 1)] := by
    refine ⟨fun v => ?_, fun v => ?_, fun v => ?_⟩
    · fin_cases v
      · simp
      · simp
    · fin_cases v
      · simp
      · simp
    · fin_cases v
      · norm_num
      · norm_num
  have hseed : IsSeed (n := 2) [(0, 1)] := ⟨by simp, by simp, by simp⟩
  obtain ⟨-, -, fuel, s, hreach, hresult, -⟩ := residualPush_exact _ _ (1 / 2) (1 / 4) true hg hseed
    (by norm_num) (by norm_num) (by norm_num)
  exact ⟨fuel, s, hreach, hresult⟩

end MonoAgent.Akasha
