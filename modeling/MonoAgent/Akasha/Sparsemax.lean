import Mathlib
import MonoAgent.Lib.Simplex

/-!
# Sparsemax

`_sparsemax` turns a vector of logits into the masses of its support: the logits
are sorted downwards, a rank is kept while one plus its multiple of the logit is
above the running sum, and the last kept rank fixes the threshold.  The order of
equal logits is a parameter of `sparsemaxBy`, so that nothing rests on it.

The last kept rank alone decides: the condition holds there, hence every logit up
to it is above the threshold, and fails behind it, hence every later logit is at
most the threshold (`Kept.above`, `Kept.below`).
-/

namespace MonoAgent.Akasha

open Lib

variable {α : Type*} [Field α] {n : ℕ}

/-- `np.cumsum` over a list, from what was summed before. -/
def cumsum (before : α) : List α → List α
  | [] => []
  | x :: xs => (before + x) :: cumsum (before + x) xs

theorem cumsum_getElem? (before : α) (xs : List α) {k : ℕ} (hk : k < xs.length) :
    (cumsum before xs)[k]? = some (before + (xs.take (k + 1)).sum) := by
  induction xs generalizing before k with
  | nil => simp at hk
  | cons x xs ih =>
      cases k with
      | zero => simp [cumsum]
      | succ k =>
          have hk' : k < xs.length := by simpa using hk
          simp [cumsum, ih (before + x) hk', add_assoc]

variable [LinearOrder α]

/-- `np.argsort(-logits, kind="stable")`. -/
def argsort (logits : Fin n → α) : List (Fin n) :=
  (List.finRange n).insertionSort fun i j => -logits i ≤ -logits j

/-- `1.0 + np.arange(1, size + 1) * ordered > cumulative`, the entry of one rank. -/
def condition (ordered cumulative : List α) (rank : ℕ) : Bool :=
  match ordered[rank]?, cumulative[rank]? with
  | some x, some total => 1 + (rank + 1 : ℕ) * x > total
  | _, _ => false

/-- `np.flatnonzero(condition)[-1]` of a condition on `size` ranks. -/
def lastKept (size : ℕ) (condition : ℕ → Bool) : Option ℕ :=
  ((List.range size).filter condition).getLast?

/-- `np.sort(support)`. -/
def sortIndices (support : List (Fin n)) : List (Fin n) :=
  support.insertionSort fun i j => i ≤ j

/-- `_sparsemax` with the order given.  `none` is the `IndexError` of an empty
`np.flatnonzero(condition)`. -/
def sparsemaxBy (order : List (Fin n)) (logits : Fin n → α) : Option (List (Fin n × α)) :=
  if n = 0 ∨ ¬ ∃ i, logits i ≠ 0 then
    some []
  else
    let ordered := order.map logits
    let cumulative := cumsum 0 ordered
    (lastKept n (condition ordered cumulative)).bind fun last =>
      let supportSize := last + 1
      cumulative[supportSize - 1]?.map fun total =>
        let threshold := (total - 1) / (supportSize : α)
        let support := order.take supportSize
        ((sortIndices support).filter fun i => logits i > threshold).map
          fun i => (i, logits i - threshold)

/-- `_sparsemax`. -/
def sparsemax (logits : Fin n → α) : Option (List (Fin n × α)) :=
  sparsemaxBy (argsort logits) logits

/-- The non-zero coordinates of a vector in increasing index order. -/
def nonzeroEntries (p : Fin n → α) : List (Fin n × α) :=
  ((List.finRange n).filter fun i => p i ≠ 0).map fun i => (i, p i)

/-- An order of all indices that lists the logits downwards. -/
structure Descending (logits : Fin n → α) (order : List (Fin n)) : Prop where
  perm : order.Perm (List.finRange n)
  sorted : order.Pairwise fun i j => logits j ≤ logits i

/-! ## The last kept rank -/

theorem condition_iff {ordered : List α} {rank : ℕ} (h : rank < ordered.length) :
    condition ordered (cumsum 0 ordered) rank = true ↔
      (ordered.take (rank + 1)).sum < 1 + (rank + 1 : ℕ) * ordered[rank] := by
  simp [condition, cumsum_getElem? 0 ordered h, List.getElem?_eq_getElem h]

theorem lastKept_eq_some {size : ℕ} {kept : ℕ → Bool} {last : ℕ}
    (h : lastKept size kept = some last) :
    last < size ∧ kept last = true ∧ ∀ k, last < k → k < size → kept k = false := by
  obtain ⟨before, hsplit⟩ := List.getLast?_eq_some_iff.mp h
  have hmem : last ∈ (List.range size).filter kept := by simp [hsplit]
  obtain ⟨hlt, hkept⟩ := List.mem_filter.mp hmem
  refine ⟨List.mem_range.mp hlt, hkept, fun k hk hsize => ?_⟩
  by_contra hnot
  have hk' : k ∈ (List.range size).filter kept := by
    simpa [hsize] using hnot
  rw [hsplit, List.mem_append, List.mem_singleton] at hk'
  have hsorted : ((List.range size).filter kept).Pairwise (· < ·) :=
    List.pairwise_lt_range.filter _
  rw [hsplit] at hsorted
  rcases hk' with hk' | rfl
  · have hlater := (List.pairwise_append.mp hsorted).2.2 k hk' last (by simp)
    omega
  · omega

/-- The first rank is always kept, so some rank is the last one. -/
theorem exists_lastKept {ordered : List α} [IsStrictOrderedRing α] (h : ordered ≠ []) :
    ∃ last, lastKept ordered.length (condition ordered (cumsum 0 ordered)) = some last := by
  have hpos : 0 < ordered.length := List.length_pos_iff.mpr h
  have hfirst : condition ordered (cumsum 0 ordered) 0 = true := by
    rw [condition_iff hpos]
    cases ordered with
    | nil => simp at hpos
    | cons x xs => simp
  have hmem : 0 ∈ (List.range ordered.length).filter (condition ordered (cumsum 0 ordered)) := by
    simp [hpos, hfirst]
  exact Option.ne_none_iff_exists'.mp fun hnone => by
    simp [List.getLast?_eq_none_iff.mp hnone] at hmem

theorem argsort_descending [IsStrictOrderedRing α] (logits : Fin n → α) :
    Descending logits (argsort logits) := by
  constructor
  · exact List.perm_insertionSort _ _
  · have : Std.Total fun i j : Fin n => -logits i ≤ -logits j := ⟨fun i j => le_total _ _⟩
    have : IsTrans (Fin n) fun i j => -logits i ≤ -logits j := ⟨fun _ _ _ => le_trans⟩
    have hsorted := List.pairwise_insertionSort (fun i j => -logits i ≤ -logits j) (List.finRange n)
    exact hsorted.imp fun h => neg_le_neg_iff.mp h

/-! ## The threshold -/

/-- The last kept rank of a descending list. -/
structure Kept (ordered : List α) (last : ℕ) : Prop where
  sorted : ordered.Pairwise fun x y => y ≤ x
  lt : last < ordered.length
  kept : (ordered.take (last + 1)).sum < 1 + (last + 1 : ℕ) * ordered[last]
  later : ∀ (k : ℕ) (h : k < ordered.length), last < k →
    1 + (k + 1 : ℕ) * ordered[k] ≤ (ordered.take (k + 1)).sum

theorem Kept.of_lastKept {ordered : List α} {last : ℕ}
    (hsorted : ordered.Pairwise fun x y => y ≤ x)
    (h : lastKept ordered.length (condition ordered (cumsum 0 ordered)) = some last) :
    Kept ordered last := by
  obtain ⟨hlt, hkept, hlater⟩ := lastKept_eq_some h
  refine ⟨hsorted, hlt, (condition_iff hlt).mp hkept, fun k hk hlast => ?_⟩
  have hfalse := hlater k hlast hk
  exact not_lt.mp fun hsum => by simp [(condition_iff hk).mpr hsum] at hfalse

/-- The threshold that the running sum up to a rank gives. -/
def thresholdAt (ordered : List α) (last : ℕ) : α :=
  ((ordered.take (last + 1)).sum - 1) / (last + 1 : ℕ)

variable [IsStrictOrderedRing α]

theorem mul_thresholdAt (ordered : List α) (last : ℕ) :
    (last + 1 : ℕ) * thresholdAt ordered last = (ordered.take (last + 1)).sum - 1 := by
  have hne : ((last + 1 : ℕ) : α) ≠ 0 := Nat.cast_ne_zero.mpr (Nat.succ_ne_zero last)
  exact mul_div_cancel₀ _ hne

theorem Kept.above {ordered : List α} {last : ℕ} (h : Kept ordered last) {x : α}
    (hx : x ∈ ordered.take (last + 1)) : thresholdAt ordered last < x := by
  have hpos : (0 : α) < (last + 1 : ℕ) := Nat.cast_pos.mpr (Nat.succ_pos last)
  have hlt := h.lt
  have hlast : thresholdAt ordered last < ordered[last] := by
    rw [thresholdAt, div_lt_iff₀ hpos, mul_comm]
    linarith [h.kept]
  obtain ⟨k, hk, rfl⟩ := List.mem_iff_getElem.mp hx
  have hk' : k < last + 1 ∧ k < ordered.length := by simpa using hk
  rw [List.getElem_take]
  rcases Nat.lt_or_ge k last with hlt | hge
  · exact hlast.trans_le (List.pairwise_iff_getElem.mp h.sorted k last hk'.2 h.lt hlt)
  · have heq : k = last := by omega
    subst heq
    exact hlast

theorem Kept.below {ordered : List α} {last : ℕ} (h : Kept ordered last) {x : α}
    (hx : x ∈ ordered.drop (last + 1)) : x ≤ thresholdAt ordered last := by
  have hpos : (0 : α) < (last + 1 : ℕ) := Nat.cast_pos.mpr (Nat.succ_pos last)
  obtain ⟨k, hk, rfl⟩ := List.mem_iff_getElem.mp hx
  have hk' : k < ordered.length - (last + 1) := by simpa using hk
  have hnext : last + 1 < ordered.length := by omega
  have hle : ordered[last + 1] ≤ thresholdAt ordered last := by
    have hlater := h.later (last + 1) hnext (Nat.lt_succ_self last)
    rw [List.take_add_one, List.getElem?_eq_getElem hnext, List.sum_append] at hlater
    rw [thresholdAt, le_div_iff₀ hpos]
    push_cast at hlater ⊢
    simp at hlater
    linarith
  rw [List.getElem_drop]
  rcases Nat.eq_zero_or_pos k with rfl | hkpos
  · exact hle
  · exact (List.pairwise_iff_getElem.mp h.sorted (last + 1) (last + 1 + k) hnext
      (by omega) (by omega)).trans hle

/-! ## The projection -/

omit [LinearOrder α] [IsStrictOrderedRing α] in
theorem sum_map_sub (logits : Fin n → α) (t : α) (l : List (Fin n)) :
    (l.map fun i => logits i - t).sum = (l.map logits).sum - l.length * t := by
  induction l with
  | nil => simp
  | cons i l ih =>
      simp only [List.map_cons, List.sum_cons, ih, List.length_cons]
      push_cast
      ring

/-- The vector cut at a threshold. -/
def cut (logits : Fin n → α) (t : α) : Fin n → α :=
  fun i => max (logits i - t) 0

omit [IsStrictOrderedRing α] in
theorem cut_cutAt (logits : Fin n → α) (t : α) : CutAt t logits (cut logits t) :=
  fun _ => rfl

/-- The support is the start of the order up to the last kept rank, and the masses
above the threshold sum to one. -/
theorem sum_cut {logits : Fin n → α} {order : List (Fin n)} {last : ℕ}
    (horder : Descending logits order) (h : Kept (order.map logits) last) :
    ∑ i, cut logits (thresholdAt (order.map logits) last) i = 1 := by
  set t := thresholdAt (order.map logits) last with ht
  have hcut := cut_cutAt logits t
  have hsupport : ((order.take (last + 1)).map (cut logits t)).sum = 1 := by
    have heach : (order.take (last + 1)).map (cut logits t) =
        (order.take (last + 1)).map fun i => logits i - t := by
      refine List.map_congr_left fun i hi => hcut.eq_sub ?_
      exact h.above (by simpa [List.map_take] using List.mem_map_of_mem (f := logits) hi)
    have hlen : (order.take (last + 1)).length = last + 1 := by
      have hlt := h.lt
      simp at hlt
      simp
      omega
    have hsum : ((order.take (last + 1)).map fun i => logits i - t).sum =
        ((order.take (last + 1)).map logits).sum - (last + 1 : ℕ) * t := by
      rw [sum_map_sub, hlen]
    rw [heach, hsum, ht, mul_thresholdAt, List.map_take]
    ring
  have hrest : ((order.drop (last + 1)).map (cut logits t)).sum = 0 := by
    refine List.sum_eq_zero fun x hx => ?_
    obtain ⟨i, hi, rfl⟩ := List.mem_map.mp hx
    exact hcut.eq_zero
      (h.below (by simpa [List.map_drop] using List.mem_map_of_mem (f := logits) hi))
  calc ∑ i, cut logits t i = ((List.finRange n).map (cut logits t)).sum := Fin.sum_univ_def _
    _ = (order.map (cut logits t)).sum := ((horder.perm.map _).sum_eq).symm
    _ = ((order.take (last + 1)).map (cut logits t)).sum +
          ((order.drop (last + 1)).map (cut logits t)).sum := by
        rw [← List.sum_append, ← List.map_append, List.take_append_drop]
    _ = 1 := by rw [hsupport, hrest, add_zero]

/-- Sorting and filtering the support lists the indices of the non-zero entries. -/
theorem sorted_support {logits : Fin n → α} {order : List (Fin n)} {last : ℕ}
    (horder : Descending logits order) (h : Kept (order.map logits) last) :
    ((sortIndices (order.take (last + 1))).filter fun i =>
        logits i > thresholdAt (order.map logits) last) =
      (List.finRange n).filter fun i => cut logits (thresholdAt (order.map logits) last) i ≠ 0 := by
  set t := thresholdAt (order.map logits) last with ht
  have hcut := cut_cutAt logits t
  have hnonzero (i : Fin n) : cut logits t i ≠ 0 ↔ t < logits i := by
    rw [← hcut.pos_iff]
    exact ⟨fun hne => lt_of_le_of_ne (hcut.nonneg i) (Ne.symm hne), ne_of_gt⟩
  have hnodup : order.Nodup := horder.perm.nodup_iff.mpr (List.nodup_finRange n)
  have hsortedSupport : (sortIndices (order.take (last + 1))).Pairwise (· ≤ ·) :=
    List.pairwise_insertionSort _ _
  refine List.Perm.eq_of_pairwise' (r := (· ≤ ·)) (hsortedSupport.filter _)
    ((List.pairwise_le_finRange n).filter _) ?_
  rw [List.perm_ext_iff_of_nodup]
  · intro i
    have hall : i ∈ order := by simp [horder.perm.mem_iff]
    rw [← List.take_append_drop (last + 1) order, List.mem_append] at hall
    simp only [List.mem_filter, decide_eq_true_eq, hnonzero, List.mem_finRange, true_and,
      sortIndices, List.mem_insertionSort]
    refine and_iff_right_iff_imp.mpr fun habove => ?_
    rcases hall with hin | hout
    · exact hin
    · have hle := h.below
        (by simpa [List.map_drop] using List.mem_map_of_mem (f := logits) hout)
      exact absurd habove (not_lt.mpr hle)
  · have hperm := List.perm_insertionSort (fun i j : Fin n => i ≤ j) (order.take (last + 1))
    exact (hperm.nodup_iff.mpr (hnodup.sublist (List.take_sublist _ _))).filter _
  · exact (List.nodup_finRange n).filter _

omit [IsStrictOrderedRing α] in
theorem sparsemaxBy_zero {logits : Fin n → α} (order : List (Fin n)) (h : ∀ i, logits i = 0) :
    sparsemaxBy order logits = some [] := by
  simp [sparsemaxBy, h]

/-- One run of `_sparsemax` under any order that lists the logits downwards. -/
theorem sparsemaxBy_spec {logits : Fin n → α} {order : List (Fin n)}
    (horder : Descending logits order) (h : ∃ i, logits i ≠ 0) :
    ∃ t, ∑ i, cut logits t i = 1 ∧
      sparsemaxBy order logits = some (nonzeroEntries (cut logits t)) := by
  have hlen : order.length = n := by simp [horder.perm.length_eq]
  have hn : n ≠ 0 := by
    rintro rfl
    obtain ⟨i, -⟩ := h
    exact i.elim0
  have hne : order.map logits ≠ [] := by
    rw [Ne, List.map_eq_nil_iff, ← List.length_eq_zero_iff, hlen]
    exact hn
  obtain ⟨last, hlast⟩ := exists_lastKept hne
  have hsorted : (order.map logits).Pairwise fun x y => y ≤ x :=
    List.pairwise_map.mpr horder.sorted
  have hkept := Kept.of_lastKept hsorted hlast
  refine ⟨thresholdAt (order.map logits) last, sum_cut horder hkept, ?_⟩
  rw [List.length_map, hlen] at hlast
  have htotal := cumsum_getElem? 0 (order.map logits) hkept.lt
  rw [zero_add] at htotal
  have hguard : ¬ (n = 0 ∨ ¬ ∃ i, logits i ≠ 0) := not_or.mpr ⟨hn, not_not.mpr h⟩
  simp only [sparsemaxBy, if_neg hguard, hlast, Option.bind_some, Nat.add_sub_cancel, htotal,
    Option.map_some, nonzeroEntries]
  rw [← sorted_support horder hkept]
  refine congrArg some (List.map_congr_left fun i hi => ?_)
  have habove : thresholdAt (order.map logits) last < logits i := by
    exact of_decide_eq_true (List.mem_filter.mp hi).2
  rw [(cut_cutAt logits _).eq_sub habove]
  rfl

/-- `_sparsemax` lists the non-zero coordinates of the one projection onto the
simplex, whatever the order of equal logits, and nothing exactly on a zero vector. -/
theorem sparsemax_projection (logits : Fin n → α) :
    (sparsemax logits = some [] ↔ ∀ i, logits i = 0) ∧
      ((∃ i, logits i ≠ 0) → ∃ (p : Fin n → α) (t : α),
        (∀ q, IsProjection logits q ↔ q = p) ∧
          (∀ i, p i ≠ 0 → 0 < p i ∧ p i = logits i - t) ∧
          (∀ i, p i = 0 → logits i ≤ t) ∧
          ∑ i, p i = 1 ∧
          sparsemax logits = some (nonzeroEntries p) ∧
          ∀ order, Descending logits order →
            sparsemaxBy order logits = some (nonzeroEntries p)) := by
  have hmain (h : ∃ i, logits i ≠ 0) : ∃ (p : Fin n → α) (t : α),
      (∀ q, IsProjection logits q ↔ q = p) ∧
        (∀ i, p i ≠ 0 → 0 < p i ∧ p i = logits i - t) ∧
        (∀ i, p i = 0 → logits i ≤ t) ∧
        ∑ i, p i = 1 ∧
        sparsemax logits = some (nonzeroEntries p) ∧
        ∀ order, Descending logits order →
          sparsemaxBy order logits = some (nonzeroEntries p) := by
    obtain ⟨t, hsum, heq⟩ := sparsemaxBy_spec (argsort_descending logits) h
    have hcut := cut_cutAt logits t
    refine ⟨cut logits t, t, hcut.isProjection_iff hsum, fun i hi => ?_, fun i hi => ?_, hsum,
      heq, fun order horder => ?_⟩
    · have hpos : 0 < cut logits t i := lt_of_le_of_ne (hcut.nonneg i) (Ne.symm hi)
      exact ⟨hpos, hcut.eq_sub ((hcut.pos_iff i).mp hpos)⟩
    · refine not_lt.mp fun hlt => ?_
      have hpos := (hcut.pos_iff i).mpr hlt
      exact hpos.ne' hi
    · obtain ⟨t', hsum', heq'⟩ := sparsemaxBy_spec horder h
      have hsame : cut logits t' = cut logits t :=
        (hcut.isProjection_iff hsum _).mp
          (((cut_cutAt logits t').isProjection_iff hsum' _).mpr rfl)
      rw [heq', hsame]
  refine ⟨⟨fun hnil => ?_, fun hzero => sparsemaxBy_zero _ hzero⟩, hmain⟩
  by_contra hnot
  obtain ⟨p, t, -, -, -, hsum, heq, -⟩ := hmain (not_forall.mp hnot)
  have hempty : nonzeroEntries p = [] := Option.some.inj (heq.symm.trans hnil)
  have hzero (i : Fin n) : p i = 0 := by
    by_contra hne
    have hmem : (i, p i) ∈ nonzeroEntries p := by simp [nonzeroEntries, hne]
    simp [hempty] at hmem
  simp [hzero] at hsum

theorem sparsemax_two_equal :
    ∃ p : Fin 4 → ℚ, (∀ q, IsProjection ![2, 0, 2, -1] q ↔ q = p) ∧
      nonzeroEntries p = [(0, 1 / 2), (2, 1 / 2)] := by
  obtain ⟨p, t, hp, -, -, -, heq, -⟩ :=
    (sparsemax_projection ![(2 : ℚ), 0, 2, -1]).2 ⟨0, by simp⟩
  have heval : sparsemax ![(2 : ℚ), 0, 2, -1] = some [(0, 1 / 2), (2, 1 / 2)] := by
    decide +kernel
  exact ⟨p, hp, Option.some.inj (heq.symm.trans heval)⟩

end MonoAgent.Akasha
