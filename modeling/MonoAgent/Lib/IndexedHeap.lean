import Mathlib

/-!
# Indexed heaps

A binary heap of entries that knows the position of each of them, so that an entry
whose key has grown can be moved up from where it is.  Both sifts carry their entry
past the others and write it down at the end; `place` is that write.  Between two
turns the heap with the entry written at the hole is a heap again but for the order
around the hole (`UpExcept`, `DownExcept`), and one turn is an exchange of two entries
of it (`exchange`).
-/

namespace MonoAgent.Lib

/-- The entries by position, and the position of every entry. -/
structure IndexedHeap (ι : Type*) where
  nodes : List ι
  position : ι → Option ℕ

namespace IndexedHeap

variable {ι κ : Type*} [DecidableEq ι]

def empty : IndexedHeap ι := ⟨[], fun _ => none⟩

/-- `nodes[p] = v; position[v] = p`. -/
def place (h : IndexedHeap ι) (p : ℕ) (v : ι) : IndexedHeap ι :=
  ⟨h.nodes.set p v, Function.update h.position v (some p)⟩

section Operations

variable (better : ι → ι → Bool)

/-- The loop that carries `node` up from the hole at `p`. -/
def siftUp : ℕ → IndexedHeap ι → ι → ℕ → IndexedHeap ι
  | 0, h, node, p => h.place p node
  | fuel + 1, h, node, p =>
      if p = 0 then h.place p node
      else
        match h.nodes[(p - 1) / 2]? with
        | some parent =>
            if better node parent then siftUp fuel (h.place p parent) node ((p - 1) / 2)
            else h.place p node
        | none => h.place p node

/-- The better child of the hole at `p`, with its position. -/
def child (h : IndexedHeap ι) (p : ℕ) : Option (ℕ × ι) :=
  match h.nodes[2 * p + 1]?, h.nodes[2 * p + 2]? with
  | some left, some right =>
      if better right left then some (2 * p + 2, right) else some (2 * p + 1, left)
  | some left, none => some (2 * p + 1, left)
  | none, _ => none

/-- The loop that carries `node` down from the hole at `p`. -/
def siftDown : ℕ → IndexedHeap ι → ι → ℕ → IndexedHeap ι
  | 0, h, node, p => h.place p node
  | fuel + 1, h, node, p =>
      match h.child better p with
      | some (c, next) =>
          if better next node then siftDown fuel (h.place p next) node c else h.place p node
      | none => h.place p node

/-- A new entry, or one whose key has grown. -/
def update (h : IndexedHeap ι) (v : ι) : IndexedHeap ι :=
  match h.position v with
  | none =>
      let p := h.nodes.length
      siftUp better (p + 1) ⟨h.nodes ++ [v], Function.update h.position v (some p)⟩ v p
  | some p => siftUp better (p + 1) h v p

/-- The first entry and the heap without it. -/
def pop (h : IndexedHeap ι) : Option (ι × IndexedHeap ι) :=
  match h.nodes with
  | [] => none
  | root :: rest =>
      let position := Function.update h.position root none
      match rest.getLast? with
      | none => some (root, ⟨[], position⟩)
      | some last =>
          let h' : IndexedHeap ι := ⟨last :: rest.dropLast, Function.update position last (some 0)⟩
          some (root, siftDown better h'.nodes.length h' last 0)

end Operations

/-! ## Positions -/

/-- The positions are those of the entries. -/
def Placed (h : IndexedHeap ι) : Prop :=
  ∀ v i, h.position v = some i ↔ h.nodes[i]? = some v

omit [DecidableEq ι] in
theorem Placed.inj {h : IndexedHeap ι} (hp : h.Placed) {i j : ℕ} {v : ι}
    (hi : h.nodes[i]? = some v) (hj : h.nodes[j]? = some v) : i = j := by
  have hi' := (hp v i).mpr hi
  have hj' := (hp v j).mpr hj
  exact Option.some.inj (hi'.symm.trans hj')

omit [DecidableEq ι] in
theorem Placed.mem_iff {h : IndexedHeap ι} (hp : h.Placed) (v : ι) :
    v ∈ h.nodes ↔ h.position v ≠ none := by
  rw [List.mem_iff_getElem?, Option.ne_none_iff_exists']
  exact exists_congr fun i => (hp v i).symm

omit [DecidableEq ι] in
theorem Placed.nodup {h : IndexedHeap ι} (hp : h.Placed) : h.nodes.Nodup := by
  rw [List.nodup_iff_getElem?_ne_getElem?]
  intro i j hij hj heq
  obtain ⟨v, hv⟩ : ∃ v, h.nodes[j]? = some v := ⟨_, List.getElem?_eq_getElem hj⟩
  have := hp.inj (heq.trans hv) hv
  omega

theorem place_self {h : IndexedHeap ι} (hp : h.Placed) {p : ℕ} {v : ι}
    (hv : h.nodes[p]? = some v) : h.place p v = h := by
  have hposition := (hp v p).mpr hv
  obtain ⟨hlt, hget⟩ := List.getElem?_eq_some_iff.mp hv
  unfold place
  congr 1
  · rw [← hget, List.set_getElem_self]
  · rw [← hposition, Function.update_eq_self]

/-- Writing an entry down at the hole, moving another there, and writing the first
where that one was. -/
theorem place_place_place (h : IndexedHeap ι) (p q : ℕ) {node other : ι} (hne : node ≠ other) :
    ((h.place p node).place p other).place q node = (h.place p other).place q node := by
  unfold place
  congr 1
  · simp
  · funext v
    rcases eq_or_ne v node with rfl | hv
    · simp
    · rcases eq_or_ne v other with rfl | hv'
      · simp [Function.update_of_ne hv]
      · simp [Function.update_of_ne hv, Function.update_of_ne hv']

/-- What an exchange of the entries at `p` and `q` leaves. -/
structure Exchange (h h' : IndexedHeap ι) (p q : ℕ) : Prop where
  placed : h'.Placed
  left : h'.nodes[p]? = h.nodes[q]?
  right : h'.nodes[q]? = h.nodes[p]?
  other : ∀ i, i ≠ p → i ≠ q → h'.nodes[i]? = h.nodes[i]?
  length : h'.nodes.length = h.nodes.length
  members : ∀ v, v ∈ h'.nodes ↔ v ∈ h.nodes

theorem exchange {h : IndexedHeap ι} (hp : h.Placed) {p q : ℕ} {a b : ι}
    (ha : h.nodes[p]? = some a) (hb : h.nodes[q]? = some b) (hne : p ≠ q) :
    Exchange h ((h.place p b).place q a) p q := by
  have hab : a ≠ b := by
    rintro rfl
    exact hne (hp.inj ha hb)
  obtain ⟨hplt, -⟩ := List.getElem?_eq_some_iff.mp ha
  obtain ⟨hqlt, -⟩ := List.getElem?_eq_some_iff.mp hb
  have hleft : ((h.place p b).place q a).nodes[p]? = some b := by
    simp [place, hne.symm, hplt]
  have hright : ((h.place p b).place q a).nodes[q]? = some a := by
    simp [place, hqlt]
  have hother (i : ℕ) (hip : i ≠ p) (hiq : i ≠ q) :
      ((h.place p b).place q a).nodes[i]? = h.nodes[i]? := by
    simp [place, Ne.symm hip, Ne.symm hiq]
  have hposition (v : ι) : ((h.place p b).place q a).position v =
      if v = a then some q else if v = b then some p else h.position v := by
    simp [place, Function.update_apply]
  have hplaced : ((h.place p b).place q a).Placed := by
    intro v i
    rw [hposition]
    rcases eq_or_ne i q with rfl | hiq
    · rw [hright]
      split_ifs with hva hvb
      · simp [hva]
      · simp [hvb, hab, hne]
      · rw [hp v i, hb]
        simp [Ne.symm hva, Ne.symm hvb]
    · rcases eq_or_ne i p with rfl | hip
      · rw [hleft]
        split_ifs with hva hvb
        · simp [hva, Ne.symm hab, hne.symm]
        · simp [hvb]
        · rw [hp v i, ha]
          simp [Ne.symm hva, Ne.symm hvb]
      · rw [hother i hip hiq, ← hp v i]
        split_ifs with hva hvb
        · subst hva
          rw [(hp v p).mpr ha]
          simp [Ne.symm hiq, Ne.symm hip]
        · subst hvb
          rw [(hp v q).mpr hb]
          simp [Ne.symm hiq, Ne.symm hip]
        · rfl
  refine ⟨hplaced, by rw [hleft, hb], by rw [hright, ha], hother, by simp [place], fun v => ?_⟩
  rw [hplaced.mem_iff, hp.mem_iff, hposition]
  split_ifs with hva hvb
  · rw [hva, (hp a p).mpr ha]
    simp
  · rw [hvb, (hp b q).mpr hb]
    simp
  · rfl

/-! ## Order -/

variable [LinearOrder κ] {key : ι → κ} {better : ι → ι → Bool}

/-- No entry has a larger key than its parent. -/
def Ordered (key : ι → κ) (h : IndexedHeap ι) : Prop :=
  ∀ i a b, 0 < i → h.nodes[i]? = some a → h.nodes[(i - 1) / 2]? = some b → key a ≤ key b

/-- Order but for the entry at `p`, which may belong further up. -/
structure UpExcept (key : ι → κ) (h : IndexedHeap ι) (p : ℕ) : Prop where
  except : ∀ i a b, 0 < i → i ≠ p → h.nodes[i]? = some a → h.nodes[(i - 1) / 2]? = some b →
    key a ≤ key b
  grand : 0 < p → ∀ i a b, 0 < i → (i - 1) / 2 = p → h.nodes[i]? = some a →
    h.nodes[(p - 1) / 2]? = some b → key a ≤ key b

/-- Order but for the children of `p`, whose entry may belong further down. -/
structure DownExcept (key : ι → κ) (h : IndexedHeap ι) (p : ℕ) : Prop where
  except : ∀ i a b, 0 < i → (i - 1) / 2 ≠ p → h.nodes[i]? = some a →
    h.nodes[(i - 1) / 2]? = some b → key a ≤ key b
  grand : 0 < p → ∀ i a b, 0 < i → (i - 1) / 2 = p → h.nodes[i]? = some a →
    h.nodes[(p - 1) / 2]? = some b → key a ≤ key b

omit [DecidableEq ι] in
/-- The first entry has the largest key. -/
theorem Ordered.root {h : IndexedHeap ι} (ho : Ordered key h) {root : ι}
    (hroot : h.nodes[0]? = some root) (i : ℕ) {a : ι} (ha : h.nodes[i]? = some a) :
    key a ≤ key root := by
  induction i using Nat.strongRecOn generalizing a with
  | ind i ih =>
      rcases Nat.eq_zero_or_pos i with rfl | hpos
      · rw [hroot] at ha
        rw [Option.some.inj ha]
      · obtain ⟨hlt, -⟩ := List.getElem?_eq_some_iff.mp ha
        have hparent : (i - 1) / 2 < h.nodes.length := by omega
        have hb := List.getElem?_eq_getElem hparent
        exact (ho i a _ hpos ha hb).trans (ih _ (by omega) hb)

omit [DecidableEq ι] in
/-- One turn upwards. -/
theorem UpExcept.exchange {h h' : IndexedHeap ι} {p : ℕ} (hup : UpExcept key h p) (hp : 0 < p)
    (hx : Exchange h h' p ((p - 1) / 2)) {node parent : ι} (hnode : h.nodes[p]? = some node)
    (hparent : h.nodes[(p - 1) / 2]? = some parent) (hlt : key parent < key node) :
    UpExcept key h' ((p - 1) / 2) := by
  have hq : (p - 1) / 2 < p := by omega
  have hleft := hx.left.trans hparent
  have hright := hx.right.trans hnode
  constructor
  · intro i a b hi hiq ha hb
    rcases eq_or_ne i p with rfl | hip
    · rw [hleft] at ha
      rw [hright] at hb
      rw [← Option.some.inj ha, ← Option.some.inj hb]
      exact hlt.le
    · rw [hx.other i hip hiq] at ha
      rcases eq_or_ne ((i - 1) / 2) p with hpp | hpp
      · rw [hpp, hleft] at hb
        rw [← Option.some.inj hb]
        exact hup.grand hp i a parent hi hpp ha hparent
      · rcases eq_or_ne ((i - 1) / 2) ((p - 1) / 2) with hpq | hpq
        · rw [hpq, hright] at hb
          rw [← Option.some.inj hb]
          exact (hup.except i a parent hi hip ha (by rw [hpq]; exact hparent)).trans hlt.le
        · rw [hx.other _ hpp hpq] at hb
          exact hup.except i a b hi hip ha hb
  · intro hqpos i a b hi hiq ha hb
    have hqq : ((p - 1) / 2 - 1) / 2 < (p - 1) / 2 := by omega
    rw [hx.other _ (by omega) (by omega)] at hb
    have hparentLe : key parent ≤ key b := hup.except _ _ _ hqpos (by omega) hparent hb
    rcases eq_or_ne i p with rfl | hip
    · rw [hleft] at ha
      rw [← Option.some.inj ha]
      exact hparentLe
    · rw [hx.other i hip (by omega)] at ha
      exact (hup.except i a parent hi hip ha (by rw [hiq]; exact hparent)).trans hparentLe

omit [DecidableEq ι] in
/-- An entry that is no larger than its parent is in its place. -/
theorem UpExcept.ordered {h : IndexedHeap ι} {p : ℕ} (hup : UpExcept key h p)
    (hstop : 0 < p → ∀ a b, h.nodes[p]? = some a → h.nodes[(p - 1) / 2]? = some b →
      key a ≤ key b) : Ordered key h := by
  intro i a b hi ha hb
  rcases eq_or_ne i p with rfl | hip
  · exact hstop hi a b ha hb
  · exact hup.except i a b hi hip ha hb

/-- The heap after a sift: ordered, with the same entries. -/
structure Sifted (key : ι → κ) (h h' : IndexedHeap ι) : Prop where
  placed : h'.Placed
  ordered : Ordered key h'
  members : ∀ v, v ∈ h'.nodes ↔ v ∈ h.nodes

theorem siftUp_spec (hbetter : ∀ a b, better a b = true ↔ key b < key a) {fuel : ℕ}
    {h : IndexedHeap ι} {node : ι} {p : ℕ} (hfuel : p < fuel) (hplaced : (h.place p node).Placed)
    (hnode : (h.place p node).nodes[p]? = some node) (hup : UpExcept key (h.place p node) p) :
    Sifted key (h.place p node) (siftUp better fuel h node p) := by
  induction fuel generalizing h p with
  | zero => exact absurd hfuel (Nat.not_lt_zero _)
  | succ fuel ih =>
      rw [siftUp]
      rcases Nat.eq_zero_or_pos p with rfl | hp
      · rw [if_pos rfl]
        exact ⟨hplaced, hup.ordered fun h0 => absurd h0 (Nat.lt_irrefl _), fun _ => Iff.rfl⟩
      · rw [if_neg (Nat.ne_of_gt hp)]
        have hq : (p - 1) / 2 < p := by omega
        have hread : (h.place p node).nodes[(p - 1) / 2]? = h.nodes[(p - 1) / 2]? := by
          simp [place, (Nat.ne_of_lt hq).symm]
        obtain ⟨hlt, -⟩ := List.getElem?_eq_some_iff.mp hnode
        cases hparent : h.nodes[(p - 1) / 2]? with
        | none =>
            rw [← hread, List.getElem?_eq_none_iff] at hparent
            omega
        | some parent =>
            rw [hparent] at hread
            dsimp only
            by_cases hbt : better node parent = true
            · rw [if_pos hbt]
              have hkey := (hbetter node parent).mp hbt
              have hne : node ≠ parent := by
                rintro rfl
                exact lt_irrefl _ hkey
              have hx := exchange hplaced hnode hread (Nat.ne_of_gt hq)
              rw [place_place_place h p _ hne] at hx
              have hsift := ih (h := h.place p parent) (p := (p - 1) / 2) (by omega) hx.placed
                (hx.right.trans hnode) (hup.exchange hp hx hnode hread hkey)
              exact ⟨hsift.placed, hsift.ordered, fun v => (hsift.members v).trans (hx.members v)⟩
            · rw [if_neg hbt]
              refine ⟨hplaced, hup.ordered fun _ a b ha hb => ?_, fun _ => Iff.rfl⟩
              rw [hnode] at ha
              rw [hread] at hb
              rw [← Option.some.inj ha, ← Option.some.inj hb]
              exact not_lt.mp fun hkey => hbt ((hbetter node parent).mpr hkey)

omit [DecidableEq ι] in
/-- One turn downwards, to the child with the larger key. -/
theorem DownExcept.exchange {h h' : IndexedHeap ι} {p c : ℕ} (hdown : DownExcept key h p)
    (hc : 0 < c) (hcp : (c - 1) / 2 = p) (hx : Exchange h h' p c) {node next : ι}
    (hnode : h.nodes[p]? = some node) (hnext : h.nodes[c]? = some next)
    (hlt : key node < key next)
    (hbest : ∀ i a, 0 < i → (i - 1) / 2 = p → h.nodes[i]? = some a → key a ≤ key next) :
    DownExcept key h' c := by
  have hpc : p < c := by omega
  have hleft := hx.left.trans hnext
  have hright := hx.right.trans hnode
  constructor
  · intro i a b hi hic ha hb
    rcases eq_or_ne i c with rfl | hne
    · rw [hright] at ha
      rw [hcp, hleft] at hb
      rw [← Option.some.inj ha, ← Option.some.inj hb]
      exact hlt.le
    · rcases eq_or_ne i p with rfl | hip
      · rw [hleft] at ha
        rw [hx.other _ (by omega) hic] at hb
        rw [← Option.some.inj ha]
        exact hdown.grand hi c next b hc hcp hnext hb
      · rw [hx.other i hip hne] at ha
        rcases eq_or_ne ((i - 1) / 2) p with hpp | hpp
        · rw [hpp, hleft] at hb
          rw [← Option.some.inj hb]
          exact hbest i a hi hpp ha
        · rw [hx.other _ hpp hic] at hb
          exact hdown.except i a b hi hpp ha hb
  · intro _ i a b hi hic ha hb
    rw [hcp, hleft] at hb
    rw [← Option.some.inj hb]
    rw [hx.other i (by omega) (by omega)] at ha
    exact hdown.except i a next hi (by omega) ha (by rw [hic]; exact hnext)

omit [DecidableEq ι] in
theorem child_spec (hbetter : ∀ a b, better a b = true ↔ key b < key a) {h : IndexedHeap ι}
    {p : ℕ} :
    (∀ c next, h.child better p = some (c, next) → 0 < c ∧ (c - 1) / 2 = p ∧
        h.nodes[c]? = some next ∧
        ∀ i a, 0 < i → (i - 1) / 2 = p → h.nodes[i]? = some a → key a ≤ key next) ∧
      (h.child better p = none → ∀ i, 0 < i → (i - 1) / 2 = p → h.nodes[i]? = none) := by
  have hchild (i : ℕ) (hi : 0 < i) (hip : (i - 1) / 2 = p) : i = 2 * p + 1 ∨ i = 2 * p + 2 := by
    omega
  unfold child
  cases hl : h.nodes[2 * p + 1]? with
  | none =>
      have hr : h.nodes[2 * p + 2]? = none := by
        rw [List.getElem?_eq_none_iff] at hl ⊢
        omega
      refine ⟨fun c next heq => by simp at heq, fun _ i hi hip => ?_⟩
      rcases hchild i hi hip with rfl | rfl
      · exact hl
      · exact hr
  | some left =>
      cases hr : h.nodes[2 * p + 2]? with
      | none =>
          refine ⟨fun c next heq => ?_, fun heq => by simp at heq⟩
          obtain ⟨rfl, rfl⟩ : 2 * p + 1 = c ∧ left = next := by simpa using heq
          refine ⟨by omega, by omega, hl, fun i a hi hip ha => ?_⟩
          rcases hchild i hi hip with rfl | rfl
          · rw [hl] at ha
            rw [Option.some.inj ha]
          · rw [hr] at ha
            cases ha
      | some right =>
          dsimp only
          refine ⟨fun c next heq => ?_, fun heq => by split at heq <;> cases heq⟩
          by_cases hbt : better right left = true
          · rw [if_pos hbt] at heq
            obtain ⟨rfl, rfl⟩ : 2 * p + 2 = c ∧ right = next := by simpa using heq
            refine ⟨by omega, by omega, hr, fun i a hi hip ha => ?_⟩
            rcases hchild i hi hip with rfl | rfl
            · rw [hl] at ha
              rw [← Option.some.inj ha]
              exact ((hbetter right left).mp hbt).le
            · rw [hr] at ha
              rw [Option.some.inj ha]
          · rw [if_neg hbt] at heq
            obtain ⟨rfl, rfl⟩ : 2 * p + 1 = c ∧ left = next := by simpa using heq
            refine ⟨by omega, by omega, hl, fun i a hi hip ha => ?_⟩
            rcases hchild i hi hip with rfl | rfl
            · rw [hl] at ha
              rw [Option.some.inj ha]
            · rw [hr] at ha
              rw [← Option.some.inj ha]
              exact not_lt.mp fun hkey => hbt ((hbetter right left).mpr hkey)

theorem siftDown_spec (hbetter : ∀ a b, better a b = true ↔ key b < key a) {fuel : ℕ}
    {h : IndexedHeap ι} {node : ι} {p : ℕ} (hfuel : h.nodes.length < fuel + p + 1)
    (hplaced : (h.place p node).Placed) (hnode : (h.place p node).nodes[p]? = some node)
    (hdown : DownExcept key (h.place p node) p) :
    Sifted key (h.place p node) (siftDown better fuel h node p) := by
  have hstop (hnone : ∀ i a, 0 < i → (i - 1) / 2 = p → (h.place p node).nodes[i]? = some a →
      key a ≤ key node) : Sifted key (h.place p node) (h.place p node) := by
    refine ⟨hplaced, fun i a b hi ha hb => ?_, fun _ => Iff.rfl⟩
    rcases eq_or_ne ((i - 1) / 2) p with hip | hip
    · rw [hip, hnode] at hb
      rw [← Option.some.inj hb]
      exact hnone i a hi hip ha
    · exact hdown.except i a b hi hip ha hb
  have hlength : (h.place p node).nodes.length = h.nodes.length := by simp [place]
  obtain ⟨hlt, -⟩ := List.getElem?_eq_some_iff.mp hnode
  induction fuel generalizing h p with
  | zero => omega
  | succ fuel ih =>
      rw [siftDown]
      have hread (i : ℕ) (hi : i ≠ p) : (h.place p node).nodes[i]? = h.nodes[i]? := by
        simp [place, Ne.symm hi]
      obtain ⟨hsome, hnone⟩ := child_spec hbetter (h := h) (p := p)
      cases hc : h.child better p with
      | none =>
          refine hstop fun i a hi hip ha => ?_
          rw [hread i (by omega), hnone hc i hi hip] at ha
          cases ha
      | some found =>
          obtain ⟨c, next⟩ := found
          obtain ⟨hcpos, hcp, hnext, hbest⟩ := hsome c next hc
          have hnext' : (h.place p node).nodes[c]? = some next := by
            rw [hread c (by omega)]
            exact hnext
          dsimp only
          by_cases hbt : better next node = true
          · rw [if_pos hbt]
            have hkey := (hbetter next node).mp hbt
            have hne : node ≠ next := by
              rintro rfl
              exact lt_irrefl _ hkey
            have hx := exchange hplaced hnode hnext' (by omega)
            rw [place_place_place h p _ hne] at hx
            have hdown' := hdown.exchange hcpos hcp hx hnode hnext' hkey fun i a hi hip ha => by
              rw [hread i (by omega)] at ha
              exact hbest i a hi hip ha
            have hright := hx.right.trans hnode
            obtain ⟨hclt, -⟩ := List.getElem?_eq_some_iff.mp hright
            have hsift := ih (h := h.place p next) (p := c) (by simp [place] at hfuel ⊢; omega)
              hx.placed hright hdown' (fun hnone => ?_) (by simp [place]) hclt
            · exact ⟨hsift.placed, hsift.ordered,
                fun v => (hsift.members v).trans (hx.members v)⟩
            · refine ⟨hx.placed, fun i a b hi ha hb => ?_, fun _ => Iff.rfl⟩
              rcases eq_or_ne ((i - 1) / 2) c with hic | hic
              · rw [hic, hright] at hb
                rw [← Option.some.inj hb]
                exact hnone i a hi hic ha
              · exact hdown'.except i a b hi hic ha hb
          · rw [if_neg hbt]
            refine hstop fun i a hi hip ha => ?_
            rw [hread i (by omega)] at ha
            exact (hbest i a hi hip ha).trans
              (not_lt.mp fun hkey => hbt ((hbetter next node).mpr hkey))

/-! ## Operations -/

omit [DecidableEq ι] in
theorem empty_placed : (empty : IndexedHeap ι).Placed := fun v i => by simp [empty]

omit [DecidableEq ι] in
theorem empty_ordered : Ordered key (empty : IndexedHeap ι) := fun i a b _ ha => by
  simp [empty] at ha

/-- A new entry goes to the end first. -/
theorem placed_append {h : IndexedHeap ι} (hp : h.Placed) {v : ι} (hv : h.position v = none) :
    Placed ⟨h.nodes ++ [v], Function.update h.position v (some h.nodes.length)⟩ := by
  intro w i
  have hnot (j : ℕ) : h.nodes[j]? ≠ some v := by
    intro hj
    rw [(hp v j).mpr hj] at hv
    cases hv
  rcases eq_or_ne w v with rfl | hw
  · simp only [Function.update_self]
    rw [List.getElem?_append]
    split_ifs with hi
    · have hne := hnot i
      simp only [hne, iff_false]
      rintro ⟨⟩
      omega
    · rcases eq_or_ne i h.nodes.length with rfl | hne
      · simp
      · have hrest : i - h.nodes.length ≠ 0 := by omega
        simp [hrest, Ne.symm hne]
  · simp only [Function.update_of_ne hw, hp w i]
    rw [List.getElem?_append]
    split_ifs with hi
    · rfl
    · rw [List.getElem?_eq_none (by omega)]
      rcases Nat.eq_zero_or_pos (i - h.nodes.length) with hzero | hpos
      · simp [hzero, Ne.symm hw]
      · rw [List.getElem?_eq_none (by simp; omega)]

/-- `update` puts an entry in its place whose key has only grown, or is new. -/
theorem update_spec (hbetter : ∀ a b, better a b = true ↔ key b < key a) {before : ι → κ}
    {h : IndexedHeap ι} (hplaced : h.Placed) (hordered : Ordered before h) {v : ι}
    (hsame : ∀ w, w ≠ v → key w = before w) (hgrown : v ∈ h.nodes → before v ≤ key v) :
    (h.update better v).Placed ∧ Ordered key (h.update better v) ∧
      ∀ w, w ∈ (h.update better v).nodes ↔ w = v ∨ w ∈ h.nodes := by
  unfold update
  cases hposition : h.position v with
  | none =>
      have hnot : v ∉ h.nodes := fun hv => (hplaced.mem_iff v).mp hv hposition
      have happend := placed_append hplaced hposition
      have hnode : (h.nodes ++ [v])[h.nodes.length]? = some v := by simp
      have hself := place_self happend hnode
      have hkept {i : ℕ} {a : ι} (ha : h.nodes[i]? = some a) : key a = before a :=
        hsame a fun heq => hnot (heq ▸ List.mem_of_getElem? ha)
      have hup : UpExcept key ⟨h.nodes ++ [v],
          Function.update h.position v (some h.nodes.length)⟩ h.nodes.length := by
        constructor
        · intro i a b hi hne ha hb
          have hlt : i < h.nodes.length := by
            have := (List.getElem?_eq_some_iff.mp ha).1
            simp at this
            omega
          rw [List.getElem?_append_left hlt] at ha
          rw [List.getElem?_append_left (by omega)] at hb
          rw [hkept ha, hkept hb]
          exact hordered i a b hi ha hb
        · intro _ i a b hi hip ha _
          have := (List.getElem?_eq_some_iff.mp ha).1
          simp at this
          omega
      have hsift := siftUp_spec hbetter (Nat.lt_succ_self h.nodes.length) (hself ▸ happend)
        (by rw [hself]; exact hnode) (by rw [hself]; exact hup)
      rw [hself] at hsift
      refine ⟨hsift.placed, hsift.ordered, fun w => ?_⟩
      rw [hsift.members]
      simp [or_comm]
  | some p =>
      have hnode := (hplaced v p).mp hposition
      have hself := place_self hplaced hnode
      have hgrown := hgrown (List.mem_of_getElem? hnode)
      have hle (w : ι) : before w ≤ key w := by
        rcases eq_or_ne w v with rfl | hw
        · exact hgrown
        · exact (hsame w hw).ge
      have hup : UpExcept key h p := by
        constructor
        · intro i a b hi hne ha hb
          have hav : a ≠ v := by
            rintro rfl
            exact hne (hplaced.inj ha hnode)
          rw [hsame a hav]
          exact (hordered i a b hi ha hb).trans (hle b)
        · intro hp i a b hi hip ha hb
          have hav : a ≠ v := by
            rintro rfl
            have := hplaced.inj ha hnode
            omega
          rw [hsame a hav]
          have hparent := hordered i a v hi ha (by rw [hip]; exact hnode)
          exact hparent.trans ((hordered p v b hp hnode hb).trans (hle b))
      have hsift := siftUp_spec hbetter (Nat.lt_succ_self p) (hself.symm ▸ hplaced)
        (by rw [hself]; exact hnode) (by rw [hself]; exact hup)
      rw [hself] at hsift
      refine ⟨hsift.placed, hsift.ordered, fun w => ?_⟩
      rw [hsift.members]
      refine ⟨Or.inr, ?_⟩
      rintro (rfl | hw)
      · exact List.mem_of_getElem? hnode
      · exact hw

/-- `pop` takes the entry with the largest key. -/
theorem pop_spec (hbetter : ∀ a b, better a b = true ↔ key b < key a) {h : IndexedHeap ι}
    (hplaced : h.Placed) (hordered : Ordered key h) {root : ι} {h' : IndexedHeap ι}
    (hpop : h.pop better = some (root, h')) :
    root ∈ h.nodes ∧ (∀ v ∈ h.nodes, key v ≤ key root) ∧ h'.Placed ∧ Ordered key h' ∧
      ∀ v, v ∈ h'.nodes ↔ v ≠ root ∧ v ∈ h.nodes := by
  unfold pop at hpop
  cases hnodes : h.nodes with
  | nil => simp [hnodes] at hpop
  | cons first rest =>
      have hfirst : h.nodes[0]? = some first := by simp [hnodes]
      have hmax (v : ι) (hv : v ∈ first :: rest) : key v ≤ key first := by
        rw [← hnodes] at hv
        obtain ⟨i, hi⟩ := List.mem_iff_getElem?.mp hv
        exact hordered.root hfirst i hi
      have hnodup := hplaced.nodup
      rw [hnodes] at hnodup
      obtain ⟨hnotin, hrest⟩ := List.nodup_cons.mp hnodup
      simp only [hnodes] at hpop
      cases hlast : rest.getLast? with
      | none =>
          rw [hlast] at hpop
          cases hpop
          have hempty := List.getLast?_eq_none_iff.mp hlast
          have hget (v : ι) (i : ℕ) : h.position v = some i ↔ i = 0 ∧ root = v := by
            rw [hplaced v i, hnodes, hempty]
            cases i <;> simp
          refine ⟨List.mem_cons_self .., hmax, fun v i => ?_, fun i a b _ ha => by simp at ha,
            fun v => by simp [hempty]⟩
          rcases eq_or_ne v root with rfl | hv
          · simp
          · simp only [Function.update_of_ne hv, hget, List.getElem?_nil, reduceCtorEq, iff_false]
            exact fun heq => hv heq.2.symm
      | some last =>
          obtain ⟨front, rfl⟩ := List.getLast?_eq_some_iff.mp hlast
          rw [hlast] at hpop
          simp only [List.dropLast_concat, Option.some.injEq, Prod.mk.injEq] at hpop
          obtain ⟨rfl, rfl⟩ := hpop
          have hlastNe : last ≠ first := by
            rintro rfl
            exact hnotin (by simp)
          have hfront : first ∉ front := fun hin => hnotin (List.mem_append_left _ hin)
          have hlastFront : last ∉ front := by
            have := (List.nodup_append.mp hrest).2.2
            exact fun hin => this last hin last (by simp) rfl
          set after : IndexedHeap ι := ⟨last :: front,
            Function.update (Function.update h.position first none) last (some 0)⟩ with hafter
          have hplaced' : after.Placed := by
            intro v i
            have hold := hplaced v i
            rw [hnodes] at hold
            cases i with
            | zero =>
                rcases eq_or_ne v last with rfl | hvl
                · simp [hafter]
                · rcases eq_or_ne v first with rfl | hvf
                  · simp [hafter, Function.update_of_ne hvl, Ne.symm hvl]
                  · have hno : h.position v ≠ some 0 := by
                      rw [Ne, hold]
                      simp [Ne.symm hvf]
                    simp [hafter, Function.update_of_ne hvl, Function.update_of_ne hvf, hno,
                      Ne.symm hvl]
            | succ i =>
                rcases eq_or_ne v last with rfl | hvl
                · have hno : front[i]? ≠ some v := fun heq => hlastFront (List.mem_of_getElem? heq)
                  simp [hafter, hno]
                · rcases eq_or_ne v first with rfl | hvf
                  · have hno : front[i]? ≠ some v := fun heq => hfront (List.mem_of_getElem? heq)
                    simp [hafter, Function.update_of_ne hvl, hno]
                  · simp only [hafter, Function.update_of_ne hvl, Function.update_of_ne hvf, hold,
                      List.getElem?_cons_succ]
                    rw [List.getElem?_append]
                    split_ifs with hi
                    · rfl
                    · rw [List.getElem?_eq_none (l := front) (by omega)]
                      rcases Nat.eq_zero_or_pos (i - front.length) with hzero | hpos
                      · simp [hzero, Ne.symm hvl]
                      · rw [List.getElem?_eq_none (by simp; omega)]
          have hdown : DownExcept key after 0 := by
            constructor
            · intro i a b hi hip ha hb
              obtain ⟨j, rfl⟩ : ∃ j, i = j + 1 := ⟨i - 1, by omega⟩
              obtain ⟨k, hk⟩ : ∃ k, (j + 1 - 1) / 2 = k + 1 := ⟨(j + 1 - 1) / 2 - 1, by omega⟩
              rw [hk] at hb
              simp only [hafter, List.getElem?_cons_succ] at ha hb
              refine hordered (j + 1) a b hi ?_ ?_
              · rw [hnodes, List.getElem?_cons_succ,
                  List.getElem?_append_left (List.getElem?_eq_some_iff.mp ha).1]
                exact ha
              · rw [hnodes, hk, List.getElem?_cons_succ,
                  List.getElem?_append_left (List.getElem?_eq_some_iff.mp hb).1]
                exact hb
            · intro h0
              omega
          have hnode : after.nodes[0]? = some last := by simp [hafter]
          have hself := place_self hplaced' hnode
          have hfuel : after.nodes.length < after.nodes.length + 0 + 1 := by omega
          have hsift := siftDown_spec hbetter (h := after) (p := 0) hfuel (hself.symm ▸ hplaced') (by rw [hself]; exact hnode)
            (by rw [hself]; exact hdown)
          rw [hself] at hsift
          refine ⟨List.mem_cons_self .., hmax, hsift.placed, hsift.ordered, fun v => ?_⟩
          rw [hsift.members]
          simp only [hafter, List.mem_cons, List.mem_append, List.not_mem_nil, or_false]
          constructor
          · rintro (rfl | hin)
            · exact ⟨hlastNe, Or.inr (Or.inr rfl)⟩
            · refine ⟨?_, Or.inr (Or.inl hin)⟩
              rintro rfl
              exact hfront hin
          · rintro ⟨hne, rfl | hin | rfl⟩
            · exact absurd rfl hne
            · exact Or.inr hin
            · exact Or.inl rfl

theorem pop_eq_none {h : IndexedHeap ι} : h.pop better = none ↔ h.nodes = [] := by
  unfold pop
  cases h.nodes with
  | nil => simp
  | cons root rest =>
      simp only [reduceCtorEq, iff_false]
      cases hlast : rest.getLast? with
      | none => simp
      | some last => simp

end IndexedHeap

end MonoAgent.Lib
