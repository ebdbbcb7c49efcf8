import MonoAgent.Lib.JsonText

/-!
# The order of members

Objects are maps, so two values are the same when they differ in the order of members
only.  `sorted` brings the members of every object into the order of their keys: it is the
representative of a value (`Same` compares by it, and `same_obj` says that this is equality
of maps), it has the properties the value has, and sorting again changes nothing.
-/

namespace MonoAgent.Lib.JsonValue

variable {F : Type}

/-- Members are ordered by their keys. -/
def keyLe (m n : Text × JsonValue F) : Prop := m.1 ≤ n.1

instance : DecidableRel (keyLe (F := F)) := fun m n => inferInstanceAs (Decidable (m.1 ≤ n.1))

instance : Std.Total (keyLe (F := F)) := ⟨fun m n => le_total m.1 n.1⟩

instance : IsTrans (Text × JsonValue F) keyLe := ⟨fun _ _ _ h h' => le_trans h h'⟩

mutual

/-- `sort_keys=True`: the members of every object in the order of their keys. -/
def sorted : JsonValue F → JsonValue F
  | .arr vs => .arr (sortedItems vs)
  | .obj ms => .obj ((sortedMembers ms).insertionSort keyLe)
  | v => v

def sortedItems : List (JsonValue F) → List (JsonValue F)
  | [] => []
  | v :: vs => sorted v :: sortedItems vs

/-- Only the values: the members stay where they are. -/
def sortedMembers : List (Text × JsonValue F) → List (Text × JsonValue F)
  | [] => []
  | (k, v) :: ms => (k, sorted v) :: sortedMembers ms

end

/-- Equality of values whose objects are maps. -/
def Same (v w : JsonValue F) : Prop := v.sorted = w.sorted

theorem sortedMembers_eq (ms : List (Text × JsonValue F)) :
    sortedMembers ms = ms.map fun m => (m.1, sorted m.2) := by
  induction ms with
  | nil => rfl
  | cons m ms ih => rw [sortedMembers, ih, List.map_cons]

theorem sortedItems_eq (vs : List (JsonValue F)) : sortedItems vs = vs.map sorted := by
  induction vs with
  | nil => rfl
  | cons v vs ih => rw [sortedItems, ih, List.map_cons]

theorem allMembers_eq (p : JsonValue F → Bool) (ms : List (Text × JsonValue F)) :
    allMembers p ms = ms.all fun m => all p m.2 := by
  induction ms with
  | nil => rfl
  | cons m ms ih => rw [allMembers, ih, List.all_cons]

mutual

/-- A property of all values in a value, from two others. -/
theorem all_and {p q r : JsonValue F → Bool} (h : ∀ v, p v = true → q v = true → r v = true) :
    ∀ {v : JsonValue F}, all p v = true → all q v = true → all r v = true
  | .null, hp, hq | .bool _, hp, hq | .int _, hp, hq | .float _, hp, hq | .str _, hp, hq =>
      h _ hp hq
  | .arr vs, hp, hq => by
      rw [all, Bool.and_eq_true] at hp hq ⊢
      exact ⟨h _ hp.1 hq.1, allItems_and h hp.2 hq.2⟩
  | .obj ms, hp, hq => by
      rw [all, Bool.and_eq_true] at hp hq ⊢
      exact ⟨h _ hp.1 hq.1, allMembers_and h hp.2 hq.2⟩

theorem allItems_and {p q r : JsonValue F → Bool} (h : ∀ v, p v = true → q v = true → r v = true) :
    ∀ {vs : List (JsonValue F)}, allItems p vs = true → allItems q vs = true →
      allItems r vs = true
  | [], _, _ => rfl
  | v :: vs, hp, hq => by
      rw [allItems, Bool.and_eq_true] at hp hq ⊢
      exact ⟨all_and h hp.1 hq.1, allItems_and h hp.2 hq.2⟩

theorem allMembers_and {p q r : JsonValue F → Bool}
    (h : ∀ v, p v = true → q v = true → r v = true) :
    ∀ {ms : List (Text × JsonValue F)}, allMembers p ms = true → allMembers q ms = true →
      allMembers r ms = true
  | [], _, _ => rfl
  | (k, v) :: ms, hp, hq => by
      rw [allMembers, Bool.and_eq_true] at hp hq ⊢
      exact ⟨all_and h hp.1 hq.1, allMembers_and h hp.2 hq.2⟩

end

theorem keys_sorted (ms : List (Text × JsonValue F)) :
    (((sortedMembers ms).insertionSort keyLe).map Prod.fst).Perm (ms.map Prod.fst) := by
  have hkeys : (sortedMembers ms).map Prod.fst = ms.map Prod.fst := by
    rw [sortedMembers_eq, List.map_map]
    rfl
  rw [← hkeys]
  exact (List.perm_insertionSort keyLe _).map _

/-- A property that does not look at values inside, nor at the order of keys. -/
structure Shallow (p : JsonValue F → Bool) : Prop where
  arr : ∀ vs ws, p (.arr vs) = p (.arr ws)
  obj : ∀ ms ns, (ms.map Prod.fst).Perm (ns.map Prod.fst) → p (.obj ms) = p (.obj ns)

section Keeps

variable {p : JsonValue F → Bool}

mutual

theorem all_sorted (hp : Shallow p) : ∀ v : JsonValue F, v.sorted.all p = v.all p
  | .null | .bool _ | .int _ | .float _ | .str _ => by rw [sorted] <;> simp
  | .arr vs => by rw [sorted, all, all, hp.arr, allItems_sorted hp vs]
  | .obj ms => by
      have hmembers : allMembers p ((sortedMembers ms).insertionSort keyLe) =
          allMembers p (sortedMembers ms) := by
        rw [allMembers_eq, allMembers_eq]
        exact (List.perm_insertionSort keyLe _).all_eq
      rw [sorted, all, all, hp.obj _ _ (keys_sorted ms), hmembers, allMembers_sorted hp ms]

theorem allItems_sorted (hp : Shallow p) :
    ∀ vs : List (JsonValue F), allItems p (sortedItems vs) = allItems p vs
  | [] => rfl
  | v :: vs => by rw [sortedItems, allItems, allItems, all_sorted hp v, allItems_sorted hp vs]

theorem allMembers_sorted (hp : Shallow p) :
    ∀ ms : List (Text × JsonValue F), allMembers p (sortedMembers ms) = allMembers p ms
  | [] => rfl
  | (k, v) :: ms => by
      rw [sortedMembers, allMembers, allMembers, all_sorted hp v, allMembers_sorted hp ms]

end

end Keeps

mutual

theorem sorted_sorted : ∀ v : JsonValue F, v.sorted.sorted = v.sorted
  | .null | .bool _ | .int _ | .float _ | .str _ => rfl
  | .arr vs => by rw [sorted, sorted, sortedItems_sorted vs]
  | .obj ms => by
      have hmap : ((sortedMembers ms).insertionSort keyLe).map (fun m => (m.1, sorted m.2)) =
          ((sortedMembers ms).map fun m => (m.1, sorted m.2)).insertionSort keyLe :=
        List.map_insertionSort keyLe keyLe _ _ fun _ _ _ _ => Iff.rfl
      rw [sorted, sorted, sortedMembers_eq, hmap, ← sortedMembers_eq, sortedMembers_sorted ms]
      rw [(List.pairwise_insertionSort keyLe (sortedMembers ms)).insertionSort_eq]

theorem sortedItems_sorted :
    ∀ vs : List (JsonValue F), sortedItems (sortedItems vs) = sortedItems vs
  | [] => rfl
  | v :: vs => by rw [sortedItems, sortedItems, sorted_sorted v, sortedItems_sorted vs]

theorem sortedMembers_sorted :
    ∀ ms : List (Text × JsonValue F), sortedMembers (sortedMembers ms) = sortedMembers ms
  | [] => rfl
  | (k, v) :: ms => by rw [sortedMembers, sortedMembers, sorted_sorted v, sortedMembers_sorted ms]

end

/-! ## Equality of maps -/

theorem same_refl (v : JsonValue F) : Same v v := rfl

theorem same_sorted (v : JsonValue F) : Same v.sorted v := sorted_sorted v

theorem nodup_sortedMembers {ms : List (Text × JsonValue F)} (h : (ms.map Prod.fst).Nodup) :
    (sortedMembers ms).Nodup := by
  have hkeys : (sortedMembers ms).map Prod.fst = ms.map Prod.fst := by
    rw [sortedMembers_eq, List.map_map]
    rfl
  exact List.Nodup.of_map Prod.fst (hkeys ▸ h)

/-- Sorting forgets the order only. -/
theorem sort_eq_iff {ms ns : List (Text × JsonValue F)} (hms : (ms.map Prod.fst).Nodup) :
    ms.insertionSort keyLe = ns.insertionSort keyLe ↔ ms.Perm ns := by
  constructor
  · intro h
    exact (List.perm_insertionSort keyLe ms).symm.trans (h ▸ List.perm_insertionSort keyLe ns)
  · intro h
    have hperm := (List.perm_insertionSort keyLe ms).trans
      (h.trans (List.perm_insertionSort keyLe ns).symm)
    refine hperm.eq_of_pairwise (fun m n hm hn hle hge => ?_)
      (List.pairwise_insertionSort keyLe ms) (List.pairwise_insertionSort keyLe ns)
    -- two members of one key are one member
    have hm := (List.mem_insertionSort keyLe).mp hm
    have hn := h.mem_iff.mpr ((List.mem_insertionSort keyLe).mp hn)
    exact List.inj_on_of_nodup_map hms hm hn (le_antisymm hle hge)

/-- Objects are the same when each has the members of the other, with the same values. -/
theorem same_obj {ms ns : List (Text × JsonValue F)} (hms : (ms.map Prod.fst).Nodup)
    (hns : (ns.map Prod.fst).Nodup) :
    Same (.obj ms) (.obj ns) ↔
      (∀ m ∈ ms, ∃ n ∈ ns, n.1 = m.1 ∧ Same m.2 n.2) ∧
        ∀ n ∈ ns, ∃ m ∈ ms, m.1 = n.1 ∧ Same m.2 n.2 := by
  have hkeys : ((sortedMembers ms).map Prod.fst).Nodup := by
    rw [sortedMembers_eq, List.map_map]
    exact hms
  have hobj : Same (.obj ms) (.obj ns) ↔ (sortedMembers ms).Perm (sortedMembers ns) := by
    rw [Same, sorted, sorted, JsonValue.obj.injEq]
    exact sort_eq_iff hkeys
  have hmem : ∀ (ns : List (Text × JsonValue F)) (e : Text × JsonValue F),
      e ∈ sortedMembers ns ↔ ∃ n ∈ ns, n.1 = e.1 ∧ n.2.sorted = e.2 := by
    intro ns e
    rw [sortedMembers_eq, List.mem_map]
    simp only [Prod.ext_iff]
  rw [hobj, List.perm_ext_iff_of_nodup (nodup_sortedMembers hms) (nodup_sortedMembers hns)]
  constructor
  · intro h
    constructor
    · intro m hm
      obtain ⟨n, hn, hkey, hvalue⟩ := (hmem ns _).mp ((h _).mp ((hmem ms (m.1, m.2.sorted)).mpr
        ⟨m, hm, rfl, rfl⟩))
      exact ⟨n, hn, hkey, hvalue.symm⟩
    · intro n hn
      exact (hmem ms _).mp ((h _).mpr ((hmem ns (n.1, n.2.sorted)).mpr ⟨n, hn, rfl, rfl⟩))
  · rintro ⟨hto, hback⟩ e
    rw [hmem ms, hmem ns]
    constructor
    · rintro ⟨m, hm, hkey, hvalue⟩
      obtain ⟨n, hn, hnkey, hsame⟩ := hto m hm
      exact ⟨n, hn, hnkey.trans hkey, hsame.symm.trans hvalue⟩
    · rintro ⟨n, hn, hkey, hvalue⟩
      obtain ⟨m, hm, hmkey, hsame⟩ := hback n hn
      exact ⟨m, hm, hmkey.trans hkey, hsame.trans hvalue⟩

end MonoAgent.Lib.JsonValue
