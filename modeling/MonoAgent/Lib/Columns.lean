import Mathlib

/-!
# Unique columns

A table is a list of rows.  A column is a partial function of the rows, which is
unique when the values it has are pairwise different.  What has no value takes part
in no clash.
-/

namespace MonoAgent.Lib

variable {α β κ : Type}

/-- Of a unique column, two rows with one value are the same row. -/
theorem eq_of_filterMap_nodup {f : α → Option β} {l : List α} (h : (l.filterMap f).Nodup)
    {a b : α} (ha : a ∈ l) (hb : b ∈ l) {v : β} (hva : f a = some v) (hvb : f b = some v) : a = b := by
  induction l with
  | nil => cases ha
  | cons x rest ih =>
      have hrest : (rest.filterMap f).Nodup := h.sublist (List.Sublist.filterMap f (List.sublist_cons_self ..))
      have hout (y : α) (hy : y ∈ rest) (hvx : f x = some v) (hvy : f y = some v) : False := by
        rw [List.filterMap_cons_some hvx] at h
        exact (List.nodup_cons.mp h).1 (List.mem_filterMap.mpr ⟨y, hy, hvy⟩)
      rcases List.mem_cons.mp ha with rfl | hain <;> rcases List.mem_cons.mp hb with rfl | hbin
      · rfl
      · exact (hout b hbin hva hvb).elim
      · exact (hout a hain hvb hva).elim
      · exact ih hrest hain hbin

/-- A write that gives no row a new value keeps a column unique. -/
theorem nodup_filterMap_clear {f : α → Option β} {g : α → α} {l : List α} (h : (l.filterMap f).Nodup)
    (hg : ∀ x, f (g x) = f x ∨ f (g x) = none) : ((l.map g).filterMap f).Nodup := by
  rw [List.filterMap_map]
  refine h.sublist ?_
  induction l with
  | nil => exact List.Sublist.refl _
  | cons x rest ih =>
      have hrest := ih (h.sublist (List.Sublist.filterMap f (List.sublist_cons_self ..)))
      have hcomp : (f ∘ g) x = f (g x) := rfl
      rcases hg x with heq | hnone
      · cases hx : f x with
        | none => rwa [List.filterMap_cons_none hx, List.filterMap_cons_none (hcomp.trans (heq.trans hx))]
        | some v =>
            rw [List.filterMap_cons_some hx, List.filterMap_cons_some (hcomp.trans (heq.trans hx))]
            exact hrest.cons_cons v
      · rw [List.filterMap_cons_none (hcomp.trans hnone)]
        exact hrest.trans (List.Sublist.filterMap f (List.sublist_cons_self ..))

/-- The values after one row was given a value. -/
theorem mem_filterMap_write {f : α → Option β} {g : α → α} {p : α → Prop} [DecidablePred p] {l : List α}
    {v w : β} (hv : ∀ x, f (g x) = some v)
    (h : w ∈ (l.map fun x => if p x then g x else x).filterMap f) : w = v ∨ w ∈ l.filterMap f := by
  obtain ⟨y, hy, hw⟩ := List.mem_filterMap.mp h
  obtain ⟨x, hx, rfl⟩ := List.mem_map.mp hy
  split at hw
  · exact Or.inl (Option.some.inj (hw.symm.trans (hv x)))
  · exact Or.inr (List.mem_filterMap.mpr ⟨x, hx, hw⟩)

/-- A new value for one row keeps a column unique. -/
theorem nodup_filterMap_write {f : α → Option β} {g : α → α} {key : α → κ} {p : α → Prop}
    [DecidablePred p] {l : List α} (hkeys : (l.map key).Nodup) (hp : ∀ x y, p x → p y → key x = key y)
    {v : β} (hv : ∀ x, f (g x) = some v) (h : (l.filterMap f).Nodup) (hnew : v ∉ l.filterMap f) :
    ((l.map fun x => if p x then g x else x).filterMap f).Nodup := by
  induction l with
  | nil => exact h
  | cons x rest ih =>
      rw [List.map_cons, List.nodup_cons] at hkeys
      have hsub : (rest.filterMap f).Sublist ((x :: rest).filterMap f) :=
        List.Sublist.filterMap f (List.sublist_cons_self ..)
      have hrest := ih hkeys.2 (h.sublist hsub) fun hmem => hnew (hsub.mem hmem)
      rw [List.map_cons]
      by_cases hpx : p x
      · -- The other rows are not written.
        have hsame : (rest.map fun y => if p y then g y else y) = rest := by
          refine (List.map_congr_left fun y hy => if_neg fun hpy => ?_).trans (List.map_id' rest)
          exact hkeys.1 (hp x y hpx hpy ▸ List.mem_map_of_mem hy)
        rw [hsame, if_pos hpx, List.filterMap_cons_some (hv x)]
        exact List.nodup_cons.mpr ⟨fun hmem => hnew (hsub.mem hmem), h.sublist hsub⟩
      · rw [if_neg hpx]
        cases hfx : f x with
        | none => rwa [List.filterMap_cons_none hfx]
        | some w =>
            rw [List.filterMap_cons_some hfx] at h hnew ⊢
            refine List.nodup_cons.mpr ⟨fun hmem => ?_, hrest⟩
            rcases mem_filterMap_write hv hmem with rfl | hmem
            · exact hnew (List.mem_cons_self ..)
            · exact (List.nodup_cons.mp h).1 hmem

/-- A write that keeps a key column. -/
theorem map_write {g : α → α} {key : α → κ} {p : α → Prop} [DecidablePred p] {l : List α}
    (hg : ∀ x, key (g x) = key x) : (l.map fun x => if p x then g x else x).map key = l.map key := by
  rw [List.map_map]
  refine List.map_congr_left fun x _ => ?_
  simp only [Function.comp_apply]
  split
  · exact hg x
  · rfl

/-- One more row with a new value. -/
theorem nodup_map_concat {f : α → β} {l : List α} {x : α} (h : (l.map f).Nodup) (hnew : f x ∉ l.map f) :
    ((l ++ [x]).map f).Nodup := by
  rw [List.map_append, List.map_singleton]
  refine List.nodup_append.mpr ⟨h, List.nodup_singleton _, fun a ha b hb hab => ?_⟩
  exact hnew (List.mem_singleton.mp hb ▸ hab ▸ ha)

/-- The rows of `p` are replaced, or the row is a new one. -/
def upsert (p : α → Prop) [DecidablePred p] (row : α) (l : List α) : List α :=
  if (l.find? p).isSome then l.map fun x => if p x then row else x else l ++ [row]

theorem mem_upsert {p : α → Prop} [DecidablePred p] {row x : α} {l : List α} (h : x ∈ upsert p row l) :
    x = row ∨ (x ∈ l ∧ ¬ p x) := by
  rw [upsert] at h
  split at h
  · obtain ⟨y, hy, rfl⟩ := List.mem_map.mp h
    split
    · exact Or.inl rfl
    · next hne => exact Or.inr ⟨hy, hne⟩
  · next hnone =>
      rcases List.mem_append.mp h with h | h
      · exact Or.inr ⟨h, fun hp => hnone (List.find?_isSome.mpr ⟨x, h, by simpa using hp⟩)⟩
      · exact Or.inl (List.mem_singleton.mp h)

end MonoAgent.Lib
