import Mathlib

/-!
# Filtering a sorted list

A list whose elements strictly increase along a measure is cut at any value of
the measure into the elements below it followed by the elements above it.
`bisectRight` finds the cut by halving, and the slice between two cuts is the
filter by both bounds.
-/

namespace MonoAgent.Lib

variable {α β : Type*} [LinearOrder β]

/-- Two filters that split a sorted list at `b` concatenate to the filter of the
whole. -/
theorem filter_append_filter_of_sorted {l : List α} {f : α → β}
    (h : l.Pairwise fun x y => f x < f y) (p : α → Bool) (b : β) :
    (l.filter fun x => p x && decide (f x ≤ b)) ++ (l.filter fun x => p x && decide (b < f x)) =
      l.filter p := by
  induction l with
  | nil => rfl
  | cons x xs ih =>
      obtain ⟨hx, hxs⟩ := List.pairwise_cons.mp h
      by_cases hb : f x ≤ b
      · have hnb : ¬ b < f x := not_lt.mpr hb
        cases hp : p x with
        | false => simpa [List.filter_cons, hp] using ih hxs
        | true => simpa [List.filter_cons, hp, hb, hnb] using ih hxs
      · have hlt : b < f x := not_le.mp hb
        have hnone : (xs.filter fun y => p y && decide (f y ≤ b)) = [] := by
          refine List.filter_eq_nil_iff.mpr fun y hy => ?_
          have hby : b < f y := hlt.trans (hx y hy)
          simp [not_le.mpr hby]
        have hall : (xs.filter fun y => p y && decide (b < f y)) = xs.filter p := by
          refine List.filter_congr fun y hy => ?_
          have hby : b < f y := hlt.trans (hx y hy)
          simp [hby]
        cases hp : p x with
        | false => simp [hp, hnone, hall]
        | true => simp [hp, hb, hlt, hnone, hall]

/-! ## Bisection -/

/-- The loop of `bisect_right` over `[lo, hi)`. -/
def bisectLoop (f : α → β) (x : β) (l : List α) : Nat → Nat → Nat → Nat
  | 0, lo, _ => lo
  | n + 1, lo, hi =>
      if lo < hi then
        match l[(lo + hi) / 2]? with
        | some a =>
            if x < f a then bisectLoop f x l n lo ((lo + hi) / 2)
            else bisectLoop f x l n ((lo + hi) / 2 + 1) hi
        | none => lo
      else lo

/-- `bisect_right(l, x, key=f)`: the position behind the elements up to `x`. -/
def bisectRight (f : α → β) (x : β) (l : List α) : Nat :=
  bisectLoop f x l l.length 0 l.length

/-- What the loop keeps: the elements before `lo` are up to `x`, those from `hi` on
are above it. -/
theorem bisectLoop_spec {f : α → β} {x : β} {l : List α} (h : l.Pairwise fun x y => f x < f y)
    {n lo hi : Nat} (hn : hi - lo ≤ n) (hle : lo ≤ hi) (hhi : hi ≤ l.length)
    (hlow : ∀ a ∈ l.take lo, f a ≤ x) (hhigh : ∀ a ∈ l.drop hi, x < f a) :
    (∀ a ∈ l.take (bisectLoop f x l n lo hi), f a ≤ x) ∧
      ∀ a ∈ l.drop (bisectLoop f x l n lo hi), x < f a := by
  induction n generalizing lo hi with
  | zero =>
      have heq : lo = hi := by omega
      subst heq
      exact ⟨hlow, hhigh⟩
  | succ n ih =>
      by_cases hlt : lo < hi
      · have hmid : (lo + hi) / 2 < l.length := by omega
        have hsplit : l = l.take ((lo + hi) / 2) ++ l[(lo + hi) / 2] ::
            l.drop ((lo + hi) / 2 + 1) := by simp
        have hsorted := h
        rw [hsplit, List.pairwise_append, List.pairwise_cons] at hsorted
        obtain ⟨-, ⟨hafter, -⟩, hbefore⟩ := hsorted
        simp only [bisectLoop, if_pos hlt, List.getElem?_eq_getElem hmid]
        split
        · next hx =>
            refine ih (by omega) (by omega) (by omega) hlow ?_
            intro a ha
            rw [List.drop_eq_getElem_cons hmid] at ha
            rcases List.mem_cons.mp ha with rfl | ha
            · exact hx
            · exact hx.trans (hafter a ha)
        · next hx =>
            refine ih (by omega) (by omega) hhi ?_ hhigh
            intro a ha
            rw [List.take_succ_eq_append_getElem hmid] at ha
            rcases List.mem_append.mp ha with ha | ha
            · exact (hbefore a ha _ List.mem_cons_self).le.trans (not_lt.mp hx)
            · rw [List.mem_singleton.mp ha]
              exact not_lt.mp hx
      · have heq : lo = hi := by omega
        subst heq
        have hstop : bisectLoop f x l (n + 1) lo lo = lo := by simp [bisectLoop]
        rw [hstop]
        exact ⟨hlow, hhigh⟩

theorem take_bisectRight {f : α → β} {l : List α} (h : l.Pairwise fun x y => f x < f y) (x : β) :
    l.take (bisectRight f x l) = l.filter (f · ≤ x) ∧
      l.drop (bisectRight f x l) = l.filter (x < f ·) := by
  have hspec : (∀ a ∈ l.take (bisectRight f x l), f a ≤ x) ∧
      ∀ a ∈ l.drop (bisectRight f x l), x < f a :=
    bisectLoop_spec h (Nat.le_refl _) (Nat.zero_le _) (Nat.le_refl _) (by simp) (by simp)
  obtain ⟨hlow, hhigh⟩ := hspec
  have hsplit : l = l.take (bisectRight f x l) ++ l.drop (bisectRight f x l) :=
    (List.take_append_drop _ l).symm
  constructor
  · conv_rhs => rw [hsplit]
    rw [List.filter_append, List.filter_eq_self.mpr (by simpa using hlow),
      List.filter_eq_nil_iff.mpr (by simpa using hhigh), List.append_nil]
  · conv_rhs => rw [hsplit]
    rw [List.filter_append, List.filter_eq_nil_iff.mpr (by simpa using hlow),
      List.filter_eq_self.mpr (by simpa using hhigh), List.nil_append]

/-- The slice between two cuts. -/
theorem slice_bisectRight {f : α → β} {l : List α} (h : l.Pairwise fun x y => f x < f y)
    (a b : β) :
    (l.take (bisectRight f b l)).drop (bisectRight f a l) =
      l.filter fun x => decide (a < f x ∧ f x ≤ b) := by
  obtain ⟨htake, hdrop⟩ := take_bisectRight h a
  obtain ⟨htake', hdrop'⟩ := take_bisectRight h b
  have hcut : (l.take (bisectRight f b l)).drop (bisectRight f a l) =
      (l.take (bisectRight f b l)).filter (a < f ·) := by
    rcases Nat.le_total (bisectRight f a l) (bisectRight f b l) with hle | hle
    · obtain ⟨k, hk⟩ := Nat.exists_eq_add_of_le hle
      have hnone : (l.take (bisectRight f a l)).filter (a < f ·) = [] := by
        rw [htake]
        exact List.filter_eq_nil_iff.mpr fun y hy => by simpa using (List.mem_filter.mp hy).2
      have hall : ((l.drop (bisectRight f a l)).take k).filter (a < f ·) =
          (l.drop (bisectRight f a l)).take k := by
        refine List.filter_eq_self.mpr fun y hy => ?_
        have hy' := List.mem_of_mem_take hy
        rw [hdrop] at hy'
        exact (List.mem_filter.mp hy').2
      rw [hk, List.drop_take, Nat.add_sub_cancel_left, List.take_add, List.filter_append, hnone,
        hall, List.nil_append]
    · rw [List.drop_eq_nil_of_le (by simp; omega)]
      refine (List.filter_eq_nil_iff.mpr fun y hy => ?_).symm
      have hy' : y ∈ l.take (bisectRight f a l) := (List.take_sublist_take_left hle).subset hy
      rw [htake] at hy'
      simpa using (List.mem_filter.mp hy').2
  rw [hcut, htake', List.filter_filter]
  refine List.filter_congr fun y _ => ?_
  simp

end MonoAgent.Lib
