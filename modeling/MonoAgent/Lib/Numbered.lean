import Mathlib

/-!
# Numbered lists

The elements of a list have numbers, and the numbers count on from a given one
without a gap.
-/

namespace MonoAgent.Lib

variable {α : Type}

/-- The numbers of the list count on from `n`. -/
def Numbered (num : α → Nat) : Nat → List α → Prop
  | _, [] => True
  | n, x :: xs => num x = n + 1 ∧ Numbered num (n + 1) xs

namespace Numbered

variable {num : α → Nat} {n m : Nat} {x y : α} {xs ys : List α}

theorem append : Numbered num n (xs ++ ys) ↔ Numbered num n xs ∧ Numbered num (n + xs.length) ys := by
  induction xs generalizing n with
  | nil => simp [Numbered]
  | cons x xs ih =>
      rw [List.cons_append, Numbered, ih, Numbered, List.length_cons, and_assoc,
        Nat.add_assoc, Nat.add_comm 1]

theorem concat (h : Numbered num n xs) (hx : num x = n + xs.length + 1) : Numbered num n (xs ++ [x]) :=
  append.mpr ⟨h, hx, trivial⟩

theorem bounds (h : Numbered num n xs) (hx : x ∈ xs) : n < num x ∧ num x ≤ n + xs.length := by
  induction xs generalizing n with
  | nil => cases hx
  | cons y ys ih =>
      rw [List.length_cons]
      rcases List.mem_cons.mp hx with rfl | hy
      · have hnum := h.1
        omega
      · have hrest := ih h.2 hy
        omega

theorem pairwise (h : Numbered num n xs) : xs.Pairwise fun x y => num x < num y := by
  induction xs generalizing n with
  | nil => exact List.Pairwise.nil
  | cons x xs ih =>
      refine List.pairwise_cons.mpr ⟨fun y hy => ?_, ih h.2⟩
      have hlt := (h.2.bounds hy).1
      have hx := h.1
      omega

/-- Every number of the range is there. -/
theorem find (h : Numbered num n xs) (hlt : n < m) (hle : m ≤ n + xs.length) : ∃ x ∈ xs, num x = m := by
  induction xs generalizing n with
  | nil =>
      rw [List.length_nil] at hle
      omega
  | cons y ys ih =>
      rw [List.length_cons] at hle
      rcases Nat.eq_or_lt_of_le hlt with heq | hlt'
      · exact ⟨y, List.mem_cons_self, h.1.trans heq⟩
      · obtain ⟨x, hx, hm⟩ := ih h.2 hlt' (by omega)
        exact ⟨x, List.mem_cons_of_mem _ hx, hm⟩

theorem map_eq : Numbered num n xs ↔ xs.map num = List.range' (n + 1) xs.length := by
  induction xs generalizing n with
  | nil => simp [Numbered]
  | cons x xs ih => rw [Numbered, ih, List.map_cons, List.length_cons, List.range'_succ, List.cons.injEq]

theorem take (h : Numbered num n xs) (k : Nat) : Numbered num n (xs.take k) := by
  rw [← List.take_append_drop k xs] at h
  exact (append.mp h).1

/-- The elements up to a number are a first part. -/
theorem upto (h : Numbered num n xs) : Numbered num n (xs.filter fun x => num x ≤ m) := by
  induction xs generalizing n with
  | nil => trivial
  | cons x xs ih =>
      rw [List.filter_cons]
      split
      · exact ⟨h.1, ih h.2⟩
      · next hx =>
          have hnil : xs.filter (fun y => num y ≤ m) = [] := by
            refine List.filter_eq_nil_iff.mpr fun y hy => ?_
            have hlt := (h.2.bounds hy).1
            have hxn := h.1
            simp only [decide_eq_true_eq] at hx ⊢
            omega
          rw [hnil]
          trivial

theorem after_eq (h : Numbered num n xs) (hle : m ≤ n) : xs.filter (fun x => m < num x) = xs := by
  refine List.filter_eq_self.mpr fun x hx => ?_
  have hlt := (h.bounds hx).1
  simp only [decide_eq_true_eq]
  omega

/-- The elements after a number are a last part. -/
theorem after (h : Numbered num n xs) (hle : n ≤ m) (hm : m ≤ n + xs.length) :
    Numbered num m (xs.filter fun x => m < num x) ∧
      m + (xs.filter fun x => m < num x).length = n + xs.length := by
  induction xs generalizing n with
  | nil =>
      rw [List.length_nil] at hm
      obtain rfl : m = n := by omega
      exact ⟨trivial, rfl⟩
  | cons x xs ih =>
      have hx := h.1
      rcases Nat.eq_or_lt_of_le hle with rfl | hlt
      · rw [after_eq h (Nat.le_refl _)]
        exact ⟨h, rfl⟩
      · rw [List.filter_cons, if_neg (by simp only [decide_eq_true_eq]; omega)]
        rw [List.length_cons] at hm ⊢
        have hrest := ih h.2 hlt (by omega)
        exact ⟨hrest.1, by omega⟩

end Numbered

end MonoAgent.Lib
