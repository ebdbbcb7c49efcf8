import Mathlib

/-!
# Union-find with path halving

A forest over the indices below `n` in which every index points to itself or to a
smaller one.  That is what keeps the loop of `find` finite: it only ever moves to a
smaller index.  `root` is what the pointers mean; `find` returns it and changes no
root, and `link` of two roots turns the larger one into a child of the smaller.
-/

namespace MonoAgent.Lib

/-- Pointers that never lead upwards. -/
structure Forest (n : ℕ) where
  parent : Fin n → Fin n
  le : ∀ i, parent i ≤ i

namespace Forest

variable {n : ℕ}

/-- Every index is its own root. -/
def discrete (n : ℕ) : Forest n :=
  ⟨id, fun _ => le_rfl⟩

/-- `parent[i] = j` for a `j` that is not above `i`. -/
def setParent (f : Forest n) (i j : Fin n) (h : j ≤ i) : Forest n where
  parent := Function.update f.parent i j
  le k := by
    rcases eq_or_ne k i with rfl | hne
    · rwa [Function.update_self]
    · rw [Function.update_of_ne hne]
      exact f.le k

/-- `parent[i] = parent[parent[i]]`. -/
def halve (f : Forest n) (i : Fin n) : Forest n :=
  f.setParent i (f.parent (f.parent i)) ((f.le _).trans (f.le i))

theorem parent_lt {f : Forest n} {i : Fin n} (h : f.parent i ≠ i) : f.parent i < i :=
  lt_of_le_of_ne (f.le i) h

/-- The loop that climbs to the root and halves the path behind it. -/
def findLoop : ℕ → Forest n → Fin n → Forest n × Fin n
  | 0, f, i => (f, i)
  | fuel + 1, f, i =>
      if f.parent i = i then (f, i)
      else findLoop fuel (f.halve i) (f.parent (f.parent i))

/-- The loop from an index: every turn moves to a smaller one, so there are at most
as many turns as indices up to it (`find_spec`). -/
def find (f : Forest n) (i : Fin n) : Forest n × Fin n :=
  findLoop (i + 1) f i

/-- Two roots are joined under the smaller. -/
def link (f : Forest n) (left right : Fin n) : Forest n :=
  f.setParent (max left right) (min left right) min_le_max

/-- The roots of two indices are found one after the other and linked. -/
def union (f : Forest n) (i j : Fin n) : Forest n :=
  let (f, left) := f.find i
  let (f, right) := f.find j
  if left ≠ right then f.link left right else f

/-- Where the pointers lead. -/
def root (f : Forest n) (i : Fin n) : Fin n :=
  if _h : f.parent i = i then i else f.root (f.parent i)
termination_by i
decreasing_by exact parent_lt ‹_›

/-! ## Roots -/

theorem root_of_parent {f : Forest n} {i : Fin n} (h : f.parent i = i) : f.root i = i := by
  rw [root, dif_pos h]

theorem root_parent (f : Forest n) (i : Fin n) : f.root (f.parent i) = f.root i := by
  by_cases h : f.parent i = i
  · rw [h]
  · rw [root.eq_def f i, dif_neg h]

@[simp] theorem root_discrete (i : Fin n) : (discrete n).root i = i :=
  root_of_parent rfl

theorem parent_root (f : Forest n) (i : Fin n) : f.parent (f.root i) = f.root i := by
  induction i using WellFoundedLT.induction with
  | ind i ih =>
      by_cases h : f.parent i = i
      · rw [root_of_parent h, h]
      · rw [← root_parent]
        exact ih _ (parent_lt h)

@[simp] theorem root_root (f : Forest n) (i : Fin n) : f.root (f.root i) = f.root i :=
  root_of_parent (f.parent_root i)

theorem root_halve (f : Forest n) (i j : Fin n) : (f.halve i).root j = f.root j := by
  induction j using WellFoundedLT.induction with
  | ind j ih =>
      have hparent : (f.halve i).parent j = if j = i then f.parent (f.parent i) else f.parent j := by
        simp [halve, setParent, Function.update_apply]
      by_cases hroot : f.parent j = j
      · have hsame : (f.halve i).parent j = j := by
          rw [hparent]
          split_ifs with hji
          · rw [← hji, hroot, hroot]
          · exact hroot
        rw [root_of_parent hsame, root_of_parent hroot]
      · rw [← root_parent, hparent]
        split_ifs with hji
        · subst hji
          rw [ih _ ((f.le _).trans_lt (parent_lt hroot)), root_parent, root_parent]
        · rw [ih _ (parent_lt hroot), root_parent]

theorem findLoop_spec {fuel : ℕ} {f : Forest n} {i : Fin n} (h : (i : ℕ) < fuel) :
    (findLoop fuel f i).2 = f.root i ∧ ∀ j, (findLoop fuel f i).1.root j = f.root j := by
  induction fuel generalizing f i with
  | zero => exact absurd h (Nat.not_lt_zero _)
  | succ fuel ih =>
      by_cases hroot : f.parent i = i
      · rw [findLoop, if_pos hroot]
        exact ⟨(root_of_parent hroot).symm, fun _ => rfl⟩
      · have hlt : f.parent (f.parent i) < i := (f.le _).trans_lt (parent_lt hroot)
        obtain ⟨hfound, hkept⟩ := ih (f := f.halve i) (i := f.parent (f.parent i)) (by omega)
        rw [findLoop, if_neg hroot]
        refine ⟨?_, fun j => ?_⟩
        · rw [hfound, root_halve, root_parent, root_parent]
        · rw [hkept, root_halve]

/-- `find` returns the root, where the loop stops, and moves no root. -/
theorem find_spec (f : Forest n) (i : Fin n) :
    (f.find i).2 = f.root i ∧ ∀ j, (f.find i).1.root j = f.root j :=
  findLoop_spec (Nat.lt_succ_self _)

theorem root_link {f : Forest n} {left right : Fin n} (hl : f.parent left = left)
    (hr : f.parent right = right) (j : Fin n) :
    (f.link left right).root j =
      if f.root j = max left right then min left right else f.root j := by
  have hparent (j : Fin n) : (f.link left right).parent j =
      if j = max left right then min left right else f.parent j := by
    simp [link, setParent, Function.update_apply]
  have hmin : f.parent (min left right) = min left right := by
    rcases min_choice left right with h | h <;> rw [h] <;> assumption
  have hmax : f.parent (max left right) = max left right := by
    rcases max_choice left right with h | h <;> rw [h] <;> assumption
  have hminroot : (f.link left right).root (min left right) = min left right := by
    refine root_of_parent ?_
    rw [hparent]
    split_ifs
    · rfl
    · exact hmin
  induction j using WellFoundedLT.induction with
  | ind j ih =>
      by_cases hj : f.parent j = j
      · rw [root_of_parent hj]
        split_ifs with htop
        · rw [← root_parent, hparent, if_pos htop, hminroot]
        · refine root_of_parent ?_
          rw [hparent, if_neg htop, hj]
      · have hne : j ≠ max left right := by
          rintro rfl
          exact hj hmax
        rw [← root_parent, hparent, if_neg hne, ih _ (parent_lt hj), root_parent]

/-- The tree of the larger root is moved under the smaller root. -/
theorem root_union (f : Forest n) (i j k : Fin n) :
    (f.union i j).root k =
      if f.root k = max (f.root i) (f.root j) then min (f.root i) (f.root j) else f.root k := by
  obtain ⟨hleft, hfirst⟩ := f.find_spec i
  obtain ⟨hright, hsecond⟩ := (f.find i).1.find_spec j
  rw [hfirst] at hright
  have hkept (k : Fin n) : ((f.find i).1.find j).1.root k = f.root k := by
    rw [hsecond, hfirst]
  have hparent (k : Fin n) : ((f.find i).1.find j).1.parent (f.root k) = f.root k := by
    rw [← hkept]
    exact parent_root _ k
  simp only [union, hleft, hright]
  split_ifs with hne htop htop
  · rw [root_link (hparent i) (hparent j), hkept, if_pos htop]
  · rw [root_link (hparent i) (hparent j), hkept, if_neg htop]
  · rw [hkept, htop, not_not.mp hne, max_self, min_self]
  · exact hkept k

/-- What was together stays together. -/
theorem root_union_eq {f : Forest n} {k l : Fin n} (h : f.root k = f.root l) (i j : Fin n) :
    (f.union i j).root k = (f.union i j).root l := by
  rw [root_union, root_union, h]

theorem root_union_self (f : Forest n) (i j : Fin n) :
    (f.union i j).root i = (f.union i j).root j := by
  rw [root_union, root_union]
  rcases le_total (f.root i) (f.root j) with h | h
  · rw [max_eq_right h, min_eq_left h, if_pos rfl]
    split_ifs <;> rfl
  · rw [max_eq_left h, min_eq_right h, if_pos rfl]
    split_ifs <;> rfl

/-- A root that changed became one of the two united roots, and was one of them. -/
theorem root_union_cases (f : Forest n) (i j k : Fin n) :
    (f.union i j).root k = f.root k ∨
      ((f.root k = f.root i ∨ f.root k = f.root j) ∧
        ((f.union i j).root k = f.root i ∨ (f.union i j).root k = f.root j)) := by
  rw [root_union]
  split_ifs with h
  · rw [h]
    rcases le_total (f.root i) (f.root j) with hle | hle
    · simp [hle]
    · simp [hle]
  · exact Or.inl rfl

end Forest

end MonoAgent.Lib
