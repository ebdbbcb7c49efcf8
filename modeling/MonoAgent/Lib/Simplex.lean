import Mathlib

/-!
# Projection onto the probability simplex

Cutting every coordinate of a vector at one common threshold gives the point of
the simplex nearest to the vector, provided the cut coordinates sum to one.  The
reason is an inequality of the obtuse angle: from the cut point every other point
of the simplex leads away from the vector, so the squared distances add up to at
most the distance of the other point (`sqDist_add_le`).  Minimality and uniqueness
are read off it.
-/

namespace MonoAgent.Lib

variable {ι α : Type*} [Field α] [LinearOrder α]

/-- Every coordinate of `p` is that of `z` cut at `t`. -/
def CutAt (t : α) (z p : ι → α) : Prop :=
  ∀ i, p i = max (z i - t) 0

theorem CutAt.nonneg {t : α} {z p : ι → α} (h : CutAt t z p) (i : ι) : 0 ≤ p i := by
  simp [h i]

variable [IsStrictOrderedRing α]

theorem CutAt.pos_iff {t : α} {z p : ι → α} (h : CutAt t z p) (i : ι) : 0 < p i ↔ t < z i := by
  simp [h i]

theorem CutAt.eq_sub {t : α} {z p : ι → α} (h : CutAt t z p) {i : ι} (hi : t < z i) :
    p i = z i - t := by
  rw [h i]
  exact max_eq_left (sub_nonneg.mpr hi.le)

theorem CutAt.eq_zero {t : α} {z p : ι → α} (h : CutAt t z p) {i : ι} (hi : z i ≤ t) :
    p i = 0 := by
  rw [h i]
  exact max_eq_right (sub_nonpos.mpr hi)

/-- A mass on the cut point weighs the gap `p - z + t` by nothing, a mass elsewhere
by something non-negative. -/
theorem CutAt.gap {t : α} {z p : ι → α} (h : CutAt t z p) {q : ι → α} (hq : ∀ i, 0 ≤ q i)
    (i : ι) : 0 ≤ (q i - p i) * (p i - z i + t) := by
  rcases lt_or_ge t (z i) with hi | hi
  · simp [h.eq_sub hi]
  · rw [h.eq_zero hi]
    have hgap : 0 ≤ 0 - z i + t := by linarith
    simpa using mul_nonneg (hq i) hgap

variable [Fintype ι]

/-- The square of the Euclidean distance. -/
def sqDist (p q : ι → α) : α :=
  ∑ i, (p i - q i) ^ 2

/-- `p` is a point of the simplex and no point of it is nearer to `z`. -/
def IsProjection (z p : ι → α) : Prop :=
  p ∈ stdSimplex α ι ∧ ∀ q ∈ stdSimplex α ι, sqDist p z ≤ sqDist q z

theorem sqDist_nonneg (p q : ι → α) : 0 ≤ sqDist p q :=
  Finset.sum_nonneg fun i _ => sq_nonneg (p i - q i)

theorem sqDist_eq_zero {p q : ι → α} (h : sqDist p q = 0) : p = q := by
  have hzero := (Finset.sum_eq_zero_iff_of_nonneg fun i _ => sq_nonneg (p i - q i)).mp h
  funext i
  have hi : (p i - q i) ^ 2 = 0 := hzero i (Finset.mem_univ i)
  exact sub_eq_zero.mp (pow_eq_zero_iff two_ne_zero |>.mp hi)

theorem CutAt.sqDist_add_le {t : α} {z p q : ι → α} (h : CutAt t z p) (hp : ∑ i, p i = 1)
    (hq : q ∈ stdSimplex α ι) : sqDist q p + sqDist p z ≤ sqDist q z := by
  have hgap : 0 ≤ ∑ i, (q i - p i) * (p i - z i + t) :=
    Finset.sum_nonneg fun i _ => h.gap hq.1 i
  have hshift : ∑ i, (q i - p i) * (p i - z i + t) = ∑ i, (q i - p i) * (p i - z i) := by
    have hmass : ∑ i, (q i - p i) = 0 := by
      rw [Finset.sum_sub_distrib, hp, hq.2, sub_self]
    calc ∑ i, (q i - p i) * (p i - z i + t)
        = ∑ i, (q i - p i) * (p i - z i) + (∑ i, (q i - p i)) * t := by
          rw [Finset.sum_mul, ← Finset.sum_add_distrib]
          exact Finset.sum_congr rfl fun i _ => by ring
      _ = ∑ i, (q i - p i) * (p i - z i) := by rw [hmass, zero_mul, add_zero]
  have hsquare : sqDist q z =
      sqDist q p + sqDist p z + 2 * ∑ i, (q i - p i) * (p i - z i) := by
    rw [sqDist, sqDist, sqDist, Finset.mul_sum, ← Finset.sum_add_distrib,
      ← Finset.sum_add_distrib]
    exact Finset.sum_congr rfl fun i _ => by ring
  rw [hsquare]
  rw [hshift] at hgap
  linarith

/-- The cut point is the one projection. -/
theorem CutAt.isProjection_iff {t : α} {z p : ι → α} (h : CutAt t z p) (hp : ∑ i, p i = 1)
    (q : ι → α) : IsProjection z q ↔ q = p := by
  have hmem : p ∈ stdSimplex α ι := ⟨h.nonneg, hp⟩
  constructor
  · rintro ⟨hq, hmin⟩
    have hle := h.sqDist_add_le hp hq
    have hback := hmin p hmem
    have hnonneg := sqDist_nonneg q p
    exact sqDist_eq_zero (by linarith)
  · rintro rfl
    refine ⟨hmem, fun r hr => ?_⟩
    have hle := h.sqDist_add_le hp hr
    have hnonneg := sqDist_nonneg r q
    linarith

end MonoAgent.Lib
