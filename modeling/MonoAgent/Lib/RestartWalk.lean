import Mathlib

/-!
# Walks that restart

A walk over finitely many nodes stops with probability `a` at every step and else goes
on by the kernel `M`.  Where it stops when it starts with the masses `r` is the one
solution of a linear system (`existsUnique_solves`).  The solution is non-negative and
has the total of `r`, and stopping a part of the mass of one node by hand changes it by
that part (`Solves.push`): this is what makes the error of a partial computation exact.
-/

namespace MonoAgent.Lib

open Finset

variable {ι α : Type*} [Fintype ι] [Field α]

/-- `x` is where a walk from `r` stops. -/
def Solves (a : α) (M : ι → ι → α) (r x : ι → α) : Prop :=
  ∀ w, x w = a * r w + (1 - a) * ∑ v, x v * M v w

/-- The walk goes somewhere from every node. -/
structure IsKernel [LinearOrder α] (M : ι → ι → α) : Prop where
  nonneg : ∀ v w, 0 ≤ M v w
  total : ∀ v, ∑ w, M v w = 1

variable {a : α} {M : ι → ι → α} {r x : ι → α}

theorem Solves.sub {r' x' : ι → α} (h : Solves a M r x) (h' : Solves a M r' x') :
    Solves a M (fun w => r w - r' w) fun w => x w - x' w := by
  intro w
  have hsum : ∑ v, (x v - x' v) * M v w = ∑ v, x v * M v w - ∑ v, x' v * M v w := by
    rw [← sum_sub_distrib]
    exact sum_congr rfl fun v _ => by ring
  dsimp only
  rw [hsum, h w, h' w]
  ring

theorem Solves.neg (h : Solves a M r x) : Solves a M (fun w => - r w) fun w => - x w := by
  intro w
  have hsum : ∑ v, - x v * M v w = - ∑ v, x v * M v w := by
    rw [← sum_neg_distrib]
    exact sum_congr rfl fun v _ => by ring
  dsimp only
  rw [hsum, h w]
  ring

/-- Of the mass `m` of one node the part `a * m` stops there and the rest goes on. -/
theorem Solves.push [DecidableEq ι] (h : Solves a M r x) (v : ι) (m : α) :
    Solves a M (fun w => r w - (if w = v then m else 0) + (1 - a) * m * M v w)
      fun w => x w - if w = v then a * m else 0 := by
  intro w
  have hsum : ∑ u, (x u - if u = v then a * m else 0) * M u w =
      ∑ u, x u * M u w - a * m * M v w := by
    have hsplit (u : ι) : (x u - if u = v then a * m else 0) * M u w =
        x u * M u w - if u = v then a * m * M v w else 0 := by
      split_ifs with huv
      · rw [huv, sub_mul]
      · ring
    rw [sum_congr rfl fun u _ => hsplit u, sum_sub_distrib, sum_ite_eq' univ v, if_pos (mem_univ v)]
  dsimp only
  rw [hsum, h w]
  split_ifs with hwv <;> ring

variable [LinearOrder α]

theorem Solves.total (hM : IsKernel M) (ha : 0 < a) (h : Solves a M r x) :
    ∑ w, x w = ∑ w, r w := by
  have hwalk : ∑ w, ∑ v, x v * M v w = ∑ v, x v := by
    rw [sum_comm]
    refine sum_congr rfl fun v _ => ?_
    rw [← mul_sum, hM.total, mul_one]
  have hsum : ∑ w, x w = a * ∑ w, r w + (1 - a) * ∑ v, x v := by
    calc ∑ w, x w = ∑ w, (a * r w + (1 - a) * ∑ v, x v * M v w) := sum_congr rfl fun w _ => h w
      _ = a * ∑ w, r w + (1 - a) * ∑ v, x v := by
          rw [sum_add_distrib, ← mul_sum, ← mul_sum, hwalk]
  have hequal : a * ∑ w, x w = a * ∑ w, r w := by
    linear_combination hsum
  exact mul_left_cancel₀ ha.ne' hequal

variable [IsStrictOrderedRing α]

/-- The negative part of a solution would have to feed itself through a walk that loses
mass. -/
theorem Solves.nonneg (hM : IsKernel M) (ha : 0 < a) (ha' : a ≤ 1) (h : Solves a M r x)
    (hr : ∀ w, 0 ≤ r w) (w : ι) : 0 ≤ x w := by
  have hpart (v : ι) : - x v ≤ max (- x v) 0 := le_max_left _ _
  have hpart' (v : ι) : 0 ≤ max (- x v) 0 := le_max_right _ _
  have hrest : 0 ≤ 1 - a := sub_nonneg.mpr ha'
  have hfed (w : ι) : max (- x w) 0 ≤ (1 - a) * ∑ v, max (- x v) 0 * M v w := by
    have hnonneg : 0 ≤ ∑ v, max (- x v) 0 * M v w :=
      sum_nonneg fun v _ => mul_nonneg (hpart' v) (hM.nonneg v w)
    refine max_le ?_ (mul_nonneg hrest hnonneg)
    have hle : ∑ v, - x v * M v w ≤ ∑ v, max (- x v) 0 * M v w :=
      sum_le_sum fun v _ => mul_le_mul_of_nonneg_right (hpart v) (hM.nonneg v w)
    have hscaled := mul_le_mul_of_nonneg_left hle hrest
    have hstop := mul_nonneg ha.le (hr w)
    have heq := h.neg w
    linarith
  have hwalk : ∑ w, ∑ v, max (- x v) 0 * M v w = ∑ v, max (- x v) 0 := by
    rw [sum_comm]
    refine sum_congr rfl fun v _ => ?_
    rw [← mul_sum, hM.total, mul_one]
  have htotal : ∑ w, max (- x w) 0 ≤ (1 - a) * ∑ v, max (- x v) 0 := by
    calc ∑ w, max (- x w) 0 ≤ ∑ w, (1 - a) * ∑ v, max (- x v) 0 * M v w :=
          sum_le_sum fun w _ => hfed w
      _ = (1 - a) * ∑ v, max (- x v) 0 := by rw [← mul_sum, hwalk]
  have hsum : ∑ w, max (- x w) 0 ≤ 0 := by
    by_contra hpos
    have hmul := mul_pos ha (not_le.mp hpos)
    linarith
  have hone : max (- x w) 0 ≤ ∑ w, max (- x w) 0 :=
    single_le_sum (f := fun w => max (- x w) 0) (fun v _ => hpart' v) (mem_univ w)
  have hneg := hpart w
  linarith

theorem Solves.unique (hM : IsKernel M) (ha : 0 < a) (ha' : a ≤ 1) {x' : ι → α}
    (h : Solves a M r x) (h' : Solves a M r x') : x = x' := by
  funext w
  have hle := (h.sub h').nonneg hM ha ha' (fun w => by simp) w
  have hge := (h'.sub h).nonneg hM ha ha' (fun w => by simp) w
  linarith

/-- Every start has exactly one solution. -/
theorem existsUnique_solves (hM : IsKernel M) (ha : 0 < a) (ha' : a ≤ 1) (r : ι → α) :
    ∃! x, Solves a M r x := by
  let L : (ι → α) →ₗ[α] (ι → α) :=
    { toFun := fun x w => x w - (1 - a) * ∑ v, x v * M v w
      map_add' := fun x y => by
        funext w
        simp only [Pi.add_apply, add_mul, sum_add_distrib]
        ring
      map_smul' := fun c x => by
        funext w
        simp only [Pi.smul_apply, smul_eq_mul, RingHom.id_apply, mul_assoc, ← mul_sum]
        ring }
  have hL (x : ι → α) (w : ι) : L x w = x w - (1 - a) * ∑ v, x v * M v w := rfl
  have hinjective : Function.Injective L := by
    refine (injective_iff_map_eq_zero L).mpr fun y hy => ?_
    have hsolves : Solves a M (fun _ => 0) y := by
      intro w
      have hw := congrFun hy w
      rw [hL, Pi.zero_apply] at hw
      rw [mul_zero, zero_add]
      exact sub_eq_zero.mp hw
    have hzero : Solves a M (fun _ => 0) (0 : ι → α) := by
      intro w
      simp
    exact hsolves.unique hM ha ha' hzero
  obtain ⟨x, hx⟩ := (LinearMap.injective_iff_surjective.mp hinjective) fun w => a * r w
  refine ⟨x, fun w => ?_, fun y hy => ?_⟩
  · have hw := congrFun hx w
    rw [hL] at hw
    linarith
  · refine hy.unique hM ha ha' fun w => ?_
    have hw := congrFun hx w
    rw [hL] at hw
    linarith

end MonoAgent.Lib
