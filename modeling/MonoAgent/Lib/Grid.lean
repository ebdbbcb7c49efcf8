import Mathlib

/-!
# Points of a grid

The points `start + k * period` of a grid on the integers, from `start` on.
`nextPoint` is the first of those behind `start` that is later than a given time,
whether that time is before `start`, on the grid or between two of its points.
-/

namespace MonoAgent.Lib

variable {start period after t u : Int}

/-- `t` is a point of the grid, not before its start. -/
def OnGrid (start period t : Int) : Prop := ∃ k : Nat, t = start + k * period

/-- The points behind the start that are later than `after`. -/
def gridAfter (start period after : Int) : Set Int :=
  {t | ∃ k : Int, 1 ≤ k ∧ t = start + k * period ∧ after < t}

/-- The next point, by floor division. -/
def nextPoint (start period after : Int) : Int :=
  start + (max 0 ((after - start) / period) + 1) * period

theorem OnGrid.refl (start period : Int) : OnGrid start period start := ⟨0, by simp⟩

/-- A grid that starts in a point of a grid is part of it. -/
theorem OnGrid.trans (h : OnGrid start period t) (h' : OnGrid t period u) :
    OnGrid start period u := by
  obtain ⟨k, rfl⟩ := h
  obtain ⟨l, rfl⟩ := h'
  refine ⟨k + l, ?_⟩
  push_cast
  rw [Int.add_mul]
  omega

theorem onGrid_of_mem_gridAfter (h : t ∈ gridAfter start period after) :
    OnGrid start period t := by
  obtain ⟨k, hk, rfl, -⟩ := h
  exact ⟨k.toNat, by rw [Int.toNat_of_nonneg (by omega)]⟩

theorem nextPoint_later (hp : 0 < period) : after < nextPoint start period after := by
  rw [nextPoint]
  have hlt := Int.lt_ediv_add_one_mul_self (after - start) hp
  rcases le_total 0 ((after - start) / period) with hq | hq
  · rw [max_eq_right hq]
    omega
  · rw [max_eq_left hq]
    have hneg : ((after - start) / period + 1) * period ≤ 1 * period :=
      Int.mul_le_mul_of_nonneg_right (by omega) hp.le
    omega

/-- No earlier point is later than `after`, by the bound on the quotient. -/
theorem nextPoint_le {k : Int} (hp : 0 < period) (hk : 1 ≤ k) (h : after < start + k * period) :
    nextPoint start period after ≤ start + k * period := by
  have hquot : (after - start) / period < k := Int.ediv_lt_of_lt_mul hp (by omega)
  have hmax : max 0 ((after - start) / period) + 1 ≤ k := by omega
  have hmul := Int.mul_le_mul_of_nonneg_right hmax hp.le
  rw [nextPoint]
  omega

theorem isLeast_nextPoint (hp : 0 < period) :
    IsLeast (gridAfter start period after) (nextPoint start period after) := by
  refine ⟨⟨_, ?_, rfl, nextPoint_later hp⟩, ?_⟩
  · omega
  · rintro t ⟨k, hk, rfl, hlt⟩
    exact nextPoint_le hp hk hlt

/-- A point behind the start is later than the start, so that asking for the points
later than the start as well changes nothing. -/
theorem gridAfter_max (hp : 0 < period) (after : Int) :
    gridAfter start period (max after start) = gridAfter start period after := by
  ext t
  constructor
  · rintro ⟨k, hk, ht, hlt⟩
    exact ⟨k, hk, ht, by omega⟩
  · rintro ⟨k, hk, ht, hlt⟩
    have hmul : 1 * period ≤ k * period := Int.mul_le_mul_of_nonneg_right hk hp.le
    exact ⟨k, hk, ht, by omega⟩

end MonoAgent.Lib
