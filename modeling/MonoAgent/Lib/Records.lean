import Mathlib

/-!
# Versioned records

A store of records under keys, each with a version that every write increases.
`save` is a compare-and-set: the writer names the version it has read, and is
refused when the record has moved on.

`Saw rs k r` says that `r` has been read under `k` at some time: the record is
still `r`, or has a later version.  Every write keeps it.  So a save that names
the version of a record that was read succeeds only while the record is unchanged,
whatever happened in between.
-/

namespace MonoAgent.Lib

/-- A value and the number of writes before it. -/
structure Versioned (ν : Type) where
  version : Nat
  value : ν
deriving DecidableEq

/-- The records under each key. -/
abbrev Records (κ ν : Type) := κ → Option (Versioned ν)

namespace Records

variable {κ ν : Type} [DecidableEq κ] {rs rs' : Records κ ν} {k k' : κ} {v : ν}
  {r : Versioned ν}

/-- The version of a record, `none` when there is none. -/
def version? (rs : Records κ ν) (k : κ) : Option Nat := (rs k).map (·.version)

/-- Write a record, whatever is there. -/
def put (rs : Records κ ν) (k : κ) (v : ν) : Records κ ν :=
  Function.update rs k (some ⟨((rs.version? k).map (· + 1)).getD 0, v⟩)

/-- Write a record unless its version is another than expected. -/
def save (rs : Records κ ν) (k : κ) (v : ν) (expected : Option Nat) : Option (Records κ ν) :=
  if rs.version? k = expected then some (rs.put k v) else none

/-- The record was `r` at some time. -/
def Saw (rs : Records κ ν) (k : κ) (r : Versioned ν) : Prop :=
  ∃ cur, rs k = some cur ∧ (cur = r ∨ r.version < cur.version)

theorem put_of_ne (h : k' ≠ k) : rs.put k v k' = rs k' := Function.update_of_ne h _ _

theorem put_absent (h : rs k = none) : rs.put k v k = some ⟨0, v⟩ := by
  rw [put, Function.update_self, version?, h]
  rfl

theorem put_present (h : rs k = some r) : rs.put k v k = some ⟨r.version + 1, v⟩ := by
  rw [put, Function.update_self, version?, h]
  rfl

theorem save_eq_some {expected : Option Nat} :
    rs.save k v expected = some rs' ↔ rs.version? k = expected ∧ rs.put k v = rs' := by
  rw [save]
  split
  · next h => simp [h]
  · next h => simp [h]

/-- A save on a record that was read goes through only if it is unchanged. -/
theorem Saw.save (h : rs.Saw k r) (hs : rs.save k v (some r.version) = some rs') :
    rs k = some r ∧ rs' = rs.put k v := by
  obtain ⟨cur, hcur, hr⟩ := h
  obtain ⟨hversion, rfl⟩ := save_eq_some.mp hs
  rw [version?, hcur] at hversion
  have hversion : cur.version = r.version := Option.some.inj hversion
  rcases hr with rfl | hlt
  · exact ⟨hcur, rfl⟩
  · omega

/-- A save that expects no record goes through only if there is none. -/
theorem save_new (hs : rs.save k v none = some rs') : rs k = none ∧ rs' = rs.put k v := by
  obtain ⟨hversion, rfl⟩ := save_eq_some.mp hs
  exact ⟨Option.map_eq_none_iff.mp hversion, rfl⟩

end Records

end MonoAgent.Lib
