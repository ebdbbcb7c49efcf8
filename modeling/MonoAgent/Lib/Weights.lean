import Mathlib
import MonoAgent.Lib.Dict

/-!
# Dictionaries of running sums

Adding weighted entries to a dictionary one by one leaves at every key the sum of
its entries (`weightOf`), whatever their order; the values of the dictionary sum to
the weights of all entries.
-/

namespace MonoAgent.Lib

variable {κ α : Type*} [DecidableEq κ] [AddCommMonoid α]

/-- The weights that a list of entries gives a key, summed. -/
def weightOf (entries : List (κ × α)) (k : κ) : α :=
  ((entries.filter fun e => e.1 = k).map Prod.snd).sum

@[simp] theorem weightOf_nil (k : κ) : weightOf ([] : List (κ × α)) k = 0 := rfl

theorem weightOf_cons (e : κ × α) (entries : List (κ × α)) (k : κ) :
    weightOf (e :: entries) k = (if e.1 = k then e.2 else 0) + weightOf entries k := by
  by_cases h : e.1 = k
  · simp [weightOf, h]
  · simp [weightOf, h]

theorem weightOf_append (l m : List (κ × α)) (k : κ) :
    weightOf (l ++ m) k = weightOf l k + weightOf m k := by
  simp [weightOf, List.filter_append]

theorem weightOf_flatMap {ι : Type*} (f : ι → List (κ × α)) (l : List ι) (k : κ) :
    weightOf (l.flatMap f) k = (l.map fun i => weightOf (f i) k).sum := by
  induction l with
  | nil => rfl
  | cons i l ih => simp [weightOf_append, ih]

namespace Dict

/-- `d[k] = d.get(k, 0) + x`. -/
def addTo (d : Dict κ α) (k : κ) (x : α) : Dict κ α :=
  d.set k ((d.get? k).getD 0 + x)

/-- The entries added in their order. -/
def addAll (d : Dict κ α) (entries : List (κ × α)) : Dict κ α :=
  entries.foldl (fun d e => d.addTo e.1 e.2) d

omit [DecidableEq κ] [AddCommMonoid α] in
theorem nodup_keys_nil : Dict.keys ([] : Dict κ α) |>.Nodup := List.nodup_nil

theorem addAll_nil (d : Dict κ α) : d.addAll [] = d := rfl

theorem addAll_cons (d : Dict κ α) (e : κ × α) (entries : List (κ × α)) :
    d.addAll (e :: entries) = (d.addTo e.1 e.2).addAll entries := rfl

theorem addAll_append (d : Dict κ α) (l m : List (κ × α)) :
    d.addAll (l ++ m) = (d.addAll l).addAll m :=
  List.foldl_append

theorem nodup_keys_addTo {d : Dict κ α} (h : d.keys.Nodup) (k : κ) (x : α) :
    (d.addTo k x).keys.Nodup :=
  nodup_keys_set h _ _

theorem nodup_keys_addAll {d : Dict κ α} (h : d.keys.Nodup) (entries : List (κ × α)) :
    (d.addAll entries).keys.Nodup := by
  induction entries generalizing d with
  | nil => exact h
  | cons e entries ih => exact ih (nodup_keys_addTo h _ _)

theorem mem_keys_addAll {d : Dict κ α} {entries : List (κ × α)} {k : κ} :
    k ∈ (d.addAll entries).keys ↔ k ∈ d.keys ∨ k ∈ entries.map Prod.fst := by
  induction entries generalizing d with
  | nil => simp [addAll_nil]
  | cons e entries ih =>
      have hstep : k ∈ (d.addTo e.1 e.2).keys ↔ k ∈ d.keys ∨ k = e.1 := by
        rw [addTo, keys_set]
        split
        · next hin => exact ⟨Or.inl, fun h => h.elim id fun heq => heq ▸ hin⟩
        · simp
      rw [addAll_cons, ih, hstep, List.map_cons, List.mem_cons, or_assoc]

/-- Every key ends with what it had and the weights added to it. -/
theorem get?_addAll {d : Dict κ α} (h : d.keys.Nodup) (entries : List (κ × α)) (k : κ) :
    ((d.addAll entries).get? k).getD 0 = (d.get? k).getD 0 + weightOf entries k := by
  induction entries generalizing d with
  | nil => simp [addAll_nil]
  | cons e entries ih =>
      rw [addAll_cons, ih (nodup_keys_addTo h _ _), addTo, get?_set h, weightOf_cons]
      by_cases hk : k = e.1
      · subst hk
        simp [add_assoc]
      · simp [hk, Ne.symm hk]

/-- The values read by key sum to the values. -/
theorem sum_get? {d : Dict κ α} (h : d.keys.Nodup) :
    (d.keys.map fun k => (d.get? k).getD 0).sum = (d.map Prod.snd).sum := by
  rw [keys, List.map_map]
  refine congrArg List.sum (List.map_congr_left fun e he => ?_)
  have hget : d.get? e.1 = some e.2 := get?_of_mem h he
  simp [hget]

theorem sum_values_addTo {d : Dict κ α} (h : d.keys.Nodup) (k : κ) (x : α) :
    ((d.addTo k x).map Prod.snd).sum = (d.map Prod.snd).sum + x := by
  cases hk : d.get? k with
  | none =>
      have hnew := get?_eq_none.mp hk
      rw [addTo, hk, set, if_neg hnew]
      simp
  | some v =>
      obtain ⟨l, r, hd, hset, -, -⟩ := split_of_get? h hk (v + x)
      rw [addTo, hk, Option.getD_some, hset, hd]
      simp only [List.map_append, List.map_cons, List.sum_append, List.sum_cons]
      abel

theorem sum_values_addAll {d : Dict κ α} (h : d.keys.Nodup) (entries : List (κ × α)) :
    ((d.addAll entries).map Prod.snd).sum = (d.map Prod.snd).sum + (entries.map Prod.snd).sum := by
  induction entries generalizing d with
  | nil => simp [addAll_nil]
  | cons e entries ih =>
      rw [addAll_cons, ih (nodup_keys_addTo h _ _), sum_values_addTo h]
      simp [add_assoc]

end Dict

end MonoAgent.Lib
