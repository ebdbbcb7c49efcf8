import MonoAgent.PluginUi.Queries

/-!
# Slots of the gates

A slot that is taken from a semaphore is in the hands of the one that entered, or of a future that
has its result (`weight`).  Entering a path of gates takes one slot of each that is entered and
waits at the next, leaving gives one slot back for each.
-/

namespace MonoAgent.PluginUi

/-! ## Slots -/

namespace Semaphore

def granted (v : Semaphore) : Nat := v.waiters.countP fun w => w.2 = .granted

/-- Who waits. -/
def ids (v : Semaphore) : List Nat := v.waiters.map Prod.fst

/-- The slots that are free, or are handed over. -/
def weight (v : Semaphore) : Nat := v.value + v.granted

theorem grant_spec {ws us : List (Nat × Future)} (h : grant ws = some us) :
    us.map Prod.fst = ws.map Prod.fst ∧
      us.countP (fun w => w.2 = .granted) = ws.countP (fun w => w.2 = .granted) + 1 := by
  induction ws generalizing us with
  | nil => cases h
  | cons w rest ih =>
      rw [grant] at h
      split at h
      · next hw =>
          cases Option.some.inj h
          simp [hw]
      · obtain ⟨vs, hvs, rfl⟩ := Option.map_eq_some_iff.mp h
        obtain ⟨hids, hcount⟩ := ih hvs
        rw [List.map_cons, List.map_cons, hids, List.countP_cons, List.countP_cons, hcount]
        exact ⟨rfl, by omega⟩

/-- Slots change hands, and nobody else waits. -/
structure Hands (v u : Semaphore) (n : Nat) : Prop where
  slots : u.slots = v.slots
  ids : u.ids = v.ids
  weight : u.weight = v.weight + n

theorem Hands.refl (v : Semaphore) : Hands v v 0 := ⟨rfl, rfl, rfl⟩

theorem Hands.trans {v u w : Semaphore} {m n : Nat} (h : Hands v u m) (h' : Hands u w n) : Hands v w (m + n) :=
  ⟨h'.slots.trans h.slots, h'.ids.trans h.ids, by rw [h'.weight, h.weight, Nat.add_assoc]⟩

theorem hands_wakeUpNext {v u : Semaphore} (hv : 0 < v.value) (h : v.wakeUpNext = some u) :
    Hands v u 0 := by
  obtain ⟨ws, hws, rfl⟩ := Option.map_eq_some_iff.mp h
  obtain ⟨hids, hcount⟩ := grant_spec hws
  refine ⟨rfl, hids, ?_⟩
  simp only [weight, granted, hcount]
  omega

theorem hands_value (v : Semaphore) : Hands v { v with value := v.value + 1 } 1 :=
  ⟨rfl, rfl, by simp only [weight, granted]; omega⟩

theorem hands_release (v : Semaphore) : Hands v v.release 1 := by
  have hfree := hands_value v
  rw [release]
  cases h : ({ v with value := v.value + 1 } : Semaphore).wakeUpNext with
  | none => exact hfree
  | some u => exact hfree.trans (hands_wakeUpNext (Nat.succ_pos _) h)

theorem hands_wakeRounds (n : Nat) {v : Semaphore} (hn : n ≤ v.value) : Hands v (wakeRounds n v) 0 := by
  induction n generalizing v with
  | zero => exact .refl v
  | succ n ih =>
      rw [wakeRounds]
      split
      · next u hu =>
          have hvalue : n ≤ u.value := by
            obtain ⟨ws, -, rfl⟩ := Option.map_eq_some_iff.mp hu
            dsimp only
            omega
          exact (hands_wakeUpNext (by omega) hu).trans (ih hvalue)
      · exact .refl v

theorem hands_wake (v : Semaphore) : Hands v v.wake 0 := hands_wakeRounds v.value le_rfl

/-- A slot that was handed over comes back. -/
theorem hands_free (v : Semaphore) : Hands v { v with value := v.value + 1 }.wake 1 :=
  (hands_value v).trans (hands_wake _)

theorem hands_cancel (v : Semaphore) (i : Nat) : Hands v (v.cancel i) 0 := by
  refine ⟨rfl, ?_, ?_⟩
  · rw [ids, ids, cancel, List.map_map]
    refine List.map_congr_left fun w _ => ?_
    simp only [Function.comp_apply]
    split
    · next hw => rw [hw]
    · rfl
  · simp only [weight, granted, cancel, List.countP_map, Nat.add_zero]
    refine congrArg (v.value + ·) (List.countP_congr fun w _ => ?_)
    simp only [Function.comp_apply]
    split
    · next hw => simp [hw]
    · rfl

/-- One future less. -/
theorem remove_spec {v : Semaphore} {w : Nat × Future} (h : w ∈ v.waiters) :
    v.ids.Perm (w.1 :: (v.remove w).ids) ∧
      v.weight = (v.remove w).weight + if w.2 = .granted then 1 else 0 := by
  have hperm := List.perm_cons_erase h
  refine ⟨hperm.map Prod.fst, ?_⟩
  simp only [weight, granted, remove]
  rw [hperm.countP_eq, List.countP_cons]
  simp only [decide_eq_true_eq]
  omega

theorem remove_ids {v : Semaphore} {w : Nat × Future} (h : w ∈ v.waiters) (hnd : v.ids.Nodup) :
    (v.remove w).ids.Nodup ∧ ∀ j ∈ (v.remove w).ids, j ≠ w.1 ∧ j ∈ v.ids := by
  have hperm := (remove_spec h).1
  obtain ⟨hnot, hnodup⟩ := List.nodup_cons.mp (hperm.nodup_iff.mp hnd)
  refine ⟨hnodup, fun j hj => ⟨?_, hperm.mem_iff.mpr (List.mem_cons_of_mem _ hj)⟩⟩
  rintro rfl
  exact hnot hj

end Semaphore

open Semaphore

/-- What entering a path of gates does. -/
structure Entered (i : Nat) (G : Nat → Semaphore) (held todo : List Nat)
    (r : (Nat → Semaphore) × List Nat × List Nat × Phase) : Prop where
  slots : ∀ g, (r.1 g).slots = (G g).slots
  balance : ∀ g, (r.1 g).weight + r.2.1.count g = (G g).weight + held.count g
  path : r.2.1.reverse ++ r.2.2.1 = held.reverse ++ todo
  phase : (r.2.2.2 = .runs ∧ r.2.2.1 = []) ∨ r.2.2.2 = .waits
  outside : ∀ g, g ∉ todo → r.1 g = G g
  ids : ∀ g, (r.1 g).ids = (G g).ids ∨
    (r.2.2.2 = .waits ∧ r.2.2.1.head? = some g ∧ (r.1 g).ids = (G g).ids ++ [i])

theorem enter_spec (i : Nat) (G : Nat → Semaphore) (held todo : List Nat) :
    Entered i G held todo (enter i G held todo) := by
  induction todo generalizing G held with
  | nil => exact ⟨fun _ => rfl, fun _ => rfl, rfl, Or.inl ⟨rfl, rfl⟩, fun _ _ => rfl, fun _ => Or.inl rfl⟩
  | cons g rest ih =>
      rw [enter]
      split
      · refine ⟨fun g' => ?_, fun g' => ?_, rfl, Or.inr rfl, fun g' hg' => ?_, fun g' => ?_⟩
        · by_cases hg : g' = g
          · subst hg
            simp
          · simp [Function.update_of_ne hg]
        · by_cases hg : g' = g
          · subst hg
            simp [weight, granted]
          · simp [Function.update_of_ne hg]
        · exact Function.update_of_ne (List.ne_of_not_mem_cons hg') _ _
        · by_cases hg : g' = g
          · subst hg
            exact Or.inr ⟨rfl, rfl, by simp [ids]⟩
          · exact Or.inl (by simp [Function.update_of_ne hg])
      · next hlocked =>
          have hfree : 0 < (G g).value := by
            rw [locked, Bool.or_eq_true, not_or] at hlocked
            have hne : (G g).value ≠ 0 := by simpa using hlocked.1
            omega
          have h := ih (Function.update G g { G g with value := (G g).value - 1 }) (g :: held)
          refine ⟨fun g' => (h.slots g').trans ?_, fun g' => (h.balance g').trans ?_, ?_, h.phase,
            fun g' hg' => (h.outside g' fun hmem => hg' (List.mem_cons_of_mem _ hmem)).trans ?_, fun g' => ?_⟩
          · by_cases hg : g' = g
            · subst hg
              simp
            · simp [Function.update_of_ne hg]
          · by_cases hg : g' = g
            · subst hg
              simp only [Function.update_self, weight, granted, List.count_cons_self]
              omega
            · rw [Function.update_of_ne hg, List.count_cons_of_ne (Ne.symm hg)]
          · rw [h.path, List.reverse_cons, List.append_assoc]
            rfl
          · exact Function.update_of_ne (List.ne_of_not_mem_cons hg') _ _
          · have hids : (Function.update G g { G g with value := (G g).value - 1 } g').ids = (G g').ids := by
              by_cases hg : g' = g
              · subst hg
                rw [Function.update_self]
                rfl
              · rw [Function.update_of_ne hg]
            rw [← hids]
            exact h.ids g'

/-- Leaving gates gives one slot back for each. -/
theorem leave_spec (G : Nat → Semaphore) (held : List Nat) (g : Nat) :
    Hands (G g) (leave G held g) (held.count g) ∧ (g ∉ held → leave G held g = G g) := by
  induction held generalizing G with
  | nil => exact ⟨.refl _, fun _ => rfl⟩
  | cons g' rest ih =>
      rw [leave]
      obtain ⟨hhands, houtside⟩ := ih (Function.update G g' (G g').release)
      by_cases hg : g = g'
      · subst hg
        rw [Function.update_self] at hhands
        refine ⟨?_, fun hnot => absurd (List.mem_cons_self ..) hnot⟩
        rw [List.count_cons_self, Nat.add_comm]
        exact (hands_release _).trans hhands
      · rw [Function.update_of_ne hg] at hhands houtside
        rw [List.count_cons_of_ne (Ne.symm hg)]
        exact ⟨hhands, fun hnot => houtside fun hmem => hnot (List.mem_cons_of_mem _ hmem)⟩

end MonoAgent.PluginUi
