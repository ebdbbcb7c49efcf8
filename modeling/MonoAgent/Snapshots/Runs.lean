import MonoAgent.Snapshots.Admission

/-!
# Runs of the store

What holds of the snapshots, their leases and their drains in every state of a run, and of
the waiters in a run in which no opening goes untold.
-/

namespace MonoAgent.Snapshots

open MonoAgent.Lib

variable {s t : Store}

/-- What holds of the snapshots, the leases and the drains. -/
structure Store.Holds (s : Store) : Prop where
  current : ∀ c, s.current = some c → c ∈ s.retained ∧ (s.heap c).phase = .committed
  /-- The counts are those of the leases that were not released. -/
  snapshots : ∀ i, (s.heap i).leases = s.held i
  generations : ∀ g, s.counts g = s.total g
  /-- At most one candidate is open. -/
  candidate : ∀ i j, Candidate s i → Candidate s j → i = j
  draining : ∀ k ∈ s.tasks, k.stage = .running → (s.heap k.snapshot).phase.closed = true ∧ (s.heap k.snapshot).leases = 0
  apart : ∀ (i j : Nat) (k l : Task), s.tasks[i]? = some k → s.tasks[j]? = some l → k.stage = .running →
    l.stage = .running → k.snapshot = l.snapshot → i = j
  once : ∀ (i j : Nat) (k l : Task), s.tasks[i]? = some k → s.tasks[j]? = some l → k.stage = .ended true →
    l.stage = .ended true → k.snapshot = l.snapshot → i = j

theorem StoreInv.holds (h : StoreInv s) : s.Holds where
  current := h.pointers.current
  snapshots := h.leases.snapshots
  generations := h.leases.generations
  candidate _ _ hi hj := h.pointers.candidate hi.retained hj.retained hi.phase hj.phase hi.current hj.current
  draining k hk _ := h.drains.closed k hk
  apart i j k l hk hl hrk hrl heq := by
    have hi := (h.drains.live i k hk (by rw [hrk]; rfl)).1
    have hj := (h.drains.live j l hl (by rw [hrl]; rfl)).1
    rw [heq, hj] at hi
    exact (Option.some.inj hi).symm
  once := h.drains.once

/-- In every state of a run: the stable snapshot is committed and retained, the counts are right, at most one
candidate is open, and a snapshot is drained once, when it is closed and not leased.  No lease is given out of a
snapshot after its drain was scheduled, and no waiter sleeps on a snapshot that is open. -/
theorem snapshots_run (h : storeMachine.Reach Wakes s) :
    s.Holds ∧ (∀ a t, storeMachine.next s a = some t → s.Leases t) ∧ Awake s := by
  have hinv := storeInv_reach h
  exact ⟨hinv.holds, fun a t hn => (step_stepped hinv hn).leases, awake_reach h⟩

/-- A snapshot is installed and paused, a turn waits for it, and the next one is published. -/
def publishRun (after : Bool) : List Action :=
  [.pauseAdmission, .acquire .stable, .beginPublish "b" {0, 1} none true,
    .commit { serial := 0, previous := some 0, candidate := 1 } true false after]

def published (after : Bool) : Store :=
  (storeMachine.run (Store.installed "a" {0} none true) (publishRun after)).getD {}

theorem published_reach (after : Bool) : storeMachine.Reachable (published after) :=
  Machine.reach_getD (Or.inr ⟨_, _, _, _, rfl⟩) (fun _ _ _ => trivial) (by cases after <;> decide)

theorem snapshots_run_example : (published false).current = some 1 ∧ (published false).Holds := by
  have hwakes : ∀ a ∈ publishRun false, ∀ s, Wakes s a := by
    intro a ha s
    simp only [publishRun, List.mem_cons, List.not_mem_nil, or_false] at ha
    rcases ha with rfl | rfl | rfl | rfl
    · trivial
    · trivial
    · trivial
    · exact fun hfails => nomatch hfails.2.2.2.2
  have hreach : storeMachine.Reach Wakes (published false) :=
    Machine.reach_getD (Or.inr ⟨_, _, _, _, rfl⟩) hwakes (by decide)
  exact ⟨by decide, (snapshots_run hreach).1⟩

/-- When the callback raises the turn sleeps, though the new snapshot is open. -/
theorem waiter_sleeps : ∃ s w, storeMachine.Reachable s ∧ w ∈ s.waiters ∧ w.notified = false ∧ s.Admits w.target ∧
    ¬ s.Drains := by
  refine ⟨published true, { target := .stable }, published_reach true, by decide, rfl, ⟨1, by decide, by decide⟩, ?_⟩
  have hnone : (published true).tasks = [] := by decide
  rintro ⟨k, hk, _⟩
  rw [hnone] at hk
  cases hk

end MonoAgent.Snapshots
