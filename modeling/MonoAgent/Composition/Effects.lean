import Mathlib
import MonoAgent.Lib.Machine

/-!
# Effects

An `Effect` runs a setup that collects cleanups and later runs them in reverse.  All
disposers join one close task, which waits until setup has settled.  A caller first
waits for it under `asyncio.shield`; cancelled there it waits again, without the
shield, and a further cancellation reaches the close task itself.

A step of the machine is what a coroutine does between two waits.  Inside a cleanup a
cancellation arrives as an exception of that cleanup, which `_run_cleanups` records, so
it needs no step of its own.
-/

namespace MonoAgent.Composition

open MonoAgent.Lib

/-- What `setup()` returned, by what `_collect_result` finds in it. -/
inductive Output (γ : Type) where
  /-- `setup()`, an awaited value or an iterator raises. -/
  | raises
  /-- `None`, or the end of an iteration. -/
  | nothing
  | cleanup (c : γ)
  /-- An awaitable and what it returns. -/
  | awaitable (result : Output γ)
  /-- An iterable: its next item and the rest. -/
  | items (first rest : Output γ)
  /-- An asynchronous iterable. -/
  | asyncItems (first rest : Output γ)
  | unsupported

/-- One event of `_collect_result`. -/
inductive Beat (γ : Type) where
  | append (c : γ)
  | await
  | raise

/-- `_collect_result`. -/
def Output.collect {γ : Type} : Output γ → List (Beat γ)
  | .raises => [.raise]
  | .nothing => []
  | .cleanup c => [.append c]
  | .awaitable result => .await :: result.collect
  | .items first rest => first.collect ++ rest.collect
  | .asyncItems first rest => .await :: (first.collect ++ rest.collect)
  | .unsupported => [.raise]

/-- How a coroutine waits for the close task. -/
inductive Wait where
  | shielded
  /-- `await self._close_task` in the `except` branch. -/
  | bare
deriving DecidableEq

/-- A caller of `aclose`, and the end of `start`. -/
inductive Caller where
  | absent
  | waiting (w : Wait)
  | returned
  | raised
deriving DecidableEq

/-- Where `start` is. -/
inductive Setup (γ : Type) where
  | unstarted
  | collecting (rest : List (Beat γ))
  /-- In `_run_cleanups` after a failure. -/
  | rollback
  /-- `_ready` is set. -/
  | settled (caller : Caller)

/-- The close task. -/
inductive Closing where
  | none
  /-- At `_ready.wait()`. -/
  | waiting
  /-- In `_run_cleanups`. -/
  | cleaning
  | done (raised : Bool)
  | cancelled
deriving DecidableEq

/-- `close_task.cancel()`. -/
def Closing.cancel : Closing → Closing
  | .waiting => .cancelled
  | c => c

structure Effect (γ : Type) where
  setup : Setup γ := .unstarted
  close : Closing := .none
  /-- `_cleanups`, and the cleanup that was popped last and still runs. -/
  cleanups : List γ := []
  running : Option γ := none
  errors : Bool := false
  ready : Bool := false
  closed : Bool := false
  /-- The calls of `_remove_from_owner`. -/
  removals : ℕ := 0
  callers : ℕ → Caller := fun _ => .absent
  /-- Setup raised. -/
  failed : Bool := false
  /-- All cleanups that setup collected, those that were called and those that ended. -/
  collected : List γ := []
  called : List γ := []
  finished : List γ := []

inductive EffectAction (γ : Type) where
  | start (output : Output γ)
  /-- `start` goes on to its next event. -/
  | setup
  /-- A cancellation of the task in `start`. -/
  | cancelStart
  /-- `_run_cleanups` calls the next cleanup, or ends. -/
  | clean
  /-- The running cleanup ends. -/
  | settle (raised : Bool)
  /-- The close task goes on after `_ready.wait()`. -/
  | proceed
  /-- A new caller of `aclose`, which may be the setup task. -/
  | aclose (caller : ℕ) (inSetup : Bool)
  | cancel (caller : ℕ)
  /-- A waiting caller goes on once the close task is done. -/
  | wake (caller : ℕ)
  | wakeStart

namespace Effect

variable {γ : Type} (s : Effect γ)

/-- The next event of `start` up to the point where `_ready` is set. -/
def collectNext : List (Beat γ) → Effect γ
  | [] =>
      { s with
        ready := true
        setup := .settled (if s.close = .none then .returned else .waiting .shielded) }
  | .append c :: rest =>
      { s with
        cleanups := s.cleanups ++ [c]
        collected := s.collected ++ [c]
        setup := .collecting rest }
  | .await :: rest => { s with setup := .collecting rest }
  | .raise :: _ => { s with setup := .rollback, failed := true }

/-- `_run_cleanups` with nothing left, and what its caller does then. -/
def release : Effect γ :=
  match s.setup with
  | .rollback =>
      { s with closed := true, removals := s.removals + 1, ready := true, setup := .settled .raised }
  | _ => { s with closed := true, removals := s.removals + 1, close := .done s.errors }

/-- One turn of the loop of `_run_cleanups`. -/
def clean : Effect γ :=
  match s.cleanups.getLast? with
  | some c =>
      { s with cleanups := s.cleanups.dropLast, running := some c, called := s.called ++ [c] }
  | none => s.release

/-- Some coroutine is in `_run_cleanups`. -/
def Cleaning : Prop :=
  (match s.setup with | .rollback => True | _ => False) ∨ s.close = .cleaning

instance : Decidable s.Cleaning := by
  unfold Cleaning
  cases s.setup <;> infer_instance

/-- `aclose` up to its wait. -/
def aclose (k : ℕ) (inSetup : Bool) : Effect γ :=
  if s.closed then { s with callers := Function.update s.callers k .returned }
  else if inSetup && !s.ready then { s with callers := Function.update s.callers k .raised }
  else
    { s with
      close := if s.close = .none then .waiting else s.close
      callers := Function.update s.callers k (.waiting .shielded) }

/-- How a wait for the close task ends. -/
def outcome (w : Wait) : Option Caller :=
  match s.close with
  | .done raised => some (if raised = true ∨ w = .bare then .raised else .returned)
  | .cancelled => some .raised
  | _ => none

/-- The state after a cancellation at a wait. -/
def cancelled : Caller → Option (Caller × Closing)
  | .waiting .shielded => some (.waiting .bare, s.close)
  | .waiting .bare => some (.waiting .bare, s.close.cancel)
  | _ => none

def next : EffectAction γ → Option (Effect γ)
  | .start output =>
      match s.setup with
      | .unstarted => some { s with setup := .collecting output.collect }
      | _ => none
  | .setup =>
      match s.setup with
      | .collecting rest => some (s.collectNext rest)
      | _ => none
  | .cancelStart =>
      match s.setup with
      | .collecting (.await :: _) => some { s with setup := .rollback, failed := true }
      | .settled caller =>
          (s.cancelled caller).map fun r => { s with setup := .settled r.1, close := r.2 }
      | _ => none
  | .clean => if s.Cleaning ∧ s.running = none then some s.clean else none
  | .settle raised =>
      s.running.map fun c =>
        { s with running := none, finished := s.finished ++ [c], errors := s.errors || raised }
  | .proceed =>
      if s.close = .waiting ∧ s.ready = true then
        some (if s.closed then { s with close := .done false }
          else { s with close := .cleaning, errors := false })
      else none
  | .aclose k inSetup => if s.callers k = .absent then some (s.aclose k inSetup) else none
  | .cancel k =>
      (s.cancelled (s.callers k)).map fun r =>
        { s with callers := Function.update s.callers k r.1, close := r.2 }
  | .wake k =>
      match s.callers k with
      | .waiting w =>
          (s.outcome w).map fun c => { s with callers := Function.update s.callers k c }
      | _ => none
  | .wakeStart =>
      match s.setup with
      | .settled (.waiting w) => (s.outcome w).map fun c => { s with setup := .settled c }
      | _ => none

end Effect

end MonoAgent.Composition
