import Mathlib
import MonoAgent.Lib.Machine

/-!
# The store of runtime snapshots

`RuntimeSnapshotStore` publishes one snapshot of the plugins after the other.  A turn
holds a lease of the snapshot that it runs on, and a snapshot that was retired is
drained once its last lease is released.

The store never waits while it holds its condition, so an operation is one step up to
its first wait.  `_validate_composition` reads the composition root, and the callbacks
of a publication are the caller's: whether they raise is an input.
-/

namespace MonoAgent.Snapshots

open MonoAgent.Lib

/-! ## Snapshots -/

/-- `SnapshotState` -/
inductive Phase where
  | compiled
  | validating
  | committed
  | aborted
  | retired
deriving DecidableEq

/-- The snapshot can be drained. -/
def Phase.closed : Phase → Bool
  | .aborted => true
  | .retired => true
  | _ => false

/-- A `RuntimeSnapshot`.  Its generations are of distinct plugins. -/
structure Snapshot where
  id : String := ""
  generations : Finset Nat := ∅
  /-- `composition_root` -/
  root : Option Nat := none
  phase : Phase := .compiled
  /-- `lease_count` -/
  leases : Nat := 0
  accepting : Bool := true
deriving DecidableEq

namespace Snapshot

def become (phase : Phase) (accepting : Bool) (x : Snapshot) : Snapshot := { x with phase, accepting }

def enter (phase : Phase) (x : Snapshot) : Snapshot := { x with phase }

/-- `accepting_leases` is set. -/
def accept (accepting : Bool) (x : Snapshot) : Snapshot := { x with accepting }

end Snapshot

/-- A `SnapshotTransaction`.  Transactions are compared by identity. -/
structure Transaction where
  serial : Nat
  previous : Option Nat
  candidate : Nat
deriving DecidableEq

/-- A `RuntimeSnapshotLease`. -/
structure Lease where
  snapshot : Nat
  active : Bool := true
deriving DecidableEq

/-- Where a task of `_run_drain` is. -/
inductive Stage where
  | created
  /-- In the callback. -/
  | running
  | ended (drained : Bool)
  /-- Cancelled before its first step, of which it runs nothing. -/
  | cancelled
deriving DecidableEq

def Stage.live : Stage → Bool
  | .created => true
  | .running => true
  | _ => false

structure Task where
  snapshot : Nat
  stage : Stage := .created
deriving DecidableEq

/-- What is leased. -/
inductive Target where
  | stable
  | latest
  | id (id : String)
  /-- `acquire_composition_root` -/
  | root (root : Nat)
deriving DecidableEq

def Target.ofRoot : Target → Bool
  | .root _ => true
  | _ => false

/-- A call of `acquire` that waits on the condition. -/
structure Waiter where
  target : Target
  notified : Bool := false
deriving DecidableEq

/-- A call that waits for drains. -/
inductive Call where
  | abort (candidate : Nat)
  /-- `retry_drains`, before it schedules what is left. -/
  | retry
  | retried
deriving DecidableEq

structure Wait where
  call : Call
  tasks : List Nat
deriving DecidableEq

/-! ## The store -/

structure Store where
  /-- The snapshots that were adopted, in order. -/
  heap : Nat → Snapshot := fun _ => {}
  size : Nat := 0
  /-- The `lease_count` of each generation. -/
  counts : Nat → Nat := fun _ => 0
  current : Option Nat := none
  latest : Option Nat := none
  /-- `_snapshots`, which have distinct ids. -/
  retained : List Nat := []
  pending : Option Transaction := none
  provisional : Option Transaction := none
  /-- The number of transactions that were begun. -/
  serial : Nat := 0
  /-- Every drain task. -/
  tasks : List Task := []
  /-- `_drain_tasks` -/
  drains : Nat → Option Nat := fun _ => none
  /-- `_drain_failures` -/
  failures : Nat → Bool := fun _ => false
  /-- Every lease. -/
  leases : List Lease := []
  waiters : List Waiter := []
  waits : List Wait := []

namespace Store

variable (s : Store)

def modify (i : Nat) (f : Snapshot → Snapshot) : Store := { s with heap := Function.update s.heap i (f (s.heap i)) }

/-- `notify_all` -/
def notifyAll : Store := { s with waiters := s.waiters.map fun w => { w with notified := true } }

/-- `latest` -/
def latest? : Option Nat := s.latest.or s.current

/-- `unpromoted_candidate` -/
def unpromoted : Option Nat := if s.latest? = s.current then none else s.latest?

/-- The task of `_drain_tasks`, unless it is done. -/
def draining (i : Nat) : Bool := ((s.drains i).bind (s.tasks[·]?)).any fun t => t.stage.live

/-- `_schedule_drain` -/
def scheduleDrain (i : Nat) : Store :=
  if i ∉ s.retained ∨ (s.heap i).phase.closed = false ∨ (s.heap i).leases ≠ 0 then s
  else if s.draining i then s
  else { s with
    failures := Function.update s.failures i false
    tasks := s.tasks ++ [{ snapshot := i }]
    drains := Function.update s.drains i (some s.tasks.length) }

/-! ## Publication -/

/-- The store that an operation leaves, and whether it has raised. -/
abbrev Result := Store × Bool

/-- A new snapshot of the compiler is adopted. -/
def adopt (id : String) (generations : Finset Nat) (root : Option Nat) (phase : Phase) (accepting : Bool) : Store :=
  { s with
    heap := Function.update s.heap s.size { id, generations, root, phase, accepting }
    size := s.size + 1
    retained := s.retained ++ [s.size] }

/-- `install` -/
def installed (id : String) (generations : Finset Nat) (root : Option Nat) (accepting : Bool) : Store :=
  { (({} : Store).adopt id generations root .committed accepting) with current := some 0, latest := some 0 }

/-- `begin_publish` -/
def beginPublish (id : String) (generations : Finset Nat) (root : Option Nat) (valid : Bool) : Result :=
  if s.pending ≠ none ∨ s.provisional ≠ none then (s, true)
  else if s.unpromoted ≠ none then (s, true)
  else if ∃ i ∈ s.retained, (s.heap i).id = id then (s, true)
  else if valid = false then (s, true)
  else
    let tx := { serial := s.serial, previous := s.current, candidate := s.size }
    ({ s.adopt id generations root .validating false with pending := some tx, serial := s.serial + 1 }, false)

/-- `commit` -/
def commit (tx : Transaction) (valid before after : Bool) : Result :=
  if s.pending ≠ some tx then (s, true)
  else if valid = false then (s, true)
  else if before then (s, true)
  else
    let s := { s.modify tx.candidate (.become .committed true) with
      current := some tx.candidate, latest := some tx.candidate, pending := none }
    match tx.previous with
    | none => (s.notifyAll, false)
    | some p =>
        let s := s.modify p (.enter .retired)
        if after then (s, true) else ((s.scheduleDrain p).notifyAll, false)

/-- `commit_latest` -/
def commitLatest (tx : Transaction) (valid before : Bool) : Result :=
  if s.pending ≠ some tx then (s, true)
  else if valid = false then (s, true)
  else if before then (s, true)
  else
    let s := s.modify tx.candidate (.become .committed true)
    (notifyAll { s with latest := some tx.candidate, pending := none }, false)

/-- `accepting_leases` of a snapshot, if there is one. -/
def accept (i : Option Nat) (accepting : Bool) : Store :=
  match i with
  | none => s
  | some i => s.modify i (.accept accepting)

/-- `commit_provisional` -/
def commitProvisional (tx : Transaction) (valid : Bool) : Result :=
  if s.pending ≠ some tx then (s, true)
  else if valid = false then (s, true)
  else
    let s := s.modify tx.candidate (.become .committed false)
    let s := s.accept tx.previous false
    (notifyAll { s with latest := some tx.candidate, pending := none, provisional := some tx }, false)

/-- `promote_latest_provisional` -/
def promoteLatestProvisional (valid : Bool) : Result :=
  if s.provisional ≠ none then (s, true)
  else match s.unpromoted with
    | none => (s, true)
    | some c =>
        if (s.heap c).accepting then (s, true)
        else if valid = false then (s, true)
        else
          let tx := { serial := s.serial, previous := s.current, candidate := c }
          let s := (s.accept s.current false).modify c (.accept false)
          (notifyAll { s with latest := some c, provisional := some tx, serial := s.serial + 1 }, false)

/-- `finalize_provisional` -/
def finalizeProvisional (tx : Transaction) (valid before after : Bool) : Result :=
  if s.provisional ≠ some tx then (s, true)
  else if valid = false then (s, true)
  else if before then (s, true)
  else
    let s := { s.modify tx.candidate (.enter .committed) with current := some tx.candidate }
    if after then ({ s with current := tx.previous }, true)
    else
      let s := { s.modify tx.candidate (.accept true) with provisional := none }
      match tx.previous with
      | none => (s.notifyAll, false)
      | some p =>
          let s := s.modify p (.become .retired false)
          ((s.scheduleDrain p).notifyAll, false)

/-- The stable snapshot is opened again. -/
def restore (i : Option Nat) (reopen : Bool) : Store :=
  match i with
  | none => s
  | some i => s.modify i (.become .committed reopen)

/-- `rollback_provisional` -/
def rollbackProvisional (tx : Transaction) (keep reopen : Bool) : Result :=
  if s.provisional ≠ some tx then (s, true)
  else if s.current ≠ tx.previous then (s, true)
  else
    let s := { s.restore tx.previous reopen with provisional := none }
    if keep then
      let s := s.modify tx.candidate (.become .committed false)
      (notifyAll { s with latest := some tx.candidate }, false)
    else
      let s := s.modify tx.candidate (.become .validating false)
      (notifyAll { s with latest := tx.previous, pending := some tx }, false)

/-- `promote_latest` -/
def promoteLatest (valid before after : Bool) : Result :=
  if s.provisional ≠ none then (s, true)
  else match s.unpromoted with
    | none => (s, true)
    | some c =>
        if (s.heap c).accepting then (s, true)
        else if valid = false then (s, true)
        else if before then (s, true)
        else
          let previous := s.current
          let s := { s.modify c (.accept true) with current := some c, latest := some c }
          match previous with
          | none =>
              if after then (notifyAll { s with current := none, latest := some c }, true) else (s.notifyAll, false)
          | some p =>
              let s := s.modify p (.become .retired false)
              if after then
                let s := s.modify p (.become .committed true)
                (notifyAll { s with current := some p, latest := some c }, true)
              else ((s.scheduleDrain p).notifyAll, false)

/-! ## Drains -/

/-- A call waits for the drains that are not done, or goes on. -/
def await (call : Call) (snapshots : List Nat) (go : Store → Store) : Store :=
  match snapshots.filterMap s.drains with
  | [] => go s
  | tasks => { s with waits := s.waits ++ [{ call, tasks }] }

/-- The end of `abort`. -/
def aborted (c : Nat) : Store := if s.failures c then s else s.notifyAll

/-- `abort` -/
def abort (tx : Transaction) (reopen : Bool) : Result :=
  if s.pending ≠ some tx then (s, true)
  else
    let s := s.modify tx.candidate (.become .aborted false)
    let s := if s.current = tx.previous then s.accept tx.previous reopen else s
    let s := { s with pending := none }
    ((s.scheduleDrain tx.candidate).await (.abort tx.candidate) [tx.candidate] fun s => s.aborted tx.candidate, false)

/-- What is left of `retry_drains` after the drains that were under way. -/
def retryRest : Store :=
  let s := s.retained.foldl scheduleDrain s
  s.await .retried s.retained id

/-- `retry_drains` -/
def retryDrains : Store := s.await .retry s.retained retryRest

/-- A call that waits has what it waits for. -/
def waitEnds (n : Nat) : Option Store := do
  let w ← s.waits[n]?
  let s := { s with waits := s.waits.eraseIdx n }
  let stages := w.tasks.filterMap fun j => (s.tasks[j]?).map Task.stage
  if .cancelled ∈ stages then some s
  else if stages.any Stage.live then none
  else match w.call with
    | .abort c => some (s.aborted c)
    | .retry => some s.retryRest
    | .retried => some s

/-- A task is cancelled.  One that is in the callback may fail by that. -/
def cancelTask (j : Nat) : Store :=
  match s.tasks[j]? with
  | some t => if t.stage = .created then { s with tasks := s.tasks.set j { t with stage := .cancelled } } else s
  | none => s

/-- A call that waits is cancelled, and with it what it waits for. -/
def waitCancelled (n : Nat) : Option Store := do
  let w ← s.waits[n]?
  return w.tasks.foldl cancelTask { s with waits := s.waits.eraseIdx n }

/-- `_run_drain` calls back. -/
def drainStarts (j : Nat) : Option Store := do
  let t ← s.tasks[j]?
  if t.stage = .created then some { s with tasks := s.tasks.set j { t with stage := .running } } else none

/-- The callback has returned, or raised. -/
def drainEnds (j : Nat) (drained : Bool) : Option Store := do
  let t ← s.tasks[j]?
  if t.stage = .running then
    let i := t.snapshot
    let s := { s with tasks := s.tasks.set j { t with stage := .ended drained } }
    let s := if drained then { s with retained := s.retained.erase i }
      else { s with failures := Function.update s.failures i true }
    some (notifyAll { s with drains := Function.update s.drains i none })
  else none

/-! ## Leases -/

def addLeases (i : Nat) (f : Nat → Nat) : Store :=
  { s.modify i fun x => { x with leases := f x.leases } with
    counts := fun g => if g ∈ (s.heap i).generations then f (s.counts g) else s.counts g }

/-- `_claim_lease` -/
def claimLease (i : Nat) : Store :=
  { s.addLeases i (· + 1) with leases := s.leases ++ [{ snapshot := i }] }

/-- The snapshot that is selected, or retained. -/
def select : Target → Option Nat
  | .stable => s.current
  | .latest => s.latest?
  | .id id => s.retained.find? fun i => (s.heap i).id = id
  | .root root => s.retained.find? fun i =>
      (s.heap i).root = some root ∧ ((s.heap i).phase = .validating ∨ (s.heap i).phase = .committed)

/-- What `acquire` does with the snapshot that it has selected. -/
inductive Admission where
  | refused
  | open
  | waits
deriving DecidableEq

def admission (t : Target) (i : Nat) : Admission :=
  match t with
  | .root _ => if s.current = some i ∧ (s.heap i).phase = .committed ∧ (s.heap i).accepting then .open else .waits
  | _ =>
      if (s.heap i).phase ≠ .committed then .refused
      else if (s.heap i).accepting then .open
      else .waits

/-- `acquire` and `acquire_composition_root`, up to their first wait. -/
def acquire (t : Target) : Store :=
  match s.select t with
  | none => s
  | some i =>
      match s.admission t i with
      | .refused => s
      | .open => s.claimLease i
      | .waits => { s with waiters := s.waiters ++ [{ target := t }] }

/-- A waiter goes on. -/
def wake (n : Nat) : Option Store := do
  let w ← s.waiters[n]?
  if w.notified then some (acquire { s with waiters := s.waiters.eraseIdx n } w.target) else none

/-- A waiter is cancelled. -/
def cancelWaiter (n : Nat) : Store := { s with waiters := s.waiters.eraseIdx n }

/-- `lease` -/
def lease (t : Target) : Store :=
  match s.select t with
  | none => s
  | some i => if t.ofRoot = false ∧ s.admission t i = .open then s.claimLease i else s

/-- `retain_publication_target` -/
def retainPublicationTarget (tx : Transaction) : Store :=
  let closed := s.unpromoted = some tx.candidate ∧ tx.previous = s.current ∧ (s.heap tx.candidate).accepting = false
  if s.pending ≠ some tx ∧ s.provisional ≠ some tx ∧ ¬ closed then s
  else if tx.candidate ∉ s.retained then s
  else s.claimLease tx.candidate

/-- `retain_recovery_target` -/
def retainRecoveryTarget (i : Nat) : Store :=
  if s.current ≠ some i ∨ (s.heap i).phase ≠ .committed ∨ (s.heap i).accepting ∨ (s.heap i).leases ≠ 0 then s
  else s.claimLease i

/-- `fork_lease` -/
def forkLease (n : Nat) : Store :=
  match s.leases[n]? with
  | some l => if l.active = false ∨ l.snapshot ∉ s.retained then s else s.claimLease l.snapshot
  | none => s

/-- `release` -/
def release (n : Nat) : Store :=
  match s.leases[n]? with
  | some l =>
      if l.active = false then s
      else
        let s := { s with leases := s.leases.set n { l with active := false } }
        if (s.heap l.snapshot).leases = 0 then s
        else ((s.addLeases l.snapshot (· - 1)).scheduleDrain l.snapshot).notifyAll
  | none => s

/-! ## Admission -/

/-- `pause_admission` -/
def pauseAdmission : Store := s.accept s.current false

/-- `pause_candidate_admission` -/
def pauseCandidateAdmission (i : Nat) : Store :=
  if s.unpromoted = some i then s.accept (some i) false else s

/-- `resume` -/
def resume (i : Nat) : Store :=
  let t := if (s.heap i).phase = .committed ∧ (s.current = some i ∨ s.unpromoted = some i) then s.accept (some i) true
    else s
  t.notifyAll

end Store

/-! ## The machine -/

inductive Action where
  | beginPublish (id : String) (generations : Finset Nat) (root : Option Nat) (valid : Bool)
  | commit (tx : Transaction) (valid before after : Bool)
  | commitLatest (tx : Transaction) (valid before : Bool)
  | commitProvisional (tx : Transaction) (valid : Bool)
  | promoteLatestProvisional (valid : Bool)
  | finalizeProvisional (tx : Transaction) (valid before after : Bool)
  | rollbackProvisional (tx : Transaction) (keep reopen : Bool)
  | promoteLatest (valid before after : Bool)
  | abort (tx : Transaction) (reopen : Bool)
  | retryDrains
  | waitEnds (n : Nat)
  | waitCancelled (n : Nat)
  | drainStarts (j : Nat)
  | drainEnds (j : Nat) (drained : Bool)
  | acquire (t : Target)
  | wake (n : Nat)
  | cancelWaiter (n : Nat)
  | lease (t : Target)
  | retainPublicationTarget (tx : Transaction)
  | retainRecoveryTarget (i : Nat)
  | forkLease (n : Nat)
  | release (n : Nat)
  | pauseAdmission
  | pauseCandidateAdmission (i : Nat)
  | resume (i : Nat)

def storeMachine : Machine Store Action where
  start s := s = {} ∨ ∃ id generations root accepting, s = Store.installed id generations root accepting
  next s
    | .beginPublish id generations root valid => some (s.beginPublish id generations root valid).1
    | .commit tx valid before after => some (s.commit tx valid before after).1
    | .commitLatest tx valid before => some (s.commitLatest tx valid before).1
    | .commitProvisional tx valid => some (s.commitProvisional tx valid).1
    | .promoteLatestProvisional valid => some (s.promoteLatestProvisional valid).1
    | .finalizeProvisional tx valid before after => some (s.finalizeProvisional tx valid before after).1
    | .rollbackProvisional tx keep reopen => some (s.rollbackProvisional tx keep reopen).1
    | .promoteLatest valid before after => some (s.promoteLatest valid before after).1
    | .abort tx reopen => some (s.abort tx reopen).1
    | .retryDrains => some s.retryDrains
    | .waitEnds n => s.waitEnds n
    | .waitCancelled n => s.waitCancelled n
    | .drainStarts j => s.drainStarts j
    | .drainEnds j drained => s.drainEnds j drained
    | .acquire t => some (s.acquire t)
    | .wake n => s.wake n
    | .cancelWaiter n => some (s.cancelWaiter n)
    | .lease t => some (s.lease t)
    | .retainPublicationTarget tx => some (s.retainPublicationTarget tx)
    | .retainRecoveryTarget i => some (s.retainRecoveryTarget i)
    | .forkLease n => some (s.forkLease n)
    | .release n => some (s.release n)
    | .pauseAdmission => some s.pauseAdmission
    | .pauseCandidateAdmission i => some (s.pauseCandidateAdmission i)
    | .resume i => some (s.resume i)

end MonoAgent.Snapshots
