import Mathlib
import MonoAgent.Lib.Machine
import MonoAgent.Reload.Transaction
import MonoAgent.Reload.Update

/-!
# The journal of plugin reloads

The journal has a row for each reload and a row for each update.  A call is one
transaction of the database: it commits its changes to both tables, or none.  A call that
rolls an update back writes the files first, so a call that raises and a crash can leave
files written and the rows as they were.
-/

namespace MonoAgent.Reload

open MonoAgent.Lib

/-- The tables `reload_transactions` and `plugin_updates`. -/
structure Journal where
  transactions : Dict String Transaction := []
  updates : Dict String UpdateRollback := []
deriving DecidableEq

/-- The arguments of `begin`. -/
structure Begin where
  pluginId : String
  baseSnapshotId : Option String := none
  baseGenerationId : Option String := none
  generationId : String
  sourceRevision : String
  baseArtifactPointer : Option String := none
  candidateArtifactPointer : Option String := none
deriving DecidableEq

/-- The row that `begin` inserts. -/
def Begin.row (b : Begin) : Transaction :=
  { pluginId := b.pluginId, baseSnapshotId := b.baseSnapshotId, baseGenerationId := b.baseGenerationId,
    generationId := b.generationId, sourceRevision := b.sourceRevision,
    baseArtifactPointer := b.baseArtifactPointer, candidateArtifactPointer := b.candidateArtifactPointer }

/-- A `ReloadRecoveryAction`. -/
structure Recovery where
  txId : String
  pluginId : String
  generationId : String
  sourceRevision : String
  phase : Phase
  action : RecoveryAction
  baseSnapshotId : Option String := none
  candidateSnapshotId : Option String := none
  baseGenerationId : Option String := none
  formalEffects : List String := []
  failureResource : Option String := none
  error : String := ""
  attemptCount : Int := 0
  runtimeOwnerBootId : Option String := none
  baseArtifactPointer : Option String := none
  candidateArtifactPointer : Option String := none
  recoveryTarget : Option RecoveryTarget := none
deriving DecidableEq

/-- What a call does: the files after each write, and what it commits unless it raises. -/
structure Attempt where
  writes : List Files := []
  commit : Option Journal

namespace Attempt

def raise : Attempt := { commit := none }

/-- The files a call leaves. -/
def files (a : Attempt) (fs : Files) : Files := a.writes.getLast?.getD fs

/-- One part of a call after the other. -/
def andThen (a : Attempt) (fs : Files) (f : Journal → Files → Attempt) : Attempt :=
  match a.commit with
  | none => a
  | some j =>
      let b := f j (a.files fs)
      { writes := a.writes ++ b.writes, commit := b.commit }

end Attempt

namespace Journal

variable (j : Journal) (fs : Files)

/-- The rows of `plugin_updates` that are armed and meet `p` take another phase. -/
def settle (p : String → UpdateRollback → Bool) (phase : UpdatePhase) : Journal :=
  { j with updates := j.updates.map fun e =>
      (if p e.1 e.2 = true ∧ e.2.phase = .armed then (e.1, { e.2 with phase }) else e) }

/-- The update of a reload. -/
def linked (txId : String) : String → UpdateRollback → Bool := fun _ u => u.reloadTxId = some txId

/-! ## Updates -/

/-- `arm`. -/
def armUpdate (updateId pluginId : String) (pluginBase : Directory) (previous : Option ArtifactPointers)
    (candidate : Option String) (previousEnabled : Option Bool) : Option Journal := do
  let candidate ← candidate
  guard (updateId ≠ "" ∧ updateId ∉ j.updates.keys)
  guard (∀ e ∈ j.updates, e.2.pluginId = pluginId → e.2.phase ≠ .armed)
  let update : UpdateRollback :=
    { pluginId, pluginBase := fs.resolve pluginBase, previous, candidate, previousEnabled }
  some { j with updates := j.updates ++ [(updateId, update)] }

/-- `link`. -/
def link (txId pluginId : String) (candidatePointer : Option String) : Option Journal :=
  match j.updates.find? fun e => e.2.pluginId = pluginId ∧ e.2.phase = .armed with
  | none => some j
  | some e =>
      if candidatePointer ≠ some e.2.candidate ∨ e.2.reloadTxId ≠ none then none
      else some { j with updates := j.updates.set e.1 { e.2 with reloadTxId := some txId } }

/-- `commit`. -/
def commit (txId : String) : Journal := j.settle (linked txId) .committed

def rollback (updateId : String) (home : Directory) : Attempt :=
  match j.updates.get? updateId with
  | none => .raise
  | some u =>
      match u.rollback home fs with
      | none => .raise
      | some writes => { writes, commit := some (j.settle (fun id _ => id = updateId) .rolledBack) }

/-- `rollback_linked`. -/
def rollbackLinked (txId : String) : Attempt :=
  match j.updates.find? fun e => e.2.reloadTxId = some txId ∧ e.2.phase = .armed with
  | none => { commit := some j }
  | some e => j.rollback fs e.1 (e.2.pluginBase.take (e.2.pluginBase.length - 3))

/-- `commit_update`: only an update without a reload. -/
def commitUpdate (updateId : String) : Option Journal :=
  match j.updates.get? updateId with
  | none => none
  | some u =>
      if u.phase = .armed ∧ u.reloadTxId = none then some (j.settle (fun id _ => id = updateId) .committed)
      else none

/-- The updates that are armed, or the one that is asked for. -/
def armed (updateId : Option String) : List String :=
  Dict.keys (j.updates.filter fun e => e.2.phase = .armed ∧ (updateId = none ∨ updateId = some e.1))

def rollbackAll (home : Directory) : List String → Journal → Files → Attempt
  | [], j, _ => { commit := some j }
  | id :: rest, j, fs => (j.rollback fs id home).andThen fs (rollbackAll home rest)

/-- `rollback_updates`; the rows come in some order. -/
def rollbackUpdates (home : Directory) (updateId : Option String) (order : List String) : Attempt :=
  if order.Perm (j.armed updateId) then rollbackAll home order j fs else .raise

/-! ## Reloads -/

def begin (txId : String) (b : Begin) : Option Journal := do
  guard (txId ∉ j.transactions.keys)
  Journal.link { j with transactions := j.transactions ++ [(txId, b.row)] } txId b.pluginId b.candidateArtifactPointer

/-- A row is read, changed and written. -/
def write (txId : String) (f : Transaction → Option Transaction) : Option Journal := do
  let t ← j.transactions.get? txId
  let t' ← f t
  some { j with transactions := j.transactions.set txId t' }

def markRuntimeOwner (txId bootId : String) : Option Journal := j.write txId (·.markRuntimeOwner bootId)

def annotate (txId : String) (d : Details) : Option Journal := j.write txId (·.annotate d)

def advance (txId : String) (phase : Phase) (a : Advance) : Attempt :=
  match j.write txId (·.advance phase a) with
  | none => .raise
  | some j =>
      match phase with
      | .committed => { commit := some (j.commit txId) }
      | .aborted => j.rollbackLinked fs txId
      | _ => { commit := some j }

/-- `get`: an attempt count that is stored is not negative. -/
def get (txId : String) : Option Transaction :=
  (j.transactions.get? txId).filter fun t => 0 ≤ t.attemptCount

/-! ## Recovery -/

/-- What `pending_recovery` says of a row, `none` when it raises. -/
def recovery (txId : String) (t : Transaction) : Option Recovery :=
  let rolledBack := j.updates.any fun e => e.2.phase = .rolledBack ∧ e.2.reloadTxId = some txId
  (recoveryAction t.phase t.recoveryAction).map fun action =>
    { txId, pluginId := t.pluginId, generationId := t.generationId, sourceRevision := t.sourceRevision,
      phase := t.phase,
      action := if rolledBack ∧ action.retry = false then .discardCandidate else action
      baseSnapshotId := t.baseSnapshotId, candidateSnapshotId := t.candidateSnapshotId,
      baseGenerationId := t.baseGenerationId, formalEffects := t.formalEffects,
      failureResource := t.failureResource, error := t.error, attemptCount := t.attemptCount,
      runtimeOwnerBootId := t.runtimeOwnerBootId, baseArtifactPointer := t.baseArtifactPointer,
      candidateArtifactPointer := t.candidateArtifactPointer,
      recoveryTarget := if rolledBack then some .base else t.recoveryTarget }

/-- `pending_recovery`. -/
def pendingRecovery : Option (List Recovery) :=
  ((j.transactions.filter fun e => e.2.phase.terminal = false).mapM fun e => j.recovery e.1 e.2).map
    (List.insertionSort fun a b => a.action.order < b.action.order ∨
      a.action.order = b.action.order ∧ a.txId ≤ b.txId)

/-- `_finish_host_retry`. -/
def finishHostRetry (a : Recovery) : Attempt :=
  let terminal : Phase :=
    if a.action = .retryGenerationCleanup ∧ a.recoveryTarget = some .base then .aborted else .recovered
  match j.write a.txId fun t =>
      if t.phase = a.phase ∧ t.recoveryAction = some a.action ∧ t.attemptCount = a.attemptCount then
        some { t with phase := terminal }
      else none with
  | none => .raise
  | some j =>
      if a.recoveryTarget = some .candidate then { commit := some (j.commit a.txId) }
      else j.rollbackLinked fs a.txId

/-- The row is as the action says, or its discard follows a reset of the pointers. -/
def current (t : Transaction) (a : Recovery) : Bool :=
  let expected := recoveryAction t.phase t.recoveryAction
  t.phase = a.phase ∧
    (expected = some a.action ∨ a.action = .discardCandidate ∧ expected = some .restoreCommitted ∧
      (t.phase = .commitStarted ∨ t.phase = .promoting)) ∧
    a.generationId = t.generationId ∧ a.sourceRevision = t.sourceRevision ∧ a.attemptCount = t.attemptCount

/-- `finish_recovery`. -/
def finishRecovery (a : Recovery) (retryReceipt : Option String) : Attempt :=
  match j.get a.txId with
  | none => .raise
  | some t =>
      if current t a = false then .raise
      else if a.action.retry then
        if retryReceipt = none ∨ retryReceipt = some "" then .raise else j.finishHostRetry fs a
      else
        j.advance fs a.txId (if a.action = .discardCandidate then .aborted else .recovered)
          { details := [("recovery_action", .str a.action.name), ("attempt_count", .int a.attemptCount)]
            error := if t.phase.failure then none else some "startup recovery"
            recoveryAction := recoveryAction t.phase t.recoveryAction }

end Journal

/-! ## The machine -/

inductive Call where
  | armUpdate (updateId pluginId : String) (pluginBase : Directory) (previous : Option ArtifactPointers)
      (candidate : Option String) (previousEnabled : Option Bool)
  | commitUpdate (updateId : String)
  | rollbackUpdates (home : Directory) (updateId : Option String) (order : List String)
  | begin (txId : String) (b : Begin)
  | markRuntimeOwner (txId bootId : String)
  | advance (txId : String) (phase : Phase) (a : Advance)
  | annotate (txId : String) (d : Details)
  | finishRecovery (a : Recovery) (retryReceipt : Option String)

structure State where
  journal : Journal := {}
  files : Files

def Call.attempt (s : State) : Call → Attempt
  | .armUpdate updateId pluginId pluginBase previous candidate previousEnabled =>
      { commit := s.journal.armUpdate s.files updateId pluginId pluginBase previous candidate previousEnabled }
  | .commitUpdate updateId => { commit := s.journal.commitUpdate updateId }
  | .rollbackUpdates home updateId order => s.journal.rollbackUpdates s.files home updateId order
  | .begin txId b => { commit := s.journal.begin txId b }
  | .markRuntimeOwner txId bootId => { commit := s.journal.markRuntimeOwner txId bootId }
  | .advance txId phase a => s.journal.advance s.files txId phase a
  | .annotate txId d => { commit := s.journal.annotate txId d }
  | .finishRecovery a retryReceipt => s.journal.finishRecovery s.files a retryReceipt

inductive Action where
  | call (c : Call)
  /-- The program dies in a call, after some of its writes. -/
  | crash (c : Call) (writes : Nat)
  /-- Others write the files. -/
  | outside (files : Files)

def State.next (s : State) : Action → State
  | .call c =>
      { journal := (c.attempt s).commit.getD s.journal, files := (c.attempt s).files s.files }
  | .crash c n => { s with files := ((c.attempt s).writes.take n).getLast?.getD s.files }
  | .outside files => { s with files }

/-- A journal starts empty. -/
def reloadMachine : Machine State Action where
  start s := s.journal = {}
  next s a := some (s.next a)

end MonoAgent.Reload
