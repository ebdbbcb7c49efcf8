import MonoAgent.Lib.Dict
import MonoAgent.Lib.Text

/-!
# One reload transaction

A transaction moves along `Phase.transitions`.  `advance` and `annotate` read the same
details under other rules: `advance` takes what is given before the details and checks a
failure phase, `annotate` writes over what is there.
-/

namespace MonoAgent.Reload

open MonoAgent.Lib

inductive Phase where
  | preparing
  | prepared
  | validating
  | commitStarted
  | latestReady
  | discarding
  | promoting
  | committed
  | draining
  | cleanupFailed
  | degraded
  | complete
  | aborted
  | recovered
deriving DecidableEq

inductive RecoveryAction where
  | discardCandidate
  | restoreCandidate
  | restoreCommitted
  | retryGenerationCleanup
  | retryRuntimeRecovery
deriving DecidableEq

inductive RecoveryTarget where
  | base
  | candidate
deriving DecidableEq

namespace Phase

/-- `_TERMINAL_PHASES`. -/
def terminal : Phase → Bool
  | .complete | .aborted | .recovered => true
  | _ => false

/-- `_FAILURE_PHASES`. -/
def failure : Phase → Bool
  | .cleanupFailed | .degraded => true
  | _ => false

/-- `_TRANSITIONS`. -/
def transitions : Phase → List Phase
  | .preparing => [.prepared, .aborted, .cleanupFailed, .degraded]
  | .prepared => [.validating, .aborted, .cleanupFailed, .degraded]
  | .validating => [.commitStarted, .aborted, .cleanupFailed, .degraded]
  | .commitStarted => [.latestReady, .committed, .aborted, .recovered, .cleanupFailed, .degraded]
  | .latestReady => [.discarding, .promoting, .aborted, .recovered, .cleanupFailed, .degraded]
  | .discarding => [.aborted, .cleanupFailed, .degraded]
  | .promoting => [.discarding, .committed, .aborted, .recovered, .cleanupFailed, .degraded]
  | .committed => [.draining, .complete, .recovered, .cleanupFailed, .degraded]
  | .draining => [.complete, .recovered, .cleanupFailed, .degraded]
  | .cleanupFailed => [.cleanupFailed, .degraded]
  | .degraded => [.degraded]
  | .complete | .aborted | .recovered => []

/-- What `_recovery_action` reads off a phase. -/
def action : Phase → Option RecoveryAction
  | .latestReady | .discarding | .preparing | .prepared | .validating => some .discardCandidate
  | .commitStarted | .promoting | .committed | .draining => some .restoreCommitted
  | .cleanupFailed => some .retryGenerationCleanup
  | .degraded => some .retryRuntimeRecovery
  | .complete | .aborted | .recovered => none

end Phase

namespace RecoveryAction

def name : RecoveryAction → String
  | .discardCandidate => "discard_candidate"
  | .restoreCandidate => "restore_candidate"
  | .restoreCommitted => "restore_committed"
  | .retryGenerationCleanup => "retry_generation_cleanup"
  | .retryRuntimeRecovery => "retry_runtime_recovery"

/-- `_RECOVERY_ACTION_ORDER`. -/
def order : RecoveryAction → Nat
  | .restoreCommitted => 0
  | .retryRuntimeRecovery => 1
  | .retryGenerationCleanup => 2
  | .discardCandidate => 3
  | .restoreCandidate => 4

/-- An action the host finishes with a receipt. -/
def retry : RecoveryAction → Bool
  | .retryGenerationCleanup | .retryRuntimeRecovery => true
  | _ => false

def all : List RecoveryAction :=
  [.discardCandidate, .restoreCandidate, .restoreCommitted, .retryGenerationCleanup, .retryRuntimeRecovery]

end RecoveryAction

/-- `_recovery_action`. -/
def recoveryAction (phase : Phase) (persisted : Option RecoveryAction) : Option RecoveryAction :=
  persisted.or phase.action

/-! ## Details -/

/-- A value of the details. -/
inductive Value where
  | null
  | str (s : String)
  | int (n : Int)
  | bool (b : Bool)
  /-- A list or a tuple, with the elements that are strings. -/
  | list (items : List (Option String))
  | other
deriving DecidableEq

abbrev Details := Dict String Value

/-- `_optional_string`. -/
def optionalString : Value → Option (Option String)
  | .null => some none
  | .str s => some (some s)
  | _ => none

/-- `_detail_string`: the first name that is there decides. -/
def detailString (d : Details) : List String → Option (Option String)
  | [] => some none
  | name :: names =>
      match d.get? name with
      | some v => optionalString v
      | none => detailString d names

/-- `_validate_effects`. -/
def validateEffects : Value → Option (List String)
  | .str s => some [s]
  | .list items => items.mapM id
  | _ => none

/-- `_optional_action`. -/
def optionalAction : Option Value → Option (Option RecoveryAction)
  | none | some .null => some none
  | some (.str s) => (RecoveryAction.all.find? fun a => a.name = s).map some
  | some _ => none

/-- `_validate_attempt_count`. -/
def validateAttemptCount (minimum : Int) : Value → Option Int
  | .int n => if n < minimum ∨ n < 0 then none else some n
  | _ => none

/-- `_merge_effects`: what is new is appended. -/
def mergeEffects (current additions : List String) : List String :=
  additions.foldl (fun merged x => if x ∈ merged then merged else merged ++ [x]) current

/-- The resources a string names. -/
def resources (s : String) : List String := fields ',' s

/-- `_merge_resources`. -/
def mergeResources (current additions : String) : String :=
  ",".intercalate (mergeEffects [] (resources current ++ resources additions))

/-! ## Rows -/

/-- A row of `reload_transactions`. -/
structure Transaction where
  pluginId : String
  baseSnapshotId : Option String
  candidateSnapshotId : Option String := none
  baseGenerationId : Option String
  generationId : String
  sourceRevision : String
  phase : Phase := .preparing
  error : String := ""
  formalEffects : List String := []
  failureResource : Option String := none
  recoveryAction : Option RecoveryAction := none
  attemptCount : Int := 0
  runtimeOwnerBootId : Option String := none
  baseArtifactPointer : Option String
  candidateArtifactPointer : Option String
  recoveryTarget : Option RecoveryTarget := none
deriving DecidableEq

/-- The arguments of `advance`. -/
structure Advance where
  candidateSnapshotId : Option String := none
  details : Details := []
  error : Option String := none
  resource : Option String := none
  formalEffects : Option (List String) := none
  recoveryAction : Option RecoveryAction := none
  attemptCount : Option Int := none
  recoveryTarget : Option RecoveryTarget := none
deriving DecidableEq

/-- The argument, or else what the details name. -/
def orDetail (given : Option String) (d : Details) (names : List String) : Option (Option String) :=
  match given with
  | some s => some (some s)
  | none => detailString d names

/-- The action that is given, as an argument or in the details. -/
def Advance.givenAction (a : Advance) : Option (Option RecoveryAction) :=
  match a.recoveryAction with
  | some action => some (some action)
  | none => optionalAction (a.details.get? "recovery_action")

namespace Transaction

variable (t : Transaction) (phase : Phase) (a : Advance)

/-- The failed resources. -/
def failed : List String := resources (t.failureResource.getD "")

def nextResource : Option (Option String) :=
  (orDetail a.resource a.details ["resource", "failure_resource"]).map fun
    | none => t.failureResource
    | some r =>
        match t.failureResource with
        | some current => if t.phase.failure then some (mergeResources current r) else some r
        | none => some r

/-- The effects with those the details name. -/
def detailEffects (d : Details) : Option (List String) :=
  match d.get? "formal_effects" with
  | some v => (validateEffects v).map (mergeEffects t.formalEffects)
  | none => some t.formalEffects

def nextEffects : Option (List String) :=
  match a.formalEffects with
  | some effects => some (mergeEffects t.formalEffects effects)
  | none => t.detailEffects a.details

/-- An action is given or follows from the phase, and a phase with an action takes no other. -/
def nextAction : Option (Option RecoveryAction) := do
  let given ← a.givenAction
  let inherited := if phase.failure then phase.action else if t.phase.failure then t.recoveryAction else none
  let next := (given.or inherited).or phase.action
  guard (phase.action = none ∨ next = phase.action)
  some next

def nextAttemptCount : Option Int :=
  let given := a.attemptCount.or <| match a.details.get? "attempt" with
    | some (.int n) => some n
    | _ => none
  match given with
  | some n => if n < t.attemptCount then none else some n
  | none => some (if phase.failure then t.attemptCount + 1 else t.attemptCount)

def nextError : Option String :=
  (orDetail a.error a.details ["error"]).map (·.getD t.error)

/-- A failure phase has a target, a resource and an error. -/
def nextRecoveryTarget (resource : Option String) (error : String) : Option (Option RecoveryTarget) :=
  if phase.failure then do
    guard (t.recoveryTarget = none ∨ a.recoveryTarget = none ∨ a.recoveryTarget = t.recoveryTarget)
    let target ← a.recoveryTarget.or t.recoveryTarget
    guard (resource ≠ none ∧ resource ≠ some "" ∧ error ≠ "")
    some (some target)
  else some t.recoveryTarget

/-- The row after `advance`, `none` when it is refused. -/
def advance : Option Transaction := do
  guard (phase ∈ t.phase.transitions)
  let candidate ← orDetail a.candidateSnapshotId a.details ["new_snapshot_id", "candidate_snapshot_id"]
  let baseGeneration ← detailString a.details ["old_generation_id", "base_generation_id", "old_generation"]
  let resource ← t.nextResource a
  let effects ← t.nextEffects a
  let action ← t.nextAction phase a
  let attempts ← t.nextAttemptCount phase a
  let error ← t.nextError a
  let target ← t.nextRecoveryTarget phase a resource error
  some { t with
    phase
    candidateSnapshotId := candidate.or t.candidateSnapshotId
    baseGenerationId := baseGeneration.or t.baseGenerationId
    error
    formalEffects := effects
    failureResource := resource
    recoveryAction := action
    attemptCount := attempts
    recoveryTarget := target.or t.recoveryTarget }

/-- The attempt count the details name. -/
def detailAttemptCount (d : Details) : Option Int :=
  match d.get? "attempt_count" with
  | some v => validateAttemptCount t.attemptCount v
  | none => some t.attemptCount

/-- The row after `annotate`, `none` when it is refused. -/
def annotate (d : Details) : Option Transaction := do
  let candidate ← detailString d ["new_snapshot_id", "candidate_snapshot_id"]
  let baseGeneration ← detailString d ["old_generation_id", "base_generation_id", "old_generation"]
  let resource ← detailString d ["resource", "failure_resource"]
  let effects ← t.detailEffects d
  let given ← optionalAction (d.get? "recovery_action")
  guard (t.phase.action = none ∨ given = none ∨ given = t.phase.action)
  let action := given.or (t.phase.action.or t.recoveryAction)
  let attempts ← t.detailAttemptCount d
  let error ← detailString d ["error"]
  some { t with
    candidateSnapshotId := candidate.or t.candidateSnapshotId
    baseGenerationId := baseGeneration.or t.baseGenerationId
    error := error.getD t.error
    formalEffects := effects
    failureResource := resource.or t.failureResource
    recoveryAction := action.or t.recoveryAction
    attemptCount := attempts }

/-- The row after `mark_runtime_owner`: an owner is not replaced. -/
def markRuntimeOwner (bootId : String) : Option Transaction :=
  if strip bootId = "" ∨ (t.runtimeOwnerBootId ≠ none ∧ t.runtimeOwnerBootId ≠ some bootId) then none
  else some { t with runtimeOwnerBootId := t.runtimeOwnerBootId.or (some bootId) }

end Transaction

example : mergeResources "a, b" "b,c" = "a,b,c" := by decide

end MonoAgent.Reload
