import MonoAgent.Lib.Calendar
import MonoAgent.Lib.Exec
import MonoAgent.Lib.Json
import MonoAgent.Lib.Machine
import MonoAgent.Lib.Text
import MonoAgent.Session.Message

/-!
# The store of Drift proposals

The table `proposals` and the four calls that write it.  A producer proposes a revision,
a Turn selects it when it is due, and a transition or a settled delivery ends the
selection.  Each call is one transaction: one that raises leaves the table as it was.

A time is kept as its text in UTC and compared as text.  A payload is kept as its JSON text
with sorted keys.
-/

namespace MonoAgent.Drift

open MonoAgent.Lib MonoAgent.Session

/-! ## Rows -/

inductive Status where
  | pending | selected | deferred | readyForDelivery | failed | awaitChange | invalidated | settled
deriving DecidableEq, Repr

def Status.text : Status → String
  | .pending => "pending"
  | .selected => "selected"
  | .deferred => "deferred"
  | .readyForDelivery => "ready_for_delivery"
  | .failed => "failed"
  | .awaitChange => "await_change"
  | .invalidated => "invalidated"
  | .settled => "settled"

/-- A row of `proposals`. -/
structure Proposal where
  proposalId : String
  revision : String
  payloadJson : Doc
  status : Status := .pending
  dueAt : Text
  nextDue : Option Text
  stateVersion : Int := 1
  selectionToken : Option String := none
  /-- `selected_session_id` and `selected_turn_id`, which are set and cleared together. -/
  selectedTurn : Option (String × String) := none
  settlementRef : Option String := none
  createdAt : Text
  updatedAt : Text
deriving DecidableEq

/-- The primary key. -/
def Proposal.key (p : Proposal) : String × String := (p.proposalId, p.revision)

structure Store where
  proposals : List Proposal := []
deriving DecidableEq

/-! ## Arguments -/

/-- A `datetime` argument, by the time in UTC it stands for if it has a zone. -/
inductive Time where
  | aware (utc : DateTime)
  | naive
deriving DecidableEq

/-- `_aware_utc`. -/
def awareUtc : Time → Except Error Text
  | .aware utc => .ok utc.isoformat
  | .naive => .error ⟨.valueError, "Drift 时间必须带时区"⟩

/-- `_identity`.  What is not a string is `none`. -/
def identity (field : String) (value : Option String) : Except Error String :=
  match value with
  | some s =>
      if s = "" ∨ strip s ≠ s then
        .error ⟨.valueError, field ++ " 必须是非空且无首尾空白的字符串"⟩
      else .ok s
  | none => .error ⟨.valueError, field ++ " 必须是非空且无首尾空白的字符串"⟩

/-- The arguments of `propose`. -/
structure Proposed where
  proposalId : String
  revision : String
  payload : PyValue
  dueAt : Time
  nextDue : Option Time := none

/-- What `propose` writes and compares. -/
structure Content where
  proposalId : String
  revision : String
  payloadJson : Doc
  dueAt : Text
  nextDue : Option Text
deriving DecidableEq

def Content.key (c : Content) : String × String := (c.proposalId, c.revision)

/-- `json.dumps(payload, sort_keys=True, separators=(",", ":"))`. -/
def payloadText (payload : PyValue) : Except Error Doc :=
  match dump payload with
  | some d => .ok d
  | none => .error ⟨.typeError, "Object is not JSON serializable"⟩

/-- `_aware_utc` of a time that may be missing. -/
def retryUtc : Option Time → Except Error (Option Text)
  | some t => (awareUtc t).map some
  | none => .ok none

/-- The checks of `propose` before its transaction. -/
def Proposed.content (args : Proposed) : Except Error Content := do
  let proposalId ← identity "proposal_id" (some args.proposalId)
  let revision ← identity "revision" (some args.revision)
  let payloadJson ← payloadText args.payload
  let dueAt ← awareUtc args.dueAt
  let nextDue ← retryUtc args.nextDue
  return ⟨proposalId, revision, payloadJson, dueAt, nextDue⟩

/-! ## Calls -/

/-- The reference `propose` returns, always of the first version. -/
structure Ref where
  proposalId : String
  revision : String
  stateVersion : Int
deriving DecidableEq

structure ProposeResult where
  inserted : Bool
  ref : Ref
deriving DecidableEq

namespace Store

/-- The row of a key. -/
def find (s : Store) (key : String × String) : Option Proposal :=
  s.proposals.find? (·.key = key)

/-- Update the rows that meet a condition. -/
def update (s : Store) (p : Proposal → Bool) (f : Proposal → Proposal) : Store :=
  ⟨s.proposals.map fun row => if p row then f row else row⟩

/-- The transaction of `propose`, at the time `now`. -/
def proposeContent (s : Store) (c : Content) (now : Text) : Except Error (ProposeResult × Store) :=
  match s.find c.key with
  | some existing =>
      if (existing.payloadJson, existing.dueAt, existing.nextDue) ≠ (c.payloadJson, c.dueAt, c.nextDue)
      then .error ⟨.runtimeError,
        "Drift proposal identity conflict: " ++ c.proposalId ++ "/" ++ c.revision⟩
      else .ok (⟨false, ⟨c.proposalId, c.revision, 1⟩⟩, s)
  | none =>
      .ok (⟨true, ⟨c.proposalId, c.revision, 1⟩⟩,
        ⟨s.proposals ++ [{ c with createdAt := now, updatedAt := now }]⟩)

def propose (s : Store) (args : Proposed) (now : Text) : Except Error (ProposeResult × Store) := do
  s.proposeContent (← args.content) now

/-- The arguments of `select`, as they are read out of the two mappings, and the token
that is drawn. -/
structure Selecting where
  proposalId : Option String
  revision : Option String
  /-- An integer. -/
  stateVersion : Option Int
  sessionId : Option String
  turnId : Option String
  now : Time
  token : String

structure SelectResult where
  selected : Bool
  reason : Option String := none
  selectionToken : Option String
  acceptedTurn : Option (String × String)
deriving DecidableEq

/-- The rows a selection finds: those of the key and version that are open and due. -/
def selects (proposalId revision : String) (stateVersion : Int) (instant : Text) (row : Proposal) :
    Bool :=
  row.key = (proposalId, revision) ∧ row.stateVersion = stateVersion ∧
    (row.status = .pending ∨ row.status = .deferred) ∧ row.dueAt ≤ instant

/-- The check of a version. -/
def positive : Option Int → Except Error Int
  | some n => if n ≤ 0 then .error ⟨.valueError, "Drift state_version 必须是正整数"⟩ else .ok n
  | none => .error ⟨.valueError, "Drift state_version 必须是正整数"⟩

def select (s : Store) (args : Selecting) (stamp : Text) : Except Error (SelectResult × Store) := do
  let proposalId ← identity "proposal_id" args.proposalId
  let revision ← identity "revision" args.revision
  let stateVersion ← positive args.stateVersion
  let sessionId ← identity "accepted_turn.session_id" args.sessionId
  let turnId ← identity "accepted_turn.turn_id" args.turnId
  if s.proposals.any (·.selectedTurn = some (sessionId, turnId)) then
    return (⟨false, some "turn_already_selected", none, none⟩, s)
  else
    let instant ← awareUtc args.now
    let found := selects proposalId revision stateVersion instant
    if s.proposals.any found then
      -- The selection tokens are unique.
      ensure (¬ s.proposals.any (·.selectionToken = some args.token))
        ⟨.integrityError, "UNIQUE constraint failed: proposals.selection_token"⟩
      return (⟨true, none, some args.token, some (sessionId, turnId)⟩, s.update found fun row =>
        { row with
          status := .selected
          selectionToken := some args.token
          selectedTurn := some (sessionId, turnId)
          stateVersion := row.stateVersion + 1
          updatedAt := stamp })
    else return (⟨false, none, none, none⟩, s)

end Store

/-- The actions of `transition`. -/
inductive Step where
  | readyForDelivery | failed | defer | awaitChange | invalidated
deriving DecidableEq, Repr

def Step.status : Step → Status
  | .readyForDelivery => .readyForDelivery
  | .failed => .failed
  | .defer => .deferred
  | .awaitChange => .awaitChange
  | .invalidated => .invalidated

/-- The text of an action is that of its status, but for one. -/
def Step.text : Step → String
  | .defer => "defer"
  | step => step.status.text

def Step.parse (action : String) : Option Step :=
  [Step.readyForDelivery, .failed, .defer, .awaitChange, .invalidated].find? (·.text = action)

structure TransitionResult where
  changed : Bool
  reason : Option String := none
  status : Option Status := none
  nextDue : Option Text := none
deriving DecidableEq

structure SettleResult where
  settled : Bool
  reason : Option String := none
  duplicate : Bool := false
deriving DecidableEq

namespace Store

/-- What `transition` writes to the selected row. -/
def stepRow (step : Step) (dueAt : Option Text) (stamp : Text) (row : Proposal) : Proposal :=
  match step with
  | .failed => { row with status := .failed, stateVersion := row.stateVersion + 1, updatedAt := stamp }
  | .readyForDelivery =>
      { row with status := .readyForDelivery, stateVersion := row.stateVersion + 1, updatedAt := stamp }
  | step =>
      { row with
        status := step.status
        dueAt := dueAt.getD row.dueAt
        selectionToken := none
        selectedTurn := none
        stateVersion := row.stateVersion + 1
        updatedAt := stamp }

/-- `transition`. -/
def transition (s : Store) (token action : String) (stamp : Text) :
    Except Error (TransitionResult × Store) := do
  let selection ← identity "selection_token" (some token)
  match Step.parse action with
  | none => .error ⟨.valueError, "未知 Drift transition: " ++ action⟩
  | some step =>
      match s.proposals.find? (·.selectionToken = some selection) with
      | none => return (⟨false, some "selection_missing", none, none⟩, s)
      | some row =>
          if row.status ≠ .selected ∧ ¬ (step = .failed ∧ row.status = .readyForDelivery) then
            return (⟨false, some ("status:" ++ row.status.text), none, none⟩, s)
          else
            ensure (¬ (step = .defer ∧ row.nextDue = none))
              ⟨.runtimeError, "Drift defer 缺少 proposal owner 提供的 next_due"⟩
            let dueAt := if step = .defer then row.nextDue else none
            let written := fun r : Proposal => decide (r.selectionToken = some selection ∧
              (step = .failed ∨ r.status = .selected))
            return (⟨true, none, some step.status, dueAt⟩, s.update written (stepRow step dueAt stamp))

/-- `settle_delivery`.  The receipt is a digest of the two arguments. -/
def settleDelivery (s : Store) (selectionToken settlementRef : String) (stamp : Text) :
    Except Error (SettleResult × Store) := do
  let token ← identity "selection_token" (some selectionToken)
  let settlement ← identity "settlement_ref" (some settlementRef)
  match s.proposals.find? (·.selectionToken = some token) with
  | none => return (⟨false, some "selection_missing", false⟩, s)
  | some row =>
      if row.status = .settled then
        ensure (row.settlementRef = some settlement)
          ⟨.runtimeError, "Drift delivery settlement identity conflict"⟩
        return (⟨true, none, true⟩, s)
      else if row.status ≠ .readyForDelivery then
        return (⟨false, some ("status:" ++ row.status.text), false⟩, s)
      else
        ensure (¬ s.proposals.any (·.settlementRef = some settlement))
          ⟨.integrityError, "UNIQUE constraint failed: proposals.settlement_ref"⟩
        let written := fun r : Proposal => decide (r.selectionToken = some token ∧
          r.status = .readyForDelivery)
        return (⟨true, none, false⟩, s.update written fun r =>
          { r with
            status := .settled
            settlementRef := some settlement
            stateVersion := r.stateVersion + 1
            updatedAt := stamp })

end Store

/-! ## The machine -/

/-- A call and the clock of its transaction. -/
inductive Action where
  | propose (args : Proposed) (now : Text)
  | select (args : Store.Selecting) (stamp : Text)
  | transition (token action : String) (stamp : Text)
  | settleDelivery (selectionToken settlementRef : String) (stamp : Text)

/-- The table a call commits. -/
def Action.run (s : Store) : Action → Except Error Store
  | .propose args now => (s.propose args now).map (·.2)
  | .select args stamp => (s.select args stamp).map (·.2)
  | .transition token action stamp => (s.transition token action stamp).map (·.2)
  | .settleDelivery selectionToken settlementRef stamp =>
      (s.settleDelivery selectionToken settlementRef stamp).map (·.2)

/-- A table that is empty at first.  A call that raises leaves it as it was. -/
def machine : Machine Store Action where
  start s := s = {}
  next s a := some ((a.run s).toOption.getD s)

end MonoAgent.Drift
