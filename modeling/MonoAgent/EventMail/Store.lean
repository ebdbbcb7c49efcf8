import Mathlib
import MonoAgent.EventMail.Identity

/-!
# The tables of the mail store

Envelopes and transitions are appended and never change; the other tables are
written in place and follow from them.  Rows stand in the order they were inserted
in, which is the order of `seq`.  A write of a table with a unique column is refused
when it would repeat a value.

A digest is modelled by what it digests: a transition is identified by its mail,
action and detail.
-/

namespace MonoAgent.EventMail

open MonoAgent.Lib MonoAgent.Session

/-- An instant as `_aware_utc` writes it. -/
abbrev Instant := String

structure AcceptedTurn where
  sessionId : String
  turnId : String
deriving DecidableEq, Repr

/-! ## Rows -/

structure Envelope where
  mailId : String
  kind : MailKind
  sourceId : String
  itemId : String
  revision : String
  payloadJson : String
  observedAt : Instant
  notBefore : Option Instant := none
  expiresAt : Option Instant := none
deriving DecidableEq, Repr

def Envelope.key (e : Envelope) : MailKey := ⟨e.kind, e.sourceId, e.itemId, e.revision⟩

/-- The statuses of an item and of a selection. -/
inductive ContentStatus where
  | pending | deferred | selected | readyForDelivery | released | awaitChange | invalidated
  | abandoned | failed | expired | delivered | settled
deriving DecidableEq, Repr

/-- The statuses of an item that waits. -/
def waiting (status : ContentStatus) : Bool := status = .pending || status = .deferred

/-- The statuses that a delivery can settle. -/
def live (status : ContentStatus) : Bool :=
  waiting status || status = .selected || status = .readyForDelivery

structure Item where
  key : ContentKey
  payloadJson : String
  snapshotSeq : Nat
  status : ContentStatus := .pending
  notBefore : Instant
  requiresAck : Bool
  stateVersion : Nat := 1
  selectionToken : Option String := none
  selectedTurn : Option AcceptedTurn := none
  settlementRef : Option String := none
  createdAt : Instant
  updatedAt : Instant
deriving DecidableEq, Repr

structure Selection where
  token : String
  acceptedTurn : AcceptedTurn
  snapshotSeq : Nat
  status : ContentStatus := .selected
  driver : ContentKey
  decisionFormat : String := "items_v1"
  settlementRef : Option String := none
  createdAt : Instant
  updatedAt : Instant
deriving DecidableEq, Repr

structure Member where
  token : String
  position : Nat
  key : ContentKey
  selectedForDelivery : Bool := false
  settlementRef : Option String := none
deriving DecidableEq, Repr

structure ContentState where
  nextSeq : Nat := 0
  stateVersion : Nat := 0
  wakeNeeded : Bool := false
  earliestNotBefore : Option Instant := none
deriving DecidableEq, Repr

inductive MailAction where
  | received | superseded | selected | deferred | delivered | skipped | expired
  | projected | readyForDelivery | release | defer | awaitChange | invalidated | abandoned | failed
  | settled | acknowledged
deriving DecidableEq, Repr

/-- What the detail of a transition holds. -/
inductive Detail where
  | empty
  | supersededBy (mailId : String)
  | claimed (acceptedTurn : AcceptedTurn)
  | notBefore (at_ : Instant)
  | selected (selectionToken : String) (acceptedTurn : AcceptedTurn)
  | moved (selectionToken : String) (notBefore : Option Instant)
  | settled (settlementRef : String)
  | decayed (expiredAt : Instant)
  | projected (item : Item) (contentState : ContentState) (selections : List (Selection × List Member))
deriving DecidableEq, Repr

structure Transition where
  mailId : String
  kind : MailKind
  action : MailAction
  detail : Detail
deriving DecidableEq, Repr

/-- `transition_id`. -/
def Transition.id (t : Transition) : String × MailAction × Detail := (t.mailId, t.action, t.detail)

inductive AlertStatus where
  | pending | selected | delivered | skipped | expired
deriving DecidableEq, Repr

/-- A row of `alert_projection`. -/
structure Alert where
  sourceId : String
  eventId : String
  mailId : String
  status : AlertStatus := .pending
  notBefore : Instant
  expiresAt : Option Instant := none
  accepted : Option AcceptedTurn := none
deriving DecidableEq, Repr

/-- A row of `context_projection`. -/
structure Context where
  sourceId : String
  eventId : String
  mailId : String
  expiresAt : Option Instant := none
deriving DecidableEq, Repr

structure SubmissionReceipt where
  receiptId : String
  sourceId : String
  batchId : String
  inserted : List ContentKey
  duplicates : List ContentKey
  highWatermark : Nat
  stateVersion : Nat
  wakeNeeded : Bool
deriving DecidableEq, Repr

/-- `_NormalizedItem`. -/
structure NormalizedItem where
  itemId : String
  revision : String
  payloadJson : String
  notBefore : Instant
  requiresAck : Bool := true
deriving DecidableEq, Repr

structure Submission where
  sourceId : String
  batchId : String
  fingerprint : List NormalizedItem
  receipt : SubmissionReceipt
deriving DecidableEq, Repr

/-- The database. -/
structure Mail where
  envelopes : List Envelope := []
  transitions : List Transition := []
  alerts : List Alert := []
  contexts : List Context := []
  state : ContentState := {}
  items : List Item := []
  submissions : List Submission := []
  selections : List Selection := []
  members : List Member := []
deriving DecidableEq

/-! ## Unique columns -/

/-- The unique columns of `items`. -/
def ItemsUnique (items : List Item) : Prop :=
  (items.map (·.key)).Nodup ∧ (items.map (·.snapshotSeq)).Nodup ∧
    (items.filterMap (·.selectionToken)).Nodup ∧ (items.filterMap (·.selectedTurn)).Nodup ∧
    (items.filterMap (·.settlementRef)).Nodup

instance (items : List Item) : Decidable (ItemsUnique items) :=
  inferInstanceAs (Decidable (_ ∧ _ ∧ _ ∧ _ ∧ _))

/-- The unique columns of `content_selections`. -/
def SelectionsUnique (selections : List Selection) : Prop :=
  (selections.map (·.token)).Nodup ∧ (selections.map (·.acceptedTurn)).Nodup ∧
    (selections.filterMap (·.settlementRef)).Nodup

instance (selections : List Selection) : Decidable (SelectionsUnique selections) :=
  inferInstanceAs (Decidable (_ ∧ _ ∧ _))

/-- The unique columns of `content_selection_members`. -/
def MembersUnique (members : List Member) : Prop :=
  (members.map fun m => (m.token, m.key)).Nodup ∧ (members.filterMap (·.settlementRef)).Nodup

instance (members : List Member) : Decidable (MembersUnique members) :=
  inferInstanceAs (Decidable (_ ∧ _))

/-- The unique columns of `alert_projection`. -/
def AlertsUnique (alerts : List Alert) : Prop :=
  (alerts.map fun a => (a.sourceId, a.eventId)).Nodup ∧ (alerts.map (·.mailId)).Nodup

instance (alerts : List Alert) : Decidable (AlertsUnique alerts) :=
  inferInstanceAs (Decidable (_ ∧ _))

/-- The unique columns of `context_projection`. -/
def ContextsUnique (contexts : List Context) : Prop :=
  (contexts.map fun c => (c.sourceId, c.eventId)).Nodup ∧ (contexts.map (·.mailId)).Nodup

instance (contexts : List Context) : Decidable (ContextsUnique contexts) :=
  inferInstanceAs (Decidable (_ ∧ _))

/-- `sqlite3.IntegrityError` of a table. -/
def uniqueError (table : String) : Error := ⟨.integrityError, "UNIQUE constraint failed: " ++ table⟩

namespace Mail

variable (m : Mail)

def setItems (items : List Item) : Except Error Mail := do
  ensure (ItemsUnique items) (uniqueError "items")
  return { m with items }

def setSelections (selections : List Selection) : Except Error Mail := do
  ensure (SelectionsUnique selections) (uniqueError "content_selections")
  return { m with selections }

def setMembers (members : List Member) : Except Error Mail := do
  ensure (MembersUnique members) (uniqueError "content_selection_members")
  return { m with members }

def setAlerts (alerts : List Alert) : Except Error Mail := do
  ensure (AlertsUnique alerts) (uniqueError "alert_projection")
  return { m with alerts }

def setContexts (contexts : List Context) : Except Error Mail := do
  ensure (ContextsUnique contexts) (uniqueError "context_projection")
  return { m with contexts }

/-! ## The ledger -/

def envelope? (mailId : String) : Option Envelope := m.envelopes.find? (·.mailId = mailId)

def item? (key : ContentKey) : Option Item := m.items.find? (·.key = key)

/-- `_append_envelope`: a new envelope, or the one that is there when it is the same. -/
def appendEnvelope (key : MailKey) (payloadJson : String) (observedAt : Instant)
    (notBefore expiresAt : Option Instant) : Except Error (Bool × Mail) :=
  match m.envelope? key.id with
  | some row => do
      ensure ((row.payloadJson, row.observedAt, row.notBefore, row.expiresAt) =
          (payloadJson, observedAt, notBefore, expiresAt))
        ⟨.identityConflict, "EventMail envelope identity conflict: " ++ key.id⟩
      return (false, m)
  | none => return (true, { m with envelopes := m.envelopes ++
      [⟨key.id, key.kind, key.sourceId, key.itemId, key.revision, payloadJson, observedAt, notBefore,
        expiresAt⟩] })

/-- `_append_transition`: ignored when the same is there. -/
def appendTransition (mailId : String) (kind : MailKind) (action : MailAction) (detail : Detail) :
    Except Error Mail := do
  let row : Transition := ⟨mailId, kind, action, detail⟩
  if row.id ∈ m.transitions.map Transition.id then return m
  else
    ensure (mailId ∈ m.envelopes.map (·.mailId))
      ⟨.integrityError, "FOREIGN KEY constraint failed"⟩
    return { m with transitions := m.transitions ++ [row] }

/-- `MIN(not_before)`. -/
def earliest : List Instant → Option Instant
  | [] => none
  | t :: rest => match earliest rest with
      | none => some t
      | some u => some (if u < t then u else t)

/-- `_recompute_wake`. -/
def recomputeWake : Mail :=
  let next := earliest ((m.items.filter fun i => waiting i.status).map (·.notBefore))
  { m with state := { m.state with wakeNeeded := next.isSome, earliestNotBefore := next } }

/-- `state_version = state_version + 1`. -/
def bump : Mail := { m with state := { m.state with stateVersion := m.state.stateVersion + 1 } }

/-- The selections an item is a member of, oldest first, each with its members. -/
def selectionsOf (key : ContentKey) : List (Selection × List Member) :=
  let rows := m.selections.filter fun s => (s.token, key) ∈ m.members.map fun r => (r.token, r.key)
  let sorted := rows.insertionSort fun s t => s.createdAt < t.createdAt ∨
    (s.createdAt = t.createdAt ∧ s.token ≤ t.token)
  sorted.map fun s => (s, (m.members.filter (·.token = s.token)).insertionSort (·.position ≤ ·.position))

/-- One round of `_append_content_projections`, with the state as it was at its start. -/
def appendContentProjection (state : ContentState) (mailId : String) : Except Error Mail :=
  match m.envelopes.find? fun e => e.mailId = mailId ∧ e.kind = .content with
  | none => throw ⟨.runtimeError, "Content projection 缺少 envelope: " ++ mailId⟩
  | some envelope =>
      match m.item? ⟨envelope.sourceId, envelope.itemId, envelope.revision⟩ with
      | none => throw ⟨.runtimeError, "Content projection 缺少 item: " ++ mailId⟩
      | some item =>
          m.appendTransition mailId .content .projected (.projected item state (m.selectionsOf item.key))

/-- `_append_content_projections`. -/
def appendContentProjections (mailIds : List String) : Except Error Mail :=
  mailIds.eraseDups.foldlM (fun n mailId => n.appendContentProjection m.state mailId) m

end Mail

end MonoAgent.EventMail
