import MonoAgent.EventMail.Content

/-!
# Alerts and context

A source reports an event at an instant.  The newest report of an event is the one
that counts: it supersedes the one before it.  An alert is claimed by a turn, then
delivered, skipped, expired or put off.
-/

namespace MonoAgent.EventMail

open MonoAgent.Lib MonoAgent.Session

/-- What a report returns. -/
structure Reported where
  accepted : Bool
  projected : Option Bool := none
  sourceId : String
  eventId : String
  mailId : String
deriving DecidableEq, Repr

/-- A reference to the envelope of an event that was claimed. -/
structure AlertRef where
  sourceId : String
  eventId : String
  mailId : String
deriving DecidableEq, Repr

def AlertRef.check (r : AlertRef) : Except Error Unit := do
  identity "source_id" r.sourceId
  identity "event_id" r.eventId
  identity "mail_id" r.mailId

/-- `_alert_view`. -/
structure AlertView where
  sourceId : String
  eventId : String
  mailId : String
  payloadJson : String
  observedAt : Instant
  notBefore : Instant
  expiresAt : Option Instant
  acceptedTurn : AcceptedTurn
deriving DecidableEq, Repr

/-- What a turn does with the alert it has claimed. -/
inductive AlertAction where
  | defer | expire | deliver | skip
deriving DecidableEq, Repr

def AlertAction.status : AlertAction → AlertStatus
  | .defer => .pending
  | .expire => .expired
  | .deliver => .delivered
  | .skip => .skipped

/-- The action of the transition to a status. -/
def AlertStatus.mail : AlertStatus → MailAction
  | .pending => .deferred
  | .selected => .selected
  | .delivered => .delivered
  | .skipped => .skipped
  | .expired => .expired

namespace Mail

variable (m : Mail)

/-! ## Reports -/

/-- The mail an event has now, with the instant it was observed at. -/
def current (mailId : Option String) : Option Envelope := mailId.bind m.envelope?

/-- A mail that is new is logged as received. -/
def receive (inserted : Bool) (key : MailKey) : Except Error Mail :=
  if inserted then m.appendTransition key.id key.kind .received .empty else .ok m

/-- A report of either kind: `now` is the mail that the event has in its projection,
and `publish` puts the new one in its place. -/
def report (kind : MailKind) (label : String) (source event payload : String) (observed : Instant)
    (notBefore expiry : Option Instant) (projected : Mail → Option String)
    (publish : Mail → String → Except Error Mail) : Except Error (Reported × Mail) := do
  identity "source_id" source
  identity "event_id" event
  ensure (∀ e ∈ expiry, observed < e) ⟨.valueError, label ++ " expires_at 必须晚于 observed_at"⟩
  let key : MailKey := ⟨kind, source, event, observed⟩
  let (inserted, n) ← m.appendEnvelope key payload observed notBefore expiry
  match n.current (projected n) with
  | some row =>
      if row.mailId = key.id then return (⟨false, none, source, event, key.id⟩, n)
      else if observed < row.observedAt then
        if inserted then do
          let n ← n.appendTransition key.id kind .received .empty
          let n ← n.appendTransition key.id kind .superseded (.supersededBy row.mailId)
          return (⟨true, some false, source, event, key.id⟩, n)
        else return (⟨false, some false, source, event, key.id⟩, n)
      else do
        let n ← n.appendTransition row.mailId kind .superseded (.supersededBy key.id)
        let n ← publish n key.id
        let n ← n.receive inserted key
        return (⟨inserted, none, source, event, key.id⟩, n)
  | none => do
      let n ← publish n key.id
      let n ← n.receive inserted key
      return (⟨inserted, none, source, event, key.id⟩, n)

def alert? (source event : String) : Option Alert :=
  m.alerts.find? fun a => a.sourceId = source ∧ a.eventId = event

def context? (source event : String) : Option Context :=
  m.contexts.find? fun c => c.sourceId = source ∧ c.eventId = event

/-- The row of an event is replaced, or is new. -/
def publishAlert (row : Alert) : Except Error Mail :=
  m.setAlerts (if (m.alert? row.sourceId row.eventId).isSome then
      m.alerts.map fun a => if a.sourceId = row.sourceId ∧ a.eventId = row.eventId then row else a
    else m.alerts ++ [row])

def publishContext (row : Context) : Except Error Mail :=
  m.setContexts (if (m.context? row.sourceId row.eventId).isSome then
      m.contexts.map fun c => if c.sourceId = row.sourceId ∧ c.eventId = row.eventId then row else c
    else m.contexts ++ [row])

def reportAlert (source event payload : String) (observed : Instant) (expiry : Option Instant) :
    Except Error (Reported × Mail) :=
  m.report .alert "Alert" source event payload observed (some observed) expiry
    (fun n => (n.alert? source event).map (·.mailId))
    fun n mailId => n.publishAlert
      { sourceId := source, eventId := event, mailId, notBefore := observed, expiresAt := expiry }

def reportContext (source event payload : String) (observed : Instant) (expiry : Option Instant) :
    Except Error (Reported × Mail) :=
  m.report .context "Context" source event payload observed none expiry
    (fun n => (n.context? source event).map (·.mailId))
    fun n mailId => n.publishContext
      { sourceId := source, eventId := event, mailId, expiresAt := expiry }

/-! ## Claims -/

/-- The alert of an event, rewritten. -/
def updateAlert (source event : String) (f : Alert → Alert) : Except Error Mail :=
  m.setAlerts (m.alerts.map fun a => if a.sourceId = source ∧ a.eventId = event then f a else a)

/-- The alert waits, and its time is over. -/
def overdue (now : Instant) (a : Alert) : Bool :=
  a.status = .pending && a.expiresAt.any fun e => e ≤ now

/-- `_expire_alerts`. -/
def expireAlerts (now : Instant) : Except Error Mail := do
  let rows := (m.alerts.filter (overdue now)).insertionSort fun a b =>
    a.sourceId < b.sourceId ∨ (a.sourceId = b.sourceId ∧ a.eventId ≤ b.eventId)
  let n ← rows.foldlM (fun n row => n.appendTransition row.mailId .alert .expired .empty) m
  n.setAlerts (n.alerts.map fun a =>
    if overdue now a then { a with status := .expired, accepted := none } else a)

def alertView (a : Alert) (e : Envelope) (turn : AcceptedTurn) : AlertView :=
  ⟨a.sourceId, a.eventId, a.mailId, e.payloadJson, e.observedAt, a.notBefore, a.expiresAt, turn⟩

/-- The alerts with their envelopes, in the order of the envelopes. -/
def alertRows : List (Alert × Envelope) :=
  m.envelopes.flatMap fun e => (m.alerts.filter (·.mailId = e.mailId)).map fun a => (a, e)

/-- The first row of the lowest `not_before`. -/
def firstDue : List (Alert × Envelope) → Option (Alert × Envelope)
  | [] => none
  | row :: rest => match firstDue rest with
      | none => some row
      | some other => some (if other.1.notBefore < row.1.notBefore then other else row)

/-- The turn has claimed the mail before. -/
def claimedBefore (mailId : String) (turn : AcceptedTurn) : Bool :=
  m.transitions.any fun t => t.mailId = mailId && t.kind = .alert && t.action = .selected &&
    t.detail = .claimed turn

/-- A pending alert is claimed by a turn. -/
def claimAlert (a : Alert) (e : Envelope) (turn : AcceptedTurn) :
    Except Error (Option AlertView × Mail) :=
  if m.alerts.any fun b => b.sourceId = a.sourceId && b.eventId = a.eventId && b.mailId = a.mailId &&
      b.status = .pending then do
    let n ← m.updateAlert a.sourceId a.eventId fun b =>
      { b with status := .selected, accepted := some turn }
    let n ← n.appendTransition a.mailId .alert .selected (.claimed turn)
    return (some (alertView a e turn), n)
  else return (none, m)

/-- The choice of `select_alert`: an alert to claim, or what is returned without one. -/
def chooseAlert (turn : AcceptedTurn) (now : Instant) (ref : Option AlertRef) :
    Except Error (Option (Alert × Envelope) × Option AlertView) :=
  match ref with
  | none => return (firstDue (m.alertRows.filter fun row =>
      row.1.status = .pending && row.1.notBefore ≤ now), none)
  | some ref => do
      identity "source_id" ref.sourceId
      identity "event_id" ref.eventId
      match m.alertRows.find? fun row => row.1.sourceId = ref.sourceId ∧ row.1.eventId = ref.eventId with
      | none => return (none, none)
      | some (a, e) => do
          identity "mail_id" ref.mailId
          if a.mailId ≠ ref.mailId then return (none, none)
          else if a.status = .selected ∧ a.accepted = some turn then
            return (none, some (alertView a e turn))
          else if m.claimedBefore a.mailId turn ∨ a.status ≠ .pending ∨ now < a.notBefore then
            return (none, none)
          else return (some (a, e), none)

/-- `select_alert`. -/
def selectAlert (turn : AcceptedTurn) (now : Instant) (ref : Option AlertRef) :
    Except Error (Option AlertView × Mail) := do
  turn.check
  let n ← m.expireAlerts now
  let (chosen, view) ← n.chooseAlert turn now ref
  match chosen with
  | none => return (view, n)
  | some (a, e) => n.claimAlert a e turn

/-- `_transition_alert`: of the alert as it was claimed, when `claim` says how. -/
def transitionAlert (source event : String) (status : AlertStatus) (notBefore : Option Instant)
    (claim : Option (String × AcceptedTurn)) (expiresBefore : Option Instant) :
    Except Error (Bool × Mail) := do
  identity "source_id" source
  identity "event_id" event
  match m.alerts.find? fun a => a.sourceId = source ∧ a.eventId = event ∧ a.status = .selected with
  | none =>
      if claim.isSome then return (false, m)
      else throw ⟨.runtimeError, "EventMail Alert transition 未命中 selected row"⟩
  | some row =>
      if (∀ c ∈ claim, row.mailId = c.1 ∧ row.accepted = some c.2) ∧
          (∀ t ∈ expiresBefore, ∃ e ∈ row.expiresAt, e ≤ t) then do
        let n ← m.updateAlert source event fun a =>
          { a with status, notBefore := notBefore.getD a.notBefore, accepted := none }
        let n ← n.appendTransition row.mailId .alert status.mail
          (match notBefore with
            | none => .empty
            | some t => .notBefore t)
        return (true, n)
      else return (false, m)

def deferAlert (source event : String) (notBefore : Instant) : Except Error (Bool × Mail) :=
  m.transitionAlert source event .pending (some notBefore) none none

/-- `close_alert`, as delivered or skipped. -/
def closeAlert (source event : String) (delivered : Bool) : Except Error (Bool × Mail) :=
  m.transitionAlert source event (if delivered then .delivered else .skipped) none none none

def changeAlert (ref : AlertRef) (turn : AcceptedTurn) (action : AlertAction) (now : Instant)
    (notBefore : Option Instant) : Except Error (Bool × Mail) := do
  ensure (action = .defer ↔ notBefore ≠ none) ⟨.valueError, "只有 Alert defer 必须指定 not_before"⟩
  ref.check
  turn.check
  m.transitionAlert ref.sourceId ref.eventId action.status notBefore (some (ref.mailId, turn))
    (if action = .expire then some now else none)

/-- `expire_alert`. -/
def expireAlert (source event : String) (now : Instant) : Except Error (Bool × Mail) := do
  identity "source_id" source
  identity "event_id" event
  match m.alert? source event with
  | none => return (false, m)
  | some row =>
      if (∃ e ∈ row.expiresAt, e ≤ now) ∧ (row.status = .pending ∨ row.status = .selected) then do
        let n ← m.updateAlert source event fun a => { a with status := .expired, accepted := none }
        let n ← n.appendTransition row.mailId .alert .expired .empty
        return (true, n)
      else return (false, m)

/-- `alert_deadline`. -/
def alertDeadline (now : Instant) : Except Error (Option Instant × Mail) := do
  let n ← m.expireAlerts now
  return (earliest ((n.alerts.filter (·.status = .pending)).map (·.notBefore)), n)

end Mail

end MonoAgent.EventMail
