import MonoAgent.EventMail.Alerts
import MonoAgent.Lib.Dict
import MonoAgent.Lib.Machine

/-!
# The projections from the ledger

`rebuild_mail_projections` writes the tables anew: the content tables from the last
projected rows, an alert from the newest envelope of its event and what was done to
it, a context from the newest envelope.
-/

namespace MonoAgent.EventMail

open MonoAgent.Lib MonoAgent.Session

/-! ## Content -/

/-- What has been read of the projected transitions. -/
structure Projected where
  items : Dict ContentKey Item := []
  selections : Dict String (Selection × List Member) := []
  state : Option ContentState := none

/-- The item, the state and the selections of a projected transition. -/
def Transition.projected? (t : Transition) : Option (Item × ContentState × List (Selection × List Member)) :=
  if t.kind = .content ∧ t.action = .projected then
    match t.detail with
    | .projected item state selections => some (item, state, selections)
    | _ => none
  else none

/-- A later row replaces an earlier one. -/
def Projected.add (p : Projected) (row : Item × ContentState × List (Selection × List Member)) :
    Except Error Projected := do
  row.1.key.check
  row.2.2.forM fun s => identity "selection_token" s.1.token
  return ⟨p.items.set row.1.key row.1, p.selections.update (row.2.2.map fun s => (s.1.token, s)),
    some row.2.1⟩

namespace Mail

variable (m : Mail)

def contentCount : Nat := m.envelopes.countP (·.kind = .content)

/-- `_rebuild_content_projections`. -/
def rebuildContent : Except Error Mail := do
  let rows := m.transitions.filterMap Transition.projected?
  ensure (m.contentCount = 0 ∨ rows ≠ []) ⟨.runtimeError, "Content ledger 缺少 projected transition"⟩
  let p ← rows.foldlM Projected.add {}
  ensure (p.items.length = m.contentCount)
    ⟨.runtimeError, "Content projected item 数量与 envelope 不一致: items=" ++ toString p.items.length ++
      " envelopes=" ++ toString m.contentCount⟩
  let items := p.items.map Prod.snd
  ensure (∀ i ∈ items, 0 < i.snapshotSeq) ⟨.runtimeError, "Content projected snapshot_seq 无效"⟩
  let n ← m.setItems (items.insertionSort (·.snapshotSeq ≤ ·.snapshotSeq))
  let n ← n.setSelections (p.selections.map (·.2.1))
  let n ← n.setMembers (p.selections.flatMap (·.2.2))
  return { n with state := p.state.getD n.state }

/-! ## Alerts and context -/

/-- Of the same event, observed later, or as late and appended later. -/
def newer (e e' : Envelope × Nat) : Bool :=
  e'.1.kind = e.1.kind && e'.1.sourceId = e.1.sourceId && e'.1.itemId = e.1.itemId &&
    (e.1.observedAt < e'.1.observedAt || (e'.1.observedAt = e.1.observedAt && e.2 < e'.2))

/-- `_latest_envelopes`. -/
def latestEnvelopes (kind : MailKind) : List Envelope :=
  let rows := m.envelopes.zipIdx
  (rows.filter fun e => e.1.kind = kind && rows.all fun e' => !newer e e').map Prod.fst

/-- What a transition does to the alert of its mail. -/
def replayAlert (a : Alert) (t : Transition) : Except Error Alert :=
  match t.action with
  | .selected => match t.detail with
      | .claimed turn => do
          turn.check
          return { a with status := .selected, accepted := some turn }
      | _ => throw ⟨.keyError, "accepted_turn"⟩
  | .deferred => match t.detail with
      | .notBefore notBefore => return { a with status := .pending, notBefore, accepted := none }
      | _ => throw ⟨.keyError, "not_before"⟩
  | .delivered => return { a with status := .delivered, accepted := none }
  | .skipped => return { a with status := .skipped, accepted := none }
  | .expired => return { a with status := .expired, accepted := none }
  | _ => return a

/-- An alert as it was reported. -/
def freshAlert (e : Envelope) : Alert :=
  { sourceId := e.sourceId, eventId := e.itemId, mailId := e.mailId
    notBefore := e.notBefore.getD "None", expiresAt := e.expiresAt }

/-- The alert of an envelope, by what was done to it. -/
def rebuildAlert (e : Envelope) : Except Error Alert :=
  (m.transitions.filter (·.mailId = e.mailId)).foldlM replayAlert (freshAlert e)

def rebuildContext (e : Envelope) : Context :=
  { sourceId := e.sourceId, eventId := e.itemId, mailId := e.mailId, expiresAt := e.expiresAt }

/-- `rebuild_mail_projections`. -/
def rebuild : Except Error Mail := do
  let n ← m.rebuildContent
  let alerts ← (n.latestEnvelopes .alert).mapM n.rebuildAlert
  let n ← n.setAlerts alerts
  n.setContexts ((n.latestEnvelopes .context).map rebuildContext)

end Mail

/-! ## The machine -/

/-- The 32 digits of a new token. -/
abbrev Hex := List (Fin 16)

def Hex.text (hex : Hex) : String := String.ofList (hex.map fun d : Fin 16 => Nat.digitChar d)

inductive MailCall where
  | submit (source batch : String) (items : List NormalizedItem) (now : Instant)
  | selectBatch (refs : List ContentRef) (snapshotSeq : Nat) (turn : AcceptedTurn) (instant : Instant)
      (hex : Hex) (now : Instant)
  | transition (token : String) (action : SelectionAction) (notBefore : Option Instant)
      (selectedRefs : Option (List ContentKey)) (now : Instant)
  | expire (refs : List ContentRef) (now : Instant)
  | settleDelivery (sha256 : String → String) (token settlement : String) (now : Instant)
  | ack (source : String) (settlement : String) (now : Instant)
  | reportAlert (source event payload : String) (observed : Instant) (expiry : Option Instant)
  | reportContext (source event payload : String) (observed : Instant) (expiry : Option Instant)
  | selectAlert (turn : AcceptedTurn) (now : Instant) (ref : Option AlertRef)
  | deferAlert (source event : String) (notBefore : Instant)
  | closeAlert (source event : String) (delivered : Bool)
  | changeAlert (ref : AlertRef) (turn : AcceptedTurn) (action : AlertAction) (now : Instant)
      (notBefore : Option Instant)
  | expireAlert (source event : String) (now : Instant)
  | alertDeadline (now : Instant)
  | rebuild

/-- What a call commits. -/
def MailCall.run (m : Mail) : MailCall → Except Error Mail
  | .submit source batch items now => (m.submit source batch items now).map (·.2)
  | .selectBatch refs snapshotSeq turn instant hex now =>
      (m.selectBatch refs snapshotSeq turn instant hex.text now).map (·.2)
  | .transition token action notBefore selectedRefs now =>
      (m.transition token action notBefore selectedRefs now).map (·.2)
  | .expire refs now => (m.expire refs now).map (·.2)
  | .settleDelivery sha256 token settlement now =>
      (m.settleDelivery sha256 token settlement now).map (·.2)
  | .ack source settlement now => (m.ack source settlement now).map (·.2)
  | .reportAlert source event payload observed expiry =>
      (m.reportAlert source event payload observed expiry).map (·.2)
  | .reportContext source event payload observed expiry =>
      (m.reportContext source event payload observed expiry).map (·.2)
  | .selectAlert turn now ref => (m.selectAlert turn now ref).map (·.2)
  | .deferAlert source event notBefore => (m.deferAlert source event notBefore).map (·.2)
  | .closeAlert source event delivered => (m.closeAlert source event delivered).map (·.2)
  | .changeAlert ref turn action now notBefore => (m.changeAlert ref turn action now notBefore).map (·.2)
  | .expireAlert source event now => (m.expireAlert source event now).map (·.2)
  | .alertDeadline now => (m.alertDeadline now).map (·.2)
  | .rebuild => m.rebuild

/-- A store that starts with a fresh database.  A call that raises commits nothing. -/
def mailMachine : Machine Mail MailCall where
  start m := m = {}
  next m call := some ((call.run m).toOption.getD m)

end MonoAgent.EventMail
