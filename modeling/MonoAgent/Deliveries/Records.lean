import MonoAgent.Lib.Exec
import MonoAgent.Lib.Records
import MonoAgent.Session.Log

/-!
# Delivery records

A message is routed once: its selection and one `prepared` delivery for each sink
are written together.  A delivery then moves through its phases by `save`, which
names the version it has read.

Every operation is one transaction.  An error leaves the store as it was.
-/

namespace MonoAgent.Deliveries

open MonoAgent.Lib MonoAgent.Session

/-! ## Records -/

/-- A destination. -/
structure Sink where
  name : String
  bindingId : String
  address : String
  nonempty : name ≠ "" ∧ bindingId ≠ "" ∧ address ≠ "" := by decide
deriving DecidableEq

theorem chat_named : "chat" ≠ "" ∧ "b" ≠ "" ∧ "1" ≠ "" := by decide

inductive Status where
  | delivered | rejected | failed
deriving DecidableEq, Repr

/-- How a send ended. -/
structure Receipt where
  status : Status
  providerIds : List String := []
  error : Option String := none
  nonempty : "" ∉ providerIds ∧ error ≠ some "" := by decide
deriving DecidableEq

inductive Phase where
  | prepared | started
  /-- The phase of a receipt. -/
  | ended (status : Status)
deriving DecidableEq, Repr

/-- `Delivery`: a settled phase carries its receipt, a delivered one its time. -/
structure Delivery where
  sink : Sink
  phase : Phase
  receipt : Option Receipt := none
  confirmedAt : Option Instant := none
  receipt_ok : ∀ status, phase = .ended status ↔ receipt.map (·.status) = some status
  confirmed_ok : confirmedAt ≠ none → phase = .ended .delivered
deriving DecidableEq

/-- An unsettled delivery. -/
def Delivery.open (sink : Sink) (phase : Phase) (h : ∀ status, phase ≠ .ended status) : Delivery where
  sink := sink
  phase := phase
  receipt_ok status := by simp [h status]
  confirmed_ok h := absurd rfl h

def Delivery.prepared (sink : Sink) : Delivery := .open sink .prepared (fun _ h => by cases h)

def Delivery.started (sink : Sink) : Delivery := .open sink .started (fun _ h => by cases h)

/-- A settled delivery. -/
def Delivery.settled (sink : Sink) (receipt : Receipt) : Delivery where
  sink := sink
  phase := .ended receipt.status
  receipt := some receipt
  receipt_ok status := by simp
  confirmed_ok h := absurd rfl h

/-- `phase in {"delivered", "rejected", "failed"}`. -/
def Phase.terminal : Phase → Bool
  | .ended _ => true
  | _ => false

/-- `Selection`: the first routing of a message. -/
structure Selection where
  sessionId : String
  recoveryOwner : String
  passive : Bool
  sinks : List String
deriving DecidableEq

/-- `Confirmation`. -/
structure Confirmation where
  messageId : String
  sessionId : String
  confirmedAt : Instant
deriving DecidableEq

inductive Key where
  | selection (messageId : String)
  /-- `delivery_key`. -/
  | delivery (messageId sink : String)
  | cursor (recoveryOwner sessionId : String)
  | confirmedMessage (messageId : String)
  | confirmedTime (time : Instant) (messageId : String)
deriving DecidableEq

/-- What the value of a row decodes to. -/
inductive Value where
  | selection (selection : Selection)
  | delivery (delivery : Delivery)
  | cursor (throughSeq : Int)
  | confirmation (confirmation : Confirmation)
  | invalid (e : Error)
deriving DecidableEq

/-- The message log and the rows of the owner. -/
structure Outbox where
  db : Database := {}
  rows : Records Key Value := fun _ => none

abbrev Row := Versioned Value

/-- `DeliveryRecords`: the owner that recovers what it routed. -/
structure DeliveryRecords where
  recoveryOwner : String
deriving DecidableEq

def conflict : Error := ⟨.messageConflict, "owner 记录版本已变化"⟩

/-- A row of another kind than its key says. -/
def malformed : Error := ⟨.valueError, "Input should be a valid dictionary"⟩

/-- `tx.save`. -/
def Outbox.save (s : Outbox) (key : Key) (value : Value) (expected : Option Nat) :
    Except Error Outbox :=
  match s.rows.save key value expected with
  | some rows => .ok { s with rows }
  | none => .error conflict

namespace DeliveryRecords

/-! ## Reading -/

def selection (s : Outbox) (messageId : String) : Except Error (Option Selection) :=
  match s.rows (.selection messageId) with
  | none => .ok none
  | some row =>
      if row.version ≠ 0 then .error ⟨.valueError, "首次发送选择不能被改写"⟩
      else match row.value with
        | .selection selection => .ok (some selection)
        | _ => .error malformed

def checkOwner (r : DeliveryRecords) (s : Outbox) (messageId : String) : Except Error Selection := do
  match ← selection s messageId with
  | none => throw ⟨.valueError, "发送缺少首次选择"⟩
  | some selection =>
      ensure (selection.recoveryOwner = r.recoveryOwner)
        ⟨.permissionError, "发送属于另一个恢复 owner"⟩
      return selection

def cursor (r : DeliveryRecords) (s : Outbox) (sessionId : String) : Except Error Int :=
  match s.rows (.cursor r.recoveryOwner sessionId) with
  | none => .ok (-1)
  | some row =>
      match row.value with
      | .cursor throughSeq => .ok throughSeq
      | _ => .error malformed

/-- `read_delivery`. -/
def readDelivery : Value → Except Error Delivery
  | .delivery delivery => .ok delivery
  | _ => .error malformed

/-- `DeliveryRecords.read`. -/
def read (r : DeliveryRecords) (s : Outbox) (messageId sink : String) :
    Except Error (Row × Delivery) := do
  let _ ← r.checkOwner s messageId
  match s.rows (.delivery messageId sink) with
  | none => throw ⟨.valueError, "发送尚未 prepared"⟩
  | some row =>
      let delivery ← readDelivery row.value
      ensure (delivery.sink.name = sink) ⟨.valueError, "发送目的地与记录身份不一致"⟩
      return (row, delivery)

/-! ## Routing -/

/-- `_add`. -/
def addIn (r : DeliveryRecords) (messageId : String) (s : Outbox) (sink : Sink) :
    Except Error Outbox := do
  match s.rows (.delivery messageId sink.name) with
  | some _ =>
      let existing ← r.read s messageId sink.name
      ensure (existing.2.sink = sink) ⟨.messageConflict, "原发送不能更换目的地或 binding"⟩
      return s
  | none => s.save (.delivery messageId sink.name) (.delivery (.prepared sink)) none

def add (r : DeliveryRecords) (s : Outbox) (messageId : String) (sink : Sink) :
    Except Error Outbox := do
  let _ ← r.checkOwner s messageId
  r.addIn messageId s sink

/-- `_prepare`. -/
def prepareIn (r : DeliveryRecords) (s : Outbox) (message : Message) (sinks : List Sink)
    (passive : Bool) : Except Error (Outbox × Selection) := do
  match ← selection s message.messageId with
  | some existing =>
      ensure (existing.sessionId = message.sessionId) ⟨.valueError, "发送选择属于另一个 Session"⟩
      return (s, existing)
  | none =>
      let selected : Selection :=
        ⟨message.sessionId, r.recoveryOwner, passive, sinks.map (·.name)⟩
      let s ← s.save (.selection message.messageId) (.selection selected) none
      let s ← sinks.foldlM (r.addIn message.messageId) s
      return (s, selected)

def checkSinks (sinks : List Sink) : Except Error Unit :=
  ensure (sinks.map (·.name)).Nodup ⟨.valueError, "一次选路不能重复同一目的地"⟩

/-- `_check_message`, by a reader of the log of the owner. -/
def checkMessage (s : Outbox) (sessionId : String) (message : Message) (sinks : List Sink) :
    Except Error Unit := do
  ensure (sessionId = message.sessionId ∧ s.db.get sessionId message.messageId = some message)
    ⟨.valueError, "发送必须引用本 Session 已提交的原消息"⟩
  checkSinks sinks

def prepare (r : DeliveryRecords) (s : Outbox) (sessionId : String) (message : Message)
    (sinks : List Sink) (passive : Bool) : Except Error (Outbox × Selection) := do
  checkMessage s sessionId message sinks
  match ← selection s message.messageId with
  | some _ => return (s, ← r.checkOwner s message.messageId)
  | none => r.prepareIn s message sinks passive

/-- The message is appended and routed in one transaction. -/
def publish (r : DeliveryRecords) (s : Outbox) (w : Writer) (now : Instant)
    (request : AppendRequest) (sinks : List Sink) (passive : Bool) :
    Except Error (Outbox × Selection) := do
  checkSinks sinks
  match Exec.run (w.appendIn now request) ⟨s.db, some s.db⟩ with
  | (.error e, _) => throw e
  | (.ok message, c) =>
      let s := { s with db := c.current }
      match ← selection s request.messageId with
      | some _ => return (s, ← r.checkOwner s request.messageId)
      | none => r.prepareIn s message sinks passive

/-- The routing of a consumed message; without sinks it was routed elsewhere or nowhere. -/
def routeConsumed (r : DeliveryRecords) (s : Outbox) (message : Message)
    (sinks : Option (List Sink)) (passive : Bool) : Except Error (Outbox × Option Selection) :=
  match sinks with
  | none => (selection s message.messageId).map fun existing => (s, existing)
  | some sinks => (r.prepareIn s message sinks passive).map fun p => (p.1, some p.2)

/-- `consume`: no message of a Session is skipped. -/
def consume (r : DeliveryRecords) (s : Outbox) (sessionId : String) (message : Message)
    (sinks : Option (List Sink)) (passive : Bool) : Except Error (Outbox × Option Selection) := do
  checkMessage s sessionId message (sinks.getD [])
  let cursor ← r.cursor s sessionId
  if (message.seq : Int) ≤ cursor then
    let existing ← selection s message.messageId
    ensure (existing ≠ none ∨ sinks = none) ⟨.valueError, "已消费消息没有本次要求的发送选择"⟩
    return (s, existing)
  else
    let following := (s.db.snapshot sessionId).find? (cursor < ·.seq)
    ensure (following = some message) ⟨.messageConflict, "发送消费不能跳过消息"⟩
    let routed ← r.routeConsumed s message sinks passive
    let s ← routed.1.save (.cursor r.recoveryOwner sessionId) (.cursor message.seq)
      (routed.1.rows.version? (.cursor r.recoveryOwner sessionId))
    return (s, routed.2)

/-! ## Recovery -/

/-- Whether a row is a delivery of this owner that is not settled. -/
def isPending (r : DeliveryRecords) (s : Outbox) (key : String × String) : Except Error Bool := do
  ensure (key.1 ≠ "" ∧ key.2 ≠ "") ⟨.valueError, "发送记录身份损坏"⟩
  match ← selection s key.1 with
  | none => throw ⟨.valueError, "发送缺少首次选择"⟩
  | some selection =>
      if selection.recoveryOwner ≠ r.recoveryOwner then return false
      else
        let found ← r.read s key.1 key.2
        return !found.2.phase.terminal

/-- `pending`, over the delivery rows in the order `list` gives them. -/
def pending (r : DeliveryRecords) (s : Outbox) :
    List (String × String) → Except Error (List (String × String))
  | [] => .ok []
  | key :: rest => do
      let unsettled ← r.isPending s key
      let later ← r.pending s rest
      return if unsettled then key :: later else later

/-! ## Saving -/

/-- The time of the first confirmed delivery of a message is indexed. -/
def confirm (messageId sessionId : String) (delivery : Delivery) (s : Outbox) :
    Except Error Outbox :=
  match delivery.confirmedAt with
  | none => .ok s
  | some time =>
      if s.rows (.confirmedMessage messageId) = none then do
        let value : Value := .confirmation ⟨messageId, sessionId, time⟩
        let s ← s.save (.confirmedMessage messageId) value none
        s.save (.confirmedTime time messageId) value none
      else .ok s

/-- A delivery that becomes delivered carries the time. -/
def stamp (old delivery : Delivery) (now : Instant) : Delivery :=
  if h : delivery.phase = .ended .delivered ∧ old.phase ≠ .ended .delivered then
    { delivery with confirmedAt := some now, confirmed_ok := fun _ => h.1 }
  else delivery

/-- `DeliveryRecords.save`: the store, and the row that was written. -/
def save (r : DeliveryRecords) (s : Outbox) (messageId : String) (previous : Row)
    (delivery : Delivery) (now : Instant) : Except Error (Outbox × Row) := do
  let selection ← r.checkOwner s messageId
  let old ← readDelivery previous.value
  ensure (old.phase = .ended .delivered → delivery = old)
    ⟨.messageConflict, "已送达回执不能改写"⟩
  let delivery := stamp old delivery now
  let s ← s.save (.delivery messageId delivery.sink.name) (.delivery delivery)
    (some previous.version)
  let s ← confirm messageId selection.sessionId delivery s
  return (s, ⟨previous.version + 1, .delivery delivery⟩)

end DeliveryRecords

end MonoAgent.Deliveries
