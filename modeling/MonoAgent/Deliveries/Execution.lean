import MonoAgent.Deliveries.Records
import MonoAgent.Lib.Machine
import MonoAgent.Session.Reachable

/-!
# Sending deliveries

One task at a time sends a delivery.  `Pc` names the awaits of `_send`, with the
row it holds across them.  Between two awaits it runs alone; at an await anything
else may happen, and the await may raise at any time.  An outside party answers:
the sender, the guard before the start, the clock.

`retry` and `cancelPrepared` act in one admission each.  A crash forgets the
tasks and keeps the rows.

A `Lane` counts the calls of `sender.send` and the re-arms of one delivery.  No
operation reads the counts.
-/

namespace MonoAgent.Deliveries

open MonoAgent.Lib MonoAgent.Session

/-! ## Tasks -/

/-- A row and what it holds, as it was read. -/
structure Held where
  row : Row
  delivery : Delivery
deriving DecidableEq

/-- Where `_send` waits. -/
inductive Pc where
  /-- For its admission and the scope of the task. -/
  | begin
  /-- For the target. -/
  | exclusive
  /-- For the sender to open. -/
  | opening (held : Held)
  | querying (held : Held)
  /-- `started` is committed and `sender.send` is called next. -/
  | calling (held : Held)
  | sending (held : Held)
  /-- For its scope to close. -/
  | closing
deriving DecidableEq

structure SendTask where
  handle : String
  /-- There is a `before_start`. -/
  guarded : Bool := false
  active : Bool := true
  pc : Pc := .begin
deriving DecidableEq

/-- What an await gives back. -/
inductive Answer where
  | resumed
  | found (receipt : Option Receipt)
  | sent (receipt : Receipt)
  /-- A cancellation, or an error of an outside party. -/
  | raised

/-- The task of one delivery, and its history. -/
structure Lane where
  task : Option SendTask := none
  /-- The calls of `sender.send`. -/
  sends : Nat := 0
  /-- The re-arms committed by `retry`. -/
  rearms : Nat := 0
  /-- The calls since the last re-arm. -/
  epochSends : Nat := 0
deriving DecidableEq

namespace Lane

/-- The task goes on to another await. -/
def goto (l : Lane) (pc : Pc) : Lane := { l with task := l.task.map fun t => { t with pc } }

/-- `task.cancel()`. -/
def cancel (l : Lane) : Lane := { l with task := l.task.map fun t => { t with active := false } }

end Lane

/-! ## `_send` -/

/-- What a service of deliveries is built with. -/
structure Service where
  records : DeliveryRecords
  /-- `sender.idempotent`, by the binding of the sink. -/
  idempotent : String → Bool

section Send

variable (service : Service) (o : Outbox) (l : Lane) (key : String × String)

/-- Commit a receipt and close. -/
def settle (held : Held) (receipt : Receipt) (now : Instant) : Outbox × Lane :=
  match service.records.save o key.1 held.row (.settled held.delivery.sink receipt) now with
  | .ok saved => (saved.1, l.goto .closing)
  | .error _ => (o, l.goto .closing)

/-- Commit `started`; the call is next. -/
def launch (held : Held) (now : Instant) : Outbox × Lane :=
  match service.records.save o key.1 held.row (.started held.delivery.sink) now with
  | .ok saved => (saved.1, l.goto (.calling ⟨saved.2, .started held.delivery.sink⟩))
  | .error _ => (o, l.goto .closing)

/-- From the last check of the task to the start. -/
def proceed (task : SendTask) (held : Held) (reason : Option String) (now : Instant) :
    Outbox × Lane :=
  if task.active = false then (o, l.goto .closing)
  else if held.delivery.phase = .prepared ∧ task.guarded then
    match reason with
    | none => launch service o l key held now
    | some text =>
        if h : text = "" then (o, l.goto .closing)
        else settle service o l key held
          { status := .rejected, error := some text, nonempty := ⟨by simp, by simpa using h⟩ } now
  else launch service o l key held now

/-- The first reads. -/
def beginSend : Outbox × Lane :=
  match service.records.read o key.1 key.2, DeliveryRecords.selection o key.1 with
  | .ok (_, delivery), .ok (some selection) =>
      if delivery.phase.terminal ∨ o.db.get selection.sessionId key.1 = none then (o, l.goto .closing)
      else (o, l.goto .exclusive)
  | _, _ => (o, l.goto .closing)

/-- The target is ours: read again. -/
def enterTarget (task : SendTask) : Outbox × Lane :=
  if task.active = false then (o, l.goto .closing)
  else match service.records.read o key.1 key.2 with
    | .ok (row, delivery) =>
        if delivery.phase.terminal then (o, l.goto .closing)
        else (o, l.goto (.opening ⟨row, delivery⟩))
    | .error _ => (o, l.goto .closing)

/-- The sender is open. -/
def senderOpened (task : SendTask) (held : Held) (reason : Option String) (now : Instant) :
    Outbox × Lane :=
  if held.delivery.phase = .started then (o, l.goto (.querying held))
  else proceed service o l key task held reason now

/-- The sender was asked for the receipt of a send that was interrupted. -/
def receiptFound (task : SendTask) (held : Held) (found : Option Receipt)
    (reason : Option String) (now : Instant) : Outbox × Lane :=
  match found with
  | some receipt => settle service o l key held receipt now
  | none =>
      if service.idempotent held.delivery.sink.bindingId then
        proceed service o l key task held reason now
      else settle service o l key held
        { status := .failed, error := some "原发送中断且没有可查询回执；可能已送达，不自动重发" } now

/-- The task goes on from its await. -/
def resume (answer : Answer) (reason : Option String) (now : Instant) : Option (Outbox × Lane) :=
  l.task.bind fun task => match task.pc, answer with
  | .begin, .resumed => some (beginSend service o l key)
  | .begin, .raised => some (o, l.goto .closing)
  | .exclusive, .resumed => some (enterTarget service o l key task)
  | .exclusive, .raised => some (o, l.goto .closing)
  | .opening held, .resumed => some (senderOpened service o l key task held reason now)
  | .opening _, .raised => some (o, l.goto .closing)
  | .querying held, .found found => some (receiptFound service o l key task held found reason now)
  | .querying _, .raised => some (o, l.goto .closing)
  | .calling held, .resumed =>
      some (o, { l.goto (.sending held) with sends := l.sends + 1, epochSends := l.epochSends + 1 })
  | .sending held, .sent receipt => some (settle service o l key held receipt now)
  | .sending held, .raised => some (settle service o l key held
      { status := .failed, error := some "发送已开始但未取得可确认回执" } now)
  | .closing, _ => some (o, { l with task := none })
  | _, _ => none

/-! ## Admissions -/

/-- `_start`: a task for the delivery, unless there is one. -/
def start (handle : String) (guarded : Bool) : Outbox × Lane :=
  match service.records.read o key.1 key.2 with
  | .ok _ =>
      match l.task with
      | some _ => (o, l)
      | none => (o, { l with task := some { handle, guarded } })
  | .error _ => (o, l)

/-- The admission of `retry`. -/
def rearm (now : Instant) : Outbox × Lane :=
  match service.records.read o key.1 key.2 with
  | .ok (row, delivery) =>
      if delivery.phase = .ended .rejected ∧ l.task = none then
        match service.records.save o key.1 row (.prepared delivery.sink) now with
        | .ok saved => (saved.1, { l with rearms := l.rearms + 1, epochSends := 0 })
        | .error _ => (o, l)
      else (o, l)
  | .error _ => (o, l)

/-- The admission of `cancel_prepared`, and what it returns. -/
def cancelPrepared (reason : String) (now : Instant) : (Outbox × Lane) × Bool :=
  if h : reason = "" then ((o, l), false) else
  match service.records.read o key.1 key.2 with
  | .ok (row, delivery) =>
      if delivery.phase = .prepared then
        let receipt : Receipt :=
          { status := .rejected, error := some reason, nonempty := ⟨by simp, by simpa using h⟩ }
        match service.records.save o key.1 row (.settled delivery.sink receipt) now with
        | .ok saved => ((saved.1, l.cancel), true)
        | .error _ => ((o, l), false)
      else ((o, l), false)
  | .error _ => ((o, l), false)

end Send

/-! ## The machine -/

/-- The store, and the lane of each delivery. -/
structure State where
  outbox : Outbox := {}
  lanes : String × String → Lane := fun _ => {}

/-- An operation on one delivery. -/
inductive SendAction where
  | start (handle : String) (guarded : Bool)
  /-- A waiter that owns the task was cancelled, or the service is closing. -/
  | cancel
  | rearm (now : Instant)
  | cancelPrepared (reason : String) (now : Instant)
  | resume (answer : Answer) (reason : Option String) (now : Instant)

def SendAction.run (service : Service) (o : Outbox) (l : Lane) (key : String × String) :
    SendAction → Option (Outbox × Lane)
  | .start handle guarded => some (Deliveries.start service o l key handle guarded)
  | .cancel => some (o, l.cancel)
  | .rearm now => some (Deliveries.rearm service o l key now)
  | .cancelPrepared reason now => some (Deliveries.cancelPrepared service o l key reason now).1
  | .resume answer reason now => Deliveries.resume service o l key answer reason now

inductive DeliveryAction where
  | log (a : LogAction)
  | add (messageId : String) (sink : Sink)
  | prepare (sessionId : String) (message : Message) (sinks : List Sink) (passive : Bool)
  | publish (w : Writer) (now : Instant) (request : AppendRequest) (sinks : List Sink)
      (passive : Bool)
  | consume (sessionId : String) (message : Message) (sinks : Option (List Sink)) (passive : Bool)
  | send (key : String × String) (a : SendAction)
  /-- The process dies and another one takes over its store. -/
  | crash

/-- The store after an operation that may be refused. -/
def Outbox.after {α : Type} (o : Outbox) (x : Except Error (Outbox × α)) : Outbox :=
  match x with
  | .ok p => p.1
  | .error _ => o

def State.route {α : Type} (s : State) (x : Except Error (Outbox × α)) : State :=
  { s with outbox := s.outbox.after x }

def deliveryMachine (service : Service) : Machine State DeliveryAction where
  start s := s.outbox.rows = (fun _ => none) ∧ s.lanes = fun _ => {}
  next s a := match a with
    | .log a => (logMachine.next s.outbox.db a).map fun db =>
        { s with outbox := { s.outbox with db } }
    | .add messageId sink =>
        some (s.route ((service.records.add s.outbox messageId sink).map fun o => (o, ())))
    | .prepare sessionId message sinks passive =>
        some (s.route (service.records.prepare s.outbox sessionId message sinks passive))
    | .publish w now request sinks passive =>
        some (s.route (service.records.publish s.outbox w now request sinks passive))
    | .consume sessionId message sinks passive =>
        some (s.route (service.records.consume s.outbox sessionId message sinks passive))
    | .send key a => (a.run service s.outbox (s.lanes key) key).map fun p =>
        ⟨p.1, Function.update s.lanes key p.2⟩
    | .crash => some { s with lanes := fun key => { s.lanes key with task := none } }

/-- The row of a delivery. -/
def State.row (s : State) (key : String × String) : Option Row :=
  s.outbox.rows (.delivery key.1 key.2)

end MonoAgent.Deliveries
