import MonoAgent.Lib.Machine
import MonoAgent.Mobile.Inbox

/-!
# The gateway of a device

`MobileGatewayRuntime` has at most one connection of a device in its table.  A socket
gets a `connection_epoch` when it authenticates, and a place in the table when it
resumes.  Its handler then sends the resume window, and a delivery task sends what is
published meanwhile and later.

The delivery lock is never held across a wait, so what runs under it is one step.  A
socket may fail at any wait.  Other devices share only the counter of the epochs.
-/

namespace MonoAgent.Mobile

open MonoAgent.Lib

/-! ## Sockets -/

/-- What `_send_resume_window` has to send. -/
structure Window where
  after : Nat
  through : Nat
  terminal : Event
  /-- What is left of the page that was read last. -/
  page : List Event := []
  /-- The tail frame was sent. -/
  ended : Bool := false
deriving DecidableEq

/-- Where the handler of a socket is. -/
inductive Place where
  | authenticated
  /-- Registered, while the connection that it replaces is given up. -/
  | replacing (window : Window)
  | resuming (window : Window)
  /-- In the loop of `_run_authenticated_loop`. -/
  | running
  /-- In `handle_command`. -/
  | handling
  /-- In `_flush_connection_delivery`. -/
  | flushing (barrier : Nat)
  | replying (barrier : Nat)
  /-- The client is told why its frame was refused. -/
  | closing
  | closed
deriving DecidableEq

/-- Where `_drain_connection` is. -/
inductive Drain where
  /-- There is no delivery task, or it is done. -/
  | idle
  | looks
  | writing (event : Event)
  /-- The client may have the event. -/
  | written (event : Event)
deriving DecidableEq

/-- A socket that has authenticated, with its `ActiveMobileConnection`. -/
structure Socket where
  epoch : Nat
  place : Place := .authenticated
  /-- The websocket is closed. -/
  shut : Bool := false
  ready : Bool := false
  /-- `pending_events` -/
  pending : List Event := []
  /-- `delivery_task` -/
  drain : Drain := .idle
  /-- `reply_barrier` -/
  barrier : Option Nat := none
  /-- The `last_ack` of its resume. -/
  lastAck : Nat := 0
  /-- The events that were put on the connection. -/
  out : List Event := []
  /-- A page of the window was read after the client had acknowledged events of the window on another connection. -/
  late : Bool := false
deriving DecidableEq

/-- `_schedule_delivery_locked` -/
def Socket.schedule (k : Socket) : Socket :=
  if k.ready ∧ k.pending ≠ [] ∧ k.drain = .idle then { k with drain := .looks } else k

/-- `_MAX_PENDING_CONNECTION_EVENTS` -/
def maxPending : Nat := 64

/-- The events that are read at a time. -/
def pageLimit : Nat := 512

/-! ## Resume -/

namespace Device

variable (d : Device)

/-- A resume that only sends an event that was just stored. -/
def restartAt (lastAck : Nat) (type : String) (now : Nat) : Device × Window :=
  ((d.append type now).1, { after := lastAck, through := lastAck, terminal := (d.append type now).2 })

/-- The resume window, once it is known that the inbox has all of it. -/
def replayFrom (lastAck now : Nat) : Device × Window :=
  if d.contiguous lastAck (d.next - 1) then
    ((d.append completed now).1,
      { after := lastAck, through := d.next - 1, terminal := (d.append completed now).2 })
  else d.restartAt lastAck resetRequired now

/-- The resume window that starts at a reset that is stored. -/
def replayReset (lastAck now : Nat) (reset : Event) : Option (Device × Window) :=
  if d.contiguous reset.seq (d.next - 1) = false then some (d.restartAt lastAck resetRequired now)
  else if d.next - 1 = reset.seq then some (d, { after := lastAck, through := lastAck, terminal := reset })
  else match d.readEvents (d.next - 1 - 1) 1 with
    | tail :: _ =>
        if tail.seq = d.next - 1 then
          some (d, { after := reset.seq - 1, through := d.next - 1 - 1, terminal := tail })
        else none
    | [] => none

/-- `_prepare_resume`; `none` when it raises. -/
def prepareResume (lastAck now cutoff : Nat) : Option (Device × Window) :=
  if lastAck < d.acked then some (d.restartAt lastAck resetRequired now)
  else if d.next - 1 < lastAck then
    (d.rebase lastAck resetRequired now).map fun r => (r.1, { after := lastAck, through := lastAck, terminal := r.2 })
  else if d.expired cutoff then some (d.restartAt lastAck resetRequired now)
  else match d.readEvents lastAck 1 with
    | e :: _ => if e.isReset then d.replayReset lastAck now e else some (d.replayFrom lastAck now)
    | [] => some (d.replayFrom lastAck now)

end Device

/-! ## What a socket does -/

/-- What a step of a socket leaves: the socket, the device, and whether the connection is taken out
of the table, if it is there. -/
structure Turn where
  socket : Socket
  device : Device
  pop : Bool := false
  /-- A command is executed. -/
  command : Bool := false

/-- A step of a socket reads the device, and whether its connection is in the table. -/
abbrev Act := Device → Bool → Socket → Option Turn

namespace Socket

/-- The handler ends. -/
def fail : Act := fun d _ k =>
  match k.place with
  | .closed => none
  | .replying _ => none
  | .authenticated => some { socket := { k with place := .closed }, device := d }
  | .replacing _ => some { socket := { k with place := .closed }, device := d }
  | _ => some { socket := { k with place := .closed }, device := d, pop := true }

/-- The connection that was replaced is given up. -/
def replaced : Act := fun d _ k =>
  match k.place with
  | .replacing w => some { socket := { k with place := .resuming w }, device := d }
  | _ => none

/-- A step of `_send_resume_window`. -/
def send : Act := fun d active k =>
  match k.place with
  | .resuming w =>
      match w.page with
      | e :: rest =>
          if k.shut then none
          else
            let w := { w with page := rest, after := e.seq }
            some { socket := { k with place := .resuming w, out := k.out ++ [e] }, device := d }
      | [] =>
          if w.after < w.through then
            match (d.readEvents w.after pageLimit).filter fun e => e.seq ≤ w.through with
            | [] => k.fail d active
            | page => some { socket := { k with place := .resuming { w with page }, late := k.late || decide (w.after < d.acked) }, device := d }
          else if w.ended ∨ k.shut then none
          else
            let w := { w with ended := true }
            some { socket := { k with place := .resuming w, out := k.out ++ [w.terminal] }, device := d }
  | _ => none

/-- The end of `_resume_and_register`. -/
def ended : Act := fun d active k =>
  match k.place with
  | .resuming w =>
      if w.ended = false then none
      else if active = false then some { socket := { k with place := .running }, device := d }
      else match d.markSent w.terminal.seq with
        | none => k.fail d active
        | some d => some { socket := Socket.schedule { k with place := .running, ready := true }, device := d }
  | _ => none

/-- An event that was stored is queued for the connection. -/
def queue (e : Event) : Act := fun d _ k =>
  if maxPending ≤ k.pending.length then some { socket := k, device := d, pop := true }
  else some { socket := Socket.schedule { k with pending := k.pending ++ [e] }, device := d }

/-- `_drain_connection` takes an event. -/
def take : Act := fun d active k =>
  match k.drain with
  | .looks =>
      if active = false then some { socket := { k with drain := .idle }, device := d }
      else match k.pending with
        | [] => some { socket := { k with drain := .idle }, device := d }
        | e :: rest => some { socket := { k with drain := .writing e, pending := rest }, device := d }
  | _ => none

/-- The event is put on the connection. -/
def wrote : Act := fun d _ k =>
  match k.drain with
  | .writing e =>
      if k.shut then none else some { socket := { k with drain := .written e, out := k.out ++ [e] }, device := d }
  | _ => none

/-- `send_text` raises. -/
def sendRaised : Act := fun d _ k =>
  match k.drain with
  | .writing _ => some { socket := { k with drain := .idle }, device := d, pop := true }
  | .written _ => some { socket := { k with drain := .idle }, device := d, pop := true }
  | _ => none

/-- `send_text` has returned, and the sent cursor is advanced. -/
def commit : Act := fun d active k =>
  match k.drain with
  | .written e =>
      if active = false then some { socket := { k with drain := .looks }, device := d }
      else match d.markSent e.seq with
        | none => some { socket := { k with drain := .idle }, device := d }
        | some d =>
            let stopped := k.barrier.any fun b => b ≤ e.seq
            some { socket := { k with drain := if stopped then .idle else .looks }, device := d }
  | _ => none

/-- An `AckFrame` is handled, by `_acknowledge_active_connection`. -/
def acknowledge (through : Nat) : Act := fun d active k =>
  if k.place ≠ .running then none
  else if active = false then k.fail d active
  else match d.acknowledge through with
    | .advance d => some { socket := k, device := d }
    | .rollback => some { socket := { k with place := .closing }, device := d }
    | .overflow => some { socket := { k with place := .closing }, device := d }

/-- A command is executed. -/
def command : Act := fun d active k =>
  if k.place ≠ .running then none
  else if active = false then k.fail d active
  else some { socket := { k with place := .handling }, device := d, command := true }

/-- A command is answered before what it stored is sent. -/
def answered : Act := fun d _ k =>
  if k.place ≠ .handling then none else some { socket := { k with place := .running }, device := d }

/-- A command has its reply, which goes after the events that are stored. -/
def flush : Act := fun d active k =>
  if k.place ≠ .handling then none
  else if active = false then k.fail d active
  else
    let b := d.next - 1
    some { socket := { k with place := .flushing b, barrier := if d.sent < b then some b else k.barrier }, device := d }

/-- `_flush_connection_delivery` returns. -/
def flushed : Act := fun d active k =>
  match k.place with
  | .flushing b =>
      if active = false then k.fail d active
      else if b ≤ d.sent then some { socket := { k with place := .replying b }, device := d }
      else if k.drain = .idle then k.fail d active
      else none
  | _ => none

/-- The reply was sent, or not. -/
def replied : Act := fun d active k =>
  match k.place with
  | .replying b =>
      let k := { k with place := Place.running }
      if k.barrier ≠ some b then some { socket := k, device := d }
      else
        let k := { k with barrier := none }
        some { socket := if active then k.schedule else k, device := d }
  | _ => none

/-- The websocket is closed. -/
def close : Act := fun d _ k => some { socket := { k with shut := true }, device := d }

/-- A connection that a control frame failed on leaves the table. -/
def evict : Act := fun d _ k => some { socket := k, device := d, pop := true }

/-- What a restart leaves of a socket. -/
def lost (k : Socket) : Socket :=
  { k with place := .closed, shut := true, ready := false, pending := [], drain := .idle, barrier := none }

end Socket

/-! ## The gateway -/

structure Gateway where
  device : Device := {}
  /-- `mobile_connection_epoch` -/
  lastEpoch : Nat := 0
  /-- The sockets in the order in which they authenticated. -/
  sockets : List Socket := []
  /-- `_connections.get(device_id)` -/
  active : Option Nat := none
  stopping : Bool := false
  /-- The connections that calls of `revoke_device` are closing. -/
  revoking : List Nat := []
  /-- A call of `revoke_device` has returned. -/
  revoked : Bool := false
  /-- Every event that was stored. -/
  stored : List Event := []
  /-- The sockets in the order in which they were registered. -/
  resumed : List Nat := []
  /-- The last `last_ack` that was ahead of the device. -/
  rebased : Nat := 0
  /-- The commands that were executed. -/
  commands : Nat := 0
deriving DecidableEq

namespace Gateway

variable (s : Gateway)

/-- The step of a socket. -/
def act (f : Act) (c : Nat) : Option Gateway := do
  let k ← s.sockets[c]?
  let t ← f s.device (s.active = some c) k
  return { s with
    device := t.device
    sockets := s.sockets.set c t.socket
    active := if t.pop ∧ s.active = some c then none else s.active
    commands := s.commands + t.command.toNat }

/-- `authenticate` -/
def authenticate : Option Gateway :=
  if s.device.revoked then none
  else some { s with lastEpoch := s.lastEpoch + 1, sockets := s.sockets ++ [{ epoch := s.lastEpoch + 1 }] }

/-- The device is written.  Rows with new numbers are new. -/
def write (d : Device) : Gateway :=
  { s with device := d, stored := s.stored ++ d.inbox.filter fun e => s.device.next ≤ e.seq }

/-- `_resume_and_register`, up to its first wait after the registration. -/
def register (c lastAck now cutoff : Nat) : Option Gateway := do
  let k ← s.sockets[c]?
  if k.place ≠ .authenticated then none
  else if s.stopping then some { s with sockets := s.sockets.set c { k with place := .running } }
  else match s.device.prepareResume lastAck now cutoff with
    | none => some { s with sockets := s.sockets.set c { k with place := .closed } }
    | some (d, w) =>
        let place := if s.active = none then Place.resuming w else Place.replacing w
        some { s.write d with
          sockets := s.sockets.set c { k with place, lastAck }
          active := some c
          resumed := s.resumed ++ [c]
          rebased := if s.device.next ≤ lastAck then lastAck else s.rebased }

def store (type : String) (now : Nat) : Gateway :=
  let e := (s.device.append type now).2
  let s := s.write (s.device.append type now).1
  (s.active.bind (s.act (Socket.queue e))).getD s

/-- `publish_event` to all devices. -/
def publish (type : String) (now : Nat) : Gateway := if s.device.revoked then s else s.store type now

/-- `publish_event` to the device, or to a connection of it. -/
def publishTo (type : String) (now : Nat) (epoch : Option Nat) : Gateway :=
  match epoch with
  | none => s.store type now
  | some n => if ((s.active.bind (s.sockets[·]?)).map Socket.epoch) = some n then s.store type now else s

/-- `revoke_device`, up to its first wait. -/
def revoke : Gateway :=
  let s := { s with device := s.device.revoke }
  match s.active with
  | none => { s with revoked := true }
  | some c => { s with active := none, revoking := s.revoking ++ [c] }

/-- `revoke_device` has closed the connection, and returns. -/
def revokeEnds (c : Nat) : Option Gateway :=
  if c ∈ s.revoking then ({ s with revoking := s.revoking.erase c, revoked := true } : Gateway).act Socket.close c
  else none

/-- The process ends, and starts again. -/
def restart : Gateway :=
  { s with sockets := s.sockets.map Socket.lost, active := none, stopping := false, revoking := [] }

end Gateway

/-! ## The machine -/

/-- The steps that a socket takes by itself. -/
inductive SocketAction where
  | fail
  | replaced
  | send
  | ended
  | take
  | wrote
  | sendRaised
  | commit
  | acknowledge (through : Nat)
  | command
  | answered
  | flush
  | flushed
  | replied
  | close
  | evict

def SocketAction.act : SocketAction → Act
  | .fail => Socket.fail
  | .replaced => Socket.replaced
  | .send => Socket.send
  | .ended => Socket.ended
  | .take => Socket.take
  | .wrote => Socket.wrote
  | .sendRaised => Socket.sendRaised
  | .commit => Socket.commit
  | .acknowledge through => Socket.acknowledge through
  | .command => Socket.command
  | .answered => Socket.answered
  | .flush => Socket.flush
  | .flushed => Socket.flushed
  | .replied => Socket.replied
  | .close => Socket.close
  | .evict => Socket.evict

inductive GatewayAction where
  | authenticate
  /-- Another device authenticates. -/
  | otherAuthenticates
  | register (socket lastAck now cutoff : Nat)
  | act (socket : Nat) (action : SocketAction)
  | publish (type : String) (now : Nat)
  | publishTo (type : String) (now : Nat) (epoch : Option Nat)
  | revoke
  | revokeEnds (socket : Nat)
  | stop
  | restart

def gatewayMachine : Machine Gateway GatewayAction where
  start s := s = {}
  next s
    | .authenticate => s.authenticate
    | .otherAuthenticates => some { s with lastEpoch := s.lastEpoch + 1 }
    | .register socket lastAck now cutoff => s.register socket lastAck now cutoff
    | .act socket action => s.act action.act socket
    | .publish type now => some (s.publish type now)
    | .publishTo type now epoch => some (s.publishTo type now epoch)
    | .revoke => some s.revoke
    | .revokeEnds socket => s.revokeEnds socket
    | .stop => some { s with stopping := true, active := none }
    | .restart => some s.restart

end MonoAgent.Mobile
