import Mathlib
import MonoAgent.Session.Reachable

/-!
# Conversations

A conversation accepts the Inputs of one source and controls its work.  Each
operation is one synchronous admission: it reads the log, appends at most one
message and may cancel the task of the source, with nothing in between.  What a
caller awaits after the admission changes nothing here.

A `Room` is a process: the store, the task of each source, and the restart gate.
`π` is what a task is about to do.  It is left open here.
-/

namespace MonoAgent.Conversation

open MonoAgent.Lib MonoAgent.Session

/-! ## Rooms -/

/-- A task that is not done yet.  A cancelled one is no longer active but keeps
its slot until it has drained. -/
structure Task (π : Type) where
  handle : String
  active : Bool := true
  program : π
deriving DecidableEq

/-- A process over a store. -/
structure Room (π : Type) where
  db : Database := {}
  /-- The task of each Session and source. -/
  tasks : String × String → Option (Task π) := fun _ => none
  /-- `RestartGate.accepting`. -/
  accepting : Bool := true

/-- The room with another task in a slot. -/
def Room.setTask {π : Type} (r : Room π) (key : String × String) (task : Option (Task π)) : Room π :=
  { r with tasks := Function.update r.tasks key task }

/-- Programs over a room. -/
abbrev RoomM (π α : Type) := Exec Error (Room π) α

/-- Run a program of the store. -/
def Room.lift {π α : Type} (x : SessionM α) : RoomM π α := fun r =>
  ((Exec.run x r.db.idle).1, { r with db := (Exec.run x r.db.idle).2.durable })

/-! ## Reading the log -/

/-- `MessageReader.snapshot` between two seqs. -/
def between (messages : List Message) (afterSeq throughSeq : Int) : List Message :=
  messages.filter fun m => afterSeq < m.seq ∧ (m.seq : Int) ≤ throughSeq

/-- `isinstance(body, Input)`. -/
def isInput (m : Message) : Bool := m.body.type = .input

/-- `MessageReader.latest_input`. -/
def latestInput (messages : List Message) (source : String) (throughSeq : Int) : Option Message :=
  (messages.filter fun m => m.source = source ∧ (m.seq : Int) ≤ throughSeq ∧ isInput m).getLast?

/-- The local variables of `needs_reply`. -/
structure Wake where
  boundary : Int := -1
  latestInput : Int := -1
  pausedThrough : Int := -1
deriving DecidableEq

/-- One message of `needs_reply`. -/
def Wake.visit (source : String) (s : Wake) (m : Message) : Wake :=
  if m.source ≠ source then s else
  match m.body with
  | .input _ => { s with latestInput := m.seq }
  | .output b => if b.finish ≠ .continue then { s with boundary := m.seq } else s
  | .toolResult _ => s
  | .control b =>
      match b.action with
      | .abandon => { s with boundary := max s.boundary b.throughSeq }
      | .pause | .failure => { s with pausedThrough := max s.pausedThrough b.throughSeq }
      | .resume => if s.pausedThrough ≤ b.throughSeq then { s with pausedThrough := -1 } else s

/-- `needs_reply` of a sequence of messages. -/
def needsReply (messages : List Message) (source : String) : Bool :=
  let s := messages.foldl (Wake.visit source) {}
  max s.boundary s.pausedThrough < s.latestInput

/-- `needs_reply` of a reader: it reads on from the latest Input. -/
def readerNeedsReply (db : Database) (sessionId source : String) : Bool :=
  let head := db.head sessionId
  match latestInput (db.snapshot sessionId) source head with
  | none => false
  | some latest =>
      needsReply (latest :: between (db.snapshot sessionId) latest.seq head) source

/-- The Control that points to a head; there is none before the first message. -/
def controlAt (action : Action) (head : Int) (reason : Option String := none) :
    Except Error Control := do
  ensure (0 ≤ head) ⟨.valueError, "Control through_seq 必须非负"⟩
  return ⟨action, head.toNat, reason⟩

end MonoAgent.Conversation

namespace MonoAgent

open Session

/-! ## Conversations -/

/-- The writers of one source of one Session. -/
structure Conversation where
  inputs : Writer
  controls : Writer
  /-- A restart gate was given. -/
  gated : Bool := true
  session_ok : controls.sessionId = inputs.sessionId := by rfl
  source_ok : controls.source = inputs.source := by rfl

namespace Conversation

open Lib

/-- A message to be stored under an identity. -/
def request (messageId : String) (body : Body) (expectedHead : Option Int := none) :
    AppendRequest :=
  { messageId, body, expectedSourceHead := expectedHead }

/-- What an abandon must not reach: a boundary of its source at or behind `throughSeq`. -/
def closedFrom (messages : List Message) (source : String) (throughSeq : Nat) : Bool :=
  messages.any fun m => m.source = source ∧
    ((m.body.finishes ∧ throughSeq ≤ m.seq) ∨ m.body.abandons.any (throughSeq ≤ ·))

variable {π : Type}

def sessionId (c : Conversation) : String := c.inputs.sessionId

def source (c : Conversation) : String := c.inputs.source

/-- `_key`. -/
def key (c : Conversation) : String × String := (c.sessionId, c.source)

/-- `slot.current`. -/
def current (c : Conversation) : RoomM π (Option (Task π)) := Exec.read fun r => r.tasks c.key

/-- `current.cancel()`. -/
def cancel (c : Conversation) : RoomM π Unit := Exec.modify fun r =>
  r.setTask c.key ((r.tasks c.key).map fun t => { t with active := false })

/-- `slot.start`, once the slot is known to be free. -/
def begin (c : Conversation) (handle : String) (program : π) : RoomM π (Task π) := do
  let task : Task π := { handle, program }
  Exec.modify (·.setTask c.key (some task))
  return task

/-- `_restart_gate.check_open`. -/
def checkOpen (c : Conversation) : RoomM π Unit := do
  let accepting ← Exec.read (·.accepting)
  Exec.check (c.gated → accepting) ⟨.restartPending, "runtime 正在等待重启，暂不接纳新 Root"⟩

/-- `accept`. -/
def accept (c : Conversation) (now : Instant) (messageId : String) (body : Input) :
    RoomM π Message := do
  let existing ← Exec.read (·.db.get c.sessionId messageId)
  if existing.isNone then c.checkOpen
  let message ← Room.lift (c.inputs.append now (request messageId (.input body)))
  if existing.isNone then c.cancel
  return message

/-- The handle a Control is admitted with belongs to the active task, if any. -/
def checkHandle (c : Conversation) (handle : Option String) : RoomM π Unit := do
  let current ← c.current
  match handle with
  | some h =>
      Exec.check (current.any fun t => t.handle = h ∧ t.active)
        ⟨.staleTask, "handle 不属于当前活动任务"⟩
  | none =>
      Exec.check (¬ current.any (·.active)) ⟨.messageConflict, "控制活动来源需要当前 handle"⟩

/-- `control`. -/
def control (c : Conversation) (now : Instant) (messageId : String) (body : Control)
    (expectedHead : Int) (handle : Option String) : RoomM π Message := do
  let db ← Exec.read (·.db)
  if (db.get c.sessionId messageId).isSome then
    Room.lift (c.controls.append now (request messageId (.control body)))
  else
    let target := between (db.snapshot c.sessionId) (body.throughSeq - 1) body.throughSeq
    Exec.check (target.head?.any (·.source = c.source))
      ⟨.messageConflict, "控制前缀必须指向已接纳的同来源消息"⟩
    Exec.check (body.action = .abandon →
        closedFrom (db.snapshot c.sessionId) c.source body.throughSeq = false)
      ⟨.messageConflict, "不能放弃已经关闭的前缀"⟩
    c.checkHandle handle
    let message ← Room.lift (c.controls.append now
      (request messageId (.control body) (some expectedHead)))
    if body.action ≠ .resume then c.cancel
    return message

/-- Append a Control that points to the head it expects. -/
def controlHead (c : Conversation) (now : Instant) (messageId : String) (action : Action)
    (head : Int) (reason : Option String := none) : RoomM π Message := do
  let body ← Exec.liftExcept (controlAt action head reason)
  Room.lift (c.controls.append now (request messageId (.control body) (some head)))

/-- `pause`. -/
def pause (c : Conversation) (now : Instant) (messageId : String) : RoomM π Message := do
  let db ← Exec.read (·.db)
  match db.get c.sessionId messageId with
  | some existing =>
      match existing.body with
      | .control body => do
          Exec.check (body.action = .pause) ⟨.messageConflict, "停止身份已被其他消息使用"⟩
          Room.lift (c.controls.append now (request messageId (.control body)))
      | _ => throw ⟨.messageConflict, "停止身份已被其他消息使用"⟩
  | none =>
      let head := db.head c.sessionId c.source
      Exec.check (0 ≤ head) ⟨.messageConflict, "当前来源没有可暂停的消息"⟩
      let message ← c.controlHead now messageId .pause head
      c.cancel
      return message

/-- A boundary behind the Input closes it: it cannot be retried. -/
def closesInput (target m : Message) : Bool :=
  target.seq < m.seq ∧ (m.body.finishes ∨ m.body.abandons.any (target.seq ≤ ·))

/-- `resume`. -/
def resume (c : Conversation) (now : Instant) (messageId inputId : String) : RoomM π Message := do
  let db ← Exec.read (·.db)
  match db.get c.sessionId inputId with
  | none => throw ⟨.messageConflict, "重试目标不是当前来源的 Input"⟩
  | some target =>
      Exec.check (target.source = c.source ∧ isInput target)
        ⟨.messageConflict, "重试目标不是当前来源的 Input"⟩
      match db.get c.sessionId messageId with
      | some existing =>
          match existing.body with
          | .control body => do
              Exec.check (body.action = .resume) ⟨.messageConflict, "重试身份已被其他消息使用"⟩
              let latest := latestInput (db.snapshot c.sessionId) c.source body.throughSeq
              Exec.check (latest.any (·.messageId = inputId))
                ⟨.messageConflict, "重试身份已用于另一条输入"⟩
              Room.lift (c.controls.append now (request messageId (.control body)))
          | _ => throw ⟨.messageConflict, "重试身份已被其他消息使用"⟩
      | none =>
          let messages := (db.snapshot c.sessionId).filter (·.source = c.source)
          Exec.check ((messages.filter isInput).getLast?.any (·.messageId = inputId))
            ⟨.messageConflict, "只能重试本来源的最新输入"⟩
          Exec.check (messages.any (closesInput target) = false)
            ⟨.messageConflict, "已关闭的输入不能重试"⟩
          let controls := messages.filterMap fun m => match m.body with
            | .control b => some b.action
            | _ => none
          Exec.check (controls.getLast? = some .failure ∨ controls.getLast? = some .pause)
            ⟨.messageConflict, "输入没有等待恢复的失败或暂停"⟩
          let current ← c.current
          Exec.check (¬ current.any (·.active)) ⟨.messageConflict, "不能重试仍在运行的来源"⟩
          c.checkOpen
          let head := (messages.getLast?.map fun m => (m.seq : Int)).getD (-1)
          c.controlHead now messageId .resume head

/-- The admission of `start`, after the previous task has drained. -/
def start (c : Conversation) (handle : String) (program : π) : RoomM π (Option (Task π)) := do
  let r ← Exec.read id
  match r.tasks c.key with
  | some task => return some task
  | none =>
      if readerNeedsReply r.db c.sessionId c.source ∧ (c.gated → r.accepting) then
        return some (← c.begin handle program)
      else return none

/-- The admission of `complete`: the task, and whether the caller owns it. -/
def complete (c : Conversation) (handle : String) (program : π) :
    RoomM π (Option (Task π) × Bool) := do
  let r ← Exec.read id
  match r.tasks c.key with
  | some task => return (some task, false)
  | none =>
      if readerNeedsReply r.db c.sessionId c.source then return (none, false)
      else return (some (← c.begin handle program), true)

/-- `failed`: a started program raised, and notes it if its task still is the one. -/
def failed (c : Conversation) (now : Instant) (handle messageId text : String) :
    RoomM π (Option Message) := do
  let current ← c.current
  if current.any fun t => t.handle = handle ∧ t.active then
    let db ← Exec.read (·.db)
    let message ← c.controlHead now messageId .failure (db.head c.sessionId c.source) (some text)
    return some message
  else return none

/-- `_release`: the task of the slot is done. -/
def release (c : Conversation) : RoomM π Unit := Exec.modify (·.setTask c.key none)

end Conversation

end MonoAgent
