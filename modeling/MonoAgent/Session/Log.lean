import MonoAgent.Lib.Connection
import MonoAgent.Session.Database

/-!
# Writing the log

The write paths of the message store as programs over one connection.  Every
public write goes through `write`, which refuses to run inside a transaction and
commits or rolls back as a whole; `saveBinding` and `validateAttachmentBindings`
open a transaction of their own.

`Writer.checkAppend` is everything an append checks before it changes a table, in the
order of the source, and `Writer.appendIn` is the append itself.  The clock and
the checks a writer was built with are arguments.
-/

namespace MonoAgent.Session

open MonoAgent.Lib

/-- Programs over the connection of a message log. -/
abbrev SessionM (α : Type) := Sql Error Database α

/-- A connection with no open transaction. -/
def Database.idle (db : Database) : Connection Database := ⟨db, none⟩

/-! ## Transactions -/

/-- What `BEGIN` raises inside a transaction. -/
def nestedBegin : Error :=
  ⟨.operationalError, "cannot start a transaction within a transaction"⟩

/-- What `MessageLog._write` raises inside a transaction. -/
def nestedWrite : Error := ⟨.runtimeError, "事务内写入必须使用当前 transaction 接口"⟩

/-- `MessageLog._write`. -/
def write {α : Type} (callback : SessionM α) : SessionM α := do
  let busy ← Exec.read Connection.inTransaction
  Exec.check (busy = false) nestedWrite
  Sql.withConnection do
    Sql.begin nestedBegin
    callback

/-! ## Writers -/

/-- A `MessageWriter`: what it may write, and whether it still may. -/
structure Writer where
  sessionId : String
  author : String
  source : String
  bodyTypes : List BodyType
  content : List (String × (ContentPart → Except Error ContentReferences)) := []
  callRef : Option CallRef := none
  checkCall : Option (ToolCall → Except Error Unit) := none
  metadataKeys : List String := []
  updateMetadata : Option (Body → Except Error (List (String × Option Json))) := none
  messageMetadataKeys : List String := []
  checkMetadata : Option (Fields → Except Error Unit) := none
  active : Bool := true
  /-- A writer of results is bound to a call. -/
  callRef_ok : .toolResult ∈ bodyTypes → callRef.isSome := by decide

/-- A writer of Inputs is bound to no call. -/
theorem Writer.input_unbound : BodyType.toolResult ∈ [BodyType.input] → (none : Option CallRef).isSome := by decide

/-- A writer of Outputs is bound to no call. -/
theorem Writer.output_unbound : BodyType.toolResult ∈ [BodyType.output] → (none : Option CallRef).isSome := by decide

/-- The arguments of an append. -/
structure AppendRequest where
  messageId : String
  body : Body
  expectedSourceHead : Option Int := none
  metadata : Fields := []
deriving DecidableEq

/-- What an append has found before it changes a table. -/
inductive Admission where
  /-- The message is stored already. -/
  | replay (stored : Message)
  | fresh (bindings artifacts : List String) (sessionMetadata : List (String × Option Json))
deriving DecidableEq

namespace Writer

/-- `_check_grant`. -/
def checkGrant (w : Writer) (body : Body) : Except Error Unit := do
  ensure (body.type ∈ w.bodyTypes) ⟨.permissionError, "writer 未获授该消息类型"⟩
  ensure (body.settles.isSome → body.settles = w.callRef)
    ⟨.permissionError, "工具结果不属于 writer 获授的调用"⟩

/-- The references of one part, added to those before it. -/
def checkPart (w : Writer) (found : List String × List String) :
    Part → Except Error (List String × List String)
  | .call c =>
      match w.checkCall with
      | none => .error ⟨.permissionError, "writer 未获授工具调用提出权"⟩
      | some check => do
          check c
          .ok (found.1.insert c.bindingId, found.2)
  | .content p =>
      match w.content.lookup p.kind with
      | none => .error ⟨.permissionError, "writer 未获授内容类型 " ++ p.kind⟩
      | some validator => do
          let references ← validator p
          .ok (references.bindingIds.foldl (fun ids id => ids.insert id) found.1,
            found.2 ++ references.artifactIds)

/-- `_check_parts`. -/
def checkParts (w : Writer) (db : Database) (body : Body) :
    Except Error (List String × List String) := do
  let found ← body.parts.foldlM w.checkPart ([], [])
  ensure (found.2.all db.ready) ⟨.valueError, "附件引用必须指向已发布的不可变资源"⟩
  return found

/-- `_check_call_result`. -/
def checkCallResult (w : Writer) (db : Database) (ref : CallRef) : Except Error Unit :=
  match db.message? ref.messageId with
  | none => .error ⟨.valueError, "调用不在 writer 获授的 Session/source 内"⟩
  | some call => do
      ensure (call.sessionId = w.sessionId ∧ call.source = w.source)
        ⟨.valueError, "调用不在 writer 获授的 Session/source 内"⟩
      ensure (ref ∈ call.calls) ⟨.valueError, "call_ref 未指向真实工具调用"⟩
      ensure (db.resultOf ref = none) ⟨.messageConflict, "该工具调用已经有结果消息"⟩

/-- A result answers a call; other bodies need no call. -/
def checkResult (w : Writer) (db : Database) (body : Body) : Except Error Unit :=
  match body.settles with
  | some ref => w.checkCallResult db ref
  | none => .ok ()

/-- The stored message is the one a request writes. -/
def checkReplay (w : Writer) (request : AppendRequest) (old : Message) : Except Error Unit := do
  ensure (old.sessionId = w.sessionId ∧ old.author = w.author ∧ old.source = w.source ∧
      bodyText old.body = bodyText request.body)
    ⟨.messageConflict, "message_id 已用于不同的不可变内容"⟩
  ensure ((Json.obj old.metadata).dumps = (Json.obj request.metadata).dumps)
    ⟨.messageConflict, "message_id 已用于不同的不可变 metadata"⟩

/-- The keys of an update are granted. -/
def checkSessionMetadata (w : Writer) (body : Body) :
    Except Error (List (String × Option Json)) := do
  let update ← match w.updateMetadata with
    | none => .ok []
    | some f => f body
  ensure (update.all (·.1 ∈ w.metadataKeys))
    ⟨.permissionError, "writer 未获授这些 Session metadata 键"⟩
  return update

/-- The checks of an append that come before the replay check. -/
def checkRequest (w : Writer) (request : AppendRequest) : Except Error Unit := do
  w.checkGrant request.body
  let metadata ← freezeMetadata request.metadata
  ensure (w.checkMetadata.isNone → metadata.all (·.1 ∈ w.messageMetadataKeys))
    ⟨.permissionError, "writer 未获授这些 Message metadata 命名空间"⟩

/-- The owner of the metadata checks what is not empty. -/
def checkNewMetadata (w : Writer) (metadata : Fields) : Except Error Unit :=
  match w.checkMetadata with
  | some check => if metadata = [] then .ok () else check metadata
  | none => .ok ()

/-- The source has not moved since the caller looked. -/
def checkHead (w : Writer) (db : Database) (expected : Option Int) : Except Error Unit :=
  let head := db.head w.sessionId w.source
  ensure (∀ e, expected = some e → head = e)
    ⟨.messageConflict, "来源 head 已变化: " ++ toString head ++ " != " ++
      (expected.elim "" toString)⟩

/-- The checks of a message that is not stored yet. -/
def checkFresh (w : Writer) (db : Database) (request : AppendRequest) : Except Error Admission := do
  let _ ← encodeBody request.body false
  ensure w.active ⟨.writerExpired, "writer 已失效"⟩
  w.checkNewMetadata request.metadata
  w.checkHead db request.expectedSourceHead
  let references ← w.checkParts db request.body
  w.checkResult db request.body
  let sessionMetadata ← w.checkSessionMetadata request.body
  return .fresh references.1 references.2 sessionMetadata

/-- Everything an append checks before it changes a table. -/
def checkAppend (w : Writer) (request : AppendRequest) (db : Database) : Except Error Admission := do
  w.checkRequest request
  match db.message? request.messageId with
  | some old => do
      w.checkReplay request old
      return .replay old
  | none => w.checkFresh db request

end Writer

/-! ## Appending -/

/-- Merge granted keys into the metadata of a Session; `none` removes a key. -/
def mergeMetadata (current : Fields) (update : List (String × Option Json)) : Fields :=
  update.foldl (fun d e => match e.2 with
    | none => Dict.pop d e.1
    | some v => Dict.set d e.1 v) current

namespace Writer

open Database Sql

/-- Write the metadata an append computes for its Session. -/
def saveMetadata (w : Writer) (sessionMetadata : List (String × Option Json)) : SessionM Unit := do
  if sessionMetadata ≠ [] then
    let row ← query (·.session? w.sessionId)
    let current := (row.bind (·.metadata)).getD []
    let updated := mergeMetadata current sessionMetadata
    if (Json.obj updated).same (.obj current) = false then
      execute (updateSession w.sessionId fun s => { s with metadata := some updated })

/-- `MessageWriter._append`, inside an open transaction. -/
def appendIn (w : Writer) (now : Instant) (request : AppendRequest) : SessionM Message := do
  match ← Exec.liftExcept (← query (w.checkAppend request)) with
  | .replay stored => return stored
  | .fresh bindings artifacts sessionMetadata =>
      execute (insertSession ⟨w.sessionId, now, now, none, 0, {}⟩)
      let seq ← query fun db => ((db.session? w.sessionId).map (·.nextSeq)).getD 0
      let message ← Exec.liftExcept (Message.make request.messageId w.sessionId seq now w.author
        w.source request.body request.metadata)
      execute (insertMessage message)
      artifacts.zipIdx.forM fun a => execute (insertAttachmentLink ⟨request.messageId, a.2, a.1⟩)
      bindings.forM fun b => execute (insertBindingLink (request.messageId, b))
      execute (updateSession w.sessionId fun s => { s with nextSeq := seq + 1, updatedAt := now })
      w.saveMetadata sessionMetadata
      execute (recordWrite (.append message))
      return message

/-- `MessageWriter.append`. -/
def append (w : Writer) (now : Instant) (request : AppendRequest) : SessionM Message :=
  write (w.appendIn now request)

end Writer

/-! ## The other writes -/

/-- `MessageLog.ensure_session`. -/
def ensureSession (sessionId : String) (attributes : SessionAttributes) (now : Instant) :
    SessionM SessionAttributes := do
  Exec.check (sessionId ≠ "") ⟨.valueError, "Session ID 不能为空"⟩
  write do
    Sql.execute (Database.insertSession ⟨sessionId, now, now, none, 0, attributes⟩)
    let row ← Sql.query (·.session? sessionId)
    match row with
    | none => throw ⟨.valueError, "Session 尚未接纳"⟩
    | some s => do
        Exec.check (s.attributes = attributes)
          ⟨.messageConflict, "同一 Session 的固定属性不能改变"⟩
        return s.attributes

/-- `MessageLog.save_binding`. -/
def saveBinding (bindingId : String) (descriptor : Fields) : SessionM Unit := do
  Exec.check (bindingId ≠ "") ⟨.valueError, "资源身份不能为空"⟩
  let payload := (Json.obj descriptor).dumps
  Sql.withConnection do
    Sql.begin nestedBegin
    match ← Sql.query (·.bindings.get? bindingId) with
    | some stored =>
        Exec.check (stored = payload) ⟨.messageConflict, "资源身份已用于另一份 descriptor"⟩
    | none => Sql.execute (Database.insertBinding bindingId payload)

/-- `OwnerTransaction._save`: a compare-and-set on the version of a record. -/
def saveIn (owner key : String) (value : Fields) (expectedVersion : Option Nat) :
    SessionM OwnerRecord := do
  Exec.check (key ≠ "") ⟨.valueError, "状态 key 不能为空"⟩
  let current ← Sql.query (·.ownerRecords.get? (owner, key))
  Exec.check (current.map (·.version) = expectedVersion)
    ⟨.messageConflict, "owner 记录版本已变化"⟩
  let record : OwnerRecord := ⟨(current.map (·.version + 1)).getD 0, value⟩
  Sql.execute (Database.saveRecord owner key record)
  Sql.execute (Database.recordWrite (.save owner key record))
  return record

/-- `MessageLog.read_binding`. -/
def readBinding (bindingId : String) : SessionM String := do
  match ← Sql.query (·.bindings.get? bindingId) with
  | some payload => return payload
  | none => throw ⟨.keyError, bindingId⟩

/-- The ordinals of one message count from zero. -/
def Database.contiguous (db : Database) (messageId : String) : Bool :=
  let ordinals := (db.messageAttachments.filter (·.messageId = messageId)).map (·.ordinal)
  ordinals.mergeSort = List.range ordinals.length

/-- `MessageLog.validate_attachment_bindings`. -/
def validateAttachmentBindings : SessionM Unit :=
  Sql.withConnection do
    Sql.begin nestedBegin
    let db ← Sql.query id
    Exec.check (db.messageAttachments.all fun a => a.messageId ∈ db.messages.map (·.messageId) ∧
        a.artifactId ∈ db.attachments.keys)
      ⟨.valueError, "message attachment foreign key check 失败"⟩
    Exec.check (db.messageAttachments.all fun a => db.contiguous a.messageId)
      ⟨.valueError, "message attachment ordinal 不连续"⟩

/-- `MessageLog._read`: a read transaction of its own, or the one that is open. -/
def readSnapshot : SessionM Database := do
  let busy ← Exec.read Connection.inTransaction
  if busy then Sql.query id
  else Sql.withConnection do
    Sql.begin nestedBegin
    Sql.query id

end MonoAgent.Session
