import MonoAgent.Lib.Calendar
import MonoAgent.Lib.Exec

/-!
# Command receipts

The table `mobile_command_receipts` and the four calls that write it.  A text of the caller
is a list of code points, surrogates included; one that has no UTF-8 encoding is refused
where it is encoded or bound to a statement.  A transaction that raises leaves the tables as
they were; `completeCommand` parses the row it returns after its transaction is committed.
-/

namespace MonoAgent.Receipts

open MonoAgent.Lib

inductive Failure where
  | valueError (text : Text)
  | typeError (text : Text)
  | overflowError
  | unicodeEncodeError
  | integrityError
  | unknownDevice (text : Text)
  | commandConflict (text : Text)
  | commandReceiptCapacity (text : Text)
  | mobileStorage (text : Text)
deriving DecidableEq, Repr

inductive Status where
  | processing
  | completed
deriving DecidableEq, Repr

def Status.text : Status → Text
  | .processing => Lib.text "processing"
  | .completed => Lib.text "completed"

/-- A row of `mobile_command_receipts`. -/
structure Row where
  deviceId : Text
  commandId : Text
  commandType : Text
  requestHash : Text
  status : Status
  replyType : Option Text
  replyPayloadJson : Option Text
  handoffPending : Bool
  sessionId : Option Text
  turnId : Option Text
  createdAt : Text
  completedAt : Option Text
deriving DecidableEq, Repr

/-- A row as callers see it. -/
structure CommandReceipt where
  deviceId : Text
  commandId : Text
  commandType : Text
  requestHash : Text
  status : Status
  replyType : Option Text
  replyPayloadJson : Option Text
  sessionId : Option Text
  turnId : Option Text
  createdAt : DateTime
  completedAt : Option DateTime
deriving DecidableEq

/-- The tables, with the devices that have a row. -/
structure Database where
  devices : List Text := []
  rows : List Row := []
deriving DecidableEq, Repr

def commandReceiptRetentionDays : Nat := 7

def commandReceiptMaxCount : Nat := 10000

def commandReceiptMaxBytes : Nat := 64 * 1024 * 1024

/-! ## Texts -/

def isSurrogate (c : Nat) : Bool := 0xD800 ≤ c ∧ c ≤ 0xDFFF

/-- A text with an encoding. -/
def Encodes (t : Text) : Prop := t.any isSurrogate = false

instance (t : Text) : Decidable (Encodes t) := inferInstanceAs (Decidable (_ = _))

/-- The bytes of a code point in UTF-8. -/
def octets (c : Nat) : Nat :=
  if c < 0x80 then 1 else if c < 0x800 then 2 else if c < 0x10000 then 3 else 4

/-- `length(CAST(t AS BLOB))`. -/
def blobLength (t : Text) : Nat := (t.map octets).sum

/-- `len(t.encode("utf-8"))`. -/
def encodedLength (t : Text) : Except Failure Nat :=
  if Encodes t then .ok (blobLength t) else .error .unicodeEncodeError

/-- Texts bound to a statement. -/
def bindTexts (ts : List Text) : Except Failure Unit := ensure (∀ t ∈ ts, Encodes t) .unicodeEncodeError

def requireText (t : Text) (field : Text) : Except Failure Text :=
  if t = [] then .error (.valueError (field ++ text " 必须为非空文本")) else .ok t

/-! ## Rows -/

/-- The columns whose bytes are counted. -/
def Row.columns (r : Row) : List (Option Text) :=
  [some r.deviceId, some r.commandId, some r.commandType, some r.requestHash, some r.status.text, r.replyType,
    r.replyPayloadJson, r.sessionId, r.turnId, some r.createdAt, r.completedAt]

/-- The sum over the columns that the usage query takes. -/
def Row.bytes (r : Row) : Nat := (r.columns.map fun column => (column.map blobLength).getD 0).sum

/-- The bytes of a row, from the values that are not none. -/
def receiptRowBytes (values : List (Option Text)) : Except Failure Nat :=
  (values.reduceOption.mapM encodedLength).map List.sum

def rowText (t : Text) (field : Text) : Except Failure Text :=
  if t = [] then .error (.typeError (text "SQLite 字段 " ++ field ++ text " 必须为非空文本")) else .ok t

def parseDatetime (t : Text) : Except Failure DateTime :=
  match DateTime.fromisoformat t with
  | some time => .ok time
  | none => .error (.valueError (text "Invalid isoformat string"))

def optionalRowDatetime : Option Text → Except Failure (Option DateTime)
  | none => .ok none
  | some t => (rowText t (text "completed_at")).bind fun t => (parseDatetime t).map some

def commandReceiptFromRow (r : Row) : Except Failure CommandReceipt := do
  ensure (¬ (r.status = .processing ∧ (r.replyType ≠ none ∨ r.replyPayloadJson ≠ none)))
    (.valueError (text "processing 命令收据包含回复"))
  ensure (¬ (r.status = .completed ∧ (r.replyType.getD [] = [] ∨ r.replyPayloadJson.getD [] = [])))
    (.valueError (text "completed 命令收据缺少回复"))
  let deviceId ← rowText r.deviceId (text "device_id")
  let commandId ← rowText r.commandId (text "command_id")
  let commandType ← rowText r.commandType (text "command_type")
  let requestHash ← rowText r.requestHash (text "request_hash")
  let created ← rowText r.createdAt (text "created_at")
  let createdAt ← parseDatetime created
  let completedAt ← optionalRowDatetime r.completedAt
  .ok {
    deviceId, commandId, commandType, requestHash
    status := r.status
    replyType := r.replyType
    replyPayloadJson := r.replyPayloadJson
    sessionId := r.sessionId
    turnId := r.turnId
    createdAt, completedAt }

def Row.named (deviceId commandId : Text) (r : Row) : Bool := r.deviceId = deviceId ∧ r.commandId = commandId

namespace Database

def read (db : Database) (deviceId commandId : Text) : Option Row := db.rows.find? (·.named deviceId commandId)

/-- The rows of a device. -/
def ofDevice (db : Database) (deviceId : Text) : List Row := db.rows.filter (·.deviceId = deviceId)

def readDeviceRow (db : Database) (deviceId : Text) : Except Failure Unit := do
  bindTexts [deviceId]
  ensure (deviceId ∈ db.devices) (.unknownDevice (text "设备不存在: " ++ deviceId))

end Database

/-- What a collection of the device deletes. -/
def Row.expired (deviceId cutoff : Text) (r : Row) : Bool :=
  r.deviceId = deviceId ∧ r.status = .completed ∧ r.handoffPending = false ∧ r.completedAt.any (· < cutoff)

namespace Database

def cutoff (now : DateTime) : Except Failure Text :=
  match now.daysEarlier commandReceiptRetentionDays with
  | some time => .ok time.isoformat
  | none => .error .overflowError

def cleanupExpiredCommandReceipts (db : Database) (deviceId : Text) (now : DateTime) : Except Failure (Nat × Database) := do
  let cutoffText ← cutoff now
  bindTexts [deviceId, cutoffText]
  let kept := db.rows.filter fun r => ¬ r.expired deviceId cutoffText
  .ok (db.rows.length - kept.length, { db with rows := kept })

/-- `COUNT(*)` and the sum of the bytes. -/
def commandReceiptUsage (db : Database) (deviceId : Text) : Nat × Nat :=
  ((db.ofDevice deviceId).length, ((db.ofDevice deviceId).map Row.bytes).sum)

/-- The primary key and the device it refers to. -/
def insert (db : Database) (r : Row) : Except Failure Database := do
  bindTexts r.columns.reduceOption
  ensure (db.read r.deviceId r.commandId = none ∧ r.deviceId ∈ db.devices) .integrityError
  .ok { db with rows := db.rows ++ [r] }

/-- An update of the rows that match, which must be one. -/
def updateOne (db : Database) (p : Row → Bool) (f : Row → Row) (error : Failure) : Except Failure Database := do
  ensure ((db.rows.filter p).length = 1) error
  .ok { db with rows := db.rows.map fun r => if p r then f r else r }

end Database

/-! ## Calls -/

/-- Committed when the body returns, rolled back when it raises. -/
def transaction {α : Type} (body : Except Failure (α × Database)) (db : Database) : Except Failure α × Database :=
  match body with
  | .ok (a, db) => (.ok a, db)
  | .error e => (.error e, db)

/-- A stored receipt of the same request. -/
def reuse (r : Row) (deviceKey commandKey commandName digest : Text) (db : Database) :
    Except Failure ((CommandReceipt × Bool) × Database) := do
  let receipt ← commandReceiptFromRow r
  ensure (receipt.commandType = commandName ∧ receipt.requestHash = digest)
    (.commandConflict (text "命令 ID 已绑定其他请求: " ++ deviceKey ++ text "/" ++ commandKey))
  .ok ((receipt, false), db)

/-- A new receipt, within the limits of its device. -/
def occupy (deviceKey commandKey commandName digest : Text) (createdAt : DateTime) (db : Database) :
    Except Failure ((CommandReceipt × Bool) × Database) := do
  let timestamp := createdAt.isoformat
  let usage := db.commandReceiptUsage deviceKey
  let projectedSize ← receiptRowBytes [some deviceKey, some commandKey, some commandName, some digest,
    some (text "processing"), none, none, none, none, some timestamp, none]
  ensure (¬ (commandReceiptMaxCount ≤ usage.1 ∨ commandReceiptMaxBytes < usage.2 + projectedSize))
    (.commandReceiptCapacity (text "mobile command receipt capacity reached: device=" ++ deviceKey ++
      text s!" count={usage.1} bytes={usage.2}"))
  let db ← db.insert
    { deviceId := deviceKey, commandId := commandKey, commandType := commandName, requestHash := digest,
      status := .processing, replyType := none, replyPayloadJson := none, handoffPending := false, sessionId := none,
      turnId := none, createdAt := timestamp, completedAt := none }
  .ok (({ deviceId := deviceKey, commandId := commandKey, commandType := commandName, requestHash := digest,
          status := .processing, replyType := none, replyPayloadJson := none, sessionId := none, turnId := none,
          createdAt, completedAt := none }, true), db)

def reserveBody (deviceKey commandKey commandName digest : Text) (createdAt : DateTime) (db : Database) :
    Except Failure ((CommandReceipt × Bool) × Database) := do
  db.readDeviceRow deviceKey
  let cleaned ← db.cleanupExpiredCommandReceipts deviceKey createdAt
  bindTexts [deviceKey, commandKey]
  match cleaned.2.read deviceKey commandKey with
  | some r => reuse r deviceKey commandKey commandName digest cleaned.2
  | none => occupy deviceKey commandKey commandName digest createdAt cleaned.2

def reserveCommand (deviceId commandId commandType requestHash : Text) (createdAt : DateTime) (db : Database) :
    Except Failure (CommandReceipt × Bool) × Database :=
  transaction (do
    let deviceKey ← requireText deviceId (text "device_id")
    let commandKey ← requireText commandId (text "command_id")
    let commandName ← requireText commandType (text "command_type")
    let digest ← requireText requestHash (text "request_hash")
    reserveBody deviceKey commandKey commandName digest createdAt db) db

def cleanupCommandReceipts (deviceId : Text) (now : DateTime) (db : Database) : Except Failure Nat × Database :=
  transaction (do
    let deviceKey ← requireText deviceId (text "device_id")
    db.readDeviceRow deviceKey
    db.cleanupExpiredCommandReceipts deviceKey now) db

def messageSendError : Text := text "message.send.error"

def completeRejectedMessageHandoff (deviceId commandId : Text) (db : Database) : Except Failure Unit × Database :=
  transaction (do
    bindTexts [deviceId, commandId]
    let db ← db.updateOne (fun r => r.named deviceId commandId ∧ r.status = .completed ∧ r.replyType = some messageSendError)
      (fun r => { r with handoffPending := false }) (.mobileStorage (text "Mobile handoff 结算缺少明确失败收据"))
    .ok ((), db)) db

/-- The columns a completion writes. -/
structure Completion where
  replyType : Text
  replyPayloadJson : Text
  sessionId : Option Text
  turnId : Option Text
  completedAt : DateTime

def Row.complete (c : Completion) (r : Row) : Row :=
  { r with
    status := .completed
    replyType := some c.replyType
    replyPayloadJson := some c.replyPayloadJson
    sessionId := c.sessionId
    turnId := c.turnId
    completedAt := some c.completedAt.isoformat }

def completeBody (deviceKey commandKey : Text) (c : Completion) (db : Database) : Except Failure (Option Row × Database) := do
  bindTexts [deviceKey, commandKey]
  match db.read deviceKey commandKey with
  | none => .error (.mobileStorage (text "命令收据不存在: " ++ deviceKey ++ text "/" ++ commandKey))
  | some existing => do
      let current ← commandReceiptFromRow existing
      ensure (current.status = .processing)
        (.mobileStorage (text "命令收据不处于 processing: " ++ deviceKey ++ text "/" ++ commandKey))
      let cleaned ← db.cleanupExpiredCommandReceipts deviceKey c.completedAt
      let size := (cleaned.2.commandReceiptUsage deviceKey).2
      let currentSize ← receiptRowBytes [some current.deviceId, some current.commandId, some current.commandType,
        some current.requestHash, some current.status.text, current.replyType, current.replyPayloadJson,
        current.sessionId, current.turnId, some current.createdAt.isoformat, none]
      let projectedSize ← receiptRowBytes [some current.deviceId, some current.commandId, some current.commandType,
        some current.requestHash, some (text "completed"), some c.replyType, some c.replyPayloadJson, c.sessionId,
        c.turnId, some current.createdAt.isoformat, some c.completedAt.isoformat]
      ensure (size - currentSize + projectedSize ≤ commandReceiptMaxBytes)
        (.commandReceiptCapacity (text "mobile command receipt byte capacity reached: device=" ++ deviceKey ++
          text s!" bytes={size}"))
      bindTexts ([some c.replyType, some c.replyPayloadJson, c.sessionId, c.turnId].reduceOption)
      let db ← cleaned.2.updateOne (fun r => r.named deviceKey commandKey ∧ r.status = .processing) (Row.complete c)
        (.mobileStorage (text "命令收据不处于 processing: " ++ deviceKey ++ text "/" ++ commandKey))
      let db := if c.replyType = messageSendError then
          { db with rows := db.rows.map fun r => if r.named deviceKey commandKey then { r with handoffPending := true } else r }
        else db
      .ok (db.read deviceKey commandKey, db)

/-- The row that is returned is parsed after the commit. -/
def completeCommand (deviceId commandId : Text) (c : Completion) (db : Database) :
    Except Failure CommandReceipt × Database :=
  let (row, db) := transaction (do
    let deviceKey ← requireText deviceId (text "device_id")
    let commandKey ← requireText commandId (text "command_id")
    let reply ← requireText c.replyType (text "reply_type")
    let payload ← requireText c.replyPayloadJson (text "reply_payload_json")
    completeBody deviceKey commandKey { c with replyType := reply, replyPayloadJson := payload } db) db
  (row.bind fun
    | some r => commandReceiptFromRow r
    | none => .error (.mobileStorage (text "已完成命令收据在同一事务中消失")), db)

end MonoAgent.Receipts
