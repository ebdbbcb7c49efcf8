import MonoAgent.Lib.Exec
import MonoAgent.Lib.Text

/-!
# Uploading an attachment

The row of `mobile_attachments` for one attachment, the file it points to, and the three
calls of the transfer service on them.  Every call holds the lock of the attachment, so
calls follow one another.

A file is written and a row committed in separate steps, each a `write` here.  A fault lets
a number of writes of a call through and stops it at the next one: the process dies, or the
disk or the database raises.  A chunk is written byte by byte, so that a fault may cut it.
-/

namespace MonoAgent.Attachments

open MonoAgent.Lib

inductive Direction where
  | upload
  | outbound
deriving DecidableEq, Repr

inductive AttachmentState where
  | transferring
  | ready
  | failed
deriving DecidableEq, Repr

/-- A row of `mobile_attachments`. -/
structure AttachmentRecord where
  attachmentId : String
  deviceId : Option String
  sessionId : String
  direction : Direction
  filename : String
  contentType : String
  sizeBytes : Nat
  sha256 : String
  localPath : String
  transferredBytes : Nat
  state : AttachmentState
deriving DecidableEq, Repr

/-- How a call can end without a result. -/
inductive Failure where
  | requestError (text : String)
  | stateError (text : String)
  | valueError (text : String)
  | runtimeError (text : String)
  | unknownDevice (text : String)
  /-- The disk or the database raises. -/
  | io
  /-- The process dies. -/
  | crash
deriving DecidableEq, Repr

/-- What is on disk of the attachment. -/
structure Upload where
  record : Option AttachmentRecord := none
  /-- The bytes at the record's local path. -/
  file : List UInt8 := []
  /-- The chunks committed since the last reset; no call reads them. -/
  chunks : List (List UInt8) := []
deriving DecidableEq, Repr

/-- What happens to a call at the write that follows `writes` of its writes. -/
structure Fault where
  writes : Nat
  failure : Failure
deriving DecidableEq, Repr

/-- A call in progress. -/
structure Call where
  upload : Upload
  fault : Option Fault := none
deriving DecidableEq, Repr

/-! ## Writes -/

/-- One durable write, unless the fault comes first. -/
def write (f : Upload → Upload) : Exec Failure Call Unit := fun c =>
  match c.fault with
  | none => (.ok (), { c with upload := f c.upload })
  | some ⟨0, e⟩ => (.error e, c)
  | some ⟨n + 1, e⟩ => (.ok (), { upload := f c.upload, fault := some ⟨n, e⟩ })

/-- `stream.truncate`. -/
def Upload.truncate (u : Upload) (size : Nat) : Upload := { u with file := u.file.take size }

/-- One byte of `stream.write` at the end of the file. -/
def Upload.put (u : Upload) (byte : UInt8) : Upload := { u with file := u.file ++ [byte] }

def writeAll : List UInt8 → Exec Failure Call Unit
  | [] => pure ()
  | byte :: rest => do
      write (·.put byte)
      writeAll rest

/-! ## The rows -/

/-- An update of the rows that match, which must be one. -/
def update (p : AttachmentRecord → Bool) (error : Failure) (f : AttachmentRecord → AttachmentRecord)
    (g : List (List UInt8) → List (List UInt8)) : Exec Failure Call AttachmentRecord := do
  let row ← Exec.read (·.upload.record)
  match row with
  | some r =>
      if p r then
        write fun u => { u with record := some (f r), chunks := g u.chunks }
        pure (f r)
      else throw error
  | none => throw error

/-- `WHERE attachment_id = ? AND device_id = ? AND direction = 'upload' AND state = ?`. -/
def AttachmentRecord.isUpload (r : AttachmentRecord) (deviceId attachmentId : String) (state : AttachmentState) : Bool :=
  r.attachmentId = attachmentId ∧ r.deviceId = some deviceId ∧ r.direction = .upload ∧ r.state = state

def readAttachment (attachmentId : String) : Exec Failure Call (Option AttachmentRecord) := do
  Exec.check (attachmentId ≠ "") (.valueError "attachment_id 必须为非空文本")
  Exec.read fun c => c.upload.record.filter (·.attachmentId = attachmentId)

def requireUploadAttachment (deviceId attachmentId : String) : Exec Failure Call AttachmentRecord := do
  match ← readAttachment attachmentId with
  | none => throw (.stateError s!"附件不存在: {attachmentId}")
  | some record =>
      Exec.check (record.direction = .upload ∧ record.deviceId = some deviceId)
        (.stateError s!"附件不属于当前上传设备: {attachmentId}")
      Exec.check (record.state = .transferring) (.stateError s!"附件不处于传输状态: {attachmentId}")
      pure record

def requireOwnedUpload (deviceId sessionId attachmentId : String) : Exec Failure Call AttachmentRecord := do
  match ← readAttachment attachmentId with
  | none => throw (.stateError s!"附件不存在: {attachmentId}")
  | some record =>
      Exec.check (record.direction = .upload ∧ record.deviceId = some deviceId ∧ record.sessionId = sessionId)
        (.stateError s!"附件不属于当前上传会话: {attachmentId}")
      pure record

def failAttachmentUpload (deviceId attachmentId : String) : Exec Failure Call AttachmentRecord :=
  update (·.isUpload deviceId attachmentId .transferring) (.stateError s!"附件不能标记为失败: {attachmentId}")
    (fun r => { r with state := .failed }) id

def resetFailedUpload (deviceId attachmentId : String) : Exec Failure Call AttachmentRecord :=
  update (·.isUpload deviceId attachmentId .failed) (.stateError s!"附件不能重置: {attachmentId}")
    (fun r => { r with state := .transferring, transferredBytes := 0 }) fun _ => []

/-- `data` is what the caller wrote between the two offsets. -/
def advanceAttachment (deviceId attachmentId : String) (expectedOffset nextOffset : Nat) (data : List UInt8) :
    Exec Failure Call AttachmentRecord := do
  Exec.check (expectedOffset < nextOffset) (.valueError "next_offset 必须大于 expected_offset")
  update (fun r => r.isUpload deviceId attachmentId .transferring ∧ r.transferredBytes = expectedOffset ∧
      nextOffset ≤ r.sizeBytes)
    (.stateError s!"附件 offset 推进冲突: {attachmentId}/{expectedOffset}")
    (fun r => { r with transferredBytes := nextOffset }) (· ++ [data])

def markAttachmentReady (deviceId attachmentId : String) : Exec Failure Call AttachmentRecord :=
  update (fun r => r.isUpload deviceId attachmentId .transferring ∧ r.transferredBytes = r.sizeBytes)
    (.stateError s!"附件尚不能完成: {attachmentId}") (fun r => { r with state := .ready }) id

/-- `known` says whether the device has a row. -/
def createAttachment (record : AttachmentRecord) (known : Bool) : Exec Failure Call AttachmentRecord := do
  let deviceId := record.deviceId.getD ""
  Exec.check (record.deviceId.isSome → known = true) (.unknownDevice s!"设备不存在: {deviceId}")
  Exec.check (record.attachmentId ≠ "") (.valueError "attachment_id 必须为非空文本")
  Exec.check (record.sessionId ≠ "") (.valueError "session_id 必须为非空文本")
  Exec.check (record.filename ≠ "") (.valueError "filename 必须为非空文本")
  Exec.check (record.contentType ≠ "") (.valueError "content_type 必须为非空文本")
  Exec.check (record.sha256 ≠ "") (.valueError "sha256 必须为非空文本")
  Exec.check (record.localPath ≠ "") (.valueError "local_path 必须为非空文本")
  write fun u => { u with record := some record }
  pure record

/-! ## The calls -/

def maxAttachmentChunkBytes : Nat := 128 * 1024

def attachmentProgressIntervalBytes : Nat := 1024 * 1024

def validateFilename (filename : String) : Except Failure String :=
  let safe := strip filename
  if safe = "" ∨ safe ≠ filename ∨ 255 < safe.length ∨ safe.toList.any (fun c => c = '/' ∨ c = '\\' ∨
      c.toNat < 32 ∨ c.toNat = 127) then
    .error (.requestError "filename 必须是 1..255 字符的纯文件名")
  else .ok safe

/-- A character of `[A-Za-z0-9!#$&^_.+-]`. -/
def isMimeChar (c : Char) : Bool :=
  ('A' ≤ c ∧ c ≤ 'Z') ∨ ('a' ≤ c ∧ c ≤ 'z') ∨ ('0' ≤ c ∧ c ≤ '9') ∨ "!#$&^_.+-".toList.contains c

/-- One slash, with one or more of those characters on either side. -/
def isMimeType (s : String) : Bool :=
  match s.toList.splitOn '/' with
  | [type, subtype] => (type ≠ [] ∧ type.all isMimeChar) ∧ subtype ≠ [] ∧ subtype.all isMimeChar
  | _ => false

def validateContentType (contentType : String) : Except Failure String :=
  if 255 < contentType.length ∨ isMimeType contentType = false then
    .error (.requestError "content_type 必须是合法 MIME type")
  else .ok contentType

def isHexDigest (digest : String) : Bool :=
  digest.length = 64 ∧ digest.toList.all fun c => ('0' ≤ c ∧ c ≤ '9') ∨ ('a' ≤ c ∧ c ≤ 'f')

/-- The device, the session and the declaration of a `begin_upload`. -/
structure Declaration where
  deviceId : String
  sessionId : String
  filename : String
  contentType : String
  sizeBytes : Nat
  sha256 : String
deriving DecidableEq, Repr

def AttachmentRecord.declares (r : AttachmentRecord) (d : Declaration) : Bool :=
  r.deviceId = some d.deviceId ∧ r.sessionId = d.sessionId ∧ r.filename = d.filename ∧ r.contentType = d.contentType ∧
    r.sizeBytes = d.sizeBytes ∧ r.sha256 = d.sha256

/-- Empty the file first, then put the stored offset back to zero. -/
def resetFailed (record : AttachmentRecord) : Exec Failure Call AttachmentRecord := do
  write (·.truncate 0)
  match record.deviceId with
  | none => throw (.runtimeError "upload 附件缺少 device_id")
  | some deviceId => resetFailedUpload deviceId record.attachmentId

/-- Bring the file to the stored offset. -/
def reconcileExistingUpload (record : AttachmentRecord) : Exec Failure Call AttachmentRecord :=
  match record.state with
  | .failed => resetFailed record
  | .ready => pure record
  | .transferring => do
      let actualSize ← Exec.read (·.upload.file.length)
      if actualSize < record.transferredBytes then
        match record.deviceId with
        | none => throw (.runtimeError "upload 附件缺少 device_id")
        | some deviceId => do
            let _ ← failAttachmentUpload deviceId record.attachmentId
            resetFailed record
      else if record.transferredBytes < actualSize then do
        write (·.truncate record.transferredBytes)
        pure record
      else pure record

/-- `path` is the new path of the attachment store. -/
def beginUploadLocked (attachmentId : String) (d : Declaration) (path : String) (known : Bool) :
    Exec Failure Call AttachmentRecord := do
  match ← readAttachment attachmentId with
  | some existing =>
      Exec.check (existing.direction = .upload ∧ existing.declares d) (.stateError "attachment_id 已绑定其他附件")
      reconcileExistingUpload existing
  | none =>
      write fun u => { u with file := [] }
      createAttachment
        { attachmentId := attachmentId, deviceId := some d.deviceId, sessionId := d.sessionId, direction := .upload,
          filename := d.filename, contentType := d.contentType, sizeBytes := d.sizeBytes, sha256 := d.sha256,
          localPath := path, transferredBytes := 0, state := .transferring } known

def beginUpload (maxAttachmentBytes : Nat) (attachmentId : String) (d : Declaration) (path : String) (known : Bool) :
    Exec Failure Call AttachmentRecord := do
  Exec.check (1 ≤ d.sizeBytes ∧ d.sizeBytes ≤ maxAttachmentBytes)
    (.requestError s!"附件大小必须在 1..{maxAttachmentBytes} 字节")
  let safeFilename ← Exec.liftExcept (validateFilename d.filename)
  let _ ← Exec.liftExcept (validateContentType d.contentType)
  let digest := d.sha256.toLower
  Exec.check (isHexDigest digest = true) (.requestError "sha256 必须是 64 位十六进制摘要")
  beginUploadLocked attachmentId { d with filename := safeFilename, sha256 := digest } path known

/-- The record, and whether the progress is worth a report. -/
def appendChunk (deviceId attachmentId : String) (offset : Nat) (data : List UInt8) :
    Exec Failure Call (AttachmentRecord × Bool) := do
  Exec.check (data ≠ [] ∧ data.length ≤ maxAttachmentChunkBytes)
    (.requestError s!"附件分片必须在 1..{maxAttachmentChunkBytes} 字节")
  let record ← requireUploadAttachment deviceId attachmentId
  Exec.check (offset = record.transferredBytes)
    (.stateError s!"附件 offset 不连续: expected={record.transferredBytes} actual={offset}")
  let nextOffset := offset + data.length
  Exec.check (nextOffset ≤ record.sizeBytes) (.stateError "附件分片超过声明大小")
  let actualSize ← Exec.read (·.upload.file.length)
  Exec.check (record.transferredBytes ≤ actualSize)
    (.runtimeError s!"附件文件短于已提交 offset: {actualSize} < {record.transferredBytes}")
  write (·.truncate record.transferredBytes)
  writeAll data
  let updated ← advanceAttachment deviceId record.attachmentId record.transferredBytes nextOffset data
  let crossedInterval := record.transferredBytes / attachmentProgressIntervalBytes <
    updated.transferredBytes / attachmentProgressIntervalBytes
  pure (updated, crossedInterval ∨ updated.transferredBytes = updated.sizeBytes)

/-- `digest` is `hashlib.sha256(..).hexdigest()`. -/
def finishUpload (digest : List UInt8 → String) (deviceId sessionId attachmentId : String) :
    Exec Failure Call AttachmentRecord := do
  let record ← requireOwnedUpload deviceId sessionId attachmentId
  match record.state with
  | .ready => pure record
  | .failed => throw (.stateError s!"附件不处于传输状态: {attachmentId}")
  | .transferring => do
      Exec.check (record.transferredBytes = record.sizeBytes)
        (.stateError s!"附件尚未上传完成: {record.transferredBytes}/{record.sizeBytes}")
      let file ← Exec.read (·.upload.file)
      Exec.check (file.length = record.sizeBytes) (.stateError "附件落盘大小与声明不一致")
      if digest file ≠ record.sha256 then
        let _ ← failAttachmentUpload deviceId attachmentId
        throw (.stateError "附件 SHA-256 校验失败")
      else markAttachmentReady deviceId attachmentId

end MonoAgent.Attachments
