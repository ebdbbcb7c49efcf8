import Mathlib
import MonoAgent.Context.Summary
import MonoAgent.Lib.Connection
import MonoAgent.Session.Log

/-!
# Summary records

A summary record is stored once and never changed.  A head for each Session points
to the latest.  `publish` stores a record and moves the head in one transaction,
and `resolve` follows the parents of a record down to the first.  A record was
either published here or imported from the ledger of an earlier version, whose
generations may have gaps.

The owner state is modelled by what its rows decode to.
-/

namespace MonoAgent.Compaction

open MonoAgent.Lib MonoAgent.Session MonoAgent.Context

/-! ## Records -/

/-- `_SummaryIdentity`. -/
structure SummaryIdentity where
  reference : String
  sessionId : String
  generation : Nat
  parent : Option String
  sourceMessageIds : List String
  content : String
  reference_ne : reference ≠ "" := by decide
  sessionId_ne : sessionId ≠ "" := by decide
  generation_pos : 1 ≤ generation := by decide
  parent_ne : parent ≠ some "" ∧ parent ≠ some reference := by decide
  sources_ne : sourceMessageIds ≠ [] ∧ "" ∉ sourceMessageIds := by decide
  nodup_sources : sourceMessageIds.Nodup := by decide
  content_ne : content ≠ "" := by decide

theorem SummaryIdentity.eq_iff {a b : SummaryIdentity} :
    a.reference = b.reference ∧ a.sessionId = b.sessionId ∧ a.generation = b.generation ∧ a.parent = b.parent ∧
      a.sourceMessageIds = b.sourceMessageIds ∧ a.content = b.content ↔ a = b := by
  cases a
  cases b
  simp

instance : DecidableEq SummaryIdentity := fun _ _ => decidable_of_iff _ SummaryIdentity.eq_iff

inductive Trigger where
  | softLimit | contextOverflow
deriving DecidableEq, Repr

/-- A summary published here. -/
structure SummaryRecord extends SummaryIdentity where
  modelCallIds : List String
  trigger : Trigger
  contextWindow : Nat
  maxOutputTokens : Nat
  keepRecentTokens : Nat
  tokensBefore : Nat
  tokensAfter : Nat
  /-- The first generation and no other has no parent. -/
  first : generation = 1 ↔ parent = none := by decide
  calls_ne : modelCallIds ≠ [] ∧ "" ∉ modelCallIds := by decide
  nodup_calls : modelCallIds.Nodup := by decide
  limits_pos : 0 < contextWindow ∧ 0 < maxOutputTokens ∧ 0 < keepRecentTokens := by decide

theorem SummaryRecord.eq_iff {a b : SummaryRecord} :
    a.toSummaryIdentity = b.toSummaryIdentity ∧ a.modelCallIds = b.modelCallIds ∧ a.trigger = b.trigger ∧
      a.contextWindow = b.contextWindow ∧ a.maxOutputTokens = b.maxOutputTokens ∧
      a.keepRecentTokens = b.keepRecentTokens ∧ a.tokensBefore = b.tokensBefore ∧ a.tokensAfter = b.tokensAfter ↔
      a = b := by
  cases a
  cases b
  simp

instance : DecidableEq SummaryRecord := fun _ _ => decidable_of_iff _ SummaryRecord.eq_iff

/-- A record is valid, or it is not made. -/
def SummaryRecord.make (reference sessionId : String) (generation : Nat) (parent : Option String)
    (sourceMessageIds : List String) (content : String) (modelCallIds : List String)
    (trigger : Trigger) (contextWindow maxOutputTokens keepRecentTokens tokensBefore : Nat) :
    Except Error SummaryRecord :=
  if h : (reference ≠ "" ∧ sessionId ≠ "" ∧ 1 ≤ generation ∧
      (parent ≠ some "" ∧ parent ≠ some reference)) ∧
      ((sourceMessageIds ≠ [] ∧ "" ∉ sourceMessageIds) ∧ sourceMessageIds.Nodup ∧ content ≠ "") ∧
      (generation = 1 ↔ parent = none) ∧ (modelCallIds ≠ [] ∧ "" ∉ modelCallIds) ∧
      modelCallIds.Nodup ∧ (0 < contextWindow ∧ 0 < maxOutputTokens ∧ 0 < keepRecentTokens) then
    let identity : SummaryIdentity :=
      ⟨reference, sessionId, generation, parent, sourceMessageIds, content, h.1.1, h.1.2.1,
        h.1.2.2.1, h.1.2.2.2, h.2.1.1, h.2.1.2.1, h.2.1.2.2⟩
    .ok ⟨identity, modelCallIds, trigger, contextWindow, maxOutputTokens, keepRecentTokens,
      tokensBefore, 0, h.2.2.1, h.2.2.2.1, h.2.2.2.2.1, h.2.2.2.2.2⟩
  else .error ⟨.valueError, "摘要记录无效"⟩

/-- The fields of a row of the old ledger that are read again. -/
structure LegacySummaryRow where
  sessionKey : String
  generation : Int
  parentGeneration : Int
  summary : String
  /-- `source_message_ids_json`, decoded. -/
  sourceMessageIds : List String
  invalidatedAt : Option String := none
  invalidatedReason : Option String := none
deriving DecidableEq

/-- A summary imported from the old ledger. -/
structure ImportedSummaryRecord extends SummaryIdentity where
  row : LegacySummaryRow
  projection : row.sessionKey = sessionId ∧ row.generation = generation ∧
    row.summary = content := by decide
  valid : row.invalidatedAt = none ∧ row.invalidatedReason = none := by decide
  own_ne : row.sourceMessageIds ≠ [] ∧ "" ∉ row.sourceMessageIds := by decide
  own_suffix : row.sourceMessageIds <:+ sourceMessageIds := by decide
  root : parent = none →
    row.parentGeneration = 0 ∧ row.sourceMessageIds = sourceMessageIds := by decide
  link : parent ≠ none → row.parentGeneration < row.generation := by decide
deriving DecidableEq

inductive StoredSummary where
  | native (record : SummaryRecord)
  | imported (record : ImportedSummaryRecord)
deriving DecidableEq

namespace StoredSummary

def identity : StoredSummary → SummaryIdentity
  | .native r => r.toSummaryIdentity
  | .imported r => r.toSummaryIdentity

def reference (r : StoredSummary) : String := r.identity.reference

def sessionId (r : StoredSummary) : String := r.identity.sessionId

def generation (r : StoredSummary) : Nat := r.identity.generation

def parent (r : StoredSummary) : Option String := r.identity.parent

def sourceMessageIds (r : StoredSummary) : List String := r.identity.sourceMessageIds

def content (r : StoredSummary) : String := r.identity.content

/-- The generation a record expects of its parent. -/
def followsGeneration (current parent : StoredSummary) : Bool :=
  match current with
  | .imported r => (parent.generation : Int) = r.row.parentGeneration
  | .native r => parent.generation + 1 = r.generation

/-- The sources of a record extend those of its parent. -/
def extendsSources (ids : List String) (parent : StoredSummary) : Bool :=
  parent.sourceMessageIds.length < ids.length ∧
    ids.take parent.sourceMessageIds.length = parent.sourceMessageIds

end StoredSummary

/-! ## The owner state -/

inductive Key where
  /-- `"summary:" + reference`. -/
  | summary (reference : String)
  /-- `"head:" + session_id`. -/
  | head (sessionId : String)
deriving DecidableEq

/-- What the value of a row decodes to. -/
inductive Value where
  | summary (record : StoredSummary)
  | head (reference : String)
  | invalid (e : Error)
deriving DecidableEq

structure Row where
  version : Nat
  value : Value
deriving DecidableEq

/-- The message log and the rows of the owner. -/
structure Archive where
  db : Database := {}
  rows : Key → Option Row := fun _ => none
  /-- The records published so far, in order.  No query reads it. -/
  published : List SummaryRecord := []

namespace Archive

/-- `SummaryRecords.read`. -/
def read (s : Archive) (reference : String) : Except Error (Option StoredSummary) :=
  match s.rows (.summary reference) with
  | none => .ok none
  | some row =>
      match row.value with
      | .summary record => do
          ensure (record.reference = reference ∧ row.version = 0)
            ⟨.valueError, "摘要记录的身份或不可变版本损坏"⟩
          return some record
      | .head _ => .error ⟨.valueError, "摘要记录 version 无效"⟩
      | .invalid e => .error e

/-- `SummaryRecords.head`. -/
def head (s : Archive) (sessionId : String) : Except Error (Option StoredSummary) :=
  match s.rows (.head sessionId) with
  | none => .ok none
  | some row =>
      match row.value with
      | .head reference => do
          match ← s.read reference with
          | some record =>
              ensure (record.sessionId = sessionId)
                ⟨.valueError, "摘要 head 没有对应 Session 的已发布记录"⟩
              return some record
          | none => throw ⟨.valueError, "摘要 head 没有对应 Session 的已发布记录"⟩
      | .summary _ => .error ⟨.valueError, "Extra inputs are not permitted"⟩
      | .invalid e => .error e

/-- The row a write of a key makes. -/
def put (s : Archive) (key : Key) (value : Value) : Archive :=
  let version := ((s.rows key).map (·.version + 1)).getD 0
  { s with rows := Function.update s.rows key (some ⟨version, value⟩) }

end Archive

/-! ## Resolving -/

/-- The identity of a summary that a binding fixes. -/
structure SummaryRef where
  recordRef : String
  sessionId : String
deriving DecidableEq

/-- The link from a record to its parent. -/
def Links (current parent : StoredSummary) : Prop :=
  current.followsGeneration parent = true ∧
    StoredSummary.extendsSources current.sourceMessageIds parent = true

instance (current parent : StoredSummary) : Decidable (Links current parent) :=
  inferInstanceAs (Decidable (_ ∧ _))

/-- Generations decrease from a record to its parent. -/
theorem Links.generation_lt {current parent : StoredSummary} (h : Links current parent)
    (hp : current.parent ≠ none) : parent.generation < current.generation := by
  have hgen := h.1
  cases current with
  | native r =>
      have hgen : parent.generation + 1 = r.generation := of_decide_eq_true hgen
      show parent.generation < r.generation
      omega
  | imported r =>
      have hgen : (parent.generation : Int) = r.row.parentGeneration := of_decide_eq_true hgen
      have hlt := r.link hp
      have hrow := r.projection.2.1
      show parent.generation < r.generation
      omega

/-- The loop of `resolve`: the parents of a record, down to the first. -/
def Archive.followParents (s : Archive) (sessionId : String) (current : StoredSummary) :
    Except Error Unit :=
  match _hp : current.parent with
  | none => .ok ()
  | some reference => do
      match ← s.read reference with
      | none => throw ⟨.valueError, "摘要父链缺失或跨 Session"⟩
      | some parent =>
          if parent.sessionId ≠ sessionId then throw ⟨.valueError, "摘要父链缺失或跨 Session"⟩
          else if _hlink : Links current parent then s.followParents sessionId parent
          else throw ⟨.valueError, "摘要父链的 generation 或来源前缀不连续"⟩
termination_by current.generation
decreasing_by exact _hlink.generation_lt (by rw [_hp]; exact Option.some_ne_none _)

/-- `SummaryLookup.resolve`. -/
def Archive.resolve (s : Archive) (reference : SummaryRef) (sessionId : String) :
    Except Error StoredSummary := do
  ensure (reference.sessionId = sessionId) ⟨.valueError, "摘要 binding 不属于当前 Session"⟩
  match ← s.read reference.recordRef with
  | none => throw ⟨.valueError, "摘要 binding 没有对应 Session 的原始记录"⟩
  | some record =>
      ensure (record.sessionId = sessionId)
        ⟨.valueError, "摘要 binding 没有对应 Session 的原始记录"⟩
      s.followParents sessionId record
      return record

/-! ## Publishing -/

/-- A `MessageReader`, and whether it belongs to the log of the owner. -/
structure Reader where
  sessionId : String
  sameAuthority : Bool := true

/-- `tx.save`: a compare-and-set on the version of a row. -/
def save (key : Key) (value : Value) (expectedVersion : Option Nat) : Sql Error Archive Unit := do
  let current ← Sql.query (·.rows key)
  Exec.check (current.map (·.version) = expectedVersion)
    ⟨.messageConflict, "owner 记录版本已变化"⟩
  Sql.execute fun s => .ok (s.put key value)

/-- The generation and the sources of a record continue the head. -/
def checkParent (record : SummaryRecord) (parent : Option StoredSummary) : Except Error Unit := do
  ensure (record.generation = (parent.map (·.generation + 1)).getD 1 ∧
      record.parent = parent.map (·.reference))
    ⟨.valueError, "摘要 generation 与 parent 不连续"⟩
  ensure (parent.all (StoredSummary.extendsSources record.sourceMessageIds))
    ⟨.valueError, "后续摘要不能撤回已有来源"⟩

/-- The callback of `publish`. -/
def publishIn (record : SummaryRecord) (reader : Reader) (parent : Option StoredSummary) :
    Sql Error Archive SummaryRecord := do
  match ← Exec.liftExcept (← Sql.query (·.read record.reference)) with
  | some existing =>
      Exec.check (existing = .native record) ⟨.valueError, "同一摘要出处的内容发生漂移"⟩
      return record
  | none =>
      let current ← Exec.liftExcept (← Sql.query (·.head record.sessionId))
      Exec.check (current = parent) ⟨.messageConflict, "摘要 parent 已被其他发布推进"⟩
      Exec.liftExcept (checkParent record parent)
      let _ ← Exec.liftExcept (← Sql.query fun s =>
        summaryRange (s.db.snapshot reader.sessionId) record.sourceMessageIds)
      save (.summary record.reference) (.summary (.native record)) none
      let previous ← Sql.query (·.rows (.head record.sessionId))
      save (.head record.sessionId) (.head record.reference) (previous.map (·.version))
      Sql.execute fun s => .ok { s with published := s.published ++ [record] }
      return record

/-- `SummaryRecords.publish`. -/
def publish (record : SummaryRecord) (reader : Reader) (parent : Option StoredSummary) :
    Sql Error Archive SummaryRecord := do
  Exec.check (reader.sameAuthority = true) ⟨.valueError, "原子提交不能跨存储 authority"⟩
  Exec.check (reader.sessionId = record.sessionId)
    ⟨.valueError, "摘要 reader 与记录必须属于同一 Session"⟩
  Sql.withConnection do
    Sql.begin nestedBegin
    publishIn record reader parent

/-- A connection with no open transaction. -/
def Archive.idle (s : Archive) : Connection Archive := ⟨s, none⟩

/-- What is committed after a publication, accepted or not. -/
def Archive.publish (s : Archive) (record : SummaryRecord) (reader : Reader)
    (parent : Option StoredSummary) : Archive :=
  (Exec.run (Compaction.publish record reader parent) s.idle).2.durable

end MonoAgent.Compaction
