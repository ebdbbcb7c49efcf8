import MonoAgent.Lib.Json
import MonoAgent.Profiles.Draft

/-!
# The store of the profiles

`MarkdownProfileStore` keeps receipts in a table and the two profiles in files.  A receipt is
committed and a file replaced in separate steps, each a `write` here; the process may die
before any of them.  A file has the text that was written; what is read of it has its line ends
translated.
-/

namespace MonoAgent.Profiles

open MonoAgent.Lib

/-! ## Receipts and files -/

/-- The kinds of the receipts of a draft. -/
inductive Kind where
  | model
  | order
  | draft (document : Document)
  | backup (document : Document)
  | applied (document : Document)
deriving DecidableEq, Repr

def Document.name : Document → String
  | .memory => "memory"
  | .self => "self"

/-- The name of the file. -/
def Document.fileName : Document → String
  | .memory => "MEMORY.md"
  | .self => "SELF.md"

def Kind.name : Kind → String
  | .model => "markdown_profile_model_v1"
  | .order => "markdown_projection_order_v1"
  | .draft d => "markdown_" ++ d.name ++ "_draft_v1"
  | .backup d => "markdown_profile_" ++ d.name ++ "_backup_v1"
  | .applied d => "markdown_" ++ d.name ++ "_applied_v1"

/-- A row of `consolidation_writes`. -/
structure Receipt where
  sourceRef : String
  kind : Kind
  payload : Doc
  doneAt : Nat

structure Store where
  receipts : List Receipt := []
  /-- What was written to MEMORY.md. -/
  memory : String
  /-- What was written to SELF.md. -/
  self : String
  now : Nat := 0
  /-- PENDING.md, PENDING.snapshot.md and PENDING.retired.md, when they exist. -/
  pending : Option String := none
  snapshot : Option String := none
  retired : Option String := none
  /-- The receipt `legacy_pending_source_v1`: the queue and its snapshot. -/
  migration : Option (String × String) := none
  /-- The receipt `legacy_pending_retired_v1`: the source of the queue. -/
  retirement : Option String := none

namespace Store

def file (p : Store) : Document → String
  | .memory => p.memory
  | .self => p.self

/-- `read_memory` and `read_self`. -/
def read (p : Store) (document : Document) : String := translate (p.file document)

def replace (p : Store) (document : Document) (content : String) : Store :=
  match document with
  | .memory => { p with memory := content }
  | .self => { p with self := content }

def receipt? (p : Store) (sourceRef : String) (kind : Kind) : Option Doc :=
  (p.receipts.find? fun r => r.sourceRef = sourceRef ∧ r.kind = kind).map Receipt.payload

/-- `is_applied`. -/
def isApplied (p : Store) (sourceRef : String) : Bool :=
  (p.receipt? sourceRef (.applied .memory)).isSome && (p.receipt? sourceRef (.applied .self)).isSome

end Store

/-! ## Calls -/

inductive Failure where
  | valueError (text : String)
  /-- A `ValueError` whose text ends with the facts. -/
  | removedFacts (text : String) (removed : List String)
  | unicodeEncodeError
  | runtimeError (text : String)
  /-- `json.dumps` has no text for a payload. -/
  | typeError
  /-- The process dies. -/
  | crash
deriving DecidableEq, Repr

/-- A call in progress. -/
structure Call where
  store : Store
  /-- The writes before the process dies. -/
  crash : Option Nat := none
  /-- The seconds of the writes to come; when they run out the clock stands still. -/
  clock : List Nat := []

/-- One durable write, unless the process dies before it. -/
def write (f : Store → Store) : Exec Failure Call Unit := fun c =>
  let store := f { c.store with now := c.clock.headD c.store.now }
  match c.crash with
  | none => (.ok (), { store, clock := c.clock.tail })
  | some 0 => (.error .crash, c)
  | some (n + 1) => (.ok (), { store, crash := some n, clock := c.clock.tail })

abbrev Payload := Dict Key PyValue

/-- `_read_receipt`. -/
def readReceipt (sourceRef : String) (kind : Kind) : Exec Failure Call (Option Payload) := do
  let row ← Exec.read fun c => c.store.receipt? sourceRef kind
  match row.map load with
  | none => pure none
  | some (.dict payload) => pure (some payload)
  | some _ => throw (.valueError ("Markdown profile receipt schema 无效: " ++ sourceRef ++ "/" ++ kind.name))

/-- `_write_once`. -/
def writeOnce (sourceRef : String) (kind : Kind) (payload : Payload) : Exec Failure Call Unit :=
  match dump (.dict payload) with
  | none => throw .typeError
  | some encoded => do
      let row ← Exec.read fun c => c.store.receipt? sourceRef kind
      match row with
      | some stored =>
          Exec.check (stored = encoded)
            (.valueError ("Markdown profile receipt 内容冲突: " ++ sourceRef ++ "/" ++ kind.name))
      | none => write fun p => { p with receipts := p.receipts ++ [⟨sourceRef, kind, encoded, p.now⟩] }

/-- `_required_string`. -/
def requiredString (payload : Payload) (name : String) : Exec Failure Call String :=
  match field payload name with
  | some (.str s) => pure s
  | _ => throw (.valueError ("Markdown profile draft 缺少字符串字段: " ++ name))

variable (digest : String → String)

/-- The receipt of a draft for one document. -/
def documentDraft (before after : String) : Payload :=
  [(.str "before", .str before), (.str "before_digest", .str (digest before)), (.str "after", .str after),
    (.str "after_digest", .str (digest after))]

def beforeKey (document : Document) : String := document.name ++ "_before"

def writeDocumentDraft (sourceRef : String) (payload : Payload) (document : Document) : Exec Failure Call Unit := do
  let before ← requiredString payload (beforeKey document)
  let after ← requiredString payload document.name
  writeOnce sourceRef (.draft document) (documentDraft digest before after)

/-- `_write_document_drafts`. -/
def writeDocumentDrafts (sourceRef : String) (payload : Payload) : Exec Failure Call Unit := do
  writeDocumentDraft digest sourceRef payload .memory
  writeDocumentDraft digest sourceRef payload .self

/-- `_backup`. -/
def backup (document : Document) (content sourceRef : String) : Exec Failure Call Unit :=
  writeOnce sourceRef (.backup document) [(.str "content", .str content), (.str "digest", .str (digest content))]

/-- `_apply_document` with the receipt of its draft. -/
def installDocument (sourceRef : String) (document : Document) (draft : Payload) : Exec Failure Call Unit := do
  let before ← requiredString draft "before"
  let after ← requiredString draft "after"
  let beforeDigest ← requiredString draft "before_digest"
  let afterDigest ← requiredString draft "after_digest"
  Exec.check (digest before = beforeDigest ∧ digest after = afterDigest)
    (.valueError ("Markdown " ++ document.name ++ " draft digest 无效"))
  let current ← Exec.read fun c => c.store.read document
  Exec.check (digest current = beforeDigest ∨ digest current = afterDigest)
    (.runtimeError (document.fileName ++ " 在 profile projection 期间发生并发变化"))
  backup digest document before sourceRef
  if digest current ≠ afterDigest then write fun p => p.replace document after
  writeOnce sourceRef (.applied document) [(.str "digest", .str afterDigest)]

/-- `_apply_document`. -/
def applyDocument (sourceRef : String) (document : Document) : Exec Failure Call Unit := do
  let applied ← readReceipt sourceRef (.applied document)
  if applied.isNone then
    let draft ← readReceipt sourceRef (.draft document)
    match draft with
    | none => throw (.runtimeError ("Markdown " ++ document.name ++ " draft 缺失: " ++ sourceRef))
    | some draft => installDocument digest sourceRef document draft

/-- `apply_pending`. -/
def applyPending (sourceRef : String) : Exec Failure Call Unit := do
  let draft ← readReceipt sourceRef .model
  match draft with
  | none => throw (.runtimeError ("Markdown 已准备文档缺少完整 model draft: " ++ sourceRef))
  | some draft => do
      writeDocumentDrafts digest sourceRef draft
      applyDocument digest sourceRef .memory
      applyDocument digest sourceRef .self

/-- `apply_draft`. -/
def applyDraft (sourceRef : String) (payload : Payload) : Exec Failure Call Unit := do
  writeDocumentDrafts digest sourceRef payload
  applyPending digest sourceRef

/-- The place of a source among those of its session. -/
structure Order where
  sessionKey : String
  generation : Nat
  named : sessionKey ≠ ""

def Order.payload (o : Order) : Payload :=
  [(.str "session_key", .str o.sessionKey), (.str "generation", .int o.generation)]

/-- `write_draft`. -/
def writeDraft (sourceRef : String) (payload : Payload) (order : Order) : Exec Failure Call Unit := do
  writeOnce sourceRef .model payload
  writeOnce sourceRef .order order.payload
  writeDocumentDrafts digest sourceRef payload

/-! ## Drafts as payloads -/

def citedPayload (cited : Dict String (List String)) : PyValue :=
  .dict (cited.map fun e => (.str e.1, .list (e.2.map .str)))

def evidencePayload (e : Evidence String) : PyValue :=
  .dict [(.str "memory", citedPayload e.memory), (.str "self", citedPayload e.self)]

def Draft.payload (d : Draft) : Payload :=
  (.str "version", .int d.version) :: (d.evidence.map fun e => (.str "evidence", evidencePayload e)).toList ++
  [(.str "memory", .str d.memory), (.str "self", .str d.self), (.str "memory_before", .str d.memoryBefore),
    (.str "self_before", .str d.selfBefore), (.str "memory_before_digest", .str (digest d.memoryBefore)),
    (.str "self_before_digest", .str (digest d.selfBefore)), (.str "memory_after_digest", .str (digest d.memory)),
    (.str "self_after_digest", .str (digest d.self))]

/-! ## What is pending -/

/-- A draft that is to be applied. -/
structure Pending where
  position : Nat
  sessionKey : String
  generation : Nat
  sourceRef : String

def Store.draftRows (p : Store) : List (Nat × String) :=
  ((p.receipts.filter fun r => r.kind = .draft .memory ∨ r.kind = .draft .self).map
    fun r => (r.doneAt, r.sourceRef)).dedup.insertionSort fun a b => a.1 < b.1 ∨ a.1 = b.1 ∧ a.2 ≤ b.2

def orderFields (payload : Payload) : Option (String × Nat) :=
  match field payload "session_key", field payload "generation" with
  | some (.str sessionKey), some (.int (.ofNat generation)) =>
      if sessionKey ≠ "" then some (sessionKey, generation) else none
  | _, _ => none

/-- The rows whose documents are not both applied, with the order receipt of their source. -/
def readPending : Nat → List (Nat × String) → Exec Failure Call (List Pending)
  | _, [] => pure []
  | position, (_, sourceRef) :: rest => do
      let applied ← Exec.read fun c => c.store.isApplied sourceRef
      if applied then readPending (position + 1) rest
      else
        let order ← readReceipt sourceRef .order
        match order.map orderFields with
        | none => throw (.runtimeError ("Markdown draft 缺少 durable generation: " ++ sourceRef))
        | some none => throw (.valueError ("Markdown draft durable generation 无效: " ++ sourceRef))
        | some (some (sessionKey, generation)) => do
            let others ← readPending (position + 1) rest
            return ⟨position, sessionKey, generation, sourceRef⟩ :: others

abbrev Queues := Dict String (List Pending)

/-- Every session has a queue, in the order of the generations. -/
def buildQueues (pending : List Pending) : Queues :=
  (pending.foldl (fun (queues : Queues) item =>
    queues.set item.sessionKey ((queues.get? item.sessionKey).getD [] ++ [item])) []).map
      fun q => (q.1, q.2.insertionSort fun a b => a.generation ≤ b.generation)

/-- The position at the head of a queue. -/
def headPosition (q : String × List Pending) : Nat := q.2.head?.elim 0 Pending.position

def firstQueue : Queues → Option (String × List Pending)
  | [] => none
  | q :: rest =>
      match firstQueue rest with
      | none => some q
      | some best => if headPosition best < headPosition q then some best else some q

/-- Takes the head of the queue whose head comes first, as often as there are items. -/
def drainQueues : Nat → Queues → List String
  | 0, _ => []
  | n + 1, queues =>
      match firstQueue queues with
      | some (key, item :: rest) =>
          item.sourceRef :: drainQueues n (if rest = [] then Dict.pop queues key else queues.set key rest)
      | _ => []

/-- `pending_source_refs`. -/
def pendingSourceRefs : Exec Failure Call (List String) := do
  let rows ← Exec.read fun c => c.store.draftRows
  let pending ← readPending 0 rows
  return drainQueues pending.length (buildQueues pending)

/-- The drafts that are pending, at a start and before a projection. -/
def recover : Exec Failure Call Unit := do
  let sources ← pendingSourceRefs
  sources.forM (applyPending digest)

/-! ## Drafts that were stored -/

/-- What the checks raise. -/
def DraftError.failure : DraftError → Failure
  | .invalidDraft text => .valueError text
  | .removedFacts text removed => .removedFacts text removed
  | .valueError text => .valueError text
  | .unicodeEncodeError => .unicodeEncodeError

def raise {α : Type} (x : Except DraftError α) : Exec Failure Call α :=
  Exec.liftExcept (x.mapError DraftError.failure)

def stringOf : PyValue → Option String
  | .str s => some s
  | _ => none

def entryOf : Key × PyValue → Option (String × List String)
  | (.str line, .list ids) => (ids.mapM stringOf).map (line, ·)
  | _ => none

/-- The cited entries of a document. -/
def citedOf : PyValue → Option (Dict String (List String))
  | .dict items => items.mapM entryOf
  | _ => none

def evidenceOf (payload : Payload) : Option (Evidence String) :=
  match field payload "evidence" with
  | some (.dict documents) =>
      if documents.length = 2 then
        (field documents "memory").bind citedOf |>.bind fun memory =>
          ((field documents "self").bind citedOf).map fun self => { memory, self }
      else none
  | _ => none

/-- The draft that a payload holds. -/
def draftOf (payload : Payload) : Except DraftError Draft :=
  match field payload "memory", field payload "self", field payload "memory_before",
      field payload "self_before" with
  | some (.str memory), some (.str self), some (.str memoryBefore), some (.str selfBefore) =>
      .ok { version := if field payload "version" matches some (.int 1) then 1 else 2,
            evidence := evidenceOf payload, memory, self, memoryBefore, selfBefore }
  | _, _, _, _ => invalid "Markdown profile draft schema 无效"

/-- `check_draft` of a payload. -/
def checkPayload (payload : Payload) : Except DraftError Unit := do
  let draft ← draftOf payload
  checkDraft draft

/-- The checks of the version and of the evidence in `project`. -/
def checkVersion (payload : Payload) (sources : List Source) : Except DraftError Unit :=
  match field payload "version" with
  | some (.int 2) => do
      let draft ← draftOf payload
      checkEvidence draft sources
  | some (.int 1) => .ok ()
  | _ => .error (.valueError "不支持的 Markdown 草稿版本")

/-! ## Projections -/

/-- What `project` finds out about an Output: the summary it used, its place, the batches
of messages with the answers of the model, and the messages that may be cited. -/
structure Projection where
  sourceRef : String
  order : Order
  batches : List Batch
  sources : List Source

/-- `project` for an Output with a summary. -/
def project (a : Projection) : Exec Failure Call Unit := do
  recover digest
  let memory ← Exec.read fun c => c.store.read .memory
  let self ← Exec.read fun c => c.store.read .self
  let applied ← Exec.read fun c => c.store.isApplied a.sourceRef
  if applied then pure ()
  else
    let stored ← readReceipt a.sourceRef .model
    if a.batches = [] then pure ()
    else
      let payload ←
        match stored with
        | some payload => pure payload
        | none => do
            let draft ← raise (prepareProfileDraft a.batches memory self)
            pure (draft.payload digest)
      raise (checkVersion payload a.sources)
      writeDraft digest a.sourceRef payload a.order
      raise (checkPayload payload)
      applyDraft digest a.sourceRef payload

/-! ## The retired queue -/

/-- The migration receipt as it is encoded. -/
def migrationText (m : String × String) : String :=
  ((dump (.dict [(.str "version", .int 1), (.str "pending", .str m.1), (.str "pending_digest", .str (digest m.1)),
    (.str "snapshot", .str m.2), (.str "snapshot_digest", .str (digest m.2))])).getD .null).text

def legacyRef (m : String × String) : String := "legacy-pending:" ++ digest (migrationText digest m)

def legacyOrder : Order := ⟨"legacy-pending", 0, by decide⟩

/-- The text of PENDING.retired.md, with a line for each member. -/
def archiveText (m : String × String) : String :=
  let members : List (String × Doc) := [("pending", .str m.1), ("pending_digest", .str (digest m.1)),
    ("snapshot", .str m.2), ("snapshot_digest", .str (digest m.2)), ("source_ref", .str (legacyRef digest m)),
    ("version", .int 1)]
  "\x7b\n" ++ ",\n".intercalate (members.map fun e => "  " ++ (Doc.str e.1).text ++ ": " ++ e.2.text) ++ "\n\x7d\n"

/-- The draft of the queue is written, when it is new, and applied. -/
def migrateDraft (m : String × String) : Exec Failure Call Unit := do
  let applied ← Exec.read fun c => c.store.isApplied (legacyRef digest m)
  if applied then pure ()
  else
    let stored ← readReceipt (legacyRef digest m) .model
    let payload ←
      match stored with
      | some payload => pure payload
      | none => do
          let memory ← Exec.read fun c => c.store.read .memory
          let self ← Exec.read fun c => c.store.read .self
          let draft ← raise (prepareLegacyDraft ("\n".intercalate ([m.2, m.1].filter (· ≠ ""))) memory self)
          writeDraft digest (legacyRef digest m) (draft.payload digest) legacyOrder
          pure (draft.payload digest)
    raise (checkPayload payload)
    applyDraft digest (legacyRef digest m) payload

/-- The queue files are emptied and their texts kept in the archive. -/
def retireQueue (m : String × String) : Exec Failure Call Unit := do
  let retired ← Exec.read fun c => c.store.retired
  Exec.check (retired.all fun text => translate text = archiveText digest m)
    (.runtimeError "PENDING retired archive 内容冲突")
  let pending ← Exec.read fun c => (c.store.pending.map translate).getD ""
  let snapshot ← Exec.read fun c => (c.store.snapshot.map translate).getD ""
  Exec.check (pending = "" ∨ pending = m.1)
    (.runtimeError "PENDING.md 在退休 receipt 后出现新内容，拒绝清空")
  Exec.check (snapshot = "" ∨ snapshot = m.2)
    (.runtimeError "PENDING.snapshot.md 在退休 receipt 后出现新内容，拒绝清空")
  write fun p => { p with retired := some (archiveText digest m) }
  write fun p => { p with pending := some "" }
  write fun p => { p with snapshot := some "" }
  let retirement ← Exec.read fun c => c.store.retirement
  match retirement with
  | some sourceRef =>
      Exec.check (sourceRef = legacyRef digest m)
        (.valueError "Markdown profile receipt 内容冲突: legacy-pending-migration-v1/legacy_pending_retired_v1")
  | none => write fun p => { p with retirement := some (legacyRef digest m) }

/-- `_migrate_pending`. -/
def migratePending : Exec Failure Call Unit := do
  let migration ← Exec.read fun c => c.store.migration
  match migration with
  | some m => do
      migrateDraft digest m
      retireQueue digest m
  | none => do
      let pending ← Exec.read fun c => (c.store.pending.map translate).getD ""
      let snapshot ← Exec.read fun c => (c.store.snapshot.map translate).getD ""
      if pending = "" ∧ snapshot = "" then pure ()
      else do
        write fun p => { p with migration := some (pending, snapshot) }
        migrateDraft digest (pending, snapshot)
        retireQueue digest (pending, snapshot)

/-- `start_store`. -/
def startStore : Exec Failure Call Unit := do
  recover digest
  migratePending digest

end MonoAgent.Profiles
