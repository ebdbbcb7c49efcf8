import Mathlib
import MonoAgent.Lib.CodePoints
import MonoAgent.Lib.Dict
import MonoAgent.Lib.Exec

/-!
# Drafts of the two profiles

How `prepare_profile_draft` and `_prepare_legacy_draft` make the next texts of MEMORY.md and
SELF.md, and what they refuse.  New entries are single lines, and old text goes through
`splitlines`, so the next texts have no carriage return and are read back as they are written.
The lines of an answer are texts of code points: JSON can hold a surrogate, a document cannot.
-/

namespace MonoAgent.Profiles

open MonoAgent.Lib

inductive Document where
  | memory
  | self
deriving DecidableEq, Repr

inductive DraftError where
  | invalidDraft (text : String)
  /-- `_InvalidDraft` with the facts that a draft leaves out. -/
  | removedFacts (text : String) (removed : List String)
  | valueError (text : String)
  | unicodeEncodeError
deriving DecidableEq, Repr

def invalid {α : Type} (text : String) : Except DraftError α := .error (.invalidDraft text)

/-! ## The two formats -/

/-- `_MEMORY_HEADINGS` without the first. -/
def memorySections : List String := ["## 用户事实", "## 用户偏好", "## 用户明确要求长期记住的关键内容"]

/-- `_MEMORY_HEADINGS`. -/
def memoryHeadings : List String := "# 用户长期记忆" :: memorySections

/-- `_MEMORY_OPTIONAL_HEADING`. -/
def memoryOptionalHeading : String := "## 助手操作上下文"

/-- `_SELF_HEADINGS` without the first. -/
def selfSections : List String := ["## 人格与形象", "## 我对当前用户的理解", "## 我们关系的定义"]

/-- `_SELF_HEADINGS`. -/
def selfHeadings : List String := "# Akashic 的自我认知" :: selfSections

def startsWith (start s : String) : Bool := start.toList.isPrefixOf s.toList

def isFact (line : String) : Bool := startsWith "- " (lstrip line)

def headings (content : String) : List String :=
  ((splitlines content).filter fun line => startsWith "#" (lstrip line)).map strip

def hasFence (content : String) : Bool := decide ("```".toList <:+: content.toList)

def validateMemory (content : String) : Except DraftError Unit :=
  if content = "" then .ok ()
  else if headings content ∉ [memoryHeadings, memoryHeadings ++ [memoryOptionalHeading]] ∨ hasFence content then
    invalid "MEMORY.md 模型输出格式无效"
  else if (splitlines content).any isFact then .ok ()
  else invalid "MEMORY.md 模型输出不包含记忆条目"

/-- The lines behind the heading, up to the next one. -/
def sectionLines (lines : List String) (heading : String) (next : Option String) : List String :=
  let stop := next.elim lines.length fun h => lines.idxOf h
  (lines.take stop).drop (lines.idxOf heading + 1)

def validateSections (lines : List String) : List String → Except DraftError Unit
  | [] => .ok ()
  | heading :: rest =>
      if (sectionLines lines heading rest.head?).any isFact then validateSections lines rest
      else invalid ("SELF.md section 为空: " ++ heading)

def validateSelf (content : String) : Except DraftError Unit :=
  if headings content ≠ selfHeadings ∨ hasFence content then invalid "SELF.md 模型输出格式无效"
  else if selfHeadings.any fun h => h ∉ splitlines content then .error (.valueError "list.index(x): x not in list")
  else validateSections (splitlines content) selfSections

def facts (content : String) : List String := ((splitlines content).filter isFact).map strip

def validatePreservedBullets (before after document : String) : Except DraftError Unit :=
  let removed := ((facts before).filter fun fact => fact ∉ facts after).dedup.insertionSort (· ≤ ·)
  if removed = [] then .ok ()
  else .error (.removedFacts (document ++ " 不得隐式删除既有事实") removed)

/-! ## Drafts -/

/-- The entries that a draft adds to each document, with the messages they rest on. -/
structure Evidence (τ : Type) where
  memory : Dict τ (List String) := []
  self : Dict τ (List String) := []

def Evidence.map {σ τ : Type} (f : σ → τ) (e : Evidence σ) : Evidence τ :=
  { memory := e.memory.map fun c => (f c.1, c.2), self := e.self.map fun c => (f c.1, c.2) }

structure Draft where
  version : Nat
  evidence : Option (Evidence String) := none
  memory : String
  self : String
  memoryBefore : String
  selfBefore : String

/-- A message that a batch draws on. -/
structure Source where
  messageId : String
  isUserInput : Bool

def checkDraft (d : Draft) : Except DraftError Unit := do
  validateMemory d.memory
  validateSelf d.self
  validatePreservedBullets d.memoryBefore d.memory "MEMORY.md"
  validatePreservedBullets d.selfBefore d.self "SELF.md"

/-- The lines of a document that are no headings, each with its heading. -/
def entries (heading : String) : List String → List (String × String)
  | [] => []
  | l :: rest =>
      let line := strip l
      if startsWith "#" line then entries line rest
      else if line = "" then entries heading rest
      else (heading, line) :: entries heading rest

/-- Whether an entry below the heading is a fact about the user. -/
def isUserFact (document : Document) (heading : String) : Bool :=
  match document with
  | .memory => heading ≠ memoryOptionalHeading
  | .self => heading ∈ selfHeadings.drop 2

def checkEntries (document : Document) (cited : Dict String (List String)) (sources : List Source) :
    List (String × String) → Except DraftError Unit
  | [] => .ok ()
  | (heading, line) :: rest => do
      let ids := (cited.get? line).getD []
      if !startsWith "- " line then invalid "Markdown 新内容必须是单行条目"
      else if ids = [] ∨ ids.any fun id => id ∉ sources.map Source.messageId then
        invalid "Markdown 条目必须引用本次实际消息"
      else if isUserFact document heading ∧ ¬ sources.any fun m => m.isUserInput ∧ m.messageId ∈ ids then
        invalid "用户事实必须引用真实用户 Input，不能仅引用助手或后台结果"
      else checkEntries document cited sources rest

def checkEvidenceOf (document : Document) (before after : String) (cited : Dict String (List String))
    (sources : List Source) : Except DraftError Unit := do
  let old := entries "" (splitlines before)
  let added := (entries "" (splitlines after)).filter fun e => e ∉ old
  checkEntries document cited sources added
  if cited.keys.all (· ∈ added.map Prod.snd) ∧ (added.map Prod.snd).all (· ∈ cited.keys) then .ok ()
  else invalid "Markdown evidence 必须与新增条目一一对应"

def checkEvidence (d : Draft) (sources : List Source) : Except DraftError Unit :=
  match d.evidence with
  | none => invalid "Markdown 新条目缺少 evidence"
  | some evidence => do
      checkEvidenceOf .memory d.memoryBefore d.memory evidence.memory sources
      checkEvidenceOf .self d.selfBefore d.self evidence.self sources

/-! ## New entries -/

section Texts

variable {τ : Type} [DecidableEq τ] [Textual τ]

/-- `_append_section_lines`. -/
def appendSectionLines (content : τ) (heading : String) (lines : List τ) : τ :=
  let unique := lines.filter fun line => line ∉ Textual.splitlines content
  if unique = [] then content
  else
    let heading := Textual.literal heading
    let values := Textual.splitlines (Textual.rstrip content)
    let values := if heading ∈ values then values else values ++ [Textual.literal "", heading]
    let start := values.idxOf heading + 1
    let stop := start + (values.drop start).findIdx (Textual.startsWith "#")
    Textual.unlines (values.take stop ++ unique ++ values.drop stop)

/-- What the model adds. -/
structure Addition (τ : Type) where
  document : String
  heading : String
  line : τ
  messageIds : List String

/-- The documents of a batch while its additions are put in. -/
structure Documents (τ : Type) where
  memory : τ
  self : τ
  evidence : Evidence τ := {}

def Documents.map {σ τ : Type} (f : σ → τ) (docs : Documents σ) : Documents τ :=
  { memory := f docs.memory, self := f docs.self, evidence := docs.evidence.map f }

def checkAddition (content : τ) (sections : List String) (a : Addition τ) : Except DraftError Unit :=
  if a.heading ∉ sections then invalid "新增条目 section 必须是目标档案允许的完整二级标题"
  else if ¬ Textual.startsWith "- " a.line ∨ Textual.strip a.line ≠ a.line ∨
      (Textual.splitlines a.line).length ≠ 1 then
    invalid "新增条目 line 必须是以 '- ' 开头的完整单行条目"
  else if a.messageIds = [] then invalid "新增条目 message_ids 必须是非空消息 ID 数组"
  else if a.line ∈ Textual.splitlines content then invalid "additions 不得重复已有条目或本批新增条目"
  else .ok ()

/-- An empty document begins with its headings. -/
def begun (content : τ) : τ :=
  if content = Textual.literal "" then Textual.literal ("\n\n".intercalate memoryHeadings ++ "\n") else content

def addLine (docs : Documents τ) (a : Addition τ) : Except DraftError (Documents τ) :=
  if a.document = "memory" then do
    checkAddition docs.memory (memorySections ++ [memoryOptionalHeading]) a
    return { docs with
      memory := appendSectionLines (begun docs.memory) a.heading [a.line]
      evidence := { docs.evidence with memory := docs.evidence.memory.set a.line a.messageIds } }
  else if a.document = "self" then do
    checkAddition docs.self selfSections a
    return { docs with
      self := appendSectionLines docs.self a.heading [a.line]
      evidence := { docs.evidence with self := docs.evidence.self.set a.line a.messageIds } }
  else invalid "新增条目 document 必须是 memory 或 self"

end Texts

/-- `content_digest` of the two documents, which encodes them.  The cited lines stand in them. -/
def Documents.encode (docs : Documents Text) : Except DraftError (Documents String) :=
  if Encodable docs.memory ∧ Encodable docs.self then .ok (docs.map decode) else .error .unicodeEncodeError

/-- `_check_profile_response`, for an answer with a list of additions. -/
def checkProfileResponse (additions : List (Addition Text)) (sources : List Source)
    (currentMemory currentSelf : String) : Except DraftError (Documents String) := do
  let texts ← additions.foldlM addLine { memory := text currentMemory, self := text currentSelf }
  let docs ← texts.encode
  let draft : Draft :=
    { version := 2, evidence := some docs.evidence, memory := docs.memory, self := docs.self,
      memoryBefore := currentMemory, selfBefore := currentSelf }
  checkDraft draft
  checkEvidence draft sources
  return docs

/-- A batch of messages, and the answer of the model that was accepted for it. -/
structure Batch where
  sources : List Source
  additions : List (Addition Text)

def addBatch (docs : Documents String) (batch : Batch) : Except DraftError (Documents String) := do
  let next ← checkProfileResponse batch.additions batch.sources docs.memory docs.self
  if next.evidence.memory.keys.any (· ∈ docs.evidence.memory.keys) ∨
      next.evidence.self.keys.any (· ∈ docs.evidence.self.keys) then
    .error (.valueError "Markdown 跨批新增条目重复，不能覆盖已有证据")
  else
    return { memory := next.memory, self := next.self,
             evidence := { memory := docs.evidence.memory.update next.evidence.memory,
                           self := docs.evidence.self.update next.evidence.self } }

/-- `prepare_profile_draft`. -/
def prepareProfileDraft (batches : List Batch) (beforeMemory beforeSelf : String) : Except DraftError Draft := do
  let docs ← batches.foldlM addBatch { memory := beforeMemory, self := beforeSelf }
  let draft : Draft :=
    { version := 2, evidence := some docs.evidence, memory := docs.memory, self := docs.self,
      memoryBefore := beforeMemory, selfBefore := beforeSelf }
  checkEvidence draft (batches.flatMap Batch.sources)
  return draft

/-! ## Lines of the retired queue -/

/-- The heading for the tag in front of a line. -/
def headingOfTag (tag : String) : String :=
  if tag = "identity" ∨ tag = "health_long_term" then "## 用户事实"
  else if tag = "preference" then "## 用户偏好"
  else if tag = "agent_context" then memoryOptionalHeading
  else "## 用户明确要求长期记住的关键内容"

/-- The tag of a line such as `- [preference] …`. -/
def tagOf (line : String) : String :=
  if startsWith "- [" line ∧ ']' ∈ line.toList then
    (strip (String.ofList ((line.toList.takeWhile (· ≠ ']')).drop 3))).map Char.toLower
  else ""

/-- A line as an entry below its heading. -/
def legacyEntry (line : String) : String × String :=
  (headingOfTag (tagOf line), if startsWith "- " line then line else "- [legacy_pending] " ++ line)

/-- `_merge_legacy_pending`. -/
def mergeLegacyPending (memory pendingItems : String) : String :=
  if strip pendingItems = "" then memory
  else
    let content := if strip memory = "" then "\n\n".intercalate memoryHeadings ++ "\n" else memory
    let items := (((splitlines pendingItems).map strip).filter (· ≠ "")).map legacyEntry
    let merged := (memorySections ++ [memoryOptionalHeading]).foldl
      (fun content heading =>
        appendSectionLines content heading ((items.filter fun item => item.1 = heading).map Prod.snd)) content
    rstrip merged ++ "\n"

/-- `_prepare_legacy_draft`. -/
def prepareLegacyDraft (pendingItems currentMemory currentSelf : String) : Except DraftError Draft := do
  let memory := mergeLegacyPending currentMemory pendingItems
  validateMemory memory
  validateSelf currentSelf
  return { version := 1, memory := memory, self := currentSelf, memoryBefore := currentMemory, selfBefore := currentSelf }

end MonoAgent.Profiles
