import Mathlib

/-!
# Messages

The immutable facts of a Session log: JSON values, content parts, the four
message bodies and the message record.  What the constructors of the source
refuse is a field here, so a value that the source could not have built cannot
be built either.

JSON objects keep their fields in insertion order, as a Python dict does.
`Json.dumps` is the canonical text of a value: fields sorted by key, no blanks,
text not reduced to ASCII.  A float is the text of its finite decimal
representation, which is all the log ever stores of it.
-/

namespace MonoAgent.Session

/-! ## Errors -/

/-- The exception classes the session layer raises. -/
inductive ErrorKind where
  | valueError | typeError | permissionError | runtimeError | keyError
  | messageConflict | writerExpired
  /-- `sqlite3.OperationalError`. -/
  | operationalError
  /-- `sqlite3.IntegrityError`. -/
  | integrityError
  | staleTask
  | restartPending
  /-- `asyncio.CancelledError`. -/
  | cancelled
  | indexError
  /-- `EventMailIdentityConflict`. -/
  | identityConflict
  | modelError
  /-- `InvalidPage`. -/
  | invalidPage
  | overflowError
  | unicodeEncodeError
deriving DecidableEq, Repr

/-- A raised exception: its class and its text. -/
structure Error where
  kind : ErrorKind
  text : String
deriving DecidableEq, Repr

/-! ## JSON -/

/-- The JSON values the message boundary admits. -/
inductive Json where
  | null
  | bool (b : Bool)
  | int (n : Int)
  /-- A finite float, by its decimal text. -/
  | float (digits : String)
  | str (s : String)
  | arr (items : List Json)
  | obj (fields : List (String × Json))
deriving Repr

/-- The fields of a JSON object. -/
abbrev Fields := List (String × Json)

mutual

/-- Equality of JSON values is decided structurally. -/
def Json.decEq : (a b : Json) → Decidable (a = b)
  | .null, b => by cases b <;> first | exact isTrue rfl | exact isFalse (by simp)
  | .bool x, b => by
      cases b
      case bool y => exact decidable_of_iff (x = y) (by simp)
      all_goals exact isFalse (by simp)
  | .int x, b => by
      cases b
      case int y => exact decidable_of_iff (x = y) (by simp)
      all_goals exact isFalse (by simp)
  | .float x, b => by
      cases b
      case float y => exact decidable_of_iff (x = y) (by simp)
      all_goals exact isFalse (by simp)
  | .str x, b => by
      cases b
      case str y => exact decidable_of_iff (x = y) (by simp)
      all_goals exact isFalse (by simp)
  | .arr xs, b => by
      cases b
      case arr ys => exact @decidable_of_iff _ (xs = ys) (by simp) (Json.decEqItems xs ys)
      all_goals exact isFalse (by simp)
  | .obj fs, b => by
      cases b
      case obj gs => exact @decidable_of_iff _ (fs = gs) (by simp) (Json.decEqFields fs gs)
      all_goals exact isFalse (by simp)

def Json.decEqItems : (xs ys : List Json) → Decidable (xs = ys)
  | [], [] => isTrue rfl
  | [], _ :: _ => isFalse (by simp)
  | _ :: _, [] => isFalse (by simp)
  | x :: xs, y :: ys =>
      @decidable_of_iff _ (x = y ∧ xs = ys) (by simp)
        (@instDecidableAnd _ _ (Json.decEq x y) (Json.decEqItems xs ys))

def Json.decEqFields : (fs gs : List (String × Json)) → Decidable (fs = gs)
  | [], [] => isTrue rfl
  | [], _ :: _ => isFalse (by simp)
  | _ :: _, [] => isFalse (by simp)
  | (k, x) :: fs, (l, y) :: gs =>
      @decidable_of_iff _ (k = l ∧ x = y ∧ fs = gs) (by simp [and_assoc])
        (@instDecidableAnd _ _ inferInstance
          (@instDecidableAnd _ _ (Json.decEq x y) (Json.decEqFields fs gs)))

end

instance : DecidableEq Json := Json.decEq

/-- The two-byte escapes of `json.dumps`. -/
def escapeChar (c : Char) : String :=
  if c = '"' then "\\\""
  else if c = '\\' then "\\\\"
  else if c = '\n' then "\\n"
  else if c = '\r' then "\\r"
  else if c = '\t' then "\\t"
  else if c.toNat = 8 then "\\b"
  else if c.toNat = 12 then "\\f"
  else if c.toNat < 32 then
    "\\u00" ++ (if c.toNat < 16 then "0" else "1") ++
      String.singleton (Nat.digitChar (c.toNat % 16))
  else String.singleton c

/-- A quoted JSON string, not reduced to ASCII. -/
def quote (s : String) : String :=
  "\"" ++ String.join (s.toList.map escapeChar) ++ "\""

/-- `sort_keys=True`. -/
def sortKeys {α : Type} (fields : List (String × α)) : List (String × α) :=
  fields.insertionSort fun a b => a.1 ≤ b.1

mutual

/-- `json.dumps(value, ensure_ascii=False, sort_keys=True, separators=(",", ":"))`. -/
def Json.dumps : Json → String
  | .null => "null"
  | .bool b => if b then "true" else "false"
  | .int n => toString n
  | .float digits => digits
  | .str s => quote s
  | .arr items => "[" ++ String.intercalate "," (Json.dumpsItems items) ++ "]"
  | .obj fields =>
      "\x7b" ++ String.intercalate ","
        ((sortKeys (Json.dumpsFields fields)).map fun f => quote f.1 ++ ":" ++ f.2) ++ "\x7d"

def Json.dumpsItems : List Json → List String
  | [] => []
  | x :: xs => x.dumps :: Json.dumpsItems xs

def Json.dumpsFields : List (String × Json) → List (String × String)
  | [] => []
  | (k, x) :: fs => (k, x.dumps) :: Json.dumpsFields fs

end

/-- The number of a text of decimal digits. -/
def decimalNat (digits : List Char) : Nat := digits.foldl (fun n c => 10 * n + (c.toNat - 48)) 0

/-- The float next to a number, as a number: 53 bits, ties to even. -/
def roundedNat (n : Nat) : Nat :=
  let unit := 2 ^ (n.size - 53)
  let low := n % unit
  if 2 * low < unit ∨ 2 * low = unit ∧ n / unit % 2 = 0 then n - low else n - low + unit

/-- The integer that a float is, if it is one. -/
def floatInt? (digits : String) : Option Int :=
  let negative := digits.toList.head? = some '-'
  let text := if negative then digits.toList.tail else digits.toList
  let (mantissa, exponent) := text.span (· ≠ 'e')
  let (whole, fraction) := mantissa.span (· ≠ '.')
  let power := decimalNat (exponent.filter Char.isDigit)
  let scale : Int := (if '-' ∈ exponent then -(power : Int) else power) - fraction.tail.length
  let n := decimalNat (whole ++ fraction.tail)
  let signed (k : Nat) : Int := if negative then -(k : Int) else k
  if 0 ≤ scale then some (signed (roundedNat (n * 10 ^ scale.toNat)))
  else if n % 10 ^ (-scale).toNat = 0 then some (signed (roundedNat (n / 10 ^ (-scale).toNat)))
  else none

/-- The integer that a value is equal to: `True == 1 == 1.0`. -/
def Json.integer? : Json → Option Int
  | .bool b => some b.toNat
  | .int n => some n
  | .float digits => floatInt? digits
  | _ => none

mutual

/-- `==` of two values: the order of the fields does not count. -/
def Json.same : Json → Json → Bool
  | .arr xs, .arr ys => Json.sameItems xs ys
  | .obj fs, .obj gs => fs.length = gs.length && Json.sameFields fs gs
  | x, y => x = y || (x.integer?.isSome && x.integer? = y.integer?)

def Json.sameItems : List Json → List Json → Bool
  | [], [] => true
  | x :: xs, y :: ys => x.same y && Json.sameItems xs ys
  | _, _ => false

def Json.sameFields : List (String × Json) → List (String × Json) → Bool
  | [], _ => true
  | (k, x) :: fs, gs => (gs.lookup k).any x.same && Json.sameFields fs gs

end

/-- `MAX_METADATA_BYTES`. -/
def maxMetadataBytes : Nat := 64 * 1024

/-- `freeze_metadata`: a bounded JSON object with non-empty namespaces. -/
def freezeMetadata (value : Fields) : Except Error Fields :=
  if value.any (·.1 = "") then
    .error ⟨.valueError, "消息 metadata 命名空间不能为空"⟩
  else if maxMetadataBytes < (Json.obj value).dumps.utf8ByteSize then
    .error ⟨.valueError, "消息 metadata 超过 64 KiB"⟩
  else .ok value

/-- What `freeze_metadata` returns is what it was given. -/
theorem freezeMetadata_eq {value frozen : Fields} (h : freezeMetadata value = .ok frozen) :
    frozen = value := by
  unfold freezeMetadata at h
  split at h
  · cases h
  · split at h
    · cases h
    · exact (Except.ok.inj h).symm

/-! ## Parts -/

/-- A typed piece of content.  The schema of `value` belongs to the owner of
`kind`. -/
structure ContentPart where
  kind : String
  value : Json
  kind_ok : kind ≠ "" ∧ kind ≠ "tool_call"
deriving DecidableEq

/-- The durable links a content owner declares for a part. -/
structure ContentReferences where
  bindingIds : List String := []
  artifactIds : List String := []
deriving DecidableEq

/-- A tool call, fixed to one binding. -/
structure ToolCall where
  bindingId : String
  arguments : Fields
  binding_ok : bindingId ≠ ""
deriving DecidableEq

/-- The address of a tool call: an Output and a position in it. -/
structure CallRef where
  messageId : String
  partIndex : Nat
deriving DecidableEq, Repr

inductive Part where
  | content (part : ContentPart)
  | call (call : ToolCall)
deriving DecidableEq

/-- Whether a part is a tool call. -/
def Part.isCall : Part → Bool
  | .content _ => false
  | .call _ => true

/-! ## Bodies -/

inductive Finish where
  | «continue» | complete | quiet
deriving DecidableEq, Repr

inductive Outcome where
  | success | denied | error | interrupted
deriving DecidableEq, Repr

inductive Action where
  | pause | resume | abandon | failure
deriving DecidableEq, Repr

structure Input where
  parts : List ContentPart
deriving DecidableEq

/-- A model or program answer.  One that carries a tool call continues. -/
structure Output where
  parts : List Part
  finish : Finish
  finish_ok : finish ≠ .continue → ∀ p ∈ parts, p.isCall = false
deriving DecidableEq

/-- An answer without parts makes no call. -/
theorem Output.finish_nil : Finish.complete ≠ .continue → ∀ p ∈ ([] : List Part), p.isCall = false := by decide

/-- The observation of one tool call.  `legacyUnknown` marks a row that was
stored with the outcome of an older format. -/
structure ToolResult where
  callRef : CallRef
  outcome : Outcome
  parts : List ContentPart
  legacyUnknown : Bool := false
deriving DecidableEq

structure Control where
  action : Action
  throughSeq : Nat
  reason : Option String := none
deriving DecidableEq

inductive Body where
  | input (body : Input)
  | output (body : Output)
  | toolResult (body : ToolResult)
  | control (body : Control)
deriving DecidableEq

/-- The class of a body, for the grants of a writer. -/
inductive BodyType where
  | input | output | toolResult | control
deriving DecidableEq, Repr

def Body.type : Body → BodyType
  | .input _ => .input
  | .output _ => .output
  | .toolResult _ => .toolResult
  | .control _ => .control

/-- The parts of a body that has parts. -/
def Body.parts : Body → List Part
  | .input b => b.parts.map .content
  | .output b => b.parts
  | .toolResult b => b.parts.map .content
  | .control _ => []

/-- The tool calls an Output with identity `messageId` makes. -/
def outputCalls (messageId : String) (body : Output) : List CallRef :=
  body.parts.zipIdx.filterMap fun p => if p.1.isCall then some ⟨messageId, p.2⟩ else none

/-- `isinstance(body, Output) and body.finish != "continue"`. -/
def Body.finishes : Body → Bool
  | .output b => b.finish ≠ .continue
  | _ => false

/-- The prefix an abandon Control closes. -/
def Body.abandons : Body → Option Nat
  | .control b => if b.action = .abandon then some b.throughSeq else none
  | _ => none

/-- The call a ToolResult settles. -/
def Body.settles : Body → Option CallRef
  | .toolResult b => some b.callRef
  | _ => none

/-! ## Messages -/

/-- A point in time, in microseconds. -/
abbrev Instant := Int

/-- An accepted fact.  A Control points strictly before itself. -/
structure Message where
  messageId : String
  sessionId : String
  seq : Nat
  recordedAt : Instant
  author : String
  source : String
  body : Body
  metadata : Fields := []
  control_before : ∀ c, body = .control c → c.throughSeq < seq
deriving DecidableEq

/-- The calls a message makes: none unless it is an Output. -/
def Message.calls (m : Message) : List CallRef :=
  match m.body with
  | .output b => outputCalls m.messageId b
  | _ => []

/-- `Message.__post_init__` over a seq that the log has assigned. -/
def Message.make (messageId sessionId : String) (seq : Nat) (recordedAt : Instant)
    (author source : String) (body : Body) (metadata : Fields) : Except Error Message :=
  if messageId = "" ∨ sessionId = "" ∨ author = "" ∨ source = "" then
    .error ⟨.valueError, "消息身份、Session、作者和来源不能为空"⟩
  else
    match body with
    | .control c =>
        if h : c.throughSeq < seq then
          .ok ⟨messageId, sessionId, seq, recordedAt, author, source, .control c, metadata,
            fun _ hc => by cases hc; exact h⟩
        else .error ⟨.valueError, "Control 只能指向之前的已接纳前缀"⟩
    | .input b => .ok ⟨messageId, sessionId, seq, recordedAt, author, source, .input b, metadata,
        fun _ hc => by cases hc⟩
    | .output b => .ok ⟨messageId, sessionId, seq, recordedAt, author, source, .output b,
        metadata, fun _ hc => by cases hc⟩
    | .toolResult b => .ok ⟨messageId, sessionId, seq, recordedAt, author, source, .toolResult b,
        metadata, fun _ hc => by cases hc⟩

/-- A message that was built has the fields it was built from. -/
theorem Message.make_fields {messageId sessionId : String} {seq : Nat} {recordedAt : Instant}
    {author source : String} {body : Body} {metadata : Fields} {m : Message}
    (h : Message.make messageId sessionId seq recordedAt author source body metadata = .ok m) :
    m.messageId = messageId ∧ m.sessionId = sessionId ∧ m.seq = seq ∧
      m.recordedAt = recordedAt ∧ m.author = author ∧ m.source = source ∧ m.body = body ∧
      m.metadata = metadata := by
  unfold Message.make at h
  split at h
  · cases h
  · split at h
    · split at h
      · cases Except.ok.inj h; simp
      · cases h
    all_goals cases Except.ok.inj h; simp

/-- A message that was built has an identity. -/
theorem Message.make_identity {messageId sessionId : String} {seq : Nat} {recordedAt : Instant}
    {author source : String} {body : Body} {metadata : Fields} {m : Message}
    (h : Message.make messageId sessionId seq recordedAt author source body metadata = .ok m) :
    m.messageId ≠ "" := by
  rw [(Message.make_fields h).1]
  unfold Message.make at h
  split at h
  · cases h
  · next hempty => exact fun hid => hempty (Or.inl hid)

/-! ## Calls of an Output -/

theorem mem_outputCalls {messageId : String} {body : Output} {ref : CallRef} :
    ref ∈ outputCalls messageId body ↔
      ref.messageId = messageId ∧ ∃ c, body.parts[ref.partIndex]? = some (.call c) := by
  unfold outputCalls
  simp only [List.mem_filterMap, Prod.exists, List.mem_zipIdx_iff_getElem?]
  constructor
  · rintro ⟨p, i, hp, hif⟩
    cases p with
    | content part => simp [Part.isCall] at hif
    | call c =>
        simp only [Part.isCall, if_true, Option.some.injEq] at hif
        subst hif
        exact ⟨rfl, c, hp⟩
  · rintro ⟨hid, c, hc⟩
    exact ⟨.call c, ref.partIndex, hc, by simp [Part.isCall, ← hid]⟩

/-- A finishing Output makes no call. -/
theorem outputCalls_of_finish {messageId : String} {body : Output}
    (h : body.finish ≠ .continue) : outputCalls messageId body = [] := by
  refine List.eq_nil_iff_forall_not_mem.mpr fun ref hmem => ?_
  obtain ⟨_, c, hc⟩ := mem_outputCalls.mp hmem
  have hfalse := body.finish_ok h _ (List.mem_of_getElem? hc)
  simp [Part.isCall] at hfalse

theorem Message.mem_calls {m : Message} {ref : CallRef} :
    ref ∈ m.calls ↔ ref.messageId = m.messageId ∧
      ∃ b c, m.body = .output b ∧ b.parts[ref.partIndex]? = some (.call c) := by
  unfold Message.calls
  split
  · next b hb => rw [mem_outputCalls]; simp [hb]
  · next hb =>
      constructor
      · intro h; cases h
      · rintro ⟨_, b, _, hb', _⟩; exact absurd hb' (hb b)

/-- The calls of a message are distinct positions in it. -/
theorem Message.nodup_calls (m : Message) : m.calls.Nodup := by
  unfold Message.calls
  split
  · next b hb =>
      rw [outputCalls, List.nodup_iff_pairwise_ne, List.pairwise_filterMap]
      have hpos : b.parts.zipIdx.Pairwise fun p q => p.2 ≠ q.2 := by
        have hnodup : (b.parts.zipIdx.map Prod.snd).Nodup := by
          rw [List.zipIdx_map_snd]
          exact List.nodup_range'
        exact List.pairwise_map.mp hnodup
      refine hpos.imp fun {p q} hne x hx y hy hxy => hne ?_
      obtain ⟨_, hx⟩ := Option.ite_none_right_eq_some.mp hx
      obtain ⟨_, hy⟩ := Option.ite_none_right_eq_some.mp hy
      have href := (Option.some.inj hx).trans (hxy.trans (Option.some.inj hy).symm)
      exact congrArg CallRef.partIndex href
  · exact List.nodup_nil

/-- A message that makes a call is not a finishing Output, an abandon or a
result. -/
theorem Message.calls_eq_nil {m : Message}
    (h : m.body.finishes = true ∨ m.body.abandons.isSome ∨ m.body.settles.isSome) :
    m.calls = [] := by
  unfold Message.calls
  split
  · next b hb =>
      rw [hb] at h
      simp only [Body.finishes, Body.abandons, Body.settles, decide_eq_true_eq,
        Option.isSome_none, Bool.false_eq_true, or_false] at h
      exact outputCalls_of_finish h
  · rfl

end MonoAgent.Session
