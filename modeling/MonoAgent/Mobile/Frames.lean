import MonoAgent.Lib.Json

/-!
# Event frames

The part of `protocol.py` that an event passes: the identities, the schemas of the events
and `parse_frame` with its limit on the bytes of a frame.
-/

namespace MonoAgent.Mobile

open MonoAgent.Lib

/-- `MAX_JSON_FRAME_BYTES`. -/
def maxJsonFrameBytes : Nat := 256 * 1024

/-! ## Identities -/

def isDigit (c : Char) : Bool := decide ('0' ≤ c ∧ c ≤ '9')

def isUlidChar (c : Char) : Bool :=
  isDigit c || decide ('A' ≤ c ∧ c ≤ 'Z' ∧ c ≠ 'I' ∧ c ≠ 'L' ∧ c ≠ 'O' ∧ c ≠ 'U')

def isHexChar (c : Char) : Bool := isDigit c || decide ('A' ≤ c ∧ c ≤ 'F' ∨ 'a' ≤ c ∧ c ≤ 'f')

def isVariantChar (c : Char) : Bool := decide (c ∈ ['8', '9', 'A', 'B', 'a', 'b'])

def isChar (c d : Char) : Bool := decide (d = c)

/-- Every character is in the class of its place. -/
def matchesClasses : List (Char → Bool) → List Char → Bool
  | [], [] => true
  | p :: ps, c :: cs => p c && matchesClasses ps cs
  | _, _ => false

def ulidClasses : List (Char → Bool) := List.replicate 26 isUlidChar

def uuid7Classes : List (Char → Bool) :=
  List.replicate 8 isHexChar ++ [isChar '-'] ++ List.replicate 4 isHexChar ++ [isChar '-', isChar '7'] ++
    List.replicate 3 isHexChar ++ [isChar '-', isVariantChar] ++ List.replicate 3 isHexChar ++ [isChar '-'] ++
    List.replicate 12 isHexChar

/-- `_FRAME_ID_PATTERN`: a ULID or a UUIDv7. -/
def isFrameId (s : String) : Bool := matchesClasses ulidClasses s.toList || matchesClasses uuid7Classes s.toList

/-- `is_frame_id`. -/
def isFrameIdValue : PyValue → Bool
  | .str s => isFrameId s
  | _ => false

/-! ## Schemas -/

inductive WireError where
  /-- `json.dumps` has no text for a value. -/
  | unencodable
  | mobileGateway (message : String)
  | protocolDecode (message : String)
  /-- The schema refuses the frame. -/
  | validation
deriving DecidableEq

/-- What a frame carries. -/
inductive EventPayload where
  | object (payload : PyValue)
  /-- `DeltaPayload`. -/
  | delta (delta : String) (blockId : Option String) (ordinal : Option Int) (controlTurnId : Option String)

/-- `EventFrame`, of version 1 and kind `event`. -/
structure EventFrame where
  type : String
  id : String
  connectionEpoch : Int
  eventSeq : Int
  sessionId : Option String
  turnId : Option String
  payload : EventPayload

/-- The types of `GenericEvent`. -/
def genericEventTypes : List String :=
  ["session.list", "session.created", "session.updated", "history.page", "turn.started", "react.tool.started",
    "react.tool.completed", "message.final", "turn.output.completed", "turn.interrupted", "attachment.progress",
    "attachment.ready", "connection.degraded", "sync.completed", "sync.reset_required"]

/-- The types of `ThinkingDeltaEvent` and `AnswerDeltaEvent`. -/
def deltaEventTypes : List String := ["react.thinking.delta", "answer.delta"]

/-- A string of `low` to `high` characters. -/
def boundedText (low high : Nat) : PyValue → Option String
  | .str s => if low ≤ s.length ∧ s.length ≤ high then some s else none
  | _ => none

/-- `NonEmptyId | None`, with the default `None`. -/
def optionalId : Option PyValue → Option (Option String)
  | none => some none
  | some .null => some none
  | some v => (boundedText 1 512 v).map some

/-- An integer from `low` on; a Boolean is none. -/
def boundedInt (low : Int) : PyValue → Option Int
  | .int n => if low ≤ n then some n else none
  | _ => none

def optionalOrdinal : Option PyValue → Option (Option Int)
  | none => some none
  | some .null => some none
  | some v => (boundedInt 0 v).map some

def frameId : PyValue → Option String
  | .str s => if isFrameId s then some s else none
  | _ => none

/-- No field but these. -/
def onlyFields (body : Dict Key PyValue) (names : List String) : Bool := body.keys.all fun k => k ∈ names.map Key.str

def deltaPayload : PyValue → Option EventPayload
  | .dict body => do
      guard (onlyFields body ["delta", "block_id", "ordinal", "control_turn_id"])
      let delta ← (field body "delta").bind (boundedText 1 65536)
      let blockId ← optionalId (field body "block_id")
      let ordinal ← optionalOrdinal (field body "ordinal")
      let controlTurnId ← optionalId (field body "control_turn_id")
      guard (blockId.isNone = ordinal.isNone)
      return .delta delta blockId ordinal controlTurnId
  | _ => none

/-- The payload by the type, which is the discriminator. -/
def eventPayload (type : String) (payload : PyValue) : Option EventPayload :=
  if type ∈ deltaEventTypes then deltaPayload payload
  else if type ∈ genericEventTypes then
    match payload with
    | .dict _ => some (.object payload)
    | _ => none
  else none

def textOf : PyValue → Option String
  | .str s => some s
  | _ => none

def isLiteral (literal : String) : PyValue → Bool
  | .str s => decide (s = literal)
  | _ => false

def isOne : PyValue → Bool
  | .int n => decide (n = 1)
  | _ => false

/-- The schema of an event, in the body of a frame. -/
def eventFrame (body : Dict Key PyValue) : Option EventFrame := do
  guard (onlyFields body
    ["v", "kind", "type", "id", "connection_epoch", "event_seq", "session_id", "turn_id", "payload"])
  guard ((field body "v").any isOne)
  guard ((field body "kind").any (isLiteral "event"))
  let type ← (field body "type").bind textOf
  let id ← (field body "id").bind frameId
  let connectionEpoch ← (field body "connection_epoch").bind (boundedInt 1)
  let eventSeq ← (field body "event_seq").bind (boundedInt 1)
  let sessionId ← optionalId (field body "session_id")
  let turnId ← optionalId (field body "turn_id")
  let payload ← (field body "payload").bind (eventPayload type)
  return { type, id, connectionEpoch, eventSeq, sessionId, turnId, payload }

/-- `parse_frame`, for the frames of kind `event`. -/
def parseFrame (d : Doc) : Except WireError EventFrame :=
  if maxJsonFrameBytes < d.size then .error (.protocolDecode "JSON frame 超过 262144 bytes")
  else
    match d.repeated, load d with
    | some key, _ => .error (.protocolDecode ("JSON frame 包含重复字段: " ++ key))
    | none, .dict body =>
        match eventFrame body with
        | some frame => .ok frame
        | none => .error .validation
    | none, _ => .error (.protocolDecode "JSON frame 顶层必须是 object")

theorem parseFrame_eq_ok {d : Doc} {f : EventFrame} :
    parseFrame d = .ok f ↔
      d.size ≤ maxJsonFrameBytes ∧ d.repeated = none ∧ ∃ body, load d = .dict body ∧ eventFrame body = some f := by
  rw [parseFrame]
  split
  · next hlong =>
      constructor
      · intro h
        cases h
      · intro h
        exact absurd h.1 (Nat.not_le_of_lt hlong)
  · next hshort =>
      have hle := Nat.le_of_not_lt hshort
      cases hr : d.repeated with
      | some key => simp
      | none =>
          cases hl : load d with
          | dict body => cases hf : eventFrame body <;> simp [hle, hf]
          | _ => simp

end MonoAgent.Mobile
