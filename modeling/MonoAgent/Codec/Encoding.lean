import MonoAgent.Codec.Bodies

/-!
# The text of a body

`encodeBody` writes a body as JSON with sorted keys, `decodeBody` reads such a text: it takes
exactly the fields of the body's kind and leaves what they may hold to the constructors.
`limit` is the number of digits that integers may have when they are converted, zero when
there is no limit.
-/

namespace MonoAgent.Codec

open Lib Session
open JsonValue (all)
open JsonText (fits loads)

variable {F : Type} {fl : FloatText F} (limit : Nat)

/-! ## Writing -/

/-- An item of `parts`. -/
def Part.toDict : Part fl → Dict Text (JsonValue F)
  | .call c => [(text "kind", .str (text "tool_call")), (text "binding_id", .str c.bindingId),
      (text "arguments", .obj c.arguments)]
  | .content p => [(text "kind", .str p.kind), (text "value", p.value)]

/-- `parts` of a body. -/
def partsValue (parts : List (Part fl)) : JsonValue F := .arr (parts.map fun p => .obj p.toDict)

/-- `body_to_dict`. -/
def bodyToDict : Body fl → Dict Text (JsonValue F)
  | .control c => [(text "kind", .str (text "control")), (text "action", .str (text c.action.text)),
      (text "through_seq", .int c.throughSeq), (text "reason", c.reason.elim .null .str)]
  | .input b => [(text "kind", .str (text "input")), (text "parts", partsValue (b.parts.map .content))]
  | .output b => [(text "kind", .str (text "output")), (text "parts", partsValue b.parts),
      (text "finish", .str (text b.finish.text))]
  | .toolResult b => [(text "kind", .str (text "tool_result")),
      (text "parts", partsValue (b.parts.map .content)), (text "outcome", .str (text b.outcome.text)),
      (text "call_ref", .obj [(text "message_id", .str b.callRef.messageId),
        (text "part_index", .int b.callRef.partIndex)])]

/-- What one value must be to have a text. -/
def writable (fl : FloatText F) : JsonValue F → Bool
  | .int n => fits limit n
  | .float x => fl.finite x
  | _ => true

/-- `json.dumps(value, ensure_ascii=False, sort_keys=True, separators=(",", ":"),
allow_nan=False)`. -/
def dumps (fl : FloatText F) (v : JsonValue F) : Except Error Text :=
  if all (writable limit fl) v then .ok (v.sorted.text fl)
  else .error ⟨.valueError, "Exceeds the limit for integer string conversion"⟩

def Body.legacyUnknown : Body fl → Bool
  | .toolResult b => b.legacyUnknown
  | _ => false

/-- What is written: a result that was read as `unknown` is written as it. -/
def stored (body : Body fl) : Dict Text (JsonValue F) :=
  if body.legacyUnknown then (bodyToDict body).set (text "outcome") (.str (text "unknown"))
  else bodyToDict body

/-- `encode_body`. -/
def encodeBody (body : Body fl) (allowLegacy : Bool := true) : Except Error Text :=
  if body.legacyUnknown ∧ ¬ allowLegacy then
    .error ⟨.valueError, "旧 unknown 工具结果只能重放已有消息，不能作为新消息写入"⟩
  else dumps limit fl (.obj (stored body))

/-! ## Reading -/

local instance lawfulName : LawfulBEq Text := inferInstance

/-- `_object`: a mapping with exactly these fields, which are given in their order. -/
def object (fields : List String) : JsonValue F → Except Error (Dict Text (JsonValue F))
  | .obj ms =>
      if (∀ k ∈ Dict.keys ms, k ∈ fields.map text) ∧ ∀ f ∈ fields, text f ∈ Dict.keys ms then .ok ms
      else .error ⟨.valueError, "消息对象字段必须为 ['" ++ String.intercalate "', '" fields ++ "']"⟩
  | _ => .error ⟨.valueError, "消息对象字段必须为 ['" ++ String.intercalate "', '" fields ++ "']"⟩

/-- `data[name]` of a mapping with that field. -/
def field (data : Dict Text (JsonValue F)) (name : String) : Raw F :=
  .of ((data.get? (text name)).getD .null)

/-- `data.get(name) == value` for a text. -/
def hasText (data : Dict Text (JsonValue F)) (name value : String) : Bool :=
  match data.get? (text name) with
  | some (.str s) => s = text value
  | _ => false

/-- `_part`. -/
def part : JsonValue F → Except Error (Part fl)
  | .obj raw =>
      if hasText raw "kind" "tool_call" then do
        let data ← object ["arguments", "binding_id", "kind"] (.obj raw)
        let call ← ToolCall.make (field data "binding_id") (field data "arguments")
        return .call call
      else do
        let data ← object ["kind", "value"] (.obj raw)
        let content ← ContentPart.make (field data "kind") (field data "value")
        return .content content
  | _ => .error ⟨.valueError, "消息 part 必须是对象"⟩

/-- `parts` of a body that was read. -/
def rowParts (row : Dict Text (JsonValue F)) : Except Error (List (Part fl)) :=
  match row.get? (text "parts") with
  | some (.arr vs) => vs.mapM part
  | _ => .error ⟨.valueError, "消息 parts 必须是数组"⟩

def decodeControl (data : JsonValue F) : Except Error (Body fl) := do
  let row ← object ["action", "kind", "reason", "through_seq"] data
  let control ← Control.make (field row "action") (field row "through_seq") (field row "reason")
  return .control control

def decodeInput (data : JsonValue F) : Except Error (Body fl) := do
  let row ← object ["kind", "parts"] data
  let parts ← rowParts row
  let body ← Input.make parts
  return .input body

def decodeOutput (data : JsonValue F) : Except Error (Body fl) := do
  let row ← object ["finish", "kind", "parts"] data
  let parts ← rowParts row
  let body ← Output.make parts (field row "finish")
  return .output body

/-- A result as it is stored in rows of the older format. -/
def ToolResult.old (callRef : CallRef) (parts : List (ContentPart fl)) : ToolResult fl :=
  { callRef, outcome := .error, parts, legacyUnknown := true, legacy_ok := fun _ => rfl }

/-- `object.__setattr__(result, "_legacy_unknown", True)`: the outcome of such a row was
given to the constructor as `error`. -/
def decodeResult (data : JsonValue F) : Except Error (Body fl) := do
  let row ← object ["call_ref", "kind", "outcome", "parts"] data
  let parts ← rowParts row
  let call ← object ["message_id", "part_index"] ((row.get? (text "call_ref")).getD .null)
  let callRef ← CallRef.make (field call "message_id") (field call "part_index")
  let unknown := hasText row "outcome" "unknown"
  let result ← ToolResult.make callRef
    (if unknown then .str (text "error") else field row "outcome") parts
  return .toolResult (if unknown then .old result.callRef result.parts else result)

/-- The fields of a body by its kind. -/
def decodeObject (data : Dict Text (JsonValue F)) : Except Error (Body fl) :=
  if hasText data "kind" "control" then decodeControl (.obj data)
  else if hasText data "kind" "input" then decodeInput (.obj data)
  else if hasText data "kind" "output" then decodeOutput (.obj data)
  else if hasText data "kind" "tool_result" then decodeResult (.obj data)
  else .error ⟨.valueError, "消息 body kind 无效"⟩

/-- `decode_body`. -/
def decodeBody (payload : Text) : Except Error (Body fl) :=
  match loads fl limit payload with
  | none => .error ⟨.valueError, "JSONDecodeError"⟩
  | some (.obj data) => decodeObject data
  | some _ => .error ⟨.valueError, "消息 body 必须是对象"⟩

end MonoAgent.Codec
