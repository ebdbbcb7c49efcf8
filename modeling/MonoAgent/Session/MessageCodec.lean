import MonoAgent.Session.Message

/-!
# The stored text of a body

`encodeBody` is the canonical text of a message body.  A result read from a row
of the older format keeps its outcome `unknown`; such a body can be stored again
but not for the first time.
-/

namespace MonoAgent.Session

def Finish.text : Finish → String
  | .continue => "continue"
  | .complete => "complete"
  | .quiet => "quiet"

def Outcome.text : Outcome → String
  | .success => "success"
  | .denied => "denied"
  | .error => "error"
  | .interrupted => "interrupted"

def Action.text : Action → String
  | .pause => "pause"
  | .resume => "resume"
  | .abandon => "abandon"
  | .failure => "failure"

def partToDict : Part → Json
  | .content p => .obj [("kind", .str p.kind), ("value", p.value)]
  | .call c => .obj [("kind", .str "tool_call"), ("binding_id", .str c.bindingId),
      ("arguments", .obj c.arguments)]

/-- `body_to_dict`. -/
def bodyToDict (body : Body) : Fields :=
  let parts := Json.arr (body.parts.map partToDict)
  match body with
  | .control b => [("kind", .str "control"), ("action", .str b.action.text),
      ("through_seq", .int b.throughSeq), ("reason", b.reason.elim .null .str)]
  | .input _ => [("kind", .str "input"), ("parts", parts)]
  | .output b => [("kind", .str "output"), ("parts", parts), ("finish", .str b.finish.text)]
  | .toolResult b => [("kind", .str "tool_result"), ("parts", parts),
      ("outcome", .str b.outcome.text),
      ("call_ref", .obj [("message_id", .str b.callRef.messageId),
        ("part_index", .int b.callRef.partIndex)])]

/-- `body._legacy_unknown`. -/
def Body.legacyUnknown : Body → Bool
  | .toolResult b => b.legacyUnknown
  | _ => false

/-- The text a row holds for a body. -/
def bodyText (body : Body) : String :=
  let data := bodyToDict body
  (Json.obj (if body.legacyUnknown then
    data.map fun f => if f.1 = "outcome" then (f.1, .str "unknown") else f else data)).dumps

/-- `encode_body`. -/
def encodeBody (body : Body) (allowLegacy : Bool := true) : Except Error String :=
  if body.legacyUnknown ∧ ¬ allowLegacy then
    .error ⟨.valueError, "旧 unknown 工具结果只能重放已有消息，不能作为新消息写入"⟩
  else .ok (bodyText body)

end MonoAgent.Session
