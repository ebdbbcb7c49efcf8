import MonoAgent.Lib.Exec
import MonoAgent.Session.Message

/-!
# Model facts

The `model.facts` part an Output keeps for replay, the `model.tool_rejection`
part and the `context.summary` part, as their owners check them.  A part that
passes the check of facts is read as a `Facts`.
-/

namespace MonoAgent.Models

open MonoAgent.Lib MonoAgent.Session

/-! ## Reading JSON -/

/-- A field of an object. -/
def field? (fields : Fields) (name : String) : Option Json := fields.lookup name

/-- Text that is not empty. -/
def nonempty? : Json → Option String
  | .str s => if s = "" then none else some s
  | _ => none

/-- Text or null. -/
def optionalText? : Json → Option (Option String)
  | .null => some none
  | .str s => some (some s)
  | _ => none

def object? : Json → Option Fields
  | .obj fields => some fields
  | _ => none

/-- Both lists have the same members. -/
def sameKeys (fields : Fields) (names : List String) : Bool :=
  (fields.map Prod.fst).all (· ∈ names) ∧ names.all (· ∈ fields.map Prod.fst)

def invalid {α : Type} (text : String) : Except Error α := .error ⟨.valueError, text⟩

/-- What an optional reading found, or a `ValueError`. -/
def expect {α : Type} (found : Option α) (text : String) : Except Error α :=
  match found with
  | some a => .ok a
  | none => invalid text

/-! ## Facts -/

structure Continuation where
  bindingId : String
  payload : Fields
deriving DecidableEq

/-- A call as the model wrote it. -/
structure WireCall where
  name : String
  arguments : Fields
deriving DecidableEq

/-- The value of a checked `model.facts` part. -/
structure Facts where
  callRecordId : String
  /-- The model's identity of each call, by position. -/
  toolIds : List (String × String)
  thinking : Option String
  continuation : Option Continuation
  wireToolCalls : List (String × WireCall) := []
  reminder : Option String := none
deriving DecidableEq

def oldFields : List String := ["call_record_id", "tool_ids", "thinking", "continuation"]

def newFields : List String := oldFields ++ ["wire_tool_calls", "reminder"]

/-- `index.isdecimal() and str(int(index)) == index`: digits, without a leading zero. -/
def isPosition (index : String) : Bool :=
  match index.toList with
  | [] => false
  | ['0'] => true
  | digit :: digits => digit ≠ '0' ∧ (digit :: digits).all (·.isDigit)

def readToolId (entry : String × Json) : Except Error (String × String) := do
  ensure (isPosition entry.1) ⟨.valueError, "模型工具 ID 或位置无效"⟩
  let identity ← expect (nonempty? entry.2) "模型工具 ID 或位置无效"
  return (entry.1, identity)

def readWireCall (entry : String × Json) : Except Error (String × WireCall) := do
  let call ← expect (object? entry.2) "wire 工具调用必须是对象"
  ensure (sameKeys call ["name", "arguments"]) ⟨.valueError, "wire 工具调用字段无效"⟩
  let name ← expect ((field? call "name").bind nonempty?) "wire 工具调用字段无效"
  let arguments ← expect ((field? call "arguments").bind object?) "wire 工具调用字段无效"
  return (entry.1, ⟨name, arguments⟩)

def readContinuation : Json → Except Error (Option Continuation)
  | .null => .ok none
  | .obj fields => do
      ensure (sameKeys fields ["binding_id", "payload"]) ⟨.valueError, "模型 continuation 无效"⟩
      let bindingId ← expect ((field? fields "binding_id").bind nonempty?) "模型 continuation 无效"
      let payload ← expect ((field? fields "payload").bind object?) "模型 continuation 无效"
      return some ⟨bindingId, payload⟩
  | _ => invalid "模型 continuation 无效"

/-- `check_facts`, with the value it has checked. -/
def checkFacts (part : ContentPart) : Except Error Facts := do
  let value ← expect (object? part.value) "model.facts 必须是对象"
  ensure (sameKeys value oldFields ∨ sameKeys value newFields)
    ⟨.valueError, "model.facts 字段无效"⟩
  let callRecordId ← expect ((field? value "call_record_id").bind nonempty?)
    "model.facts 缺少调用记录"
  let ids ← expect ((field? value "tool_ids").bind object?) "模型工具 ID 必须按 Output 位置记录"
  let toolIds ← ids.mapM readToolId
  ensure (toolIds.map Prod.snd).Nodup ⟨.valueError, "同一响应的模型工具 ID 不能重复"⟩
  let (wireToolCalls, reminder) ← match field? value "wire_tool_calls" with
    | none => .ok ([], none)
    | some wire => do
        let wire ← expect ((object? wire).filter fun w =>
          (w.map Prod.fst).all (· ∈ toolIds.map Prod.fst)) "wire 工具调用必须对应实际 ToolCall"
        let calls ← wire.mapM readWireCall
        let reminder ← expect ((field? value "reminder").bind optionalText?)
          "模型请求 reminder 必须是文本或 None"
        .ok (calls, reminder)
  let thinking ← expect ((field? value "thinking").bind optionalText?) "模型思考必须是文本或 None"
  let continuation ← readContinuation ((field? value "continuation").getD .null)
  return { callRecordId, toolIds, thinking, continuation, wireToolCalls, reminder }

/-! ## Other parts -/

/-- A call the model asked for that could not be decoded. -/
structure Rejection where
  name : String
  arguments : Fields
  error : String
deriving DecidableEq

/-- `check_tool_rejection`, with the value it has checked. -/
def checkToolRejection (part : ContentPart) : Except Error Rejection := do
  let value ← expect ((object? part.value).filter (sameKeys · ["name", "arguments", "error"]))
    "模型工具协议拒绝字段无效"
  let name ← expect ((field? value "name").bind nonempty?) "模型工具协议拒绝字段无效"
  let arguments ← expect ((field? value "arguments").bind object?) "模型工具协议拒绝字段无效"
  let error ← expect ((field? value "error").bind nonempty?) "模型工具协议拒绝字段无效"
  return ⟨name, arguments, error⟩

/-- `check_summary`: the reference of the summary an Output has used. -/
def checkSummary (part : ContentPart) : Except Error String := do
  let value ← expect (object? part.value) "context.summary 必须是对象"
  expect (if sameKeys value ["reference"] then (field? value "reference").bind nonempty? else none)
    "context.summary 必须包含唯一的摘要 binding 引用"

end MonoAgent.Models
