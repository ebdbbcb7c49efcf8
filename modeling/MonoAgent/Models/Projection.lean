import Mathlib
import MonoAgent.Lib.Dict
import MonoAgent.Models.Facts
import MonoAgent.Session.MessageCodec

/-!
# The model projection

`render` rebuilds a model request from a log.  Before anything else it decides
which Outputs were abandoned: those of their source that were still open when an
abandon reached them.  Their calls and the results of these are left out.  Every
other call must have a result, and `unsettled` is what `render` raises when one
has none.  Nothing else raises it, so it has a constructor of its own.
-/

namespace MonoAgent.Models

open MonoAgent.Lib MonoAgent.Session

/-! ## Abandoned Outputs -/

/-- The local variables of the first loop of `render`. -/
structure Abandonment where
  /-- The open Outputs of each source. -/
  pending : String → List Message := fun _ => []
  abandoned : List String := []
  abandonedCalls : List CallRef := []

/-- One message of the first loop. -/
def Abandonment.visit (s : Abandonment) (m : Message) : Abandonment :=
  match m.body with
  | .output b =>
      let outputs := if b.finish = .continue then s.pending m.source ++ [m] else []
      { s with pending := Function.update s.pending m.source outputs }
  | .control b =>
      if b.action = .abandon then
        let closed := (s.pending m.source).filter (·.seq ≤ b.throughSeq)
        let outputs := (s.pending m.source).filter (b.throughSeq < ·.seq)
        { pending := Function.update s.pending m.source outputs
          abandoned := s.abandoned ++ closed.map (·.messageId)
          abandonedCalls := s.abandonedCalls ++ closed.flatMap (·.calls) }
      else s
  | _ => s

def abandonment (messages : List Message) : Abandonment := messages.foldl Abandonment.visit {}

/-! ## The rest of `render` -/

/-- What `render` raises. -/
inductive RenderError where
  /-- `模型请求包含未结算的工具调用`. -/
  | unsettled (ref : CallRef)
  | raised (e : Error)
deriving DecidableEq

abbrev Rendered (α : Type) := Except RenderError α

def Rendered.lift {α : Type} (x : Except Error α) : Rendered α := x.mapError .raised

def Rendered.invalid {α : Type} (text : String) : Rendered α :=
  .error (.raised ⟨.valueError, text⟩)

/-- What the call ledger answers for a record. -/
structure Receipt where
  state : String
  bindingId : String

/-- A `MessageProjection`: what it was built with. -/
structure MessageProjection where
  source : String
  /-- `model.descriptor.binding_id`. -/
  modelBinding : String
  renderContent : ContentPart → Except Error (List Json)
  toolName : String → Except Error String
  readCall : String → Except Error Receipt
  keepInputIds : List String := []
  /-- The identity made for a call without facts, a digest of its address. -/
  digest : CallRef → String

structure Request where
  messages : List Json
  continuation : Option Continuation
deriving DecidableEq

mutual

/-- `json.dumps(value, ensure_ascii=False, separators=(",", ":"))`. -/
def dumpsInOrder : Json → String
  | .arr items => "[" ++ String.intercalate "," (dumpsItems items) ++ "]"
  | .obj fields => "\x7b" ++ String.intercalate "," (dumpsFields fields) ++ "\x7d"
  | value => value.dumps

def dumpsItems : List Json → List String
  | [] => []
  | x :: xs => dumpsInOrder x :: dumpsItems xs

def dumpsFields : List (String × Json) → List String
  | [] => []
  | (k, x) :: fs => (quote k ++ ":" ++ dumpsInOrder x) :: dumpsFields fs

end

/-- The parts of one kind. -/
def Output.parts? (b : Output) (kind : String) : List ContentPart :=
  b.parts.filterMap fun
    | .content p => if p.kind = kind then some p else none
    | .call _ => none

/-- The recorded facts of an Output. -/
def recordedFacts (abandoned : List String) (m : Message) : Rendered (Option Facts) :=
  match m.body with
  | .output b =>
      if m.messageId ∈ abandoned then .ok none
      else match Output.parts? b "model.facts" with
        | [] => .ok none
        | [part] => do
            let facts ← Rendered.lift (checkFacts part)
            return some facts
        | _ => Rendered.invalid "同一 Output 出现多个 model.facts"
  | _ => .ok none

/-- The positions of an Output that have a model identity. -/
def callPositions (b : Output) : List String :=
  b.parts.zipIdx.filterMap fun p => match p.1 with
    | .call _ => some (toString p.2)
    | .content c => if c.kind = "model.tool_rejection" then some (toString p.2) else none

/-- The variables of the second loop of `render`. -/
structure Replay where
  facts : Dict String Facts := []
  continuation : Option Continuation := none
  continuationSummary : Option String := none
  continuationSeq : Int := -1
  results : Dict CallRef Message := []

/-- The facts of an Output join the replay. -/
def MessageProjection.replayFacts (p : MessageProjection) (s : Replay) (m : Message) (b : Output)
    (value : Facts) : Rendered Replay := do
  let receipt ← Rendered.lift (p.readCall value.callRecordId)
  if receipt.state ≠ "success" then
    Rendered.invalid "已提交模型事实必须引用成功结算的真实调用"
  else if ¬ ((value.toolIds.map Prod.fst).all (· ∈ callPositions b) ∧
      (callPositions b).all (· ∈ value.toolIds.map Prod.fst)) then
    Rendered.invalid "模型工具 ID 不匹配实际 Output 调用位置"
  else if value.continuation.any (·.bindingId ≠ receipt.bindingId) then
    Rendered.invalid "continuation 不属于记录中的模型"
  else
    let s := { s with facts := s.facts.set m.messageId value }
    if m.source = p.source then
      match Output.parts? b "context.summary" with
      | [] => return { s with
          continuation := value.continuation, continuationSeq := m.seq
          continuationSummary := none }
      | [summary] => do
          let reference ← Rendered.lift (checkSummary summary)
          return { s with
            continuation := value.continuation, continuationSeq := m.seq
            continuationSummary := some reference }
      | _ => Rendered.invalid "同一模型 Output 只能使用一份摘要"
    else return s

/-- One message of the second loop.  Abandoned Outputs have no facts. -/
def MessageProjection.replay (p : MessageProjection) (abandonment : Abandonment)
    (recorded : List (String × Facts)) (s : Replay) (m : Message) : Rendered Replay :=
  match m.body with
  | .input _ => .ok s
  | .control b =>
      .ok (if b.action = .abandon ∧ m.source = p.source then { s with continuation := none } else s)
  | .toolResult b =>
      if b.callRef ∈ abandonment.abandonedCalls then .ok s
      else if (s.results.get? b.callRef).isSome then Rendered.invalid "同一工具调用出现多个结果"
      else .ok { s with results := s.results.set b.callRef m }
  | .output b =>
      match recorded.lookup m.messageId with
      | none => .ok s
      | some value => p.replayFacts s m b value

/-- The variables of the loop over the parts of a message. -/
structure Row where
  blocks : List Json := []
  calls : List Json := []
  observations : List Json := []
  usedResults : List String := []

/-- A tool call in a row. -/
def callRow (identity name : String) (arguments : Fields) : Json :=
  .obj [("id", .str identity), ("type", .str "function"), ("function",
    .obj [("name", .str name), ("arguments", .str (dumpsInOrder (.obj arguments)))])]

def observationRow (identity : String) (blocks : List Json) : Json :=
  .obj [("role", .str "tool"), ("tool_call_id", .str identity), ("content", .arr blocks)]

def textBlock (text : String) : Json := .obj [("type", .str "text"), ("text", .str text)]

/-- What a model is told about a result that is no success. -/
def statusBlocks (outcome : Outcome) : List Json :=
  match outcome with
  | .success => []
  | .denied => [textBlock "工具状态: denied"]
  | _ => [textBlock ("工具状态: " ++ outcome.text ++
      "。原调用可能已经产生效果；先检查当前状态，再决定下一步，不要直接重复执行原操作。")]

/-- `value[key]`. -/
def index? {α : Type} (entries : List (String × α)) (key : String) : Rendered α :=
  match entries.lookup key with
  | some a => .ok a
  | none => .error (.raised ⟨.keyError, key⟩)

/-- A content part of a row. -/
def MessageProjection.renderPart (p : MessageProjection) (abandoned : Bool) (facts : Option Facts)
    (row : Row) (part : ContentPart) (position : Nat) : Rendered Row :=
  if part.kind = "model.tool_rejection" then do
    let rejected ← Rendered.lift (checkToolRejection part)
    if abandoned then return row
    else match facts with
      | none => Rendered.invalid "模型协议拒绝缺少 model.facts"
      | some facts => do
          let identity ← index? facts.toolIds (toString position)
          return { row with
            calls := row.calls ++ [callRow identity rejected.name rejected.arguments]
            observations := row.observations ++
              [observationRow identity [textBlock ("调用未执行：" ++ rejected.error)]] }
  else if part.kind = "model.facts" then .ok row
  else do
    let blocks ← Rendered.lift (p.renderContent part)
    return { row with blocks := row.blocks ++ blocks }

/-- The identity of a call in the request. -/
def MessageProjection.identity (p : MessageProjection) (facts : Option Facts) (ref : CallRef) :
    Rendered String :=
  match facts with
  | some facts => index? facts.toolIds (toString ref.partIndex)
  | none => .ok ("call_" ++ p.digest ref)

/-- A call as the request shows it: as the model wrote it, if that is known. -/
def MessageProjection.written (p : MessageProjection) (facts : Option Facts) (call : ToolCall)
    (position : Nat) : Rendered WireCall :=
  match facts.bind fun f => f.wireToolCalls.lookup (toString position) with
  | some raw => .ok raw
  | none => do
      let name ← Rendered.lift (p.toolName call.bindingId)
      return ⟨name, call.arguments⟩

/-- A tool call of a row: it must have its result. -/
def MessageProjection.renderCall (p : MessageProjection) (facts : Option Facts)
    (results : Dict CallRef Message) (m : Message) (row : Row) (call : ToolCall) (position : Nat) :
    Rendered Row := do
  let ref : CallRef := ⟨m.messageId, position⟩
  let identity ← p.identity facts ref
  let written ← p.written facts call position
  match results.get? ref with
  | none => .error (.unsettled ref)
  | some observation =>
      if observation.seq ≤ m.seq then Rendered.invalid "工具结果不能早于调用"
      else match observation.body with
        | .toolResult result => do
            let blocks ← Rendered.lift (result.parts.mapM p.renderContent)
            return { row with
              calls := row.calls ++ [callRow identity written.name written.arguments]
              observations := row.observations ++
                [observationRow identity (statusBlocks result.outcome ++ blocks.flatten)]
              usedResults := row.usedResults ++ [observation.messageId] }
        | _ => .ok row

/-- One part of a message. -/
def MessageProjection.renderParts (p : MessageProjection) (abandoned : Bool) (facts : Option Facts)
    (results : Dict CallRef Message) (m : Message) (row : Row) (part : Part × Nat) : Rendered Row :=
  match part.1 with
  | .content c => p.renderPart abandoned facts row c part.2
  | .call c => if abandoned then .ok row else p.renderCall facts results m row c part.2

/-- The rows of a finished message. -/
def Row.rows (row : Row) (isInput : Bool) (thinking : Option String) : List Json :=
  if row.blocks = [] ∧ row.calls = [] then []
  else .obj ([("role", .str (if isInput then "user" else "assistant")),
      ("content", .arr row.blocks)] ++
      (if row.calls = [] then [] else [("tool_calls", .arr row.calls)]) ++
      (thinking.elim [] fun t => [("reasoning_content", .str t)])) :: row.observations

/-- One message of the third loop: its rows and the results it has used. -/
def MessageProjection.renderMessage (p : MessageProjection) (afterSeq : Int)
    (abandoned : List String) (replay : Replay) (s : List Json × List String) (m : Message) :
    Rendered (List Json × List String) :=
  if (m.seq : Int) ≤ afterSeq ∧ m.messageId ∉ p.keepInputIds then .ok s
  else if m.body.type = .control ∨ m.body.type = .toolResult then .ok s
  else do
    let facts := replay.facts.get? m.messageId
    let row ← m.body.parts.zipIdx.foldlM
      (p.renderParts (m.messageId ∈ abandoned) facts replay.results m) {}
    let reminder := (facts.bind (·.reminder)).elim [] fun text =>
      [Json.obj [("role", .str "user"), ("content", .str text)]]
    return (s.1 ++ reminder ++ row.rows (m.body.type = .input) (facts.bind (·.thinking)),
      s.2 ++ row.usedResults)

/-- The opaque state a request may continue. -/
def MessageProjection.checkContinuation (p : MessageProjection) (afterSeq : Int)
    (summaryReference : Option String) (fresh : Bool) (s : Replay) :
    Rendered (Option Continuation) :=
  let restart := fresh ∨ (summaryReference.isSome ∧
    (s.continuationSummary ≠ summaryReference ∨ s.continuationSeq ≤ afterSeq))
  match s.continuation with
  | none => .ok none
  | some continuation =>
      if restart then .ok none
      else if continuation.bindingId ≠ p.modelBinding then
        Rendered.invalid "当前模型不能接续另一 binding 的 opaque 状态"
      else if 0 ≤ afterSeq ∧ summaryReference = none then
        Rendered.invalid "当前投影不能证明摘要与 opaque continuation 可共同重放"
      else .ok (some continuation)

/-- The Inputs a request keeps exist, and none is named twice. -/
def MessageProjection.keeps (p : MessageProjection) (messages : List Message) : Bool :=
  p.keepInputIds.Nodup ∧ p.keepInputIds.all fun id => messages.any fun m =>
    m.messageId = id ∧ m.body.type = .input ∧ m.source = p.source

/-- `MessageProjection.render`. -/
def MessageProjection.render (p : MessageProjection) (messages : List Message) (afterSeq : Int)
    (summaryReference : Option String := none) (fresh : Bool := false) : Rendered Request := do
  if ¬ p.keeps messages then
    Rendered.invalid "保留输入必须是当前来源的真实 Input，且不能重复"
  else
    let a := abandonment messages
    let recorded ← messages.mapM fun m => do
      let facts ← recordedFacts a.abandoned m
      return facts.map fun f => (m.messageId, f)
    let replay ← messages.foldlM (p.replay a recorded.reduceOption) {}
    let continuation ← p.checkContinuation afterSeq summaryReference fresh replay
    let rendered ← messages.foldlM (p.renderMessage afterSeq a.abandoned replay) ([], [])
    if replay.results.any fun e => afterSeq < e.2.seq ∧ e.2.messageId ∉ rendered.2 then
      Rendered.invalid "工具结果缺少本次视图中的真实调用"
    else return ⟨rendered.1, continuation⟩

end MonoAgent.Models
