import MonoAgent.Conversation.Source
import MonoAgent.Models.Facts

/-!
# Commands of a conversation

`run_commands` answers the Inputs that are commands.  It first decides which
intents are open (`planCommands`): those saved before and not answered yet, and
one for the latest Input if that is a command.  Then it runs the handler of each
and appends its answer.  The answer to the latest Input closes the source, the
others continue.
-/

namespace MonoAgent.Conversation

open MonoAgent.Lib MonoAgent.Session MonoAgent.Models

/-! ## Intents -/

/-- A `CommandIntent`. -/
structure CommandIntent where
  sessionId : String
  source : String
  inputId : String
  bindingId : String
deriving DecidableEq

namespace CommandIntent

def outputId (i : CommandIntent) : String := "command:" ++ i.bindingId ++ ":" ++ i.inputId

/-- `model_dump`. -/
def dump (i : CommandIntent) : Fields :=
  [("session_id", .str i.sessionId), ("source", .str i.source), ("input_id", .str i.inputId),
    ("binding_id", .str i.bindingId)]

/-- `model_validate`: four fields, each a text that is not empty. -/
def read (value : Fields) : Except Error CommandIntent := do
  let invalid := "CommandIntent"
  ensure (sameKeys value ["session_id", "source", "input_id", "binding_id"]) ⟨.valueError, invalid⟩
  let sessionId ← expect ((field? value "session_id").bind nonempty?) invalid
  let source ← expect ((field? value "source").bind nonempty?) invalid
  let inputId ← expect ((field? value "input_id").bind nonempty?) invalid
  let bindingId ← expect ((field? value "binding_id").bind nonempty?) invalid
  return ⟨sessionId, source, inputId, bindingId⟩

end CommandIntent

/-! ## Content -/

/-- `check_text`. -/
def checkText (part : ContentPart) : Except Error ContentReferences :=
  match part.value with
  | .str _ => .ok {}
  | _ => .error ⟨.typeError, "text 内容必须是字符串"⟩

/-- `check_result`: the fields of a `CommandFact`. -/
def checkResult (part : ContentPart) : Except Error ContentReferences := do
  let invalid := "CommandFact"
  let value ← expect ((object? part.value).filter
    (sameKeys · ["input_id", "binding_id", "name", "kind"])) invalid
  let _ ← expect ((field? value "input_id").bind nonempty?) invalid
  let bindingId ← expect ((field? value "binding_id").bind nonempty?) invalid
  let _ ← expect ((field? value "name").bind nonempty?) invalid
  ensure (field? value "kind" = some (.str "success") ∨ field? value "kind" = some (.str "error"))
    ⟨.valueError, invalid⟩
  return { bindingIds := [bindingId] }

/-- `check_origin`: where an Input came from. -/
def checkOrigin (part : ContentPart) : Except Error ContentReferences := do
  let value ← expect (object? part.value) "channel.origin 必须是对象"
  ensure (sameKeys value ["channel", "chat_id", "sender"] ∧
    value.all fun f => (nonempty? f.2).isSome) ⟨.valueError, "channel.origin 身份无效"⟩
  return {}

/-- The parts of one kind. -/
def partsOf (parts : List ContentPart) (kind : String) : List Json :=
  (parts.filter (·.kind = kind)).map (·.value)

/-- `_input`: the text of an accepted Input and the channel it came from. -/
def commandInput (db : Database) (sessionId inputId source : String) :
    Except Error (Json × Json) :=
  match (db.get sessionId inputId).filter (·.source = source) with
  | none => invalid "命令引用缺少同来源 Input"
  | some m =>
      match m.body with
      | .input b =>
          match partsOf b.parts "text", partsOf b.parts "channel.origin" with
          | [text], [origin] => .ok (text, origin)
          | _, _ => invalid "命令 Input 必须有唯一正文和已验证渠道身份"
      | _ => invalid "命令引用缺少同来源 Input"

/-- `check_source`: no new effect once the task is cancelled or its source has moved on. -/
def checkSource (active : Bool) (messages : List Message) (source : String) (throughSeq : Int) :
    Except Error Unit :=
  ensure (active ∧ ¬ messages.any fun m => m.source = source ∧ throughSeq < m.seq ∧
    (m.body.type = .input ∨ m.body.type = .control)) ⟨.cancelled, ""⟩

/-! ## The plan -/

/-- The intents to run, each with whether it was saved before, and the one of the
latest Input. -/
structure Plan where
  intents : List (CommandIntent × Bool) := []
  selected : Option CommandIntent := none
deriving DecidableEq

/-- `state.list()`: the records of an owner, by key. -/
def ownerRows (db : Database) (owner : String) : List (String × OwnerRecord) :=
  ((db.ownerRecords.filter (·.1.1 = owner)).map fun e => (e.1.2, e.2)).insertionSort
    fun a b => a.1 ≤ b.1

/-- The prefix that abandons of the source have closed. -/
def abandonedThrough (messages : List Message) (source : String) : Int :=
  messages.foldl (fun t m => if m.source = source then
    m.body.abandons.elim t fun through => max t through else t) (-1)

/-- The Inputs of the source. -/
def inputsOf (messages : List Message) (source : String) : List Message :=
  messages.filter fun m => m.source = source ∧ isInput m

def seqOf (messages : List Message) (messageId : String) : Except Error Nat :=
  match messages.find? (·.messageId = messageId) with
  | some m => .ok m.seq
  | none => .error ⟨.keyError, messageId⟩

/-- One record of the first loop of `run_commands`. -/
def planRow (db : Database) (sessionId source : String) (latest : Message) (plan : Plan)
    (row : String × OwnerRecord) : Except Error Plan :=
  if ¬ "command:".isPrefixOf row.1 then .ok plan
  else do
    let intent ← CommandIntent.read row.2.value
    ensure (row.2.version = 0) ⟨.valueError, "命令 intent 不允许原位改写"⟩
    if (intent.sessionId, intent.source) ≠ (sessionId, source) then return plan
    let messages := db.snapshot sessionId
    let position ← seqOf (inputsOf messages source) intent.inputId
    if (position : Int) ≤ abandonedThrough messages source then return plan
    return {
      selected := if intent.inputId = latest.messageId then some intent else plan.selected
      intents := if (db.get sessionId intent.outputId).isNone then plan.intents ++ [(intent, true)]
        else plan.intents }

/-- The texts of a message. -/
def textsOf (m : Message) : List Json :=
  match m.body with
  | .input b => partsOf b.parts "text"
  | _ => []

/-- The intent of the latest Input, if it is a command that has none yet. -/
def newIntent (sessionId source : String) (bind : Json → Option String)
    (latest : Message) (selected : Option CommandIntent) : Option CommandIntent :=
  match selected, textsOf latest with
  | none, [text] => (bind text).map fun identity => ⟨sessionId, source, latest.messageId, identity⟩
  | _, _ => none

/-- The records a plan is made of, before a new intent is saved. -/
def savedPlan (db : Database) (owner sessionId source : String) (latest : Message) :
    Except Error Plan :=
  (ownerRows db owner).foldlM (planRow db sessionId source latest) {}

/-- The order of the Inputs. -/
def sortIntents (messages : List Message) (intents : List (CommandIntent × Bool)) :
    List (CommandIntent × Bool) :=
  let position (i : CommandIntent) := (messages.find? (·.messageId = i.inputId)).elim 0 (·.seq)
  intents.insertionSort fun a b => position a.1 ≤ position b.1

/-- The first part of `run_commands`: what to save and what to run.  `bind` asks the
registry whether a text is a command. -/
def planCommands (db : Database) (owner sessionId source : String) (active : Bool)
    (bind : Json → Option String) : Except Error (Option CommandIntent × Plan) := do
  let messages := db.snapshot sessionId
  match (inputsOf messages source).getLast? with
  | none => .error ⟨.indexError, "list index out of range"⟩
  | some latest => do
      let plan ← savedPlan db owner sessionId source latest
      match newIntent sessionId source bind latest plan.selected with
      | none => return (none, { plan with intents := sortIntents messages plan.intents })
      | some intent => do
          let _ ← CommandIntent.read intent.dump
          let _ ← commandInput db sessionId latest.messageId source
          checkSource active messages source (db.head sessionId source)
          return (some intent, {
            intents := sortIntents messages (plan.intents ++ [(intent, false)])
            selected := some intent })

/-! ## The answer -/

inductive CommandKind where
  | success | error
deriving DecidableEq, Repr

def CommandKind.text : CommandKind → String
  | .success => "success"
  | .error => "error"

/-- What a handler returns. -/
structure CommandResult where
  name : String
  kind : CommandKind
  text : Option String := none
deriving DecidableEq

/-- A text that is there and not empty. -/
def CommandResult.answer? (r : CommandResult) : Option String := r.text.filter (· ≠ "")

/-- The `command.result` part of an answer. -/
def resultPart (intent : CommandIntent) (result : CommandResult) : ContentPart where
  kind := "command.result"
  value := .obj [("input_id", .str intent.inputId), ("binding_id", .str intent.bindingId),
    ("name", .str result.name), ("kind", .str result.kind.text)]
  kind_ok := by decide

def textPart (text : String) : ContentPart := ⟨"text", .str text, by decide⟩

/-- The finish of an answer: only the answer to the latest Input closes the source. -/
def answerFinish (intent : CommandIntent) (selected : Option CommandIntent)
    (result : CommandResult) : Finish :=
  if selected = some intent then
    if result.answer?.isSome then .complete else .quiet
  else .continue

/-- The Output that answers an intent.  It makes no call. -/
def answerOutput (intent : CommandIntent) (selected : Option CommandIntent)
    (result : CommandResult) : Output where
  parts := .content (resultPart intent result) ::
    result.answer?.toList.map fun text => .content (textPart text)
  finish := answerFinish intent selected result
  finish_ok := by
    intro _ p hp
    rcases List.mem_cons.mp hp with rfl | hp
    · rfl
    · obtain ⟨text, _, rfl⟩ := List.mem_map.mp hp
      rfl

/-- The writer of answers, which expires with its task. -/
def answerWriter (sessionId source : String) (active : Bool) : Writer where
  sessionId := sessionId
  author := "app"
  source := source
  bodyTypes := [.output]
  content := [("text", checkText), ("command.result", checkResult)]
  active := active
  callRef_ok := Writer.output_unbound

end MonoAgent.Conversation
