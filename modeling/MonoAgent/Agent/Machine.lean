import MonoAgent.Conversation.Admission
import MonoAgent.Conversation.Commands
import MonoAgent.React.React

/-!
# The machine of replies

A room whose tasks run the reply program: first the commands of the source, then
`react`.  Between two awaits a program runs without interruption, so a step here
is what it does from one await to the next.  A program that raises is done, and
a done task leaves its slot.  Tools write their results past the programs, and a
crash forgets every task.
-/

namespace MonoAgent.Agent

open MonoAgent.Lib MonoAgent.Session MonoAgent.Conversation MonoAgent.React

/-- Where a reply program is. -/
inductive Program where
  /-- Before `run_commands`. -/
  | respond
  /-- Between two intents of `run_commands`. -/
  | commands (plan : Plan)
  /-- A handler runs.  The head is the one its answer expects. -/
  | executing (plan : Plan) (intent : CommandIntent) (head : Int)
  /-- Before `react`. -/
  | reply
  /-- `react` waits for the results of these calls. -/
  | settling (w : Writer) (calls : List CallRef)
  /-- `react` waits for the model. -/
  | drafting (w : Writer) (head : Int)
  | done
deriving Inhabited

/-- Where a program may start: with commands, or with `react`. -/
def Program.starts : Program → Bool
  | .respond => true
  | .reply => true
  | _ => false

/-- Tools are granted results only. -/
def ResultsOnly (w : Writer) : Prop := w.bodyTypes = [.toolResult]

/-- The Session and source of a program. -/
abbrev Key := String × String

/-- A step of a process that runs replies. -/
inductive AgentAction where
  | admission (c : Conversation) (op : Operation Program)
  /-- A tool commits a result, alone or with its receipt. -/
  | tool (a : LogAction) (h : a.Uses ResultsOnly)
  | gate (accepting : Bool)
  | crash
  /-- `run_commands` decides what to run.  `bind` is the registry of commands. -/
  | plan (key : Key) (owner : String) (bind : Json → Option String)
  /-- `run_commands` starts the next handler, or has none left. -/
  | execute (key : Key)
  /-- The handler has returned, and `run_commands` appends its answer. -/
  | answer (key : Key) (now : Instant) (result : CommandResult)
  /-- `react` starts. -/
  | react (key : Key) (w : Writer)
  /-- The call `react` waits for has returned. -/
  | settled (key : Key)
  /-- `react` looks at the log after it has settled the calls. -/
  | decide (key : Key) (now : Instant) (messageId : String) (terminal : Option (String → Bool))
      (maxSteps : Nat)
  /-- The model has answered, and `react` appends what it decoded. -/
  | draft (key : Key) (now : Instant) (messageId : String) (draft : Draft) (metadata : Fields)
  /-- The program raises, for any other reason. -/
  | raise (key : Key)

/-- A room whose tasks run reply programs, and one of its tasks. -/
abbrev Replies := Room Program

abbrev ReplyTask := Conversation.Task Program

/-- The log a program reads. -/
def logOf (r : Replies) (key : Key) : List Message := r.db.snapshot key.1

/-- The source head of a program. -/
def headOf (r : Replies) (key : Key) : Int := r.db.head key.1 key.2

/-- Put the program of a task at another place. -/
def goto (r : Replies) (key : Key) (task : ReplyTask) (program : Program) : Replies :=
  r.setTask key (some { task with program := program })

/-- Append an Output, and go on or raise.  The writer expires with its task. -/
def appendOutput (r : Replies) (key : Key) (task : ReplyTask) (w : Writer) (now : Instant)
    (request : AppendRequest) (next : Database → Program) : Replies :=
  match Exec.run ({ w with active := w.active && task.active }.append now request) r.db.idle with
  | (.ok _, c) => goto { r with db := c.durable } key task (next c.durable)
  | (.error _, c) => goto { r with db := c.durable } key task .done

/-! ## Steps of `run_commands` -/

/-- The callback that saves the intent of a new command. -/
def saveIntent (intent : CommandIntent) : Script :=
  .call (.save intent.outputId intent.dump none) fun
    | .ok _ => .ret .null
    | .error e => .raise e

/-- Decide what to run, and save the intent of a new command. -/
def planStep (owner : String) (bind : Json → Option String) (r : Replies) (key : Key)
    (task : ReplyTask) : Option Replies :=
  match task.program with
  | .respond => some (
      match planCommands r.db owner key.1 key.2 task.active bind with
      | .error _ => goto r key task .done
      | .ok (none, plan) => goto r key task (.commands plan)
      | .ok (some intent, plan) =>
          match transact owner (saveIntent intent) r.db with
          | (.ok _, t) => goto { r with db := t.conn.durable } key task (.commands plan)
          | (.error _, t) => goto { r with db := t.conn.durable } key task .done)
  | _ => none

/-- Start the next handler.  After the last one the program ends with the answer to
the latest Input, or goes on to `react`. -/
def executeStep (r : Replies) (key : Key) (task : ReplyTask) : Option Replies :=
  match task.program with
  | .commands ⟨[], selected⟩ =>
      let answered := (selected.bind fun i => r.db.get key.1 i.outputId).isSome
      some (goto r key task (if answered then .done else .reply))
  | .commands ⟨(intent, recovering) :: rest, selected⟩ =>
      let head := headOf r key
      some (match checkSource task.active (logOf r key) key.2 head,
          commandInput r.db key.1 intent.inputId key.2 with
        | .ok _, .ok _ =>
            goto r key task (.executing ⟨(intent, recovering) :: rest, selected⟩ intent head)
        | _, _ => goto r key task .done)
  | _ => none

/-- Append the answer of a handler. -/
def answerStep (now : Instant) (result : CommandResult) (r : Replies) (key : Key)
    (task : ReplyTask) : Option Replies :=
  match task.program with
  | .executing plan intent head => some (
      match checkSource task.active (logOf r key) key.2 head with
      | .error _ => goto r key task .done
      | .ok _ => appendOutput r key task (answerWriter key.1 key.2 true) now
          (request intent.outputId (.output (answerOutput intent plan.selected result)) (some head))
          fun _ => .commands { plan with intents := plan.intents.tail })
  | _ => none

/-! ## Steps of `react` -/

/-- The writer of Outputs a reply was given. -/
def IsReplyWriter (w : Writer) (key : Key) : Prop :=
  w.sessionId = key.1 ∧ w.source = key.2 ∧ w.bodyTypes = [.output]

instance (w : Writer) (key : Key) : Decidable (IsReplyWriter w key) :=
  inferInstanceAs (Decidable (_ ∧ _ ∧ _))

def reactStep (w : Writer) (r : Replies) (key : Key) (task : ReplyTask) : Option Replies :=
  match task.program with
  | .reply =>
      if IsReplyWriter w key then
        some (goto r key task (.settling w (pendingCalls (logOf r key) key.2)))
      else none
  | _ => none

/-- A call returns once its result is in the log. -/
def settledStep (r : Replies) (key : Key) (task : ReplyTask) : Option Replies :=
  match task.program with
  | .settling w (ref :: rest) =>
      if (logOf r key).any (·.body.settles = some ref) then
        some (goto r key task (.settling w rest))
      else none
  | _ => none

def decideStep (now : Instant) (messageId : String) (terminal : Option (String → Bool))
    (maxSteps : Nat) (r : Replies) (key : Key) (task : ReplyTask) : Option Replies :=
  match task.program with
  | .settling w [] =>
      let head := headOf r key
      some (match decideRound (logOf r key) key.2 terminal maxSteps head with
        | .finish => appendOutput r key task w now
            (request messageId (.output quietOutput) (some head)) fun _ => .done
        | .stepLimit => goto r key task .done
        | .draft head => goto r key task (.drafting w head))
  | _ => none

/-- An answer with calls starts the next round. -/
def draftStep (now : Instant) (messageId : String) (draft : Draft) (metadata : Fields)
    (r : Replies) (key : Key) (task : ReplyTask) : Option Replies :=
  match task.program with
  | .drafting w head => some (
      match draft.check with
      | .error _ => goto r key task .done
      | .ok output => appendOutput r key task w now
          { messageId, body := .output output, expectedSourceHead := some head, metadata }
          fun db => if draft.calls = [] then .done
            else .settling w (pendingCalls (db.snapshot key.1) key.2))
  | _ => none

/-! ## The machine -/

/-- A step of a task of the room. -/
def onTask (r : Replies) (key : Key) (step : Replies → Key → ReplyTask → Option Replies) :
    Option Replies :=
  (r.tasks key).bind fun task => step r key task

/-- A process that runs replies over a store that starts empty. -/
def agentMachine : Machine Replies AgentAction where
  start r := logMachine.start r.db ∧ ∀ key, r.tasks key = none
  next r
    | .admission c op => if op.program?.all Program.starts then some (op.run c r) else none
    | .tool a _ => (logMachine.next r.db a).map fun db => { r with db := db }
    | .gate accepting => some { r with accepting := accepting }
    | .crash => some { db := r.db }
    | .plan key owner bind => onTask r key (planStep owner bind)
    | .execute key => onTask r key executeStep
    | .answer key now result => onTask r key (answerStep now result)
    | .react key w => onTask r key (reactStep w)
    | .settled key => onTask r key settledStep
    | .decide key now messageId terminal maxSteps =>
        onTask r key (decideStep now messageId terminal maxSteps)
    | .draft key now messageId draft metadata =>
        onTask r key (draftStep now messageId draft metadata)
    | .raise key => onTask r key fun r key task => some (goto r key task .done)

end MonoAgent.Agent
