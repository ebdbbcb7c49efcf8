import MonoAgent.React.Pending
import MonoAgent.Session.Database

/-!
# The loop of `react`

`react` settles the pending calls of its source, then looks at the log once and
either closes the source because a terminal tool has succeeded, stops at the
limit of steps, or asks the model and appends what it has decoded.  An Output
with calls continues, any other closes the source.  Asking the model and decoding
its answer are not part of the model.
-/

namespace MonoAgent.React

open MonoAgent.Lib MonoAgent.Session

/-- What a round of `react` does after it has settled the pending calls. -/
inductive Decision where
  /-- A terminal tool has succeeded. -/
  | finish
  | stepLimit
  /-- Ask the model, and commit at this head of the source. -/
  | draft (head : Int)
deriving DecidableEq

/-- A round looks at the log.  `terminal` says which bindings belong to terminal
tools, `none` when there are none. -/
def decideRound (messages : List Message) (source : String) (terminal : Option (String → Bool))
    (maxSteps : Nat) (head : Int) : Decision :=
  if terminal.any (terminalResult messages source) then .finish
  else if 0 < maxSteps ∧ maxSteps ≤ steps messages source then .stepLimit
  else .draft head

/-- A decoded model answer: text parts, and the calls it asked for.  One that could
not be decoded is a rejection. -/
structure Draft where
  decoded : List ContentPart
  calls : List (ToolCall ⊕ ContentPart)
  facts : ContentPart
  summary : Option ContentPart := none
deriving DecidableEq

def Draft.callPart : ToolCall ⊕ ContentPart → Part
  | .inl call => .call call
  | .inr rejection => .content rejection

/-- The parts of the Output, in order. -/
def Draft.parts (d : Draft) : List Part :=
  d.decoded.map .content ++ d.calls.map Draft.callPart ++ [.content d.facts] ++
    d.summary.toList.map .content

/-- The Output of an answer: it continues when the model asked for calls. -/
def Draft.output (d : Draft) : Output where
  parts := d.parts
  finish := if d.calls = [] then .complete else .continue
  finish_ok := by
    intro hfinish p hp
    have hcalls : d.calls = [] := by
      by_contra h
      exact hfinish (if_neg h)
    simp only [Draft.parts, hcalls, List.map_nil, List.append_nil, List.mem_append, List.mem_map,
      List.mem_singleton] at hp
    rcases hp with (⟨_, _, rfl⟩ | rfl) | ⟨_, _, rfl⟩
    · rfl
    · rfl
    · rfl

/-- An answer without content and calls is refused. -/
def Draft.check (d : Draft) : Except Error Output :=
  if d.decoded = [] ∧ d.calls = [] then
    .error ⟨.modelError, "模型没有产生内容或工具调用；空响应不是 quiet"⟩
  else .ok d.output

/-- The Output after a terminal tool. -/
def quietOutput : Output := ⟨[], .quiet, by simp⟩

end MonoAgent.React
