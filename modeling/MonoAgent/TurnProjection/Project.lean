import MonoAgent.Session.Prefix

/-!
# The turn projection

`project` groups the messages of one source into Turns.  It scans the log once
and keeps the turns closed so far, the messages not yet in a turn and the calls
made by them.  A finishing Output closes everything pending.  An abandon closes
the pending messages up to its prefix and keeps the rest, except results whose
call was closed.

The specification is `segment`: the Inputs and Outputs of the source in an
interval of seqs together with the results of calls made in that interval.  Every
turn is the segment of its own interval.
-/

namespace MonoAgent.TurnProjection

open MonoAgent.Session

/-! ## Turns -/

inductive Status where
  | «open» | complete | quiet | abandoned
deriving DecidableEq, Repr

/-- The messages of one interval `(afterSeq, throughSeq]` of a source, by
reference. -/
structure Turn where
  source : String
  afterSeq : Int
  throughSeq : Int
  endingMessageId : Option String
  status : Status
  messageIds : List String
  observations : List (CallRef × String)
deriving DecidableEq, Repr

/-- `isinstance(body, (Input, Output))`. -/
def isDialogue : Body → Bool
  | .input _ => true
  | .output _ => true
  | _ => false

def dialogueIds (messages : List Message) : List String :=
  (messages.filter fun m => isDialogue m.body).map (·.messageId)

def observationsOf (messages : List Message) : List (CallRef × String) :=
  messages.filterMap fun m => m.body.settles.map fun ref => (ref, m.messageId)

/-- `_build_turn`. -/
def buildTurn (source : String) (afterSeq throughSeq : Int) (endingMessageId : Option String)
    (status : Status) (messages : List Message) : Turn :=
  ⟨source, afterSeq, throughSeq, endingMessageId, status, dialogueIds messages,
    observationsOf messages⟩

def statusOf : Finish → Status
  | .quiet => .quiet
  | _ => .complete

/-! ## The projection -/

/-- The local variables of `project`. -/
structure Scan where
  turns : List Turn := []
  pending : List Message := []
  calls : List CallRef := []
  afterSeq : Int := -1
  sourceHead : Int := -1
deriving DecidableEq

/-- An abandon splits the pending messages at its prefix. -/
def Scan.abandon (source : String) (s : Scan) (messageId : String) (through : Nat) :
    Except Error Scan :=
  if (through : Int) ≤ s.afterSeq then
    .error ⟨.valueError, "abandon 不能重新关闭已经结束的前缀"⟩
  else
    let closed := s.pending.filter fun m => m.seq ≤ through
    let rest := s.pending.filter fun m => through < m.seq
    let calls := rest.flatMap (·.calls)
    .ok { s with
      turns := if closed = [] then s.turns else
        s.turns ++ [buildTurn source s.afterSeq through (some messageId) .abandoned closed]
      pending := rest.filter fun m => m.body.settles.all (· ∈ calls)
      calls := calls
      afterSeq := through }

/-- One message of the scan. -/
def Scan.visit (source : String) (s : Scan) (m : Message) : Except Error Scan :=
  if m.source ≠ source then .ok s else
  let s := { s with sourceHead := (m.seq : Int) }
  match m.body with
  | .input _ => .ok { s with pending := s.pending ++ [m] }
  | .output b =>
      let pending := s.pending ++ [m]
      if b.finish ≠ .continue then
        .ok { s with
          turns := s.turns ++
            [buildTurn source s.afterSeq m.seq (some m.messageId) (statusOf b.finish) pending]
          pending := []
          calls := []
          afterSeq := m.seq }
      else .ok { s with pending := pending, calls := s.calls ++ m.calls }
  | .toolResult b =>
      if b.callRef ∈ s.calls then .ok { s with pending := s.pending ++ [m] } else .ok s
  | .control b =>
      if b.action = .abandon then s.abandon source m.messageId b.throughSeq else .ok s

def scan (source : String) (messages : List Message) : Except Error Scan :=
  messages.foldlM (Scan.visit source) {}

/-- One step of the input check of `project`: the last seq and the identities
seen. -/
def followsPrefix (sessionId : Option String) (s : Int × List String) (m : Message) :
    Except Error (Int × List String) :=
  if sessionId ≠ some m.sessionId ∨ (m.seq : Int) ≤ s.1 then
    .error ⟨.valueError, "Turn 投影要求同一 Session 按 seq 严格递增"⟩
  else if m.messageId ∈ s.2 then
    .error ⟨.valueError, "Turn 投影不能包含重复 message_id"⟩
  else .ok (m.seq, m.messageId :: s.2)

/-- The input check of `project`: one Session, seqs strictly increasing, no
message twice. -/
def checkPrefix (messages : List Message) : Except Error Unit := do
  let _ ← messages.foldlM (followsPrefix (messages.head?.map (·.sessionId))) (-1, [])

/-- The turns of a finished scan: pending messages form an open tail. -/
def Scan.result (source : String) (s : Scan) : List Turn :=
  if s.pending = [] then s.turns
  else s.turns ++ [buildTurn source s.afterSeq s.sourceHead none .open s.pending]

/-- `TurnProjection.project`. -/
def project (messages : List Message) (source : String) : Except Error (List Turn) := do
  checkPrefix messages
  let s ← scan source messages
  return s.result source

/-- The turns that no later message can change. -/
def closedTurns (turns : List Turn) : List Turn := turns.filter fun t => t.status ≠ .open

/-! ## Segments -/

/-- `m` is the result of a call that `source` made after `a`. -/
def observes (log : List Message) (source : String) (a : Int) (m : Message) : Bool :=
  log.any fun o => o.source = source ∧ a < o.seq ∧ o.seq < m.seq ∧
    m.body.settles.any (· ∈ o.calls)

/-- The messages of the interval `(a, b]`. -/
def inSegment (log : List Message) (source : String) (a b : Int) (m : Message) : Bool :=
  m.source = source ∧ a < m.seq ∧ (m.seq : Int) ≤ b ∧
    (isDialogue m.body ∨ observes log source a m)

def segment (log : List Message) (source : String) (a b : Int) : List Message :=
  log.filter (inSegment log source a b)

theorem observes_iff {log : List Message} {source : String} {a : Int} {m : Message} :
    observes log source a m = true ↔ ∃ o ∈ log, o.source = source ∧ a < o.seq ∧
      o.seq < m.seq ∧ ∃ ref, m.body.settles = some ref ∧ ref ∈ o.calls := by
  simp [observes, Option.any_eq_true]

theorem inSegment_iff {log : List Message} {source : String} {a b : Int} {m : Message} :
    inSegment log source a b m = true ↔ m.source = source ∧ a < m.seq ∧ (m.seq : Int) ≤ b ∧
      (isDialogue m.body = true ∨ observes log source a m = true) := by
  simp [inSegment]

theorem mem_segment {log : List Message} {source : String} {a b : Int} {m : Message} :
    m ∈ segment log source a b ↔ m ∈ log ∧ m.source = source ∧ a < m.seq ∧ (m.seq : Int) ≤ b ∧
      (isDialogue m.body = true ∨ observes log source a m = true) := by
  rw [segment, List.mem_filter, inSegment_iff]

theorem settles_of_dialogue {b : Body} (h : isDialogue b = true) : b.settles = none := by
  cases b <;> first | rfl | cases h

theorem dialogue_of_calls {m : Message} {ref : CallRef} (h : ref ∈ m.calls) :
    isDialogue m.body = true := by
  obtain ⟨_, b, _, hb, _⟩ := Message.mem_calls.mp h
  rw [hb]
  rfl

section Snoc

variable {log : List Message} {m : Message} {source : String} {a b : Int}

/-- A later message is no reason for an earlier one to be in a segment. -/
theorem inSegment_snoc (ha : Appends log m) (hwf : WellFormed log) {x : Message} (hx : x ∈ log) :
    inSegment (log ++ [m]) source a b x = inSegment log source a b x := by
  have hlt : ¬ m.seq < x.seq := by
    have := hwf.seq_lt hx
    rw [ha.seq]
    omega
  simp [inSegment, observes, hlt]

theorem segment_snoc (ha : Appends log m) (hwf : WellFormed log) :
    segment (log ++ [m]) source a b =
      segment log source a b ++ (if inSegment (log ++ [m]) source a b m then [m] else []) := by
  unfold segment
  rw [List.filter_append]
  congr 1
  · exact List.filter_congr fun x hx => inSegment_snoc ha hwf hx
  · rw [List.filter_singleton]
    cases inSegment (log ++ [m]) source a b m <;> rfl

/-- Later messages leave the segments that end before them. -/
theorem segment_snoc_of_lt (ha : Appends log m) (hwf : WellFormed log) (hb : b < log.length) :
    segment (log ++ [m]) source a b = segment log source a b := by
  have hm : inSegment (log ++ [m]) source a b m = false := by
    rw [Bool.eq_false_iff]
    intro h
    have := (inSegment_iff.mp h).2.2.1
    rw [ha.seq] at this
    omega
  rw [segment_snoc ha hwf, hm]
  simp

theorem segment_bound (hwf : WellFormed log) (hb : (log.length : Int) ≤ b + 1) :
    segment log source a b = segment log source a log.length := by
  refine List.filter_congr fun x hx => ?_
  have := hwf.seq_lt hx
  have h₁ : (x.seq : Int) ≤ b := by omega
  have h₂ : (x.seq : Int) ≤ log.length := by omega
  simp [inSegment, h₁, h₂]

end Snoc

end MonoAgent.TurnProjection
