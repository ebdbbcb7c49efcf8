import MonoAgent.Lib.Dict
import MonoAgent.Session.Settlement

/-!
# Pending calls

What `react` reads off the log before it asks the model: the calls of its source
that still wait for a result, the number of model steps since the source was
last closed, and whether a terminal tool has succeeded.
-/

namespace MonoAgent.React

open MonoAgent.Lib MonoAgent.Session

/-! ## Definitions -/

/-- The local variables of `_pending_calls`. -/
structure Pending where
  boundary : Int := -1
  calls : Dict CallRef Nat := []
  /-- The calls that have a result. -/
  results : List CallRef := []

/-- One message of `_pending_calls`. -/
def Pending.visit (source : String) (s : Pending) (m : Message) : Pending :=
  if m.source ≠ source then s else
  match m.body with
  | .input _ => s
  | .output b =>
      { s with
        boundary := if b.finish ≠ .continue then m.seq else s.boundary
        calls := s.calls.update (m.calls.map fun ref => (ref, m.seq)) }
  | .control b =>
      if b.action = .abandon then { s with boundary := max s.boundary b.throughSeq } else s
  | .toolResult b => { s with results := s.results ++ [b.callRef] }

def Pending.scan (messages : List Message) (source : String) : Pending :=
  messages.foldl (Pending.visit source) {}

/-- `_pending_calls`. -/
def pendingCalls (messages : List Message) (source : String) : List CallRef :=
  let s := Pending.scan messages source
  (s.calls.filter fun c => s.boundary < c.2 ∧ c.1 ∉ s.results).map Prod.fst

/-- The content part that marks a model step. -/
def hasFacts (parts : List Part) : Bool := parts.any fun
  | .content p => p.kind = "model.facts"
  | .call _ => false

/-- One message of `_steps`. -/
def Steps.visit (source : String) (outputs : List Message) (m : Message) : List Message :=
  if m.source ≠ source then outputs else
  match m.body with
  | .output b =>
      if b.finish ≠ .continue then []
      else if hasFacts b.parts then outputs ++ [m] else outputs
  | .control b =>
      if b.action = .abandon then outputs.filter (b.throughSeq < ·.seq) else outputs
  | _ => outputs

/-- `_steps`. -/
def steps (messages : List Message) (source : String) : Nat :=
  (messages.foldl (Steps.visit source) []).length

/-- The calls of terminal tools that an Output makes. -/
def terminalCalls (terminal : String → Bool) (m : Message) (b : Output) : List CallRef :=
  b.parts.zipIdx.filterMap fun p => match p.1 with
    | .call c => if terminal c.bindingId then some ⟨m.messageId, p.2⟩ else none
    | .content _ => none

/-- The local variables of `_terminal_result`. -/
structure Terminal where
  boundary : Int := -1
  calls : Dict CallRef Nat := []
  succeeded : List CallRef := []

/-- One message of `_terminal_result`.  `terminal` says whether the tool of a
binding is terminal. -/
def Terminal.visit (source : String) (terminal : String → Bool) (s : Terminal) (m : Message) :
    Terminal :=
  if m.source ≠ source then s else
  match m.body with
  | .input _ => s
  | .output b =>
      if b.finish ≠ .continue then { s with boundary := m.seq }
      else { s with
        calls := s.calls.update ((terminalCalls terminal m b).map fun ref => (ref, m.seq)) }
  | .control b =>
      if b.action = .abandon then { s with boundary := max s.boundary b.throughSeq } else s
  | .toolResult b =>
      if b.outcome = .success then { s with succeeded := s.succeeded ++ [b.callRef] } else s

/-- `_terminal_result`. -/
def terminalResult (messages : List Message) (source : String) (terminal : String → Bool) : Bool :=
  let s := messages.foldl (Terminal.visit source terminal) {}
  s.calls.any fun c => s.boundary < c.2 ∧ c.1 ∈ s.succeeded

/-! ## What the scan has found -/

section Spec

variable {log : List Message} {source : String} {m : Message} {ref : CallRef}

theorem Pending.scan_snoc (log : List Message) (m : Message) (source : String) :
    Pending.scan (log ++ [m]) source = (Pending.scan log source).visit source m := by
  rw [Pending.scan, List.foldl_append]
  rfl

/-- The boundary is the last position that is closed. -/
theorem le_boundary (hwf : WellFormed log) (seq : Nat) :
    (seq : Int) ≤ (Pending.scan log source).boundary ↔ Closed log source seq := by
  induction hwf with
  | nil =>
      refine iff_of_false ?_ not_closed_nil
      show ¬ (seq : Int) ≤ -1
      omega
  | @snoc log m hwf ha ih =>
      rw [Pending.scan_snoc, closed_snoc, Pending.visit, ← ih]
      by_cases hsrc : m.source = source
      · rw [if_neg (not_not.mpr hsrc)]
        cases hb : m.body with
        | input b => simp [Closes, hb, Body.finishes, Body.abandons]
        | toolResult b => simp [Closes, hb, Body.finishes, Body.abandons]
        | output b =>
            by_cases hfinish : b.finish = .continue
            · simp [Closes, hb, Body.finishes, Body.abandons, hfinish]
            · -- A finishing Output lies behind every earlier boundary.
              have hlt : (seq : Int) ≤ (Pending.scan log source).boundary → seq ≤ m.seq := by
                intro hle
                by_contra hnot
                exact not_closed_of_length hwf (by rw [← ha.seq]; omega) (ih.mp hle)
              simp only [Closes, hb, Body.finishes, Body.abandons, hfinish, hsrc, ne_eq,
                not_false_eq_true, if_true, decide_true, true_and, Int.ofNat_le]
              constructor
              · exact fun h => Or.inr (Or.inl h)
              · intro h
                rcases h with h | h | ⟨t, ht, _⟩
                · exact hlt h
                · exact h
                · cases ht
        | control b =>
            by_cases hact : b.action = .abandon
            · simp [Closes, hb, Body.finishes, Body.abandons, hact, hsrc]
            · simp [Closes, hb, Body.finishes, Body.abandons, hact]
      · rw [if_pos hsrc]
        simp [Closes, hsrc]

theorem mem_scan_calls (hwf : WellFormed log) {seq : Nat} :
    (ref, seq) ∈ (Pending.scan log source).calls ↔
      ∃ q ∈ log, q.source = source ∧ ref ∈ q.calls ∧ seq = q.seq := by
  induction hwf with
  | nil => simp [Pending.scan]
  | @snoc log m hwf ha ih =>
      have hnew : (∃ q ∈ log ++ [m], q.source = source ∧ ref ∈ q.calls ∧ seq = q.seq) ↔
          (∃ q ∈ log, q.source = source ∧ ref ∈ q.calls ∧ seq = q.seq) ∨
            (m.source = source ∧ ref ∈ m.calls ∧ seq = m.seq) := by
        simp [or_and_right, exists_or]
      rw [Pending.scan_snoc, hnew, Pending.visit, ← ih]
      by_cases hsrc : m.source = source
      · rw [if_neg (not_not.mpr hsrc)]
        cases hb : m.body with
        | input b => simp [Message.calls, hb]
        | toolResult b => simp [Message.calls, hb]
        | control b =>
            dsimp only
            split
            · simp [Message.calls, hb]
            · simp [Message.calls, hb]
        | output b =>
            dsimp only
            have hkeys : (m.calls.map fun ref => (ref, m.seq)).map Prod.fst = m.calls := by
              simp [Function.comp_def]
            rw [Dict.mem_update (by rw [hkeys]; exact m.nodup_calls), hkeys, List.mem_map]
            constructor
            · intro h
              rcases h with ⟨_, hc, heq⟩ | ⟨_, h⟩
              · cases heq
                exact Or.inr ⟨hsrc, hc, rfl⟩
              · exact Or.inl h
            · intro h
              rcases h with h | ⟨_, hc, rfl⟩
              · obtain ⟨q, hq, _, hc, _⟩ := ih.mp h
                exact Or.inr ⟨not_call_of_old ha hq hc, h⟩
              · exact Or.inl ⟨ref, hc, rfl⟩
      · rw [if_pos hsrc]
        simp [hsrc]

theorem mem_scan_results (log : List Message) : ref ∈ (Pending.scan log source).results ↔
    ∃ r ∈ log, r.source = source ∧ r.body.settles = some ref := by
  induction log using List.reverseRecOn with
  | nil => simp [Pending.scan]
  | append_singleton log m ih =>
      have hnew : (∃ r ∈ log ++ [m], r.source = source ∧ r.body.settles = some ref) ↔
          (∃ r ∈ log, r.source = source ∧ r.body.settles = some ref) ∨
            (m.source = source ∧ m.body.settles = some ref) := by
        simp [or_and_right, exists_or]
      rw [Pending.scan_snoc, hnew, Pending.visit, ← ih]
      by_cases hsrc : m.source = source
      · rw [if_neg (not_not.mpr hsrc)]
        cases hb : m.body with
        | input b => simp [Body.settles]
        | output b => simp [Body.settles]
        | control b =>
            dsimp only
            split
            · simp [Body.settles]
            · simp [Body.settles]
        | toolResult b => simp [Body.settles, hsrc, eq_comm]
      · rw [if_pos hsrc]
        simp [hsrc]

/-- A pending call was made by the source, is not closed and has no result. -/
theorem mem_pendingCalls (hwf : WellFormed log) : ref ∈ pendingCalls log source ↔
    ∃ q ∈ log, q.source = source ∧ ref ∈ q.calls ∧ ¬ Closed log source q.seq ∧
      ¬ Settled log ref := by
  rw [pendingCalls, List.mem_map]
  constructor
  · intro h
    obtain ⟨⟨ref', seq⟩, hmem, rfl⟩ := h
    obtain ⟨hcall, hcond⟩ := List.mem_filter.mp hmem
    rw [decide_eq_true_eq] at hcond
    obtain ⟨q, hq, hsrc, hc, rfl⟩ := (mem_scan_calls hwf).mp hcall
    refine ⟨q, hq, hsrc, hc, fun hclosed => ?_, fun hsettled => ?_⟩
    · exact absurd ((le_boundary hwf _).mpr hclosed) (not_le.mpr hcond.1)
    · obtain ⟨r, hr, hset⟩ := hsettled
      have hafter := hwf.result_after hq hr hc hset
      exact hcond.2 ((mem_scan_results log).mpr ⟨r, hr, hafter.2.symm.trans hsrc, hset⟩)
  · intro h
    obtain ⟨q, hq, hsrc, hc, hopen, hset⟩ := h
    refine ⟨(ref, q.seq), List.mem_filter.mpr ⟨(mem_scan_calls hwf).mpr ⟨q, hq, hsrc, hc, rfl⟩, ?_⟩,
      rfl⟩
    rw [decide_eq_true_eq]
    constructor
    · by_contra hle
      exact hopen ((le_boundary hwf _).mp (not_lt.mp hle))
    · intro hmem
      obtain ⟨r, hr, _, hr'⟩ := (mem_scan_results log).mp hmem
      exact hset ⟨r, hr, hr'⟩

/-- A source that has no message has no pending call. -/
theorem pendingCalls_of_absent (h : ∀ m ∈ log, m.source ≠ source) : pendingCalls log source = [] := by
  have hscan : Pending.scan log source = {} := by
    induction log using List.reverseRecOn with
    | nil => rfl
    | append_singleton log m ih =>
        rw [Pending.scan_snoc, ih fun x hx => h x (List.mem_append_left _ hx)]
        exact if_pos (h m (List.mem_append_right _ (List.mem_singleton_self m)))
  rw [pendingCalls, hscan]
  rfl

/-! ## Pending calls along a log -/

/-- A message makes a call of the source pending only by making it. -/
theorem pendingCalls_snoc (hwf : WellFormed (log ++ [m])) (h : ref ∈ pendingCalls (log ++ [m]) source) :
    ref ∈ pendingCalls log source ∨ (m.source = source ∧ ref ∈ m.calls) := by
  obtain ⟨q, hq, hsrc, hc, hopen, hset⟩ := (mem_pendingCalls hwf).mp h
  rw [List.mem_append, List.mem_singleton] at hq
  rcases hq with hq | rfl
  · refine Or.inl ((mem_pendingCalls hwf.of_snoc.1).mpr ⟨q, hq, hsrc, hc, ?_, ?_⟩)
    · exact fun h => hopen (h.mono (List.prefix_append _ _))
    · exact fun h => hset (h.mono (List.prefix_append _ _))
  · exact Or.inr ⟨hsrc, hc⟩

end Spec

end MonoAgent.React
