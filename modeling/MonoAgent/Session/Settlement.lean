import MonoAgent.Session.Prefix

/-!
# Settlement

What can become of a tool call, in terms of the log alone.  A call is *settled*
by a result.  A message is *withdrawn* by an abandon of its source that reaches
it, and *closed* by an abandon or by a finishing Output of its source at or
behind it.  Each consumer of a log computes one of these its own way.  The
modules on them prove which.
-/

namespace MonoAgent.Session

/-- The call has a result. -/
def Settled (log : List Message) (ref : CallRef) : Prop :=
  ∃ r ∈ log, r.body.settles = some ref

/-- `m` closes the messages of its source up to `seq`. -/
def Closes (m : Message) (source : String) (seq : Nat) : Prop :=
  m.source = source ∧
    ((m.body.finishes = true ∧ seq ≤ m.seq) ∨ ∃ t, m.body.abandons = some t ∧ seq ≤ t)

/-- Some message closes the position. -/
def Closed (log : List Message) (source : String) (seq : Nat) : Prop :=
  ∃ m ∈ log, Closes m source seq

/-- An abandon of its source reaches the message. -/
def Withdrawn (log : List Message) (q : Message) : Prop :=
  ∃ m ∈ log, m.source = q.source ∧ ∃ t, m.body.abandons = some t ∧ q.seq ≤ t

section Snoc

variable {log : List Message} {m q : Message} {ref : CallRef} {source : String} {seq : Nat}

theorem settled_snoc : Settled (log ++ [m]) ref ↔ Settled log ref ∨ m.body.settles = some ref := by
  simp [Settled, or_and_right, exists_or]

theorem not_closed_nil : ¬ Closed [] source seq := by
  intro h
  obtain ⟨m, hm, _⟩ := h
  cases hm

theorem closed_snoc : Closed (log ++ [m]) source seq ↔ Closed log source seq ∨ Closes m source seq := by
  simp [Closed, or_and_right, exists_or]

theorem withdrawn_snoc : Withdrawn (log ++ [m]) q ↔ Withdrawn log q ∨
    (m.source = q.source ∧ ∃ t, m.body.abandons = some t ∧ q.seq ≤ t) := by
  simp [Withdrawn, or_and_right, exists_or]

theorem Settled.mono {log' : List Message} (h : Settled log ref) (hp : log <+: log') :
    Settled log' ref :=
  let ⟨r, hr, hs⟩ := h
  ⟨r, hp.subset hr, hs⟩

theorem Closed.mono {log' : List Message} (h : Closed log source seq) (hp : log <+: log') :
    Closed log' source seq :=
  let ⟨r, hr, hs⟩ := h
  ⟨r, hp.subset hr, hs⟩

/-- What an abandon reaches is closed. -/
theorem Withdrawn.closed (h : Withdrawn log q) : Closed log q.source q.seq :=
  let ⟨m, hm, hsrc, t, ht, hle⟩ := h
  ⟨m, hm, hsrc, Or.inr ⟨t, ht, hle⟩⟩

/-- A position behind the log is not closed yet. -/
theorem not_closed_of_length (hwf : WellFormed log) (hseq : log.length ≤ seq) :
    ¬ Closed log source seq := by
  intro h
  obtain ⟨m, hm, _, h | ⟨t, ht, hle⟩⟩ := h
  · have := hwf.seq_lt hm
    omega
  · have := hwf.seq_lt hm
    have := Message.abandons_lt ht
    omega

/-- A new message is not withdrawn. -/
theorem not_withdrawn_new (hwf : WellFormed log) (ha : Appends log m) : ¬ Withdrawn log m :=
  fun h => not_closed_of_length hwf ha.seq.ge h.closed

/-- The calls of a new message have no result yet. -/
theorem not_settled_new (hwf : WellFormed log) (ha : Appends log m) (hcall : ref ∈ m.calls) :
    ¬ Settled log ref := by
  intro h
  obtain ⟨r, hr, hset⟩ := h
  obtain ⟨q, hq, _, _, hc⟩ := hwf.call_of_result hr hset
  exact ha.fresh q hq ((Message.mem_calls.mp hc).1.symm.trans (Message.mem_calls.mp hcall).1)

/-- A call belongs to the new message or to an old one. -/
theorem not_call_of_old (ha : Appends log m) (hq : q ∈ log) (hc : ref ∈ q.calls) :
    ref ∉ m.calls := fun hcall =>
  ha.fresh q hq ((Message.mem_calls.mp hc).1.symm.trans (Message.mem_calls.mp hcall).1)

/-- The first message that closes a position. -/
theorem Closed.first (h : Closed log source seq) : ∃ pre m, pre ++ [m] <+: log ∧
    ¬ Closed pre source seq ∧ Closes m source seq := by
  induction log using List.reverseRecOn with
  | nil => exact absurd h not_closed_nil
  | append_singleton log m ih =>
      by_cases hlog : Closed log source seq
      · obtain ⟨pre, x, hp, hpre, hx⟩ := ih hlog
        exact ⟨pre, x, hp.trans (List.prefix_append _ _), hpre, hx⟩
      · exact ⟨log, m, List.prefix_rfl, hlog, (closed_snoc.mp h).resolve_left hlog⟩

end Snoc

end MonoAgent.Session
