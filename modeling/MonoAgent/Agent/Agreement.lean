import MonoAgent.Context.Settled
import MonoAgent.Models.Unsettled
import MonoAgent.React.Pending

/-!
# React, Context and the model projection agree

The three consumers of a log agree on settlement when every finishing Output was
appended with no call of its source pending: then a call that is no longer
pending has a result or was abandoned.
-/

namespace MonoAgent.Agent

open MonoAgent.Session MonoAgent.Context MonoAgent.Models MonoAgent.React

/-- Every finishing Output was appended when no call of its source was pending. -/
def CleanFinishes (log : List Message) : Prop :=
  ∀ pre m, pre ++ [m] <+: log → m.body.finishes = true → pendingCalls pre m.source = []

/-- The three consumers agree that the log is settled: every call that `render`
does not leave out has a result, `render` of the whole log does not raise
`unsettled`, and the whole log is a settled prefix. -/
structure Agrees (log : List Message) : Prop where
  results : ∀ q ∈ log, q.messageId ∉ (abandonment log).abandoned → ∀ ref ∈ q.calls,
    Settled log ref
  render : ∀ (p : MessageProjection) (summary : Option String) (fresh : Bool) (ref : CallRef),
    p.render log (-1) summary fresh ≠ .error (.unsettled ref)
  prefixes : log ≠ [] → log.length ∈ settledPrefixes log

section Clean

variable {log : List Message} {m q : Message} {ref : CallRef}

theorem cleanFinishes_nil : CleanFinishes [] := by
  intro pre m h
  exact absurd (List.prefix_nil.mp h) (by simp)

theorem CleanFinishes.snoc (h : CleanFinishes log)
    (hm : m.body.finishes = true → pendingCalls log m.source = []) : CleanFinishes (log ++ [m]) := by
  intro pre x hpre
  rcases List.prefix_concat_iff.mp hpre with heq | hpre
  · obtain ⟨rfl, hx⟩ := List.append_inj' heq rfl
    cases hx
    exact hm
  · exact h pre x hpre

/-- Whatever closed a call first, an abandon or a finishing Output, has left it
abandoned or settled. -/
theorem settled_or_abandoned (hwf : WellFormed log) (hclean : CleanFinishes log) (hq : q ∈ log)
    (hc : ref ∈ q.calls) (hclosed : Closed log q.source q.seq) :
    Settled log ref ∨ Abandoned log q := by
  obtain ⟨pre, m, hp, hopen, hsrc, hfinish | habandon⟩ := hclosed.first
  · -- A finishing Output: `q` lies before it, and was settled there.
    left
    have hpre := hwf.of_prefix hp
    have hqpre : q ∈ pre := by
      have hqm : q ∈ pre ++ [m] := by
        refine hwf.mem_of_seq_lt hp hq ?_
        rw [List.length_append, List.length_singleton, ← hpre.of_snoc.2.seq]
        omega
      rcases List.mem_append.mp hqm with h | h
      · exact h
      · cases List.mem_singleton.mp h
        rw [Message.calls_eq_nil (Or.inl hfinish.1)] at hc
        cases hc
    by_contra hset
    have hpending : ref ∈ pendingCalls pre m.source := by
      refine (mem_pendingCalls hpre.of_snoc.1).mpr ⟨q, hqpre, hsrc.symm, hc, hsrc ▸ hopen, ?_⟩
      exact fun h => hset (h.mono ((List.prefix_append _ _).trans hp))
    rw [hclean pre m hp hfinish.1] at hpending
    cases hpending
  · right
    obtain ⟨t, ht, hle⟩ := habandon
    have hpre := hwf.of_prefix hp
    have hqpre : q ∈ pre := by
      refine hwf.mem_of_seq_lt ((List.prefix_append _ _).trans hp) hq ?_
      have := Message.abandons_lt ht
      rw [hpre.of_snoc.2.seq] at this
      omega
    exact ⟨isOpenOutput_of_calls hc, pre, m, hp, hqpre, hopen, hsrc, t, ht, hle⟩

/-- With no call pending in any source, every call is settled or abandoned. -/
theorem agrees_of_noPending (hwf : WellFormed log) (hclean : CleanFinishes log)
    (hnone : ∀ source, pendingCalls log source = []) : Agrees log := by
  have hall : ∀ q ∈ log, ∀ ref ∈ q.calls, Settled log ref ∨ Abandoned log q := by
    intro q hq ref hc
    by_cases hclosed : Closed log q.source q.seq
    · exact settled_or_abandoned hwf hclean hq hc hclosed
    · by_contra hnot
      have hpending : ref ∈ pendingCalls log q.source :=
        (mem_pendingCalls hwf).mpr ⟨q, hq, rfl, hc, hclosed, fun h => hnot (Or.inl h)⟩
      rw [hnone] at hpending
      cases hpending
  have hresults : ∀ q ∈ log, q.messageId ∉ (abandonment log).abandoned → ∀ ref ∈ q.calls,
      Settled log ref := by
    intro q hq hab ref hc
    rcases hall q hq ref hc with h | h
    · exact h
    · exact absurd ((abandoned_iff hwf hq).mpr h) hab
  refine ⟨hresults, fun p summary fresh => safe_render hwf summary fresh hresults, fun hne => ?_⟩
  refine mem_settledPrefixes.mpr ⟨List.length_pos_of_ne_nil hne, le_rfl, ?_⟩
  rw [List.take_length, waiting_eq_nil hwf]
  intro q hq ref hc
  exact (hall q hq ref hc).imp_right Abandoned.withdrawn

end Clean

end MonoAgent.Agent
