import MonoAgent.Lib.Dict
import MonoAgent.Session.Reachable
import MonoAgent.Session.Settlement

/-!
# Settled prefixes

`settledPrefixes` lists the lengths of the prefixes after which no call waits for
a result.  It keeps the waiting calls of all sources: an Output adds its calls, a
result removes one, an abandon removes those it reaches.  On a well-formed log
the waiting calls are the ones neither settled nor withdrawn.
-/

namespace MonoAgent.Context

open MonoAgent.Lib MonoAgent.Session

/-- One message of `settled_prefixes`. -/
def Waiting.visit (pending : Dict CallRef Message) (m : Message) : Dict CallRef Message :=
  match m.body with
  | .input _ => pending
  | .output _ => pending.update (m.calls.map fun ref => (ref, m))
  | .toolResult b => pending.pop b.callRef
  | .control b =>
      if b.action = .abandon then
        pending.filter fun e => e.2.source ≠ m.source ∨ b.throughSeq < e.2.seq
      else pending

/-- The calls that wait for a result after a log. -/
def waiting (messages : List Message) : Dict CallRef Message := messages.foldl Waiting.visit []

/-- `settled_prefixes`. -/
def settledPrefixes (messages : List Message) : List Nat :=
  (messages.zipIdx.foldl (fun (s : Dict CallRef Message × List Nat) m =>
    let pending := Waiting.visit s.1 m.1
    (pending, if pending = [] then s.2 ++ [m.2 + 1] else s.2)) ([], [])).2

/-! ## Waiting calls -/

theorem waiting_snoc (log : List Message) (m : Message) :
    waiting (log ++ [m]) = (Waiting.visit (waiting log) m) := by
  rw [waiting, List.foldl_append]
  rfl

theorem settledPrefixes_fold (log : List Message) :
    (log.zipIdx.foldl (fun (s : Dict CallRef Message × List Nat) m =>
      let pending := Waiting.visit s.1 m.1
      (pending, if pending = [] then s.2 ++ [m.2 + 1] else s.2)) ([], [])) =
      (waiting log, settledPrefixes log) := by
  induction log using List.reverseRecOn with
  | nil => rfl
  | append_singleton log m ih =>
      rw [settledPrefixes, List.zipIdx_append, List.foldl_append, ih, waiting_snoc]
      rfl

theorem settledPrefixes_snoc (log : List Message) (m : Message) :
    settledPrefixes (log ++ [m]) = if waiting (log ++ [m]) = [] then
      settledPrefixes log ++ [log.length + 1] else settledPrefixes log := by
  rw [settledPrefixes, List.zipIdx_append, List.foldl_append, settledPrefixes_fold, waiting_snoc]
  simp

/-- A settled prefix is a nonempty one after which nothing waits. -/
theorem mem_settledPrefixes {log : List Message} {n : Nat} : n ∈ settledPrefixes log ↔
    1 ≤ n ∧ n ≤ log.length ∧ waiting (log.take n) = [] := by
  induction log using List.reverseRecOn with
  | nil =>
      have hnil : settledPrefixes [] = [] := rfl
      rw [hnil, List.length_nil]
      constructor
      · intro h
        cases h
      · intro h
        omega
  | append_singleton log m ih =>
      have hlast : n ∈ settledPrefixes (log ++ [m]) ↔ n ∈ settledPrefixes log ∨
          (n = log.length + 1 ∧ waiting (log ++ [m]) = []) := by
        rw [settledPrefixes_snoc]
        split
        · next h => simp [h]
        · next h => simp [h]
      rw [hlast, ih, List.length_append, List.length_singleton]
      constructor
      · intro h
        rcases h with ⟨hlo, hhi, hw⟩ | ⟨rfl, hw⟩
        · rw [List.take_append_of_le_length hhi]
          exact ⟨hlo, by omega, hw⟩
        · rw [List.take_of_length_le (by simp)]
          exact ⟨by omega, by omega, hw⟩
      · intro h
        obtain ⟨hlo, hhi, hw⟩ := h
        by_cases hle : n ≤ log.length
        · rw [List.take_append_of_le_length hle] at hw
          exact Or.inl ⟨hlo, hle, hw⟩
        · rw [List.take_of_length_le (by simp; omega)] at hw
          exact Or.inr ⟨by omega, hw⟩

/-- The settled prefixes are in increasing order. -/
theorem pairwise_settledPrefixes (log : List Message) :
    (settledPrefixes log).Pairwise (· < ·) := by
  induction log using List.reverseRecOn with
  | nil => exact .nil
  | append_singleton log m ih =>
      rw [settledPrefixes_snoc]
      split
      · refine List.pairwise_append.mpr ⟨ih, List.pairwise_singleton _ _, ?_⟩
        intro a ha b hb
        rw [List.mem_singleton.mp hb]
        have := (mem_settledPrefixes.mp ha).2.1
        omega
      · exact ih

/-- A waiting call was made, and is neither settled nor withdrawn. -/
def Waits (log : List Message) (ref : CallRef) (q : Message) : Prop :=
  q ∈ log ∧ ref ∈ q.calls ∧ ¬ Settled log ref ∧ ¬ Withdrawn log q

section Spec

variable {log : List Message} {m q : Message} {ref : CallRef}

/-- A message that makes no call. -/
theorem waits_snoc (hcalls : m.calls = []) : Waits (log ++ [m]) ref q ↔
    Waits log ref q ∧ m.body.settles ≠ some ref ∧
      ¬ (m.source = q.source ∧ ∃ t, m.body.abandons = some t ∧ q.seq ≤ t) := by
  have hmem : q ∈ log ++ [m] ∧ ref ∈ q.calls ↔ q ∈ log ∧ ref ∈ q.calls := by
    rw [List.mem_append, List.mem_singleton]
    constructor
    · intro h
      obtain ⟨hq | rfl, hc⟩ := h
      · exact ⟨hq, hc⟩
      · rw [hcalls] at hc
        cases hc
    · exact fun h => ⟨Or.inl h.1, h.2⟩
  rw [Waits, Waits, settled_snoc, withdrawn_snoc, ← and_assoc, hmem, not_or, not_or, ne_eq]
  tauto

/-- An Output adds its calls. -/
theorem waits_snoc_calls (hwf : WellFormed log) (ha : Appends log m)
    (hsettles : m.body.settles = none) (habandons : m.body.abandons = none) :
    Waits (log ++ [m]) ref q ↔ Waits log ref q ∨ (q = m ∧ ref ∈ m.calls) := by
  rw [Waits, settled_snoc, withdrawn_snoc, hsettles, habandons, List.mem_append,
    List.mem_singleton]
  constructor
  · intro h
    obtain ⟨hq | rfl, hc, hs, hw⟩ := h
    · exact Or.inl ⟨hq, hc, fun h => hs (Or.inl h), fun h => hw (Or.inl h)⟩
    · exact Or.inr ⟨rfl, hc⟩
  · intro h
    rcases h with ⟨hq, hc, hs, hw⟩ | ⟨rfl, hc⟩
    · exact ⟨Or.inl hq, hc, by simp [hs], by simp [hw]⟩
    · have hs := not_settled_new hwf ha hc
      have hw := not_withdrawn_new hwf ha
      exact ⟨Or.inr rfl, hc, by simp [hs], by simp [hw]⟩

theorem mem_waiting (hwf : WellFormed log) : (ref, q) ∈ waiting log ↔ Waits log ref q := by
  induction hwf with
  | nil =>
      constructor
      · intro h
        cases h
      · intro h
        cases h.1
  | @snoc log m hwf ha ih =>
      rw [waiting_snoc, Waiting.visit]
      cases hb : m.body with
      | input b =>
          rw [waits_snoc (by simp [Message.calls, hb]), ← ih, hb]
          simp [Body.settles, Body.abandons]
      | output b =>
          rw [waits_snoc_calls hwf ha (by rw [hb]; rfl) (by rw [hb]; rfl), ← ih]
          dsimp only
          rw [Dict.mem_update (by simpa [Function.comp_def] using m.nodup_calls)]
          have hkeys : (m.calls.map fun ref => (ref, m)).map Prod.fst = m.calls := by
            simp [Function.comp_def]
          rw [hkeys, List.mem_map]
          constructor
          · intro h
            rcases h with ⟨_, hc, heq⟩ | ⟨_, h⟩
            · cases heq
              exact Or.inr ⟨rfl, hc⟩
            · exact Or.inl h
          · intro h
            rcases h with h | ⟨rfl, hc⟩
            · exact Or.inr ⟨not_call_of_old ha (ih.mp h).1 (ih.mp h).2.1, h⟩
            · exact Or.inl ⟨ref, hc, rfl⟩
      | toolResult b =>
          rw [waits_snoc (by simp [Message.calls, hb]), ← ih, hb, Dict.mem_pop]
          simp [Body.settles, Body.abandons, eq_comm]
      | control b =>
          rw [waits_snoc (by simp [Message.calls, hb]), ← ih, hb]
          by_cases hact : b.action = .abandon
          · have habandons : (Body.control b).abandons = some b.throughSeq := if_pos hact
            dsimp only
            rw [if_pos hact, habandons, List.mem_filter, decide_eq_true_eq]
            refine and_congr_right fun _ => ?_
            constructor
            · intro h
              refine ⟨fun h => (by cases h), fun hcovered => ?_⟩
              obtain ⟨hsrc, t, ht, hle⟩ := hcovered
              cases ht
              rcases h with h | h
              · exact h hsrc.symm
              · exact absurd hle (not_le.mpr h)
            · intro h
              by_contra hnot
              rw [not_or, not_not, not_lt] at hnot
              exact h.2 ⟨hnot.1.symm, b.throughSeq, rfl, hnot.2⟩
          · have habandons : (Body.control b).abandons = none := if_neg hact
            dsimp only
            rw [if_neg hact, habandons]
            simp [Body.settles]

/-- Nothing waits exactly when every call is settled or withdrawn. -/
theorem waiting_eq_nil (hwf : WellFormed log) : waiting log = [] ↔
    ∀ q ∈ log, ∀ ref ∈ q.calls, Settled log ref ∨ Withdrawn log q := by
  rw [List.eq_nil_iff_forall_not_mem]
  constructor
  · intro h q hq ref hc
    by_contra hnot
    rw [not_or] at hnot
    exact h (ref, q) ((mem_waiting hwf).mpr ⟨hq, hc, hnot.1, hnot.2⟩)
  · intro h e he
    obtain ⟨hq, hc, hs, hw⟩ := (mem_waiting hwf).mp he
    rcases h e.2 hq e.1 hc with h | h
    · exact hs h
    · exact hw h

/-- The settled prefixes are, in increasing order, the nonempty ones in which every call has its
result or is withdrawn. -/
theorem settledPrefixes_exact (hwf : WellFormed log) : (settledPrefixes log).Pairwise (· < ·) ∧
    ∀ n, n ∈ settledPrefixes log ↔ 1 ≤ n ∧ n ≤ log.length ∧
      ∀ q ∈ log.take n, ∀ ref ∈ q.calls, Settled (log.take n) ref ∨ Withdrawn (log.take n) q := by
  refine ⟨pairwise_settledPrefixes log, fun n => ?_⟩
  rw [mem_settledPrefixes, waiting_eq_nil (hwf.take n)]

end Spec

/-- Two calls of an answer: the result of the one settles no prefix, and the abandon of the other does. -/
theorem settledPrefixes_talked :
    settledPrefixes ((exampleTalked 4).snapshot "s") = [1, 4] ∧
      (∀ q ∈ ((exampleTalked 4).snapshot "s").take 4, ∀ ref ∈ q.calls,
        Settled (((exampleTalked 4).snapshot "s").take 4) ref ∨ Withdrawn (((exampleTalked 4).snapshot "s").take 4) q) ∧
      ¬ ∀ q ∈ ((exampleTalked 4).snapshot "s").take 3, ∀ ref ∈ q.calls,
        Settled (((exampleTalked 4).snapshot "s").take 3) ref ∨
          Withdrawn (((exampleTalked 4).snapshot "s").take 3) q := by
  have hwf := (logInvariant_of_reachable (exampleTalked_reachable 4)).wellFormed "s"
  obtain ⟨_, hmem⟩ := settledPrefixes_exact hwf
  have hlist : settledPrefixes ((exampleTalked 4).snapshot "s") = [1, 4] ∧
      ((exampleTalked 4).snapshot "s").length = 4 := by decide +kernel
  obtain ⟨hlist, hlength⟩ := hlist
  rw [hlist] at hmem
  refine ⟨hlist, ((hmem 4).mp (by decide)).2.2, fun hthree => ?_⟩
  have hin : 3 ∈ [1, 4] := (hmem 3).mpr ⟨by decide, by omega, hthree⟩
  exact absurd hin (by decide)

end MonoAgent.Context
