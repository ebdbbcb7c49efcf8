import Mathlib
import MonoAgent.Session.Message

/-!
# The log of one Session

The log a reader sees is the list of the Session's messages by seq.  `Appends`
is what the storage guarantees about one more message, and `WellFormed` is a log
built by such appends.  The module on the database shows that every snapshot
of a reachable store is well formed.  The consumers of a log, which are pure
functions of it, are specified over well-formed logs.
-/

namespace MonoAgent.Session

/-- What the storage guarantees when it adds `m` to `log`. -/
structure Appends (log : List Message) (m : Message) : Prop where
  /-- Sequence numbers count the log. -/
  seq : m.seq = log.length
  session : ∀ x ∈ log, x.sessionId = m.sessionId
  fresh : ∀ x ∈ log, x.messageId ≠ m.messageId
  /-- A result answers a call of the same source, for the first time. -/
  result : ∀ ref, m.body.settles = some ref →
    (∃ q ∈ log, q.source = m.source ∧ ref ∈ q.calls) ∧ ∀ r ∈ log, r.body.settles ≠ some ref

/-- A log built by appends from the empty log. -/
inductive WellFormed : List Message → Prop where
  | nil : WellFormed []
  | snoc {log : List Message} {m : Message} :
      WellFormed log → Appends log m → WellFormed (log ++ [m])

namespace WellFormed

variable {log : List Message}

/-- The last append of a nonempty well-formed log. -/
theorem of_snoc {m : Message} (h : WellFormed (log ++ [m])) : WellFormed log ∧ Appends log m := by
  generalize hl : log ++ [m] = l at h
  cases h with
  | nil => simp at hl
  | snoc h ha =>
      obtain ⟨rfl, hm⟩ := List.append_inj' hl rfl
      cases hm
      exact ⟨h, ha⟩

theorem of_append {log' : List Message} (h : WellFormed (log ++ log')) : WellFormed log := by
  induction log' using List.reverseRecOn with
  | nil => simpa using h
  | append_singleton l m ih =>
      rw [← List.append_assoc] at h
      exact ih h.of_snoc.1

/-- A prefix of a well-formed log is well formed. -/
theorem of_prefix {log' : List Message} (h : WellFormed log') (hp : log <+: log') :
    WellFormed log := by
  obtain ⟨rest, rfl⟩ := hp
  exact h.of_append

theorem take (h : WellFormed log) (n : Nat) : WellFormed (log.take n) :=
  h.of_prefix (List.take_prefix n log)

/-- The seq of a message is its position. -/
theorem seq_getElem? (h : WellFormed log) {i : Nat} {m : Message} (hm : log[i]? = some m) :
    m.seq = i := by
  induction h with
  | nil => simp at hm
  | @snoc log m' _ ha ih =>
      rw [List.getElem?_append] at hm
      split at hm
      · exact ih hm
      · next hi =>
          have hlt : i - log.length < [m'].length :=
            (List.getElem?_eq_some_iff.mp hm).1
          have hi' : i = log.length := by simp at hlt; omega
          subst hi'
          simp only [Nat.sub_self, List.getElem?_cons_zero, Option.some.injEq] at hm
          rw [← hm, ha.seq]

theorem getElem?_seq (h : WellFormed log) {m : Message} (hm : m ∈ log) :
    log[m.seq]? = some m := by
  obtain ⟨i, hi⟩ := List.mem_iff_getElem?.mp hm
  rw [h.seq_getElem? hi]
  exact hi

theorem seq_lt (h : WellFormed log) {m : Message} (hm : m ∈ log) : m.seq < log.length :=
  (List.getElem?_eq_some_iff.mp (h.getElem?_seq hm)).1

/-- A message whose seq lies in a prefix is one of the prefix. -/
theorem mem_of_seq_lt (h : WellFormed log) {pre : List Message} (hp : pre <+: log) {m : Message}
    (hm : m ∈ log) (hlt : m.seq < pre.length) : m ∈ pre := by
  have hget := (List.prefix_iff_getElem?.mp hp) m.seq hlt
  rw [h.getElem?_seq hm] at hget
  rw [Option.some.inj hget]
  exact List.getElem_mem hlt

/-- The sequence numbers of a log are `0..n-1`, in order. -/
theorem map_seq (h : WellFormed log) : log.map (·.seq) = List.range log.length := by
  refine List.ext_getElem? fun i => ?_
  rw [List.getElem?_map]
  cases hi : log[i]? with
  | none =>
      have hle : log.length ≤ i := List.getElem?_eq_none_iff.mp hi
      simp [hle]
  | some m =>
      have hlt := (List.getElem?_eq_some_iff.mp hi).1
      simp [h.seq_getElem? hi, hlt]

theorem pairwise_seq (h : WellFormed log) : log.Pairwise fun a b => a.seq < b.seq := by
  induction h with
  | nil => exact .nil
  | snoc h ha ih =>
      refine List.pairwise_append.mpr ⟨ih, List.pairwise_singleton _ _, fun a ham b hb => ?_⟩
      rw [List.mem_singleton.mp hb, ha.seq]
      exact h.seq_lt ham

theorem pairwise_id (h : WellFormed log) :
    log.Pairwise fun a b => a.messageId ≠ b.messageId := by
  induction h with
  | nil => exact .nil
  | snoc _ ha ih =>
      refine List.pairwise_append.mpr ⟨ih, List.pairwise_singleton _ _, fun a ham b hb => ?_⟩
      rw [List.mem_singleton.mp hb]
      exact ha.fresh a ham

theorem nodup_id (h : WellFormed log) : (log.map (·.messageId)).Nodup :=
  List.pairwise_map.mpr h.pairwise_id

/-- Two messages with one identity are the same message. -/
theorem eq_of_id (h : WellFormed log) {m m' : Message} (hm : m ∈ log) (hm' : m' ∈ log)
    (heq : m.messageId = m'.messageId) : m = m' :=
  List.inj_on_of_nodup_map h.nodup_id hm hm' heq

theorem session (h : WellFormed log) {m m' : Message} (hm : m ∈ log) (hm' : m' ∈ log) :
    m.sessionId = m'.sessionId := by
  induction h with
  | nil => cases hm
  | snoc _ ha ih =>
      rw [List.mem_append, List.mem_singleton] at hm hm'
      rcases hm with hm | rfl
      · rcases hm' with hm' | rfl
        · exact ih hm hm'
        · exact ha.session _ hm
      · rcases hm' with hm' | rfl
        · exact (ha.session _ hm').symm
        · rfl

/-- A call belongs to one message only. -/
theorem eq_of_call (h : WellFormed log) {m m' : Message} {ref : CallRef} (hm : m ∈ log)
    (hm' : m' ∈ log) (hc : ref ∈ m.calls) (hc' : ref ∈ m'.calls) : m = m' :=
  h.eq_of_id hm hm' ((Message.mem_calls.mp hc).1.symm.trans (Message.mem_calls.mp hc').1)

/-- A result comes after the call it answers and from the same source. -/
theorem result_after (h : WellFormed log) {q r : Message} {ref : CallRef} (hq : q ∈ log)
    (hr : r ∈ log) (hc : ref ∈ q.calls) (hs : r.body.settles = some ref) :
    q.seq < r.seq ∧ q.source = r.source := by
  induction h with
  | nil => cases hq
  | @snoc log m h ha ih =>
      rw [List.mem_append, List.mem_singleton] at hq hr
      rcases hr with hr | rfl
      · rcases hq with hq | rfl
        · exact ih hq hr
        · obtain ⟨pre, post, rfl⟩ := List.append_of_mem hr
          have hpre : WellFormed (pre ++ [r]) :=
            h.of_prefix ⟨post, by simp⟩
          obtain ⟨⟨q', hq', _, hc'⟩, _⟩ := hpre.of_snoc.2.result ref hs
          exact absurd ((Message.mem_calls.mp hc').1.symm.trans (Message.mem_calls.mp hc).1)
            (ha.fresh q' (by simp [hq']))
      · obtain ⟨⟨q', hq', hsrc, hc'⟩, _⟩ := ha.result ref hs
        rcases hq with hq | rfl
        · cases h.eq_of_call hq hq' hc hc'
          exact ⟨by rw [ha.seq]; exact h.seq_lt hq', hsrc⟩
        · exact absurd ((Message.mem_calls.mp hc').1.symm.trans (Message.mem_calls.mp hc).1)
            (ha.fresh q' hq')

/-- Every result answers a call of the log. -/
theorem call_of_result (h : WellFormed log) {r : Message} {ref : CallRef} (hr : r ∈ log)
    (hs : r.body.settles = some ref) :
    ∃ q ∈ log, q.seq < r.seq ∧ q.source = r.source ∧ ref ∈ q.calls := by
  induction h with
  | nil => cases hr
  | snoc h ha ih =>
      rw [List.mem_append, List.mem_singleton] at hr
      rcases hr with hr | rfl
      · obtain ⟨q, hq, hrest⟩ := ih hr
        exact ⟨q, List.mem_append_left _ hq, hrest⟩
      · obtain ⟨⟨q, hq, hsrc, hc⟩, _⟩ := ha.result ref hs
        exact ⟨q, List.mem_append_left _ hq, by rw [ha.seq]; exact h.seq_lt hq, hsrc, hc⟩

/-- A call has at most one result. -/
theorem result_unique (h : WellFormed log) {r r' : Message} {ref : CallRef} (hr : r ∈ log)
    (hr' : r' ∈ log) (hs : r.body.settles = some ref) (hs' : r'.body.settles = some ref) :
    r = r' := by
  induction h with
  | nil => cases hr
  | snoc _ ha ih =>
      rw [List.mem_append, List.mem_singleton] at hr hr'
      rcases hr with hr | rfl
      · rcases hr' with hr' | rfl
        · exact ih hr hr'
        · exact absurd hs ((ha.result ref hs').2 r hr)
      · rcases hr' with hr' | rfl
        · exact absurd hs' ((ha.result ref hs).2 r' hr')
        · rfl

end WellFormed

/-- An abandon closes a prefix strictly before itself. -/
theorem Message.abandons_lt {m : Message} {t : Nat} (h : m.body.abandons = some t) :
    t < m.seq := by
  unfold Body.abandons at h
  split at h
  · next b hb =>
      split at h
      · cases h
        exact m.control_before b hb
      · cases h
  · cases h

/-! ## Admitted abandons -/

/-- Every earlier boundary of the source of an abandon lies strictly before its
prefix. -/
def Admitted (log : List Message) (m : Message) : Prop :=
  ∀ t, m.body.abandons = some t →
    (∀ x ∈ log, x.source = m.source → x.body.finishes = true → x.seq < t) ∧
    (∀ x ∈ log, x.source = m.source → ∀ t', x.body.abandons = some t' → t' < t)

/-- Every abandon of the log was admitted. -/
def AllAdmitted (log : List Message) : Prop :=
  ∀ pre m, pre ++ [m] <+: log → Admitted pre m

/-- Only a Control can abandon. -/
theorem admitted_of_type {log : List Message} {m : Message} (h : m.body.type ≠ .control) :
    Admitted log m := by
  intro t ht
  cases hb : m.body with
  | control b =>
      rw [hb] at h
      exact absurd rfl h
  | input b =>
      rw [hb] at ht
      cases ht
  | output b =>
      rw [hb] at ht
      cases ht
  | toolResult b =>
      rw [hb] at ht
      cases ht

theorem allAdmitted_nil : AllAdmitted [] := by
  intro pre m h
  exact absurd (List.prefix_nil.mp h) (by simp)

theorem AllAdmitted.of_prefix {log log' : List Message} (h : AllAdmitted log')
    (hp : log <+: log') : AllAdmitted log :=
  fun pre m hpre => h pre m (hpre.trans hp)

theorem AllAdmitted.snoc {log : List Message} {m : Message} (h : AllAdmitted log)
    (hm : Admitted log m) : AllAdmitted (log ++ [m]) := by
  intro pre x hpre
  rcases List.prefix_concat_iff.mp hpre with heq | hpre
  · obtain ⟨rfl, hx⟩ := List.append_inj' heq rfl
    cases hx
    exact hm
  · exact h pre x hpre

end MonoAgent.Session
