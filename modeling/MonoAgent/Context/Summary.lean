import MonoAgent.Context.Settled
import MonoAgent.Lib.Exec

/-!
# What a summary covers

A summary names the messages it stands for.  `summaryRange` finds them in a
snapshot and `summaryCutoff` checks that both ends of the range are settled
prefixes, so that what is left after the cut starts with no open call.

`Covers` is the same in terms of the log.  A longer log covers what a shorter one
does, so a summary that was accepted once is accepted for good.
-/

namespace MonoAgent.Context

open MonoAgent.Lib MonoAgent.Session

/-- `messages[start:stop]`. -/
def slice (messages : List Message) (start stop : Nat) : List Message :=
  (messages.take stop).drop start

/-- The identities of some messages. -/
def identities (messages : List Message) : List String := messages.map (·.messageId)

/-- A range of positions. -/
structure Span where
  start : Nat
  stop : Nat
deriving DecidableEq, Repr

/-- `summary_range`. -/
def summaryRange (snapshot : List Message) (sourceMessageIds : List String) :
    Except Error Span := do
  ensure (sourceMessageIds.head?.any (· ∈ identities snapshot))
    ⟨.valueError, "摘要来源缺少实际消息"⟩
  let start := (identities snapshot).idxOf (sourceMessageIds.headD "")
  let stop := start + sourceMessageIds.length
  ensure (identities (slice snapshot start stop) = sourceMessageIds)
    ⟨.valueError, "摘要来源不等于实际连续消息范围"⟩
  return ⟨start, stop⟩

/-- A published summary. -/
structure Summary where
  reference : String
  sourceMessageIds : List String
  content : String
  reference_ne : reference ≠ ""
  sources_ne : sourceMessageIds ≠ [] ∧ "" ∉ sourceMessageIds
  nodup_sources : sourceMessageIds.Nodup
  content_ne : content ≠ ""

/-- A summary is what it says. -/
theorem Summary.eq_iff {a b : Summary} :
    a.reference = b.reference ∧ a.sourceMessageIds = b.sourceMessageIds ∧ a.content = b.content ↔ a = b := by
  cases a
  cases b
  simp

instance : DecidableEq Summary := fun _ _ => decidable_of_iff _ Summary.eq_iff

/-- The input check of a request: one Session, seqs strictly increasing, no
message twice. -/
def checkSnapshot (snapshot : List Message) : Except Error Unit := do
  ensure (∀ m ∈ snapshot, some m.sessionId = snapshot.head?.map (·.sessionId))
    ⟨.valueError, "Context 快照只能属于一个 Session"⟩
  ensure (snapshot.IsChain fun a b => a.seq < b.seq)
    ⟨.valueError, "Context 快照必须按 seq 严格递增"⟩
  ensure (identities snapshot).Nodup ⟨.valueError, "Context 快照消息身份重复"⟩

/-- Both ends of the range are settled. -/
def checkCuts (snapshot : List Message) (covered : Span) : Except Error Unit :=
  let ends := settledPrefixes (snapshot.take covered.stop)
  ensure (covered.stop ∈ ends ∧ (covered.start ≠ 0 → covered.start ∈ ends))
    ⟨.valueError, "摘要不能覆盖尚未结算的工具调用"⟩

/-- `_summary_cutoff`. -/
def summaryCutoff (snapshot : List Message) (summary : Option Summary) : Except Error Int := do
  checkSnapshot snapshot
  match summary with
  | none => return -1
  | some s =>
      let covered ← summaryRange snapshot s.sourceMessageIds
      checkCuts snapshot covered
      match snapshot[covered.stop - 1]? with
      | some m => return m.seq
      | none => throw ⟨.indexError, "tuple index out of range"⟩

/-! ## Slices -/

section Slice

variable {log log' : List Message} {start stop mid : Nat}

theorem length_slice (h : stop ≤ log.length) : (slice log start stop).length = stop - start := by
  rw [slice, List.length_drop, List.length_take, Nat.min_eq_left h]

theorem getElem?_slice {i : Nat} :
    (slice log start stop)[i]? = if start + i < stop then log[start + i]? else none := by
  rw [slice, List.getElem?_drop, List.getElem?_take]

theorem slice_append_slice (h₁ : start ≤ mid) (h₂ : mid ≤ stop) :
    slice log start mid ++ slice log mid stop = slice log start stop := by
  have htake : (log.take stop).take mid = log.take mid := by
    rw [List.take_take, Nat.min_eq_left h₂]
  rw [slice, slice, slice, ← htake]
  generalize log.take stop = l
  rw [List.drop_take]
  have hmid : l.drop mid = (l.drop start).drop (mid - start) := by
    rw [List.drop_drop, Nat.add_sub_of_le h₁]
  rw [hmid, List.take_append_drop]

/-- A slice of a prefix is a slice of the whole. -/
theorem slice_extend (hp : log <+: log') (h : stop ≤ log.length) :
    slice log' start stop = slice log start stop := by
  obtain ⟨rest, rfl⟩ := hp
  rw [slice, slice, List.take_append_of_le_length h]

theorem mem_slice {m : Message} (hwf : WellFormed log) :
    m ∈ slice log start stop ↔ m ∈ log ∧ start ≤ m.seq ∧ m.seq < stop := by
  constructor
  · intro h
    obtain ⟨i, hi⟩ := List.mem_iff_getElem?.mp h
    rw [getElem?_slice] at hi
    split at hi
    · next hlt =>
        have hseq := hwf.seq_getElem? hi
        exact ⟨List.mem_of_getElem? hi, by omega, by omega⟩
    · cases hi
  · intro h
    obtain ⟨hm, hlo, hhi⟩ := h
    refine List.mem_iff_getElem?.mpr ⟨m.seq - start, ?_⟩
    rw [getElem?_slice, Nat.add_sub_of_le hlo, if_pos hhi]
    exact hwf.getElem?_seq hm

theorem identities_slice : identities (slice log start stop) =
    ((identities log).take stop).drop start := by
  rw [identities, slice, List.map_drop, List.map_take]
  rfl

end Slice

/-! ## Covered ranges -/

/-- The identities name the messages from `start` to `stop`. -/
structure Spans (log : List Message) (ids : List String) (start stop : Nat) : Prop where
  lt : start < stop
  le : stop ≤ log.length
  ids : ids = identities (slice log start stop)

/-- No call waits at a position where a snapshot may be cut. -/
def Cut (log : List Message) (n : Nat) : Prop := n = 0 ∨ n ∈ settledPrefixes log

/-- The range spans the identities and may be cut at both ends. -/
structure Covers (log : List Message) (ids : List String) (start stop : Nat) : Prop
    extends Spans log ids start stop where
  origin : Cut log start
  settled : stop ∈ settledPrefixes log

section Cover

variable {log log' : List Message} {ids : List String} {start stop n : Nat}

/-- A position is settled by what comes before it alone. -/
theorem mem_settledPrefixes_extend (hp : log <+: log') (h : n ≤ log.length) :
    n ∈ settledPrefixes log' ↔ n ∈ settledPrefixes log := by
  obtain ⟨rest, rfl⟩ := hp
  rw [mem_settledPrefixes, mem_settledPrefixes, List.take_append_of_le_length h,
    List.length_append]
  constructor
  · exact fun hm => ⟨hm.1, h, hm.2.2⟩
  · exact fun hm => ⟨hm.1, by omega, hm.2.2⟩

theorem Cut.of_prefix (hp : log <+: log') (h : n ≤ log.length) (hc : Cut log' n) : Cut log n :=
  hc.imp_right (mem_settledPrefixes_extend hp h).mp

theorem Cut.mono (hp : log <+: log') (hc : Cut log n) : Cut log' n :=
  hc.imp_right fun hs => (mem_settledPrefixes_extend hp (mem_settledPrefixes.mp hs).2.1).mpr hs

theorem Spans.mono (hp : log <+: log') (h : Spans log ids start stop) :
    Spans log' ids start stop where
  lt := h.lt
  le := h.le.trans hp.length_le
  ids := by rw [slice_extend hp h.le]; exact h.ids

theorem Covers.mono (hp : log <+: log') (h : Covers log ids start stop) :
    Covers log' ids start stop where
  toSpans := h.toSpans.mono hp
  origin := h.origin.mono hp
  settled := (mem_settledPrefixes_extend hp h.le).mpr h.settled

theorem Spans.length (h : Spans log ids start stop) : ids.length = stop - start := by
  rw [h.ids, identities, List.length_map, length_slice h.le]

/-- The first identity is that of the message at `start`. -/
theorem Spans.head (h : Spans log ids start stop) :
    ∃ m, log[start]? = some m ∧ ids.head? = some m.messageId := by
  have hlt := h.lt
  have hle : start < log.length := Nat.lt_of_lt_of_le hlt h.le
  have hget : log[start]? = some log[start] := List.getElem?_eq_getElem hle
  refine ⟨_, hget, ?_⟩
  rw [h.ids, identities, List.head?_eq_getElem?, List.getElem?_map, getElem?_slice,
    Nat.add_zero, if_pos hlt, hget]
  rfl

theorem idxOf_identities (hwf : WellFormed log) {m : Message} (hm : log[n]? = some m) :
    (identities log).idxOf m.messageId = n := by
  obtain ⟨hlt, hget⟩ := List.getElem?_eq_some_iff.mp hm
  have hlt' : n < (identities log).length := by rw [identities, List.length_map]; exact hlt
  have hid : (identities log)[n] = m.messageId := by
    rw [← hget]
    exact List.getElem_map _
  rw [← hid]
  exact hwf.nodup_id.idxOf_getElem n hlt'

/-- Of a log, `summaryRange` finds the one range that spans the identities. -/
theorem summaryRange_eq_ok (hwf : WellFormed log) : summaryRange log ids = .ok ⟨start, stop⟩ ↔
    Spans log ids start stop := by
  rw [summaryRange, Except.bind_eq_ok]
  constructor
  · intro h
    obtain ⟨_, hfirst, h⟩ := h
    obtain ⟨_, hids, hspan⟩ := Except.bind_eq_ok.mp h
    cases hspan
    have hids := ensure_eq_ok.mp hids
    have hfirst := ensure_eq_ok.mp hfirst
    cases ids with
    | nil => cases hfirst
    | cons id rest =>
        have hlen := congrArg List.length hids
        rw [identities_slice, List.length_drop, List.length_take, identities, List.length_map,
          List.length_cons] at hlen
        refine ⟨by rw [List.length_cons]; omega, ?_, hids.symm⟩
        rw [List.length_cons]
        rw [identities] at *
        omega
  · intro h
    obtain ⟨m, hm, hhead⟩ := h.head
    have hstart : (identities log).idxOf (ids.headD "") = start := by
      rw [List.headD_eq_head?_getD, hhead]
      exact idxOf_identities hwf hm
    have hstop : start + ids.length = stop := by
      have := h.lt
      rw [h.length]
      omega
    refine ⟨(), ensure_eq_ok.mpr ?_, ?_⟩
    · rw [hhead, Option.any_some, decide_eq_true_eq]
      exact List.mem_map_of_mem (List.mem_of_getElem? hm)
    · rw [hstart]
      dsimp only
      rw [hstop]
      exact Except.bind_eq_ok.mpr ⟨(), ensure_eq_ok.mpr h.ids.symm, rfl⟩

/-- A range that spans the sources is determined by them. -/
theorem Spans.unique {a b a' b' : Nat} (hwf : WellFormed log) (h : Spans log ids a b)
    (h' : Spans log ids a' b') : a = a' ∧ b = b' := by
  have heq := ((summaryRange_eq_ok hwf).mpr h).symm.trans ((summaryRange_eq_ok hwf).mpr h')
  cases heq
  exact ⟨rfl, rfl⟩

/-- The input check accepts a log. -/
theorem checkSnapshot_of_wellFormed (hwf : WellFormed log) : checkSnapshot log = .ok () := by
  refine Except.bind_eq_ok.mpr ⟨(), ensure_eq_ok.mpr ?_, Except.bind_eq_ok.mpr ⟨(),
    ensure_eq_ok.mpr hwf.pairwise_seq.isChain, ensure_eq_ok.mpr hwf.nodup_id⟩⟩
  intro m hm
  cases log with
  | nil => cases hm
  | cons x rest => exact congrArg some (hwf.session hm (List.mem_cons_self ..))

/-- A summary whose range is covered is accepted, and cuts behind its last message. -/
theorem summaryCutoff_of_covers (hwf : WellFormed log) {s : Summary}
    (h : Covers log s.sourceMessageIds start stop) : summaryCutoff log (some s) = .ok ↑(stop - 1) := by
  have hlt := h.lt
  have hle := h.le
  have hends {n : Nat} (hn : n ≤ stop) :
      n ∈ settledPrefixes (log.take stop) ↔ n ∈ settledPrefixes log :=
    (mem_settledPrefixes_extend (List.take_prefix stop log)
      (by rw [List.length_take, Nat.min_eq_left hle]; exact hn)).symm
  have hcuts : checkCuts log ⟨start, stop⟩ = .ok () :=
    ensure_eq_ok.mpr ⟨(hends (Nat.le_refl _)).mpr h.settled,
      fun hne => (hends hlt.le).mpr (h.origin.resolve_left hne)⟩
  refine Except.bind_eq_ok.mpr ⟨(), checkSnapshot_of_wellFormed hwf, ?_⟩
  refine Except.bind_eq_ok.mpr ⟨_, (summaryRange_eq_ok hwf).mpr h.toSpans, ?_⟩
  refine Except.bind_eq_ok.mpr ⟨(), hcuts, ?_⟩
  have hget := List.getElem?_eq_getElem (l := log) (i := stop - 1) (by omega)
  dsimp only
  rw [hget]
  have hseq := hwf.seq_getElem? hget
  dsimp only
  rw [hseq]
  rfl

end Cover

/-! ## What a cut leaves together -/

section Split

variable {log : List Message} {ids : List String} {start stop : Nat}

theorem Spans.mem_iff (hwf : WellFormed log) (h : Spans log ids start stop) {m : Message}
    (hm : m ∈ log) : m.messageId ∈ ids ↔ m ∈ slice log start stop := by
  rw [h.ids, identities, List.mem_map]
  constructor
  · intro hid
    obtain ⟨x, hx, heq⟩ := hid
    have hxm : x = m := hwf.eq_of_id ((mem_slice hwf).mp hx).1 hm heq
    exact hxm ▸ hx
  · exact fun hmem => ⟨m, hmem, rfl⟩

/-- A call before a settled prefix that was not withdrawn has its result there. -/
theorem result_before (hwf : WellFormed log) {n : Nat} (hn : Cut log n) {q r : Message}
    {ref : CallRef} (hq : q ∈ log) (hc : ref ∈ q.calls) (hr : r ∈ log)
    (hs : r.body.settles = some ref) (hlt : q.seq < n) :
    r.seq < n ∨ Withdrawn (log.take n) q := by
  rcases hn with rfl | hn
  · omega
  · obtain ⟨_, hle, hnil⟩ := mem_settledPrefixes.mp hn
    have hpre := List.take_prefix n log
    have hlen : (log.take n).length = n := by rw [List.length_take, Nat.min_eq_left hle]
    have hqn : q ∈ log.take n := hwf.mem_of_seq_lt hpre hq (by omega)
    rcases (waiting_eq_nil (hwf.of_prefix hpre)).mp hnil q hqn ref hc with hset | hw
    · obtain ⟨r', hr', hs'⟩ := hset
      have heq : r = r' := hwf.result_unique hr (hpre.subset hr') hs hs'
      have hlt' := (hwf.of_prefix hpre).seq_lt hr'
      rw [hlen, ← heq] at hlt'
      exact Or.inl hlt'
    · exact Or.inr hw

/-- A covered range holds a call and its result or neither, unless an abandon before
the end of the range had withdrawn the call. -/
theorem Covers.together (hwf : WellFormed log) (h : Covers log ids start stop) {q r : Message}
    {ref : CallRef} (hq : q ∈ log) (hr : r ∈ log) (hc : ref ∈ q.calls)
    (hs : r.body.settles = some ref) :
    (q.messageId ∈ ids ↔ r.messageId ∈ ids) ∨ Withdrawn (log.take stop) q := by
  have hle := h.lt.le
  have hafter := (hwf.result_after hq hr hc hs).1
  have hstart (hw : Withdrawn (log.take start) q) : Withdrawn (log.take stop) q := by
    obtain ⟨m, hm, hrest⟩ := hw
    exact ⟨m, (List.take_prefix_take_left hle).subset hm, hrest⟩
  rw [h.toSpans.mem_iff hwf hq, h.toSpans.mem_iff hwf hr, mem_slice hwf, mem_slice hwf]
  by_cases hlo : q.seq < start
  · rcases result_before hwf h.origin hq hc hr hs hlo with hlt | hw
    · exact Or.inl (by constructor <;> intro hx <;> omega)
    · exact Or.inr (hstart hw)
  · by_cases hhi : q.seq < stop
    · rcases result_before hwf (Or.inr h.settled) hq hc hr hs hhi with hlt | hw
      · refine Or.inl ⟨fun _ => ⟨hr, by omega, hlt⟩, fun _ => ⟨hq, by omega, hhi⟩⟩
      · exact Or.inr hw
    · exact Or.inl (by constructor <;> intro hx <;> omega)

/-- The last covered message is where a request with the summary is cut. -/
theorem Covers.last (hwf : WellFormed log) {s : Summary}
    (h : Covers log s.sourceMessageIds start stop) :
    ∃ last ∈ log, s.sourceMessageIds.getLast? = some last.messageId ∧ last.seq + 1 = stop ∧
      summaryCutoff log (some s) = .ok last.seq := by
  have hlt := h.lt
  have hle := h.le
  have hget := List.getElem?_eq_getElem (l := log) (i := stop - 1) (by omega)
  have hseq := hwf.seq_getElem? hget
  refine ⟨_, List.mem_of_getElem? hget, ?_, by omega, ?_⟩
  · rw [h.ids, identities, List.getLast?_map, List.getLast?_eq_getElem?, length_slice hle,
      getElem?_slice, if_pos (by omega), show start + (stop - start - 1) = stop - 1 by omega, hget]
    rfl
  · rw [hseq]
    exact summaryCutoff_of_covers hwf h

end Split

end MonoAgent.Context
