import MonoAgent.Lib.Sorted
import MonoAgent.TurnProjection.Project

/-!
# The scan keeps its segments

`ScanSpec log source s` says that the local variables `s` of `project` describe
the log read so far: the pending messages are the segment behind the last
boundary, and the turns are the segments between the boundaries before it.  One
message keeps it (`visit_spec`), by one of three moves: the message is in no
segment (`ScanSpec.skip`), it joins the pending ones (`ScanSpec.push`), or the
boundary moves (`ScanSpec.close`).
-/

namespace MonoAgent.TurnProjection

open MonoAgent.Lib MonoAgent.Session

/-! ## What the scan has done -/

/-- A turn is the segment of its interval. -/
def IsTurn (log : List Message) (source : String) (t : Turn) : Prop :=
  t.source = source ∧ t.afterSeq < t.throughSeq ∧
    t.messageIds = dialogueIds (segment log source t.afterSeq t.throughSeq) ∧
    t.observations = observationsOf (segment log source t.afterSeq t.throughSeq)

/-- The local variables of `project` after it has read `log`. -/
structure ScanSpec (log : List Message) (source : String) (s : Scan) : Prop where
  /-- Everything pending, in order. -/
  pending : s.pending = segment log source s.afterSeq log.length
  calls : ∀ ref, ref ∈ s.calls ↔ ∃ o ∈ s.pending, ref ∈ o.calls
  after_lt : s.afterSeq < log.length
  after_ge : -1 ≤ s.afterSeq
  /-- The boundary is one of the source's own. -/
  boundary : s.afterSeq = -1 ∨
    (∃ x ∈ log, x.source = source ∧ x.body.finishes = true ∧ s.afterSeq = x.seq) ∨
    (∃ x ∈ log, x.source = source ∧ ∃ t, x.body.abandons = some t ∧ s.afterSeq = t)
  turn : ∀ t ∈ s.turns, IsTurn log source t ∧ t.throughSeq ≤ s.afterSeq ∧ t.status ≠ .open
  ordered : s.turns.Pairwise fun t t' => t.throughSeq ≤ t'.afterSeq
  cover : s.turns.flatMap (·.messageIds) = dialogueIds (segment log source (-1) s.afterSeq)
  head : ∀ x ∈ log, x.source = source → (x.seq : Int) ≤ s.sourceHead
  head_lt : s.sourceHead < log.length
  head_mem : s.sourceHead = -1 ∨ ∃ x ∈ log, x.source = source ∧ s.sourceHead = x.seq

/-- The state before the first message. -/
theorem scanSpec_nil (source : String) : ScanSpec [] source {} where
  pending := rfl
  calls := by simp
  after_lt := by simp
  after_ge := by simp
  boundary := Or.inl rfl
  turn := by simp
  ordered := .nil
  cover := rfl
  head := by simp
  head_lt := by simp
  head_mem := Or.inl rfl

/-- The Inputs and Outputs of an interval. -/
def dialogue (log : List Message) (source : String) (a b : Int) : List Message :=
  log.filter fun m => m.source = source ∧ a < m.seq ∧ (m.seq : Int) ≤ b ∧ isDialogue m.body

theorem dialogueIds_segment (log : List Message) (source : String) (a b : Int) :
    dialogueIds (segment log source a b) = (dialogue log source a b).map (·.messageId) := by
  unfold dialogueIds segment dialogue
  rw [List.filter_filter]
  congr 1
  refine List.filter_congr fun m _ => ?_
  cases hd : isDialogue m.body <;> simp [inSegment, hd]

/-- Neighbouring intervals concatenate. -/
theorem dialogue_append {log : List Message} (hwf : WellFormed log) (source : String) {a b c : Int}
    (hab : a ≤ b) (hbc : b ≤ c) :
    dialogue log source a b ++ dialogue log source b c = dialogue log source a c := by
  have hsorted : log.Pairwise fun x y => (x.seq : Int) < y.seq :=
    hwf.pairwise_seq.imp fun h => by omega
  have hsplit := filter_append_filter_of_sorted hsorted
    (fun m => m.source = source ∧ a < m.seq ∧ (m.seq : Int) ≤ c ∧ isDialogue m.body) b
  show _ = List.filter _ log
  rw [← hsplit]
  unfold dialogue
  congr 1
  · refine List.filter_congr fun m _ => ?_
    rw [Bool.eq_iff_iff]
    simp only [decide_eq_true_eq, Bool.and_eq_true]
    constructor
    · rintro ⟨hs, ha, hb, hd⟩; exact ⟨⟨hs, ha, by omega, hd⟩, hb⟩
    · rintro ⟨⟨hs, ha, _, hd⟩, hb⟩; exact ⟨hs, ha, hb, hd⟩
  · refine List.filter_congr fun m _ => ?_
    rw [Bool.eq_iff_iff]
    simp only [decide_eq_true_eq, Bool.and_eq_true]
    constructor
    · rintro ⟨hs, hb, hc, hd⟩; exact ⟨⟨hs, by omega, hc, hd⟩, hb⟩
    · rintro ⟨⟨hs, _, hc, hd⟩, hb⟩; exact ⟨hs, hb, hc, hd⟩

section Visit

variable {log : List Message} {m : Message} {source : String} {s : Scan}

theorem IsTurn.snoc {t : Turn} (ha : Appends log m) (hwf : WellFormed log)
    (h : IsTurn log source t) (hlt : t.throughSeq < log.length) : IsTurn (log ++ [m]) source t := by
  obtain ⟨hs, hi, hids, hobs⟩ := h
  rw [IsTurn, segment_snoc_of_lt ha hwf hlt]
  exact ⟨hs, hi, hids, hobs⟩

theorem ScanSpec.turns_snoc (ha : Appends log m) (hwf : WellFormed log)
    (spec : ScanSpec log source s) :
    ∀ t ∈ s.turns, IsTurn (log ++ [m]) source t ∧ t.throughSeq ≤ s.afterSeq ∧
      t.status ≠ .open := by
  intro t ht
  obtain ⟨hturn, hle, hst⟩ := spec.turn t ht
  exact ⟨hturn.snoc ha hwf (lt_of_le_of_lt hle spec.after_lt), hle, hst⟩

theorem ScanSpec.boundary_snoc (spec : ScanSpec log source s) : s.afterSeq = -1 ∨
    (∃ x ∈ log ++ [m], x.source = source ∧ x.body.finishes = true ∧ s.afterSeq = x.seq) ∨
    (∃ x ∈ log ++ [m], x.source = source ∧ ∃ t, x.body.abandons = some t ∧ s.afterSeq = t) := by
  rcases spec.boundary with h | ⟨x, hx, h⟩ | ⟨x, hx, h⟩
  · exact Or.inl h
  · exact Or.inr (Or.inl ⟨x, List.mem_append_left _ hx, h⟩)
  · exact Or.inr (Or.inr ⟨x, List.mem_append_left _ hx, h⟩)

theorem seq_le_last (hwf : WellFormed (log ++ [m])) :
    ∀ x ∈ log ++ [m], (x.seq : Int) ≤ m.seq := by
  intro x hx
  have hlt := hwf.seq_lt hx
  rw [List.length_append, List.length_singleton] at hlt
  rw [hwf.of_snoc.2.seq]
  omega

/-- A pending list that covers the log covers it to any later bound. -/
theorem segment_pending (hwf : WellFormed (log ++ [m])) (a : Int) :
    segment (log ++ [m]) source a m.seq = segment (log ++ [m]) source a (log ++ [m]).length := by
  refine segment_bound hwf ?_
  rw [hwf.of_snoc.2.seq, List.length_append, List.length_singleton]
  omega

/-- A message that is in no segment only moves the head of its source. -/
theorem ScanSpec.skip (hwf : WellFormed (log ++ [m])) (spec : ScanSpec log source s)
    (hm : inSegment (log ++ [m]) source s.afterSeq m.seq m = false) (head : Int)
    (hhead : head = if m.source = source then (m.seq : Int) else s.sourceHead) :
    ScanSpec (log ++ [m]) source { s with sourceHead := head } := by
  obtain ⟨hlog, ha⟩ := hwf.of_snoc
  have hseq := ha.seq
  have hpend : s.pending = segment (log ++ [m]) source s.afterSeq (log ++ [m]).length := by
    rw [← segment_pending hwf, segment_snoc ha hlog, hm, spec.pending, hseq]
    simp
  have hlt := spec.after_lt
  have hheadlt := spec.head_lt
  have hturns := spec.turns_snoc ha hlog
  refine ⟨hpend, spec.calls, ?_, spec.after_ge, spec.boundary_snoc, hturns, spec.ordered,
    ?_, ?_, ?_, ?_⟩
  · rw [List.length_append, List.length_singleton]
    show s.afterSeq < _
    omega
  · rw [segment_snoc_of_lt ha hlog hlt]
    exact spec.cover
  · intro x hx hsrc
    rw [List.mem_append, List.mem_singleton] at hx
    show (x.seq : Int) ≤ head
    rw [hhead]
    rcases hx with hx | rfl
    · have hle := spec.head x hx hsrc
      have hxlt := hlog.seq_lt hx
      split <;> omega
    · rw [if_pos hsrc]
  · show head < _
    rw [hhead, List.length_append, List.length_singleton]
    split <;> omega
  · show head = -1 ∨ _
    rw [hhead]
    split
    · next h => exact Or.inr ⟨m, by simp, h, rfl⟩
    · rcases spec.head_mem with h | ⟨x, hx, h⟩
      · exact Or.inl h
      · exact Or.inr ⟨x, List.mem_append_left _ hx, h⟩

/-- A message of the segment joins the pending ones. -/
theorem ScanSpec.push (hwf : WellFormed (log ++ [m])) (spec : ScanSpec log source s)
    (hsrc : m.source = source)
    (hm : inSegment (log ++ [m]) source s.afterSeq m.seq m = true) {calls : List CallRef}
    (hcalls : ∀ ref, ref ∈ calls ↔ ref ∈ s.calls ∨ ref ∈ m.calls) :
    ScanSpec (log ++ [m]) source
      { s with pending := s.pending ++ [m], calls := calls, sourceHead := (m.seq : Int) } := by
  obtain ⟨hlog, ha⟩ := hwf.of_snoc
  have hseq := ha.seq
  have hlt := spec.after_lt
  have hturns := spec.turns_snoc ha hlog
  refine ⟨?_, ?_, ?_, spec.after_ge, spec.boundary_snoc, hturns, spec.ordered, ?_,
    fun x hx _ => seq_le_last hwf x hx, ?_, Or.inr ⟨m, by simp, hsrc, rfl⟩⟩
  · rw [← segment_pending hwf, segment_snoc ha hlog, hm, hseq, ← spec.pending]
    rfl
  · intro ref
    rw [hcalls, spec.calls]
    simp [or_and_right, exists_or]
  · rw [List.length_append, List.length_singleton]
    show s.afterSeq < _
    omega
  · rw [segment_snoc_of_lt ha hlog hlt]
    exact spec.cover
  · rw [List.length_append, List.length_singleton]
    show (m.seq : Int) < _
    omega

end Visit

/-! ## Closing a turn -/

section Close

variable {log : List Message} {source : String} {s : Scan}

theorem segment_filter_le {a b c : Int} (hbc : b ≤ c) :
    (segment log source a c).filter (fun m => (m.seq : Int) ≤ b) = segment log source a b := by
  unfold segment
  rw [List.filter_filter]
  refine List.filter_congr fun m _ => ?_
  rw [Bool.eq_iff_iff, Bool.and_eq_true, decide_eq_true_eq, inSegment_iff, inSegment_iff]
  constructor
  · rintro ⟨hb, hs, ha, _, hd⟩
    exact ⟨hs, ha, hb, hd⟩
  · rintro ⟨hs, ha, hb, hd⟩
    exact ⟨hb, hs, ha, by omega, hd⟩

/-- The turns after a boundary at `b`: one more, or none when nothing was pending
before it. -/
def Closes (log : List Message) (source : String) (s : Scan) (b : Int) (turns : List Turn) :
    Prop :=
  (turns = s.turns ∧ segment log source s.afterSeq b = []) ∨
    ∃ ending status, status ≠ .open ∧ turns = s.turns ++
      [buildTurn source s.afterSeq b ending status (segment log source s.afterSeq b)]

/-- The boundary moves to `b`: what lies before it is a turn, what lies behind it
is pending. -/
theorem ScanSpec.close (hwf : WellFormed log) (spec : ScanSpec log source s) {b : Int}
    (hlo : s.afterSeq < b) (hhi : b < log.length)
    (hboundary : (∃ x ∈ log, x.source = source ∧ x.body.finishes = true ∧ b = x.seq) ∨
      (∃ x ∈ log, x.source = source ∧ ∃ t, x.body.abandons = some t ∧ b = t))
    {turns : List Turn} (hturns : Closes log source s b turns) {pending : List Message}
    (hpending : pending = segment log source b log.length) {calls : List CallRef}
    (hcalls : ∀ ref, ref ∈ calls ↔ ∃ o ∈ pending, ref ∈ o.calls) :
    ScanSpec log source
      { s with turns := turns, pending := pending, calls := calls, afterSeq := b } := by
  have hge := spec.after_ge
  have hcover : dialogueIds (segment log source (-1) b) =
      dialogueIds (segment log source (-1) s.afterSeq) ++
        dialogueIds (segment log source s.afterSeq b) := by
    rw [dialogueIds_segment, dialogueIds_segment, dialogueIds_segment, ← List.map_append,
      dialogue_append hwf source hge hlo.le]
  have hold : ∀ t ∈ s.turns, IsTurn log source t ∧ t.throughSeq ≤ b ∧ t.status ≠ .open := by
    intro t ht
    obtain ⟨hturn, hle, hst⟩ := spec.turn t ht
    exact ⟨hturn, hle.trans hlo.le, hst⟩
  have hall : (∀ t ∈ turns, IsTurn log source t ∧ t.throughSeq ≤ b ∧ t.status ≠ .open) ∧
      turns.Pairwise (fun t t' => t.throughSeq ≤ t'.afterSeq) ∧
      turns.flatMap (·.messageIds) = dialogueIds (segment log source (-1) b) := by
    rcases hturns with ⟨rfl, hempty⟩ | ⟨ending, status, hst, rfl⟩
    · refine ⟨hold, spec.ordered, ?_⟩
      rw [spec.cover, hcover, hempty]
      exact (List.append_nil _).symm
    · refine ⟨?_, ?_, ?_⟩
      · intro t ht
        rw [List.mem_append, List.mem_singleton] at ht
        rcases ht with ht | rfl
        · exact hold t ht
        · exact ⟨⟨rfl, hlo, rfl, rfl⟩, le_refl b, hst⟩
      · refine List.pairwise_append.mpr ⟨spec.ordered, List.pairwise_singleton _ _, ?_⟩
        intro t ht t' ht'
        rw [List.mem_singleton.mp ht']
        exact (spec.turn t ht).2.1
      · rw [List.flatMap_append, spec.cover, hcover]
        simp [buildTurn]
  exact {
    pending := hpending
    calls := hcalls
    after_lt := hhi
    after_ge := by show -1 ≤ b; omega
    boundary := Or.inr hboundary
    turn := hall.1
    ordered := hall.2.1
    cover := hall.2.2
    head := spec.head
    head_lt := spec.head_lt
    head_mem := spec.head_mem }

/-- What an abandon keeps pending is what its prefix does not reach: messages
behind it, less the results of calls before it. -/
theorem abandon_rest (hwf : WellFormed log) {a b : Int} (hab : a ≤ b) :
    let rest := (segment log source a log.length).filter fun m => b < m.seq
    rest.filter (fun m => m.body.settles.all (· ∈ rest.flatMap (·.calls))) =
      segment log source b log.length := by
  intro rest
  have hrest : ∀ x, x ∈ rest ↔ x ∈ segment log source a log.length ∧ b < x.seq := by
    intro x
    rw [List.mem_filter, decide_eq_true_eq]
  show List.filter _ (List.filter _ (List.filter _ log)) = List.filter _ log
  rw [List.filter_filter, List.filter_filter]
  refine List.filter_congr fun x hx => ?_
  rw [Bool.eq_iff_iff, Bool.and_eq_true, Bool.and_eq_true, inSegment_iff, inSegment_iff,
    decide_eq_true_eq]
  constructor
  · rintro ⟨⟨hkeep, hb⟩, hsrc, _, hlen, hd | hobs⟩
    · exact ⟨hsrc, hb, hlen, Or.inl hd⟩
    · obtain ⟨_, _, _, _, _, ref, hset, _⟩ := observes_iff.mp hobs
      rw [hset, Option.all_some, decide_eq_true_eq, List.mem_flatMap] at hkeep
      obtain ⟨o, ho, hcall⟩ := hkeep
      obtain ⟨hseg, hbo⟩ := (hrest o).mp ho
      obtain ⟨holog, hosrc, _⟩ := mem_segment.mp hseg
      exact ⟨hsrc, hb, hlen, Or.inr (observes_iff.mpr
        ⟨o, holog, hosrc, hbo, (hwf.result_after holog hx hcall hset).1, ref, hset, hcall⟩)⟩
  · rintro ⟨hsrc, hb, hlen, hd | hobs⟩
    · refine ⟨⟨?_, hb⟩, hsrc, by omega, hlen, Or.inl hd⟩
      rw [settles_of_dialogue hd]
      rfl
    · obtain ⟨o, ho, hosrc, hbo, hlt, ref, hset, hcall⟩ := observes_iff.mp hobs
      refine ⟨⟨?_, hb⟩, hsrc, by omega, hlen, Or.inr (observes_iff.mpr
        ⟨o, ho, hosrc, by omega, hlt, ref, hset, hcall⟩)⟩
      have hseg : o ∈ segment log source a log.length :=
        mem_segment.mpr ⟨ho, hosrc, by omega, by have := hwf.seq_lt ho; omega,
          Or.inl (dialogue_of_calls hcall)⟩
      rw [hset, Option.all_some, decide_eq_true_eq, List.mem_flatMap]
      exact ⟨o, (hrest o).mpr ⟨hseg, hbo⟩, hcall⟩

/-- The filter of an abandon drops results only. -/
theorem mem_rest_calls {rest : List Message} {p : CallRef → Bool} {ref : CallRef} :
    ref ∈ rest.flatMap (·.calls) ↔
      ∃ o ∈ rest.filter (fun m => m.body.settles.all p), ref ∈ o.calls := by
  rw [List.mem_flatMap]
  constructor
  · rintro ⟨o, ho, hcall⟩
    refine ⟨o, List.mem_filter.mpr ⟨ho, ?_⟩, hcall⟩
    rw [settles_of_dialogue (dialogue_of_calls hcall)]
    rfl
  · rintro ⟨o, ho, hcall⟩
    exact ⟨o, (List.mem_filter.mp ho).1, hcall⟩

end Close

/-! ## The scan of a log -/

section Scan

variable {log : List Message} {m : Message} {source : String} {s : Scan}

/-- A result is pending exactly when its call is. -/
theorem observes_iff_calls (hwf : WellFormed (log ++ [m])) (spec : ScanSpec log source s)
    {ref : CallRef} (hset : m.body.settles = some ref) :
    observes (log ++ [m]) source s.afterSeq m = true ↔ ref ∈ s.calls := by
  obtain ⟨hlog, ha⟩ := hwf.of_snoc
  rw [observes_iff, spec.calls]
  constructor
  · rintro ⟨o, ho, hsrc, hafter, hlt, ref', hset', hcall⟩
    cases hset.symm.trans hset'
    rw [List.mem_append, List.mem_singleton] at ho
    rcases ho with ho | rfl
    · have hseg : o ∈ segment log source s.afterSeq log.length :=
        mem_segment.mpr ⟨ho, hsrc, hafter, by have := hlog.seq_lt ho; omega,
          Or.inl (dialogue_of_calls hcall)⟩
      exact ⟨o, spec.pending ▸ hseg, hcall⟩
    · exact absurd hlt (lt_irrefl _)
  · rintro ⟨o, ho, hcall⟩
    rw [spec.pending] at ho
    obtain ⟨holog, hsrc, hafter, _⟩ := mem_segment.mp ho
    have hlt := hlog.seq_lt holog
    exact ⟨o, List.mem_append_left _ holog, hsrc, hafter, by rw [ha.seq]; exact hlt, ref, hset,
      hcall⟩

/-- An admitted abandon reaches past the last boundary. -/
theorem ScanSpec.after_lt_abandon (spec : ScanSpec log source s) (hadm : Admitted log m)
    (hsrc : m.source = source) {t : Nat} (habandon : m.body.abandons = some t) :
    s.afterSeq < t := by
  obtain ⟨hfinish, hclosed⟩ := hadm t habandon
  rcases spec.boundary with h | ⟨x, hx, hxsrc, hxf, h⟩ | ⟨x, hx, hxsrc, t', ht', h⟩
  · omega
  · have := hfinish x hx (hxsrc.trans hsrc.symm) hxf
    omega
  · have := hclosed x hx (hxsrc.trans hsrc.symm) t' ht'
    omega

/-- The abandon branch: closed messages, and what is left of the pending ones. -/
theorem abandon_spec (hwf : WellFormed log) (spec : ScanSpec log source s)
    (hmem : m ∈ log) (hsrc : m.source = source) {t : Nat} (habandon : m.body.abandons = some t)
    (hlo : s.afterSeq < t) (hhi : t < log.length) :
    ∃ s', s.abandon source m.messageId t = .ok s' ∧ ScanSpec log source s' ∧
      s.turns <+: s'.turns := by
  have hclosed : s.pending.filter (fun x => x.seq ≤ t) = segment log source s.afterSeq t := by
    rw [spec.pending, ← segment_filter_le (b := t) (c := log.length) (by omega)]
    exact List.filter_congr fun x _ => by simp
  have hrest : s.pending.filter (fun x => t < x.seq) =
      (segment log source s.afterSeq log.length).filter fun x => (t : Int) < x.seq := by
    rw [spec.pending]
    exact List.filter_congr fun x _ => by simp
  unfold Scan.abandon
  rw [if_neg (by omega)]
  refine ⟨_, rfl, ?_, ?_⟩
  · refine spec.close hwf hlo (by omega) (Or.inr ⟨m, hmem, hsrc, t, habandon, rfl⟩) ?_ ?_ ?_
    · rw [hclosed]
      by_cases hempty : segment log source s.afterSeq t = []
      · rw [if_pos hempty]
        exact Or.inl ⟨rfl, hempty⟩
      · rw [if_neg hempty]
        exact Or.inr ⟨_, _, by decide, rfl⟩
    · rw [hrest]
      exact abandon_rest hwf hlo.le
    · intro ref
      exact mem_rest_calls
  · show s.turns <+: if _ then _ else _
    split
    · exact List.prefix_rfl
    · exact List.prefix_append _ _

/-- One message of the scan: it is read without error and closed turns stay. -/
theorem visit_spec (hwf : WellFormed (log ++ [m])) (hadm : Admitted log m)
    (spec : ScanSpec log source s) :
    ∃ s', s.visit source m = .ok s' ∧ ScanSpec (log ++ [m]) source s' ∧
      s.turns <+: s'.turns := by
  obtain ⟨hlog, ha⟩ := hwf.of_snoc
  have hafter := spec.after_lt
  have hseq := ha.seq
  have hmem : m ∈ log ++ [m] := List.mem_append_right _ (List.mem_singleton_self m)
  unfold Scan.visit
  by_cases hsrc : m.source = source
  case neg =>
    have hout : inSegment (log ++ [m]) source s.afterSeq m.seq m = false := by
      rw [Bool.eq_false_iff, ne_eq, inSegment_iff]
      exact fun h => hsrc h.1
    rw [if_pos hsrc]
    exact ⟨s, rfl, spec.skip hwf hout s.sourceHead (if_neg hsrc).symm, List.prefix_rfl⟩
  rw [if_neg (not_not.mpr hsrc)]
  have hdialogue (h : isDialogue m.body = true) :
      inSegment (log ++ [m]) source s.afterSeq m.seq m = true :=
    inSegment_iff.mpr ⟨hsrc, by omega, le_refl _, Or.inl h⟩
  -- A message outside the segment leaves only its seq.
  have hskip (h : isDialogue m.body = false)
      (h' : observes (log ++ [m]) source s.afterSeq m = false) :
      ScanSpec (log ++ [m]) source { s with sourceHead := (m.seq : Int) } := by
    refine spec.skip hwf ?_ m.seq (if_pos hsrc).symm
    rw [Bool.eq_false_iff, ne_eq, inSegment_iff, h, h']
    simp
  have hnone (h : m.body.settles = none) :
      observes (log ++ [m]) source s.afterSeq m = false := by
    rw [Bool.eq_false_iff, ne_eq, observes_iff]
    rintro ⟨_, _, _, _, _, ref, hset, _⟩
    rw [h] at hset
    cases hset
  cases hb : m.body with
  | input b =>
      have hcalls : m.calls = [] := by unfold Message.calls; rw [hb]
      exact ⟨_, rfl, spec.push hwf hsrc (hdialogue (by rw [hb]; rfl)) (by simp [hcalls]),
        List.prefix_rfl⟩
  | output b =>
      have hpush (calls : List CallRef)
          (hcalls : ∀ ref, ref ∈ calls ↔ ref ∈ s.calls ∨ ref ∈ m.calls) :=
        spec.push hwf hsrc (hdialogue (by rw [hb]; rfl)) hcalls
      by_cases hfin : b.finish ≠ .continue
      · have hspec := hpush (s.calls ++ m.calls) (by simp)
        refine ⟨_, if_pos hfin, ?_, List.prefix_append _ _⟩
        have hend : (m.seq : Int) < (log ++ [m]).length := by
          rw [List.length_append, List.length_singleton]
          omega
        refine hspec.close hwf (b := m.seq) (by show s.afterSeq < _; omega) hend
          (Or.inl ⟨m, hmem, hsrc, by simp [hb, Body.finishes, hfin], rfl⟩) ?_ ?_ (by simp)
        · refine Or.inr ⟨some m.messageId, statusOf b.finish, by cases b.finish <;> decide, ?_⟩
          rw [segment_pending hwf, ← hspec.pending]
        · refine (List.filter_eq_nil_iff.mpr fun x hx => ?_).symm
          have := seq_le_last hwf x hx
          rw [inSegment_iff]
          omega
      · exact ⟨_, if_neg hfin, hpush _ (by simp), List.prefix_rfl⟩
  | toolResult b =>
      have hset : m.body.settles = some b.callRef := by rw [hb]; rfl
      have hobs := observes_iff_calls hwf spec hset
      by_cases hmemc : b.callRef ∈ s.calls
      · refine ⟨_, if_pos hmemc, ?_, List.prefix_rfl⟩
        refine spec.push hwf hsrc (inSegment_iff.mpr
          ⟨hsrc, by omega, le_refl _, Or.inr (hobs.mpr hmemc)⟩) fun ref => ?_
        rw [Message.calls_eq_nil (Or.inr (Or.inr (by rw [hset]; rfl)))]
        simp
      · refine ⟨_, if_neg hmemc, hskip (by rw [hb]; rfl) ?_, List.prefix_rfl⟩
        exact Bool.eq_false_iff.mpr fun h => hmemc (hobs.mp h)
  | control b =>
      have hspec := hskip (by rw [hb]; rfl) (hnone (by rw [hb]; rfl))
      by_cases hact : b.action = .abandon
      · have habandon : m.body.abandons = some b.throughSeq := by
          rw [hb]
          exact if_pos hact
        have hlt := Message.abandons_lt habandon
        obtain ⟨s', hs', hspec', hturns⟩ := abandon_spec hwf hspec hmem hsrc habandon
          (spec.after_lt_abandon hadm hsrc habandon)
          (by rw [List.length_append, List.length_singleton]; omega)
        exact ⟨s', (if_pos hact).trans hs', hspec', hturns⟩
      · exact ⟨_, if_neg hact, hspec, List.prefix_rfl⟩

end Scan

theorem scan_snoc (source : String) (log : List Message) (m : Message) :
    scan source (log ++ [m]) = scan source log >>= fun s => s.visit source m := by
  unfold scan
  rw [List.foldlM_append]
  simp

/-- The scan of an admitted log succeeds. -/
theorem scan_spec {log : List Message} (source : String) (hwf : WellFormed log)
    (hadm : AllAdmitted log) : ∃ s, scan source log = .ok s ∧ ScanSpec log source s := by
  induction log using List.reverseRecOn with
  | nil => exact ⟨{}, rfl, scanSpec_nil source⟩
  | append_singleton log m ih =>
      obtain ⟨s, hs, hspec⟩ := ih hwf.of_append (hadm.of_prefix (List.prefix_append _ _))
      obtain ⟨s', hs', hspec', _⟩ := visit_spec hwf (hadm log m List.prefix_rfl) hspec
      refine ⟨s', ?_, hspec'⟩
      rw [scan_snoc, hs]
      exact hs'

/-- A longer log has at least the turns of a prefix. -/
theorem scan_turns_prefix {log rest : List Message} {source : String}
    (hwf : WellFormed (log ++ rest)) (hadm : AllAdmitted (log ++ rest)) {s s' : Scan}
    (hs : scan source log = .ok s) (hs' : scan source (log ++ rest) = .ok s') :
    s.turns <+: s'.turns := by
  induction rest using List.reverseRecOn generalizing s' with
  | nil =>
      rw [List.append_nil, hs] at hs'
      cases hs'
      exact List.prefix_rfl
  | append_singleton rest m ih =>
      rw [← List.append_assoc] at hwf hadm hs'
      have hadm' := hadm.of_prefix (List.prefix_append (log ++ rest) [m])
      obtain ⟨t, ht, hspec⟩ := scan_spec source hwf.of_append hadm'
      obtain ⟨t', ht', _, hturns⟩ := visit_spec hwf (hadm _ m List.prefix_rfl) hspec
      rw [scan_snoc, ht] at hs'
      cases hs'.symm.trans ht'
      exact (ih hwf.of_append hadm' ht).trans hturns

end MonoAgent.TurnProjection
