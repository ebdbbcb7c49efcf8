import MonoAgent.TurnProjection.Scan

/-!
# Turns partition the log

On a log whose abandons were admitted `project` succeeds, and its turns partition
the Inputs and Outputs of the source by seq.  What a longer log adds comes behind
the closed turns of the shorter one.
-/

namespace MonoAgent.TurnProjection

open MonoAgent.Session

/-! ## The input check -/

theorem foldlM_followsPrefix {sessionId : String} {l : List Message}
    (hsession : ∀ x ∈ l, x.sessionId = sessionId)
    (hseq : l.Pairwise fun a b => a.seq < b.seq)
    (hid : l.Pairwise fun a b => a.messageId ≠ b.messageId) (prev : Int) (seen : List String)
    (hprev : ∀ x ∈ l, prev < x.seq) (hseen : ∀ x ∈ l, x.messageId ∉ seen) :
    ∃ s, l.foldlM (followsPrefix (some sessionId)) (prev, seen) = .ok s := by
  induction l generalizing prev seen with
  | nil => exact ⟨_, rfl⟩
  | cons m rest ih =>
      obtain ⟨hseq₀, hseq⟩ := List.pairwise_cons.mp hseq
      obtain ⟨hid₀, hid⟩ := List.pairwise_cons.mp hid
      have hstep : followsPrefix (some sessionId) (prev, seen) m =
          .ok ((m.seq : Int), m.messageId :: seen) := by
        have h₁ := hsession m (List.mem_cons_self ..)
        have h₂ := hprev m (List.mem_cons_self ..)
        have h₃ := hseen m (List.mem_cons_self ..)
        unfold followsPrefix
        rw [if_neg (by rw [h₁]; simpa using h₂), if_neg h₃]
      rw [List.foldlM_cons, hstep]
      refine ih (fun x hx => hsession x (List.mem_cons_of_mem _ hx)) hseq hid _ _ ?_ ?_
      · intro x hx
        have := hseq₀ x hx
        omega
      · intro x hx hmem
        rcases List.mem_cons.mp hmem with h | h
        · exact hid₀ x hx h.symm
        · exact hseen x (List.mem_cons_of_mem _ hx) h

/-- A well-formed log passes the input check. -/
theorem checkPrefix_ok {log : List Message} (hwf : WellFormed log) : checkPrefix log = .ok () := by
  unfold checkPrefix
  cases log with
  | nil => rfl
  | cons m rest =>
      obtain ⟨s, hs⟩ := foldlM_followsPrefix
        (fun x hx => hwf.session hx (List.mem_cons_self ..)) hwf.pairwise_seq hwf.pairwise_id (-1) []
        (fun x _ => by omega) (fun x _ => List.not_mem_nil)
      rw [List.head?_cons, Option.map_some, hs]
      rfl

/-! ## The partition -/

/-- The turns partition the Inputs and Outputs of the source. -/
structure Partition (log : List Message) (source : String) (turns : List Turn) : Prop where
  /-- The members of the turns, in order, are the Inputs and Outputs of the source. -/
  cover : turns.flatMap (·.messageIds) =
    (log.filter fun m => m.source = source ∧ isDialogue m.body).map (·.messageId)
  /-- Every Input and Output is in exactly one turn. -/
  once : ∀ m ∈ log, m.source = source → isDialogue m.body = true →
    ∃! i : Nat, ∃ t : Turn, turns[i]? = some t ∧ m.messageId ∈ t.messageIds
  interval : ∀ t ∈ turns, t.source = source ∧ t.afterSeq < t.throughSeq
  increasing : turns.Pairwise fun t t' => t.throughSeq ≤ t'.afterSeq
  /-- The interval of a turn contains its members and no other Input or Output. -/
  members : ∀ t ∈ turns, ∀ m ∈ log, m.source = source → isDialogue m.body = true →
    (m.messageId ∈ t.messageIds ↔ t.afterSeq < m.seq ∧ (m.seq : Int) ≤ t.throughSeq)
  /-- The observations of a turn are the results in its interval of calls made by
  its own Outputs. -/
  observed : ∀ t ∈ turns, ∀ ref id, (ref, id) ∈ t.observations ↔
    ∃ r ∈ log, r.messageId = id ∧ r.source = source ∧ r.body.settles = some ref ∧
      t.afterSeq < r.seq ∧ (r.seq : Int) ≤ t.throughSeq ∧
      ∃ o ∈ log, o.messageId ∈ t.messageIds ∧ ref ∈ o.calls
  /-- No result is observed twice. -/
  observedOnce : ((turns.flatMap (·.observations)).map Prod.snd).Nodup

section Partition

variable {log : List Message} {source : String} {turns : List Turn}

theorem mem_dialogueIds {messages : List Message} {id : String} :
    id ∈ dialogueIds messages ↔
      ∃ m ∈ messages, isDialogue m.body = true ∧ m.messageId = id := by
  simp [dialogueIds, and_assoc]

theorem mem_observationsOf {messages : List Message} {ref : CallRef} {id : String} :
    (ref, id) ∈ observationsOf messages ↔
      ∃ m ∈ messages, m.body.settles = some ref ∧ m.messageId = id := by
  simp [observationsOf]

theorem observationsOf_ids (messages : List Message) : (observationsOf messages).map Prod.snd =
    (messages.filter fun m => m.body.settles.isSome).map (·.messageId) := by
  induction messages with
  | nil => rfl
  | cons m rest ih =>
      unfold observationsOf at ih ⊢
      cases hset : m.body.settles with
      | none => simpa [hset] using ih
      | some ref => simpa [hset] using ih

theorem IsTurn.mem_messageIds (hwf : WellFormed log) {t : Turn} (h : IsTurn log source t)
    {m : Message} (hm : m ∈ log) (hd : isDialogue m.body = true) :
    m.messageId ∈ t.messageIds ↔
      m.source = source ∧ t.afterSeq < m.seq ∧ (m.seq : Int) ≤ t.throughSeq := by
  obtain ⟨_, _, hids, _⟩ := h
  rw [hids, mem_dialogueIds]
  constructor
  · rintro ⟨x, hx, _, hid⟩
    obtain ⟨hxlog, hsrc, hlo, hhi, _⟩ := mem_segment.mp hx
    cases hwf.eq_of_id hxlog hm hid
    exact ⟨hsrc, hlo, hhi⟩
  · rintro ⟨hsrc, hlo, hhi⟩
    exact ⟨m, mem_segment.mpr ⟨hm, hsrc, hlo, hhi, Or.inl hd⟩, hd, rfl⟩

theorem IsTurn.mem_observations (hwf : WellFormed log) {t : Turn} (h : IsTurn log source t)
    {ref : CallRef} {id : String} : (ref, id) ∈ t.observations ↔
      ∃ r ∈ log, r.messageId = id ∧ r.source = source ∧ r.body.settles = some ref ∧
        t.afterSeq < r.seq ∧ (r.seq : Int) ≤ t.throughSeq ∧
        ∃ o ∈ log, o.messageId ∈ t.messageIds ∧ ref ∈ o.calls := by
  have hobs := h.2.2.2
  rw [hobs, mem_observationsOf]
  constructor
  · rintro ⟨r, hr, hset, hid⟩
    obtain ⟨hrlog, hsrc, hlo, hhi, hd | hob⟩ := mem_segment.mp hr
    · rw [settles_of_dialogue hd] at hset
      cases hset
    · obtain ⟨o, ho, hosrc, holo, hlt, ref', hset', hcall⟩ := observes_iff.mp hob
      cases hset.symm.trans hset'
      refine ⟨r, hrlog, hid, hsrc, hset, hlo, hhi, o, ho, ?_, hcall⟩
      exact (h.mem_messageIds hwf ho (dialogue_of_calls hcall)).mpr ⟨hosrc, holo, by omega⟩
  · rintro ⟨r, hr, hid, hsrc, hset, hlo, hhi, o, ho, hoids, hcall⟩
    obtain ⟨hosrc, holo, _⟩ := (h.mem_messageIds hwf ho (dialogue_of_calls hcall)).mp hoids
    have hlt := (hwf.result_after ho hr hcall hset).1
    exact ⟨r, mem_segment.mpr ⟨hr, hsrc, hlo, hhi, Or.inr (observes_iff.mpr
      ⟨o, ho, hosrc, holo, hlt, ref, hset, hcall⟩)⟩, hset, hid⟩

/-- Turns in order have disjoint intervals. -/
theorem eq_of_interval (hinc : turns.Pairwise fun t t' => t.throughSeq ≤ t'.afterSeq)
    {i j : Nat} {t t' : Turn} (ht : turns[i]? = some t) (ht' : turns[j]? = some t') {n : Int}
    (h : t.afterSeq < n ∧ n ≤ t.throughSeq) (h' : t'.afterSeq < n ∧ n ≤ t'.throughSeq) :
    i = j := by
  obtain ⟨hi, rfl⟩ := List.getElem?_eq_some_iff.mp ht
  obtain ⟨hj, rfl⟩ := List.getElem?_eq_some_iff.mp ht'
  rcases Nat.lt_trichotomy i j with hlt | heq | hgt
  · have := List.pairwise_iff_getElem.mp hinc i j hi hj hlt
    omega
  · exact heq
  · have := List.pairwise_iff_getElem.mp hinc j i hj hi hgt
    omega

/-- Turns that are segments in order and cover the source are a partition. -/
theorem partition_of_turns (hwf : WellFormed log) (hturn : ∀ t ∈ turns, IsTurn log source t)
    (hinc : turns.Pairwise fun t t' => t.throughSeq ≤ t'.afterSeq)
    (hcover : turns.flatMap (·.messageIds) =
      (log.filter fun m => m.source = source ∧ isDialogue m.body).map (·.messageId)) :
    Partition log source turns where
  cover := hcover
  once := by
    intro m hm hsrc hd
    have hmem : m.messageId ∈ turns.flatMap (·.messageIds) := by
      rw [hcover]
      exact List.mem_map.mpr ⟨m, List.mem_filter.mpr ⟨hm, by simp [hsrc, hd]⟩, rfl⟩
    obtain ⟨t, ht, hid⟩ := List.mem_flatMap.mp hmem
    obtain ⟨i, hi⟩ := List.mem_iff_getElem?.mp ht
    refine ⟨i, ⟨t, hi, hid⟩, ?_⟩
    rintro j ⟨t', ht', hid'⟩
    have h := ((hturn t ht).mem_messageIds hwf hm hd).mp hid
    have h' := ((hturn t' (List.mem_of_getElem? ht')).mem_messageIds hwf hm hd).mp hid'
    exact eq_of_interval hinc ht' hi h'.2 h.2
  interval := fun t ht => ⟨(hturn t ht).1, (hturn t ht).2.1⟩
  increasing := hinc
  members := by
    intro t ht m hm hsrc hd
    rw [(hturn t ht).mem_messageIds hwf hm hd]
    exact and_iff_right hsrc
  observed := fun t ht _ _ => (hturn t ht).mem_observations hwf
  observedOnce := by
    rw [List.map_flatMap, List.nodup_flatMap]
    constructor
    · intro t ht
      rw [(hturn t ht).2.2.2, observationsOf_ids]
      exact hwf.nodup_id.sublist
        ((List.filter_sublist.trans List.filter_sublist).map _)
    · refine hinc.imp_of_mem fun {t t'} ht ht' hle => ?_
      intro id hid hid'
      obtain ⟨⟨ref, _⟩, hob, rfl⟩ := List.mem_map.mp hid
      obtain ⟨⟨ref', _⟩, hob', heq⟩ := List.mem_map.mp hid'
      obtain ⟨r, hr, hrid, _, _, _, hhi, _⟩ := ((hturn t ht).mem_observations hwf).mp hob
      obtain ⟨r', hr', hrid', _, _, hlo', _⟩ := ((hturn t' ht').mem_observations hwf).mp hob'
      have hsame : r = r' := hwf.eq_of_id hr hr' (hrid.trans (heq.symm.trans hrid'.symm))
      subst hsame
      omega

end Partition

/-! ## The projection -/

section Project

variable {log : List Message} {source : String} {s : Scan}

/-- The open tail, when there is one, is the segment behind the last boundary. -/
theorem ScanSpec.open_turn (spec : ScanSpec log source s) (hne : s.pending ≠ []) :
    IsTurn log source (buildTurn source s.afterSeq s.sourceHead none .open s.pending) := by
  have hseg : segment log source s.afterSeq s.sourceHead = s.pending := by
    rw [spec.pending]
    refine List.filter_congr fun x hx => ?_
    rw [Bool.eq_iff_iff, inSegment_iff, inSegment_iff]
    have hlt := spec.head_lt
    constructor
    · rintro ⟨hsrc, hlo, hhi, h⟩
      exact ⟨hsrc, hlo, by omega, h⟩
    · rintro ⟨hsrc, hlo, _, h⟩
      exact ⟨hsrc, hlo, spec.head x hx hsrc, h⟩
  obtain ⟨x, hx⟩ := List.exists_mem_of_ne_nil _ hne
  rw [spec.pending] at hx
  obtain ⟨hxlog, hsrc, hlo, _⟩ := mem_segment.mp hx
  have hhead := spec.head x hxlog hsrc
  refine ⟨rfl, by show s.afterSeq < s.sourceHead; omega, ?_, ?_⟩
  · show dialogueIds s.pending = dialogueIds (segment log source s.afterSeq s.sourceHead)
    rw [hseg]
  · show observationsOf s.pending = observationsOf (segment log source s.afterSeq s.sourceHead)
    rw [hseg]

/-- What the scan leaves is a partition. -/
theorem ScanSpec.partition (hwf : WellFormed log) (spec : ScanSpec log source s) :
    Partition log source (s.result source) := by
  have hafter := spec.after_lt
  have hids : dialogueIds (segment log source (-1) log.length) =
      (log.filter fun m => m.source = source ∧ isDialogue m.body).map (·.messageId) := by
    rw [dialogueIds_segment]
    congr 1
    refine List.filter_congr fun m hm => ?_
    have hlo : (-1 : Int) < m.seq := by omega
    have hhi : (m.seq : Int) ≤ log.length := by
      have := hwf.seq_lt hm
      omega
    simp [hlo, hhi]
  have hpending : dialogueIds s.pending = dialogueIds (segment log source s.afterSeq log.length) := by
    rw [← spec.pending]
  have hcover : s.turns.flatMap (·.messageIds) ++ dialogueIds s.pending =
      (log.filter fun m => m.source = source ∧ isDialogue m.body).map (·.messageId) := by
    rw [spec.cover, hpending, ← hids, dialogueIds_segment, dialogueIds_segment,
      dialogueIds_segment, ← List.map_append, dialogue_append hwf source spec.after_ge hafter.le]
  unfold Scan.result
  by_cases hempty : s.pending = []
  · rw [if_pos hempty]
    refine partition_of_turns hwf (fun t ht => (spec.turn t ht).1) spec.ordered ?_
    rw [← hcover, hempty]
    exact (List.append_nil _).symm
  · rw [if_neg hempty]
    refine partition_of_turns hwf ?_ ?_ ?_
    · intro t ht
      rcases List.mem_append.mp ht with ht | ht
      · exact (spec.turn t ht).1
      · rw [List.mem_singleton.mp ht]
        exact spec.open_turn hempty
    · refine List.pairwise_append.mpr ⟨spec.ordered, List.pairwise_singleton _ _, ?_⟩
      intro t ht t' ht'
      rw [List.mem_singleton.mp ht']
      exact (spec.turn t ht).2.1
    · rw [List.flatMap_append, ← hcover]
      simp [buildTurn]

theorem ScanSpec.closedTurns_result (spec : ScanSpec log source s) :
    closedTurns (s.result source) = s.turns := by
  have hclosed : closedTurns s.turns = s.turns :=
    List.filter_eq_self.mpr fun t ht => by simpa using (spec.turn t ht).2.2
  unfold Scan.result
  split
  · exact hclosed
  · rw [closedTurns, List.filter_append]
    show closedTurns s.turns ++ _ = _
    rw [hclosed]
    exact List.append_nil _

theorem project_of_scan (hwf : WellFormed log) (hs : scan source log = .ok s) :
    project log source = .ok (s.result source) := by
  unfold project
  rw [checkPrefix_ok hwf, hs]
  rfl

/-- `project` accepts a log whose abandons were admitted and partitions it. -/
theorem project_spec (source : String) (hwf : WellFormed log) (hadm : AllAdmitted log) :
    ∃ turns, project log source = .ok turns ∧ Partition log source turns := by
  obtain ⟨s, hs, hspec⟩ := scan_spec source hwf hadm
  exact ⟨_, project_of_scan hwf hs, hspec.partition hwf⟩

/-- A longer log keeps the closed turns of a prefix. -/
theorem project_closed_prefix {log' : List Message} (hwf : WellFormed log')
    (hadm : AllAdmitted log') (hp : log <+: log') {turns turns' : List Turn}
    (hturns : project log source = .ok turns) (hturns' : project log' source = .ok turns') :
    closedTurns turns <+: closedTurns turns' := by
  obtain ⟨rest, rfl⟩ := hp
  have hlog := hwf.of_append
  obtain ⟨s, hs, hspec⟩ := scan_spec source hlog (hadm.of_prefix (List.prefix_append _ _))
  obtain ⟨s', hs', hspec'⟩ := scan_spec source hwf hadm
  rw [project_of_scan hlog hs] at hturns
  rw [project_of_scan hwf hs'] at hturns'
  cases hturns
  cases hturns'
  rw [hspec.closedTurns_result, hspec'.closedTurns_result]
  exact scan_turns_prefix hwf hadm hs hs'

end Project

end MonoAgent.TurnProjection
