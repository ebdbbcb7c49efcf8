import MonoAgent.Compaction.Records
import MonoAgent.Session.Reachable

/-!
# The chain of summaries

`Chain` is a list of stored records of one Session, newest first, each linked to
the next and the last without a parent.  `resolve` accepts a record exactly when a
chain starts with it.

A publication that is not a replay extends the chain of the head by one record
and leaves every stored record as it was.  So whatever resolves keeps resolving,
and a head that resolved at the start is followed by heads that do.
-/

namespace MonoAgent.Compaction

open MonoAgent.Lib MonoAgent.Session MonoAgent.Context

/-! ## Reading rows -/

section Read

variable {s t : Archive} {reference sessionId : String} {r p : StoredSummary}

theorem read_eq_none : s.read reference = .ok none ↔ s.rows (.summary reference) = none := by
  rw [Archive.read]
  cases s.rows (.summary reference) with
  | none => simp
  | some row =>
      obtain ⟨version, value⟩ := row
      cases value with
      | summary record =>
          simp only [reduceCtorEq, iff_false]
          intro h
          obtain ⟨_, _, h⟩ := Except.bind_eq_ok.mp h
          cases h
      | head reference => simp
      | invalid e => simp

theorem read_eq_some : s.read reference = .ok (some r) ↔
    s.rows (.summary reference) = some ⟨0, .summary r⟩ ∧ r.reference = reference := by
  rw [Archive.read]
  cases s.rows (.summary reference) with
  | none => simp
  | some row =>
      obtain ⟨version, value⟩ := row
      cases value with
      | summary record =>
          dsimp only
          rw [Except.bind_eq_ok]
          constructor
          · intro h
            obtain ⟨_, hsame, h⟩ := h
            obtain ⟨href, rfl⟩ := ensure_eq_ok.mp hsame
            cases h
            exact ⟨rfl, href⟩
          · intro h
            obtain ⟨h, href⟩ := h
            cases h
            exact ⟨(), ensure_eq_ok.mpr ⟨href, rfl⟩, rfl⟩
      | head reference => simp
      | invalid e => simp

/-- A head that can be read points to a record of its Session. -/
theorem head_eq_some : s.head sessionId = .ok (some r) ↔
    (∃ version, s.rows (.head sessionId) = some ⟨version, .head r.reference⟩) ∧
      s.read r.reference = .ok (some r) ∧ r.sessionId = sessionId := by
  rw [Archive.head]
  cases s.rows (.head sessionId) with
  | none => simp
  | some row =>
      obtain ⟨version, value⟩ := row
      cases value with
      | summary record => simp
      | invalid e => simp
      | head reference =>
          dsimp only
          rw [Except.bind_eq_ok]
          constructor
          · intro h
            obtain ⟨record, hread, h⟩ := h
            cases record with
            | none => cases h
            | some record =>
                obtain ⟨_, hsession, h⟩ := Except.bind_eq_ok.mp h
                cases h
                have href := (read_eq_some.mp hread).2
                rw [href]
                exact ⟨⟨version, rfl⟩, hread, ensure_eq_ok.mp hsession⟩
          · intro h
            obtain ⟨⟨_, hrow⟩, hread, hsession⟩ := h
            cases hrow
            exact ⟨_, hread, Except.bind_eq_ok.mpr ⟨(), ensure_eq_ok.mpr hsession, rfl⟩⟩

theorem head_eq_none : s.head sessionId = .ok none ↔ s.rows (.head sessionId) = none := by
  rw [Archive.head]
  cases s.rows (.head sessionId) with
  | none => simp
  | some row =>
      obtain ⟨version, value⟩ := row
      cases value with
      | summary record => simp
      | invalid e => simp
      | head reference =>
          simp only [reduceCtorEq, iff_false]
          intro h
          obtain ⟨record, _, h⟩ := Except.bind_eq_ok.mp h
          cases record with
          | none => cases h
          | some record =>
              obtain ⟨_, _, h⟩ := Except.bind_eq_ok.mp h
              cases h

/-- Every record that can be read can still be read. -/
def Keeps (s t : Archive) : Prop :=
  ∀ reference r, s.read reference = .ok (some r) → t.read reference = .ok (some r)

theorem Keeps.refl (s : Archive) : Keeps s s := fun _ _ h => h

theorem Keeps.trans {u : Archive} (h : Keeps s t) (h' : Keeps t u) : Keeps s u :=
  fun reference r hr => h' reference r (h reference r hr)

/-! ## Chains -/

/-- Records of a Session, newest first, down to one without a parent. -/
inductive Chain (s : Archive) (sessionId : String) : List StoredSummary → Prop where
  | nil : Chain s sessionId []
  | root {r : StoredSummary} (hread : s.read r.reference = .ok (some r))
      (hsession : r.sessionId = sessionId) (hparent : r.parent = none) : Chain s sessionId [r]
  | link {r p : StoredSummary} {rest : List StoredSummary}
      (hread : s.read r.reference = .ok (some r)) (hsession : r.sessionId = sessionId)
      (hparent : r.parent = some p.reference) (hlink : Links r p)
      (h : Chain s sessionId (p :: rest)) : Chain s sessionId (r :: p :: rest)

variable {chain : List StoredSummary}

theorem Chain.mono (hkeeps : Keeps s t) (h : Chain s sessionId chain) : Chain t sessionId chain := by
  induction h with
  | nil => exact .nil
  | root hread hsession hparent => exact .root (hkeeps _ _ hread) hsession hparent
  | link hread hsession hparent hlink _ ih =>
      exact .link (hkeeps _ _ hread) hsession hparent hlink ih

theorem Chain.newest (h : Chain s sessionId (r :: chain)) :
    s.read r.reference = .ok (some r) ∧ r.sessionId = sessionId := by
  cases h with
  | root hread hsession => exact ⟨hread, hsession⟩
  | link hread hsession => exact ⟨hread, hsession⟩

/-- Every record of a chain is the newest of a chain. -/
theorem Chain.of_mem (h : Chain s sessionId chain) (hr : r ∈ chain) :
    ∃ rest, Chain s sessionId (r :: rest) := by
  induction h with
  | nil => cases hr
  | root hread hsession hparent =>
      rw [List.mem_singleton.mp hr]
      exact ⟨[], .root hread hsession hparent⟩
  | link hread hsession hparent hlink h ih =>
      rcases List.mem_cons.mp hr with rfl | hr
      · exact ⟨_, .link hread hsession hparent hlink h⟩
      · exact ih hr

theorem followParents_of_chain (h : Chain s sessionId (r :: chain)) :
    s.followParents sessionId r = .ok () := by
  generalize hl : r :: chain = l at h
  induction h generalizing r chain with
  | nil => cases hl
  | root hread hsession hparent =>
      cases hl
      rw [Archive.followParents]
      split
      · rfl
      · next hsome => cases hparent.symm.trans hsome
  | @link r' p rest hread hsession hparent hlink h ih =>
      cases hl
      rw [Archive.followParents]
      split
      · next hnone => cases hparent.symm.trans hnone
      · next reference hsome =>
          cases hparent.symm.trans hsome
          obtain ⟨hp, hps⟩ := h.newest
          refine Except.bind_eq_ok.mpr ⟨_, hp, ?_⟩
          dsimp only
          rw [if_neg (by simpa using hps), dif_pos hlink]
          exact ih rfl

/-- What the loop of `resolve` accepts is a chain, by the descent of generations. -/
theorem chain_of_followParents {n : Nat} (hn : r.generation ≤ n)
    (hread : s.read r.reference = .ok (some r)) (hsession : r.sessionId = sessionId)
    (h : s.followParents sessionId r = .ok ()) : ∃ rest, Chain s sessionId (r :: rest) := by
  induction n generalizing r with
  | zero =>
      have hpos : 1 ≤ r.generation := r.identity.generation_pos
      omega
  | succ n ih =>
      rw [Archive.followParents] at h
      split at h
      · next hnone => exact ⟨[], .root hread hsession hnone⟩
      · next reference hsome =>
          obtain ⟨parent, hp, h⟩ := Except.bind_eq_ok.mp h
          cases parent with
          | none => cases h
          | some p =>
              dsimp only at h
              split at h
              · cases h
              · next hps =>
                  split at h
                  · next hlink =>
                      have hlt := hlink.generation_lt (by simp [hsome])
                      have href := (read_eq_some.mp hp).2
                      rw [← href] at hp
                      obtain ⟨rest, hrest⟩ := ih (by omega) hp (by simpa using hps) h
                      exact ⟨p :: rest, .link hread hsession (by rw [hsome, href]) hlink hrest⟩
                  · cases h

/-- `resolve` accepts the newest record of a chain, and nothing else. -/
theorem resolve_eq_ok {reference : SummaryRef} : s.resolve reference sessionId = .ok r ↔
    reference = ⟨r.reference, sessionId⟩ ∧ ∃ rest, Chain s sessionId (r :: rest) := by
  obtain ⟨recordRef, session⟩ := reference
  rw [Archive.resolve, Except.bind_eq_ok]
  constructor
  · intro h
    obtain ⟨_, hsame, h⟩ := h
    cases ensure_eq_ok.mp hsame
    obtain ⟨record, hread, h⟩ := Except.bind_eq_ok.mp h
    cases record with
    | none => cases h
    | some record =>
        obtain ⟨_, hsession, h⟩ := Except.bind_eq_ok.mp h
        obtain ⟨_, hfollow, h⟩ := Except.bind_eq_ok.mp h
        cases h
        have href := (read_eq_some.mp hread).2
        dsimp only at href
        subst href
        exact ⟨rfl, chain_of_followParents (Nat.le_refl _) hread (ensure_eq_ok.mp hsession) hfollow⟩
  · intro h
    obtain ⟨heq, rest, hchain⟩ := h
    cases heq
    obtain ⟨hread, hsession⟩ := hchain.newest
    refine ⟨(), ensure_eq_ok.mpr rfl, Except.bind_eq_ok.mpr ⟨_, hread, ?_⟩⟩
    exact Except.bind_eq_ok.mpr ⟨(), ensure_eq_ok.mpr hsession,
      Except.bind_eq_ok.mpr ⟨(), followParents_of_chain hchain, rfl⟩⟩

/-- The record of a link comes one generation later, or later by a gap of the old
ledger, and covers strictly more. -/
structure Extends (r p : StoredSummary) : Prop where
  later : p.generation < r.generation
  native : (∃ record, r = .native record) → r.generation = p.generation + 1
  sources : p.sourceMessageIds <+: r.sourceMessageIds
  longer : p.sourceMessageIds.length < r.sourceMessageIds.length

theorem Links.extends (h : Links r p) (hp : r.parent ≠ none) : Extends r p := by
  have hsources : p.sourceMessageIds.length < r.sourceMessageIds.length ∧
      r.sourceMessageIds.take p.sourceMessageIds.length = p.sourceMessageIds :=
    of_decide_eq_true h.2
  refine ⟨h.generation_lt hp, ?_, ?_, hsources.1⟩
  · intro hnative
    obtain ⟨record, rfl⟩ := hnative
    have hgen : p.generation + 1 = record.generation := of_decide_eq_true h.1
    exact hgen.symm
  · rw [← hsources.2]
    exact List.take_prefix _ _

/-- Neighbours in a chain extend each other. -/
theorem Chain.extends (h : Chain s sessionId chain) : chain.IsChain Extends := by
  induction h with
  | nil => exact .nil
  | root => exact .singleton _
  | link _ _ hparent hlink _ ih =>
      exact .cons_cons (hlink.extends (by simp [hparent])) ih

end Read

/-! ## Publishing -/

section Publish

variable {s t : Archive} {record : SummaryRecord} {reader : Reader} {parent : Option StoredSummary}

/-- The archive after an accepted publication. -/
def Archive.accept (s : Archive) (record : SummaryRecord) : Archive :=
  let stored := s.put (.summary record.reference) (.summary (.native record))
  let moved := stored.put (.head record.sessionId) (.head record.reference)
  { moved with published := s.published ++ [record] }

/-- A record that is not stored yet and continues the head. -/
structure Accepted (s : Archive) (record : SummaryRecord) (parent : Option StoredSummary) : Prop where
  absent : s.read record.reference = .ok none
  current : s.head record.sessionId = .ok parent
  continues : checkParent record parent = .ok ()
  covered : ∃ span, summaryRange (s.db.snapshot record.sessionId) record.sourceMessageIds = .ok span

theorem publishIn_post (hreader : reader.sessionId = record.sessionId) (c : Connection Archive) :
    (publishIn record reader parent).Post (c.opened s)
      (fun r u => r = record ∧
        (u = c.opened s ∧ s.read record.reference = .ok (some (.native record)) ∨
          u = c.opened (s.accept record) ∧ Accepted s record parent))
      (fun _ u => u.durable = c.durable) := by
  refine Exec.post_bind (Sql.post_query ?_)
  refine Exec.post_bind (Exec.post_liftExcept (fun existing hread => ?_) fun _ _ => rfl)
  cases existing with
  | some existing =>
      refine Exec.post_bind (Exec.post_check (fun heq => ?_) fun _ => rfl)
      rw [heq] at hread
      exact Exec.post_pure ⟨rfl, Or.inl ⟨rfl, hread⟩⟩
  | none =>
      refine Exec.post_bind (Sql.post_query ?_)
      refine Exec.post_bind (Exec.post_liftExcept (fun current hhead => ?_) fun _ _ => rfl)
      refine Exec.post_bind (Exec.post_check (fun hcurrent => ?_) fun _ => rfl)
      refine Exec.post_bind (Exec.post_liftExcept (fun _ hlink => ?_) fun _ _ => rfl)
      refine Exec.post_bind (Sql.post_query ?_)
      refine Exec.post_bind (Exec.post_liftExcept (fun span hspan => ?_) fun _ _ => rfl)
      refine Exec.post_bind (Exec.post_bind (Sql.post_query ?_))
      refine Exec.post_bind (Exec.post_check (fun _ => ?_) fun _ => rfl)
      refine Sql.post_execute (fun d hd => ?_) fun e he => by cases he
      cases hd
      refine Exec.post_bind (Sql.post_query ?_)
      refine Exec.post_bind (Exec.post_bind (Sql.post_query ?_))
      refine Exec.post_bind (Exec.post_check (fun _ => ?_) fun _ => rfl)
      refine Sql.post_execute (fun d hd => ?_) fun e he => by cases he
      cases hd
      refine Exec.post_bind (Sql.post_execute (fun d hd => ?_) fun e he => by cases he)
      cases hd
      rw [hreader] at hspan
      exact Exec.post_pure ⟨rfl, Or.inr ⟨rfl, hread, hcurrent ▸ hhead, hlink, span, hspan⟩⟩

/-- A publication is refused, a replay, or accepted. -/
theorem publish_post (s : Archive) : (publish record reader parent).Post s.idle
    (fun r u => r = record ∧
      (u = s.idle ∧ s.read record.reference = .ok (some (.native record)) ∨
        u = (s.accept record).idle ∧ Accepted s record parent))
    (fun _ u => u = s.idle) := by
  refine Exec.post_bind (Exec.post_check (fun _ => ?_) fun _ => rfl)
  refine Exec.post_bind (Exec.post_check (fun hreader => ?_) fun _ => rfl)
  refine Sql.post_withConnection (Exec.post_bind (Sql.post_begin rfl ?_))
  refine (publishIn_post hreader s.idle).mono ?_ ?_
  · intro r u h
    obtain ⟨hr, ⟨rfl, h⟩ | ⟨rfl, h⟩⟩ := h
    · exact ⟨hr, Or.inl ⟨rfl, h⟩⟩
    · exact ⟨hr, Or.inr ⟨rfl, h⟩⟩
  · intro e u h
    show (⟨u.durable, none⟩ : Connection Archive) = _
    rw [h]
    rfl

/-- What is committed after a publication. -/
theorem publish_cases (s : Archive) (record : SummaryRecord) (reader : Reader)
    (parent : Option StoredSummary) : s.publish record reader parent = s ∨
    (s.publish record reader parent = s.accept record ∧ Accepted s record parent) := by
  have hpost : (publish record reader parent).Post s.idle _ _ := publish_post s
  rcases hpost.cases with
    ⟨r, u, hrun, _, ⟨rfl, _⟩ | ⟨rfl, h⟩⟩ | ⟨e, u, hrun, rfl⟩
  · exact Or.inl (by rw [Archive.publish, hrun]; rfl)
  · exact Or.inr ⟨by rw [Archive.publish, hrun]; rfl, h⟩
  · exact Or.inl (by rw [Archive.publish, hrun]; rfl)

theorem rows_accept (s : Archive) (record : SummaryRecord) (key : Key) :
    (s.accept record).rows key =
      if key = .head record.sessionId then
        some ⟨((s.rows key).map (·.version + 1)).getD 0, .head record.reference⟩
      else if key = .summary record.reference then
        some ⟨((s.rows key).map (·.version + 1)).getD 0, .summary (.native record)⟩
      else s.rows key := by
  show Function.update (Function.update s.rows _ _) _ _ key = _
  rw [Function.update_apply, Function.update_apply]
  split
  · next h =>
      subst h
      rfl
  · split
    · next h => rw [h]
    · rfl

theorem read_accept (h : Accepted s record parent) :
    (s.accept record).read record.reference = .ok (some (.native record)) := by
  refine read_eq_some.mpr ⟨?_, rfl⟩
  rw [rows_accept, if_neg (by simp), if_pos rfl, read_eq_none.mp h.absent]
  rfl

/-- A publication leaves the stored records. -/
theorem keeps_accept (h : Accepted s record parent) : Keeps s (s.accept record) := by
  intro reference r hr
  obtain ⟨hrow, href⟩ := read_eq_some.mp hr
  refine read_eq_some.mpr ⟨?_, href⟩
  have hne : reference ≠ record.reference := by
    intro heq
    have habsent := read_eq_none.mp h.absent
    rw [← heq, hrow] at habsent
    cases habsent
  rw [rows_accept, if_neg (by simp), if_neg (by simpa using hne)]
  exact hrow

/-- The published record is the head of its Session. -/
theorem head_accept (h : Accepted s record parent) :
    (s.accept record).head record.sessionId = .ok (some (.native record)) := by
  have hrow := rows_accept s record (.head record.sessionId)
  rw [if_pos rfl] at hrow
  exact head_eq_some.mpr ⟨⟨_, hrow⟩, read_accept h, rfl⟩

/-- The heads of the other Sessions stay. -/
theorem head_accept_of_ne (h : Accepted s record parent) {sessionId : String}
    (hne : sessionId ≠ record.sessionId) {r : Option StoredSummary}
    (hr : s.head sessionId = .ok r) : (s.accept record).head sessionId = .ok r := by
  have hrow : (s.accept record).rows (.head sessionId) = s.rows (.head sessionId) := by
    rw [rows_accept, if_neg (by simpa using hne), if_neg (by simp)]
  cases r with
  | some r =>
      obtain ⟨⟨version, hhead⟩, hread, hsession⟩ := head_eq_some.mp hr
      exact head_eq_some.mpr ⟨⟨version, hrow.trans hhead⟩, keeps_accept h _ _ hread, hsession⟩
  | none => exact head_eq_none.mpr (hrow.trans (head_eq_none.mp hr))

/-- An accepted record extends the chain of the head it was published on. -/
theorem chain_accept (h : Accepted s record parent) {chain : List StoredSummary}
    (hparent : parent = chain.head?) (hchain : Chain s record.sessionId chain) :
    Chain (s.accept record) record.sessionId (.native record :: chain) := by
  have hread : (s.accept record).read record.reference = .ok (some (.native record)) :=
    read_accept h
  obtain ⟨_, hlink, hsources⟩ := Except.bind_eq_ok.mp h.continues
  obtain ⟨hgen, href⟩ := ensure_eq_ok.mp hlink
  cases chain with
  | nil =>
      rw [hparent] at href
      exact .root hread rfl href
  | cons p rest =>
      rw [hparent] at href hgen hsources
      refine .link hread rfl href ⟨?_, ensure_eq_ok.mp hsources⟩ (hchain.mono (keeps_accept h))
      exact decide_eq_true (show p.generation + 1 = record.generation from hgen.symm)

end Publish

/-! ## Runs -/

/-- A write to the log, or a publication by any caller. -/
inductive ArchiveAction where
  | log (a : LogAction)
  | publish (record : SummaryRecord) (reader : Reader) (parent : Option StoredSummary)

/-- One write after another.  Publications of concurrent callers are serialised by the
transaction. -/
def Archive.next (s : Archive) : ArchiveAction → Option Archive
  | .log a => (logMachine.next s.db a).map fun db => { s with db := db }
  | .publish record reader parent => some (s.publish record reader parent)

/-- The head of each Session, where there is one, resolves. -/
def Archive.HeadsResolve (s : Archive) : Prop :=
  ∀ sessionId, s.head sessionId = .ok none ∨ ∃ r, s.head sessionId = .ok (some r) ∧
    s.resolve ⟨r.reference, sessionId⟩ sessionId = .ok r

/-- An archive nothing was published in yet. -/
def archiveMachine : Machine Archive ArchiveAction where
  start s := s.HeadsResolve ∧ s.published = []
  next := Archive.next

/-- The generation of the head, `0` when there is none. -/
def Archive.headGeneration (s : Archive) (sessionId : String) : Nat :=
  match s.head sessionId with
  | .ok (some r) => r.generation
  | _ => 0

/-- The head of each Session is the newest record of a chain, and so is each record
that was published. -/
structure ArchiveInvariant (s : Archive) : Prop where
  heads : ∀ sessionId, ∃ chain, s.head sessionId = .ok chain.head? ∧ Chain s sessionId chain
  published : ∀ record ∈ s.published, ∃ rest, Chain s record.sessionId (.native record :: rest)

section Runs

variable {s t : Archive}

theorem headsResolve_iff : s.HeadsResolve ↔
    ∀ sessionId, ∃ chain, s.head sessionId = .ok chain.head? ∧ Chain s sessionId chain := by
  refine forall_congr' fun sessionId => ?_
  constructor
  · intro h
    rcases h with h | ⟨r, h, hr⟩
    · exact ⟨[], h, .nil⟩
    · obtain ⟨_, rest, hchain⟩ := resolve_eq_ok.mp hr
      exact ⟨r :: rest, h, hchain⟩
  · intro h
    obtain ⟨chain, h, hchain⟩ := h
    cases chain with
    | nil => exact Or.inl h
    | cons r rest => exact Or.inr ⟨r, h, resolve_eq_ok.mpr ⟨rfl, rest, hchain⟩⟩

/-- A step changes no row, or accepts a record. -/
theorem next_cases {a : ArchiveAction} (hn : archiveMachine.next s a = some t) :
    (t.rows = s.rows ∧ t.published = s.published) ∨
      ∃ record parent, t = s.accept record ∧ Accepted s record parent := by
  cases a with
  | log a =>
      have hn : (logMachine.next s.db a).map (fun db => { s with db := db }) = some t := hn
      obtain ⟨db, _, rfl⟩ := Option.map_eq_some_iff.mp hn
      exact Or.inl ⟨rfl, rfl⟩
  | publish record reader parent =>
      cases hn
      rcases publish_cases s record reader parent with h | ⟨h, hacc⟩
      · exact Or.inl (by rw [h]; exact ⟨rfl, rfl⟩)
      · exact Or.inr ⟨record, parent, h, hacc⟩

theorem keeps_of_rows (h : t.rows = s.rows) : Keeps s t := by
  intro reference r hr
  rw [read_eq_some, h]
  exact read_eq_some.mp hr

theorem head_of_rows (h : t.rows = s.rows) (sessionId : String) :
    t.head sessionId = s.head sessionId := by
  rw [Archive.head, Archive.head, h]
  simp only [Archive.read, h]

theorem keeps_next {a : ArchiveAction} (hn : archiveMachine.next s a = some t) : Keeps s t := by
  rcases next_cases hn with ⟨hrows, _⟩ | ⟨record, parent, rfl, hacc⟩
  · exact keeps_of_rows hrows
  · exact keeps_accept hacc

theorem archiveInvariant_next {a : ArchiveAction} (hs : ArchiveInvariant s)
    (hn : archiveMachine.next s a = some t) : ArchiveInvariant t := by
  have hkeeps := keeps_next hn
  rcases next_cases hn with ⟨hrows, hpub⟩ | ⟨record, parent, rfl, hacc⟩
  · refine ⟨fun sessionId => ?_, fun record hr => ?_⟩
    · obtain ⟨chain, hhead, hchain⟩ := hs.heads sessionId
      exact ⟨chain, (head_of_rows hrows sessionId).trans hhead, hchain.mono hkeeps⟩
    · rw [hpub] at hr
      obtain ⟨rest, hchain⟩ := hs.published record hr
      exact ⟨rest, hchain.mono hkeeps⟩
  · obtain ⟨old, hold, hchain⟩ := hs.heads record.sessionId
    have hparent : parent = old.head? := Except.ok.inj (hacc.current.symm.trans hold)
    have hnew := chain_accept hacc hparent hchain
    refine ⟨fun sessionId => ?_, fun r hr => ?_⟩
    · by_cases heq : sessionId = record.sessionId
      · subst heq
        exact ⟨.native record :: old, head_accept hacc, hnew⟩
      · obtain ⟨chain, hhead, hchain⟩ := hs.heads sessionId
        exact ⟨chain, head_accept_of_ne hacc heq hhead, hchain.mono hkeeps⟩
    · rcases List.mem_append.mp hr with hr | hr
      · obtain ⟨rest, hchain⟩ := hs.published r hr
        exact ⟨rest, hchain.mono hkeeps⟩
      · rw [List.mem_singleton.mp hr]
        exact ⟨old, hnew⟩

/-- A step does not move a head back. -/
theorem headGeneration_next {a : ArchiveAction} (hn : archiveMachine.next s a = some t)
    (sessionId : String) : s.headGeneration sessionId ≤ t.headGeneration sessionId := by
  rcases next_cases hn with ⟨hrows, _⟩ | ⟨record, parent, rfl, hacc⟩
  · rw [Archive.headGeneration, Archive.headGeneration, head_of_rows hrows]
  · by_cases heq : sessionId = record.sessionId
    · subst heq
      rw [Archive.headGeneration, Archive.headGeneration, head_accept hacc, hacc.current]
      obtain ⟨_, hlink, _⟩ := Except.bind_eq_ok.mp hacc.continues
      have hgen := (ensure_eq_ok.mp hlink).1
      cases parent with
      | none => exact Nat.zero_le _
      | some p =>
          have hgen : record.generation = p.generation + 1 := hgen
          show p.generation ≤ record.generation
          omega
    · rw [Archive.headGeneration]
      split
      · next r hr =>
          rw [Archive.headGeneration, head_accept_of_ne hacc heq hr]
      · exact Nat.zero_le _

theorem reachable_invariant (h : archiveMachine.Reachable s) : ArchiveInvariant s := by
  refine h.invariant ?_ fun _ _ _ hs _ hn => archiveInvariant_next hs hn
  intro s hstart
  refine ⟨headsResolve_iff.mp hstart.1, fun record hr => ?_⟩
  rw [hstart.2] at hr
  cases hr

/-- The chains of an archive stay, and heads do not move back, along any run. -/
theorem path_keeps (hp : archiveMachine.Path Machine.always s t) : Keeps s t ∧
    ∀ sessionId, s.headGeneration sessionId ≤ t.headGeneration sessionId := by
  refine hp.rel (I := fun _ => True)
    (R := fun s t => Keeps s t ∧ ∀ id, s.headGeneration id ≤ t.headGeneration id)
    (fun s => ⟨Keeps.refl s, fun _ => Nat.le_refl _⟩) ?_ (fun _ _ _ _ _ _ => trivial) ?_ trivial
  · intro s t u h h'
    exact ⟨h.1.trans h'.1, fun id => (h.2 id).trans (h'.2 id)⟩
  · intro s a t _ _ hn
    exact ⟨keeps_next hn, headGeneration_next hn⟩

/-- A replay changes nothing. -/
theorem publish_replay {record : SummaryRecord}
    (h : s.read record.reference = .ok (some (.native record))) (reader : Reader)
    (parent : Option StoredSummary) : s.publish record reader parent = s := by
  rcases publish_cases s record reader parent with hsame | ⟨_, hacc⟩
  · exact hsame
  · cases h.symm.trans hacc.absent

/-- A refused publication changes nothing. -/
theorem publish_refused {record : SummaryRecord} {reader : Reader} {parent : Option StoredSummary}
    {e : Error} {u : Connection Archive}
    (h : Exec.run (publish record reader parent) s.idle = (.error e, u)) : u = s.idle :=
  (publish_post s).2 e u h

/-- In every run on an archive whose heads resolve, the head of a Session is the
newest record of a chain.  Native records of it follow their parent by one
generation, imported ones by at least one.  Whatever is on a chain resolves from
then on, and so does every record published in the run. -/
theorem summaries_chain (h : archiveMachine.Reachable s)
    (hp : archiveMachine.Path Machine.always s t) :
    (∀ sessionId, ∃ chain, t.head sessionId = .ok chain.head? ∧ Chain t sessionId chain ∧
      chain.IsChain Extends) ∧
    (∀ sessionId, s.headGeneration sessionId ≤ t.headGeneration sessionId) ∧
    (∀ sessionId chain, Chain s sessionId chain → ∀ r ∈ chain,
      t.resolve ⟨r.reference, sessionId⟩ sessionId = .ok r) ∧
    (∀ record ∈ t.published,
      t.resolve ⟨record.reference, record.sessionId⟩ record.sessionId = .ok (.native record)) ∧
    (∀ record reader parent, t.read record.reference = .ok (some (.native record)) →
      t.publish record reader parent = t) ∧
    (∀ record reader parent e u,
      Exec.run (publish record reader parent) t.idle = (.error e, u) → u = t.idle) := by
  have ht := reachable_invariant (h.path hp)
  obtain ⟨hkeeps, hgen⟩ := path_keeps hp
  refine ⟨fun sessionId => ?_, hgen, fun sessionId chain hchain r hr => ?_, fun record hr => ?_,
    fun record reader parent hstored => publish_replay hstored reader parent,
    fun record reader parent e u hrun => publish_refused hrun⟩
  · obtain ⟨chain, hhead, hchain⟩ := ht.heads sessionId
    exact ⟨chain, hhead, hchain, hchain.extends⟩
  · obtain ⟨rest, hrest⟩ := hchain.of_mem hr
    exact resolve_eq_ok.mpr ⟨rfl, rest, hrest.mono hkeeps⟩
  · obtain ⟨rest, hrest⟩ := ht.published record hr
    exact resolve_eq_ok.mpr ⟨rfl, rest, hrest⟩

end Runs

/-! ## A chain with a gap -/

/-- The first generation of an old ledger. -/
def legacyFirst : ImportedSummaryRecord where
  reference := "a"
  sessionId := "s"
  generation := 1
  parent := none
  sourceMessageIds := ["m"]
  content := "first"
  row := ⟨"s", 1, 0, "first", ["m"], none, none⟩

/-- The third, whose second was invalidated. -/
def legacyThird : ImportedSummaryRecord where
  reference := "b"
  sessionId := "s"
  generation := 3
  parent := some "a"
  sourceMessageIds := ["m", "n"]
  content := "third"
  row := ⟨"s", 3, 1, "third", ["n"], none, none⟩

/-- The Input at a position. -/
def noteAt (messageId : String) (seq : Nat) : Message :=
  ⟨messageId, "s", seq, 0, "user", "user", .input ⟨[]⟩, [], fun _ h => by cases h⟩

/-- An archive with the two imported records. -/
def legacyArchive : Archive where
  db := { messages := [noteAt "m" 0, noteAt "n" 1, noteAt "o" 2] }
  rows := fun key =>
    if key = .summary "a" then some ⟨0, .summary (.imported legacyFirst)⟩
    else if key = .summary "b" then some ⟨0, .summary (.imported legacyThird)⟩
    else if key = .head "s" then some ⟨1, .head "b"⟩
    else none

theorem legacyChain : Chain legacyArchive "s" [.imported legacyThird, .imported legacyFirst] :=
  .link rfl rfl rfl (by decide) (.root rfl rfl rfl)

theorem legacyArchive_start : archiveMachine.start legacyArchive := by
  refine ⟨headsResolve_iff.mpr fun sessionId => ?_, rfl⟩
  by_cases hs : sessionId = "s"
  · subst hs
    exact ⟨_, rfl, legacyChain⟩
  · refine ⟨[], head_eq_none.mpr ?_, .nil⟩
    simp [legacyArchive, hs]

/-- The head resolves, and its generation is not one more than that of its parent. -/
theorem legacyChain_gap : archiveMachine.Reachable legacyArchive ∧
    legacyArchive.resolve ⟨"b", "s"⟩ "s" = .ok (.imported legacyThird) ∧
    ¬ ∃ chain, legacyArchive.head "s" = .ok chain.head? ∧ Chain legacyArchive "s" chain ∧
      chain.IsChain fun r p => r.generation = p.generation + 1 := by
  refine ⟨.start legacyArchive_start, resolve_eq_ok.mpr ⟨rfl, _, legacyChain⟩, fun h => ?_⟩
  obtain ⟨chain, hhead, hchain, hgen⟩ := h
  have hthird : chain.head? = some (.imported legacyThird) := (Except.ok.inj hhead).symm
  cases hchain with
  | nil => cases hthird
  | root hread hsession hparent =>
      cases hthird
      cases hparent
  | @link r p rest hread hsession hparent hlink hrest =>
      cases hthird
      have href : p.reference = "a" := (Option.some.inj hparent).symm
      have hread := hrest.newest.1
      rw [href] at hread
      have hfirst : legacyArchive.read "a" = .ok (some (.imported legacyFirst)) := rfl
      cases hread.symm.trans hfirst
      have hgap := (List.isChain_cons_cons.mp hgen).1
      exact absurd hgap (by decide)

/-- The next generation, published on the imported head. -/
def exampleRecord : SummaryRecord where
  reference := "c"
  sessionId := "s"
  generation := 4
  parent := some "b"
  sourceMessageIds := ["m", "n", "o"]
  content := "fourth"
  modelCallIds := ["call"]
  trigger := .softLimit
  contextWindow := 100
  maxOutputTokens := 10
  keepRecentTokens := 1
  tokensBefore := 90
  tokensAfter := 20

/-- A publication on the imported chain. -/
theorem summaries_chain_example :
    let t := legacyArchive.publish exampleRecord ⟨"s", true⟩ (some (.imported legacyThird))
    t.published = [exampleRecord] ∧
      t.resolve ⟨"c", "s"⟩ "s" = .ok (.native exampleRecord) ∧
      t.resolve ⟨"b", "s"⟩ "s" = .ok (.imported legacyThird) := by
  intro t
  have hpath : archiveMachine.Path Machine.always legacyArchive t :=
    .step (.publish exampleRecord ⟨"s", true⟩ (some (.imported legacyThird))) .refl trivial rfl
  obtain ⟨_, _, hchains, hpublished, _, _⟩ := summaries_chain (.start legacyArchive_start) hpath
  have hnew : t.published = [exampleRecord] := by decide
  refine ⟨hnew, hpublished exampleRecord (by rw [hnew]; simp), ?_⟩
  exact hchains "s" _ legacyChain (.imported legacyThird) (List.mem_cons_self ..)

end MonoAgent.Compaction
