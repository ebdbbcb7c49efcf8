import MonoAgent.EventMail.Commits

/-!
# What the tables say about each other

`Named` links the tables by the names of the mails.  An envelope has the name of its
key and no two share one; the items are those of the content envelopes; a row of an
alert or of a context names an envelope of its source.
-/

namespace MonoAgent.EventMail

open MonoAgent.Lib MonoAgent.Session

variable {m n : Mail}

/-- The unique columns of every table. -/
structure Tables (m : Mail) : Prop where
  items : ItemsUnique m.items
  selections : SelectionsUnique m.selections
  members : MembersUnique m.members
  alerts : AlertsUnique m.alerts
  contexts : ContextsUnique m.contexts

/-- The mail is one of a source. -/
def MailOf (m : Mail) (kind : MailKind) (source mailId : String) : Prop :=
  ∃ e ∈ m.envelopes, e.mailId = mailId ∧ e.kind = kind ∧ e.sourceId = source

/-- The number of the last projection. -/
def Mail.lastSeq (m : Mail) : Nat :=
  ((m.transitions.filterMap Transition.projected?).getLast?.map (·.2.1.nextSeq)).getD 0

structure Named (m : Mail) : Prop where
  tables : Tables m
  mail : ∀ e ∈ m.envelopes, e.mailId = e.key.id
  ids : (m.envelopes.map (·.mailId)).Nodup
  keys : ∀ k : ContentKey, k ∈ m.items.map (·.key) ↔ k.mail ∈ m.envelopes.map Envelope.key
  seqs : ∀ i ∈ m.items, 0 < i.snapshotSeq ∧ i.snapshotSeq ≤ m.state.nextSeq
  alerts : ∀ a ∈ m.alerts, MailOf m .alert a.sourceId a.mailId
  contexts : ∀ c ∈ m.contexts, MailOf m .context c.sourceId c.mailId
  logged : ∀ t ∈ m.transitions, t.mailId ∈ m.envelopes.map (·.mailId)
  /-- A projected row is of an item that is there. -/
  projected : ∀ row ∈ m.transitions.filterMap Transition.projected?, row.1.key ∈ m.items.map (·.key) ∧
    row.1.snapshotSeq ≤ m.state.nextSeq
  lastSeq : m.lastSeq = m.state.nextSeq

theorem named_start : Named {} where
  tables := ⟨by decide, by decide, by decide, by decide, by decide⟩
  mail := by simp
  ids := by simp
  keys := by simp
  seqs := by simp
  alerts := by simp
  contexts := by simp
  logged := by simp
  projected := by simp
  lastSeq := rfl

theorem ContentKey.mail_inj {k k' : ContentKey} (h : k.mail = k'.mail) : k = k' := by
  cases k
  cases k'
  simpa [ContentKey.mail] using h

/-- Two envelopes of one name are one envelope. -/
theorem Named.envelope_eq (h : Named m) {e e' : Envelope} (he : e ∈ m.envelopes)
    (he' : e' ∈ m.envelopes) (heq : e.mailId = e'.mailId) : e = e' :=
  List.inj_on_of_nodup_map h.ids he he' heq

/-- The envelope of an item. -/
theorem Named.ofItem (h : Named m) {k : ContentKey} (hk : k ∈ m.items.map (·.key)) :
    ∃ e ∈ m.envelopes, e.mailId = k.mail.id ∧ e.kind = .content ∧
      (⟨e.sourceId, e.itemId, e.revision⟩ : ContentKey) = k := by
  obtain ⟨e, he, hkey⟩ := List.mem_map.mp ((h.keys k).mp hk)
  refine ⟨e, he, by rw [h.mail e he, hkey], ?_⟩
  cases k
  cases e
  cases hkey
  exact ⟨rfl, rfl⟩

/-! ## The ledger -/

/-- The projections of some mails, as the tables are after them. -/
structure Projects (m : Mail) (ids : List String) (n : Mail) : Prop where
  committed : ∃ ts, (∀ t ∈ ts, ∃ id ∈ ids, IsProjection n id t) ∧
    n = { m with transitions := m.transitions ++ ts }
  all : ∀ id ∈ ids, ∃ t, IsProjection n id t ∧ t.id ∈ n.transitions.map Transition.id

theorem projects_of_ok {ids : List String} (h : m.appendContentProjections ids = .ok n) :
    Projects m ids n := by
  obtain ⟨⟨ts, hts, rfl⟩, hall⟩ := projections_ok h
  exact ⟨⟨ts, hts, rfl⟩, hall⟩

theorem IsProjection.mailId {id : String} {t : Transition} (h : IsProjection m id t) :
    t.mailId = id ∧ id ∈ m.envelopes.map (·.mailId) := by
  obtain ⟨e, he, rfl, _, item, _, rfl⟩ := h
  exact ⟨rfl, List.mem_map_of_mem he⟩

theorem IsProjection.row {id : String} {t : Transition} (h : IsProjection m id t) : ∃ item ∈ m.items,
    t.projected? = some (item, m.state, m.selectionsOf item.key) := by
  obtain ⟨e, _, _, _, item, hitem, rfl⟩ := h
  exact ⟨item, (item?_some hitem).1, rfl⟩

theorem Marks.projected? {keys : List ContentKey} {t : Transition} (h : Marks keys t) :
    t.projected? = none := by
  rw [Transition.projected?]
  exact if_neg fun hp => h.2.1 hp.2

/-- The rows that are read of a ledger after marks and projections. -/
theorem projected_rows (old : List Transition) {marks ts : List Transition} {keys : List ContentKey} {ids : List String}
    (hmarks : ∀ t ∈ marks, Marks keys t) (hts : ∀ t ∈ ts, ∃ id ∈ ids, IsProjection n id t) :
    ∃ rows, (∀ row ∈ rows, ∃ item ∈ n.items, row = (item, n.state, n.selectionsOf item.key)) ∧
      (rows = [] → ts = []) ∧ (old ++ marks ++ ts).filterMap Transition.projected? =
        old.filterMap Transition.projected? ++ rows := by
  refine ⟨ts.filterMap Transition.projected?, fun row hrow => ?_, fun hnil => ?_, ?_⟩
  · obtain ⟨t, ht, hrow⟩ := List.mem_filterMap.mp hrow
    obtain ⟨id, _, hproj⟩ := hts t ht
    obtain ⟨item, hitem, hproj⟩ := hproj.row
    exact ⟨item, hitem, Option.some.inj (hrow.symm.trans hproj)⟩
  · refine List.eq_nil_iff_forall_not_mem.mpr fun t ht => ?_
    obtain ⟨id, _, hproj⟩ := hts t ht
    obtain ⟨item, _, hrow⟩ := hproj.row
    rw [List.filterMap_eq_nil_iff.mp hnil t ht] at hrow
    cases hrow
  · have hnone : marks.filterMap Transition.projected? = [] :=
      List.filterMap_eq_nil_iff.mpr fun t ht => (hmarks t ht).projected?
    rw [List.filterMap_append, List.filterMap_append, hnone, List.append_nil]

/-- What the ledger of a commit says: marks and projections of the same mails. -/
theorem Named.commit_ledger (h : Named m) {marks : List Transition} {keys : List ContentKey}
    {ids : List String} {l : Mail} (hmarks : ∀ t ∈ marks, Marks keys t) (hids : ids = keys.map (·.mail.id))
    (hproj : Projects l ids n) (hl : l.transitions = m.transitions ++ marks)
    (hsub : ∀ id ∈ m.envelopes.map (·.mailId), id ∈ n.envelopes.map (·.mailId))
    (hkeys : ∀ k ∈ m.items.map (·.key), k ∈ n.items.map (·.key))
    (hseqs : ∀ i ∈ n.items, i.snapshotSeq ≤ n.state.nextSeq)
    (hseq : m.state.nextSeq ≤ n.state.nextSeq)
    (hlast : n.state.nextSeq = m.state.nextSeq ∨ ∃ k ∈ keys, k.mail.id ∉ m.envelopes.map (·.mailId)) :
    (∀ t ∈ n.transitions, t.mailId ∈ n.envelopes.map (·.mailId)) ∧
      (∀ row ∈ n.transitions.filterMap Transition.projected?, row.1.key ∈ n.items.map (·.key) ∧
        row.1.snapshotSeq ≤ n.state.nextSeq) ∧ n.lastSeq = n.state.nextSeq := by
  obtain ⟨⟨ts, hts, hn⟩, hall⟩ := hproj
  have htrans : n.transitions = m.transitions ++ marks ++ ts := by
    rw [hn]
    exact congrArg (· ++ ts) hl
  obtain ⟨rows, hrows, hempty, heq⟩ := projected_rows m.transitions hmarks hts
  refine ⟨fun t ht => ?_, fun row hrow => ?_, ?_⟩
  · rw [htrans] at ht
    rcases List.mem_append.mp ht with ht | ht
    · rcases List.mem_append.mp ht with ht | ht
      · exact hsub _ (h.logged t ht)
      · -- A mark is of a mail that is projected, so it has an envelope.
        obtain ⟨_, _, k, hk, hid⟩ := hmarks t ht
        obtain ⟨u, hu, _⟩ := hall k.mail.id (hids ▸ List.mem_map_of_mem hk)
        exact hid ▸ hu.mailId.2
    · obtain ⟨id, _, hproj⟩ := hts t ht
      rw [hproj.mailId.1]
      exact hproj.mailId.2
  · rw [htrans, heq] at hrow
    rcases List.mem_append.mp hrow with hrow | hrow
    · obtain ⟨hk, hle⟩ := h.projected row hrow
      exact ⟨hkeys _ hk, hle.trans hseq⟩
    · obtain ⟨item, hitem, rfl⟩ := hrows row hrow
      exact ⟨List.mem_map_of_mem hitem, hseqs item hitem⟩
  · rw [Mail.lastSeq, htrans, heq]
    cases hcons : rows with
    | cons row rest =>
        have hne : row :: rest ≠ [] := List.cons_ne_nil row rest
        have hmem : (row :: rest).getLast hne ∈ rows := by
          rw [hcons]
          exact List.getLast_mem hne
        obtain ⟨item, _, hlastRow⟩ := hrows _ hmem
        rw [List.getLast?_append, List.getLast?_eq_some_getLast hne]
        simp only [Option.some_or, Option.map_some, Option.getD_some, hlastRow]
    | nil =>
        rw [List.append_nil, ← Mail.lastSeq, h.lastSeq]
        rcases hlast with hsame | ⟨k, hk, hnew⟩
        · exact hsame.symm
        · -- A new mail has a projection of its own.
          obtain ⟨t, ht, hmem⟩ := hall k.mail.id (hids ▸ List.mem_map_of_mem hk)
          rw [htrans, hempty hcons, List.append_nil] at hmem
          obtain ⟨u, hu, hid⟩ := List.mem_map.mp hmem
          obtain ⟨hmail, haction, _⟩ : u.mailId = t.mailId ∧ u.action = t.action ∧ u.detail = t.detail := by
            simpa [Transition.id] using hid
          rcases List.mem_append.mp hu with hu | hu
          · exact absurd (h.logged u hu) (hmail ▸ ht.mailId.1 ▸ hnew)
          · obtain ⟨_, _, _, _, _, _, rfl⟩ := ht
            exact absurd haction (hmarks u hu).2.1

/-! ## The content calls -/

theorem MailOf.mono {kind : MailKind} {source id : String} (h : MailOf m kind source id)
    (hsub : ∀ e ∈ m.envelopes, e ∈ n.envelopes) : MailOf n kind source id := by
  obtain ⟨e, he, hrest⟩ := h
  exact ⟨e, hsub e he, hrest⟩

/-- A commit keeps the names of the items and writes no envelope. -/
theorem Named.commits (h : Named m) {f : Item → Item} {selections : List Selection}
    {members : List Member} {keys : List ContentKey} (hf : KeepsRow f)
    (hc : Commits m (m.items.map f) selections members keys n) (hui : ItemsUnique (m.items.map f))
    (hus : SelectionsUnique selections) (hum : MembersUnique members) : Named n := by
  obtain ⟨hi, hs, hm, he, ha, hx, _, hseq⟩ := hc.tables
  obtain ⟨marks, state, hmarks, _, _, hproj⟩ := hc.committed
  have hseqs : ∀ i ∈ n.items, 0 < i.snapshotSeq ∧ i.snapshotSeq ≤ n.state.nextSeq := by
    rw [hi, hseq]
    intro i hi₀
    obtain ⟨i, hi, rfl⟩ := List.mem_map.mp hi₀
    rw [(hf i).2.2.1]
    exact h.seqs i hi
  have hkeys : n.items.map (·.key) = m.items.map (·.key) := by rw [hi, hf.keys]
  obtain ⟨hlogged, hprojected, hlast⟩ := h.commit_ledger hmarks rfl (projects_of_ok hproj) rfl
    (by simp [he]) (by simp [hkeys]) (fun i hi => (hseqs i hi).2) hseq.ge (Or.inl hseq)
  exact
    { tables :=
        { items := hi ▸ hui
          selections := hs ▸ hus
          members := hm ▸ hum
          alerts := ha ▸ h.tables.alerts
          contexts := hx ▸ h.tables.contexts }
      mail := he ▸ h.mail
      ids := he ▸ h.ids
      keys := by
        rw [hkeys, he]
        exact h.keys
      seqs := hseqs
      alerts := ha ▸ fun a hmem => (h.alerts a hmem).mono (by simp [he])
      contexts := hx ▸ fun c hmem => (h.contexts c hmem).mono (by simp [he])
      logged := hlogged
      projected := hprojected
      lastSeq := hlast }

/-- New rows come with their envelopes. -/
theorem Named.submit (h : Named m) {source : String} {now : Instant} {rows : List Item}
    {marks : List Transition} {state : ContentState} {submission : Submission} {l : Mail}
    (hrows : ∀ i ∈ rows, FreshRow source now i ∧ m.state.nextSeq < i.snapshotSeq ∧
      i.snapshotSeq ≤ m.state.nextSeq + rows.length)
    (hnodup : (rows.map (·.key.mail.id)).Nodup)
    (hnew : ∀ i ∈ rows, i.key.mail.id ∉ m.envelopes.map (·.mailId))
    (hmarks : ∀ t ∈ marks, Marks (rows.map (·.key)) t) (hui : ItemsUnique (m.items ++ rows))
    (hseq : state.nextSeq = m.state.nextSeq + rows.length)
    (hl : Mail.appendContentProjections
        { m with items := m.items ++ rows, envelopes := m.envelopes ++ rows.map itemEnvelope, state
                 transitions := m.transitions ++ marks } (rows.map (·.key.mail.id)) = .ok l)
    (hn : n = { l with submissions := m.submissions ++ [submission] }) : Named n := by
  obtain ⟨⟨ts, hts, rfl⟩, hall⟩ := projections_ok hl
  have hproj : Projects { m with items := m.items ++ rows, state
                                 envelopes := m.envelopes ++ rows.map itemEnvelope
                                 transitions := m.transitions ++ marks
                                 submissions := m.submissions ++ [submission] }
      (rows.map (·.key.mail.id)) n := by
    subst hn
    exact ⟨⟨ts, hts, rfl⟩, hall⟩
  have hseqs : ∀ i ∈ m.items ++ rows, 0 < i.snapshotSeq ∧ i.snapshotSeq ≤ state.nextSeq := by
    rw [hseq]
    intro i hi
    rcases List.mem_append.mp hi with hi | hi
    · exact ⟨(h.seqs i hi).1, (h.seqs i hi).2.trans (Nat.le_add_right ..)⟩
    · obtain ⟨_, hlt, hle⟩ := hrows i hi
      exact ⟨(Nat.zero_le _).trans_lt hlt, hle⟩
  have hlast : state.nextSeq = m.state.nextSeq ∨
      ∃ k ∈ rows.map (·.key), k.mail.id ∉ m.envelopes.map (·.mailId) := by
    cases hcons : rows with
    | nil => exact Or.inl (by simp [hseq, hcons])
    | cons row rest =>
        have hmem : row ∈ rows := hcons ▸ List.mem_cons_self ..
        exact Or.inr ⟨row.key, List.mem_map_of_mem (hcons ▸ hmem), hnew row hmem⟩
  obtain ⟨hlogged, hprojected, hlast⟩ := h.commit_ledger hmarks (List.map_map ..).symm hproj rfl
    (by subst hn; simp only [List.map_append]; exact fun id hid => List.mem_append_left _ hid)
    (by subst hn; simp only [List.map_append]; exact fun k hk => List.mem_append_left _ hk)
    (by subst hn; exact fun i hi => (hseqs i hi).2) (by subst hn; simp [hseq]) (by subst hn; exact hlast)
  have hold (e : Envelope) (he : e ∈ m.envelopes) : e ∈ m.envelopes ++ rows.map itemEnvelope :=
    List.mem_append_left _ he
  subst hn
  refine
    { tables :=
        { items := hui
          selections := h.tables.selections
          members := h.tables.members
          alerts := h.tables.alerts
          contexts := h.tables.contexts }
      mail := fun e he => ?_
      ids := ?_
      keys := fun k => ?_
      seqs := hseqs
      alerts := fun a hmem => (h.alerts a hmem).mono hold
      contexts := fun c hmem => (h.contexts c hmem).mono hold
      logged := hlogged
      projected := hprojected
      lastSeq := hlast }
  · rcases List.mem_append.mp he with he | he
    · exact h.mail e he
    · obtain ⟨i, _, rfl⟩ := List.mem_map.mp he
      rfl
  · have hids : (rows.map itemEnvelope).map (·.mailId) = rows.map (·.key.mail.id) := by
      rw [List.map_map]
      rfl
    rw [List.map_append, hids]
    refine List.nodup_append.mpr ⟨h.ids, hnodup, fun a ha b hb hab => ?_⟩
    obtain ⟨i, hi, rfl⟩ := List.mem_map.mp hb
    exact hnew i hi (hab ▸ ha)
  · rw [List.map_append, List.map_append, List.mem_append, List.mem_append, List.map_map]
    refine or_congr (h.keys k) ?_
    constructor
    · intro hk
      obtain ⟨i, hi, rfl⟩ := List.mem_map.mp hk
      exact List.mem_map.mpr ⟨i, hi, rfl⟩
    · intro hk
      obtain ⟨i, hi, heq⟩ := List.mem_map.mp hk
      refine List.mem_map.mpr ⟨i, hi, ?_⟩
      exact ContentKey.mail_inj heq

end MonoAgent.EventMail
