import MonoAgent.EventMail.Interference

/-!
# A batch of a source

A submission goes through its items in order.  It finds the rows and the envelopes of
its own source only, so it ends alike with and without the rows of other sources.
-/

namespace MonoAgent.EventMail

open MonoAgent.Lib MonoAgent.Session

variable {m n l : Mail} {source : String} {seq : Nat}

/-- The two are alike in the items of the source, and the number is free in both. -/
structure Batch (source : String) (m l : Mail) (seq : Nat) : Prop where
  sees : Sees source m l
  items : l.items = m.items.filter (·.key.sourceId = source)
  unique : ItemsUnique m.items
  seqs : ∀ i ∈ m.items, i.snapshotSeq ≤ seq

theorem Batch.item? (h : Batch source m l seq) {key : ContentKey} (hkey : key.sourceId = source) :
    l.item? key = m.item? key := by
  rw [Mail.item?, Mail.item?, h.items]
  refine find?_filter_of fun i _ hi => ?_
  rw [decide_eq_true_eq] at hi ⊢
  exact hi ▸ hkey

theorem ItemsUnique.sublist {xs ys : List Item} (h : ItemsUnique ys) (hsub : xs.Sublist ys) :
    ItemsUnique xs := by
  obtain ⟨h₁, h₂, h₃, h₄, h₅⟩ := h
  exact ⟨h₁.sublist (hsub.map _), h₂.sublist (hsub.map _), h₃.sublist (hsub.filterMap _),
    h₄.sublist (hsub.filterMap _), h₅.sublist (hsub.filterMap _)⟩

/-- A row that waits for its first claim fits when its key and its number are new. -/
theorem ItemsUnique.append {items : List Item} (h : ItemsUnique items) {row : Item}
    (hkey : row.key ∉ items.map (·.key)) (hseq : ∀ i ∈ items, i.snapshotSeq < row.snapshotSeq)
    (htoken : row.selectionToken = none) (hturn : row.selectedTurn = none)
    (href : row.settlementRef = none) : ItemsUnique (items ++ [row]) := by
  obtain ⟨h₁, h₂, h₃, h₄, h₅⟩ := h
  have hnone {β : Type} {f : Item → Option β} (hnodup : (items.filterMap f).Nodup) (hrow : f row = none) :
      ((items ++ [row]).filterMap f).Nodup := by
    rwa [List.filterMap_append, List.filterMap_cons_none hrow, List.filterMap_nil, List.append_nil]
  refine ⟨nodup_map_concat h₁ hkey, nodup_map_concat h₂ fun hmem => ?_, hnone h₃ htoken, hnone h₄ hturn, hnone h₅ href⟩
  obtain ⟨i, hi, heq⟩ := List.mem_map.mp hmem
  exact absurd heq (hseq i hi).ne

/-- A key that is apart stays so when the source stores more. -/
theorem KeyApart.append {k : MailKey} (h : KeyApart m k) {es : List Envelope}
    (hes : ∀ e ∈ es, e.sourceId = k.sourceId) (hn : n.envelopes = m.envelopes ++ es) : KeyApart n k := by
  intro e he hne
  rw [hn] at he
  rcases List.mem_append.mp he with he | he
  · exact h e he hne
  · exact absurd (hes e he) hne

theorem Sees.append (h : Sees source m l) (xs ys : List Item) {e : Envelope} (hs : e.sourceId = source)
    (hid : e.mailId = e.key.id) (hnew : e.mailId ∉ m.envelopes.map (·.mailId)) :
    Sees source { m with items := xs, envelopes := m.envelopes ++ [e] }
      { l with items := ys, envelopes := l.envelopes ++ [e] } where
  envelopes := by
    have hfilter : [e].filter (·.sourceId = source) = [e] := by simp [hs]
    simp only [List.filter_append, h.envelopes, hfilter]
  mail e' he := by
    rcases List.mem_append.mp he with he | he
    · exact h.mail e' he
    · rw [List.mem_singleton.mp he]
      exact hid
  ids := nodup_map_concat h.ids hnew
  left t ht := by
    rw [List.map_append]
    exact List.mem_append_left _ (h.left t ht)
  right t ht := by
    rw [List.map_append]
    exact List.mem_append_left _ (h.right t ht)

/-- The row of a new item. -/
def freshItem (key : ContentKey) (item : NormalizedItem) (seq : Nat) (now : Instant) : Item :=
  { key, payloadJson := item.payloadJson, snapshotSeq := seq, notBefore := item.notBefore
    requiresAck := item.requiresAck, createdAt := now, updatedAt := now }

/-- A new row is inserted in both, or in neither. -/
theorem Batch.insertItem (h : Batch source m l seq) {key : ContentKey} (hkey : key.sourceId = source)
    (hap : KeyApart m key.mail) (hnone : m.item? key = none) (item : NormalizedItem) (now : Instant) :
    Agree (fun a b => Batch source a b (seq + 1) ∧ ∃ e, e.sourceId = source ∧ a.envelopes = m.envelopes ++ [e])
      (m.insertItem key item (seq + 1) now) (l.insertItem key item (seq + 1) now) := by
  unfold Mail.insertItem
  dsimp only
  have hlnone : l.item? key = none := (h.item? hkey).trans hnone
  have hlt : ∀ i ∈ m.items, i.snapshotSeq < seq + 1 := fun i hi => Nat.lt_succ_of_le (h.seqs i hi)
  have hlsub : l.items.Sublist m.items := h.items ▸ List.filter_sublist
  rw [setItems_ok.mpr ⟨h.unique.append (item?_none.mp hnone) hlt rfl rfl rfl, rfl⟩,
    setItems_ok.mpr ⟨(h.unique.sublist hlsub).append (item?_none.mp hlnone)
      (fun i hi => hlt i (hlsub.subset hi)) rfl rfl rfl, rfl⟩]
  refine Agree.bind (agree_ok (P := fun a b => a = _ ∧ b = _) ⟨rfl, rfl⟩) ?_
  rintro _ _ ⟨rfl, rfl⟩
  have hsees (xs ys : List Item) : Sees source { m with items := xs } { l with items := ys } :=
    ⟨h.sees.envelopes, h.sees.mail, h.sees.ids, h.sees.left, h.sees.right⟩
  refine Agree.bind ((hsees (m.items ++ [freshItem key item (seq + 1) now])
    (l.items ++ [freshItem key item (seq + 1) now])).appendEnvelope hkey hap item.payloadJson now
      (some item.notBefore) none) ?_
  rintro ⟨inserted, a⟩ ⟨_, b⟩ ⟨rfl, es, _, hes, rfl, rfl, hrun⟩
  refine (agree_ensure Iff.rfl _).bind fun _ _ hinserted => ?_
  obtain rfl := hes hinserted
  obtain ⟨_, hnew, _⟩ | ⟨hold, _⟩ := appendEnvelope_ok hrun
  · have hnew : key.mail.id ∉ m.envelopes.map (·.mailId) := envelope?_none.mp hnew
    have hgrown := h.sees.append (m.items ++ [freshItem key item (seq + 1) now])
      (l.items ++ [freshItem key item (seq + 1) now])
      (e := newEnvelope key.mail item.payloadJson now (some item.notBefore) none) hkey rfl hnew
    have howns : Mail.Owns { m with
        items := m.items ++ [freshItem key item (seq + 1) now]
        envelopes := m.envelopes ++ [newEnvelope key.mail item.payloadJson now (some item.notBefore) none] }
        source key.mail.id := ⟨_, List.mem_append_right _ (List.mem_singleton.mpr rfl), rfl, hkey⟩
    refine (hgrown.appendTransition .content .received .empty howns).mono ?_
    rintro _ _ ⟨rfl, rfl⟩
    refine ⟨⟨hgrown.log (fun t ht => ?_) fun t ht => ?_, ?_, ?_, fun i hi => ?_⟩, _, hkey, rfl⟩
    · exact List.mem_singleton.mp ht ▸ howns
    · exact List.mem_singleton.mp ht ▸ howns
    · have hfilter : [freshItem key item (seq + 1) now].filter (·.key.sourceId = source) =
          [freshItem key item (seq + 1) now] := by simp [freshItem, hkey]
      show l.items ++ _ = (m.items ++ _).filter _
      rw [List.filter_append, hfilter, h.items]
    · exact h.unique.append (item?_none.mp hnone) hlt rfl rfl rfl
    · rcases List.mem_append.mp hi with hi | hi
      · exact (hlt i hi).le
      · rw [List.mem_singleton.mp hi]
        exact Nat.le_refl _
  · cases hold.symm.trans hinserted

/-- The loop over the items of a batch, by induction on them. -/
theorem Batch.appendEach (h : Batch source m l seq) {items : List NormalizedItem} {now : Instant}
    (hap : ∀ item ∈ items, KeyApart m ⟨.content, source, item.itemId, item.revision⟩) :
    Agree (fun a b => a.1 = b.1) (Mail.appendEach source now m seq items)
      (Mail.appendEach source now l seq items) := by
  induction items generalizing m l seq with
  | nil => exact agree_ok rfl
  | cons item rest ih =>
      have hrest (item : NormalizedItem) (hi : item ∈ rest) := hap item (List.mem_cons_of_mem _ hi)
      rw [Mail.appendEach, Mail.appendEach]
      dsimp only
      have hkey : (⟨source, item.itemId, item.revision⟩ : ContentKey).sourceId = source := rfl
      rw [h.item? hkey]
      cases hfind : m.item? ⟨source, item.itemId, item.revision⟩ with
      | some existing =>
          refine (agree_refl _).bind fun _ _ _ => (ih h hrest).bind ?_
          rintro ⟨⟨inserted, duplicates⟩, a⟩ ⟨_, b⟩ rfl
          exact agree_ok rfl
      | none =>
          refine (h.insertItem hkey (hap item (List.mem_cons_self ..)) hfind item now).bind ?_
          rintro a b ⟨hab, e, hs, he⟩
          have hgrown (item : NormalizedItem) (hi : item ∈ rest) :
              KeyApart a ⟨.content, source, item.itemId, item.revision⟩ :=
            (hrest item hi).append (fun e' he' => List.mem_singleton.mp he' ▸ hs) he
          refine (ih hab hgrown).bind ?_
          rintro ⟨⟨inserted, duplicates⟩, x⟩ ⟨_, y⟩ rfl
          exact agree_ok rfl

/-- What was inserted is projected. -/
theorem submission_projects {items : List NormalizedItem} {now : Instant}
    {inserted duplicates : List ContentKey} (hui : ItemsUnique m.items)
    (hids : (m.envelopes.map (·.mailId)).Nodup)
    (h : m.appendItems source items now = .ok ((inserted, duplicates), n)) : ∃ k,
    n.recomputeWake.appendContentProjections (inserted.map (·.mail.id)) = .ok k ∧
      k.state.nextSeq = m.state.nextSeq + inserted.length ∧
      k.state.stateVersion = m.state.stateVersion + (if inserted = [] then 0 else 1) := by
  obtain ⟨rows, marks, state, rfl, _, hnodup, hnew, _, _, hseq, hversion, rfl⟩ := appendItems_ok h hui
  have hids' : ((m.envelopes ++ rows.map itemEnvelope).map (·.mailId)).Nodup := by
    rw [List.map_append, List.map_map]
    refine List.nodup_append.mpr ⟨hids, hnodup, fun a ha b hb hab => ?_⟩
    obtain ⟨i, hi, rfl⟩ := List.mem_map.mp hb
    subst hab
    exact hnew i hi ha
  have hlands : Lands Integrity True (Mail.appendContentProjections (Mail.recomputeWake
      { m with items := m.items ++ rows, envelopes := m.envelopes ++ rows.map itemEnvelope, state
               transitions := m.transitions ++ marks }) ((rows.map (·.key)).map (·.mail.id))) fun _ => True := by
    refine lands_projections hids' fun id hid => ?_
    rw [List.map_map] at hid
    obtain ⟨i, hi, rfl⟩ := List.mem_map.mp hid
    exact ⟨itemEnvelope i, List.mem_append_right _ (List.mem_map_of_mem hi), rfl, rfl,
      List.mem_map_of_mem (List.mem_append_right _ hi)⟩
  obtain ⟨k, hk, _⟩ := hlands.ok trivial
  obtain ⟨⟨ts, _, rfl⟩, _⟩ := projections_ok hk
  refine ⟨_, hk, ?_, ?_⟩
  · show state.nextSeq = _
    rw [List.length_map]
    exact hseq
  · show state.stateVersion = _
    rw [hversion]
    simp only [List.map_eq_nil_iff]

/-- A receipt without the flag of the whole store. -/
def SubmissionReceipt.own (r : SubmissionReceipt) : SubmissionReceipt := { r with wakeNeeded := false }

theorem Batch.appendItems (h : Batch source m l m.state.nextSeq) (hstate : l.state = m.state)
    {items : List NormalizedItem} {now : Instant}
    (hap : ∀ item ∈ items, KeyApart m ⟨.content, source, item.itemId, item.revision⟩) :
    Agree (fun a b => a.1 = b.1) (m.appendItems source items now) (l.appendItems source items now) := by
  unfold Mail.appendItems
  rw [hstate]
  refine (h.appendEach hap).bind ?_
  rintro ⟨⟨inserted, duplicates⟩, a⟩ ⟨_, b⟩ rfl
  dsimp only
  split
  · exact agree_ok rfl
  · exact agree_ok rfl

theorem Batch.submit (h : Batch source m l m.state.nextSeq) (hstate : l.state = m.state)
    (hsubmissions : l.submissions = m.submissions.filter (·.sourceId = source)) {batch : String}
    {items : List NormalizedItem} {now : Instant}
    (hap : ∀ item ∈ items, KeyApart m ⟨.content, source, item.itemId, item.revision⟩) :
    Agree (fun a b => a.1.own = b.1.own) (m.submit source batch items now)
      (l.submit source batch items now) := by
  have hreceipt : l.submissionReceipt source batch items = m.submissionReceipt source batch items := by
    rw [Mail.submissionReceipt, Mail.submissionReceipt, hsubmissions, find?_filter_of fun row _ hrow => ?_]
    rw [decide_eq_true_eq] at hrow ⊢
    exact hrow.1
  have hlids : (l.envelopes.map (·.mailId)).Nodup := by
    rw [h.sees.envelopes]
    exact h.sees.ids.sublist (List.filter_sublist.map _)
  have hlunique : ItemsUnique l.items := h.unique.sublist (h.items ▸ List.filter_sublist)
  unfold Mail.submit
  rw [hreceipt]
  refine (agree_refl _).bind fun _ _ _ => (agree_refl _).bind fun _ _ _ => (agree_refl _).bind fun _ _ _ => ?_
  refine (agree_refl _).bind ?_
  rintro found _ rfl
  cases found with
  | some previous => exact agree_ok rfl
  | none =>
      refine (h.appendItems hstate hap).runs.bind ?_
      rintro ⟨⟨inserted, duplicates⟩, a⟩ ⟨_, b⟩ ⟨rfl, ha, hb⟩
      obtain ⟨k, hk, hseq, hversion⟩ := submission_projects h.unique h.sees.ids ha
      obtain ⟨k', hk', hseq', hversion'⟩ := submission_projects hlunique hlids hb
      dsimp only
      rw [hk, hk']
      refine agree_ok ?_
      simp only [SubmissionReceipt.own, hseq, hversion, hseq', hversion', hstate]

/-! ## What is logged -/

theorem logAll_new {log ts : List Transition} {t : Transition} (h : t ∈ logAll log ts) :
    t ∈ log ∨ t ∈ ts := by
  obtain ⟨us, hus, heq⟩ := logAll_eq log ts
  rw [heq] at h
  exact (List.mem_append.mp h).imp id (hus t)

/-- A submission logs what it does to the mails of its own items. -/
theorem submit_logs {batch : String} {items : List NormalizedItem} {now : Instant} {r : SubmissionReceipt}
    (hitems : ItemsUnique m.items) (h : m.submit source batch items now = .ok (r, n)) :
    ∀ t ∈ n.transitions, t ∈ m.transitions ∨ n.Owns source t.mailId := by
  obtain rfl | ⟨rows, marks, submission, state, l, hrows, _, _, hmarks, _, _, _, hl, rfl⟩ :=
    submit_ok hitems h
  · exact fun t ht => Or.inl ht
  obtain ⟨⟨ts, hts, rfl⟩, _⟩ := projections_ok hl
  have howns (i : Item) (hi : i ∈ rows) :
      ∃ e ∈ m.envelopes ++ rows.map itemEnvelope, e.mailId = i.key.mail.id ∧ e.sourceId = source :=
    ⟨itemEnvelope i, List.mem_append_right _ (List.mem_map_of_mem hi), rfl, (hrows i hi).1.1⟩
  intro t ht
  rcases List.mem_append.mp ht with ht | ht
  · rcases List.mem_append.mp ht with ht | ht
    · exact Or.inl ht
    · obtain ⟨_, _, k, hk, hid⟩ := hmarks t ht
      obtain ⟨i, hi, rfl⟩ := List.mem_map.mp hk
      exact Or.inr (hid ▸ howns i hi)
  · obtain ⟨id, hid, hproj⟩ := hts t ht
    obtain ⟨i, hi, rfl⟩ := List.mem_map.mp hid
    exact Or.inr (hproj.mailId.1 ▸ howns i hi)

/-- A report logs what it does to its own mail and to the one that the event had. -/
theorem Reports.logs {key : MailKey} {inserted : Bool} {a : Mail} {projected : Mail → Option String}
    {publish : Mail → String → Except Error Mail} (h : Reports key inserted a projected publish n)
    (hown : a.Owns source key.id) (hcurrent : ∀ id, projected a = some id → a.Owns source id)
    (hpublish : ∀ x l, publish x key.id = .ok l → l.envelopes = x.envelopes ∧ l.transitions = x.transitions) :
    ∀ t ∈ n.transitions, t ∈ a.transitions ∨ n.Owns source t.mailId := by
  have hreceived (l : Mail) (hl : l.envelopes = a.envelopes) (t : Transition)
      (ht : t ∈ (l.log (receivedMark inserted key)).transitions) :
      t ∈ l.transitions ∨ (l.log (receivedMark inserted key)).Owns source t.mailId := by
    refine (logAll_new ht).imp id fun ht => ?_
    rw [receivedMark] at ht
    split at ht
    · rw [List.mem_singleton.mp ht]
      exact hown.of_eq hl
    · cases ht
  cases h with
  | replayed row hrow hsame => exact fun t ht => Or.inl ht
  | older row hrow hne hold =>
      intro t ht
      refine (logAll_new ht).imp id fun ht => ?_
      rw [olderMarks] at ht
      split at ht
      · rcases List.mem_cons.mp ht with rfl | ht
        · exact hown
        · rw [List.mem_singleton.mp ht]
          exact hown
      · cases ht
  | first l hnone hl =>
      obtain ⟨he, hts⟩ := hpublish a l hl
      exact fun t ht => (hreceived l he t ht).imp (fun ht => hts ▸ ht) id
  | newer row l hrow hne hnew hl =>
      obtain ⟨he, hts⟩ := hpublish _ l hl
      intro t ht
      rcases hreceived l he t ht with ht | ht
      · rw [hts] at ht
        refine (logAll_new ht).imp id fun ht => ?_
        rw [List.mem_singleton.mp ht]
        exact (hcurrent row.mailId (current_mem hrow).2).of_eq he
      · exact Or.inr ht

theorem appendEnvelope_transitions {key : MailKey} {payload : String} {observed : Instant}
    {notBefore expiry : Option Instant} {inserted : Bool}
    (h : m.appendEnvelope key payload observed notBefore expiry = .ok (inserted, n)) :
    n.transitions = m.transitions := by
  obtain ⟨_, _, rfl⟩ | ⟨_, rfl, _⟩ := appendEnvelope_ok h <;> rfl

theorem reportAlert_logs (hm : Named m) {event payload : String} {observed : Instant}
    {expiry : Option Instant} {r : Reported} (hap : KeyApart m ⟨.alert, source, event, observed⟩)
    (h : m.reportAlert source event payload observed expiry = .ok (r, n)) :
    ∀ t ∈ n.transitions, t ∈ m.transitions ∨ n.Owns source t.mailId := by
  obtain ⟨inserted, a, ha, hr⟩ := report_ok h
  obtain ⟨hnamed, hof⟩ := hm.appended hap nofun ha
  rw [← appendEnvelope_transitions ha]
  refine hr.logs hof.owns (fun id hid => ?_) fun x l hl => ?_
  · obtain ⟨row, hrow, rfl⟩ := Option.map_eq_some_iff.mp hid
    have hs : row.sourceId = source ∧ row.eventId = event := by simpa using List.find?_some hrow
    exact hs.1 ▸ (hnamed.alerts row (List.mem_of_find?_eq_some hrow)).owns
  · obtain ⟨_, rfl⟩ := publishAlert_ok.mp hl
    exact ⟨rfl, rfl⟩

theorem reportContext_logs (hm : Named m) {event payload : String} {observed : Instant}
    {expiry : Option Instant} {r : Reported} (hap : KeyApart m ⟨.context, source, event, observed⟩)
    (h : m.reportContext source event payload observed expiry = .ok (r, n)) :
    ∀ t ∈ n.transitions, t ∈ m.transitions ∨ n.Owns source t.mailId := by
  obtain ⟨inserted, a, ha, hr⟩ := report_ok h
  obtain ⟨hnamed, hof⟩ := hm.appended hap nofun ha
  rw [← appendEnvelope_transitions ha]
  refine hr.logs hof.owns (fun id hid => ?_) fun x l hl => ?_
  · obtain ⟨row, hrow, rfl⟩ := Option.map_eq_some_iff.mp hid
    have hs : row.sourceId = source ∧ row.eventId = event := by simpa using List.find?_some hrow
    exact hs.1 ▸ (hnamed.contexts row (List.mem_of_find?_eq_some hrow)).owns
  · obtain ⟨_, rfl⟩ := publishContext_ok.mp hl
    exact ⟨rfl, rfl⟩

/-! ## Two sources -/

/-- The source of a write. -/
def MailCall.source? : MailCall → Option String
  | .submit source .. | .reportAlert source .. | .reportContext source .. => some source
  | _ => none

/-- What a write returns to its source, without the flag of the whole store. -/
def MailCall.answer (m : Mail) : MailCall → Option (Except Error (SubmissionReceipt ⊕ Reported))
  | .submit source batch items now => some ((m.submit source batch items now).map fun r => .inl r.1.own)
  | .reportAlert source event payload observed expiry =>
      some ((m.reportAlert source event payload observed expiry).map fun r => .inr r.1)
  | .reportContext source event payload observed expiry =>
      some ((m.reportContext source event payload observed expiry).map fun r => .inr r.1)
  | _ => none

theorem Named.view (h : Named m) (source : String) : View source m (m.only source) where
  named := h
  envelopes := rfl
  alerts := rfl
  contexts := rfl
  right _ ht := of_decide_eq_true (List.mem_filter.mp ht).2

theorem Named.batch (h : Named m) (source : String) :
    Batch source m (m.only source) m.state.nextSeq where
  sees := (h.view source).sees
  items := rfl
  unique := h.tables.items
  seqs i hi := (h.seqs i hi).2

/-- A write that is apart returns what it returns without the rows of other sources. -/
theorem Named.answer (h : Named m) {call : MailCall} (hs : call.source? = some source)
    (hap : Apart m call) : call.answer (m.only source) = call.answer m := by
  cases call with
  | submit source' batch items now =>
      obtain rfl := Option.some.inj hs
      refine congrArg some (((h.batch source').submit rfl rfl fun item hitem => ?_).map ?_).symm
      · exact hap _ (List.mem_map_of_mem hitem)
      · exact fun a b hab => congrArg Sum.inl hab
  | reportAlert source' event payload observed expiry =>
      obtain rfl := Option.some.inj hs
      refine congrArg some (((h.view source').reportAlert (hap _ (List.mem_singleton.mpr rfl))).map ?_).symm
      exact fun a b hab => congrArg Sum.inr hab
  | reportContext source' event payload observed expiry =>
      obtain rfl := Option.some.inj hs
      refine congrArg some (((h.view source').reportContext (hap _ (List.mem_singleton.mpr rfl))).map ?_).symm
      exact fun a b hab => congrArg Sum.inr hab
  | _ => cases hs

/-- A write that is apart logs what it does to mails of its own source. -/
theorem Named.logs (h : Named m) {call : MailCall} (hs : call.source? = some source) (hap : Apart m call)
    (hn : mailMachine.next m call = some n) :
    ∀ t ∈ n.transitions, t ∈ m.transitions ∨ n.Owns source t.mailId := by
  rcases mail_next hn with rfl | hrun
  · exact fun t ht => Or.inl ht
  cases call with
  | submit source' batch items now =>
      obtain rfl := Option.some.inj hs
      obtain ⟨r, hrun⟩ := run_ok hrun
      exact submit_logs h.tables.items hrun
  | reportAlert source' event payload observed expiry =>
      obtain rfl := Option.some.inj hs
      obtain ⟨r, hrun⟩ := run_ok hrun
      exact reportAlert_logs h (hap _ (List.mem_singleton.mpr rfl)) hrun
  | reportContext source' event payload observed expiry =>
      obtain rfl := Option.some.inj hs
      obtain ⟨r, hrun⟩ := run_ok hrun
      exact reportContext_logs h (hap _ (List.mem_singleton.mpr rfl)) hrun
  | _ => cases hs

/-- Two mails have one name exactly when their keys are shifts of each other.  In a store
whose writes were apart, a write that is apart ends as it would without the rows of the
other sources, and what it logs is of its own mails. -/
theorem sources_apart {m : Mail} (hm : mailMachine.Reach Apart m) :
    (∀ a b : MailKey, a.Accepted → b.Accepted → a ≠ b →
      (a.id ≠ b.id ↔ ¬ Shifted a b ∧ ¬ Shifted b a)) ∧
    ∀ source call, call.source? = some source → Apart m call →
      call.answer (m.only source) = call.answer m ∧
      ∀ n, mailMachine.next m call = some n →
        ∀ t ∈ n.transitions, t ∈ m.transitions ∨ n.Owns source t.mailId := by
  refine ⟨fun a b _ _ hne => ?_, fun source call hs hap => ?_⟩
  · rw [ne_eq, id_eq_iff, not_or, not_or]
    exact and_iff_right hne
  · have hnamed := named_reach hm
    exact ⟨hnamed.answer hs hap, fun n hn => hnamed.logs hs hap hn⟩

/-- A batch of one item. -/
def exampleBatch (source item : String) : MailCall :=
  .submit source "1" [⟨item, "1", "\x7b\x7d", "1", true⟩] "1"

/-- The item of one source has a colon, and is no shift of that of the other. -/
theorem sources_apart_example :
    let m := (mailMachine.next {} (exampleBatch "a" "b:c")).getD {}
    (exampleBatch "a:d" "c").answer (m.only "a:d") = (exampleBatch "a:d" "c").answer m ∧
      m.envelopes.length = 1 ∧ (m.only "a:d").envelopes = [] := by
  intro m
  have hfirst : mailMachine.next {} (exampleBatch "a" "b:c") = some m := rfl
  have hempty : Apart {} (exampleBatch "a" "b:c") := fun k _ e he => absurd he List.not_mem_nil
  have hreach : mailMachine.Reach Apart m := (Machine.Reach.start rfl).step hempty hfirst
  have hids : ∀ e ∈ m.envelopes, e.key.id ≠ (⟨.content, "a:d", "c", "1"⟩ : MailKey).id := by decide
  have hapart : Apart m (exampleBatch "a:d" "c") := by
    intro k hk e he _
    rw [List.mem_singleton.mp hk]
    exact ⟨fun hs => hids e he (id_eq_of_shifted hs), fun hs => hids e he (id_eq_of_shifted hs).symm⟩
  exact ⟨((sources_apart hreach).2 "a:d" _ rfl hapart).1, by decide, by decide⟩

/-- Two accepted keys have one name, and the source that comes second cannot submit. -/
theorem shifted_collide :
    let m := (mailMachine.next {} (exampleBatch "a:b" "c")).getD {}
    (∃ a b : MailKey, a.Accepted ∧ b.Accepted ∧ a ≠ b ∧ a.id = b.id) ∧ mailMachine.Reachable m ∧
      (exampleBatch "a" "b:c").answer m = some (.error
        ⟨.runtimeError, "新 Content projection 缺少新 EventMail envelope"⟩) ∧
      (exampleBatch "a" "b:c").answer (m.only "a") ≠ (exampleBatch "a" "b:c").answer m := by
  intro m
  refine ⟨⟨⟨.content, "a:b", "c", "1"⟩, ⟨.content, "a", "b:c", "1"⟩, by decide, by decide,
    by decide, by decide⟩, ?_, by decide, by decide⟩
  have hfirst : mailMachine.next {} (exampleBatch "a:b" "c") = some m := rfl
  exact (Machine.Reach.start rfl).step trivial hfirst

end MonoAgent.EventMail
