import MonoAgent.EventMail.Apart

/-!
# What a rebuild reads

`Reads` is what the fold over the projected rows has read: of each item the last row,
each under its key, and the state of the last row of all.  A rebuild keeps `Named`,
since the items it writes are as many as the content envelopes.
-/

namespace MonoAgent.EventMail

open MonoAgent.Lib MonoAgent.Session

variable {m n : Mail}

/-- An item, the state and the selections of a projected transition. -/
abbrev ProjectedRow := Item × ContentState × List (Selection × List Member)

structure Reads (rows : List ProjectedRow) (p : Projected) : Prop where
  items : ∀ e ∈ p.items, e.1 = e.2.key ∧ ∃ row ∈ rows, row.1 = e.2
  nodup : p.items.keys.Nodup
  state : p.state = rows.getLast?.map (·.2.1)

theorem reads_start : Reads [] {} where
  items := by simp
  nodup := List.nodup_nil
  state := rfl

theorem Reads.add {rows : List ProjectedRow} {row : ProjectedRow} {p q : Projected} (h : Reads rows p)
    (hadd : p.add row = .ok q) : Reads (rows ++ [row]) q := by
  obtain ⟨_, _, hadd⟩ := Except.bind_eq_ok.mp hadd
  obtain ⟨_, _, hadd⟩ := Except.bind_eq_ok.mp hadd
  cases hadd
  refine ⟨fun e he => ?_, Dict.nodup_keys_set h.nodup _ _, by simp⟩
  rcases Dict.mem_set.mp he with rfl | ⟨_, he⟩
  · exact ⟨rfl, row, List.mem_append_right _ (List.mem_singleton.mpr rfl), rfl⟩
  · obtain ⟨hkey, r, hr, heq⟩ := h.items e he
    exact ⟨hkey, r, List.mem_append_left _ hr, heq⟩

/-- The fold over the rows, by induction on those that are left. -/
theorem Reads.fold {done rows : List ProjectedRow} {p q : Projected} (h : Reads done p)
    (hfold : rows.foldlM Projected.add p = .ok q) : Reads (done ++ rows) q := by
  induction rows generalizing done p with
  | nil =>
      cases hfold
      rwa [List.append_nil]
  | cons row rest ih =>
      rw [List.foldlM_cons] at hfold
      obtain ⟨r, hr, hfold⟩ := Except.bind_eq_ok.mp hfold
      have hrest := ih (h.add hr) hfold
      rwa [List.append_assoc] at hrest

/-- The items that were read, in the order of their numbers. -/
def Projected.sorted (p : Projected) : List Item :=
  (p.items.map Prod.snd).insertionSort (·.snapshotSeq ≤ ·.snapshotSeq)

theorem mem_sorted {p : Projected} {i : Item} : i ∈ p.sorted ↔ ∃ k, (k, i) ∈ p.items := by
  rw [Projected.sorted, (List.perm_insertionSort _ _).mem_iff, List.mem_map]
  constructor
  · rintro ⟨⟨k, i⟩, hmem, rfl⟩
    exact ⟨k, hmem⟩
  · rintro ⟨k, hmem⟩
    exact ⟨(k, i), hmem, rfl⟩

theorem Reads.sorted_keys {rows : List ProjectedRow} {p : Projected} (h : Reads rows p) :
    (p.sorted.map (·.key)).Perm p.items.keys := by
  have hkeys : (p.items.map Prod.snd).map (·.key) = p.items.keys := by
    rw [List.map_map]
    exact List.map_congr_left fun e he => (h.items e he).1.symm
  rw [← hkeys]
  exact (List.perm_insertionSort _ _).map _

/-- The projected rows of a ledger. -/
def Mail.rows (m : Mail) : List ProjectedRow := m.transitions.filterMap Transition.projected?

/-- What a rebuild writes to the content tables. -/
theorem rebuildContent_ok (h : m.rebuildContent = .ok n) : ∃ p, Reads m.rows p ∧
    m.rows.foldlM Projected.add {} = .ok p ∧ p.items.length = m.contentCount ∧
    (∀ i ∈ p.sorted, 0 < i.snapshotSeq) ∧ ItemsUnique p.sorted ∧
    SelectionsUnique (p.selections.map (·.2.1)) ∧ MembersUnique (p.selections.flatMap (·.2.2)) ∧
    n = { m with items := p.sorted, selections := p.selections.map (·.2.1)
                 members := p.selections.flatMap (·.2.2), state := p.state.getD m.state } := by
  obtain ⟨_, _, h⟩ := Except.bind_eq_ok.mp h
  obtain ⟨p, hp, h⟩ := Except.bind_eq_ok.mp h
  obtain ⟨_, hcount, h⟩ := Except.bind_eq_ok.mp h
  obtain ⟨_, hseq, h⟩ := Except.bind_eq_ok.mp h
  obtain ⟨a, ha, h⟩ := Except.bind_eq_ok.mp h
  obtain ⟨b, hb, h⟩ := Except.bind_eq_ok.mp h
  obtain ⟨c, hc, h⟩ := Except.bind_eq_ok.mp h
  cases h
  obtain ⟨hua, rfl⟩ := setItems_ok.mp ha
  obtain ⟨hub, rfl⟩ := setSelections_ok.mp hb
  obtain ⟨huc, rfl⟩ := setMembers_ok.mp hc
  refine ⟨p, reads_start.fold hp, hp, ensure_eq_ok.mp hcount, fun i hi => ?_, hua, hub, huc, rfl⟩
  refine ensure_eq_ok.mp hseq i ?_
  obtain ⟨k, hk⟩ := mem_sorted.mp hi
  exact List.mem_map.mpr ⟨(k, i), hk, rfl⟩

/-- The keys of the content envelopes. -/
def Mail.contentKeys (m : Mail) : List ContentKey :=
  (m.envelopes.filter (·.kind = .content)).map fun e => ⟨e.sourceId, e.itemId, e.revision⟩

theorem mem_contentKeys {k : ContentKey} :
    k ∈ m.contentKeys ↔ k.mail ∈ m.envelopes.map Envelope.key := by
  rw [Mail.contentKeys, List.mem_map, List.mem_map]
  constructor
  · rintro ⟨e, he, rfl⟩
    obtain ⟨he, hkind⟩ := List.mem_filter.mp he
    refine ⟨e, he, ?_⟩
    rw [Envelope.key, of_decide_eq_true hkind]
    rfl
  · rintro ⟨e, he, hkey⟩
    have hkind : e.kind = .content := congrArg MailKey.kind hkey
    refine ⟨e, List.mem_filter.mpr ⟨he, decide_eq_true hkind⟩, ContentKey.mail_inj ?_⟩
    rw [← hkey, Envelope.key, hkind]
    rfl

theorem contentKeys_length : m.contentKeys.length = m.contentCount := by
  rw [Mail.contentKeys, List.length_map, Mail.contentCount, List.countP_eq_length_filter]

/-- A replay keeps what names the alert. -/
theorem replayAlert_keeps {a b : Alert} {t : Transition} (h : Mail.replayAlert a t = .ok b) :
    b.sourceId = a.sourceId ∧ b.eventId = a.eventId ∧ b.mailId = a.mailId := by
  unfold Mail.replayAlert at h
  split at h
  · split at h
    · obtain ⟨_, _, h⟩ := Except.bind_eq_ok.mp h
      cases h
      exact ⟨rfl, rfl, rfl⟩
    · cases h
  · split at h <;> cases h
    exact ⟨rfl, rfl, rfl⟩
  all_goals
    cases h
    exact ⟨rfl, rfl, rfl⟩

theorem foldlM_replay_keeps {ts : List Transition} {a b : Alert}
    (h : ts.foldlM Mail.replayAlert a = .ok b) :
    b.sourceId = a.sourceId ∧ b.eventId = a.eventId ∧ b.mailId = a.mailId := by
  induction ts generalizing a with
  | nil =>
      cases h
      exact ⟨rfl, rfl, rfl⟩
  | cons t rest ih =>
      rw [List.foldlM_cons] at h
      obtain ⟨c, hc, h⟩ := Except.bind_eq_ok.mp h
      obtain ⟨h₁, h₂, h₃⟩ := ih h
      obtain ⟨k₁, k₂, k₃⟩ := replayAlert_keeps hc
      exact ⟨h₁.trans k₁, h₂.trans k₂, h₃.trans k₃⟩

theorem mem_latestEnvelopes {kind : MailKind} {e : Envelope} (h : e ∈ m.latestEnvelopes kind) :
    e ∈ m.envelopes ∧ e.kind = kind := by
  obtain ⟨⟨e, i⟩, hmem, rfl⟩ := List.mem_map.mp h
  obtain ⟨hmem, hcond⟩ := List.mem_filter.mp hmem
  rw [Bool.and_eq_true, decide_eq_true_eq] at hcond
  exact ⟨(List.mem_zipIdx' hmem).2 ▸ List.getElem_mem _, hcond.1⟩

theorem mapM_mem {α β : Type} {f : α → Except Error β} {l : List α} {out : List β}
    (h : l.mapM f = .ok out) : ∀ b ∈ out, ∃ a ∈ l, f a = .ok b := by
  induction l generalizing out with
  | nil =>
      cases h
      exact fun b hb => absurd hb (List.not_mem_nil)
  | cons a rest ih =>
      rw [List.mapM_cons] at h
      obtain ⟨b, hb, h⟩ := Except.bind_eq_ok.mp h
      obtain ⟨bs, hbs, h⟩ := Except.bind_eq_ok.mp h
      cases h
      intro c hc
      rcases List.mem_cons.mp hc with rfl | hc
      · exact ⟨a, List.mem_cons_self .., hb⟩
      · obtain ⟨x, hx, hfx⟩ := ih hbs c hc
        exact ⟨x, List.mem_cons_of_mem _ hx, hfx⟩

/-- The state that a rebuild writes has the number of the last projection. -/
theorem Named.rebuilt_seq (h : Named m) {p : Projected} (hp : Reads m.rows p) :
    (p.state.getD m.state).nextSeq = m.state.nextSeq := by
  have hlast := h.lastSeq
  rw [Mail.lastSeq, ← Mail.rows] at hlast
  rw [hp.state]
  cases hrow : m.rows.getLast? with
  | none => rfl
  | some row =>
      rw [hrow] at hlast
      exact hlast

/-- The items that a rebuild writes are those of the content envelopes. -/
theorem Named.rebuilt_keys (h : Named m) {p : Projected} (hp : Reads m.rows p)
    (hcount : p.items.length = m.contentCount) (k : ContentKey) :
    k ∈ p.sorted.map (·.key) ↔ k ∈ m.items.map (·.key) := by
  have hsub : p.items.keys ⊆ m.contentKeys := by
    intro k hk
    obtain ⟨i, hi⟩ := Dict.mem_keys.mp hk
    obtain ⟨hkey, row, hrow, heq⟩ := hp.items _ hi
    have hitem := (h.projected row hrow).1
    rw [heq] at hitem
    rw [mem_contentKeys, show k = i.key from hkey]
    exact (h.keys _).mp hitem
  have hperm : p.items.keys.Perm m.contentKeys := by
    refine (List.subperm_of_subset hp.nodup hsub).perm_of_length_le ?_
    rw [contentKeys_length, ← hcount, Dict.keys, List.length_map]
  rw [hp.sorted_keys.mem_iff, hperm.mem_iff, mem_contentKeys]
  exact (h.keys k).symm

theorem Named.rebuild (h : Named m) (hrun : m.rebuild = .ok n) : Named n := by
  obtain ⟨a, ha, hrun⟩ := Except.bind_eq_ok.mp hrun
  obtain ⟨alerts, halerts, hrun⟩ := Except.bind_eq_ok.mp hrun
  obtain ⟨b, hb, hrun⟩ := Except.bind_eq_ok.mp hrun
  obtain ⟨p, hp, _, hcount, hpos, hui, hus, hum, rfl⟩ := rebuildContent_ok ha
  obtain ⟨hua, rfl⟩ := setAlerts_ok.mp hb
  obtain ⟨huc, rfl⟩ := setContexts_ok.mp hrun
  have hseq := h.rebuilt_seq hp
  have hkeys := h.rebuilt_keys hp hcount
  refine
    { tables := ⟨hui, hus, hum, hua, huc⟩
      mail := h.mail
      ids := h.ids
      keys := fun k => (hkeys k).trans (h.keys k)
      seqs := fun i hi => ?_
      alerts := fun a hmem => ?_
      contexts := fun c hmem => ?_
      logged := h.logged
      projected := fun row hrow => ?_
      lastSeq := h.lastSeq.trans hseq.symm }
  · obtain ⟨k, hk⟩ := mem_sorted.mp hi
    obtain ⟨_, row, hrow, heq⟩ := hp.items _ hk
    have hle := (h.projected row hrow).2
    rw [heq] at hle
    exact ⟨hpos i hi, hle.trans hseq.ge⟩
  · obtain ⟨e, he, hreplay⟩ := mapM_mem halerts a hmem
    obtain ⟨hmem, hkind⟩ := mem_latestEnvelopes he
    obtain ⟨hs, _, hid⟩ := foldlM_replay_keeps hreplay
    exact ⟨e, hmem, hid.symm, hkind, hs.symm⟩
  · obtain ⟨e, he, rfl⟩ := List.mem_map.mp hmem
    obtain ⟨hmem, hkind⟩ := mem_latestEnvelopes he
    exact ⟨e, hmem, rfl, hkind, rfl⟩
  · obtain ⟨hk, hle⟩ := h.projected row hrow
    exact ⟨(hkeys _).mpr hk, hle.trans hseq.ge⟩

/-! ## Runs -/

theorem Named.content (h : Named m) {call : MailCall} (hof : OfContent call)
    (hrun : call.run m = .ok n) : Named n := by
  have hu := h.tables
  cases call with
  | submit source batch items now =>
      obtain ⟨r, hrun⟩ := run_ok hrun
      obtain rfl | ⟨rows, marks, submission, state, l, hrows, hnodup, hnew, hmarks, hui, hseq, _, hl, hn⟩ :=
        submit_ok hu.items hrun
      · exact h
      · exact h.submit hrows hnodup hnew hmarks hui hseq hl hn
  | selectBatch refs seq turn instant hex now =>
      obtain ⟨r, hrun⟩ := run_ok hrun
      obtain rfl | ⟨driver, rest, items, _, rfl, hui, hus, hum, hc⟩ := selectBatch_ok hu.members hrun
      · exact h
      · exact h.commits (keepsRow_ite (keepsRow_claim _ _ _)) hc hui hus hum
  | transition token action notBefore refs now =>
      obtain ⟨r, hrun⟩ := run_ok hrun
      obtain rfl | ⟨row, f, members, _, _, hmoves, hui, hum, hus, hc⟩ := transition_ok hu.members hrun
      · exact h
      · exact h.commits hmoves.keepsRow hc hui hus hum
  | expire refs now =>
      obtain ⟨r, hrun⟩ := run_ok hrun
      obtain rfl | ⟨expired, _, hui, hc⟩ := expire_ok hu.items hrun
      · exact h
      · exact h.commits (keepsRow_expire now expired) hc hui hu.selections hu.members
  | settleDelivery sha256 token settlement now =>
      obtain ⟨r, hrun⟩ := run_ok hrun
      obtain rfl | ⟨row, f, g, status, keys, _, _, _, _, hf, _, _, _, hui, hum, hus, hc⟩ :=
        settleDelivery_ok hu.items hu.members hrun
      · exact h
      · exact h.commits hf hc hui hus hum
  | ack source settlement now =>
      obtain ⟨r, hrun⟩ := run_ok hrun
      obtain rfl | ⟨row, f, _, _, hf, _, _, hui, hc⟩ := ack_ok hu.items hrun
      · exact h
      · exact h.commits hf hc hui hu.selections hu.members
  | _ => exact hof.elim

/-- Every call keeps the names, as long as its writes are apart. -/
theorem Named.next (h : Named m) {call : MailCall} (hok : Apart m call)
    (hn : mailMachine.next m call = some n) : Named n := by
  rcases mail_next hn with rfl | hrun
  · exact h
  have hcontent (hof : OfContent call) : Named n := h.content hof hrun
  have halert (hof : OfAlert call) : Named n := by
    obtain ⟨l, f, ts, g, us, hf, _, hg, _⟩ := touches_of_run h.tables.alerts hof hrun
    exact (h.touches hf).touches hg
  cases call with
  | reportAlert source event payload observed expiry =>
      obtain ⟨r, hrun⟩ := run_ok hrun
      exact h.reportAlert (hok _ (List.mem_singleton.mpr rfl)) hrun
  | reportContext source event payload observed expiry =>
      obtain ⟨r, hrun⟩ := run_ok hrun
      exact h.reportContext (hok _ (List.mem_singleton.mpr rfl)) hrun
  | rebuild => exact h.rebuild hrun
  | submit => exact hcontent trivial
  | selectBatch => exact hcontent trivial
  | transition => exact hcontent trivial
  | expire => exact hcontent trivial
  | settleDelivery => exact hcontent trivial
  | ack => exact hcontent trivial
  | selectAlert => exact halert trivial
  | deferAlert => exact halert trivial
  | closeAlert => exact halert trivial
  | changeAlert => exact halert trivial
  | expireAlert => exact halert trivial
  | alertDeadline => exact halert trivial

theorem named_reach (h : mailMachine.Reach Apart m) : Named m := by
  refine h.invariant (fun s hs => ?_) fun s call t hi hok hn => hi.next hok hn
  rw [show s = {} from hs]
  exact named_start

end MonoAgent.EventMail
