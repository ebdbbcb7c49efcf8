import MonoAgent.EventMail.Named
import MonoAgent.EventMail.Reports

/-!
# Stores whose sources stay apart

The name of a mail is shared by the keys that differ in where a colon belongs.  A
write is apart when no other source has a mail whose key is such a shift of a key
that it names.  Then a row of an alert or of a context names a mail of its own source.
-/

namespace MonoAgent.EventMail

open MonoAgent.Lib MonoAgent.Session

variable {m n : Mail}

/-- The mails that a call writes. -/
def MailCall.keys : MailCall → List MailKey
  | .submit source _ items _ => items.map fun item => ⟨.content, source, item.itemId, item.revision⟩
  | .reportAlert source event _ observed _ => [⟨.alert, source, event, observed⟩]
  | .reportContext source event _ observed _ => [⟨.context, source, event, observed⟩]
  | _ => []

/-- No mail of another source is a shift of the key. -/
def KeyApart (m : Mail) (k : MailKey) : Prop :=
  ∀ e ∈ m.envelopes, e.sourceId ≠ k.sourceId → ¬ Shifted e.key k ∧ ¬ Shifted k e.key

/-- The call writes no mail that is a shift of one of another source. -/
def Apart (m : Mail) (call : MailCall) : Prop := ∀ k ∈ call.keys, KeyApart m k

/-- An envelope with the name of the key is of its source. -/
theorem KeyApart.source {k : MailKey} (h : KeyApart m k) (hm : ∀ e ∈ m.envelopes, e.mailId = e.key.id)
    {e : Envelope} (he : e ∈ m.envelopes) (hid : e.mailId = k.id) : e.sourceId = k.sourceId := by
  by_contra hne
  obtain ⟨hleft, hright⟩ := h e he hne
  have hsame : e.key.id = k.id := (hm e he).symm.trans hid
  rcases id_eq_iff.mp hsame with heq | hs | hs
  · exact hne (congrArg MailKey.sourceId heq)
  · exact hleft hs
  · exact hright hs

/-! ## Calls that are not of content -/

/-- What is not of content leaves the content tables as they are. -/
theorem Named.aside (h : Named m) (es : List Envelope) (us : List Transition) {as : List Alert}
    {cs : List Context} (hes : ∀ e ∈ es, e.kind ≠ .content ∧ e.mailId = e.key.id)
    (hids : ((m.envelopes ++ es).map (·.mailId)).Nodup)
    (hus : ∀ t ∈ us, t.kind ≠ .content ∧ t.mailId ∈ (m.envelopes ++ es).map (·.mailId))
    (has : AlertsUnique as) (hcs : ContextsUnique cs)
    (hn : n = { m with envelopes := m.envelopes ++ es, transitions := m.transitions ++ us
                       alerts := as, contexts := cs })
    (halerts : ∀ a ∈ as, MailOf n .alert a.sourceId a.mailId)
    (hcontexts : ∀ c ∈ cs, MailOf n .context c.sourceId c.mailId) : Named n := by
  have hnone : us.filterMap Transition.projected? = [] := by
    refine List.filterMap_eq_nil_iff.mpr fun t ht => ?_
    rw [Transition.projected?]
    exact if_neg fun hp => (hus t ht).1 hp.1
  have hrows : (m.transitions ++ us).filterMap Transition.projected? =
      m.transitions.filterMap Transition.projected? := by
    rw [List.filterMap_append, hnone, List.append_nil]
  subst hn
  refine
    { tables := ⟨h.tables.items, h.tables.selections, h.tables.members, has, hcs⟩
      mail := fun e he => ?_
      ids := hids
      keys := fun k => (h.keys k).trans ?_
      seqs := h.seqs
      alerts := halerts
      contexts := hcontexts
      logged := fun t ht => ?_
      projected := ?_
      lastSeq := ?_ }
  · exact (List.mem_append.mp he).elim (h.mail e) fun he => (hes e he).2
  · rw [List.map_append, List.mem_append]
    refine (or_iff_left ?_).symm
    intro hk
    obtain ⟨e, he, hkey⟩ := List.mem_map.mp hk
    exact (hes e he).1 (congrArg MailKey.kind hkey)
  · rcases List.mem_append.mp ht with ht | ht
    · rw [List.map_append]
      exact List.mem_append_left _ (h.logged t ht)
    · exact (hus t ht).2
  · simp only [hrows]
    exact h.projected
  · have hlast := h.lastSeq
    rw [Mail.lastSeq] at hlast ⊢
    simp only [hrows]
    exact hlast

theorem Named.touches (h : Named m) {f : Alert → Alert} {ts : List Transition} (ht : Touches m f ts n) :
    Named n := by
  obtain ⟨us, hus, hlog⟩ := logAll_eq m.transitions ts
  have hn : n = { m with envelopes := m.envelopes ++ [], transitions := m.transitions ++ us
                         alerts := m.alerts.map f, contexts := m.contexts } := by
    rw [ht.eq, hlog, List.append_nil]
  have hof (kind : MailKind) (source id : String) (hmail : MailOf m kind source id) :
      MailOf n kind source id := hmail.mono (by simp [hn])
  refine h.aside [] us (by simp) (by simpa using h.ids) (fun t hmem => ?_) ?_ h.tables.contexts hn ?_ ?_
  · obtain ⟨hkind, _, a, ha, hid, _⟩ := ht.marks t (hus t hmem)
    obtain ⟨e, he, heid, _⟩ := h.alerts a ha
    rw [hkind, List.append_nil, hid, ← heid]
    exact ⟨nofun, List.mem_map_of_mem he⟩
  · have hu := ht.unique
    rw [hn] at hu
    exact hu
  · intro _ hmem
    obtain ⟨a, ha, rfl⟩ := List.mem_map.mp hmem
    obtain ⟨hs, _, hid⟩ := ht.keeps a
    rw [hs, hid]
    exact hof _ _ _ (h.alerts a ha)
  · exact fun c hc => hof _ _ _ (h.contexts c hc)

/-! ## Reports -/

/-- The alerts with a row for its event. -/
def putAlert (row : Alert) (alerts : List Alert) : List Alert :=
  upsert (fun a => a.sourceId = row.sourceId ∧ a.eventId = row.eventId) row alerts

def putContext (row : Context) (contexts : List Context) : List Context :=
  upsert (fun c => c.sourceId = row.sourceId ∧ c.eventId = row.eventId) row contexts

theorem publishAlert_ok {row : Alert} : m.publishAlert row = .ok n ↔
    AlertsUnique (putAlert row m.alerts) ∧ { m with alerts := putAlert row m.alerts } = n := setAlerts_ok

theorem publishContext_ok {row : Context} : m.publishContext row = .ok n ↔
    ContextsUnique (putContext row m.contexts) ∧ { m with contexts := putContext row m.contexts } = n :=
  setContexts_ok

/-- An envelope with the name of the key is of its kind. -/
theorem kind_of_id {k : MailKey} {e : Envelope} (h : e.key.id = k.id) : e.kind = k.kind := by
  rcases id_eq_iff.mp h with heq | hs | hs
  · exact congrArg MailKey.kind heq
  · exact hs.1
  · exact hs.1.symm

theorem Named.log (h : Named m) {ts : List Transition}
    (hts : ∀ t ∈ ts, t.kind ≠ .content ∧ t.mailId ∈ m.envelopes.map (·.mailId)) : Named (m.log ts) := by
  obtain ⟨us, hus, hlog⟩ := logAll_eq m.transitions ts
  refine h.aside [] us (by simp) (by simpa using h.ids) (fun t ht => ?_) h.tables.alerts
    h.tables.contexts ?_ h.alerts h.contexts
  · simpa using hts t (hus t ht)
  · rw [Mail.log, hlog, List.append_nil]

/-- The envelope of a report is there, and is of its source. -/
theorem Named.appended (h : Named m) {key : MailKey} (hap : KeyApart m key) (hkind : key.kind ≠ .content)
    {payload : String} {observed : Instant} {notBefore expiry : Option Instant} {inserted : Bool}
    (ha : m.appendEnvelope key payload observed notBefore expiry = .ok (inserted, n)) :
    Named n ∧ MailOf n key.kind key.sourceId key.id := by
  obtain ⟨_, hnone, rfl⟩ | ⟨_, rfl, row, hrow, _⟩ := appendEnvelope_ok ha
  · have hold (e : Envelope) (he : e ∈ m.envelopes) :
        e ∈ m.envelopes ++ [newEnvelope key payload observed notBefore expiry] :=
      List.mem_append_left _ he
    refine ⟨h.aside [newEnvelope key payload observed notBefore expiry] [] ?_ ?_ (by simp) h.tables.alerts h.tables.contexts (by rw [List.append_nil])
      (fun a hmem => (h.alerts a hmem).mono hold) fun c hmem => (h.contexts c hmem).mono hold, ?_⟩
    · intro e he
      rw [List.mem_singleton.mp he]
      exact ⟨hkind, rfl⟩
    · exact nodup_map_concat h.ids (envelope?_none.mp hnone)
    · exact ⟨_, List.mem_append_right _ (List.mem_singleton.mpr rfl), rfl, rfl, rfl⟩
  · obtain ⟨hmem, hid⟩ := envelope?_some hrow
    exact ⟨h, row, hmem, hid, kind_of_id ((h.mail row hmem).symm.trans hid), hap.source h.mail hmem hid⟩

theorem current_mem {id : Option String} {row : Envelope} (h : m.current id = some row) :
    row ∈ m.envelopes ∧ id = some row.mailId := by
  obtain ⟨x, hx, hrow⟩ := Option.bind_eq_some_iff.mp h
  obtain ⟨hmem, hid⟩ := envelope?_some hrow
  exact ⟨hmem, hx.trans (congrArg some hid.symm)⟩

/-- A report of either kind, when what it publishes keeps the names. -/
theorem Named.reports {a : Mail} (h : Named a) {key : MailKey} {inserted : Bool}
    {projected : Mail → Option String} {publish : Mail → String → Except Error Mail}
    (hof : MailOf a key.kind key.sourceId key.id) (hkind : key.kind ≠ .content)
    (hpublish : ∀ x l, Named x → MailOf x key.kind key.sourceId key.id → publish x key.id = .ok l →
      Named l ∧ l.envelopes = x.envelopes) (hr : Reports key inserted a projected publish n) : Named n := by
  have hid : key.id ∈ a.envelopes.map (·.mailId) := by
    obtain ⟨e, he, heid, _⟩ := hof
    exact heid ▸ List.mem_map_of_mem he
  have hreceived (l : Mail) (hl : Named l) (he : l.envelopes = a.envelopes) :
      Named (l.log (receivedMark inserted key)) := by
    refine hl.log fun t ht => ?_
    rw [receivedMark] at ht
    split at ht
    · rw [List.mem_singleton.mp ht, he]
      exact ⟨hkind, hid⟩
    · cases ht
  cases hr with
  | replayed row hrow hsame => exact h
  | older row hrow hne hold =>
      refine h.log fun t ht => ?_
      rw [olderMarks] at ht
      split at ht
      · rcases List.mem_cons.mp ht with rfl | ht
        · exact ⟨hkind, hid⟩
        · rw [List.mem_singleton.mp ht]
          exact ⟨hkind, hid⟩
      · cases ht
  | first l hnone hl =>
      obtain ⟨hnamed, he⟩ := hpublish a l h hof hl
      exact hreceived l hnamed he
  | newer row l hrow hne hnew hl =>
      have hlog : Named (a.log [supersededMark row.mailId key.kind key.id]) := by
        refine h.log fun t ht => ?_
        rw [List.mem_singleton.mp ht]
        exact ⟨hkind, List.mem_map_of_mem (current_mem hrow).1⟩
      obtain ⟨hnamed, he⟩ := hpublish _ l hlog hof hl
      exact hreceived l hnamed he

theorem Named.publishAlert (h : Named m) {row : Alert} (hu : AlertsUnique (putAlert row m.alerts))
    (hof : MailOf m .alert row.sourceId row.mailId) :
    Named { m with alerts := putAlert row m.alerts } := by
  refine h.aside [] [] (by simp) (by simpa using h.ids) (by simp) hu h.tables.contexts
    (by rw [List.append_nil, List.append_nil]) (fun a hmem => ?_) h.contexts
  rcases mem_upsert hmem with rfl | ⟨hmem, _⟩
  · exact hof
  · exact h.alerts a hmem

theorem Named.publishContext (h : Named m) {row : Context} (hu : ContextsUnique (putContext row m.contexts))
    (hof : MailOf m .context row.sourceId row.mailId) :
    Named { m with contexts := putContext row m.contexts } := by
  refine h.aside [] [] (by simp) (by simpa using h.ids) (by simp) h.tables.alerts hu
    (by rw [List.append_nil, List.append_nil]) h.alerts fun c hmem => ?_
  rcases mem_upsert hmem with rfl | ⟨hmem, _⟩
  · exact hof
  · exact h.contexts c hmem

theorem Named.reportAlert (h : Named m) {source event payload : String} {observed : Instant}
    {expiry : Option Instant} {r : Reported} (hap : KeyApart m ⟨.alert, source, event, observed⟩)
    (hrun : m.reportAlert source event payload observed expiry = .ok (r, n)) : Named n := by
  obtain ⟨inserted, a, ha, hr⟩ := report_ok hrun
  obtain ⟨hnamed, hof⟩ := h.appended hap nofun ha
  refine hnamed.reports hof nofun (fun x l hx hof hl => ?_) hr
  obtain ⟨hu, rfl⟩ := publishAlert_ok.mp hl
  exact ⟨hx.publishAlert hu hof, rfl⟩

theorem Named.reportContext (h : Named m) {source event payload : String} {observed : Instant}
    {expiry : Option Instant} {r : Reported} (hap : KeyApart m ⟨.context, source, event, observed⟩)
    (hrun : m.reportContext source event payload observed expiry = .ok (r, n)) : Named n := by
  obtain ⟨inserted, a, ha, hr⟩ := report_ok hrun
  obtain ⟨hnamed, hof⟩ := h.appended hap nofun ha
  refine hnamed.reports hof nofun (fun x l hx hof hl => ?_) hr
  obtain ⟨hu, rfl⟩ := publishContext_ok.mp hl
  exact ⟨hx.publishContext hu hof, rfl⟩

end MonoAgent.EventMail
