import MonoAgent.EventMail.Reads
import MonoAgent.EventMail.Settle

/-!
# Sources do not meet

What a source writes does not depend on what another source has stored, as long as it
names no mail that is a shift of one of the other source: the same call on the mail
without the other rows has the same outcome, and what it logs is of its own mails.
-/

namespace MonoAgent.EventMail

open MonoAgent.Lib MonoAgent.Session

variable {m l : Mail} {source : String}

/-- The mail without what other sources stored. -/
def Mail.only (m : Mail) (source : String) : Mail :=
  let envelopes := m.envelopes.filter (·.sourceId = source)
  { m with
    envelopes
    transitions := m.transitions.filter fun t => t.mailId ∈ envelopes.map (·.mailId)
    alerts := m.alerts.filter (·.sourceId = source)
    contexts := m.contexts.filter (·.sourceId = source)
    items := m.items.filter (·.key.sourceId = source)
    submissions := m.submissions.filter (·.sourceId = source)
    members := m.members.filter (·.key.sourceId = source) }

/-- The envelopes of `l` are those of the source, and each ledger is of its envelopes. -/
structure Sees (source : String) (m l : Mail) : Prop where
  envelopes : l.envelopes = m.envelopes.filter (·.sourceId = source)
  mail : ∀ e ∈ m.envelopes, e.mailId = e.key.id
  ids : (m.envelopes.map (·.mailId)).Nodup
  left : ∀ t ∈ m.transitions, t.mailId ∈ m.envelopes.map (·.mailId)
  right : ∀ t ∈ l.transitions, t.mailId ∈ l.envelopes.map (·.mailId)

/-- A row that a filter keeps is found first in either list. -/
theorem find?_filter_of {α : Type} {p q : α → Bool} {xs : List α} (h : ∀ x ∈ xs, q x = true → p x = true) :
    (xs.filter p).find? q = xs.find? q := by
  induction xs with
  | nil => rfl
  | cons x rest ih =>
      have hrest := ih fun y hy => h y (List.mem_cons_of_mem _ hy)
      cases hp : p x with
      | true => rw [List.filter_cons_of_pos hp, List.find?_cons, List.find?_cons, hrest]
      | false =>
          have hq : q x = false := by
            cases hq : q x with
            | false => rfl
            | true => exact absurd (h x (List.mem_cons_self ..) hq) (by simp [hp])
          rw [List.filter_cons_of_neg (by simp [hp]), List.find?_cons, hq, hrest]

/-- An envelope of the source is found in both. -/
theorem Sees.envelope? (h : Sees source m l) {id : String}
    (hid : ∀ e ∈ m.envelopes, e.mailId = id → e.sourceId = source) : l.envelope? id = m.envelope? id := by
  rw [Mail.envelope?, Mail.envelope?, h.envelopes]
  refine find?_filter_of fun e he hq => ?_
  rw [decide_eq_true_eq] at hq ⊢
  exact hid e he hq

/-- The mail is one of the source. -/
def Mail.Owns (m : Mail) (source id : String) : Prop :=
  ∃ e ∈ m.envelopes, e.mailId = id ∧ e.sourceId = source

theorem Sees.owned (h : Sees source m l) {id : String} (hid : m.Owns source id) :
    id ∈ m.envelopes.map (·.mailId) ∧ id ∈ l.envelopes.map (·.mailId) ∧
      ∀ e ∈ m.envelopes, e.mailId = id → e.sourceId = source := by
  obtain ⟨e, he, rfl, hs⟩ := hid
  refine ⟨List.mem_map_of_mem he, ?_, fun e' he' hsame => ?_⟩
  · rw [h.envelopes]
    exact List.mem_map_of_mem (List.mem_filter.mpr ⟨he, by simpa using hs⟩)
  · rw [List.inj_on_of_nodup_map h.ids he' he hsame]
    exact hs

theorem Sees.log (h : Sees source m l) {ts us : List Transition}
    (hts : ∀ t ∈ ts, m.Owns source t.mailId) (hus : ∀ t ∈ us, m.Owns source t.mailId) :
    Sees source (m.log ts) (l.log us) where
  envelopes := h.envelopes
  mail := h.mail
  ids := h.ids
  left t ht := by
    obtain ⟨vs, hvs, heq⟩ := logAll_eq m.transitions ts
    rw [Mail.log, heq] at ht
    rcases List.mem_append.mp ht with ht | ht
    · exact h.left t ht
    · exact (h.owned (hts t (hvs t ht))).1
  right t ht := by
    obtain ⟨vs, hvs, heq⟩ := logAll_eq l.transitions us
    rw [Mail.log, heq] at ht
    rcases List.mem_append.mp ht with ht | ht
    · exact h.right t ht
    · exact (h.owned (hus t (hvs t ht))).2.1

/-- An append succeeds when the mail is there. -/
theorem appendTransition_runs {id : String} {kind : MailKind} {action : MailAction} {detail : Detail}
    (h : id ∈ m.envelopes.map (·.mailId)) :
    m.appendTransition id kind action detail = .ok (m.log [⟨id, kind, action, detail⟩]) := by
  have hlands : Lands Integrity True (m.appendTransition id kind action detail) fun n =>
    ∃ ts, n = { m with transitions := m.transitions ++ ts } := lands_appendTransition h
  obtain ⟨n, hn, _⟩ := hlands.ok trivial
  rw [hn, appendTransition_log hn]

/-- The same is logged of a mail of the source. -/
theorem Sees.appendTransition (h : Sees source m l) {id : String} (kind : MailKind) (action : MailAction)
    (detail : Detail) (hid : m.Owns source id) :
    Agree (fun a b => a = m.log [⟨id, kind, action, detail⟩] ∧ b = l.log [⟨id, kind, action, detail⟩])
      (m.appendTransition id kind action detail) (l.appendTransition id kind action detail) := by
  obtain ⟨hm, hl, _⟩ := h.owned hid
  rw [appendTransition_runs hm, appendTransition_runs hl]
  exact agree_ok ⟨rfl, rfl⟩

/-- The envelope is new to both, or is there in both. -/
theorem Sees.appendEnvelope (h : Sees source m l) {key : MailKey} (hkey : key.sourceId = source)
    (hap : KeyApart m key) (payload : String) (observed : Instant) (notBefore expiry : Option Instant) :
    Agree (fun a b => a.1 = b.1 ∧ ∃ es : List Envelope, (∀ e ∈ es, e.sourceId = source) ∧
        (a.1 = true → es = [newEnvelope key payload observed notBefore expiry]) ∧
        a.2 = { m with envelopes := m.envelopes ++ es } ∧ b.2 = { l with envelopes := l.envelopes ++ es } ∧
        m.appendEnvelope key payload observed notBefore expiry = .ok a)
      (m.appendEnvelope key payload observed notBefore expiry)
      (l.appendEnvelope key payload observed notBefore expiry) := by
  have hfind : l.envelope? key.id = m.envelope? key.id :=
    h.envelope? fun e he hid => (hap.source h.mail he hid).trans hkey
  have happend : l.appendEnvelope key payload observed notBefore expiry =
      (m.appendEnvelope key payload observed notBefore expiry).map fun a =>
        (a.1, if a.1 then { l with envelopes := l.envelopes ++ [newEnvelope key payload observed notBefore expiry] }
          else l) := by
    rw [Mail.appendEnvelope, Mail.appendEnvelope, hfind]
    cases m.envelope? key.id with
    | none => rfl
    | some row =>
        dsimp only
        by_cases hsame : (row.payloadJson, row.observedAt, row.notBefore, row.expiresAt) =
            (payload, observed, notBefore, expiry)
        · simp only [ensure, if_pos hsame]
          rfl
        · simp only [ensure, if_neg hsame]
          rfl
  cases hrun : m.appendEnvelope key payload observed notBefore expiry with
  | error e =>
      rw [happend, hrun]
      exact agree_error
  | ok a =>
      rw [happend, hrun]
      obtain ⟨inserted, a⟩ := a
      obtain ⟨rfl, _, rfl⟩ | ⟨rfl, rfl, _⟩ := appendEnvelope_ok hrun
      · refine agree_ok ⟨rfl, [newEnvelope key payload observed notBefore expiry], fun e he => ?_, fun _ => rfl,
          rfl, rfl, rfl⟩
        rw [List.mem_singleton.mp he]
        exact hkey
      · exact agree_ok ⟨rfl, [], by simp, by simp, by simp, by simp, rfl⟩

/-! ## Reports -/

/-- `l` holds what the source has of the alerts and of the context. -/
structure View (source : String) (m l : Mail) : Prop where
  named : Named m
  envelopes : l.envelopes = m.envelopes.filter (·.sourceId = source)
  alerts : l.alerts = m.alerts.filter (·.sourceId = source)
  contexts : l.contexts = m.contexts.filter (·.sourceId = source)
  right : ∀ t ∈ l.transitions, t.mailId ∈ l.envelopes.map (·.mailId)

theorem View.sees (h : View source m l) : Sees source m l :=
  ⟨h.envelopes, h.named.mail, h.named.ids, h.named.logged, h.right⟩

theorem MailOf.owns {kind : MailKind} {id : String} (h : MailOf m kind source id) : m.Owns source id := by
  obtain ⟨e, he, hid, _, hs⟩ := h
  exact ⟨e, he, hid, hs⟩

theorem View.log (h : View source m l) {ts : List Transition}
    (hts : ∀ t ∈ ts, t.kind ≠ .content ∧ m.Owns source t.mailId) : View source (m.log ts) (l.log ts) where
  named := h.named.log fun t ht => ⟨(hts t ht).1, (h.sees.owned (hts t ht).2).1⟩
  envelopes := h.envelopes
  alerts := h.alerts
  contexts := h.contexts
  right := (h.sees.log (fun t ht => (hts t ht).2) fun t ht => (hts t ht).2).right

theorem View.appendTransition (h : View source m l) {id : String} {kind : MailKind} (hkind : kind ≠ .content)
    (action : MailAction) (detail : Detail) (hid : m.Owns source id) :
    Agree (fun a b => View source a b ∧ a.envelopes = m.envelopes)
      (m.appendTransition id kind action detail) (l.appendTransition id kind action detail) := by
  obtain ⟨hm, hl, _⟩ := h.sees.owned hid
  rw [appendTransition_runs hm, appendTransition_runs hl]
  refine agree_ok ⟨h.log fun t ht => ?_, rfl⟩
  rw [List.mem_singleton.mp ht]
  exact ⟨hkind, hid⟩

theorem View.receive (h : View source m l) {key : MailKey} (hkind : key.kind ≠ .content) (inserted : Bool)
    (hid : m.Owns source key.id) :
    Agree (View source) (m.receive inserted key) (l.receive inserted key) := by
  cases inserted with
  | false => exact agree_ok h
  | true =>
      exact (h.appendTransition hkind .received .empty hid).mono fun _ _ hab => hab.1

/-- The event has the same mail in both, which is one of the source. -/
theorem View.current (h : View source m l) {id : Option String} (hid : ∀ i, id = some i → m.Owns source i) :
    l.current id = m.current id := by
  cases id with
  | none => rfl
  | some i => exact h.sees.envelope? (h.sees.owned (hid i rfl)).2.2

theorem Mail.Owns.of_eq {id : String} (h : m.Owns source id) (he : l.envelopes = m.envelopes) :
    l.Owns source id := by
  obtain ⟨e, hmem, hid, hs⟩ := h
  exact ⟨e, he ▸ hmem, hid, hs⟩

/-- What was new to both is new in both. -/
theorem View.appended (h : View source m l) {es : List Envelope} (hes : ∀ e ∈ es, e.sourceId = source)
    (hnamed : Named { m with envelopes := m.envelopes ++ es }) :
    View source { m with envelopes := m.envelopes ++ es } { l with envelopes := l.envelopes ++ es } where
  named := hnamed
  envelopes := by
    have hfilter : es.filter (·.sourceId = source) = es :=
      List.filter_eq_self.mpr fun e he => by simpa using hes e he
    simp only [List.filter_append, hfilter, h.envelopes]
  alerts := h.alerts
  contexts := h.contexts
  right t ht := by
    rw [List.map_append]
    exact List.mem_append_left _ (h.right t ht)

/-- A report of either kind, when the event has one mail in both and what it publishes agrees. -/
theorem View.report (h : View source m l) {kind : MailKind} (hkind : kind ≠ .content)
    {label event payload : String} {observed : Instant} {notBefore expiry : Option Instant}
    {projected : Mail → Option String} {publish : Mail → String → Except Error Mail}
    (hap : KeyApart m ⟨kind, source, event, observed⟩)
    (hproj : ∀ a b, View source a b → projected b = projected a ∧
      ∀ id, projected a = some id → a.Owns source id)
    (hpub : ∀ a b id, View source a b → MailOf a kind source id →
      Agree (fun x y => View source x y ∧ x.envelopes = a.envelopes) (publish a id) (publish b id)) :
    Agree (fun a b => a.1 = b.1)
      (m.report kind label source event payload observed notBefore expiry projected publish)
      (l.report kind label source event payload observed notBefore expiry projected publish) := by
  unfold Mail.report
  refine (agree_refl _).bind fun _ _ _ => (agree_refl _).bind fun _ _ _ => (agree_refl _).bind fun _ _ _ => ?_
  refine (h.sees.appendEnvelope rfl hap payload observed notBefore expiry).bind ?_
  rintro ⟨inserted, a⟩ ⟨_, b⟩ ⟨rfl, es, hes, _, rfl, rfl, hrun⟩
  obtain ⟨hnamed, hof⟩ := h.named.appended hap hkind hrun
  have hview := h.appended hes hnamed
  generalize ({ m with envelopes := m.envelopes ++ es } : Mail) = a at *
  generalize ({ l with envelopes := l.envelopes ++ es } : Mail) = b at *
  obtain ⟨hsame, hcurrent⟩ := hproj a b hview
  have howns := hof.owns
  have hfirst (x y : Mail) (hxy : View source x y) (hxe : x.envelopes = a.envelopes) :
      Agree (fun a b => a.1 = b.1) (publish x (MailKey.id ⟨kind, source, event, observed⟩) >>= fun n =>
          n.receive inserted ⟨kind, source, event, observed⟩ >>= fun n =>
            .ok ((⟨inserted, none, source, event, MailKey.id ⟨kind, source, event, observed⟩⟩ : Reported), n))
        (publish y (MailKey.id ⟨kind, source, event, observed⟩) >>= fun n =>
          n.receive inserted ⟨kind, source, event, observed⟩ >>= fun n =>
            .ok ((⟨inserted, none, source, event, MailKey.id ⟨kind, source, event, observed⟩⟩ : Reported), n)) := by
    have hofx := hof.mono fun e he => hxe ▸ he
    refine (hpub x y _ hxy hofx).bind fun p q hpq => ?_
    refine (hpq.1.receive hkind inserted (hofx.owns.of_eq hpq.2)).bind fun _ _ _ => agree_ok rfl
  simp only [hsame, hview.current hcurrent]
  cases hrow : a.current (projected a) with
  | none => exact hfirst a b hview rfl
  | some row =>
      dsimp only
      split
      · exact agree_ok rfl
      · split
        · split
          · refine (hview.appendTransition hkind .received .empty howns).bind fun x y hxy => ?_
            refine (hxy.1.appendTransition hkind .superseded _ (howns.of_eq hxy.2)).bind fun _ _ _ => agree_ok rfl
          · exact agree_ok rfl
        · have hrowns := hcurrent row.mailId (current_mem hrow).2
          refine (hview.appendTransition hkind .superseded _ hrowns).bind fun x y hxy => ?_
          exact hfirst x y hxy.1 hxy.2

/-! ### Alerts and context -/

/-- A table of which every row is of one source or of another one is unique when both parts are. -/
theorem nodup_of_parts {α β : Type} {f : α → β} {p : α → Bool} {xs : List α}
    (h : ((xs.filter p).map f).Nodup) (h' : ((xs.filter fun x => !p x).map f).Nodup)
    (hne : ∀ x ∈ xs, ∀ y ∈ xs, p x = true → p y = false → f x ≠ f y) : (xs.map f).Nodup := by
  refine ((List.filter_append_perm p xs).map f).nodup_iff.mp ?_
  rw [List.map_append]
  refine List.nodup_append.mpr ⟨h, h', fun a ha b hb => ?_⟩
  obtain ⟨x, hx, rfl⟩ := List.mem_map.mp ha
  obtain ⟨y, hy, rfl⟩ := List.mem_map.mp hb
  obtain ⟨hx, hpx⟩ := List.mem_filter.mp hx
  obtain ⟨hy, hpy⟩ := List.mem_filter.mp hy
  exact hne x hx y hy hpx (by simpa using hpy)

/-- The rows of a source after a row of it was put. -/
theorem upsert_filter {α : Type} {p : α → Prop} [DecidablePred p] {q : α → Bool} {row : α} {xs : List α}
    (hrow : q row = true) (hp : ∀ x, p x → q x = true) :
    (upsert p row xs).filter q = upsert p row (xs.filter q) := by
  have hfind : (xs.filter q).find? p = xs.find? p :=
    find?_filter_of fun x _ hx => hp x (by simpa using hx)
  rw [upsert, upsert, hfind]
  split
  · rw [List.filter_map]
    refine congrArg _ (List.filter_congr fun x _ => ?_)
    simp only [Function.comp_apply]
    split
    · next hpx => rw [hrow, hp x hpx]
    · rfl
  · rw [List.filter_append, List.filter_cons_of_pos hrow, List.filter_nil]

/-- The rows of other sources, which stay. -/
theorem upsert_filter_not {α : Type} {p : α → Prop} [DecidablePred p] {q : α → Bool} {row : α} {xs : List α}
    (hrow : q row = true) (hp : ∀ x, p x → q x = true) :
    (upsert p row xs).filter (fun x => !q x) = xs.filter fun x => !q x := by
  rw [upsert]
  split
  · rw [List.filter_map]
    have hcomp : ((fun x => !q x) ∘ fun x => if p x then row else x) = fun x => !q x := by
      funext x
      simp only [Function.comp_apply]
      split
      · next hpx => rw [hrow, hp x hpx]
      · rfl
    rw [hcomp]
    refine (List.map_congr_left fun x hx => if_neg fun hpx => ?_).trans (List.map_id' _)
    have hnot := (List.mem_filter.mp hx).2
    rw [hp x hpx] at hnot
    cases hnot
  · rw [List.filter_append, List.filter_cons_of_neg (by simp [hrow]), List.filter_nil, List.append_nil]

/-- The mails of two sources are different. -/
theorem Named.mail_ne (h : Named m) {kind : MailKind} {s t id id' : String} (hs : MailOf m kind s id)
    (ht : MailOf m kind t id') (hne : s ≠ t) : id ≠ id' := by
  rintro rfl
  obtain ⟨e, he, hid, _, rfl⟩ := hs
  obtain ⟨e', he', hid', _, rfl⟩ := ht
  exact hne (congrArg Envelope.sourceId (h.envelope_eq he he' (hid.trans hid'.symm)))

/-- A row of the source fits in the whole column when it fits in the part of the source. -/
theorem upsert_nodup {α β : Type} {f : α → β} {p : α → Prop} [DecidablePred p] {q : α → Bool} {row : α}
    {xs : List α} (h : (xs.map f).Nodup) (hrow : q row = true) (hp : ∀ x, p x → q x = true)
    (hne : ∀ x ∈ upsert p row xs, ∀ y ∈ upsert p row xs, q x = true → q y = false → f x ≠ f y) :
    ((upsert p row xs).map f).Nodup ↔ ((upsert p row (xs.filter q)).map f).Nodup := by
  rw [← upsert_filter hrow hp]
  constructor
  · intro hall
    exact hall.sublist (List.filter_sublist.map _)
  · intro hpart
    refine nodup_of_parts hpart ?_ hne
    rw [upsert_filter_not hrow hp]
    exact h.sublist (List.filter_sublist.map _)

theorem source_ne {s t : String} (hs : decide (s = source) = true) (ht : decide (t = source) = false) :
    s ≠ t := fun hst => of_decide_eq_false ht (hst ▸ of_decide_eq_true hs)

/-- An alert of the source fits in the one table when it fits in the other. -/
theorem View.alerts_unique (h : View source m l) {row : Alert} (hs : row.sourceId = source)
    (hof : MailOf m .alert source row.mailId) :
    AlertsUnique (putAlert row m.alerts) ↔ AlertsUnique (putAlert row l.alerts) := by
  have hmail (a : Alert) (ha : a ∈ putAlert row m.alerts) : MailOf m .alert a.sourceId a.mailId := by
    rcases mem_upsert ha with rfl | ⟨ha, _⟩
    · exact hs ▸ hof
    · exact h.named.alerts a ha
  have hkeep (a : Alert) (ha : a.sourceId = row.sourceId ∧ a.eventId = row.eventId) :
      decide (a.sourceId = source) = true := by simpa using ha.1.trans hs
  obtain ⟨hn, hm⟩ := h.named.tables.alerts
  rw [AlertsUnique, AlertsUnique, h.alerts]
  refine and_congr (upsert_nodup hn (by simpa using hs) hkeep fun a _ b _ ha hb hab => ?_)
    (upsert_nodup hm (by simpa using hs) hkeep fun a ha b hb hpa hpb => ?_)
  · exact source_ne ha hb (Prod.mk.inj hab).1
  · exact h.named.mail_ne (hmail a ha) (hmail b hb) (source_ne hpa hpb)

theorem View.contexts_unique (h : View source m l) {row : Context} (hs : row.sourceId = source)
    (hof : MailOf m .context source row.mailId) :
    ContextsUnique (putContext row m.contexts) ↔ ContextsUnique (putContext row l.contexts) := by
  have hmail (c : Context) (hc : c ∈ putContext row m.contexts) : MailOf m .context c.sourceId c.mailId := by
    rcases mem_upsert hc with rfl | ⟨hc, _⟩
    · exact hs ▸ hof
    · exact h.named.contexts c hc
  have hkeep (c : Context) (hc : c.sourceId = row.sourceId ∧ c.eventId = row.eventId) :
      decide (c.sourceId = source) = true := by simpa using hc.1.trans hs
  obtain ⟨hn, hm⟩ := h.named.tables.contexts
  rw [ContextsUnique, ContextsUnique, h.contexts]
  refine and_congr (upsert_nodup hn (by simpa using hs) hkeep fun a _ b _ ha hb hab => ?_)
    (upsert_nodup hm (by simpa using hs) hkeep fun a ha b hb hpa hpb => ?_)
  · exact source_ne ha hb (Prod.mk.inj hab).1
  · exact h.named.mail_ne (hmail a ha) (hmail b hb) (source_ne hpa hpb)

theorem View.publishAlert (h : View source m l) {row : Alert} (hs : row.sourceId = source)
    (hof : MailOf m .alert source row.mailId) :
    Agree (fun x y => View source x y ∧ x.envelopes = m.envelopes)
      (m.publishAlert row) (l.publishAlert row) := by
  have hkeep (a : Alert) (ha : a.sourceId = row.sourceId ∧ a.eventId = row.eventId) :
      decide (a.sourceId = source) = true := by simpa using ha.1.trans hs
  refine (agree_ensure (h.alerts_unique hs hof) _).bind fun _ _ hu => agree_ok ⟨?_, rfl⟩
  refine ⟨h.named.publishAlert hu (hs ▸ hof), h.envelopes, ?_, h.contexts, h.right⟩
  show putAlert row l.alerts = _
  rw [h.alerts]
  exact (upsert_filter (by simpa using hs) hkeep).symm

theorem View.publishContext (h : View source m l) {row : Context} (hs : row.sourceId = source)
    (hof : MailOf m .context source row.mailId) :
    Agree (fun x y => View source x y ∧ x.envelopes = m.envelopes)
      (m.publishContext row) (l.publishContext row) := by
  have hkeep (c : Context) (hc : c.sourceId = row.sourceId ∧ c.eventId = row.eventId) :
      decide (c.sourceId = source) = true := by simpa using hc.1.trans hs
  refine (agree_ensure (h.contexts_unique hs hof) _).bind fun _ _ hu => agree_ok ⟨?_, rfl⟩
  refine ⟨h.named.publishContext hu (hs ▸ hof), h.envelopes, h.alerts, ?_, h.right⟩
  show putContext row l.contexts = _
  rw [h.contexts]
  exact (upsert_filter (by simpa using hs) hkeep).symm

/-- An alert of the source is found in both. -/
theorem View.alert? (h : View source m l) (event : String) : l.alert? source event = m.alert? source event := by
  rw [Mail.alert?, Mail.alert?, h.alerts]
  refine find?_filter_of fun a _ ha => ?_
  rw [decide_eq_true_eq] at ha ⊢
  exact ha.1

theorem View.context? (h : View source m l) (event : String) :
    l.context? source event = m.context? source event := by
  rw [Mail.context?, Mail.context?, h.contexts]
  refine find?_filter_of fun c _ hc => ?_
  rw [decide_eq_true_eq] at hc ⊢
  exact hc.1

theorem View.reportAlert (h : View source m l) {event payload : String} {observed : Instant}
    {expiry : Option Instant} (hap : KeyApart m ⟨.alert, source, event, observed⟩) :
    Agree (fun a b => a.1 = b.1) (m.reportAlert source event payload observed expiry)
      (l.reportAlert source event payload observed expiry) := by
  refine h.report ?_ hap (fun a b hab => ⟨?_, fun id hid => ?_⟩) fun a b id hab hof => ?_
  · exact nofun
  · rw [hab.alert?]
  · obtain ⟨row, hrow, rfl⟩ := Option.map_eq_some_iff.mp hid
    have hs : row.sourceId = source ∧ row.eventId = event := by simpa using List.find?_some hrow
    exact hs.1 ▸ (hab.named.alerts row (List.mem_of_find?_eq_some hrow)).owns
  · exact hab.publishAlert rfl hof

theorem View.reportContext (h : View source m l) {event payload : String} {observed : Instant}
    {expiry : Option Instant} (hap : KeyApart m ⟨.context, source, event, observed⟩) :
    Agree (fun a b => a.1 = b.1) (m.reportContext source event payload observed expiry)
      (l.reportContext source event payload observed expiry) := by
  refine h.report ?_ hap (fun a b hab => ⟨?_, fun id hid => ?_⟩) fun a b id hab hof => ?_
  · exact nofun
  · rw [hab.context?]
  · obtain ⟨row, hrow, rfl⟩ := Option.map_eq_some_iff.mp hid
    have hs : row.sourceId = source ∧ row.eventId = event := by simpa using List.find?_some hrow
    exact hs.1 ▸ (hab.named.contexts row (List.mem_of_find?_eq_some hrow)).owns
  · exact hab.publishContext rfl hof

end MonoAgent.EventMail
