import MonoAgent.EventMail.Rebuild

/-!
# What a write leaves

One lemma for each write of a table, and for the two appends of the ledger.
`Logged` says that nothing but transitions was written.
-/

namespace MonoAgent.EventMail

open MonoAgent.Lib MonoAgent.Session

variable {m n : Mail}

/-! ## Tables -/

/-- A write behind a check. -/
theorem checked_ok {c : Prop} [Decidable c] {e : Error} {x n : Mail} :
    (ensure c e >>= fun _ => .ok x) = Except.ok n ↔ c ∧ x = n := by
  constructor
  · intro h
    obtain ⟨_, hc, h⟩ := Except.bind_eq_ok.mp h
    exact ⟨ensure_eq_ok.mp hc, Except.ok.inj h⟩
  · rintro ⟨hc, rfl⟩
    exact Except.bind_eq_ok.mpr ⟨(), ensure_eq_ok.mpr hc, rfl⟩

theorem setItems_ok {items : List Item} :
    m.setItems items = .ok n ↔ ItemsUnique items ∧ { m with items } = n := checked_ok

theorem setSelections_ok {selections : List Selection} :
    m.setSelections selections = .ok n ↔ SelectionsUnique selections ∧ { m with selections } = n := checked_ok

theorem setMembers_ok {members : List Member} :
    m.setMembers members = .ok n ↔ MembersUnique members ∧ { m with members } = n := checked_ok

theorem setAlerts_ok {alerts : List Alert} :
    m.setAlerts alerts = .ok n ↔ AlertsUnique alerts ∧ { m with alerts } = n := checked_ok

theorem setContexts_ok {contexts : List Context} :
    m.setContexts contexts = .ok n ↔ ContextsUnique contexts ∧ { m with contexts } = n := checked_ok

/-! ## Envelopes -/

theorem envelope?_some {id : String} {e : Envelope} (h : m.envelope? id = some e) :
    e ∈ m.envelopes ∧ e.mailId = id :=
  ⟨List.mem_of_find?_eq_some h, by simpa using List.find?_some h⟩

theorem envelope?_none {id : String} : m.envelope? id = none ↔ id ∉ m.envelopes.map (·.mailId) := by
  simp [Mail.envelope?, List.find?_eq_none]

theorem item?_some {k : ContentKey} {i : Item} (h : m.item? k = some i) : i ∈ m.items ∧ i.key = k :=
  ⟨List.mem_of_find?_eq_some h, by simpa using List.find?_some h⟩

theorem item?_none {k : ContentKey} : m.item? k = none ↔ k ∉ m.items.map (·.key) := by
  simp [Mail.item?, List.find?_eq_none]

/-- The new envelope of a key. -/
def newEnvelope (key : MailKey) (payloadJson : String) (observedAt : Instant)
    (notBefore expiresAt : Option Instant) : Envelope :=
  ⟨key.id, key.kind, key.sourceId, key.itemId, key.revision, payloadJson, observedAt, notBefore, expiresAt⟩

/-- The envelope is new, or the one of its name holds the same. -/
theorem appendEnvelope_ok {key : MailKey} {payload : String} {observed : Instant}
    {notBefore expiry : Option Instant} {inserted : Bool}
    (h : m.appendEnvelope key payload observed notBefore expiry = .ok (inserted, n)) :
    (inserted = true ∧ m.envelope? key.id = none ∧
      n = { m with envelopes := m.envelopes ++ [newEnvelope key payload observed notBefore expiry] }) ∨
    (inserted = false ∧ n = m ∧ ∃ row, m.envelope? key.id = some row ∧
      (row.payloadJson, row.observedAt, row.notBefore, row.expiresAt) =
        (payload, observed, notBefore, expiry)) := by
  rw [Mail.appendEnvelope] at h
  split at h
  · next row hrow =>
      obtain ⟨_, hsame, h⟩ := Except.bind_eq_ok.mp h
      cases h
      exact Or.inr ⟨rfl, rfl, row, hrow, ensure_eq_ok.mp hsame⟩
  · next hnone =>
      cases h
      exact Or.inl ⟨rfl, hnone, rfl⟩

/-! ## Transitions -/

/-- Only transitions were written, all of which meet `P`. -/
def Logged (P : Transition → Prop) (m n : Mail) : Prop :=
  ∃ ts : List Transition, (∀ t ∈ ts, P t) ∧ n = { m with transitions := m.transitions ++ ts }

variable {P : Transition → Prop}

theorem Logged.refl : Logged P m m := by
  refine ⟨[], by simp, ?_⟩
  simp

theorem Logged.trans {l : Mail} (h : Logged P m n) (h' : Logged P n l) : Logged P m l := by
  obtain ⟨ts, hts, rfl⟩ := h
  obtain ⟨us, hus, rfl⟩ := h'
  refine ⟨ts ++ us, fun t ht => (List.mem_append.mp ht).elim (hts t) (hus t), ?_⟩
  simp

theorem Logged.mono {Q : Transition → Prop} (h : Logged P m n) (hle : ∀ t, P t → Q t) :
    Logged Q m n := by
  obtain ⟨ts, hts, hn⟩ := h
  exact ⟨ts, fun t ht => hle t (hts t ht), hn⟩

/-- A transition that is there is ignored; one that is new is appended to its mail. -/
theorem appendTransition_ok {id : String} {kind : MailKind} {action : MailAction} {detail : Detail}
    (h : m.appendTransition id kind action detail = .ok n) :
    (n = m ∧ (id, action, detail) ∈ m.transitions.map Transition.id) ∨
    ((id, action, detail) ∉ m.transitions.map Transition.id ∧ id ∈ m.envelopes.map (·.mailId) ∧
      n = { m with transitions := m.transitions ++ [⟨id, kind, action, detail⟩] }) := by
  rw [Mail.appendTransition] at h
  split at h
  · next hold =>
      cases h
      exact Or.inl ⟨rfl, hold⟩
  · next hnew =>
      obtain ⟨_, henvelope, h⟩ := Except.bind_eq_ok.mp h
      cases h
      exact Or.inr ⟨hnew, ensure_eq_ok.mp henvelope, rfl⟩

theorem appendTransition_logged {id : String} {kind : MailKind} {action : MailAction}
    {detail : Detail} (h : m.appendTransition id kind action detail = .ok n)
    (hP : P ⟨id, kind, action, detail⟩) : Logged P m n := by
  obtain ⟨rfl, _⟩ | ⟨_, _, rfl⟩ := appendTransition_ok h
  · exact .refl
  · exact ⟨[⟨id, kind, action, detail⟩], by simpa using hP, rfl⟩

/-- A loop of appends, by induction on what it runs over. -/
theorem foldlM_logged {α : Type} {l : List α} {f : Mail → α → Except Error Mail}
    (hstep : ∀ x ∈ l, ∀ a b, f a x = .ok b → Logged P a b) (h : l.foldlM f m = .ok n) :
    Logged P m n := by
  induction l generalizing m with
  | nil =>
      cases h
      exact .refl
  | cons x rest ih =>
      rw [List.foldlM_cons] at h
      obtain ⟨a, ha, h⟩ := Except.bind_eq_ok.mp h
      exact (hstep x (List.mem_cons_self ..) m a ha).trans
        (ih (fun y hy => hstep y (List.mem_cons_of_mem _ hy)) h)

/-! ## Projections -/

/-- The projection of a mail, as the tables stand. -/
def IsProjection (m : Mail) (id : String) (t : Transition) : Prop :=
  ∃ e ∈ m.envelopes, e.mailId = id ∧ e.kind = .content ∧
    ∃ item, m.item? ⟨e.sourceId, e.itemId, e.revision⟩ = some item ∧
      t = ⟨id, .content, .projected, .projected item m.state (m.selectionsOf item.key)⟩

theorem appendContentProjection_ok {state : ContentState} {id : String}
    (h : m.appendContentProjection state id = .ok n) : ∃ e item,
    e ∈ m.envelopes ∧ e.mailId = id ∧ e.kind = .content ∧
      m.item? ⟨e.sourceId, e.itemId, e.revision⟩ = some item ∧
      m.appendTransition id .content .projected (.projected item state (m.selectionsOf item.key)) =
        .ok n := by
  rw [Mail.appendContentProjection] at h
  split at h
  · cases h
  · next e he =>
      have hmem := List.mem_of_find?_eq_some he
      have hcond : e.mailId = id ∧ e.kind = .content := by simpa using List.find?_some he
      split at h
      · cases h
      · next item hitem => exact ⟨e, item, hmem, hcond.1, hcond.2, hitem, h⟩

/-- The loop of the projections: each one that is appended is of a mail of the list,
and each mail of the list has its own. -/
theorem projections_loop {l : Mail} {ids : List String} (hl : Logged (fun _ => True) m l)
    (h : ids.foldlM (fun n id => n.appendContentProjection m.state id) l = .ok n) :
    Logged (fun t => ∃ id ∈ ids, IsProjection m id t) l n ∧
      ∀ id ∈ ids, ∃ t, IsProjection m id t ∧ t.id ∈ n.transitions.map Transition.id := by
  induction ids generalizing l with
  | nil =>
      cases h
      exact ⟨.refl, by simp⟩
  | cons id rest ih =>
      obtain ⟨ts, _, rfl⟩ := hl
      rw [List.foldlM_cons] at h
      obtain ⟨a, ha, h⟩ := Except.bind_eq_ok.mp h
      obtain ⟨e, item, he, hid, hkind, hitem, happend⟩ := appendContentProjection_ok ha
      have hproj : IsProjection m id
          ⟨id, .content, .projected, .projected item m.state (m.selectionsOf item.key)⟩ :=
        ⟨e, he, hid, hkind, item, hitem, rfl⟩
      have hlogged := appendTransition_logged (P := fun t => ∃ i ∈ id :: rest, IsProjection m i t)
        happend ⟨id, List.mem_cons_self .., hproj⟩
      have hl' : Logged (fun _ => True) m a :=
        Logged.trans ⟨ts, fun _ _ => trivial, rfl⟩ (hlogged.mono fun _ _ => trivial)
      obtain ⟨hrest, hall⟩ := ih hl' h
      refine ⟨hlogged.trans (hrest.mono ?_), ?_⟩
      · rintro t ⟨i, hi, ht⟩
        exact ⟨i, List.mem_cons_of_mem _ hi, ht⟩
      · intro i hi
        rcases List.mem_cons.mp hi with rfl | hi
        · refine ⟨_, hproj, ?_⟩
          obtain ⟨us, _, rfl⟩ := hrest
          rw [List.map_append]
          refine List.mem_append.mpr (Or.inl ?_)
          obtain ⟨rfl, hold⟩ | ⟨_, _, rfl⟩ := appendTransition_ok happend
          · exact hold
          · rw [List.map_append]
            exact List.mem_append_right _ (List.mem_singleton.mpr rfl)
        · exact hall i hi

theorem projections_ok {ids : List String} (h : m.appendContentProjections ids = .ok n) :
    Logged (fun t => ∃ id ∈ ids, IsProjection m id t) m n ∧
      ∀ id ∈ ids, ∃ t, IsProjection m id t ∧ t.id ∈ n.transitions.map Transition.id := by
  obtain ⟨hlogged, hall⟩ := projections_loop .refl h
  refine ⟨hlogged.mono ?_, fun id hid => hall id (List.mem_eraseDups.mpr hid)⟩
  rintro t ⟨id, hid, ht⟩
  exact ⟨id, List.mem_eraseDups.mp hid, ht⟩

/-! ## Calls -/

/-- A call commits what it returns, or leaves the mail as it is. -/
theorem mail_next {call : MailCall} (h : mailMachine.next m call = some n) :
    n = m ∨ call.run m = .ok n := by
  have hn : (call.run m).toOption.getD m = n := Option.some.inj h
  cases hrun : call.run m with
  | error e =>
      rw [hrun] at hn
      exact Or.inl hn.symm
  | ok l =>
      rw [hrun] at hn
      exact Or.inr (congrArg Except.ok hn)

/-- What a call commits is the second part of what its method returns. -/
theorem run_ok {α : Type} {x : Except Error (α × Mail)} (h : x.map (·.2) = .ok n) :
    ∃ r, x = .ok (r, n) := by
  obtain ⟨⟨r, l⟩, hx, rfl⟩ := Except.map_eq_ok.mp h
  exact ⟨r, hx⟩

/-- The call is one of the content calls. -/
def OfContent : MailCall → Prop
  | .submit .. | .selectBatch .. | .transition .. | .settleDelivery .. | .ack .. | .expire .. => True
  | _ => False

end MonoAgent.EventMail
