import MonoAgent.EventMail.Claims
import MonoAgent.EventMail.Named
import MonoAgent.Lib.Outcome

/-!
# A ready selection can be settled

A delivery settles each member of its message.  It fails only on a settlement that
some row has already, since a selection that is ready keeps its claims.
-/

namespace MonoAgent.EventMail

open MonoAgent.Lib MonoAgent.Session

variable {m n : Mail} {c : Prop} {sha256 : String → String}

/-- `sqlite3.IntegrityError`. -/
def Integrity (e : Error) : Prop := e.kind = .integrityError

/-- A write behind the check of a unique column. -/
theorem lands_unique {p : Prop} [Decidable p] {table : String} {x : Mail} (h : c → p) :
    Lands Integrity c (ensure p (uniqueError table) >>= fun _ => .ok x) fun n => p ∧ n = x := by
  have hcheck : Lands Integrity c (ensure p (uniqueError table)) fun _ => p := lands_ensure rfl h
  exact hcheck.bind fun _ _ hp => lands_ok ⟨hp, rfl⟩

theorem lands_setItems {items : List Item} (h : c → ItemsUnique items) :
    Lands Integrity c (m.setItems items) fun n => ItemsUnique items ∧ n = { m with items } :=
  lands_unique h

theorem lands_setMembers {members : List Member} (h : c → MembersUnique members) :
    Lands Integrity c (m.setMembers members) fun n => MembersUnique members ∧ n = { m with members } :=
  lands_unique h

theorem lands_setSelections {selections : List Selection} (h : c → SelectionsUnique selections) :
    Lands Integrity c (m.setSelections selections) fun n =>
      SelectionsUnique selections ∧ n = { m with selections } :=
  lands_unique h

/-- What is appended for a mail that is there is logged. -/
theorem lands_appendTransition {id : String} {kind : MailKind} {action : MailAction} {detail : Detail}
    (h : id ∈ m.envelopes.map (·.mailId)) :
    Lands Integrity c (m.appendTransition id kind action detail) fun n =>
      ∃ ts, n = { m with transitions := m.transitions ++ ts } := by
  rw [Mail.appendTransition]
  split
  · refine lands_ok ⟨[], ?_⟩
    rw [List.append_nil]
  · exact (lands_pass h).bind fun _ _ _ => lands_ok ⟨_, rfl⟩

/-! ## Projections -/

/-- The mail has an envelope, whose item is there. -/
def Projectable (m : Mail) (id : String) : Prop :=
  ∃ e ∈ m.envelopes, e.mailId = id ∧ e.kind = .content ∧
    (⟨e.sourceId, e.itemId, e.revision⟩ : ContentKey) ∈ m.items.map (·.key)

theorem Named.projectable (h : Named m) {k : ContentKey} (hk : k ∈ m.items.map (·.key)) :
    Projectable m k.mail.id := by
  obtain ⟨e, he, hid, hkind, hkey⟩ := h.ofItem hk
  exact ⟨e, he, hid, hkind, hkey ▸ hk⟩

/-- A mail that has an item is projected. -/
theorem lands_projection {state : ContentState} {id : String} (hids : (m.envelopes.map (·.mailId)).Nodup)
    (h : Projectable m id) : Lands Integrity c (m.appendContentProjection state id) fun n =>
      ∃ ts, n = { m with transitions := m.transitions ++ ts } := by
  obtain ⟨e, he, hid, hkind, hkey⟩ := h
  have hfind : m.envelopes.find? (fun e => e.mailId = id ∧ e.kind = .content) = some e := by
    cases hf : m.envelopes.find? fun e => e.mailId = id ∧ e.kind = .content with
    | none => exact absurd (List.find?_eq_none.mp hf e he) (by simp [hid, hkind])
    | some e' =>
        have hcond : e'.mailId = id ∧ e'.kind = .content := by simpa using List.find?_some hf
        rw [List.inj_on_of_nodup_map hids (List.mem_of_find?_eq_some hf) he (hcond.1.trans hid.symm)]
  rw [Mail.appendContentProjection, hfind]
  dsimp only
  split
  · next hnone => exact absurd hkey (item?_none.mp hnone)
  · exact lands_appendTransition (hid ▸ List.mem_map_of_mem he)

theorem lands_projections {ids : List String} (hids : (m.envelopes.map (·.mailId)).Nodup)
    (h : ∀ id ∈ ids, Projectable m id) :
    Lands Integrity c (m.appendContentProjections ids) fun _ => True := by
  have hloop (state : ContentState) (ids : List String) (l : Mail) (h : ∀ id ∈ ids, Projectable m id)
      (hl : l.envelopes = m.envelopes ∧ l.items = m.items) :
      Lands Integrity c (ids.foldlM (fun n id => n.appendContentProjection state id) l) fun _ => True := by
    induction ids generalizing l with
    | nil => exact lands_ok trivial
    | cons id rest ih =>
        rw [List.foldlM_cons]
        have hid : Projectable l id := by
          rw [Projectable, hl.1, hl.2]
          exact h id (List.mem_cons_self ..)
        refine (lands_projection (hl.1 ▸ hids) hid).bind ?_
        rintro _ _ ⟨ts, rfl⟩
        exact ih _ (fun id hid => h id (List.mem_cons_of_mem _ hid)) hl
  exact hloop _ _ m (fun id hid => h id (List.mem_eraseDups.mp hid)) ⟨rfl, rfl⟩

/-! ## The members of a message -/

/-- The texts that the members of a delivery are to get are different, and no row has one of
them. -/
def FreshRefs (m : Mail) (refs : List String) : Prop :=
  refs.Nodup ∧ ∀ ref ∈ refs, some ref ∉ m.items.map (·.settlementRef) ∧
    some ref ∉ m.members.map (·.settlementRef)

theorem mem_refs {α : Type} {f : α → Option String} {l : List α} {ref : String} :
    ref ∈ l.filterMap f ↔ some ref ∈ l.map f := by
  rw [List.mem_filterMap, List.mem_map]

/-- A write that keeps the names and gives no token and no turn. -/
theorem ItemsUnique.write {items : List Item} {f : Item → Item} (h : ItemsUnique items) (hf : KeepsRow f)
    (htoken : ∀ i, (f i).selectionToken = i.selectionToken ∨ (f i).selectionToken = none)
    (hturn : ∀ i, (f i).selectedTurn = i.selectedTurn ∨ (f i).selectedTurn = none)
    (href : ((items.map f).filterMap (·.settlementRef)).Nodup) : ItemsUnique (items.map f) := by
  obtain ⟨hkeys, hseqs, htokens, hturns, _⟩ := h
  refine ⟨?_, ?_, nodup_filterMap_clear htokens htoken, nodup_filterMap_clear hturns hturn, href⟩
  · rwa [hf.keys]
  · rwa [hf.seqs]

theorem itemsUnique_settle {items : List Item} {key : ContentKey} {status : ContentStatus}
    {ref : String} {now : Instant} (h : ItemsUnique items)
    (hnew : some ref ∉ items.map (·.settlementRef)) :
    ItemsUnique (items.map fun i => if i.key = key then i.settle status ref now else i) := by
  have hkeeps : KeepsRow (·.settle status ref now) := fun _ => ⟨rfl, rfl, rfl, rfl, rfl⟩
  have hsame : ∀ x y : Item, x.key = key → y.key = key → x.key = y.key := fun _ _ hx hy => hx.trans hy.symm
  refine h.write (keepsRow_ite hkeeps) (fun i => ?_) (fun i => ?_)
    (nodup_filterMap_write h.1 hsame (fun _ => rfl) h.2.2.2.2 (mem_refs.not.mpr hnew))
  · split <;> exact Or.inl rfl
  · split <;> exact Or.inl rfl

theorem membersUnique_settle {members : List Member} {token : String} {key : ContentKey}
    {ref : String} (h : MembersUnique members)
    (hnew : some ref ∉ members.map (·.settlementRef)) :
    MembersUnique (members.map fun r => if r.token = token ∧ r.key = key then r.settle ref else r) := by
  have hnames : (members.map fun r => if r.token = token ∧ r.key = key then r.settle ref else r).map
      (fun r => (r.token, r.key)) = members.map fun r => (r.token, r.key) := map_write fun _ => rfl
  refine ⟨hnames ▸ h.1, nodup_filterMap_write h.1 (fun r s hr hs => ?_) (fun _ => rfl) h.2
    (mem_refs.not.mpr hnew)⟩
  rw [hr.1, hr.2, hs.1, hs.2]

theorem selectionsUnique_settle {selections : List Selection} {token : String} {status : ContentStatus}
    {ref : String} {now : Instant} (h : SelectionsUnique selections)
    (hnew : some ref ∉ selections.map (·.settlementRef)) :
    SelectionsUnique (selections.map fun s => if s.token = token ∧ s.status = .readyForDelivery then
      { s with status, settlementRef := some ref, updatedAt := now } else s) := by
  have htokens : (selections.map fun s => if s.token = token ∧ s.status = .readyForDelivery then
      { s with status, settlementRef := some ref, updatedAt := now } else s).map (·.token) =
      selections.map (·.token) := map_write fun _ => rfl
  have hturns : (selections.map fun s => if s.token = token ∧ s.status = .readyForDelivery then
      { s with status, settlementRef := some ref, updatedAt := now } else s).map (·.acceptedTurn) =
      selections.map (·.acceptedTurn) := map_write fun _ => rfl
  exact ⟨htokens ▸ h.1, hturns ▸ h.2.1, nodup_filterMap_write h.1 (fun s t hs ht => hs.1.trans ht.1.symm)
    (fun _ => rfl) h.2.2 (mem_refs.not.mpr hnew)⟩

theorem itemsUnique_release {items : List Item} {p : Item → Prop} [DecidablePred p] {now : Instant}
    (h : ItemsUnique items) : ItemsUnique (items.map fun i => if p i then i.release now else i) := by
  refine h.write (keepsRow_ite (keepsRow_release now)) (fun i => ?_) (fun i => ?_)
    (nodup_filterMap_clear h.2.2.2.2 fun i => ?_)
  · split
    · exact Or.inr rfl
    · exact Or.inl rfl
  · split
    · exact Or.inr rfl
    · exact Or.inl rfl
  · split <;> exact Or.inl rfl

/-- A reference is new after the write of another one. -/
theorem refs_write {α : Type} {f : α → Option String} {g : α → α} {p : α → Prop}
    [DecidablePred p] {l : List α} {ref ref' : String} (hv : ∀ x, f (g x) = some ref)
    (hne : ref' ≠ ref) (h : some ref' ∉ l.map f) :
    some ref' ∉ (l.map fun x => if p x then g x else x).map f := by
  intro hmem
  rcases mem_filterMap_write hv (mem_refs.mpr hmem) with heq | hmem
  · exact hne heq
  · exact h (mem_refs.mp hmem)

/-- The loop over the members of a message, by induction on them: each is settled, as
long as its text is new. -/
theorem lands_settleEach {token settlement : String} {single : Bool} {now : Instant} {rows : List Item}
    (hnodup : (rows.map (·.key)).Nodup)
    (hlive : ∀ row ∈ rows, ∃ i ∈ m.items, i.key = row.key ∧ live i.status = true)
    (hmail : ∀ row ∈ rows, row.key.mail.id ∈ m.envelopes.map (·.mailId)) (hui : ItemsUnique m.items)
    (hum : MembersUnique m.members)
    (hfresh : c → FreshRefs m (rows.map fun row => memberRef sha256 settlement single row.key)) :
    Lands Integrity c (Mail.settleEach sha256 token settlement single now m rows) fun _ => True := by
  induction rows generalizing m with
  | nil => exact lands_ok trivial
  | cons row rest ih =>
      rw [List.map_cons, List.nodup_cons] at hnodup
      rw [Mail.settleEach]
      have hany : (m.items.any fun i => i.key = row.key && live i.status) = true := by
        obtain ⟨i, hi, hkey, hl⟩ := hlive row (List.mem_cons_self ..)
        exact List.any_eq_true.mpr ⟨i, hi, by simp [hkey, hl]⟩
      refine (lands_pass hany).bind fun _ _ _ => ?_
      refine (lands_setItems fun hc => ?_).bind ?_
      · exact itemsUnique_settle hui ((hfresh hc).2 _ (List.mem_cons_self ..)).1
      rintro _ _ ⟨hui, rfl⟩
      refine Lands.bind (lands_appendTransition ?_) ?_
      · exact hmail row (List.mem_cons_self ..)
      rintro _ _ ⟨ts, rfl⟩
      refine (lands_setMembers fun hc => ?_).bind ?_
      · exact membersUnique_settle hum ((hfresh hc).2 _ (List.mem_cons_self ..)).2
      rintro _ _ ⟨hum, rfl⟩
      refine ih hnodup.2 (fun r hr => ?_) (fun r hr => hmail r (List.mem_cons_of_mem _ hr)) hui hum
        fun hc => ?_
      · obtain ⟨i, hi, hkey, hl⟩ := hlive r (List.mem_cons_of_mem _ hr)
        refine ⟨i, List.mem_map.mpr ⟨i, hi, if_neg fun heq => ?_⟩, hkey, hl⟩
        exact hnodup.1 (heq.symm.trans hkey ▸ List.mem_map_of_mem hr)
      · obtain ⟨hdistinct, hnew⟩ := hfresh hc
        rw [List.map_cons, List.nodup_cons] at hdistinct
        refine ⟨hdistinct.2, fun ref href => ?_⟩
        have hne : ref ≠ memberRef sha256 settlement single row.key := by
          rintro rfl
          exact hdistinct.1 href
        obtain ⟨hi, hm⟩ := hnew ref (List.mem_cons_of_mem _ href)
        exact ⟨refs_write (f := Item.settlementRef) (fun _ => rfl) hne hi,
          refs_write (f := Member.settlementRef) (fun _ => rfl) hne hm⟩

/-! ## The delivery -/

/-- The texts that the members of a selection get when it is delivered. -/
def memberRefs (sha256 : String → String) (m : Mail) (token settlement : String) : List String :=
  let members := m.deliveryMemberRows token
  members.map fun row => memberRef sha256 settlement (members.length = 1) row.key

/-- No delivery has the settlement, and the texts of the members are new and different. -/
def Fresh (sha256 : String → String) (m : Mail) (token settlement : String) : Prop :=
  some settlement ∉ m.selections.map (·.settlementRef) ∧ FreshRefs m (memberRefs sha256 m token settlement)

instance (m : Mail) (refs : List String) : Decidable (FreshRefs m refs) :=
  inferInstanceAs (Decidable (_ ∧ ∀ _ ∈ _, _))

instance (m : Mail) (token settlement : String) : Decidable (Fresh sha256 m token settlement) :=
  inferInstanceAs (Decidable (_ ∧ _))

/-- What a settlement of a ready selection relies on. -/
structure Settleable (m : Mail) : Prop where
  named : Named m
  claims : ClaimsInv m
  members : ∀ r ∈ m.members, r.key ∈ m.items.map (·.key)
  tokens : ∀ s ∈ m.selections, identity "selection_token" s.token = .ok ()

/-- The rows of the members that are delivered, each once, and each live. -/
theorem Settleable.rows (h : Settleable m) {s : Selection} (hs : s ∈ m.selections)
    (hready : s.status = .readyForDelivery) : m.deliveryMemberRows s.token ≠ [] ∧
      ((m.deliveryMemberRows s.token).map (·.key)).Nodup ∧
      ∀ row ∈ m.deliveryMemberRows s.token, ∃ i ∈ m.items, i.key = row.key ∧ live i.status = true := by
  have hitem (r : Member) (hr : r ∈ m.members) : ∃ i, m.item? r.key = some i := by
    cases hfind : m.item? r.key with
    | none => exact absurd (h.members r hr) (item?_none.mp hfind)
    | some i => exact ⟨i, rfl⟩
  refine ⟨?_, ?_, fun row hrow => ?_⟩
  · obtain ⟨r, hr, ht, hchosen⟩ := h.claims.delivers s hs hready
    obtain ⟨i, hi⟩ := hitem r hr
    have hmem : i ∈ m.deliveryMemberRows s.token :=
      List.mem_filterMap.mpr ⟨r, List.mem_filter.mpr ⟨mem_membersOf.mpr ⟨hr, ht⟩, hchosen⟩, hi⟩
    exact List.ne_nil_of_mem hmem
  · -- The keys are those of the members, which are different in one selection.
    have hkeys (l : List Member) (hl : ∀ r ∈ l, r ∈ m.members) :
        (l.filterMap fun r => m.item? r.key).map (·.key) = l.map (·.key) := by
      induction l with
      | nil => rfl
      | cons r rest ih =>
          obtain ⟨i, hi⟩ := hitem r (hl r (List.mem_cons_self ..))
          rw [List.filterMap_cons_some (f := fun r : Member => m.item? r.key) hi, List.map_cons,
            List.map_cons, (item?_some hi).2,
            ih fun r hr => hl r (List.mem_cons_of_mem _ hr)]
    have hsub (r : Member) (hr : r ∈ (m.membersOf s.token).filter (·.selectedForDelivery)) :
        r ∈ m.members ∧ r.token = s.token := mem_membersOf.mp (List.mem_filter.mp hr).1
    rw [Mail.deliveryMemberRows, hkeys _ fun r hr => (hsub r hr).1]
    refine List.Nodup.sublist (List.filter_sublist.map _) ?_
    rw [Mail.membersOf]
    refine ((List.perm_insertionSort _ _).map _).nodup_iff.mpr ?_
    refine List.Nodup.map_on (fun r hr r' hr' hkey => ?_) ?_
    · have ht := (List.mem_filter.mp hr).2
      have ht' := (List.mem_filter.mp hr').2
      simp only [decide_eq_true_eq] at ht ht'
      exact List.inj_on_of_nodup_map h.claims.members.1 (List.mem_filter.mp hr).1 (List.mem_filter.mp hr').1
        (Prod.ext (ht.trans ht'.symm) hkey)
    · exact (List.Nodup.of_map _ h.claims.members.1).filter _
  · obtain ⟨_, r, hr, ht, hchosen, hkey⟩ := deliveryMemberRows_mem hrow
    obtain ⟨i, hi, hik, hl⟩ := h.claims.held s hs r hr (holds_iff.mpr ⟨ht.symm, Or.inr ⟨hready, hchosen⟩⟩)
    exact ⟨i, hi, hik.trans hkey, hl⟩

/-- What is left of a delivery when its members are settled. -/
theorem lands_release {chosen : Bool} {token : String} {now : Instant} (h : ItemsUnique m.items) :
    Lands Integrity c (m.releaseUnless chosen token now) fun n => ∃ items, n = { m with items } ∧
      items.map (·.key) = m.items.map (·.key) := by
  rw [Mail.releaseUnless]
  split
  · exact lands_ok ⟨m.items, rfl, rfl⟩
  · refine Lands.bind (lands_pass (itemsUnique_release h)) fun _ _ _ => lands_ok ⟨_, rfl, ?_⟩
    exact map_write fun _ => rfl

/-- A ready selection is settled, unless a text that it is to write is not new. -/
theorem Settleable.settles (h : Settleable m) {s : Selection} (hs : s ∈ m.selections)
    (hready : s.status = .readyForDelivery) {settlement : String} (now : Instant)
    (hsettlement : identity "settlement_ref" settlement = .ok ()) :
    Lands Integrity (Fresh sha256 m s.token settlement) (m.settleDelivery sha256 s.token settlement now) fun r =>
      ∃ status, r.1 = .settled false status ⟨s.token, settlement⟩ := by
  have hfind : m.selection? s.token = some s := by
    cases hf : m.selection? s.token with
    | none => exact absurd (List.find?_eq_none.mp hf s hs) (by simp)
    | some row =>
        obtain ⟨hrow, htoken⟩ := selection?_some hf
        rw [h.claims.selection_eq hrow hs htoken]
  obtain ⟨hne, hnodup, hlive⟩ := h.rows hs hready
  have hmail (row : Item) (hrow : row ∈ m.deliveryMemberRows s.token) :
      row.key.mail.id ∈ m.envelopes.map (·.mailId) := by
    obtain ⟨e, he, hid, _⟩ := h.named.ofItem (List.mem_map_of_mem (deliveryMemberRows_mem hrow).1)
    exact hid ▸ List.mem_map_of_mem he
  rw [Mail.settleDelivery, h.tokens s hs, hsettlement]
  refine Lands.bind (lands_ok (Q := fun _ => True) trivial) fun _ _ _ =>
    Lands.bind (lands_ok (Q := fun _ => True) trivial) fun _ _ _ => ?_
  rw [hfind]
  simp only [hready, reduceCtorEq, or_self, if_false, ne_eq, not_true_eq_false]
  refine (lands_pass hne).bind fun _ _ _ => ?_
  have hloop : Lands Integrity (Fresh sha256 m s.token settlement) (Mail.settleEach sha256 s.token settlement
      (decide ((m.deliveryMemberRows s.token).length = 1)) now m (m.deliveryMemberRows s.token)) fun _ => True :=
    lands_settleEach hnodup hlive hmail h.named.tables.items h.named.tables.members fun hfresh => hfresh.2
  refine hloop.bind fun a ha _ => ?_
  obtain ⟨f, g, marks, hf, _, hg, _, _, hui, hum, rfl⟩ :=
    settleEach_ok ha h.named.tables.items h.named.tables.members
  refine (lands_release hui).bind ?_
  rintro _ _ ⟨items, rfl, hkeys⟩
  refine (lands_setSelections fun hfresh => ?_).bind ?_
  · exact selectionsUnique_settle h.named.tables.selections hfresh.1
  rintro _ _ ⟨_, rfl⟩
  have hall : ∀ r ∈ m.members.map g, Projectable { m with items } r.key.mail.id := by
    intro _ hmem
    obtain ⟨r, hr, rfl⟩ := List.mem_map.mp hmem
    obtain ⟨e, he, hid, hkind, hkey⟩ := h.named.projectable (h.members r hr)
    refine ⟨e, he, (hg r).2.1 ▸ hid, hkind, ?_⟩
    rw [hkeys, hf.keys]
    exact hkey
  refine Lands.bind (lands_projections ?_ ?_) fun n _ _ => lands_ok ⟨_, rfl⟩
  · exact h.named.ids
  · intro id hid
    obtain ⟨r, hr, rfl⟩ := List.mem_map.mp hid
    exact hall r (mem_membersOf.mp hr).1

/-! ## Runs -/

/-- A new token has no white space at its ends. -/
theorem identity_token (hex : Hex) :
    identity "selection_token" ("content-selection:" ++ hex.text) = .ok () := by
  have hdigit : ∀ d : Fin 16, isSpace (Nat.digitChar d) = false := by decide
  refine ensure_eq_ok.mpr ⟨?_, strip_eq_self fun c hc => ?_⟩
  · rw [ne_eq, String.append_eq_empty_iff]
    exact fun h => absurd h.1 (by decide)
  · rw [String.toList_append, List.mem_append] at hc
    rcases hc with hc | hc
    · have hall : ("content-selection:".toList.all fun c => !isSpace c) = true := by decide
      simpa using List.all_eq_true.mp hall c hc
    · rw [Hex.text, String.toList_ofList] at hc
      obtain ⟨d, _, rfl⟩ := List.mem_map.mp hc
      exact hdigit d

theorem settleable_start : Settleable {} where
  named := named_start
  claims := claimsInv_start
  members := by simp
  tokens := by simp

/-- What a commit keeps of the members and of the selections. -/
theorem Settleable.commits (h : Settleable m) (hclaims : ClaimsInv n) {f : Item → Item}
    {selections : List Selection} {members : List Member} {keys : List ContentKey} (hf : KeepsRow f)
    (hc : Commits m (m.items.map f) selections members keys n)
    (hmembers : ∀ r ∈ members, r.key ∈ m.items.map (·.key))
    (htokens : ∀ s ∈ selections, identity "selection_token" s.token = .ok ()) : Settleable n := by
  obtain ⟨hi, hs, hm, _⟩ := hc.tables
  refine
    { named := h.named.commits hf hc (hi ▸ hclaims.items) (hs ▸ hclaims.selections) (hm ▸ hclaims.members)
      claims := hclaims
      members := ?_
      tokens := hs ▸ htokens }
  rw [hi, hf.keys, hm]
  exact hmembers

/-- A change of the selections that keeps their tokens. -/
theorem Settleable.tokens_map (h : Settleable m) {u : Selection → Selection}
    (hu : ∀ s, (u s).token = s.token) :
    ∀ s ∈ m.selections.map u, identity "selection_token" s.token = .ok () := by
  intro _ hs₀
  obtain ⟨s, hs, rfl⟩ := List.mem_map.mp hs₀
  rw [hu]
  exact h.tokens s hs

theorem Settleable.members_map (h : Settleable m) {g : Member → Member} (hg : ∀ r, (g r).key = r.key) :
    ∀ r ∈ m.members.map g, r.key ∈ m.items.map (·.key) := by
  intro _ hr₀
  obtain ⟨r, hr, rfl⟩ := List.mem_map.mp hr₀
  rw [hg]
  exact h.members r hr

theorem Moves.members {row : Selection} {action : SelectionAction} {now : Instant} {f : Item → Item}
    {members : List Member} (h : Moves m row action now f members) :
    ∃ g : Member → Member, members = m.members.map g ∧ ∀ r, (g r).key = r.key := by
  cases h with
  | chosen chosen =>
      refine ⟨_, rfl, fun r => ?_⟩
      split <;> rfl
  | released => exact ⟨id, by simp, fun _ => rfl⟩
  | failed => exact ⟨id, by simp, fun _ => rfl⟩
  | closed => exact ⟨id, by simp, fun _ => rfl⟩

theorem Settleable.next (h : Settleable m) {call : MailCall} (hok : Undisturbed m call)
    (hn : mailMachine.next m call = some n) : Settleable n := by
  have hclaims := h.claims.next hok hn
  have hitems := h.claims.items
  have hmembers := h.claims.members
  rcases mail_next hn with rfl | hrun
  · exact h
  cases call with
  | submit source batch items now =>
      obtain ⟨r, hrun⟩ := run_ok hrun
      obtain rfl | ⟨rows, marks, submission, state, l, hrows, hnodup, hnew, hmarks, hu, hseq, _, hl, hn⟩ :=
        submit_ok hitems hrun
      · exact h
      · have hnamed := h.named.submit hrows hnodup hnew hmarks hu hseq hl hn
        obtain ⟨⟨ts, _, rfl⟩, _⟩ := projections_ok hl
        subst hn
        refine ⟨hnamed, hclaims, fun r hr => ?_, h.tokens⟩
        rw [List.map_append]
        exact List.mem_append_left _ (h.members r hr)
  | selectBatch refs seq turn instant hex now =>
      obtain ⟨r, hrun⟩ := run_ok hrun
      obtain rfl | ⟨driver, rest, items, ⟨_, hall⟩, rfl, _, _, _, hc⟩ := selectBatch_ok hmembers hrun
      · exact h
      · refine h.commits hclaims (keepsRow_ite (keepsRow_claim _ _ _)) hc (fun r hr => ?_) fun s hs => ?_
        · rcases List.mem_append.mp hr with hr | hr
          · exact h.members r hr
          · obtain ⟨_, _, _, i, hi, hkey⟩ := mem_newMembers hr
            exact hkey ▸ List.mem_map_of_mem (hall i hi).1
        · rcases List.mem_append.mp hs with hs | hs
          · exact h.tokens s hs
          · rw [List.mem_singleton.mp hs]
            exact identity_token hex
  | transition token action notBefore refs now =>
      obtain ⟨r, hrun⟩ := run_ok hrun
      obtain rfl | ⟨row, f, members, _, _, hmoves, _, _, _, hc⟩ := transition_ok hmembers hrun
      · exact h
      · obtain ⟨g, rfl, hg⟩ := hmoves.members
        exact h.commits hclaims hmoves.keepsRow hc (h.members_map hg)
          (h.tokens_map fun s => by split <;> rfl)
  | expire refs now =>
      obtain ⟨r, hrun⟩ := run_ok hrun
      obtain rfl | ⟨expired, _, _, hc⟩ := expire_ok hitems hrun
      · exact h
      · exact h.commits hclaims (keepsRow_expire now expired) hc h.members h.tokens
  | settleDelivery sha256 token settlement now =>
      obtain ⟨r, hrun⟩ := run_ok hrun
      obtain rfl | ⟨row, f, g, status, keys, _, _, _, _, hf, _, hg, _, _, _, _, hc⟩ :=
        settleDelivery_ok hitems hmembers hrun
      · exact h
      · exact h.commits hclaims hf hc (h.members_map fun r => (hg r).2.1)
          (h.tokens_map fun s => by split <;> rfl)
  | ack source settlement now =>
      obtain ⟨r, hrun⟩ := run_ok hrun
      obtain rfl | ⟨row, f, _, _, hf, _, _, _, hc⟩ := ack_ok hitems hrun
      · exact h
      · exact h.commits hclaims hf hc h.members h.tokens
  | _ => exact hok.elim

theorem settleable_reach (h : mailMachine.Reach Undisturbed m) : Settleable m := by
  refine h.invariant (fun s hs => ?_) fun s call t hi hok hn => hi.next hok hn
  rw [show s = {} from hs]
  exact settleable_start

/-- The selection has chosen members, and each of them can still be settled. -/
def KeepsItems (m : Mail) (s : Selection) : Prop :=
  (∃ r ∈ m.members, r.token = s.token ∧ r.selectedForDelivery = true) ∧
    ∀ r ∈ m.members, r.token = s.token → r.selectedForDelivery = true →
      ∃ i ∈ m.items, i.key = r.key ∧ live i.status = true

instance (m : Mail) (s : Selection) : Decidable (KeepsItems m s) :=
  inferInstanceAs (Decidable ((∃ _ ∈ _, _) ∧ ∀ _ ∈ _, _))

/-- What is raised for a member that is not live. -/
def memberChanged : Error := ⟨.runtimeError, "Content delivery member state changed before settlement"⟩

/-- While no expiry takes what a selection claims, a ready selection keeps its items; it
can be settled with every settlement, unless a text that is to be written is in a row already. -/
theorem claimed_stays (h : mailMachine.Reach Undisturbed m) {s : Selection} (hs : s ∈ m.selections)
    (hready : s.status = .readyForDelivery) : KeepsItems m s ∧ ∀ sha256 settlement now,
      m.settleDelivery sha256 s.token settlement now ≠ .error memberChanged ∧
      (identity "settlement_ref" settlement = .ok () → Fresh sha256 m s.token settlement → ∃ status n,
        m.settleDelivery sha256 s.token settlement now = .ok (.settled false status ⟨s.token, settlement⟩, n)) := by
  have hinv := settleable_reach h
  refine ⟨⟨hinv.claims.delivers s hs hready, fun r hr ht hchosen => ?_⟩, fun sha256 settlement now => ⟨?_, ?_⟩⟩
  · exact hinv.claims.held s hs r hr (holds_iff.mpr ⟨ht.symm, Or.inr ⟨hready, hchosen⟩⟩)
  · by_cases hsettlement : identity "settlement_ref" settlement = .ok ()
    · exact (hinv.settles hs hready now hsettlement).ne_error nofun
    · intro herr
      rw [Mail.settleDelivery, hinv.tokens s hs] at herr
      cases hid : identity "settlement_ref" settlement with
      | ok _ => exact hsettlement hid
      | error e =>
          rw [hid] at herr
          rw [identity, ensure] at hid
          split at hid
          · cases hid
          · cases hid
            cases herr
  · intro hsettlement hfresh
    obtain ⟨⟨r, n⟩, hrun, status, hr⟩ := (hinv.settles hs hready now hsettlement).ok hfresh
    exact ⟨status, n, by rw [hrun, ← hr]⟩

/-- An item has one claim: two claims of one item are one row of one selection, and the item
is there once, and can still be settled. -/
theorem claimed_once (h : mailMachine.Reach Undisturbed m) {s s' : Selection} (hs : s ∈ m.selections)
    (hs' : s' ∈ m.selections) {r r' : Member} (hr : r ∈ m.members) (hr' : r' ∈ m.members)
    (hholds : holds s r = true) (hholds' : holds s' r' = true) (hkey : r.key = r'.key) :
    s = s' ∧ r = r' ∧ ∃ i ∈ m.items, live i.status = true ∧ ∀ j ∈ m.items, j.key = r.key ↔ j = i := by
  have hinv := claimsInv_reach h
  have htoken := hinv.exclusive s hs s' hs' r hr r' hr' hholds hholds' hkey
  have hrow : (r.token, r.key) = (r'.token, r'.key) := by
    rw [hkey, ← (holds_iff.mp hholds).1, ← (holds_iff.mp hholds').1, htoken]
  obtain ⟨i, hi, hik, hlive⟩ := hinv.held s hs r hr hholds
  refine ⟨List.inj_on_of_nodup_map hinv.selections.1 hs hs' htoken,
    List.inj_on_of_nodup_map hinv.members.1 hr hr' hrow, i, hi, hlive, fun j hj => ⟨fun hjk => ?_, ?_⟩⟩
  · exact List.inj_on_of_nodup_map hinv.items.1 hj hi (hjk.trans hik.symm)
  · rintro rfl
    exact hik

/-! ## Examples -/

def exampleTurn : AcceptedTurn := ⟨"s", "t"⟩

def exampleHex : Hex := List.replicate 32 0

def exampleRef (item : String) : ContentRef := ⟨⟨"feed", item, "1"⟩, 1⟩

/-- Two items are claimed by a turn, and are both to be delivered. -/
def exampleReady : List MailCall :=
  [.submit "feed" "1" [⟨"a", "1", "{}", "1", true⟩, ⟨"b", "1", "{}", "1", true⟩] "1",
   .selectBatch [exampleRef "a", exampleRef "b"] 2 exampleTurn "2" exampleHex "2",
   .transition ("content-selection:" ++ exampleHex.text) .readyForDelivery none
     (some [(exampleRef "a").key, (exampleRef "b").key]) "3"]

/-- The digests of the two items. -/
def exampleSha256 (text : String) : String :=
  if text = "feed\x00a\x001" then "4548ef1cb5773cc9f0d54f568661da099f7154ff7c9bb616be1972c6440429e8"
  else "d37efba2b1cfd3f98181b9d9ee0a58e6f323b08258c1bddfb89b31f45dfa19de"

theorem claimed_stays_example :
    let m := (mailMachine.run {} exampleReady).getD {}
    ∃ s ∈ m.selections, s.status = .readyForDelivery ∧ KeepsItems m s ∧
      memberRefs exampleSha256 m s.token "r" = ["r:4548ef1cb5773cc9", "r:d37efba2b1cfd3f9"] ∧ ∃ status n,
      m.settleDelivery exampleSha256 s.token "r" "4" = .ok (.settled false status ⟨s.token, "r"⟩, n) := by
  intro m
  have hreach : mailMachine.Reach Undisturbed m := by
    refine Machine.reach_getD rfl (fun call hcall s => ?_) (by decide)
    simp only [exampleReady, List.mem_cons, List.not_mem_nil, or_false] at hcall
    rcases hcall with rfl | rfl | rfl <;> trivial
  have hready : ∃ s ∈ m.selections, s.status = .readyForDelivery ∧
      memberRefs exampleSha256 m s.token "r" = ["r:4548ef1cb5773cc9", "r:d37efba2b1cfd3f9"] ∧
      Fresh exampleSha256 m s.token "r" := by
    decide
  obtain ⟨s, hs, hready, hrefs, hfresh⟩ := hready
  obtain ⟨hkeeps, hsettle⟩ := claimed_stays hreach hs hready
  have hidentity : identity "settlement_ref" "r" = .ok () := by decide
  exact ⟨s, hs, hready, hkeeps, hrefs, (hsettle exampleSha256 "r" "4").2 hidentity hfresh⟩

theorem claimed_once_example :
    let m := (mailMachine.run {} (exampleReady.take 2)).getD {}
    ∃ i ∈ m.items, live i.status = true ∧ ∀ j ∈ m.items, j.key = (exampleRef "b").key ↔ j = i := by
  intro m
  have hreach : mailMachine.Reach Undisturbed m := by
    refine Machine.reach_getD rfl (fun call hcall s => ?_) (by decide)
    simp only [exampleReady, List.take_succ_cons, List.take_zero, List.mem_cons, List.not_mem_nil,
      or_false] at hcall
    rcases hcall with rfl | rfl <;> trivial
  have hclaim : ∃ s ∈ m.selections, ∃ r ∈ m.members, holds s r = true ∧ r.key = (exampleRef "b").key := by
    decide
  obtain ⟨s, hs, r, hr, hholds, hkey⟩ := hclaim
  obtain ⟨_, _, hitem⟩ := claimed_once hreach hs hs hr hr hholds hholds rfl
  rwa [hkey] at hitem

/-- An expiry takes a member that waits, although its selection is to deliver it. -/
theorem expiredMember_lost :
    let m := (mailMachine.run {} (exampleReady ++ [.expire [exampleRef "b"] "4"])).getD {}
    mailMachine.Reach (fun _ call => OfContent call) m ∧ ∃ s ∈ m.selections,
      s.status = .readyForDelivery ∧ ¬ KeepsItems m s ∧
      m.settleDelivery exampleSha256 s.token "r" "5" = .error memberChanged := by
  intro m
  refine ⟨?_, by decide⟩
  refine Machine.reach_getD rfl (fun call hcall s => ?_) (by decide)
  simp only [exampleReady, List.mem_append, List.mem_cons, List.not_mem_nil, or_false] at hcall
  rcases hcall with (rfl | rfl | rfl) | rfl <;> trivial

end MonoAgent.EventMail
