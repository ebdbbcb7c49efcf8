import MonoAgent.EventMail.Ledger
import MonoAgent.Lib.Columns

/-!
# What a content call commits

A call leaves the mail as it is, or writes the content tables anew, logs what it did
to the mails of some keys, and projects these mails: `Commits`.  Each call has one
lemma that says which rows it writes.
-/

namespace MonoAgent.EventMail

open MonoAgent.Lib MonoAgent.Session

variable {m n : Mail}

/-- A change of rows that keeps what names and describes them. -/
def KeepsRow (f : Item → Item) : Prop :=
  ∀ i, (f i).key = i.key ∧ (f i).payloadJson = i.payloadJson ∧ (f i).snapshotSeq = i.snapshotSeq ∧
    (f i).requiresAck = i.requiresAck ∧ (f i).createdAt = i.createdAt

theorem keepsRow_ite {c : Item → Prop} [DecidablePred c] {g : Item → Item} (hg : KeepsRow g) :
    KeepsRow fun i => if c i then g i else i := by
  intro i
  by_cases h : c i
  · simpa [h] using hg i
  · simp [h]

theorem keepsRow_claim (token : String) (turn : AcceptedTurn) (now : Instant) :
    KeepsRow (·.claim token turn now) := fun _ => ⟨rfl, rfl, rfl, rfl, rfl⟩

theorem keepsRow_release (now : Instant) : KeepsRow (·.release now) :=
  fun _ => ⟨rfl, rfl, rfl, rfl, rfl⟩

theorem keepsRow_move (status : ContentStatus) (now : Instant) : KeepsRow (·.move status now) :=
  fun _ => ⟨rfl, rfl, rfl, rfl, rfl⟩

theorem keepsRow_id : KeepsRow fun i => i := fun _ => ⟨rfl, rfl, rfl, rfl, rfl⟩

theorem KeepsRow.comp {f g : Item → Item} (hf : KeepsRow f) (hg : KeepsRow g) :
    KeepsRow fun i => g (f i) := by
  intro i
  obtain ⟨h₁, h₂, h₃, h₄, h₅⟩ := hf i
  obtain ⟨k₁, k₂, k₃, k₄, k₅⟩ := hg (f i)
  exact ⟨k₁.trans h₁, k₂.trans h₂, k₃.trans h₃, k₄.trans h₄, k₅.trans h₅⟩

theorem KeepsRow.keys {f : Item → Item} (hf : KeepsRow f) (items : List Item) :
    (items.map f).map (·.key) = items.map (·.key) := by
  rw [List.map_map]
  exact List.map_congr_left fun i _ => (hf i).1

theorem KeepsRow.seqs {f : Item → Item} (hf : KeepsRow f) (items : List Item) :
    (items.map f).map (·.snapshotSeq) = items.map (·.snapshotSeq) := by
  rw [List.map_map]
  exact List.map_congr_left fun i _ => (hf i).2.2.1

/-- A change of rows that gives no token. -/
def KeepsToken (f : Item → Item) : Prop :=
  ∀ i t, (f i).selectionToken = some t → i.selectionToken = some t

theorem KeepsToken.comp {f g : Item → Item} (hf : KeepsToken f) (hg : KeepsToken g) :
    KeepsToken fun i => g (f i) := fun i t ht => hf i t (hg (f i) t ht)

theorem keepsToken_ite {c : Item → Prop} [DecidablePred c] {g : Item → Item} (hg : KeepsToken g) :
    KeepsToken fun i => if c i then g i else i := by
  intro i t ht
  dsimp only at ht
  split at ht
  · exact hg i t ht
  · exact ht

/-- A transition that says what was done to the mail of one of the keys. -/
def Marks (keys : List ContentKey) (t : Transition) : Prop :=
  t.kind = .content ∧ t.action ≠ .projected ∧ ∃ k ∈ keys, t.mailId = k.mail.id

/-- The content tables are written anew, logged and projected. -/
structure Commits (m : Mail) (items : List Item) (selections : List Selection) (members : List Member)
    (keys : List ContentKey) (n : Mail) : Prop where
  committed : ∃ marks state, (∀ t ∈ marks, Marks keys t) ∧ state.nextSeq = m.state.nextSeq ∧
    state.stateVersion = m.state.stateVersion + 1 ∧
    Mail.appendContentProjections
      { m with items, selections, members, state, transitions := m.transitions ++ marks }
      (keys.map (·.mail.id)) = .ok n

theorem Commits.of_projections {l : Mail} {items : List Item} {selections : List Selection}
    {members : List Member} {keys : List ContentKey} {ids : List String} {marks : List Transition}
    (h : l.appendContentProjections ids = .ok n) (hmarks : ∀ t ∈ marks, Marks keys t)
    (hids : ids = keys.map (·.mail.id)) (hseq : l.state.nextSeq = m.state.nextSeq)
    (hversion : l.state.stateVersion = m.state.stateVersion + 1)
    (hl : l = { m with items, selections, members, state := l.state,
                       transitions := m.transitions ++ marks }) :
    Commits m items selections members keys n := by
  refine ⟨marks, l.state, hmarks, hseq, hversion, ?_⟩
  rw [← hl, ← hids]
  exact h

/-- The tables after a commit. -/
theorem Commits.tables {items : List Item} {selections : List Selection} {members : List Member}
    {keys : List ContentKey} (h : Commits m items selections members keys n) :
    n.items = items ∧ n.selections = selections ∧ n.members = members ∧
      n.envelopes = m.envelopes ∧ n.alerts = m.alerts ∧ n.contexts = m.contexts ∧
      n.submissions = m.submissions ∧ n.state.nextSeq = m.state.nextSeq := by
  obtain ⟨marks, state, _, hseq, _, h⟩ := h.committed
  obtain ⟨⟨ts, _, rfl⟩, _⟩ := projections_ok h
  exact ⟨rfl, rfl, rfl, rfl, rfl, rfl, rfl, hseq⟩

/-! ## Selection -/

/-- The members of a new selection. -/
def newMembers (token : String) (position : Nat) : List Item → List Member
  | [] => []
  | row :: rest => { token, position, key := row.key } :: newMembers token (position + 1) rest

theorem mem_newMembers {token : String} {position : Nat} {rows : List Item} {r : Member}
    (h : r ∈ newMembers token position rows) : r.token = token ∧ r.selectedForDelivery = false ∧
      r.settlementRef = none ∧ ∃ row ∈ rows, r.key = row.key := by
  induction rows generalizing position with
  | nil => cases h
  | cons row rest ih =>
      rcases List.mem_cons.mp h with rfl | h
      · exact ⟨rfl, rfl, rfl, row, List.mem_cons_self .., rfl⟩
      · obtain ⟨ht, hs, hr, i, hi, hk⟩ := ih h
        exact ⟨ht, hs, hr, i, List.mem_cons_of_mem _ hi, hk⟩

/-- The loop over the candidates, by induction on them. -/
theorem claimMembers_ok {token : String} {turn : AcceptedTurn} {position : Nat} {rows : List Item}
    (h : Mail.claimMembers token turn m position rows = .ok n)
    (hunique : MembersUnique m.members) : ∃ marks, (∀ t ∈ marks, Marks (rows.map (·.key)) t) ∧
      MembersUnique (m.members ++ newMembers token position rows) ∧
      n = { m with members := m.members ++ newMembers token position rows
                   transitions := m.transitions ++ marks } := by
  induction rows generalizing m position with
  | nil =>
      cases h
      exact ⟨[], by simp, by simpa [newMembers] using hunique, by simp [newMembers]⟩
  | cons row rest ih =>
      obtain ⟨a, ha, h⟩ := Except.bind_eq_ok.mp h
      obtain ⟨b, hb, h⟩ := Except.bind_eq_ok.mp h
      obtain ⟨hua, rfl⟩ := setMembers_ok.mp ha
      obtain ⟨ts, hts, rfl⟩ := appendTransition_logged (P := Marks ((row :: rest).map (·.key))) hb
        ⟨rfl, nofun, row.key, List.mem_cons_self .., rfl⟩
      obtain ⟨us, hus, hun, rfl⟩ := ih h hua
      refine ⟨ts ++ us, fun t ht => ?_, ?_, ?_⟩
      · rcases List.mem_append.mp ht with ht | ht
        · exact hts t ht
        · obtain ⟨hk, hp, k, hmem, hid⟩ := hus t ht
          exact ⟨hk, hp, k, List.mem_cons_of_mem _ hmem, hid⟩
      · simpa [newMembers] using hun
      · simp [newMembers]

theorem candidate_some {ref : ContentRef} {seq : Nat} {instant : Instant} {i : Item}
    (h : m.candidate ref seq instant = some i) : i ∈ m.items ∧ i.key = ref.key ∧
      waiting i.status = true ∧ m.claimed i.key = false := by
  have hcond := List.find?_some h
  simp only [decide_eq_true_eq] at hcond
  exact ⟨List.mem_of_find?_eq_some h, hcond.1, hcond.2.2.2.1, hcond.2.2.2.2.2⟩

/-- The candidates are those of the references, in their order. -/
theorem mapM_candidate {refs : List ContentRef} {seq : Nat} {instant : Instant} {rows : List Item}
    (h : refs.mapM (fun ref => m.candidate ref seq instant) = some rows) :
    rows.map (·.key) = refs.map (·.key) ∧
      ∀ i ∈ rows, i ∈ m.items ∧ waiting i.status = true ∧ m.claimed i.key = false := by
  induction refs generalizing rows with
  | nil =>
      cases h
      exact ⟨rfl, by simp⟩
  | cons ref rest ih =>
      rw [List.mapM_cons] at h
      obtain ⟨i, hi, h⟩ := Option.bind_eq_some_iff.mp h
      obtain ⟨is, his, h⟩ := Option.bind_eq_some_iff.mp h
      cases h
      obtain ⟨hmem, hkey, hwait, hclaim⟩ := candidate_some hi
      obtain ⟨hkeys, hall⟩ := ih his
      refine ⟨by rw [List.map_cons, List.map_cons, hkey, hkeys], fun j hj => ?_⟩
      rcases List.mem_cons.mp hj with rfl | hj
      · exact ⟨hmem, hwait, hclaim⟩
      · exact hall j hj

/-- The selection of a turn. -/
def newSelection (token : String) (turn : AcceptedTurn) (seq : Nat) (driver : ContentKey)
    (now : Instant) : Selection :=
  { token, acceptedTurn := turn, snapshotSeq := seq, driver, createdAt := now, updatedAt := now }

theorem selectBatch_ok {refs : List ContentRef} {seq : Nat} {turn : AcceptedTurn} {instant : Instant}
    {hex : String} {now : Instant} {r : SelectResult} (hmembers : MembersUnique m.members)
    (h : m.selectBatch refs seq turn instant hex now = .ok (r, n)) :
    n = m ∨ ∃ driver rest items,
      (((driver :: rest).map (·.key)).Nodup ∧ ∀ i ∈ driver :: rest, i ∈ m.items ∧
        waiting i.status = true ∧ m.claimed i.key = false) ∧
      items = m.items.map (fun i => if i.key = driver.key then
        i.claim ("content-selection:" ++ hex) turn now else i) ∧
      ItemsUnique items ∧
      SelectionsUnique (m.selections ++ [newSelection ("content-selection:" ++ hex) turn seq driver.key now]) ∧
      MembersUnique (m.members ++ newMembers ("content-selection:" ++ hex) 1 (driver :: rest)) ∧
      Commits m items
        (m.selections ++ [newSelection ("content-selection:" ++ hex) turn seq driver.key now])
        (m.members ++ newMembers ("content-selection:" ++ hex) 1 (driver :: rest))
        ((driver :: rest).map (·.key)) n := by
  obtain ⟨_, _, h⟩ := Except.bind_eq_ok.mp h
  obtain ⟨_, _, h⟩ := Except.bind_eq_ok.mp h
  obtain ⟨_, hnodup, h⟩ := Except.bind_eq_ok.mp h
  obtain ⟨_, _, h⟩ := Except.bind_eq_ok.mp h
  split at h
  · cases h
    exact Or.inl rfl
  · split at h
    · cases h
      exact Or.inl rfl
    · cases h
      exact Or.inl rfl
    · next driver rest hrows =>
        obtain ⟨a, ha, h⟩ := Except.bind_eq_ok.mp h
        obtain ⟨b, hb, h⟩ := Except.bind_eq_ok.mp h
        obtain ⟨c, hc, h⟩ := Except.bind_eq_ok.mp h
        obtain ⟨d, hd, h⟩ := Except.bind_eq_ok.mp h
        cases h
        obtain ⟨hkeys, hall⟩ := mapM_candidate hrows
        have hnodup : ((driver :: rest).map (·.key)).Nodup := hkeys ▸ ensure_eq_ok.mp hnodup
        obtain ⟨hua, rfl⟩ := setItems_ok.mp ha
        obtain ⟨hub, rfl⟩ := setSelections_ok.mp hb
        obtain ⟨marks, hmarks, huc, rfl⟩ := claimMembers_ok hc hmembers
        exact Or.inr ⟨driver, rest, _, ⟨hnodup, hall⟩, rfl, hua, hub, huc,
          .of_projections hd hmarks (by rw [List.map_map]; rfl) rfl rfl rfl⟩

/-! ## Transitions -/

/-- What an action does to the items and the members of a selection. -/
inductive Moves (m : Mail) (row : Selection) (action : SelectionAction) (now : Instant) :
    (Item → Item) → List Member → Prop where
  /-- The members of the message are chosen, the driver among them or not. -/
  | chosen (chosen : List ContentKey) (f : Item → Item) (haction : action = .readyForDelivery)
      (hne : chosen ≠ [])
      (hsub : ∀ key ∈ chosen, (row.token, key) ∈ m.members.map fun r => (r.token, r.key))
      (hf : f = if row.driver ∈ chosen then
          fun i => if i.selectionToken = some row.token ∧ i.status = .selected then
            i.move .readyForDelivery now else i
        else fun i => if i.selectionToken = some row.token ∧
            (i.status = .selected ∨ i.status = .readyForDelivery) then i.release now else i) :
      Moves m row action now f (m.members.map fun r =>
        if r.token = row.token ∧ r.key ∈ chosen then { r with selectedForDelivery := true } else r)
  | released (haction : action = .release) :
      Moves m row action now (fun i => if i.selectionToken = some row.token ∧
        (i.status = .selected ∨ i.status = .readyForDelivery) then i.release now else i) m.members
  /-- The members of the message are closed. -/
  | failed (haction : action = .failed) (hready : row.status = .readyForDelivery) :
      Moves m row action now (fun i =>
        if i.key ∈ (m.deliveryMemberRows row.token).map (·.key) ∧ live i.status then
          i.move .failed now else i) m.members
  /-- The driver takes the status of the selection. -/
  | closed (notBefore : Option Instant) (hready : action ≠ .readyForDelivery)
      (hfailed : ¬ (action = .failed ∧ row.status = .readyForDelivery)) :
      Moves m row action now (fun i => if i.selectionToken = some row.token then
        { i.move action.status now with notBefore := notBefore.getD i.notBefore } else i) m.members

theorem selectDeliveryMembers_ok {token : String} {refs : Option (List ContentKey)}
    {driver : ContentKey} {chosen : List ContentKey}
    (h : m.selectDeliveryMembers token refs driver = .ok (chosen, n)) : chosen ≠ [] ∧
      (∀ key ∈ chosen, (token, key) ∈ m.members.map fun r => (r.token, r.key)) ∧
      MembersUnique n.members ∧
      n = { m with members := m.members.map fun r =>
        if r.token = token ∧ r.key ∈ chosen then { r with selectedForDelivery := true } else r } := by
  obtain ⟨_, _, h⟩ := Except.bind_eq_ok.mp h
  obtain ⟨_, hsize, h⟩ := Except.bind_eq_ok.mp h
  obtain ⟨_, hsub, h⟩ := Except.bind_eq_ok.mp h
  obtain ⟨a, ha, h⟩ := Except.bind_eq_ok.mp h
  cases h
  obtain ⟨hu, rfl⟩ := setMembers_ok.mp ha
  exact ⟨(ensure_eq_ok.mp hsize).1, ensure_eq_ok.mp hsub, hu, rfl⟩

theorem moveItems_ok {row : Selection} {action : SelectionAction} {notBefore : Option Instant}
    {refs : Option (List ContentKey)} {now : Instant} (hmembers : MembersUnique m.members)
    (h : m.moveItems row action notBefore refs now = .ok n) : ∃ f members,
      Moves m row action now f members ∧ ItemsUnique (m.items.map f) ∧ MembersUnique members ∧
      n = { m with items := m.items.map f, members } := by
  unfold Mail.moveItems at h
  split at h
  · obtain ⟨⟨chosen, a⟩, ha, h⟩ := Except.bind_eq_ok.mp h
    obtain ⟨hne, hsub, hu, rfl⟩ := selectDeliveryMembers_ok ha
    dsimp only at h
    split at h
    · next hdriver =>
        obtain ⟨hi, rfl⟩ := setItems_ok.mp h
        exact ⟨_, _, .chosen chosen _ rfl hne hsub (if_pos hdriver).symm, hi, hu, rfl⟩
    · next hdriver =>
        obtain ⟨hi, rfl⟩ := setItems_ok.mp h
        exact ⟨_, _, .chosen chosen _ rfl hne hsub (if_neg hdriver).symm, hi, hu, rfl⟩
  · obtain ⟨hi, rfl⟩ := setItems_ok.mp h
    exact ⟨_, _, .released rfl, hi, hmembers, rfl⟩
  · next hready _ =>
      rw [Mail.closeItems] at h
      split at h
      · next hfailed =>
          obtain ⟨_, _, h⟩ := Except.bind_eq_ok.mp h
          obtain ⟨hi, rfl⟩ := setItems_ok.mp h
          exact ⟨_, _, .failed hfailed.1 hfailed.2, hi, hmembers, rfl⟩
      · next hfailed =>
          obtain ⟨hi, rfl⟩ := setItems_ok.mp h
          exact ⟨_, _, .closed notBefore hready hfailed, hi, hmembers, rfl⟩

theorem Moves.keepsRow {row : Selection} {action : SelectionAction} {now : Instant} {f : Item → Item}
    {members : List Member} (h : Moves m row action now f members) : KeepsRow f := by
  cases h with
  | chosen chosen _ _ _ _ hf =>
      rw [hf]
      split
      · exact keepsRow_ite (keepsRow_move _ _)
      · exact keepsRow_ite (keepsRow_release _)
  | released _ => exact keepsRow_ite (keepsRow_release _)
  | failed _ _ => exact keepsRow_ite (keepsRow_move _ _)
  | closed notBefore _ _ => exact keepsRow_ite fun _ => ⟨rfl, rfl, rfl, rfl, rfl⟩

theorem SelectionAction.mail_ne (action : SelectionAction) : action.mail ≠ .projected := by
  cases action <;> exact nofun

theorem transition_ok {token : String} {action : SelectionAction} {notBefore : Option Instant}
    {refs : Option (List ContentKey)} {now : Instant} {r : TransitionResult}
    (hmembers : MembersUnique m.members)
    (h : m.transition token action notBefore refs now = .ok (r, n)) :
    n = m ∨ ∃ row f members, m.selection? token = some row ∧ action.allowed row.status = true ∧
      Moves m row action now f members ∧ ItemsUnique (m.items.map f) ∧ MembersUnique members ∧
      SelectionsUnique (m.selections.map fun s =>
        if s.token = token then { s with status := action.status, updatedAt := now } else s) ∧
      Commits m (m.items.map f)
        (m.selections.map fun s =>
          if s.token = token then { s with status := action.status, updatedAt := now } else s)
        members ((m.membersOf token).map (·.key)) n := by
  obtain ⟨_, _, h⟩ := Except.bind_eq_ok.mp h
  obtain ⟨_, _, h⟩ := Except.bind_eq_ok.mp h
  obtain ⟨_, _, h⟩ := Except.bind_eq_ok.mp h
  split at h
  · cases h
    exact Or.inl rfl
  · next row hrow =>
      split at h
      · next hallowed =>
          obtain ⟨a, ha, h⟩ := Except.bind_eq_ok.mp h
          obtain ⟨b, hb, h⟩ := Except.bind_eq_ok.mp h
          obtain ⟨c, hc, h⟩ := Except.bind_eq_ok.mp h
          obtain ⟨d, hd, h⟩ := Except.bind_eq_ok.mp h
          cases h
          obtain ⟨f, members, hmoves, hi, hu, rfl⟩ := moveItems_ok hmembers ha
          obtain ⟨hs, rfl⟩ := setSelections_ok.mp hb
          obtain ⟨marks, hmarks, rfl⟩ :=
            foldlM_logged (P := Marks ((m.membersOf token).map (·.key))) (fun x hx a b hab =>
              appendTransition_logged hab
                ⟨rfl, action.mail_ne, x.key, List.mem_map_of_mem hx, rfl⟩) hc
          exact Or.inr ⟨row, f, members, hrow, hallowed, hmoves, hi, hu, hs,
            .of_projections hd hmarks (by rw [List.map_map]; rfl) rfl rfl rfl⟩
      · cases h
        exact Or.inl rfl

/-! ## Expiry -/

/-- An item that one of the references names expires. -/
def expireRow (now : Instant) (refs : List ContentRef) (i : Item) : Item :=
  if refs.any fun ref => expirable ref i then i.move .expired now else i

theorem keepsRow_expire (now : Instant) (refs : List ContentRef) : KeepsRow (expireRow now refs) :=
  keepsRow_ite (keepsRow_move _ _)

theorem expireRow_nil (now : Instant) (items : List Item) : items.map (expireRow now []) = items := by
  have hid : expireRow now [] = id := by
    funext i
    simp [expireRow]
  rw [hid, List.map_id]

theorem expirable_expired (ref : ContentRef) (now : Instant) (i : Item) :
    expirable ref (i.move .expired now) = false := by
  simp [expirable, Item.move, waiting]

/-- The loop over the references, by induction on them. -/
theorem expireEach_ok {now : Instant} {refs expired stale : List ContentRef}
    (h : Mail.expireEach now m refs = .ok ((expired, stale), n)) (hitems : ItemsUnique m.items) :
    (∀ ref ∈ expired, ref ∈ refs ∧ ∃ i ∈ m.items, expirable ref i = true) ∧
      ItemsUnique (m.items.map (expireRow now expired)) ∧
      ∃ marks, (∀ t ∈ marks, Marks (expired.map (·.key)) t) ∧
        n = { m with items := m.items.map (expireRow now expired)
                     transitions := m.transitions ++ marks } := by
  induction refs generalizing m expired stale with
  | nil =>
      cases h
      rw [expireRow_nil]
      exact ⟨by simp, hitems, [], by simp, by simp⟩
  | cons ref rest ih =>
      rw [Mail.expireEach] at h
      split at h
      · next hany =>
          obtain ⟨a, ha, h⟩ := Except.bind_eq_ok.mp h
          obtain ⟨b, hb, h⟩ := Except.bind_eq_ok.mp h
          obtain ⟨⟨⟨es, ss⟩, c⟩, hc, h⟩ := Except.bind_eq_ok.mp h
          cases h
          obtain ⟨hua, rfl⟩ := setItems_ok.mp ha
          obtain ⟨ts, hts, rfl⟩ := appendTransition_logged (P := Marks ((ref :: es).map (·.key))) hb
            ⟨rfl, nofun, ref.key, List.mem_cons_self .., rfl⟩
          obtain ⟨hall, huc, us, hus, rfl⟩ := ih hc hua
          -- What expired by the first reference is not named by a later one.
          have hcomp : (m.items.map fun i => if expirable ref i then i.move .expired now else i).map
              (expireRow now es) = m.items.map (expireRow now (ref :: es)) := by
            rw [List.map_map]
            refine List.map_congr_left fun i _ => ?_
            by_cases hi : expirable ref i = true
            · simp [expireRow, hi, expirable_expired]
            · simp [expireRow, hi]
          have hback : ∀ r i, i ∈ (m.items.map fun i =>
              if expirable ref i then i.move .expired now else i) → expirable r i = true →
              ∃ j ∈ m.items, expirable r j = true := by
            intro r i hi hr
            obtain ⟨j, hj, rfl⟩ := List.mem_map.mp hi
            by_cases hcond : expirable ref j = true
            · rw [if_pos hcond, expirable_expired] at hr
              cases hr
            · rw [if_neg hcond] at hr
              exact ⟨j, hj, hr⟩
          refine ⟨fun r hr => ?_, hcomp ▸ huc, ts ++ us, fun t ht => ?_, ?_⟩
          · rcases List.mem_cons.mp hr with rfl | hr
            · exact ⟨List.mem_cons_self .., List.any_eq_true.mp hany⟩
            · obtain ⟨hmem, i, hi, hri⟩ := hall r hr
              exact ⟨List.mem_cons_of_mem _ hmem, hback r i hi hri⟩
          · rcases List.mem_append.mp ht with ht | ht
            · exact hts t ht
            · obtain ⟨hk, hp, k, hmem, hid⟩ := hus t ht
              exact ⟨hk, hp, k, List.mem_cons_of_mem _ hmem, hid⟩
          · rw [← hcomp]
            simp
      · obtain ⟨⟨⟨es, ss⟩, c⟩, hc, h⟩ := Except.bind_eq_ok.mp h
        cases h
        obtain ⟨hall, huc, us, hus, rfl⟩ := ih hc hitems
        exact ⟨fun r hr => ⟨List.mem_cons_of_mem _ (hall r hr).1, (hall r hr).2⟩, huc, us, hus, rfl⟩

theorem expire_ok {refs : List ContentRef} {now : Instant} {r : ExpireResult}
    (hitems : ItemsUnique m.items) (h : m.expire refs now = .ok (r, n)) :
    n = m ∨ ∃ expired : List ContentRef,
      (∀ ref ∈ expired, ref ∈ refs ∧ ∃ i ∈ m.items, expirable ref i = true) ∧
      ItemsUnique (m.items.map (expireRow now expired)) ∧
      Commits m (m.items.map (expireRow now expired)) m.selections m.members (expired.map (·.key)) n := by
  obtain ⟨_, _, h⟩ := Except.bind_eq_ok.mp h
  obtain ⟨_, _, h⟩ := Except.bind_eq_ok.mp h
  obtain ⟨_, _, h⟩ := Except.bind_eq_ok.mp h
  obtain ⟨⟨⟨expired, stale⟩, l⟩, hl, h⟩ := Except.bind_eq_ok.mp h
  obtain ⟨hall, hu, marks, hmarks, rfl⟩ := expireEach_ok hl hitems
  dsimp only at h
  split at h
  · next hnil =>
      subst hnil
      cases h
      have hmarks : marks = [] := by
        refine List.eq_nil_iff_forall_not_mem.mpr fun t ht => ?_
        obtain ⟨_, _, k, hk, _⟩ := hmarks t ht
        cases hk
      left
      rw [expireRow_nil, hmarks, List.append_nil]
  · obtain ⟨d, hd, h⟩ := Except.bind_eq_ok.mp h
    cases h
    exact Or.inr ⟨expired, hall, hu,
      .of_projections hd hmarks (by rw [List.map_map]; rfl) rfl rfl rfl⟩

/-! ## Delivery -/

/-- A change of the members of one selection that keeps whom they name. -/
def KeepsMember (token : String) (g : Member → Member) : Prop :=
  ∀ r, (g r).token = r.token ∧ (g r).key = r.key ∧ (g r).position = r.position ∧
    (g r).selectedForDelivery = r.selectedForDelivery ∧ (r.token ≠ token → g r = r)

theorem keepsMember_settle (token : String) (key : ContentKey) (ref : String) :
    KeepsMember token fun r => if r.token = token ∧ r.key = key then r.settle ref else r := by
  intro r
  dsimp only
  by_cases hcond : r.token = token ∧ r.key = key
  · rw [if_pos hcond]
    exact ⟨rfl, rfl, rfl, rfl, fun hne => absurd hcond.1 hne⟩
  · rw [if_neg hcond]
    exact ⟨rfl, rfl, rfl, rfl, fun _ => rfl⟩

theorem KeepsMember.comp {token : String} {g g' : Member → Member} (hg : KeepsMember token g)
    (hg' : KeepsMember token g') : KeepsMember token fun r => g' (g r) := by
  intro r
  obtain ⟨h₁, h₂, h₃, h₄, h₅⟩ := hg r
  obtain ⟨k₁, k₂, k₃, k₄, k₅⟩ := hg' (g r)
  refine ⟨k₁.trans h₁, k₂.trans h₂, k₃.trans h₃, k₄.trans h₄, fun hne => ?_⟩
  dsimp only
  rw [k₅ (h₁ ▸ hne), h₅ hne]

theorem Marks.mono {keys keys' : List ContentKey} {t : Transition} (h : Marks keys t)
    (hle : ∀ k ∈ keys, k ∈ keys') : Marks keys' t := by
  obtain ⟨hk, hp, k, hmem, hid⟩ := h
  exact ⟨hk, hp, k, hle k hmem, hid⟩

theorem mem_membersOf {token : String} {r : Member} :
    r ∈ m.membersOf token ↔ r ∈ m.members ∧ r.token = token := by
  rw [Mail.membersOf, (List.perm_insertionSort _ _).mem_iff, List.mem_filter, decide_eq_true_eq]

/-- The loop over the members, by induction on them. -/
theorem settleEach_ok {sha256 : String → String} {token settlement : String} {single : Bool}
    {now : Instant} {rows : List Item}
    (h : Mail.settleEach sha256 token settlement single now m rows = .ok n) (hitems : ItemsUnique m.items)
    (hmembers : MembersUnique m.members) : ∃ f g marks, KeepsRow f ∧ KeepsToken f ∧ KeepsMember token g ∧
      (∀ i, i.key ∉ rows.map (·.key) → f i = i) ∧ (∀ t ∈ marks, Marks (rows.map (·.key)) t) ∧
      ItemsUnique (m.items.map f) ∧ MembersUnique (m.members.map g) ∧
      n = { m with items := m.items.map f, members := m.members.map g
                   transitions := m.transitions ++ marks } := by
  induction rows generalizing m with
  | nil =>
      cases h
      refine ⟨fun i => i, fun r => r, [], keepsRow_id, fun _ _ ht => ht, fun r => ⟨rfl, rfl, rfl, rfl, fun _ => rfl⟩,
        fun _ _ => rfl, by simp, by simpa using hitems, by simpa using hmembers, by simp⟩
  | cons row rest ih =>
      obtain ⟨_, _, h⟩ := Except.bind_eq_ok.mp h
      obtain ⟨a, ha, h⟩ := Except.bind_eq_ok.mp h
      obtain ⟨b, hb, h⟩ := Except.bind_eq_ok.mp h
      obtain ⟨c, hc, h⟩ := Except.bind_eq_ok.mp h
      obtain ⟨hua, rfl⟩ := setItems_ok.mp ha
      obtain ⟨ts, hts, rfl⟩ := appendTransition_logged (P := Marks ((row :: rest).map (·.key))) hb
        ⟨rfl, by dsimp only; split <;> exact nofun, row.key, List.mem_cons_self .., rfl⟩
      obtain ⟨huc, rfl⟩ := setMembers_ok.mp hc
      obtain ⟨f, g, us, hf, hft, hg, hfix, hus, hui, hum, rfl⟩ := ih h hua huc
      have hsettle : KeepsRow (·.settle (deliveredStatus row.requiresAck)
          (memberRef sha256 settlement single row.key) now) := fun _ => ⟨rfl, rfl, rfl, rfl, rfl⟩
      refine ⟨_, fun r => g (if r.token = token ∧ r.key = row.key then
          r.settle (memberRef sha256 settlement single row.key) else r), ts ++ us,
        (keepsRow_ite (c := fun i => i.key = row.key) hsettle).comp hf,
        KeepsToken.comp (keepsToken_ite (c := fun i => i.key = row.key)
          (g := (·.settle (deliveredStatus row.requiresAck) (memberRef sha256 settlement single row.key) now))
          fun _ _ ht => ht) hft,
        (keepsMember_settle token row.key _).comp hg, fun i hi => ?_, fun t ht => ?_, ?_, ?_, ?_⟩
      · rw [List.map_cons, List.mem_cons, not_or] at hi
        rw [if_neg hi.1]
        exact hfix i hi.2
      · rcases List.mem_append.mp ht with ht | ht
        · exact hts t ht
        · obtain ⟨hk, hp, k, hmem, hid⟩ := hus t ht
          exact ⟨hk, hp, k, List.mem_cons_of_mem _ hmem, hid⟩
      · rw [List.map_map] at hui
        exact hui
      · rw [List.map_map] at hum
        exact hum
      · simp only [List.map_map, List.append_assoc]
        rfl

theorem deliveryMemberRows_mem {token : String} {i : Item} (h : i ∈ m.deliveryMemberRows token) :
    i ∈ m.items ∧ ∃ r ∈ m.members, r.token = token ∧ r.selectedForDelivery = true ∧ r.key = i.key := by
  obtain ⟨r, hr, hi⟩ := List.mem_filterMap.mp h
  obtain ⟨hmem, hkey⟩ := item?_some hi
  obtain ⟨hr, hchosen⟩ := List.mem_filter.mp hr
  obtain ⟨hr, htoken⟩ := mem_membersOf.mp hr
  exact ⟨hmem, r, hr, htoken, by simpa using hchosen, hkey.symm⟩

theorem releaseUnless_ok {chosen : Bool} {token : String} {now : Instant}
    (h : m.releaseUnless chosen token now = .ok n) (hitems : ItemsUnique m.items) : ∃ f,
      KeepsRow f ∧ KeepsToken f ∧ (∀ i, ¬ (chosen = false ∧ i.selectionToken = some token ∧
        (i.status = .selected ∨ i.status = .readyForDelivery)) → f i = i) ∧
      ItemsUnique (m.items.map f) ∧ n = { m with items := m.items.map f } := by
  rw [Mail.releaseUnless] at h
  split at h
  · cases h
    refine ⟨fun i => i, keepsRow_id, ?_, ?_, ?_, ?_⟩
    · exact fun _ _ ht => ht
    · exact fun _ _ => rfl
    · simpa using hitems
    · simp
  · next hchosen =>
      obtain ⟨hu, rfl⟩ := setItems_ok.mp h
      have hrelease : KeepsToken (·.release now) := fun i t ht => by cases ht
      refine ⟨_, keepsRow_ite (keepsRow_release now), ?_, ?_, hu, rfl⟩
      · exact keepsToken_ite hrelease
      · exact fun i hno => if_neg fun hcond => hno ⟨by simpa using hchosen, hcond⟩

/-- What is written when a delivery settles a selection. -/
theorem settleDelivery_ok {sha256 : String → String} {token settlement : String} {now : Instant}
    {r : SettleResult} (hitems : ItemsUnique m.items) (hmembers : MembersUnique m.members)
    (h : m.settleDelivery sha256 token settlement now = .ok (r, n)) :
    n = m ∨ ∃ row f g status, ∃ keys : List ContentKey,
      (∀ k, k ∈ keys ↔ ∃ r ∈ m.members, r.token = token ∧ r.key = k) ∧
      m.selection? token = some row ∧ row.status = .readyForDelivery ∧
      (status = .delivered ∨ status = .settled) ∧ KeepsRow f ∧ KeepsToken f ∧ KeepsMember token g ∧
      (∀ i, i.key ∉ (m.deliveryMemberRows token).map (·.key) →
        ¬ (row.driver ∉ (m.deliveryMemberRows token).map (·.key) ∧ i.selectionToken = some token ∧
          (i.status = .selected ∨ i.status = .readyForDelivery)) → f i = i) ∧
      ItemsUnique (m.items.map f) ∧ MembersUnique (m.members.map g) ∧
      SelectionsUnique (m.selections.map fun s => if s.token = token ∧ s.status = .readyForDelivery then
        { s with status, settlementRef := some settlement, updatedAt := now } else s) ∧
      Commits m (m.items.map f)
        (m.selections.map fun s => if s.token = token ∧ s.status = .readyForDelivery then
          { s with status, settlementRef := some settlement, updatedAt := now } else s)
        (m.members.map g) keys n := by
  obtain ⟨_, _, h⟩ := Except.bind_eq_ok.mp h
  obtain ⟨_, _, h⟩ := Except.bind_eq_ok.mp h
  split at h
  · cases h
    exact Or.inl rfl
  · next row hrow =>
      split at h
      · obtain ⟨_, _, h⟩ := Except.bind_eq_ok.mp h
        cases h
        exact Or.inl rfl
      · split at h
        · cases h
          exact Or.inl rfl
        · next hready =>
            obtain ⟨_, _, h⟩ := Except.bind_eq_ok.mp h
            obtain ⟨a, ha, h⟩ := Except.bind_eq_ok.mp h
            obtain ⟨b, hb, h⟩ := Except.bind_eq_ok.mp h
            obtain ⟨c, hc, h⟩ := Except.bind_eq_ok.mp h
            obtain ⟨d, hd, h⟩ := Except.bind_eq_ok.mp h
            cases h
            obtain ⟨f, g, marks, hf, hft, hg, hfix, hmarks, hui, hum, rfl⟩ :=
              settleEach_ok ha hitems hmembers
            obtain ⟨f', hf', hft', hfix', hui', rfl⟩ := releaseUnless_ok hb hui
            obtain ⟨hs, rfl⟩ := setSelections_ok.mp hc
            have hmap : (m.items.map f).map f' = m.items.map fun i => f' (f i) := List.map_map
            rw [hmap] at hui' hd
            have hkeys (k : ContentKey) : k ∈ (Mail.membersOf { m with members := m.members.map g }
                token).map (·.key) ↔ ∃ r ∈ m.members, r.token = token ∧ r.key = k := by
              constructor
              · intro hk
                obtain ⟨_, hr, rfl⟩ := List.mem_map.mp hk
                obtain ⟨hr, htoken⟩ := mem_membersOf.mp hr
                obtain ⟨r, hmem, rfl⟩ := List.mem_map.mp hr
                exact ⟨r, hmem, (hg r).1 ▸ htoken, (hg r).2.1.symm⟩
              · rintro ⟨r, hr, htoken, rfl⟩
                have hmem : g r ∈ Mail.membersOf { m with members := m.members.map g } token :=
                  mem_membersOf.mpr ⟨List.mem_map_of_mem hr, (hg r).1.trans htoken⟩
                exact List.mem_map.mpr ⟨g r, hmem, (hg r).2.1⟩
            refine Or.inr ⟨row, fun i => f' (f i), g, _, _, hkeys, hrow, by simpa using hready,
              ?_, hf.comp hf', hft.comp hft', hg, fun i hi hno => ?_, hui', hum, hs,
              .of_projections hd (fun t ht => (hmarks t ht).mono fun k hk => ?_)
                (by rw [List.map_map]; rfl) rfl rfl rfl⟩
            · split
              · exact Or.inl rfl
              · exact Or.inr rfl
            · dsimp only
              rw [hfix i hi]
              exact hfix' i (by simpa using hno)
            · obtain ⟨i, hi, rfl⟩ := List.mem_map.mp hk
              obtain ⟨_, r, hr, htoken, _, hkey⟩ := deliveryMemberRows_mem hi
              exact (hkeys i.key).mpr ⟨r, hr, htoken, hkey⟩

/-! ## Acknowledgement -/

theorem ack_ok {source : String} {settlement : String} {now : Instant} {r : AckResult}
    (hitems : ItemsUnique m.items) (h : m.ack source settlement now = .ok (r, n)) :
    n = m ∨ ∃ row f, row ∈ m.items ∧ row.status = .delivered ∧ KeepsRow f ∧
      (∀ i, (f i).selectionToken = i.selectionToken) ∧ (∀ i ∈ m.items, i ≠ row → f i = i) ∧ ItemsUnique (m.items.map f) ∧
      Commits m (m.items.map f) m.selections m.members [row.key] n := by
  obtain ⟨_, _, h⟩ := Except.bind_eq_ok.mp h
  obtain ⟨_, _, h⟩ := Except.bind_eq_ok.mp h
  split at h
  · cases h
    exact Or.inl rfl
  · next row hrow =>
      have hmem := List.mem_of_find?_eq_some hrow
      have hcond : row.key.sourceId = source ∧ row.settlementRef = some settlement := by
        simpa using List.find?_some hrow
      split at h
      · cases h
        exact Or.inl rfl
      · split at h
        · cases h
          exact Or.inl rfl
        · next hdelivered =>
            obtain ⟨a, ha, h⟩ := Except.bind_eq_ok.mp h
            obtain ⟨b, hb, h⟩ := Except.bind_eq_ok.mp h
            obtain ⟨d, hd, h⟩ := Except.bind_eq_ok.mp h
            cases h
            obtain ⟨hu, rfl⟩ := setItems_ok.mp ha
            obtain ⟨marks, hmarks, rfl⟩ := appendTransition_logged (P := Marks [row.key]) hb
              ⟨rfl, nofun, row.key, List.mem_cons_self .., rfl⟩
            refine Or.inr ⟨row, _, hmem, by simpa using hdelivered,
              keepsRow_ite (keepsRow_move _ _), fun i => by split <;> rfl,
              fun i hi hne => if_neg ?_, hu,
              .of_projections hd hmarks rfl rfl rfl rfl⟩
            -- A settlement is of one item.
            rintro ⟨_, hsame, _⟩
            exact hne (eq_of_filterMap_nodup hitems.2.2.2.2 hi hmem hsame hcond.2)

/-! ## Submission -/

/-- A row that was just inserted. -/
def FreshRow (source : String) (now : Instant) (i : Item) : Prop :=
  i.key.sourceId = source ∧ i.status = .pending ∧ i.stateVersion = 1 ∧ i.selectionToken = none ∧
    i.selectedTurn = none ∧ i.settlementRef = none ∧ i.createdAt = now

/-- The envelope of an item. -/
def itemEnvelope (i : Item) : Envelope :=
  newEnvelope i.key.mail i.payloadJson i.createdAt (some i.notBefore) none

theorem insertItem_ok {key : ContentKey} {item : NormalizedItem} {seq : Nat} {now : Instant}
    (h : m.insertItem key item seq now = .ok n) : ∃ row marks,
      row.key = key ∧ row.snapshotSeq = seq ∧ FreshRow key.sourceId now row ∧
      key.mail.id ∉ m.envelopes.map (·.mailId) ∧ (∀ t ∈ marks, Marks [key] t) ∧
      ItemsUnique (m.items ++ [row]) ∧
      n = { m with items := m.items ++ [row], envelopes := m.envelopes ++ [itemEnvelope row]
                   transitions := m.transitions ++ marks } := by
  obtain ⟨a, ha, h⟩ := Except.bind_eq_ok.mp h
  obtain ⟨⟨inserted, b⟩, hb, h⟩ := Except.bind_eq_ok.mp h
  obtain ⟨_, hinserted, h⟩ := Except.bind_eq_ok.mp h
  obtain ⟨hu, rfl⟩ := setItems_ok.mp ha
  obtain ⟨_, hnone, rfl⟩ | ⟨rfl, _⟩ := appendEnvelope_ok hb
  · obtain ⟨marks, hmarks, rfl⟩ := appendTransition_logged (P := Marks [key]) h
      ⟨rfl, nofun, key, List.mem_cons_self .., rfl⟩
    exact ⟨_, marks, rfl, rfl, ⟨rfl, rfl, rfl, rfl, rfl, rfl, rfl⟩, envelope?_none.mp hnone, hmarks,
      hu, rfl⟩
  · cases ensure_eq_ok.mp hinserted

/-- The loop over the items of a batch, by induction on them. -/
theorem appendEach_ok {source : String} {now : Instant} {seq : Nat} {items : List NormalizedItem}
    {inserted duplicates : List ContentKey}
    (h : Mail.appendEach source now m seq items = .ok ((inserted, duplicates), n))
    (hitems : ItemsUnique m.items) : ∃ rows marks, rows.map (·.key) = inserted ∧
      (∀ i ∈ rows, FreshRow source now i ∧ seq < i.snapshotSeq ∧ i.snapshotSeq ≤ seq + rows.length) ∧
      (rows.map (·.key.mail.id)).Nodup ∧
      (∀ i ∈ rows, i.key.mail.id ∉ m.envelopes.map (·.mailId)) ∧ (∀ t ∈ marks, Marks inserted t) ∧
      ItemsUnique (m.items ++ rows) ∧
      n = { m with items := m.items ++ rows, envelopes := m.envelopes ++ rows.map itemEnvelope
                   transitions := m.transitions ++ marks } := by
  induction items generalizing m seq inserted duplicates with
  | nil =>
      cases h
      exact ⟨[], [], rfl, by simp, List.nodup_nil, by simp, by simp, by simpa using hitems, by simp⟩
  | cons item rest ih =>
      rw [Mail.appendEach] at h
      dsimp only at h
      split at h
      · obtain ⟨_, _, h⟩ := Except.bind_eq_ok.mp h
        obtain ⟨⟨⟨ins, dups⟩, a⟩, ha, h⟩ := Except.bind_eq_ok.mp h
        cases h
        exact ih ha hitems
      · obtain ⟨a, ha, h⟩ := Except.bind_eq_ok.mp h
        obtain ⟨⟨⟨ins, dups⟩, b⟩, hb, h⟩ := Except.bind_eq_ok.mp h
        cases h
        obtain ⟨row, ts, hkey, hseq, hfresh, hnew, hts, hu, rfl⟩ := insertItem_ok ha
        obtain ⟨rows, us, hkeys, hrows, hnodup, hout, hus, hub, rfl⟩ := ih hb hu
        refine ⟨row :: rows, ts ++ us, ?_, fun i hi => ?_, ?_, fun i hi => ?_, fun t ht => ?_, ?_, ?_⟩
        · rw [List.map_cons, hkey, hkeys]
        · rw [List.length_cons]
          rcases List.mem_cons.mp hi with rfl | hi
          · exact ⟨hfresh, by omega, by omega⟩
          · obtain ⟨hf, hlt, hle⟩ := hrows i hi
            exact ⟨hf, by omega, by omega⟩
        · refine List.nodup_cons.mpr ⟨fun hmem => ?_, hnodup⟩
          obtain ⟨i, hi, heq⟩ := List.mem_map.mp hmem
          refine hout i hi ?_
          rw [List.map_append, heq]
          exact List.mem_append_right _ (List.mem_singleton.mpr rfl)
        · rcases List.mem_cons.mp hi with rfl | hi
          · rw [hkey]
            exact hnew
          · intro hmem
            refine hout i hi ?_
            rw [List.map_append]
            exact List.mem_append_left _ hmem
        · rcases List.mem_append.mp ht with ht | ht
          · exact (hts t ht).mono (by simp)
          · exact (hus t ht).mono fun k hk => List.mem_cons_of_mem _ hk
        · simpa using hub
        · simp

/-- What `_append_items` writes. -/
theorem appendItems_ok {source : String} {items : List NormalizedItem} {now : Instant}
    {inserted duplicates : List ContentKey}
    (h : m.appendItems source items now = .ok ((inserted, duplicates), n))
    (hitems : ItemsUnique m.items) : ∃ rows marks state, rows.map (·.key) = inserted ∧
      (∀ i ∈ rows, FreshRow source now i ∧ m.state.nextSeq < i.snapshotSeq ∧
        i.snapshotSeq ≤ m.state.nextSeq + rows.length) ∧
      (rows.map (·.key.mail.id)).Nodup ∧
      (∀ i ∈ rows, i.key.mail.id ∉ m.envelopes.map (·.mailId)) ∧ (∀ t ∈ marks, Marks inserted t) ∧
      ItemsUnique (m.items ++ rows) ∧ state.nextSeq = m.state.nextSeq + rows.length ∧
      state.stateVersion = m.state.stateVersion + (if rows = [] then 0 else 1) ∧
      n = { m with items := m.items ++ rows, envelopes := m.envelopes ++ rows.map itemEnvelope, state
                   transitions := m.transitions ++ marks } := by
  obtain ⟨⟨⟨ins, dups⟩, a⟩, ha, h⟩ := Except.bind_eq_ok.mp h
  obtain ⟨rows, marks, hkeys, hrows, hnodup, hnew, hmarks, hu, rfl⟩ := appendEach_ok ha hitems
  dsimp only at h
  split at h
  · next hnil =>
      cases h
      have hrows' : rows = [] := List.map_eq_nil_iff.mp (hkeys.trans hnil)
      refine ⟨rows, marks, m.state, hkeys, hrows, hnodup, hnew, hmarks, hu, ?_, ?_, rfl⟩
      · simp [hrows']
      · simp [hrows']
  · next hne =>
      cases h
      have hrows' : rows ≠ [] := fun hnil => hne (hkeys ▸ List.map_eq_nil_iff.mpr hnil)
      have hlen : inserted.length = rows.length := by rw [← hkeys, List.length_map]
      refine ⟨rows, marks, _, hkeys, hrows, hnodup, hnew, hmarks, hu, ?_, ?_, rfl⟩
      · rw [hlen]
      · rw [if_neg hrows']

/-- A submission adds its new rows, each with its envelope, and its receipt. -/
theorem submit_ok {source batch : String} {items : List NormalizedItem} {now : Instant}
    {r : SubmissionReceipt} (hitems : ItemsUnique m.items)
    (h : m.submit source batch items now = .ok (r, n)) : n = m ∨ ∃ rows marks submission state l,
      (∀ i ∈ rows, FreshRow source now i ∧ m.state.nextSeq < i.snapshotSeq ∧
        i.snapshotSeq ≤ m.state.nextSeq + rows.length) ∧
      (rows.map (·.key.mail.id)).Nodup ∧
      (∀ i ∈ rows, i.key.mail.id ∉ m.envelopes.map (·.mailId)) ∧
      (∀ t ∈ marks, Marks (rows.map (·.key)) t) ∧ ItemsUnique (m.items ++ rows) ∧
      state.nextSeq = m.state.nextSeq + rows.length ∧
      state.stateVersion = m.state.stateVersion + (if rows = [] then 0 else 1) ∧
      Mail.appendContentProjections
        { m with items := m.items ++ rows, envelopes := m.envelopes ++ rows.map itemEnvelope, state
                 transitions := m.transitions ++ marks } (rows.map (·.key.mail.id)) = .ok l ∧
      n = { l with submissions := m.submissions ++ [submission] } := by
  obtain ⟨_, _, h⟩ := Except.bind_eq_ok.mp h
  obtain ⟨_, _, h⟩ := Except.bind_eq_ok.mp h
  obtain ⟨_, _, h⟩ := Except.bind_eq_ok.mp h
  obtain ⟨found, _, h⟩ := Except.bind_eq_ok.mp h
  cases found with
  | some previous =>
      cases h
      exact Or.inl rfl
  | none =>
      obtain ⟨⟨⟨inserted, duplicates⟩, a⟩, ha, h⟩ := Except.bind_eq_ok.mp h
      obtain ⟨l, hl, h⟩ := Except.bind_eq_ok.mp h
      cases h
      obtain ⟨rows, marks, state, rfl, hrows, hnodup, hnew, hmarks, hu, hseq, hversion, rfl⟩ :=
        appendItems_ok ha hitems
      rw [List.map_map] at hl
      have hsub : l.submissions = m.submissions := by
        obtain ⟨⟨_, _, rfl⟩, _⟩ := projections_ok hl
        rfl
      rw [hsub]
      refine Or.inr ⟨rows, marks, _, _, l, hrows, hnodup, hnew, hmarks, hu, ?_, ?_, hl, rfl⟩
      · exact hseq
      · exact hversion

end MonoAgent.EventMail
