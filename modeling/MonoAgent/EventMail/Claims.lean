import MonoAgent.EventMail.Commits

/-!
# A claimed item stays with its selection

`ClaimsInv` links items, selections and members: a claim is of one selection, its item
can still be settled, and an item with the token of an open selection is its driver.
Every call but one only lets go of the claims of the selection it names.  `expire`
takes whatever waits, and keeps the claims when it names no claimed item.
-/

namespace MonoAgent.EventMail

open MonoAgent.Lib MonoAgent.Session

variable {m n : Mail}

/-- The selection is open, or its message is on its way. -/
def Selection.Active (s : Selection) : Prop := s.status = .selected ∨ s.status = .readyForDelivery

theorem holds_iff {s : Selection} {r : Member} : holds s r = true ↔ s.token = r.token ∧
    (s.status = .selected ∨ (s.status = .readyForDelivery ∧ r.selectedForDelivery = true)) := by
  simp [holds]

theorem claimed_iff {key : ContentKey} : m.claimed key = true ↔
    ∃ r ∈ m.members, r.key = key ∧ ∃ s ∈ m.selections, holds s r = true := by
  simp [Mail.claimed]

theorem not_claimed {key : ContentKey} (h : m.claimed key = false) {r : Member} (hr : r ∈ m.members)
    {s : Selection} (hs : s ∈ m.selections) (hholds : holds s r = true) : r.key ≠ key := by
  intro hkey
  have htrue : m.claimed key = true := claimed_iff.mpr ⟨r, hr, hkey, s, hs, hholds⟩
  rw [h] at htrue
  cases htrue

structure ClaimsInv (m : Mail) : Prop where
  items : ItemsUnique m.items
  selections : SelectionsUnique m.selections
  members : MembersUnique m.members
  memberToken : ∀ r ∈ m.members, r.token ∈ m.selections.map (·.token)
  itemToken : ∀ i ∈ m.items, ∀ token, i.selectionToken = some token →
    token ∈ m.selections.map (·.token)
  /-- Two claims of one item are of one selection. -/
  exclusive : ∀ s ∈ m.selections, ∀ s' ∈ m.selections, ∀ r ∈ m.members, ∀ r' ∈ m.members,
    holds s r = true → holds s' r' = true → r.key = r'.key → s.token = s'.token
  /-- A claimed item can still be settled. -/
  held : ∀ s ∈ m.selections, ∀ r ∈ m.members, holds s r = true →
    ∃ i ∈ m.items, i.key = r.key ∧ live i.status = true
  delivers : ∀ s ∈ m.selections, s.status = .readyForDelivery →
    ∃ r ∈ m.members, r.token = s.token ∧ r.selectedForDelivery = true
  /-- An item with the token of an active selection is its driver, and claimed by it. -/
  driver : ∀ s ∈ m.selections, s.Active → ∀ i ∈ m.items, i.selectionToken = some s.token →
    i.key = s.driver ∧ (i.status = .selected ∨ i.status = .readyForDelivery) ∧
      ∃ r ∈ m.members, holds s r = true ∧ r.key = s.driver

theorem claimsInv_start : ClaimsInv {} where
  items := by decide
  selections := by decide
  members := by decide
  memberToken := by simp
  itemToken := by simp
  exclusive := by simp
  held := by simp
  delivers := by simp
  driver := by simp

/-- Two selections of one token are one selection. -/
theorem ClaimsInv.selection_eq (h : ClaimsInv m) {s s' : Selection} (hs : s ∈ m.selections)
    (hs' : s' ∈ m.selections) (heq : s.token = s'.token) : s = s' :=
  List.inj_on_of_nodup_map h.selections.1 hs hs' heq

/-- Two items of one key are one item. -/
theorem ClaimsInv.item_eq (h : ClaimsInv m) {i j : Item} (hi : i ∈ m.items) (hj : j ∈ m.items)
    (heq : i.key = j.key) : i = j :=
  List.inj_on_of_nodup_map h.items.1 hi hj heq

/-- The active selections keep their claims, or let go of some; nobody else's items change
to a status that cannot be settled. -/
theorem ClaimsInv.shrink (h : ClaimsInv m) {f : Item → Item} {u : Selection → Selection}
    {g : Member → Member} (hf : KeepsRow f)
    (hg : ∀ r, (g r).token = r.token ∧ (g r).key = r.key)
    (hu : ∀ s, (u s).token = s.token ∧ (u s).driver = s.driver)
    (htoken : ∀ i ∈ m.items, ∀ t, (f i).selectionToken = some t → i.selectionToken = some t)
    (hclaim : ∀ s ∈ m.selections, ∀ r ∈ m.members, holds (u s) (g r) = true → holds s r = true)
    (hlive : ∀ s ∈ m.selections, ∀ r ∈ m.members, holds (u s) (g r) = true → ∀ i ∈ m.items,
      i.key = r.key → live i.status = true → live (f i).status = true)
    (hdelivers : ∀ s ∈ m.selections, (u s).status = .readyForDelivery →
      ∃ r ∈ m.members, r.token = s.token ∧ (g r).selectedForDelivery = true)
    (hdriver : ∀ s ∈ m.selections, (u s).Active → ∀ i ∈ m.items,
      (f i).selectionToken = some s.token → i.key = s.driver ∧
        ((f i).status = .selected ∨ (f i).status = .readyForDelivery) ∧
        ∃ r ∈ m.members, holds (u s) (g r) = true ∧ r.key = s.driver)
    (hitems : ItemsUnique (m.items.map f)) (hselections : SelectionsUnique (m.selections.map u))
    (hmembers : MembersUnique (m.members.map g)) (hn : n.items = m.items.map f)
    (hns : n.selections = m.selections.map u) (hnm : n.members = m.members.map g) : ClaimsInv n := by
  have htokens : n.selections.map (·.token) = m.selections.map (·.token) := by
    rw [hns, List.map_map]
    exact List.map_congr_left fun s _ => (hu s).1
  refine
    { items := hn ▸ hitems
      selections := hns ▸ hselections
      members := hnm ▸ hmembers
      memberToken := ?_
      itemToken := ?_
      exclusive := ?_
      held := ?_
      delivers := ?_
      driver := ?_ }
  · rw [htokens, hnm]
    intro r hr₀
    obtain ⟨r, hr, rfl⟩ := List.mem_map.mp hr₀
    rw [(hg r).1]
    exact h.memberToken r hr
  · rw [htokens, hn]
    intro i hi₀ t ht
    obtain ⟨i, hi, rfl⟩ := List.mem_map.mp hi₀
    exact h.itemToken i hi t (htoken i hi t ht)
  · rw [hns, hnm]
    intro s hs₀ s' hs₁ r hr₀ r' hr₁ hh hh' hkey
    obtain ⟨s, hs, rfl⟩ := List.mem_map.mp hs₀
    obtain ⟨s', hs', rfl⟩ := List.mem_map.mp hs₁
    obtain ⟨r, hr, rfl⟩ := List.mem_map.mp hr₀
    obtain ⟨r', hr', rfl⟩ := List.mem_map.mp hr₁
    rw [(hu s).1, (hu s').1]
    rw [(hg r).2, (hg r').2] at hkey
    exact h.exclusive s hs s' hs' r hr r' hr' (hclaim s hs r hr hh) (hclaim s' hs' r' hr' hh') hkey
  · rw [hns, hnm, hn]
    intro s hs₀ r hr₀ hh
    obtain ⟨s, hs, rfl⟩ := List.mem_map.mp hs₀
    obtain ⟨r, hr, rfl⟩ := List.mem_map.mp hr₀
    obtain ⟨i, hi, hkey, hl⟩ := h.held s hs r hr (hclaim s hs r hr hh)
    refine ⟨f i, List.mem_map_of_mem hi, ?_, hlive s hs r hr hh i hi hkey hl⟩
    rw [(hf i).1, (hg r).2, hkey]
  · rw [hns, hnm]
    intro s hs₀ hready
    obtain ⟨s, hs, rfl⟩ := List.mem_map.mp hs₀
    obtain ⟨r, hr, htoken, hchosen⟩ := hdelivers s hs hready
    exact ⟨g r, List.mem_map_of_mem hr, by rw [(hg r).1, (hu s).1, htoken], hchosen⟩
  · rw [hns, hnm, hn]
    intro s hs₀ hactive i hi₀ ht
    obtain ⟨s, hs, rfl⟩ := List.mem_map.mp hs₀
    obtain ⟨i, hi, rfl⟩ := List.mem_map.mp hi₀
    rw [(hu s).1] at ht
    obtain ⟨hkey, hstatus, r, hr, hh, hrkey⟩ := hdriver s hs hactive i hi ht
    refine ⟨by rw [(hf i).1, (hu s).2, hkey], hstatus, g r, List.mem_map_of_mem hr, hh, ?_⟩
    rw [(hg r).2, (hu s).2, hrkey]

/-- When only items that nobody claims are changed. -/
theorem ClaimsInv.unclaimed (h : ClaimsInv m) {f : Item → Item} (hf : KeepsRow f)
    (htoken : ∀ i, (f i).selectionToken = i.selectionToken)
    (hfix : ∀ i ∈ m.items, m.claimed i.key = true → f i = i)
    (hitems : ItemsUnique (m.items.map f)) (hn : n.items = m.items.map f)
    (hns : n.selections = m.selections) (hnm : n.members = m.members) : ClaimsInv n := by
  have hclaimed (s : Selection) (hs : s ∈ m.selections) (r : Member) (hr : r ∈ m.members)
      (hh : holds s r = true) (i : Item) (hi : i ∈ m.items) (hkey : i.key = r.key) : f i = i :=
    hfix i hi (claimed_iff.mpr ⟨r, hr, hkey.symm, s, hs, hh⟩)
  refine h.shrink (u := fun s => s) (g := fun r => r) hf (fun _ => ⟨rfl, rfl⟩) (fun _ => ⟨rfl, rfl⟩)
    (fun i _ t ht => htoken i ▸ ht) (fun _ _ _ _ hh => hh) (fun s hs r hr hh i hi hkey hl => ?_)
    h.delivers (fun s hs hactive i hi ht => ?_) hitems (by simpa using h.selections)
    (by simpa using h.members) hn (by simpa using hns) (by simpa using hnm)
  · rw [hclaimed s hs r hr hh i hi hkey]
    exact hl
  · obtain ⟨hkey, hstatus, r, hr, hh, hrkey⟩ := h.driver s hs hactive i hi (htoken i ▸ ht)
    rw [hclaimed s hs r hr hh i hi (hkey.trans hrkey.symm)]
    exact ⟨hkey, hstatus, r, hr, hh, hrkey⟩

/-! ## The calls -/

theorem ClaimsInv.submit (h : ClaimsInv m) {rows : List Item} (hfresh : ∀ i ∈ rows, i.selectionToken = none)
    (hu : ItemsUnique (m.items ++ rows)) (hn : n.items = m.items ++ rows)
    (hns : n.selections = m.selections) (hnm : n.members = m.members) : ClaimsInv n := by
  have hnone (i : Item) (hi : i ∈ m.items ++ rows) (t : String) (ht : i.selectionToken = some t) :
      i ∈ m.items := by
    rcases List.mem_append.mp hi with hi | hi
    · exact hi
    · cases (hfresh i hi).symm.trans ht
  refine
    { items := hn ▸ hu
      selections := hns ▸ h.selections
      members := hnm ▸ h.members
      memberToken := hns ▸ hnm ▸ h.memberToken
      itemToken := ?_
      exclusive := hns ▸ hnm ▸ h.exclusive
      held := ?_
      delivers := hns ▸ hnm ▸ h.delivers
      driver := ?_ }
  · rw [hn, hns]
    exact fun i hi t ht => h.itemToken i (hnone i hi t ht) t ht
  · rw [hn, hns, hnm]
    intro s hs r hr hh
    obtain ⟨i, hi, hkey, hl⟩ := h.held s hs r hr hh
    exact ⟨i, List.mem_append_left _ hi, hkey, hl⟩
  · rw [hn, hns, hnm]
    exact fun s hs hactive i hi ht => h.driver s hs hactive i (hnone i hi _ ht) ht

/-- A new selection claims items that wait and that nobody claims. -/
theorem ClaimsInv.select (h : ClaimsInv m) {token : String} {turn : AcceptedTurn} {seq : Nat}
    {now : Instant} {driver : Item} {rest : List Item}
    (hall : ∀ i ∈ driver :: rest, i ∈ m.items ∧ waiting i.status = true ∧ m.claimed i.key = false)
    (hui : ItemsUnique (m.items.map fun i => if i.key = driver.key then i.claim token turn now else i))
    (hus : SelectionsUnique (m.selections ++ [newSelection token turn seq driver.key now]))
    (hum : MembersUnique (m.members ++ newMembers token 1 (driver :: rest)))
    (hn : n.items = m.items.map fun i => if i.key = driver.key then i.claim token turn now else i)
    (hns : n.selections = m.selections ++ [newSelection token turn seq driver.key now])
    (hnm : n.members = m.members ++ newMembers token 1 (driver :: rest)) : ClaimsInv n := by
  -- The token is new.
  have hnew : token ∉ m.selections.map (·.token) := by
    have hnodup := hus.1
    rw [List.map_append, List.nodup_append] at hnodup
    exact fun hmem => hnodup.2.2 token hmem token (List.mem_singleton.mpr rfl) rfl
  have hold (s : Selection) (hs : s ∈ m.selections) : s.token ≠ token :=
    fun heq => hnew (heq ▸ List.mem_map_of_mem hs)
  have holdm (r : Member) (hr : r ∈ m.members) : r.token ≠ token :=
    fun heq => hnew (heq ▸ h.memberToken r hr)
  have hselection (s : Selection) (hs : s ∈ n.selections) : s ∈ m.selections ∨
      s = newSelection token turn seq driver.key now := by
    rw [hns] at hs
    simpa using hs
  -- A claim is an old one, or one of the candidates by the new selection.
  have hclaim (s : Selection) (hs : s ∈ n.selections) (r : Member) (hr : r ∈ n.members)
      (hh : holds s r = true) : (s ∈ m.selections ∧ r ∈ m.members) ∨
        (s.token = token ∧ ∃ i ∈ driver :: rest, r.key = i.key) := by
    have htoken := (holds_iff.mp hh).1
    rw [hnm] at hr
    rcases List.mem_append.mp hr with hr | hr
    · rcases hselection s hs with hs | rfl
      · exact Or.inl ⟨hs, hr⟩
      · exact absurd htoken.symm (holdm r hr)
    · obtain ⟨hrt, _, _, i, hi, hkey⟩ := mem_newMembers hr
      exact Or.inr ⟨htoken.trans hrt, i, hi, hkey⟩
  have hunclaimed (i : Item) (hi : i ∈ driver :: rest) (s : Selection) (hs : s ∈ m.selections)
      (r : Member) (hr : r ∈ m.members) (hh : holds s r = true) : r.key ≠ i.key :=
    not_claimed (hall i hi).2.2 hr hs hh
  have hdriver : driver ∈ m.items := (hall driver (List.mem_cons_self ..)).1
  refine
    { items := hn ▸ hui
      selections := hns ▸ hus
      members := hnm ▸ hum
      memberToken := ?_
      itemToken := ?_
      exclusive := ?_
      held := ?_
      delivers := ?_
      driver := ?_ }
  · rw [hnm, hns]
    intro r hr
    rw [List.map_append]
    rcases List.mem_append.mp hr with hr | hr
    · exact List.mem_append_left _ (h.memberToken r hr)
    · rw [(mem_newMembers hr).1]
      exact List.mem_append_right _ (List.mem_singleton.mpr rfl)
  · rw [hn, hns]
    intro i hi₀ t ht
    obtain ⟨i, hi, rfl⟩ := List.mem_map.mp hi₀
    rw [List.map_append]
    split at ht
    · cases ht
      exact List.mem_append_right _ (List.mem_singleton.mpr rfl)
    · exact List.mem_append_left _ (h.itemToken i hi t ht)
  · intro s hs s' hs' r hr r' hr' hh hh' hkey
    rcases hclaim s hs r hr hh with ⟨ho, hro⟩ | ⟨ht, i, hi, hik⟩ <;>
      rcases hclaim s' hs' r' hr' hh' with ⟨ho', hro'⟩ | ⟨ht', j, hj, hjk⟩
    · exact h.exclusive s ho s' ho' r hro r' hro' hh hh' hkey
    · exact absurd (hkey.trans hjk) (hunclaimed j hj s ho r hro hh)
    · exact absurd (hkey.symm.trans hik) (hunclaimed i hi s' ho' r' hro' hh')
    · exact ht.trans ht'.symm
  · intro s hs r hr hh
    rw [hn]
    rcases hclaim s hs r hr hh with ⟨ho, hro⟩ | ⟨_, i, hi, hik⟩
    · obtain ⟨i, hi, hkey, hl⟩ := h.held s ho r hro hh
      refine ⟨i, List.mem_map.mpr ⟨i, hi, if_neg fun heq => ?_⟩, hkey, hl⟩
      exact hunclaimed driver (List.mem_cons_self ..) s ho r hro hh (hkey.symm.trans heq)
    · obtain ⟨him, hwait, _⟩ := hall i hi
      refine ⟨_, List.mem_map_of_mem him, ?_, ?_⟩
      · split
        · exact hik.symm
        · exact hik.symm
      · split
        · rfl
        · simp [live, hwait]
  · intro s hs hready
    rw [hnm]
    rcases hselection s hs with hs | rfl
    · obtain ⟨r, hr, ht, hchosen⟩ := h.delivers s hs hready
      exact ⟨r, List.mem_append_left _ hr, ht, hchosen⟩
    · cases hready
  · intro s hs hactive i hi₀ ht
    rw [hn] at hi₀
    rw [hnm]
    obtain ⟨i, hi, rfl⟩ := List.mem_map.mp hi₀
    rcases hselection s hs with hs | rfl
    · split at ht
      · next hkey => exact absurd (Option.some.inj ht).symm (hold s hs)
      · next hkey =>
          rw [if_neg hkey]
          obtain ⟨hik, hstatus, r, hr, hh, hrk⟩ := h.driver s hs hactive i hi ht
          exact ⟨hik, hstatus, r, List.mem_append_left _ hr, hh, hrk⟩
    · split at ht
      · next hkey =>
          rw [if_pos hkey]
          refine ⟨hkey, Or.inl rfl, _, List.mem_append_right _ (List.mem_cons_self ..), ?_, rfl⟩
          exact holds_iff.mpr ⟨rfl, Or.inl rfl⟩
      · exact absurd (h.itemToken i hi _ ht) hnew

theorem selection?_some {token : String} {row : Selection} (h : m.selection? token = some row) :
    row ∈ m.selections ∧ row.token = token :=
  ⟨List.mem_of_find?_eq_some h, by simpa using List.find?_some h⟩

/-- The members of a message are chosen: the selection delivers them, and lets go of the others. -/
theorem ClaimsInv.choose (h : ClaimsInv m) {row : Selection} {now : Instant} {chosen : List ContentKey}
    {f : Item → Item} (hrow : row ∈ m.selections) (hopen : row.status = .selected) (hne : chosen ≠ [])
    (hsub : ∀ key ∈ chosen, (row.token, key) ∈ m.members.map fun r => (r.token, r.key))
    (hf : f = if row.driver ∈ chosen then
        fun i => if i.selectionToken = some row.token ∧ i.status = .selected then
          i.move .readyForDelivery now else i
      else fun i => if i.selectionToken = some row.token ∧
          (i.status = .selected ∨ i.status = .readyForDelivery) then i.release now else i)
    (hkeeps : KeepsRow f) (hui : ItemsUnique (m.items.map f))
    (hum : MembersUnique (m.members.map fun r =>
      if r.token = row.token ∧ r.key ∈ chosen then { r with selectedForDelivery := true } else r))
    (hus : SelectionsUnique (m.selections.map fun s =>
      if s.token = row.token then { s with status := .readyForDelivery, updatedAt := now } else s))
    (hn : n.items = m.items.map f)
    (hns : n.selections = m.selections.map fun s =>
      if s.token = row.token then { s with status := .readyForDelivery, updatedAt := now } else s)
    (hnm : n.members = m.members.map fun r =>
      if r.token = row.token ∧ r.key ∈ chosen then { r with selectedForDelivery := true } else r) :
    ClaimsInv n := by
  -- The rows of the selection that are chosen, and those of the others.
  have hmine (key : ContentKey) (hkey : key ∈ chosen) : ∃ r ∈ m.members, r.token = row.token ∧
      r.key = key := by
    obtain ⟨r, hr, heq⟩ := List.mem_map.mp (hsub key hkey)
    exact ⟨r, hr, (Prod.mk.inj heq).1, (Prod.mk.inj heq).2⟩
  -- Only the driver is written: it is delivered, or waits again.
  have hcases (i : Item) : f i = i ∨ (i.selectionToken = some row.token ∧
      ((row.driver ∈ chosen ∧ f i = i.move .readyForDelivery now) ∨
        (row.driver ∉ chosen ∧ f i = i.release now))) := by
    rw [hf]
    by_cases hdriver : row.driver ∈ chosen
    · rw [if_pos hdriver]
      split
      · next hcond => exact Or.inr ⟨hcond.1, Or.inl ⟨hdriver, rfl⟩⟩
      · exact Or.inl rfl
    · rw [if_neg hdriver]
      split
      · next hcond => exact Or.inr ⟨hcond.1, Or.inr ⟨hdriver, rfl⟩⟩
      · exact Or.inl rfl
  have htoken (i : Item) (t : String) (ht : (f i).selectionToken = some t) :
      i.selectionToken = some t := by
    rcases hcases i with heq | ⟨_, ⟨_, heq⟩ | ⟨_, heq⟩⟩
    · rwa [heq] at ht
    · rwa [heq] at ht
    · rw [heq] at ht
      cases ht
  refine h.shrink hkeeps (fun r => ?_) (fun s => ?_) (fun i _ => htoken i) (fun s hs r hr hh => ?_)
    (fun s _ r _ _ i _ _ hl => ?_) (fun s hs hready => ?_) (fun s hs hactive i hi ht => ?_)
    hui hus hum hn hns hnm
  · split <;> exact ⟨rfl, rfl⟩
  · split <;> exact ⟨rfl, rfl⟩
  · obtain ⟨htoken, hstatus⟩ := holds_iff.mp hh
    have hrt : s.token = r.token := by
      split at htoken <;> split at htoken <;> exact htoken
    by_cases heq : s.token = row.token
    · have hsrow : s = row := h.selection_eq hs hrow heq
      exact holds_iff.mpr ⟨hrt, Or.inl (hsrow ▸ hopen)⟩
    · rw [if_neg heq] at hstatus
      rw [if_neg fun hcond : r.token = row.token ∧ _ => heq (hrt.trans hcond.1)] at hstatus
      exact holds_iff.mpr ⟨hrt, hstatus⟩
  · rcases hcases i with heq | ⟨_, ⟨_, heq⟩ | ⟨_, heq⟩⟩ <;> rw [heq]
    · exact hl
    · rfl
    · rfl
  · by_cases heq : s.token = row.token
    · obtain ⟨key, hkey⟩ := List.exists_mem_of_ne_nil _ hne
      obtain ⟨r, hr, ht, hrk⟩ := hmine key hkey
      exact ⟨r, hr, ht.trans heq.symm, by rw [if_pos ⟨ht, hrk ▸ hkey⟩]⟩
    · rw [if_neg heq] at hready
      obtain ⟨r, hr, ht, hchosen⟩ := h.delivers s hs hready
      refine ⟨r, hr, ht, ?_⟩
      split
      · rfl
      · exact hchosen
  · by_cases heq : s.token = row.token
    · have hsrow : s = row := h.selection_eq hs hrow heq
      subst hsrow
      obtain ⟨hik, hstatus, _⟩ := h.driver s hs (Or.inl hopen) i hi (htoken i _ ht)
      by_cases hdriver : s.driver ∈ chosen
      · obtain ⟨r, hr, hrt, hrk⟩ := hmine _ hdriver
        refine ⟨hik, ?_, r, hr, ?_, hrk⟩
        · rcases hcases i with heq | ⟨_, ⟨_, heq⟩ | ⟨hout, _⟩⟩
          · rwa [heq]
          · exact Or.inr (heq ▸ rfl)
          · exact absurd hdriver hout
        · rw [if_pos rfl, if_pos ⟨hrt, hrk ▸ hdriver⟩]
          exact holds_iff.mpr ⟨hrt.symm, Or.inr ⟨rfl, rfl⟩⟩
      · have hreleased : f i = i.release now := by
          rw [hf, if_neg hdriver]
          exact if_pos ⟨htoken i _ ht, hstatus⟩
        rw [hreleased] at ht
        cases ht
    · rw [if_neg heq] at hactive
      have hsame : f i = i := by
        rcases hcases i with hsame | ⟨hmy, _⟩
        · exact hsame
        · exact absurd (Option.some.inj ((htoken i _ ht).symm.trans hmy)) heq
      rw [hsame] at ht ⊢
      obtain ⟨hik, hstatus, r, hr, hh, hrk⟩ := h.driver s hs hactive i hi ht
      refine ⟨hik, hstatus, r, hr, ?_, hrk⟩
      have hrt := (holds_iff.mp hh).1
      rw [if_neg heq, if_neg fun hcond : r.token = row.token ∧ _ => heq (hrt.trans hcond.1)]
      exact hh

/-- A selection ends: it lets go of its claims, and only items that it claims are written. -/
theorem ClaimsInv.letGo (h : ClaimsInv m) {row : Selection} {f : Item → Item}
    {u : Selection → Selection} {g : Member → Member} (hrow : row ∈ m.selections)
    (hf : KeepsRow f) (hg : KeepsMember row.token g)
    (hu : ∀ s, (u s).token = s.token ∧ (u s).driver = s.driver)
    (hended : ¬ (u row).Active) (hothers : ∀ s, s.token ≠ row.token → u s = s)
    (htoken : ∀ i t, (f i).selectionToken = some t → i.selectionToken = some t)
    (hmine : ∀ i ∈ m.items, f i = i ∨ ∃ r ∈ m.members, holds row r = true ∧ r.key = i.key)
    (hui : ItemsUnique (m.items.map f)) (hus : SelectionsUnique (m.selections.map u))
    (hum : MembersUnique (m.members.map g)) (hn : n.items = m.items.map f)
    (hns : n.selections = m.selections.map u) (hnm : n.members = m.members.map g) : ClaimsInv n := by
  have hactive (s : Selection) (hs : s ∈ m.selections) (ha : (u s).Active) : s.token ≠ row.token := by
    intro heq
    rw [h.selection_eq hs hrow heq] at ha
    exact hended ha
  have hholds (s : Selection) (hs : s ∈ m.selections) (r : Member)
      (hh : holds (u s) (g r) = true) : s.token ≠ row.token ∧ holds s r = true := by
    have hne : s.token ≠ row.token := by
      refine hactive s hs ?_
      rcases (holds_iff.mp hh).2 with hopen | ⟨hready, _⟩
      · exact Or.inl hopen
      · exact Or.inr hready
    have hr : r.token ≠ row.token := by
      have heq := (holds_iff.mp hh).1
      rw [(hu s).1, (hg r).1] at heq
      exact heq ▸ hne
    rw [hothers s hne, (hg r).2.2.2.2 hr] at hh
    exact ⟨hne, hh⟩
  -- An item that another selection claims is not written.
  have hfix (s : Selection) (hs : s ∈ m.selections) (hne : s.token ≠ row.token) (r : Member)
      (hr : r ∈ m.members) (hh : holds s r = true) (i : Item) (hi : i ∈ m.items)
      (hkey : i.key = r.key) : f i = i := by
    rcases hmine i hi with heq | ⟨r', hr', hh', hkey'⟩
    · exact heq
    · exact absurd (h.exclusive s hs row hrow r hr r' hr' hh hh' (hkey.symm.trans hkey'.symm)) hne
  refine h.shrink hf (fun r => ⟨(hg r).1, (hg r).2.1⟩) hu (fun i _ => htoken i)
    (fun s hs r _ hh => (hholds s hs r hh).2) (fun s hs r hr hh i hi hkey hl => ?_)
    (fun s hs hready => ?_) (fun s hs ha i hi ht => ?_) hui hus hum hn hns hnm
  · obtain ⟨hne, hh⟩ := hholds s hs r hh
    rw [hfix s hs hne r hr hh i hi hkey]
    exact hl
  · have hne := hactive s hs (Or.inr hready)
    rw [hothers s hne] at hready
    obtain ⟨r, hr, ht, hchosen⟩ := h.delivers s hs hready
    exact ⟨r, hr, ht, (hg r).2.2.2.1.trans hchosen⟩
  · have hne := hactive s hs ha
    rw [hothers s hne] at ha ⊢
    obtain ⟨hik, hstatus, r, hr, hh, hrk⟩ := h.driver s hs ha i hi (htoken i _ ht)
    rw [hfix s hs hne r hr hh i hi (hik.trans hrk.symm)]
    refine ⟨hik, hstatus, r, hr, ?_, hrk⟩
    rw [(hg r).2.2.2.2 ((holds_iff.mp hh).1 ▸ hne)]
    exact hh

theorem SelectionAction.allowed_active {action : SelectionAction} {row : Selection}
    (h : action.allowed row.status = true) : row.Active := by
  simp only [SelectionAction.allowed, Bool.or_eq_true, Bool.and_eq_true, decide_eq_true_eq] at h
  exact h.imp id And.right

/-- What an action does to a selection, by cases on what it does to the items. -/
theorem ClaimsInv.transition (h : ClaimsInv m) {token : String} {action : SelectionAction}
    {row : Selection} {now : Instant} {f : Item → Item} {members : List Member}
    (hrow : m.selection? token = some row) (hallowed : action.allowed row.status = true)
    (hmoves : Moves m row action now f members) (hui : ItemsUnique (m.items.map f))
    (hum : MembersUnique members)
    (hus : SelectionsUnique (m.selections.map fun s =>
      if s.token = token then { s with status := action.status, updatedAt := now } else s))
    (hn : n.items = m.items.map f)
    (hns : n.selections = m.selections.map fun s =>
      if s.token = token then { s with status := action.status, updatedAt := now } else s)
    (hnm : n.members = members) : ClaimsInv n := by
  obtain ⟨hmem, rfl⟩ := selection?_some hrow
  have hactive := SelectionAction.allowed_active hallowed
  have hkeeps := hmoves.keepsRow
  -- An item with the token is the driver, which the selection claims.
  have hdriver (i : Item) (hi : i ∈ m.items) (ht : i.selectionToken = some row.token) :
      ∃ r ∈ m.members, holds row r = true ∧ r.key = i.key := by
    obtain ⟨hik, _, r, hr, hh, hrk⟩ := h.driver row hmem hactive i hi ht
    exact ⟨r, hr, hh, hrk.trans hik.symm⟩
  have hkept : KeepsMember row.token fun r => r := fun _ => ⟨rfl, rfl, rfl, rfl, fun _ => rfl⟩
  have hended (hne : action ≠ .readyForDelivery) (f : Item → Item) (hf : KeepsRow f)
      (hui : ItemsUnique (m.items.map f)) (hn : n.items = m.items.map f) (hnm : n.members = m.members)
      (htoken : ∀ i t, (f i).selectionToken = some t → i.selectionToken = some t)
      (hmine : ∀ i ∈ m.items, f i = i ∨ ∃ r ∈ m.members, holds row r = true ∧ r.key = i.key) :
      ClaimsInv n := by
    refine h.letGo hmem hf hkept (fun s => ?_) ?_ (fun s hs => if_neg hs) htoken hmine hui hus
      (by simpa using h.members) hn hns (by simpa using hnm)
    · split <;> exact ⟨rfl, rfl⟩
    · rw [if_pos rfl]
      rintro (hs | hs) <;> cases action <;> first | exact hne rfl | cases hs
  cases hmoves with
  | chosen chosen f haction hne hsub hf =>
      subst haction
      have hopen : row.status = .selected := by
        simpa [SelectionAction.allowed] using hallowed
      exact h.choose hmem hopen hne hsub hf hkeeps hui hum hus hn hns hnm
  | released haction =>
      refine hended (haction ▸ nofun) _ hkeeps hui hn hnm (fun i t ht => ?_) fun i hi => ?_
      · split at ht
        · cases ht
        · exact ht
      · split
        · next hcond => exact Or.inr (hdriver i hi hcond.1)
        · exact Or.inl rfl
  | failed haction hready =>
      refine hended (haction ▸ nofun) _ hkeeps hui hn hnm (fun i t ht => ?_) fun i hi => ?_
      · split at ht <;> exact ht
      · split
        · next hcond =>
            obtain ⟨j, hj, hkey⟩ := List.mem_map.mp hcond.1
            obtain ⟨_, r, hr, ht, hchosen, hrk⟩ := deliveryMemberRows_mem hj
            exact Or.inr ⟨r, hr, holds_iff.mpr ⟨ht.symm, Or.inr ⟨hready, hchosen⟩⟩, hrk.trans hkey⟩
        · exact Or.inl rfl
  | closed notBefore hne hfailed =>
      refine hended hne _ hkeeps hui hn hnm (fun i t ht => ?_) fun i hi => ?_
      · split at ht <;> exact ht
      · split
        · next ht => exact Or.inr (hdriver i hi ht)
        · exact Or.inl rfl

/-- What the references take is claimed by nobody. -/
def Unclaimed (m : Mail) (refs : List ContentRef) : Prop :=
  ∀ ref ∈ refs, ∀ i ∈ m.items, expirable ref i = true → m.claimed i.key = false

instance (m : Mail) (refs : List ContentRef) : Decidable (Unclaimed m refs) :=
  inferInstanceAs (Decidable (∀ _ ∈ _, ∀ _ ∈ _, _))

theorem ClaimsInv.expire (h : ClaimsInv m) {refs expired : List ContentRef} {now : Instant}
    (hunclaimed : Unclaimed m refs) (hexpired : ∀ ref ∈ expired, ref ∈ refs)
    (hui : ItemsUnique (m.items.map (expireRow now expired)))
    (hn : n.items = m.items.map (expireRow now expired)) (hns : n.selections = m.selections)
    (hnm : n.members = m.members) : ClaimsInv n := by
  refine h.unclaimed (keepsRow_expire now expired) (fun i => ?_) (fun i hi hclaimed => ?_) hui hn hns hnm
  · rw [expireRow]
    split <;> rfl
  · refine if_neg fun hany => ?_
    obtain ⟨ref, href, hexp⟩ := List.any_eq_true.mp hany
    rw [hunclaimed ref (hexpired ref href) i hi hexp] at hclaimed
    cases hclaimed

/-- A delivery ends its selection, and settles what the selection claims. -/
theorem ClaimsInv.settle (h : ClaimsInv m) {token : String} {row : Selection} {f : Item → Item}
    {g : Member → Member} {status : ContentStatus} {ref : String} {now : Instant}
    (hrow : m.selection? token = some row) (hready : row.status = .readyForDelivery)
    (hstatus : status = .delivered ∨ status = .settled) (hf : KeepsRow f) (htoken : KeepsToken f)
    (hg : KeepsMember token g)
    (hfix : ∀ i, i.key ∉ (m.deliveryMemberRows token).map (·.key) →
      ¬ (row.driver ∉ (m.deliveryMemberRows token).map (·.key) ∧ i.selectionToken = some token ∧
        (i.status = .selected ∨ i.status = .readyForDelivery)) → f i = i)
    (hui : ItemsUnique (m.items.map f)) (hum : MembersUnique (m.members.map g))
    (hus : SelectionsUnique (m.selections.map fun s =>
      if s.token = token ∧ s.status = .readyForDelivery then
        { s with status, settlementRef := some ref, updatedAt := now } else s))
    (hn : n.items = m.items.map f)
    (hns : n.selections = m.selections.map fun s =>
      if s.token = token ∧ s.status = .readyForDelivery then
        { s with status, settlementRef := some ref, updatedAt := now } else s)
    (hnm : n.members = m.members.map g) : ClaimsInv n := by
  obtain ⟨hmem, rfl⟩ := selection?_some hrow
  refine h.letGo hmem hf hg (fun s => ?_) ?_ (fun s hs => if_neg fun hcond => hs hcond.1) htoken
    (fun i hi => ?_) hui hus hum hn hns hnm
  · split <;> exact ⟨rfl, rfl⟩
  · rw [if_pos ⟨rfl, hready⟩]
    rintro (hs | hs) <;> rcases hstatus with rfl | rfl <;> cases hs
  · by_cases hkey : i.key ∈ (m.deliveryMemberRows row.token).map (·.key)
    · obtain ⟨j, hj, hjk⟩ := List.mem_map.mp hkey
      obtain ⟨_, r, hr, ht, hchosen, hrk⟩ := deliveryMemberRows_mem hj
      exact Or.inr ⟨r, hr, holds_iff.mpr ⟨ht.symm, Or.inr ⟨hready, hchosen⟩⟩, hrk.trans hjk⟩
    · by_cases hdriver : i.selectionToken = some row.token
      · obtain ⟨hik, _, r, hr, hh, hrk⟩ := h.driver row hmem (Or.inr hready) i hi hdriver
        exact Or.inr ⟨r, hr, hh, hrk.trans hik.symm⟩
      · exact Or.inl (hfix i hkey fun hcond => hdriver hcond.2.1)

theorem ClaimsInv.ack (h : ClaimsInv m) {row : Item} {f : Item → Item} (hrow : row ∈ m.items)
    (hdelivered : row.status = .delivered) (hf : KeepsRow f)
    (htoken : ∀ i, (f i).selectionToken = i.selectionToken)
    (hfix : ∀ i ∈ m.items, i ≠ row → f i = i) (hui : ItemsUnique (m.items.map f))
    (hn : n.items = m.items.map f) (hns : n.selections = m.selections) (hnm : n.members = m.members) :
    ClaimsInv n := by
  refine h.unclaimed hf htoken (fun i hi hclaimed => hfix i hi ?_) hui hn hns hnm
  -- What is delivered cannot be settled again, so nobody claims it.
  rintro rfl
  obtain ⟨r, hr, hrk, s, hs, hh⟩ := claimed_iff.mp hclaimed
  obtain ⟨j, hj, hjk, hl⟩ := h.held s hs r hr hh
  rw [h.item_eq hj hi (hjk.trans hrk), hdelivered] at hl
  cases hl

/-! ## Runs -/

/-- The call is one of the content calls, and takes nothing that a selection claims. -/
def Undisturbed (m : Mail) : MailCall → Prop
  | .submit .. | .selectBatch .. | .transition .. | .settleDelivery .. | .ack .. => True
  | .expire refs _ => Unclaimed m refs
  | _ => False

theorem ClaimsInv.next (h : ClaimsInv m) {call : MailCall} (hok : Undisturbed m call)
    (hn : mailMachine.next m call = some n) : ClaimsInv n := by
  rcases mail_next hn with rfl | hrun
  · exact h
  cases call with
  | submit source batch items now =>
      obtain ⟨r, hrun⟩ := run_ok hrun
      obtain rfl | ⟨rows, marks, submission, state, l, hrows, _, _, _, hu, _, _, hl, rfl⟩ :=
        submit_ok h.items hrun
      · exact h
      · obtain ⟨⟨ts, _, rfl⟩, _⟩ := projections_ok hl
        exact h.submit (fun i hi => (hrows i hi).1.2.2.2.1) hu rfl rfl rfl
  | selectBatch refs seq turn instant hex now =>
      obtain ⟨r, hrun⟩ := run_ok hrun
      obtain rfl | ⟨driver, rest, items, ⟨_, hall⟩, rfl, hui, hus, hum, hc⟩ := selectBatch_ok h.members hrun
      · exact h
      · obtain ⟨hi, hs, hm, _⟩ := hc.tables
        exact h.select hall hui hus hum hi hs hm
  | transition token action notBefore refs now =>
      obtain ⟨r, hrun⟩ := run_ok hrun
      obtain rfl | ⟨row, f, members, hrow, hallowed, hmoves, hui, hum, hus, hc⟩ :=
        transition_ok h.members hrun
      · exact h
      · obtain ⟨hi, hs, hm, _⟩ := hc.tables
        exact h.transition hrow hallowed hmoves hui hum hus hi hs hm
  | expire refs now =>
      obtain ⟨r, hrun⟩ := run_ok hrun
      obtain rfl | ⟨expired, hexpired, hui, hc⟩ := expire_ok h.items hrun
      · exact h
      · obtain ⟨hi, hs, hm, _⟩ := hc.tables
        exact h.expire hok (fun ref href => (hexpired ref href).1) hui hi hs hm
  | settleDelivery sha256 token settlement now =>
      obtain ⟨r, hrun⟩ := run_ok hrun
      obtain rfl | ⟨row, f, g, status, keys, _, hrow, hready, hstatus, hf, htoken, hg, hfix, hui, hum,
        hus, hc⟩ := settleDelivery_ok h.items h.members hrun
      · exact h
      · obtain ⟨hi, hs, hm, _⟩ := hc.tables
        exact h.settle hrow hready hstatus hf htoken hg hfix hui hum hus hi hs hm
  | ack source settlement now =>
      obtain ⟨r, hrun⟩ := run_ok hrun
      obtain rfl | ⟨row, f, hrow, hdelivered, hf, htoken, hfix, hui, hc⟩ := ack_ok h.items hrun
      · exact h
      · obtain ⟨hi, hs, hm, _⟩ := hc.tables
        exact h.ack hrow hdelivered hf htoken hfix hui hi hs hm
  | _ => exact hok.elim

theorem claimsInv_reach (h : mailMachine.Reach Undisturbed m) : ClaimsInv m := by
  refine h.invariant (fun s hs => ?_) fun s call t hi hok hn => hi.next hok hn
  rw [show s = {} from hs]
  exact claimsInv_start

end MonoAgent.EventMail
