import Mathlib
import MonoAgent.Lib.Machine
import MonoAgent.Profiles.Queues
import MonoAgent.Profiles.Writes

/-!
# What is pending after a crash

`pending_source_refs` reads the receipts of the drafts.  Of every store that is reached it
lists the right sources in the right order exactly when every such source has its order
receipt and both of its drafts were committed in one second (`pending_listed`).  The order
receipts are there as long as no start finds a migration that was stopped between its
model receipt and its order receipt.
-/

namespace MonoAgent.Profiles

open MonoAgent.Lib MonoAgent.Lib.Exec

variable {p q : Store} {c : Call} {sourceRef : String}

/-! ## What the receipts say about a source -/

namespace Store

variable (p : Store)

/-- The session and the generation in the order receipt. -/
def orderOf (sourceRef : String) : Option (String × Nat) :=
  (p.receipt? sourceRef .order).bind fun doc =>
    match load doc with
    | .dict payload => orderFields payload
    | _ => none

def session (sourceRef : String) : String := ((p.orderOf sourceRef).map Prod.fst).getD ""

def generation (sourceRef : String) : Nat := ((p.orderOf sourceRef).map Prod.snd).getD 0

/-- A source with the receipt of a draft for one of the documents. -/
def Drafted (sourceRef : String) : Prop :=
  ∃ r ∈ p.receipts, r.sourceRef = sourceRef ∧ ∃ document, r.kind = .draft document

/-- When the first draft of a source was committed. -/
def draftedAt (sourceRef : String) : Nat :=
  ((p.receipts.find? fun r =>
    r.sourceRef = sourceRef ∧ (r.kind = .draft .memory ∨ r.kind = .draft .self)).map Receipt.doneAt).getD 0

/-- The draft of one source was committed before that of another, or in the same second. -/
def Received (sourceRef other : String) : Prop :=
  p.draftedAt sourceRef < p.draftedAt other ∨
    p.draftedAt sourceRef = p.draftedAt other ∧ sourceRef ≤ other

/-- Every source that is pending has its order receipt. -/
def Ordered : Prop :=
  ∀ sourceRef, p.Drafted sourceRef → p.isApplied sourceRef = false →
    p.has sourceRef .order = true

/-- The two drafts of a source that is pending were committed in one second. -/
def SameSecond : Prop :=
  ∀ sourceRef, p.isApplied sourceRef = false → ∀ r ∈ p.receipts, ∀ r' ∈ p.receipts,
    r.sourceRef = sourceRef → r'.sourceRef = sourceRef → (∃ document, r.kind = .draft document) →
      (∃ document, r'.kind = .draft document) → r.doneAt = r'.doneAt

/-- At every place stands a source of its session with the least generation, and no session
has a next source that was received earlier. -/
def InOrder (out : List String) : Prop :=
  ∀ before x after, out = before ++ x :: after →
    (∀ y ∈ after, p.session y = p.session x → p.generation x ≤ p.generation y) ∧
    ∀ y ∈ x :: after,
      (∀ z ∈ x :: after, p.session z = p.session y →
        p.generation y < p.generation z ∨ p.generation y = p.generation z ∧ p.Received y z) →
      p.Received x y

/-- The sources that are pending, once each and in order. -/
structure Listed (out : List String) : Prop where
  once : out.Nodup
  mem : ∀ sourceRef, sourceRef ∈ out ↔ p.Drafted sourceRef ∧ p.isApplied sourceRef = false
  inOrder : p.InOrder out

/-- Every order receipt is that of an order. -/
def Orders : Prop :=
  ∀ r ∈ p.receipts, r.kind = .order → ∃ o : Order, dump (.dict o.payload) = some r.payload

end Store

theorem Store.has_iff {kind : Kind} :
    p.has sourceRef kind = true ↔ ∃ r ∈ p.receipts, r.sourceRef = sourceRef ∧ r.kind = kind := by
  rw [Store.has, Store.receipt?, Option.isSome_map, List.find?_isSome]
  simp

/-- The text of an order receipt. -/
theorem dump_order (o : Order) : dump (.dict o.payload) =
    some (.obj [("generation", .int o.generation), ("session_key", .str o.sessionKey)]) := rfl

theorem orderFields_load (o : Order) :
    ∃ payload, load (.obj [("generation", .int o.generation), ("session_key", .str o.sessionKey)]) =
      .dict payload ∧ orderFields payload = some (o.sessionKey, o.generation) := by
  refine ⟨_, rfl, ?_⟩
  change (if o.sessionKey ≠ "" then some (o.sessionKey, o.generation) else none) = _
  exact if_pos o.named

theorem run_readReceipt {kind : Kind} : (readReceipt sourceRef kind).run c =
    match (c.store.receipt? sourceRef kind).map load with
    | none => (.ok none, c)
    | some (.dict payload) => (.ok (some payload), c)
    | some _ => (.error (.valueError ("Markdown profile receipt schema 无效: " ++ sourceRef ++ "/" ++ kind.name)), c) := by
  rw [readReceipt, run_bind, run_read]
  dsimp only
  cases (c.store.receipt? sourceRef kind).map load with
  | none => rfl
  | some value => cases value <;> rfl

/-- Reading an order receipt that is there. -/
theorem readOrder (h : c.store.Orders) (hhas : c.store.has sourceRef .order = true) :
    ∃ payload sessionKey generation, (readReceipt sourceRef .order).run c = (.ok (some payload), c) ∧
      orderFields payload = some (sessionKey, generation) ∧
      c.store.orderOf sourceRef = some (sessionKey, generation) := by
  obtain ⟨doc, hdoc⟩ := Option.isSome_iff_exists.mp hhas
  obtain ⟨r, hr, -, hkind, rfl⟩ := Store.mem_of_receipt hdoc
  obtain ⟨o, ho⟩ := h r hr hkind
  rw [dump_order] at ho
  obtain ⟨payload, hload, hfields⟩ := orderFields_load o
  rw [Option.some.inj ho] at hload
  refine ⟨payload, _, _, ?_, hfields, ?_⟩
  · rw [run_readReceipt, hdoc, Option.map_some, hload]
  · rw [Store.orderOf, hdoc, Option.bind_some, hload]
    exact hfields

/-! ## Reading the rows -/

/-- The item for a row whose source is pending. -/
def Store.item (p : Store) (position : Nat) (sourceRef : String) : Pending :=
  ⟨position, p.session sourceRef, p.generation sourceRef, sourceRef⟩

/-- What `readPending` gives when every order receipt is there. -/
def Store.itemsFrom (p : Store) : Nat → List (Nat × String) → List Pending
  | _, [] => []
  | k, (_, sourceRef) :: rest =>
      if p.isApplied sourceRef then p.itemsFrom (k + 1) rest
      else p.item k sourceRef :: p.itemsFrom (k + 1) rest

theorem run_readPending (h : c.store.Orders) {k : Nat} {rows : List (Nat × String)}
    (hrows : ∀ row ∈ rows, c.store.isApplied row.2 = false → c.store.has row.2 .order = true) :
    (readPending k rows).run c = (.ok (c.store.itemsFrom k rows), c) := by
  induction rows generalizing k with
  | nil => rfl
  | cons row rest ih =>
      obtain ⟨t, sourceRef⟩ := row
      have hrest := ih (k := k + 1) fun row hrow => hrows row (List.mem_cons_of_mem _ hrow)
      rw [readPending, run_bind, run_read, Store.itemsFrom]
      dsimp only
      by_cases happlied : c.store.isApplied sourceRef = true
      · rw [if_pos happlied, if_pos happlied]
        exact hrest
      · have hhas := hrows _ (List.mem_cons_self ..) (Bool.not_eq_true _ ▸ happlied)
        obtain ⟨payload, sessionKey, generation, hread, hfields, horder⟩ := readOrder h hhas
        rw [if_neg happlied, if_neg happlied, run_bind, hread]
        simp only [Option.map_some, hfields]
        rw [run_bind, hrest]
        have hitem : c.store.item k sourceRef = ⟨k, sessionKey, generation, sourceRef⟩ := by
          simp [Store.item, Store.session, Store.generation, horder]
        rw [hitem]
        rfl

/-- A pending row without its order receipt is refused. -/
theorem run_readPending_missing (h : c.store.Orders) {k : Nat} {rows : List (Nat × String)}
    {row : Nat × String} (hrow : row ∈ rows) (happlied : c.store.isApplied row.2 = false)
    (hmissing : c.store.has row.2 .order = false) : ∃ e, (readPending k rows).run c = (.error e, c) := by
  induction rows generalizing k with
  | nil => cases hrow
  | cons first rest ih =>
      obtain ⟨t, sourceRef⟩ := first
      rw [readPending, run_bind, run_read]
      dsimp only
      by_cases hfirst : c.store.isApplied sourceRef = true
      · rw [if_pos hfirst]
        rcases List.mem_cons.mp hrow with rfl | hrow
        · rw [hfirst] at happlied
          cases happlied
        · exact ih hrow
      · rw [if_neg hfirst, run_bind]
        cases hhas : c.store.has sourceRef .order with
        | false =>
            have hnone : c.store.receipt? sourceRef .order = none := by
              simpa [Store.has] using hhas
            rw [run_readReceipt, hnone]
            exact ⟨_, rfl⟩
        | true =>
            obtain ⟨payload, sessionKey, generation, hread, hfields, -⟩ := readOrder h hhas
            rw [hread]
            simp only [Option.map_some, hfields]
            rcases List.mem_cons.mp hrow with rfl | hrow
            · rw [hmissing] at hhas
              cases hhas
            · obtain ⟨e, he⟩ := ih (k := k + 1) hrow
              rw [run_bind, he]
              exact ⟨e, rfl⟩

theorem mem_itemsFrom {k : Nat} {rows : List (Nat × String)} {item : Pending} :
    item ∈ p.itemsFrom k rows ↔
      ∃ i row, rows[i]? = some row ∧ p.isApplied row.2 = false ∧ item = p.item (k + i) row.2 := by
  induction rows generalizing k with
  | nil => simp [Store.itemsFrom]
  | cons first rest ih =>
      obtain ⟨t, sourceRef⟩ := first
      have hsplit : (∃ i row, ((t, sourceRef) :: rest)[i]? = some row ∧ p.isApplied row.2 = false ∧
            item = p.item (k + i) row.2) ↔
          (p.isApplied sourceRef = false ∧ item = p.item k sourceRef) ∨ item ∈ p.itemsFrom (k + 1) rest := by
        rw [ih]
        constructor
        · rintro ⟨i, row, hi, happlied, heq⟩
          cases i with
          | zero =>
              cases hi
              exact Or.inl ⟨happlied, heq⟩
          | succ i =>
              refine Or.inr ⟨i, row, hi, happlied, ?_⟩
              rw [heq, Nat.add_assoc, Nat.add_comm 1]
        · rintro (⟨happlied, heq⟩ | ⟨i, row, hi, happlied, heq⟩)
          · exact ⟨0, _, rfl, happlied, heq⟩
          · refine ⟨i + 1, row, hi, happlied, ?_⟩
            rw [heq, Nat.add_assoc, Nat.add_comm 1]
      rw [hsplit, Store.itemsFrom]
      by_cases happlied : p.isApplied sourceRef = true
      · rw [if_pos happlied]
        simp [happlied]
      · rw [if_neg happlied, List.mem_cons]
        simp [happlied]

theorem pairwise_itemsFrom (k : Nat) (rows : List (Nat × String)) :
    (p.itemsFrom k rows).Pairwise fun a b => a.position < b.position := by
  induction rows generalizing k with
  | nil => exact List.Pairwise.nil
  | cons first rest ih =>
      rw [Store.itemsFrom]
      split
      · exact ih _
      · refine List.pairwise_cons.mpr ⟨fun item hitem => ?_, ih _⟩
        obtain ⟨i, row, -, -, rfl⟩ := mem_itemsFrom.mp hitem
        simp only [Store.item]
        omega

/-! ## The rows -/

theorem mem_draftRows {row : Nat × String} : row ∈ p.draftRows ↔
    ∃ r ∈ p.receipts, (∃ document, r.kind = .draft document) ∧ r.doneAt = row.1 ∧ r.sourceRef = row.2 := by
  have hkind (r : Receipt) : r.kind = .draft .memory ∨ r.kind = .draft .self ↔ ∃ document, r.kind = .draft document := by
    constructor
    · rintro (h | h)
      · exact ⟨_, h⟩
      · exact ⟨_, h⟩
    · rintro ⟨document, h⟩
      cases document with
      | memory => exact Or.inl h
      | self => exact Or.inr h
  rw [Store.draftRows, (List.perm_insertionSort _ _).mem_iff, List.mem_dedup, List.mem_map]
  obtain ⟨t, sourceRef⟩ := row
  constructor
  · rintro ⟨r, hr, heq⟩
    obtain ⟨hmem, hdraft⟩ := List.mem_filter.mp hr
    cases heq
    exact ⟨r, hmem, (hkind r).mp (by simpa using hdraft), rfl, rfl⟩
  · rintro ⟨r, hmem, hdraft, rfl, rfl⟩
    exact ⟨r, List.mem_filter.mpr ⟨hmem, by simpa using (hkind r).mpr hdraft⟩, rfl⟩

/-- The order of the rows. -/
def RowLe (a b : Nat × String) : Prop := a.1 < b.1 ∨ a.1 = b.1 ∧ a.2 ≤ b.2

theorem RowLe.antisymm {a b : Nat × String} (h : RowLe a b) (h' : RowLe b a) : a = b := by
  unfold RowLe at h h'
  obtain ⟨t, s⟩ := a
  obtain ⟨t', s'⟩ := b
  dsimp only at h h'
  rcases h with h | ⟨rfl, h⟩
  · rcases h' with h' | ⟨rfl, -⟩
    · exact absurd h' (Nat.lt_asymm h)
    · exact absurd h (Nat.lt_irrefl _)
  · rcases h' with h' | ⟨-, h'⟩
    · exact absurd h' (Nat.lt_irrefl _)
    · rw [le_antisymm h h']

theorem pairwise_draftRows (p : Store) : p.draftRows.Pairwise RowLe := by
  have htotal : Std.Total fun a b : Nat × String => a.1 < b.1 ∨ a.1 = b.1 ∧ a.2 ≤ b.2 := by
    refine ⟨fun a b => ?_⟩
    rcases Nat.lt_trichotomy a.1 b.1 with h | h | h
    · exact Or.inl (Or.inl h)
    · rcases le_total a.2 b.2 with hs | hs
      · exact Or.inl (Or.inr ⟨h, hs⟩)
      · exact Or.inr (Or.inr ⟨h.symm, hs⟩)
    · exact Or.inr (Or.inl h)
  have htrans : IsTrans (Nat × String) fun a b => a.1 < b.1 ∨ a.1 = b.1 ∧ a.2 ≤ b.2 := by
    refine ⟨fun a b c h h' => ?_⟩
    rcases h with h | ⟨h, hs⟩
    · rcases h' with h' | ⟨h', -⟩
      · exact Or.inl (Nat.lt_trans h h')
      · exact Or.inl (h' ▸ h)
    · rcases h' with h' | ⟨h', hs'⟩
      · exact Or.inl (h ▸ h')
      · exact Or.inr ⟨h.trans h', hs.trans hs'⟩
  exact List.pairwise_insertionSort (fun a b : Nat × String => a.1 < b.1 ∨ a.1 = b.1 ∧ a.2 ≤ b.2) _

theorem nodup_draftRows (p : Store) : p.draftRows.Nodup :=
  (List.perm_insertionSort _ _).nodup_iff.mpr (List.nodup_dedup _)

/-! ## The list -/

theorem run_pendingSourceRefs (h : c.store.Orders) (hordered : c.store.Ordered) :
    ∃ items, pendingSourceRefs.run c = (.ok (items.map Pending.sourceRef), c) ∧
      items.Perm (c.store.itemsFrom 0 c.store.draftRows) ∧ Greedy items := by
  have hrows : ∀ row ∈ c.store.draftRows, c.store.isApplied row.2 = false →
      c.store.has row.2 .order = true := by
    intro row hrow happlied
    obtain ⟨r, hr, hdraft, -, href⟩ := mem_draftRows.mp hrow
    exact hordered row.2 ⟨r, hr, href, hdraft⟩ happlied
  obtain ⟨items, hdrain, hperm, hgreedy⟩ := drain_spec (pairwise_itemsFrom (p := c.store) 0 c.store.draftRows)
  refine ⟨items, ?_, hperm, hgreedy⟩
  rw [pendingSourceRefs, run_bind, run_read]
  dsimp only
  rw [run_bind, run_readPending h hrows, ← hdrain]
  rfl

theorem run_pendingSourceRefs_raises (h : c.store.Orders) (hordered : ¬ c.store.Ordered) :
    ∃ e, pendingSourceRefs.run c = (.error e, c) := by
  unfold Store.Ordered at hordered
  push Not at hordered
  obtain ⟨sourceRef, ⟨r, hr, href, hdraft⟩, happlied, hmissing⟩ := hordered
  have hrow : (r.doneAt, sourceRef) ∈ c.store.draftRows := mem_draftRows.mpr ⟨r, hr, hdraft, rfl, href⟩
  obtain ⟨e, he⟩ := run_readPending_missing (k := 0) h hrow happlied (Bool.not_eq_true _ ▸ hmissing)
  refine ⟨e, ?_⟩
  rw [pendingSourceRefs, run_bind, run_read]
  dsimp only
  rw [run_bind, he]

/-- The second of a draft that is pending is that of its row. -/
theorem draftedAt_eq (h : p.SameSecond) (happlied : p.isApplied sourceRef = false) {t : Nat}
    (hrow : (t, sourceRef) ∈ p.draftRows) : p.draftedAt sourceRef = t := by
  obtain ⟨r, hr, ⟨document, hkind⟩, rfl, href⟩ := mem_draftRows.mp hrow
  dsimp only at href ⊢
  have hmatch : (decide (r.sourceRef = sourceRef ∧ (r.kind = .draft .memory ∨ r.kind = .draft .self))) = true := by
    cases document with
    | memory => simp [href, hkind]
    | self => simp [href, hkind]
  have hsome : (p.receipts.find? fun r => r.sourceRef = sourceRef ∧
      (r.kind = .draft .memory ∨ r.kind = .draft .self)).isSome = true :=
    List.find?_isSome.mpr ⟨r, hr, hmatch⟩
  obtain ⟨r', hr'⟩ := Option.isSome_iff_exists.mp hsome
  rw [Store.draftedAt, hr']
  have hfound := List.find?_some hr'
  rw [decide_eq_true_eq] at hfound
  have hdraft : ∃ document, r'.kind = .draft document := hfound.2.elim (fun h => ⟨_, h⟩) fun h => ⟨_, h⟩
  exact h sourceRef happlied r' (List.mem_of_find?_eq_some hr') r hr hfound.1 href hdraft ⟨document, hkind⟩

/-- An item of the list and its row. -/
theorem item_row {items : List Pending} (hperm : items.Perm (p.itemsFrom 0 p.draftRows)) {item : Pending}
    (hitem : item ∈ items) : ∃ t, p.draftRows[item.position]? = some (t, item.sourceRef) ∧
      p.isApplied item.sourceRef = false ∧ item = p.item item.position item.sourceRef := by
  obtain ⟨i, ⟨t, sourceRef⟩, hi, happlied, rfl⟩ := mem_itemsFrom.mp (hperm.mem_iff.mp hitem)
  simp only [Nat.zero_add, Store.item]
  exact ⟨t, hi, happlied, trivial⟩

/-- Positions are in the order of the receipts. -/
theorem received_iff (h : p.SameSecond) {items : List Pending}
    (hperm : items.Perm (p.itemsFrom 0 p.draftRows)) {x y : Pending} (hx : x ∈ items) (hy : y ∈ items) :
    p.Received x.sourceRef y.sourceRef ↔ x.position ≤ y.position := by
  obtain ⟨t, ht, hxa, -⟩ := item_row hperm hx
  obtain ⟨u, hu, hya, -⟩ := item_row hperm hy
  have hsorted := List.pairwise_iff_getElem.mp (pairwise_draftRows p)
  have hnodup := nodup_draftRows p
  obtain ⟨hlt, hget⟩ := List.getElem?_eq_some_iff.mp ht
  obtain ⟨hlu, hgetu⟩ := List.getElem?_eq_some_iff.mp hu
  rw [Store.Received, draftedAt_eq h hxa (List.mem_of_getElem? ht), draftedAt_eq h hya (List.mem_of_getElem? hu)]
  constructor
  · intro hle
    by_contra hnot
    have hback := hsorted _ _ hlu hlt (Nat.lt_of_not_le hnot)
    rw [hget, hgetu] at hback
    have heq : (t, x.sourceRef) = (u, y.sourceRef) := RowLe.antisymm hle hback
    rw [heq] at hget
    have hindex := (List.Nodup.getElem_inj_iff hnodup).mp (hget.trans hgetu.symm)
    omega
  · intro hle
    rcases Nat.lt_or_eq_of_le hle with hless | heq
    · have hforth := hsorted _ _ hlt hlu hless
      rw [hget, hgetu] at hforth
      exact hforth
    · have hrow : (t, x.sourceRef) = (u, y.sourceRef) := by
        have hboth := ht.symm.trans ((congrArg (p.draftRows[·]?) heq).trans hu)
        exact Option.some.inj hboth
      obtain ⟨htime, href⟩ := Prod.mk.inj hrow
      exact Or.inr ⟨htime, href.le⟩

/-- Items with one source are one item. -/
theorem item_inj (h : p.SameSecond) {items : List Pending}
    (hperm : items.Perm (p.itemsFrom 0 p.draftRows)) {x y : Pending} (hx : x ∈ items) (hy : y ∈ items)
    (heq : x.sourceRef = y.sourceRef) : x = y := by
  have hself : p.Received x.sourceRef x.sourceRef := Or.inr ⟨rfl, le_refl _⟩
  have hxy : p.Received x.sourceRef y.sourceRef := heq ▸ hself
  have hyx : p.Received y.sourceRef x.sourceRef := heq ▸ hself
  have hle := (received_iff h hperm hx hy).mp hxy
  have hge := (received_iff h hperm hy hx).mp hyx
  obtain ⟨-, -, -, hxi⟩ := item_row hperm hx
  obtain ⟨-, -, -, hyi⟩ := item_row hperm hy
  rw [hxi, hyi, Nat.le_antisymm hle hge, heq]

theorem Greedy.suffix {before after : List Pending} (h : Greedy (before ++ after)) : Greedy after := by
  induction before with
  | nil => exact h
  | cons _ _ ih => exact ih h.2.2

/-- Items that come out greedily are sources in their order. -/
theorem inOrder_of_greedy (h : p.SameSecond) {items : List Pending}
    (hperm : items.Perm (p.itemsFrom 0 p.draftRows)) (hgreedy : Greedy items) :
    p.InOrder (items.map Pending.sourceRef) := by
  intro before x after hout
  obtain ⟨itemsBefore, rest, rfl, -, hrest⟩ := List.map_eq_append_iff.mp hout
  obtain ⟨ix, itemsAfter, rfl, rfl, rfl⟩ := List.map_eq_cons_iff.mp hrest
  obtain ⟨hsession, hearliest, -⟩ := hgreedy.suffix
  have hin {i : Pending} (hi : i ∈ ix :: itemsAfter) : i ∈ itemsBefore ++ ix :: itemsAfter :=
    List.mem_append_right _ hi
  have hfields {i : Pending} (hi : i ∈ ix :: itemsAfter) :
      i.sessionKey = p.session i.sourceRef ∧ i.generation = p.generation i.sourceRef := by
    obtain ⟨-, -, -, hitem⟩ := item_row hperm (hin hi)
    exact ⟨congrArg Pending.sessionKey hitem, congrArg Pending.generation hitem⟩
  have hx := hfields (List.mem_cons_self ..)
  constructor
  · intro y hy hkey
    obtain ⟨iy, hiy, rfl⟩ := List.mem_map.mp hy
    have hy' := hfields (List.mem_cons_of_mem _ hiy)
    rw [← hx.1, ← hy'.1] at hkey
    rw [← hx.2, ← hy'.2]
    rcases hsession iy hiy hkey with hlt | ⟨heq, -⟩
    · exact Nat.le_of_lt hlt
    · exact heq.le
  · intro y hy hleast
    have hy' : y ∈ (ix :: itemsAfter).map Pending.sourceRef := hy
    obtain ⟨iy, hiy, rfl⟩ := List.mem_map.mp hy'
    have hnext : Next (ix :: itemsAfter) iy := by
      intro iz hiz hkey
      rw [(hfields hiz).1, (hfields hiy).1] at hkey
      have hz := hleast iz.sourceRef (List.mem_map_of_mem (f := Pending.sourceRef) hiz) hkey
      rw [← (hfields hiz).2, ← (hfields hiy).2] at hz
      rcases hz with hlt | ⟨heq, hreceived⟩
      · exact Or.inr (Or.inl hlt)
      · have hle := (received_iff h hperm (hin hiy) (hin hiz)).mp hreceived
        rcases Nat.lt_or_eq_of_le hle with hless | hsame
        · exact Or.inr (Or.inr ⟨heq, hless⟩)
        · refine Or.inl (item_inj h hperm (hin hiz) (hin hiy) ?_)
          have hback := (received_iff h hperm (hin hiz) (hin hiy)).mpr hsame.ge
          obtain ⟨t, ht, -, -⟩ := item_row hperm (hin hiy)
          obtain ⟨u, hu, -, -⟩ := item_row hperm (hin hiz)
          rw [hsame, hu] at ht
          exact congrArg Prod.snd (Option.some.inj ht)
    refine (received_iff h hperm (hin (List.mem_cons_self ..)) (hin hiy)).mpr ?_
    rcases List.mem_cons.mp hiy with rfl | hafter
    · exact Nat.le_refl _
    · exact hearliest iy hafter hnext

/-- The list is right exactly when nothing is missing and no source has two seconds. -/
theorem listed_iff (h : c.store.Orders) :
    (∃ out, pendingSourceRefs.run c = (.ok out, c) ∧ c.store.Listed out) ↔
      c.store.Ordered ∧ c.store.SameSecond := by
  constructor
  · rintro ⟨out, hrun, hlisted⟩
    have hordered : c.store.Ordered := by
      by_contra hnot
      obtain ⟨e, he⟩ := run_pendingSourceRefs_raises h hnot
      rw [hrun] at he
      cases he
    refine ⟨hordered, fun sourceRef happlied r hr r' hr' href href' hdraft hdraft' => ?_⟩
    obtain ⟨items, hitems, hperm, -⟩ := run_pendingSourceRefs h hordered
    rw [hrun] at hitems
    have hout : out = items.map Pending.sourceRef := by
      cases hitems
      rfl
    have honce := hlisted.once
    rw [hout] at honce
    -- the rows of the two receipts give two items of one source
    have hrow {r : Receipt} (hr : r ∈ c.store.receipts) (href : r.sourceRef = sourceRef)
        (hdraft : ∃ document, r.kind = .draft document) :
        ∃ i, c.store.draftRows[i]? = some (r.doneAt, sourceRef) ∧ c.store.item i sourceRef ∈ items := by
      have hmem : (r.doneAt, sourceRef) ∈ c.store.draftRows := mem_draftRows.mpr ⟨r, hr, hdraft, rfl, href⟩
      obtain ⟨i, hi⟩ := List.mem_iff_getElem?.mp hmem
      refine ⟨i, hi, hperm.mem_iff.mpr (mem_itemsFrom.mpr ⟨i, _, hi, happlied, ?_⟩)⟩
      rw [Nat.zero_add]
    obtain ⟨i, hi, hitem⟩ := hrow hr href hdraft
    obtain ⟨j, hj, hitem'⟩ := hrow hr' href' hdraft'
    have hsame := List.inj_on_of_nodup_map honce hitem hitem' rfl
    have hij : i = j := congrArg Pending.position hsame
    rw [hij, hj] at hi
    exact (congrArg Prod.fst (Option.some.inj hi)).symm
  · rintro ⟨hordered, hsecond⟩
    obtain ⟨items, hitems, hperm, hgreedy⟩ := run_pendingSourceRefs h hordered
    refine ⟨_, hitems, ?_, fun sourceRef => ?_, inOrder_of_greedy hsecond hperm hgreedy⟩
    · refine List.Nodup.map_on (fun x hx y hy heq => item_inj hsecond hperm hx hy heq) ?_
      refine hperm.nodup_iff.mpr ((pairwise_itemsFrom 0 _).imp fun hlt heq => ?_)
      exact absurd (congrArg Pending.position heq) (Nat.ne_of_lt hlt)
    · rw [List.mem_map]
      constructor
      · rintro ⟨item, hitem, rfl⟩
        obtain ⟨t, ht, happlied, -⟩ := item_row hperm hitem
        obtain ⟨r, hr, hdraft, -, href⟩ := mem_draftRows.mp (List.mem_of_getElem? ht)
        exact ⟨⟨r, hr, href, hdraft⟩, happlied⟩
      · rintro ⟨⟨r, hr, href, hdraft⟩, happlied⟩
        have hmem : (r.doneAt, sourceRef) ∈ c.store.draftRows := mem_draftRows.mpr ⟨r, hr, hdraft, rfl, href⟩
        obtain ⟨i, hi⟩ := List.mem_iff_getElem?.mp hmem
        exact ⟨_, hperm.mem_iff.mpr (mem_itemsFrom.mpr ⟨i, _, hi, happlied, rfl⟩), rfl⟩

end MonoAgent.Profiles
