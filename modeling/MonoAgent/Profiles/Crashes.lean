import MonoAgent.Profiles.Pending

/-!
# Stores that runs lead to

However often `start_store` and `project` run and wherever they die, order receipts are
those of an order (`Ledger`).  Under `strict` a draft receipt comes behind the order receipt of
its source too; all calls keep this but a migration that finds its model receipt alone.
-/

namespace MonoAgent.Profiles

open MonoAgent.Lib MonoAgent.Lib.Exec

variable {digest : String → String} {strict : Prop} {p q : Store} {c : Call} {sourceRef : String}

/-- What every call keeps. -/
structure Ledger (strict : Prop) (p : Store) : Prop where
  orders : p.Orders
  ordered : strict → ∀ sourceRef document, p.has sourceRef (.draft document) = true →
    p.has sourceRef .order = true

/-- What a call leaves of a store. -/
def Grows (strict : Prop) (p q : Store) : Prop := Ledger strict q ∧ p.Keeps q

/-- No draft is begun and the queue stays as it is. -/
def Quiet (p q : Store) : Prop :=
  (∀ sourceRef, q.has sourceRef .model = true → p.has sourceRef .model = true) ∧
    q.migration = p.migration ∧ q.pending = p.pending ∧ q.snapshot = p.snapshot

theorem Grows.trans {r : Store} (h : Grows strict p q) (h' : Grows strict q r) : Grows strict p r :=
  ⟨h'.1, h.2.trans h'.2⟩

theorem Quiet.trans {r : Store} (h : Quiet p q) (h' : Quiet q r) : Quiet p r :=
  ⟨fun ref hr => h.1 ref (h'.1 ref hr), h'.2.1.trans h.2.1, h'.2.2.1.trans h.2.2.1,
    h'.2.2.2.trans h.2.2.2⟩

theorem quiet_refl (p : Store) : Quiet p p := ⟨fun _ h => h, rfl, rfl, rfl⟩

/-- However it ends, a call leaves what it found and perhaps more. -/
def Lasts (strict : Prop) (x : Exec Failure Call Unit) (c : Call) : Prop :=
  Post x c (fun _ t => Grows strict c.store t.store) fun _ t => Grows strict c.store t.store

/-- And it is quiet. -/
def Calm (strict : Prop) (x : Exec Failure Call Unit) (c : Call) : Prop :=
  Post x c (fun _ t => Grows strict c.store t.store ∧ Quiet c.store t.store)
    fun _ t => Grows strict c.store t.store ∧ Quiet c.store t.store

theorem Calm.lasts {x : Exec Failure Call Unit} (h : Calm strict x c) : Lasts strict x c :=
  h.mono (fun _ _ ht => ht.1) fun _ _ ht => ht.1

theorem Calm.from {x : Exec Failure Call Unit} {t : Call} (h : Calm strict x t)
    (hg : Grows strict c.store t.store) (hq : Quiet c.store t.store) :
    Post x t (fun _ u => Grows strict c.store u.store ∧ Quiet c.store u.store)
      fun _ u => Grows strict c.store u.store ∧ Quiet c.store u.store :=
  h.mono (fun _ _ hu => ⟨hg.trans hu.1, hq.trans hu.2⟩) fun _ _ hu => ⟨hg.trans hu.1, hq.trans hu.2⟩

theorem Lasts.from {x : Exec Failure Call Unit} {t : Call} (h : Lasts strict x t)
    (hg : Grows strict c.store t.store) :
    Post x t (fun _ u => Grows strict c.store u.store) fun _ u => Grows strict c.store u.store :=
  h.mono (fun _ _ hu => hg.trans hu) fun _ _ hu => hg.trans hu

theorem Ledger.grows (h : Ledger strict p) : Grows strict p p := ⟨h, Store.Keeps.refl p⟩

theorem calm_pure (h : Ledger strict c.store) : Calm strict (pure ()) c :=
  post_pure ⟨h.grows, quiet_refl _⟩

theorem calm_throw {e : Failure} (h : Ledger strict c.store) : Calm strict (throw e) c :=
  post_throw ⟨h.grows, quiet_refl _⟩

/-! ## Single writes -/

theorem Ledger.insert {kind : Kind} {payload : Doc} (h : Ledger strict p)
    (horder : kind = .order → ∃ o : Order, dump (.dict o.payload) = some payload)
    (hdraft : ∀ document, kind = .draft document → strict → p.has sourceRef .order = true) :
    Ledger strict (p.insert sourceRef kind payload) where
  orders r hr hkind := by
    rcases List.mem_append.mp hr with hr | hr
    · exact h.orders r hr hkind
    · rw [List.mem_singleton.mp hr] at hkind ⊢
      exact horder hkind
  ordered hstrict ref document hhas := by
    rcases Store.has_insert.mp hhas with hold | ⟨rfl, rfl⟩
    · exact Store.has_insert.mpr (Or.inl (h.ordered hstrict ref document hold))
    · exact Store.has_insert.mpr (Or.inl (hdraft document rfl hstrict))

/-- A receipt that is written once is there afterwards. -/
theorem post_once {kind : Kind} {payload : Payload} (h : Ledger strict c.store)
    (horder : kind = .order → ∃ o : Order, payload = o.payload)
    (hdraft : ∀ document, kind = .draft document → strict → c.store.has sourceRef .order = true) :
    Post (writeOnce sourceRef kind payload) c
      (fun _ t => Grows strict c.store t.store ∧ (kind ≠ .model → Quiet c.store t.store) ∧
        t.store.has sourceRef kind = true)
      fun _ t => Grows strict c.store t.store ∧ (kind ≠ .model → Quiet c.store t.store) := by
  rw [writeOnce]
  cases hdump : dump (.dict payload) with
  | none => exact post_throw ⟨h.grows, fun _ => quiet_refl _⟩
  | some encoded =>
      refine post_bind (post_read ?_)
      cases hr : c.store.receipt? sourceRef kind with
      | some stored =>
          refine post_check (fun _ => ⟨h.grows, fun _ => quiet_refl _, ?_⟩)
            fun _ => ⟨h.grows, fun _ => quiet_refl _⟩
          rw [Store.has, hr]
          rfl
      | none =>
          refine post_write (fun now t ht => ?_) ⟨h.grows, fun _ => quiet_refl _⟩
          have hbefore : Ledger strict { c.store with now := now } := ⟨h.orders, h.ordered⟩
          have hinsert : Ledger strict (Store.insert { c.store with now := now } sourceRef kind encoded) :=
            hbefore.insert (fun hkind => by
              obtain ⟨o, rfl⟩ := horder hkind
              exact ⟨o, hdump⟩) hdraft
          rw [ht]
          refine ⟨⟨hinsert, Store.keeps_insert { c.store with now := now } ..⟩, fun hkind => ?_, ?_⟩
          · refine ⟨fun ref hhas => ?_, rfl, rfl, rfl⟩
            rcases (Store.has_insert (p := { c.store with now := now })).mp hhas with hold | ⟨-, heq⟩
            · exact hold
            · exact absurd heq.symm hkind
          · exact (Store.has_insert (p := { c.store with now := now })).mpr (Or.inr ⟨rfl, rfl⟩)

/-- A write that leaves the receipts. -/
theorem post_other {f : Store → Store} (h : Ledger strict c.store)
    (hf : ∀ p, (f p).receipts = p.receipts) :
    Post (write f) c (fun _ t => Grows strict c.store t.store ∧ t.store.receipts = c.store.receipts)
      fun _ t => Grows strict c.store t.store := by
  refine post_write (fun now t ht => ?_) h.grows
  have hreceipts : (f { c.store with now := now }).receipts = c.store.receipts := hf _
  have hreceipt (ref : String) (kind : Kind) :
      (f { c.store with now := now }).receipt? ref kind = c.store.receipt? ref kind := by
    rw [Store.receipt?, hreceipts, Store.receipt?]
  rw [ht]
  refine ⟨⟨⟨?_, fun hstrict ref document => ?_⟩, ?_⟩, hreceipts⟩
  · rw [Store.Orders, hreceipts]
    exact h.orders
  · rw [Store.has, hreceipt, Store.has, hreceipt]
    exact h.ordered hstrict ref document
  · rw [Store.Keeps, hreceipts]

theorem lasts_write {f : Store → Store} (h : Ledger strict c.store)
    (hf : ∀ p, (f p).receipts = p.receipts) : Lasts strict (write f) c :=
  (post_other h hf).mono (fun _ _ ht => ht.1) fun _ _ ht => ht

theorem calm_replace {document : Document} {content : String} (h : Ledger strict c.store) :
    Calm strict (write fun p => p.replace document content) c := by
  refine post_write (fun now t ht => ?_) ⟨h.grows, quiet_refl _⟩
  have hreceipt (ref : String) (kind : Kind) :
      (Store.replace { c.store with now := now } document content).receipt? ref kind =
        c.store.receipt? ref kind := by
    cases document <;> rfl
  rw [ht]
  refine ⟨⟨⟨?_, fun hstrict ref doc => ?_⟩, ?_⟩, fun ref => ?_, ?_, ?_, ?_⟩
  · cases document <;> exact h.orders
  · rw [Store.has, hreceipt, Store.has, hreceipt]
    exact h.ordered hstrict ref doc
  · cases document <;> exact Store.Keeps.refl _
  · rw [Store.has, hreceipt]
    exact id
  · cases document <;> rfl
  · cases document <;> rfl
  · cases document <;> rfl

/-- Reading a receipt changes nothing; what is read is there. -/
theorem post_receipt {kind : Kind} {Q : Option Payload → Call → Prop} {E : Failure → Call → Prop}
    (hq : ∀ payload, (payload.isSome = true → c.store.has sourceRef kind = true) → Q payload c)
    (he : ∀ e, E e c) : Post (readReceipt sourceRef kind) c Q E := by
  have hthere {value : PyValue} (h : (c.store.receipt? sourceRef kind).map load = some value) :
      c.store.has sourceRef kind = true := by
    obtain ⟨doc, hdoc, -⟩ := Option.map_eq_some_iff.mp h
    rw [Store.has, hdoc]
    rfl
  constructor
  · intro a t hr
    rw [run_readReceipt] at hr
    split at hr
    · cases hr
      exact hq _ fun hsome => by cases hsome
    · next hload =>
        cases hr
        exact hq _ fun _ => hthere hload
    · cases hr
  · intro e t hr
    rw [run_readReceipt] at hr
    split at hr
    · cases hr
    · cases hr
    · cases hr
      exact he _

theorem post_requiredString_same {payload : Payload} {name : String} {Q : String → Call → Prop}
    {E : Failure → Call → Prop} (hq : ∀ s, Q s c) (he : ∀ e, E e c) :
    Post (requiredString payload name) c Q E := by
  rw [requiredString]
  split
  · exact post_pure (hq _)
  · exact post_throw (he _)

/-! ## Applying drafts -/

theorem calm_writeDocumentDraft {payload : Payload} {document : Document} (h : Ledger strict c.store)
    (hhas : strict → c.store.has sourceRef .order = true) :
    Calm strict (writeDocumentDraft digest sourceRef payload document) c := by
  have hsame : Grows strict c.store c.store ∧ Quiet c.store c.store := ⟨h.grows, quiet_refl _⟩
  refine post_bind (post_requiredString_same (fun before => ?_) fun _ => hsame)
  refine post_bind (post_requiredString_same (fun after => ?_) fun _ => hsame)
  refine (post_once h (fun hkind => by cases hkind) fun _ _ => hhas).mono ?_ ?_
  · rintro - t ⟨hg, hq, -⟩
    exact ⟨hg, hq (by simp)⟩
  · rintro - t ⟨hg, hq⟩
    exact ⟨hg, hq (by simp)⟩

theorem calm_writeDocumentDrafts {payload : Payload} (h : Ledger strict c.store)
    (hhas : strict → c.store.has sourceRef .order = true) :
    Calm strict (writeDocumentDrafts digest sourceRef payload) c := by
  refine post_bind ((calm_writeDocumentDraft h hhas).mono ?_ fun _ _ ht => ht)
  rintro - t ⟨hg, hq⟩
  exact (calm_writeDocumentDraft hg.1 fun hstrict => hg.2.has (hhas hstrict)).from hg hq

theorem calm_once {kind : Kind} {payload : Payload} (h : Ledger strict c.store) (hmodel : kind ≠ .model)
    (horder : kind ≠ .order) (hdraft : ∀ document, kind ≠ .draft document) :
    Calm strict (writeOnce sourceRef kind payload) c := by
  refine (post_once h (fun hkind => absurd hkind horder) fun document hkind => absurd hkind (hdraft document)).mono
    ?_ ?_
  · rintro - t ⟨hg, hq, -⟩
    exact ⟨hg, hq hmodel⟩
  · rintro - t ⟨hg, hq⟩
    exact ⟨hg, hq hmodel⟩

theorem calm_installDocument {document : Document} {draft : Payload} (h : Ledger strict c.store) :
    Calm strict (installDocument digest sourceRef document draft) c := by
  have hsame : Grows strict c.store c.store ∧ Quiet c.store c.store := ⟨h.grows, quiet_refl _⟩
  refine post_bind (post_requiredString_same (fun before => ?_) fun _ => hsame)
  refine post_bind (post_requiredString_same (fun after => ?_) fun _ => hsame)
  refine post_bind (post_requiredString_same (fun beforeDigest => ?_) fun _ => hsame)
  refine post_bind (post_requiredString_same (fun afterDigest => ?_) fun _ => hsame)
  refine post_bind (post_check (fun _ => ?_) fun _ => hsame)
  refine post_bind (post_read ?_)
  refine post_bind (post_check (fun _ => ?_) fun _ => hsame)
  have hbackup : Calm strict (backup digest document before sourceRef) c :=
    calm_once h (by simp) (by simp) (by simp)
  refine post_bind (hbackup.mono ?_ fun _ _ ht => ht)
  rintro - t ⟨hg, hq⟩
  have happlied {u : Call} (hu : Grows strict c.store u.store) (hquiet : Quiet c.store u.store) :
      Post (writeOnce sourceRef (.applied document) [(.str "digest", .str afterDigest)]) u
        (fun _ t => Grows strict c.store t.store ∧ Quiet c.store t.store)
        fun _ t => Grows strict c.store t.store ∧ Quiet c.store t.store :=
    (calm_once hu.1 (by simp) (by simp) (by simp)).from hu hquiet
  dsimp only
  split
  · refine post_bind (((calm_replace hg.1).from hg hq).mono ?_ fun _ _ ht => ht)
    rintro - u ⟨hu, hquiet⟩
    exact happlied hu hquiet
  · exact happlied hg hq

theorem calm_applyDocument {document : Document} (h : Ledger strict c.store) :
    Calm strict (applyDocument digest sourceRef document) c := by
  have hsame : Grows strict c.store c.store ∧ Quiet c.store c.store := ⟨h.grows, quiet_refl _⟩
  refine post_bind (post_receipt (fun applied _ => ?_) fun _ => hsame)
  split
  · refine post_bind (post_receipt (fun draft _ => ?_) fun _ => hsame)
    split
    · exact calm_throw h
    · exact calm_installDocument h
  · exact calm_pure h

theorem calm_applyPending (h : Ledger strict c.store) (hhas : strict → c.store.has sourceRef .order = true) :
    Calm strict (applyPending digest sourceRef) c := by
  have hsame : Grows strict c.store c.store ∧ Quiet c.store c.store := ⟨h.grows, quiet_refl _⟩
  refine post_bind (post_receipt (fun draft _ => ?_) fun _ => hsame)
  split
  · exact calm_throw h
  · refine post_bind ((calm_writeDocumentDrafts h hhas).mono ?_ fun _ _ ht => ht)
    rintro - t ⟨hg, hq⟩
    refine post_bind (((calm_applyDocument hg.1).from hg hq).mono ?_ fun _ _ ht => ht)
    rintro - u ⟨hgu, hqu⟩
    exact (calm_applyDocument hgu.1).from hgu hqu

theorem calm_applyDraft {payload : Payload} (h : Ledger strict c.store)
    (hhas : strict → c.store.has sourceRef .order = true) :
    Calm strict (applyDraft digest sourceRef payload) c := by
  refine post_bind ((calm_writeDocumentDrafts h hhas).mono ?_ fun _ _ ht => ht)
  rintro - t ⟨hg, hq⟩
  exact (calm_applyPending hg.1 fun hstrict => hg.2.has (hhas hstrict)).from hg hq

end MonoAgent.Profiles
