import MonoAgent.Profiles.Crashes

/-!
# Runs of `start_store` and `project`

`profileMachine` runs both calls as often as one likes and lets them die anywhere.  The drafts
that are pending afterwards are listed as they should be exactly when their order receipts are
there and their drafts are of one second (`pending_listed`).
-/

namespace MonoAgent.Profiles

open MonoAgent.Lib MonoAgent.Lib.Exec

variable {digest : String → String} {strict : Prop} {p q : Store} {c : Call} {sourceRef : String}
  {x : Exec Failure Call Unit}

/-! ## Recovery -/

theorem post_pendingSourceRefs (h : Ledger strict c.store) :
    Post pendingSourceRefs c (fun out t => t = c ∧ ∀ ref ∈ out, c.store.Drafted ref) fun _ t => t = c := by
  by_cases hordered : c.store.Ordered
  · obtain ⟨items, hrun, hperm, -⟩ := run_pendingSourceRefs h.orders hordered
    constructor
    · intro out t hr
      rw [hrun] at hr
      cases hr
      refine ⟨rfl, fun ref href => ?_⟩
      obtain ⟨item, hitem, rfl⟩ := List.mem_map.mp href
      obtain ⟨t, ht, -, -⟩ := item_row hperm hitem
      obtain ⟨r, hr, hdraft, -, href⟩ := mem_draftRows.mp (List.mem_of_getElem? ht)
      exact ⟨r, hr, href, hdraft⟩
    · intro e t hr
      rw [hrun] at hr
      cases hr
  · obtain ⟨e, hrun⟩ := run_pendingSourceRefs_raises h.orders hordered
    constructor
    · intro out t hr
      rw [hrun] at hr
      cases hr
    · intro e' t hr
      rw [hrun] at hr
      cases hr
      rfl

theorem Ledger.order_of_drafted (h : Ledger strict p) (hstrict : strict) (hdrafted : p.Drafted sourceRef) :
    p.has sourceRef .order = true := by
  obtain ⟨r, hr, href, document, hkind⟩ := hdrafted
  exact h.ordered hstrict sourceRef document (Store.has_iff.mpr ⟨r, hr, href, hkind⟩)

theorem calm_recover (h : Ledger strict c.store) : Calm strict (recover digest) c := by
  refine post_bind ((post_pendingSourceRefs h).mono ?_ ?_)
  · rintro sources t ⟨rfl, hdrafted⟩
    have hstep (ref : String) (rest : List String) (u : Call) (href : ref ∈ sources)
        (hu : Grows strict t.store u.store ∧ Quiet t.store u.store) :
        Post (applyPending digest ref) u
          (fun _ v => Grows strict t.store v.store ∧ Quiet t.store v.store)
          fun _ v => Grows strict t.store v.store ∧ Quiet t.store v.store :=
      (calm_applyPending hu.1.1 fun hstrict =>
        hu.1.2.has (h.order_of_drafted hstrict (hdrafted ref href))).from hu.1 hu.2
    exact post_forM (I := fun _ (u : Call) => Grows strict t.store u.store ∧ Quiet t.store u.store)
      ⟨h.grows, quiet_refl _⟩ hstep
  · rintro e t rfl
    exact ⟨h.grows, quiet_refl _⟩

/-! ## New drafts -/

theorem post_writeDraft {payload : Payload} {order : Order} (h : Ledger strict c.store) :
    Post (writeDraft digest sourceRef payload order) c
      (fun _ t => Grows strict c.store t.store ∧ t.store.has sourceRef .order = true)
      fun _ t => Grows strict c.store t.store := by
  have hmodel : Post (writeOnce sourceRef .model payload) c
      (fun _ t => Grows strict c.store t.store ∧ (Kind.model ≠ .model → Quiet c.store t.store) ∧
        t.store.has sourceRef .model = true)
      fun _ t => Grows strict c.store t.store ∧ (Kind.model ≠ .model → Quiet c.store t.store) :=
    post_once h (fun hkind => by cases hkind) fun document hkind => by cases hkind
  refine post_bind (hmodel.mono ?_ fun _ _ ht => ht.1)
  rintro - t ⟨hg, -, -⟩
  have horder : Post (writeOnce sourceRef .order order.payload) t
      (fun _ u => Grows strict t.store u.store ∧ (Kind.order ≠ .model → Quiet t.store u.store) ∧
        u.store.has sourceRef .order = true)
      fun _ u => Grows strict t.store u.store ∧ (Kind.order ≠ .model → Quiet t.store u.store) :=
    post_once hg.1 (fun _ => ⟨order, rfl⟩) fun document hkind => by cases hkind
  refine post_bind (horder.mono ?_ fun _ _ hu => hg.trans hu.1)
  rintro - u ⟨hgu, -, hhas⟩
  have hgrows := hg.trans hgu
  refine (calm_writeDocumentDrafts hgu.1 fun _ => hhas).mono ?_ fun _ _ hv => hgrows.trans hv.1
  rintro - v ⟨hgv, -⟩
  exact ⟨hgrows.trans hgv, hgv.2.has hhas⟩

theorem post_raise {α : Type} {x : Except DraftError α} {Q : α → Call → Prop} {E : Failure → Call → Prop}
    (hq : ∀ a, x = .ok a → Q a c) (he : ∀ e, E e c) : Post (raise x) c Q E := by
  refine post_liftExcept (fun a ha => ?_) fun e _ => he e
  cases x with
  | ok b =>
      cases ha
      exact hq _ rfl
  | error e => cases ha

theorem lasts_project (a : Projection) (h : Ledger strict c.store) : Lasts strict (project digest a) c := by
  refine post_bind ((calm_recover h).mono ?_ fun _ _ ht => ht.1)
  rintro - t ⟨hg, -⟩
  refine post_bind (post_read ?_)
  refine post_bind (post_read ?_)
  refine post_bind (post_read ?_)
  split
  · exact post_pure hg
  · refine post_bind (post_receipt (fun stored _ => ?_) fun _ => hg)
    split
    · exact post_pure hg
    · have hrest (payload : Payload) : Post (do
            raise (checkVersion payload a.sources)
            writeDraft digest a.sourceRef payload a.order
            raise (checkPayload payload)
            applyDraft digest a.sourceRef payload) t
          (fun _ u => Grows strict c.store u.store) fun _ u => Grows strict c.store u.store := by
        refine post_bind (post_raise (fun _ _ => ?_) fun _ => hg)
        refine post_bind ((post_writeDraft hg.1).mono ?_ fun _ _ hv => hg.trans hv)
        rintro - v ⟨hgv, hhas⟩
        have hgrows := hg.trans hgv
        refine post_bind (post_raise (fun _ _ => ?_) fun _ => hgrows)
        exact (calm_applyDraft hgv.1 fun _ => hhas).lasts.from hgrows
      cases stored with
      | some payload => exact hrest payload
      | none => exact post_bind (post_raise (fun draft _ => hrest _) fun _ => hg)

/-! ## The retired queue -/

theorem lasts_migrateDraft {m : String × String} (h : Ledger strict c.store)
    (hsound : strict → c.store.has (legacyRef digest m) .model = true →
      c.store.has (legacyRef digest m) .order = true) :
    Lasts strict (migrateDraft digest m) c := by
  refine post_bind (post_read ?_)
  split
  · exact post_pure h.grows
  · refine post_bind (post_receipt (fun stored hstored => ?_) fun _ => h.grows)
    have hrest {t : Call} (payload : Payload) (hg : Grows strict c.store t.store)
        (hhas : strict → t.store.has (legacyRef digest m) .order = true) : Post (do
          raise (checkPayload payload)
          applyDraft digest (legacyRef digest m) payload) t
        (fun _ u => Grows strict c.store u.store) fun _ u => Grows strict c.store u.store :=
      post_bind (post_raise (fun _ _ => (calm_applyDraft hg.1 hhas).lasts.from hg) fun _ => hg)
    cases stored with
    | some payload => exact hrest payload h.grows fun hstrict => hsound hstrict (hstored rfl)
    | none =>
        refine post_bind (post_read ?_)
        refine post_bind (post_read ?_)
        refine post_bind (post_raise (fun draft _ => ?_) fun _ => h.grows)
        refine post_bind ((post_writeDraft h).mono ?_ fun _ _ ht => ht)
        rintro - t ⟨hg, hhas⟩
        exact hrest _ hg fun _ => hhas

theorem lasts_retireQueue {m : String × String} (h : Ledger strict c.store) :
    Lasts strict (retireQueue digest m) c := by
  have hg := h.grows
  refine post_bind (post_read ?_)
  refine post_bind (post_check (fun _ => ?_) fun _ => hg)
  refine post_bind (post_read ?_)
  refine post_bind (post_read ?_)
  refine post_bind (post_check (fun _ => ?_) fun _ => hg)
  refine post_bind (post_check (fun _ => ?_) fun _ => hg)
  have hretired := lasts_write (f := fun p => { p with retired := some (archiveText digest m) }) h fun _ => rfl
  refine post_bind (hretired.mono (fun _ t ht => ?_) fun _ _ ht => ht)
  have hpending := lasts_write (f := fun p => { p with pending := some "" }) ht.1 fun _ => rfl
  refine post_bind ((hpending.from ht).mono (fun _ u hu => ?_) fun _ _ hu => hu)
  have hsnapshot := lasts_write (f := fun p => { p with snapshot := some "" }) hu.1 fun _ => rfl
  refine post_bind ((hsnapshot.from hu).mono (fun _ v hv => ?_) fun _ _ hv => hv)
  refine post_bind (post_read ?_)
  have hretirement := lasts_write (f := fun p => { p with retirement := some (legacyRef digest m) }) hv.1
    fun _ => rfl
  split
  · exact post_check (fun _ => hv) fun _ => hv
  · exact hretirement.from hv

/-- The queue that a start finds: that of the receipt, or the files. -/
def Store.queue (p : Store) : String × String :=
  p.migration.getD ((p.pending.map translate).getD "", (p.snapshot.map translate).getD "")

/-- The model receipt of the queue does not stand alone. -/
def Store.Sound (digest : String → String) (p : Store) : Prop :=
  p.has (legacyRef digest p.queue) .model = true → p.has (legacyRef digest p.queue) .order = true

theorem Quiet.queue (h : Quiet p q) : q.queue = p.queue := by
  rw [Store.queue, Store.queue, h.2.1, h.2.2.1, h.2.2.2]

theorem lasts_migratePending (h : Ledger strict c.store) (hsound : strict → c.store.Sound digest) :
    Lasts strict (migratePending digest) c := by
  have hfinish {t : Call} (m : String × String) (hg : Grows strict c.store t.store)
      (hm : strict → t.store.has (legacyRef digest m) .model = true →
        t.store.has (legacyRef digest m) .order = true) : Post (do
          migrateDraft digest m
          retireQueue digest m) t
        (fun _ u => Grows strict c.store u.store) fun _ u => Grows strict c.store u.store := by
    refine post_bind (((lasts_migrateDraft hg.1 hm).from hg).mono (fun _ u hu => ?_) fun _ _ hu => hu)
    exact (lasts_retireQueue hu.1).from hu
  refine post_bind (post_read ?_)
  cases hmigration : c.store.migration with
  | some m =>
      have hqueue : c.store.queue = m := by rw [Store.queue, hmigration, Option.getD_some]
      rw [Store.Sound, hqueue] at hsound
      exact hfinish m h.grows hsound
  | none =>
      have hqueue : c.store.queue =
          ((c.store.pending.map translate).getD "", (c.store.snapshot.map translate).getD "") := by
        rw [Store.queue, hmigration, Option.getD_none]
      have hwrite := post_other (f := fun p => { p with migration := some c.store.queue }) h fun _ => rfl
      rw [hqueue] at hwrite
      refine post_bind (post_read ?_)
      refine post_bind (post_read ?_)
      split
      · exact post_pure h.grows
      · refine post_bind (hwrite.mono ?_ fun _ _ ht => ht)
        rintro - t ⟨hg, hreceipts⟩
        rw [Store.Sound, hqueue] at hsound
        refine hfinish _ hg fun hstrict => ?_
        rw [Store.has, Store.receipt?, hreceipts, Store.has, Store.receipt?, hreceipts]
        exact hsound hstrict

theorem lasts_startStore (h : Ledger strict c.store) (hsound : strict → c.store.Sound digest) :
    Lasts strict (startStore digest) c := by
  refine post_bind ((calm_recover h).mono ?_ fun _ _ ht => ht.1)
  rintro - t ⟨hg, hquiet⟩
  refine (lasts_migratePending hg.1 fun hstrict hmodel => ?_).from hg
  rw [hquiet.queue] at hmodel ⊢
  exact hg.2.has (hsound hstrict (hquiet.1 _ hmodel))

/-! ## Runs -/

/-- A call, the writes it makes before the process dies and the seconds of its writes. -/
inductive ProfileAction where
  | start (crash : Option Nat) (clock : List Nat)
  | project (projection : Projection) (crash : Option Nat) (clock : List Nat)

/-- A store at first has no receipts; the files are those of an earlier version. -/
def profileMachine (digest : String → String) : Machine Store ProfileAction where
  start p := p.receipts = [] ∧ p.migration = none ∧ p.retirement = none
  next p
    | .start crash clock => some ((startStore digest).run { store := p, crash, clock }).2.store
    | .project projection crash clock =>
        some ((project digest projection).run { store := p, crash, clock }).2.store

/-- No start finds the migration stopped between its model receipt and its order receipt. -/
def SoundStart (digest : String → String) (p : Store) : ProfileAction → Prop
  | .start .. => p.Sound digest
  | .project .. => True

theorem Lasts.end (h : Lasts strict x c) : Grows strict c.store (x.run c).2.store := by
  rcases h.cases with ⟨a, t, hrun, ht⟩ | ⟨e, t, hrun, ht⟩
  · rw [hrun]
    exact ht
  · rw [hrun]
    exact ht

theorem ledger_step {a : ProfileAction} (h : Ledger strict p) (hsound : strict → SoundStart digest p a)
    (hn : (profileMachine digest).next p a = some q) : Ledger strict q := by
  cases a with
  | start crash clock =>
      cases hn
      have hlasts : Lasts strict (startStore digest) { store := p, crash, clock } := lasts_startStore h hsound
      exact hlasts.end.1
  | project projection crash clock =>
      cases hn
      have hlasts : Lasts strict (project digest projection) { store := p, crash, clock } := lasts_project projection h
      exact hlasts.end.1

theorem ledger_start (h : (profileMachine digest).start p) : Ledger strict p where
  orders r hr := by
    rw [h.1] at hr
    cases hr
  ordered _ ref document hhas := by
    rw [Store.has, Store.receipt?, h.1] at hhas
    cases hhas

theorem ledger_reachable (h : (profileMachine digest).Reachable p) : Ledger False p :=
  h.invariant (fun _ hs => ledger_start hs) fun _ _ _ hi _ hn => ledger_step hi False.elim hn

theorem ledger_reach (h : (profileMachine digest).Reach (SoundStart digest) p) : Ledger True p :=
  h.invariant (fun _ hs => ledger_start hs) fun _ _ _ hi hsound hn => ledger_step hi (fun _ => hsound) hn

theorem ordered_of_reach (h : (profileMachine digest).Reach (SoundStart digest) p) : p.Ordered :=
  fun _ hdrafted _ => (ledger_reach h).order_of_drafted trivial hdrafted

/-- The list is right exactly when no order receipt is missing and the drafts of a source are of
one second; order receipts are there in every run whose starts are sound. -/
theorem pending_listed (h : (profileMachine digest).Reachable c.store) :
    ((∃ out, pendingSourceRefs.run c = (.ok out, c) ∧ c.store.Listed out) ↔
      c.store.Ordered ∧ c.store.SameSecond) ∧
    ((profileMachine digest).Reach (SoundStart digest) c.store → c.store.Ordered) :=
  ⟨listed_iff (ledger_reachable h).orders, ordered_of_reach⟩

/-- A store of an earlier version with a queue. -/
def exampleStore : Store where
  memory := ""
  self := "# Akashic 的自我认知\n## 人格与形象\n- a\n## 我对当前用户的理解\n- b\n## 我们关系的定义\n- c\n"
  pending := some "x"

/-- The projection of a summary that teaches nothing. -/
def exampleProjection : Projection := ⟨"s", ⟨"k", 1, by decide⟩, [⟨[⟨"m", true⟩], []⟩], [⟨"m", true⟩]⟩

theorem exampleStore_start : (profileMachine id).start exampleStore := ⟨rfl, rfl, rfl⟩

/-- A call that finds the store after some others. -/
def exampleCall (actions : List ProfileAction) : Call where
  store := ((profileMachine id).run exampleStore actions).getD exampleStore

theorem exampleCall_reach {ok : Store → ProfileAction → Prop} {actions : List ProfileAction}
    (hok : ∀ a ∈ actions, ∀ p, ok p a) (h : ((profileMachine id).run exampleStore actions).isSome = true) :
    (profileMachine id).Reach ok (exampleCall actions).store :=
  Machine.reach_getD exampleStore_start hok h

theorem exampleCall_reachable {actions : List ProfileAction}
    (h : ((profileMachine id).run exampleStore actions).isSome = true) :
    (profileMachine id).Reachable (exampleCall actions).store :=
  exampleCall_reach (fun _ _ _ => trivial) h

/-- A projection that dies behind its two drafts. -/
def once : Call := exampleCall [.project exampleProjection (some 4) []]

/-- The source has its order and its drafts, all of one second. -/
theorem once_receipts : once.store.receipts.map (fun r => (r.sourceRef, r.kind, r.doneAt)) =
    [("s", .model, 0), ("s", .order, 0), ("s", .draft .memory, 0), ("s", .draft .self, 0)] := by
  decide +kernel

theorem pending_listed_once : once.store.Ordered ∧ once.store.SameSecond ∧ once.store.Listed ["s"] ∧
    pendingSourceRefs.run once = (.ok ["s"], once) := by
  have hreach : (profileMachine id).Reach (SoundStart id) once.store := by
    refine exampleCall_reach (fun a ha p => ?_) (by decide +kernel)
    obtain rfl := List.mem_singleton.mp ha
    exact trivial
  obtain ⟨hlisted, hordered⟩ := pending_listed (hreach.mono fun _ _ _ => trivial)
  have hrow (r : Receipt) (hr : r ∈ once.store.receipts) : r.sourceRef = "s" ∧ r.doneAt = 0 ∧
      ∀ document, r.kind ≠ .applied document := by
    have hmem := List.mem_map_of_mem (f := fun r : Receipt => (r.sourceRef, r.kind, r.doneAt)) hr
    simp only [once_receipts, List.mem_cons, List.not_mem_nil, or_false, Prod.mk.injEq] at hmem
    rcases hmem with ⟨hs, hk, ht⟩ | ⟨hs, hk, ht⟩ | ⟨hs, hk, ht⟩ | ⟨hs, hk, ht⟩ <;>
      exact ⟨hs, ht, fun _ heq => by cases hk.symm.trans heq⟩
  have hsecond : once.store.SameSecond := fun _ _ r hr r' hr' _ _ _ _ =>
    (hrow r hr).2.1.trans (hrow r' hr').2.1.symm
  obtain ⟨out, hrun, hout⟩ := hlisted.mpr ⟨hordered hreach, hsecond⟩
  have honly (x : String) (hx : x ∈ out) : x = "s" := by
    obtain ⟨⟨r, hr, rfl, -⟩, -⟩ := (hout.mem x).mp hx
    exact (hrow r hr).1
  have happlied : once.store.isApplied "s" = false := by
    have hnone : once.store.receipt? "s" (.applied .memory) = none := by
      rw [Store.receipt?, Option.map_eq_none_iff, List.find?_eq_none]
      intro r hr hcond
      exact (hrow r hr).2.2 .memory (of_decide_eq_true hcond).2
    rw [Store.isApplied, hnone]
    rfl
  have hdrafted : once.store.Drafted "s" := by
    have hmem : ("s", Kind.draft .memory, 0) ∈ once.store.receipts.map fun r => (r.sourceRef, r.kind, r.doneAt) := by
      rw [once_receipts]
      decide
    obtain ⟨r, hr, heq⟩ := List.mem_map.mp hmem
    obtain ⟨hs, hkind⟩ := Prod.mk.inj heq
    exact ⟨r, hr, hs, .memory, (Prod.mk.inj hkind).1⟩
  have hin : "s" ∈ out := (hout.mem "s").mpr ⟨hdrafted, happlied⟩
  have heq : out = ["s"] := by
    refine List.perm_singleton.mp ((List.perm_ext_iff_of_nodup hout.once (List.nodup_singleton _)).mpr fun x => ?_)
    rw [List.mem_singleton]
    exact ⟨honly x, fun hx => hx ▸ hin⟩
  subst heq
  exact ⟨hordered hreach, hsecond, hout, hrun⟩

/-- The same with drafts of different seconds. -/
def twice : Call := exampleCall [.project exampleProjection (some 4) [0, 0, 0, 1]]

/-- A migration that dies behind its model receipt, and again behind its drafts. -/
def lost : Call := exampleCall [.start (some 2) [], .start (some 2) []]

/-- A source comes twice; nothing is listed. -/
theorem pending_astray :
    ((profileMachine id).Reachable twice.store ∧
      ¬ ∃ out, pendingSourceRefs.run twice = (.ok out, twice) ∧ twice.store.Listed out) ∧
    (profileMachine id).Reachable lost.store ∧
      ¬ ∃ out, pendingSourceRefs.run lost = (.ok out, lost) ∧ lost.store.Listed out := by
  refine ⟨⟨exampleCall_reachable (by decide +kernel), ?_⟩, exampleCall_reachable (by decide +kernel), ?_⟩
  · rintro ⟨out, hrun, hlisted⟩
    have htwice : (pendingSourceRefs.run twice).1.toOption = some ["s", "s"] := by decide +kernel
    rw [hrun] at htwice
    have honce := hlisted.once
    rw [Option.some.inj htwice] at honce
    simp at honce
  · rintro ⟨out, hrun, -⟩
    have hnone : (pendingSourceRefs.run lost).1.toOption = none := by decide +kernel
    rw [hrun] at hnone
    cases hnone

end MonoAgent.Profiles
