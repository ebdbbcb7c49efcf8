import Mathlib
import MonoAgent.Snapshots.Drains

/-!
# Waiters of the store

An operation that opens a snapshot notifies the waiters, at once or by the drain that it
waits for.  Two operations can end without it: `commit`, when its `after_open` raises, and
`abort`, when it is cancelled before the drain has begun.
-/

namespace MonoAgent.Snapshots

open MonoAgent.Lib

variable {r s t : Store} {i j n : Nat} {tx : Transaction} {target : Target}

/-- The call would get its lease. -/
def Store.Admits (s : Store) (target : Target) : Prop := ∃ i, s.select target = some i ∧ s.admission target i = .open

/-- A drain is under way, and notifies when it ends. -/
def Store.Drains (s : Store) : Prop := ∃ k ∈ s.tasks, k.stage.live = true

/-- No waiter sleeps that would get its lease, unless a drain is to wake it. -/
def Awake (s : Store) : Prop := ∀ w ∈ s.waiters, w.notified = false → s.Admits w.target → s.Drains

def Notified (s : Store) : Prop := ∀ w ∈ s.waiters, w.notified = true

theorem notified_notifyAll : Notified s.notifyAll := by
  intro w hw
  obtain ⟨_, _, rfl⟩ := List.mem_map.mp hw
  rfl

theorem Notified.awake (h : Notified s) : Awake s := fun w hw hn => absurd ((h w hw).symm.trans hn) nofun

/-- Nothing is opened, and the drains stay. -/
structure Quiet (s t : Store) : Prop where
  waiters : ∀ w ∈ t.waiters, w ∈ s.waiters
  admits : ∀ target, t.Admits target → s.Admits target
  drains : s.Drains → t.Drains

theorem Quiet.refl : Quiet s s := ⟨fun _ => id, fun _ => id, id⟩

theorem Quiet.trans (h : Quiet r s) (h' : Quiet s t) : Quiet r t :=
  ⟨fun w hw => h.waiters w (h'.waiters w hw), fun target ht => h.admits target (h'.admits target ht),
    fun hd => h'.drains (h.drains hd)⟩

theorem Awake.quiet (h : Awake s) (hq : Quiet s t) : Awake t :=
  fun w hw hn ha => hq.drains (h w (hq.waiters w hw) hn (hq.admits w.target ha))

/-- What a snapshot is selected by. -/
structure Named (s t : Store) : Prop where
  current : t.current = s.current
  latest : t.latest = s.latest
  retained : t.retained = s.retained
  snapshot : ∀ i, (t.heap i).id = (s.heap i).id ∧ (t.heap i).root = (s.heap i).root ∧ (t.heap i).phase = (s.heap i).phase

theorem Named.of_heap (hheap : t.heap = s.heap) (hc : t.current = s.current) (hl : t.latest = s.latest)
    (hr : t.retained = s.retained) : Named s t :=
  ⟨hc, hl, hr, fun i => by rw [hheap]; exact ⟨rfl, rfl, rfl⟩⟩

theorem Named.select (h : Named s t) : t.select target = s.select target := by
  cases target with
  | stable => exact h.current
  | latest => exact congrArg₂ Option.or h.latest h.current
  | id id => simp only [Store.select, h.retained, (h.snapshot _).1]
  | root root => simp only [Store.select, h.retained, (h.snapshot _).2.1, (h.snapshot _).2.2]

theorem Named.admits (h : Named s t) (ha : ∀ i, (t.heap i).accepting = true → (s.heap i).accepting = true)
    (ht : t.Admits target) : s.Admits target := by
  obtain ⟨i, hi, hopen⟩ := ht
  refine ⟨i, h.select ▸ hi, ?_⟩
  obtain ⟨hphase, hacc⟩ := admission_open hopen
  rw [(h.snapshot i).2.2] at hphase
  cases target with
  | root root =>
      have hcur : s.current = some i := by
        rw [Store.admission] at hopen
        split at hopen
        · next hc => exact h.current ▸ hc.1
        · cases hopen
      rw [Store.admission, if_pos ⟨hcur, hphase, ha i hacc⟩]
  | _ =>
      rw [Store.admission, if_neg (not_not.mpr hphase), if_pos (ha i hacc)]
      simp

theorem Quiet.of_heap (hheap : t.heap = s.heap) (hc : t.current = s.current) (hl : t.latest = s.latest)
    (hr : t.retained = s.retained) (hw : ∀ w ∈ t.waiters, w ∈ s.waiters) (hd : s.Drains → t.Drains) : Quiet s t :=
  ⟨hw, fun _ => (Named.of_heap hheap hc hl hr).admits fun i hi => by rwa [hheap] at hi, hd⟩

theorem quiet_accept {i : Option Nat} : Quiet s (s.accept i false) := by
  cases i with
  | none => exact .refl
  | some i =>
      have hheap (j : Nat) : (s.accept (some i) false).heap j = if j = i then { s.heap i with accepting := false } else s.heap j :=
        modify_heap (f := .accept false)
      refine ⟨fun _ => id, fun _ => Named.admits ⟨rfl, rfl, rfl, fun j => ?_⟩ fun j hj => ?_, id⟩
      · rw [hheap]
        split
        · next heq =>
            rw [heq]
            exact ⟨rfl, rfl, rfl⟩
        · exact ⟨rfl, rfl, rfl⟩
      · rw [hheap] at hj
        split at hj
        · cases hj
        · exact hj

theorem quiet_addLeases {f : Nat → Nat} : Quiet s (s.addLeases i f) := by
  refine ⟨fun _ => id, fun _ => Named.admits ⟨rfl, rfl, rfl, fun j => ?_⟩ fun j hj => ?_, id⟩
  · rw [addLeases_heap]
    split
    · next heq =>
        rw [heq]
        exact ⟨rfl, rfl, rfl⟩
    · exact ⟨rfl, rfl, rfl⟩
  · rw [addLeases_heap] at hj
    split at hj
    · next heq => exact heq ▸ hj
    · exact hj

theorem quiet_claimLease : Quiet s (s.claimLease i) := by
  have h : Quiet s (s.addLeases i (· + 1)) := quiet_addLeases
  exact ⟨h.waiters, h.admits, h.drains⟩

theorem quiet_scheduleDrain : Quiet s (s.scheduleDrain i) := by
  rw [Store.scheduleDrain]
  split
  · exact .refl
  · split
    · exact .refl
    · refine .of_heap rfl rfl rfl rfl (fun _ => id) fun hlives => ?_
      obtain ⟨k, hk, hlive⟩ := hlives
      exact ⟨k, List.mem_append_left _ hk, hlive⟩

theorem Settles.quiet (h : Settles s t) : Notified t ∨ Quiet s t := by
  induction h with
  | refl => exact Or.inr .refl
  | schedule i h ih =>
      refine ih.imp (fun hn w hw => hn w ?_) fun hq => hq.trans quiet_scheduleDrain
      exact (quiet_scheduleDrain (i := i)).waiters w hw
  | notify h ih => exact Or.inl notified_notifyAll
  | waits ws h ih =>
      exact ih.imp id fun hq => hq.trans (.of_heap rfl rfl rfl rfl (fun _ => id) id)

theorem Awake.settles (h : Awake s) (hs : Settles s t) : Awake t :=
  hs.quiet.elim Notified.awake h.quiet

theorem Awake.claims (h : Awake s) (hs : t = s ∨ ∃ i, Leasable s i ∧ t = s.claimLease i) : Awake t := by
  rcases hs with rfl | ⟨i, _, rfl⟩
  · exact h
  · exact h.quiet quiet_claimLease

theorem Awake.acquire (h : Awake s) (hp : PointerInv s) : Awake (s.acquire target) := by
  rcases acquire_cases (t := target) hp with heq | hclaims | ⟨heq, i, hi, hwaits⟩
  · exact h.claims (Or.inl heq)
  · exact h.claims (Or.inr hclaims)
  · rw [heq]
    intro w hw hn ha
    rcases List.mem_append.mp hw with hw | hw
    · exact h w hw hn ha
    · obtain ⟨j, hj, hopen⟩ := ha
      rw [List.mem_singleton.mp hw] at hj hopen
      cases hi.symm.trans hj
      exact absurd (hwaits.symm.trans hopen) nofun

/-- The end of an abort: a drain is under way, or the waiters are notified. -/
theorem DrainInv.aborts (h : DrainInv s) (hret : i ∈ s.retained) (hclosed : (s.heap i).phase.closed = true)
    {call : Call} : Awake ((s.scheduleDrain i).await call [i] fun s => s.aborted i) := by
  have hready {t : Store} (ht : t.Drains) : Awake (t.await call [i] fun s => s.aborted i) := by
    refine fun w _ _ _ => ?_
    rw [Store.await]
    split
    · rw [Store.aborted]
      split
      · exact ht
      · exact ht
    · exact ht
  rw [Store.scheduleDrain]
  split
  · next hno =>
      have hleased : (s.heap i).leases ≠ 0 := by
        rcases hno with hno | hno | hno
        · exact absurd hret hno
        · exact absurd (hno.symm.trans hclosed) (by simp)
        · exact hno
      have hnone : ¬ ∃ k ∈ s.tasks, k.snapshot = i := by
        rintro ⟨k, hk, rfl⟩
        exact hleased (h.closed k hk).2
      have hdrain : s.drains i = none := not_not.mp fun hne => hnone (h.slot i (Or.inl hne))
      have hfail : s.failures i = false := by
        cases hf : s.failures i with
        | false => rfl
        | true => exact absurd (h.slot i (Or.inr hf)) hnone
      rw [Store.await, List.filterMap_cons_none hdrain]
      dsimp only [List.filterMap_nil]
      rw [Store.aborted, hfail]
      exact notified_notifyAll.awake
  · split
    · next hdraining =>
        obtain ⟨k, hk, hlive⟩ := (Option.any_eq_true _ _).mp hdraining
        obtain ⟨j, _, hj⟩ := Option.bind_eq_some_iff.mp hk
        exact hready ⟨k, List.mem_of_getElem? hj, hlive⟩
    · exact hready ⟨{ snapshot := i }, List.mem_append_right _ (List.mem_singleton.mpr rfl), rfl⟩

/-! ## The steps -/

/-- A publication ends as it began, or the waiters are notified. -/
def Tells (s t : Store) : Prop := t = s ∨ Notified t

theorem Tells.awake (h : Tells s t) (hs : Awake s) : Awake t := by
  rcases h with rfl | hn
  · exact hs
  · exact hn.awake

theorem Tells.notifyAll : Tells s t.notifyAll := Or.inr notified_notifyAll

/-- `commit` opens the candidate, and its `after_open` raises. -/
def Store.CommitFails (s : Store) (tx : Transaction) (valid before after : Bool) : Prop :=
  s.pending = some tx ∧ valid = true ∧ before = false ∧ tx.previous ≠ none ∧ after = true

theorem commit_tells {valid before after : Bool} (h : ¬ s.CommitFails tx valid before after) :
    Tells s (s.commit tx valid before after).1 := by
  rw [Store.commit]
  split
  · exact Or.inl rfl
  · next htx =>
      split
      · exact Or.inl rfl
      · next hv =>
          split
          · exact Or.inl rfl
          · next hb =>
              dsimp only
              split
              · exact .notifyAll
              · next p hp =>
                  split
                  · next ha =>
                      refine absurd ⟨not_not.mp htx, by simpa using hv, by simpa using hb, ?_, ha⟩ h
                      rw [hp]
                      simp
                  · exact .notifyAll

theorem commitLatest_tells {valid before : Bool} : Tells s (s.commitLatest tx valid before).1 := by
  rw [Store.commitLatest]
  split
  · exact Or.inl rfl
  · split
    · exact Or.inl rfl
    · split
      · exact Or.inl rfl
      · exact .notifyAll

theorem commitProvisional_tells {valid : Bool} : Tells s (s.commitProvisional tx valid).1 := by
  rw [Store.commitProvisional]
  split
  · exact Or.inl rfl
  · split
    · exact Or.inl rfl
    · exact .notifyAll

theorem promoteLatestProvisional_tells {valid : Bool} : Tells s (s.promoteLatestProvisional valid).1 := by
  rw [Store.promoteLatestProvisional]
  split
  · exact Or.inl rfl
  · split
    · exact Or.inl rfl
    · split
      · exact Or.inl rfl
      · split
        · exact Or.inl rfl
        · exact .notifyAll

/-- A snapshot that is committed is not changed by that. -/
theorem modify_enter {p : Phase} (h : (s.heap i).phase = p) : (s.modify i (.enter p)).heap = s.heap := by
  have hsame : (s.heap i).enter p = s.heap i := by
    rw [Snapshot.enter, ← h]
  exact (congrArg (Function.update s.heap i) hsame).trans (Function.update_eq_self i s.heap)

/-- When the callback of `finalize_provisional` raises the store is as before. -/
theorem finalize_raises (h : PointerInv s) (htx : s.provisional = some tx) :
    { s.modify tx.candidate (.enter .committed) with current := tx.previous } = s := by
  obtain ⟨_, hprevious, hlatest, _⟩ := h.provisional tx htx
  have hheap := modify_enter (h.latest _ hlatest).2
  calc { s.modify tx.candidate (.enter .committed) with current := tx.previous }
      = { s with heap := (s.modify tx.candidate (.enter .committed)).heap, current := tx.previous } := rfl
    _ = s := by rw [hheap, hprevious]

theorem finalizeProvisional_tells {valid before after : Bool} (h : PointerInv s) :
    Tells s (s.finalizeProvisional tx valid before after).1 := by
  rw [Store.finalizeProvisional]
  split
  · exact Or.inl rfl
  · next htx =>
      split
      · exact Or.inl rfl
      · split
        · exact Or.inl rfl
        · dsimp only
          split
          · exact Or.inl (finalize_raises h (not_not.mp htx))
          · split
            · exact .notifyAll
            · exact .notifyAll

theorem rollbackProvisional_tells {keep reopen : Bool} : Tells s (s.rollbackProvisional tx keep reopen).1 := by
  rw [Store.rollbackProvisional]
  split
  · exact Or.inl rfl
  · split
    · exact Or.inl rfl
    · dsimp only
      split
      · exact .notifyAll
      · exact .notifyAll

theorem promoteLatest_tells {valid before after : Bool} : Tells s (s.promoteLatest valid before after).1 := by
  rw [Store.promoteLatest]
  split
  · exact Or.inl rfl
  · split
    · exact Or.inl rfl
    · split
      · exact Or.inl rfl
      · split
        · exact Or.inl rfl
        · split
          · exact Or.inl rfl
          · dsimp only
            split
            · split
              · exact .notifyAll
              · exact .notifyAll
            · split
              · exact .notifyAll
              · exact .notifyAll

theorem abort_awake {reopen : Bool} (h : StoreInv s) (ha : Awake s) : Awake (s.abort tx reopen).1 := by
  rw [Store.abort]
  split
  · exact ha
  · next htx =>
      rw [not_not] at htx
      have hc := h.pointers.pending_candidate htx
      have hprevious := (h.pointers.pending tx htx).2.2.1
      dsimp only
      rw [if_pos (show (s.modify tx.candidate (.become .aborted false)).current = tx.previous from hprevious.symm)]
      have haccept : Still (s.modify tx.candidate (.become .aborted false))
          ((s.modify tx.candidate (.become .aborted false)).accept tx.previous reopen) := still_accept
      refine DrainInv.aborts (h.drains.switches ?_) ?_ ?_
      · exact (hc.become .aborted false).accept.pointers
      · change tx.candidate ∈ ((s.modify tx.candidate (.become .aborted false)).accept tx.previous reopen).retained
        rw [haccept.retained]
        exact hc.retained
      · refine (congrArg Phase.closed (haccept.phase tx.candidate)).trans ?_
        rw [modify_heap, if_pos rfl]
        rfl

theorem admission_congr (h : t.heap i = s.heap i) (hc : t.current = s.current) :
    t.admission target i = s.admission target i := by
  cases target with
  | root root => rw [Store.admission, Store.admission, h, hc]
  | stable => simp only [Store.admission, h]
  | latest => simp only [Store.admission, h]
  | id id => simp only [Store.admission, h]

theorem beginPublish_quiet (h : PointerInv s) {id : String} {generations : Finset Nat} {root : Option Nat} {valid : Bool} :
    Quiet s (s.beginPublish id generations root valid).1 := by
  rw [Store.beginPublish]
  split
  · exact .refl
  · split
    · exact .refl
    · split
      · exact .refl
      · split
        · exact .refl
        · refine ⟨fun _ hw => hw, fun target hopens => ?_, fun hd => hd⟩
          obtain ⟨i, hi, hopen⟩ := hopens
          have hnew : ((s.adopt id generations root .validating false).heap s.size).phase = .validating :=
            congrArg Snapshot.phase (Function.update_self s.size _ s.heap)
          have hi' : (s.adopt id generations root .validating false).select target = some i := hi
          have hne : i ≠ s.size := by
            rintro rfl
            have hphase := (admission_open hopen).1
            exact absurd (hnew.symm.trans hphase) (by simp)
          have hsame : (s.adopt id generations root .validating false).heap i = s.heap i := Function.update_of_ne hne _ _
          have hold {p q : Nat → Bool} (hpq : ∀ j ∈ s.retained, p j = q j)
              (hf : (s.retained ++ [s.size]).find? p = some i) : s.retained.find? q = some i := by
            rw [List.find?_append] at hf
            rcases Option.or_eq_some_iff.mp hf with hf | ⟨_, hf⟩
            · exact (List.find?_congr hpq).symm.trans hf
            · exact absurd (List.mem_singleton.mp (List.mem_of_find?_eq_some hf)) hne
          have hheap (j : Nat) (hj : j ∈ s.retained) :
              (s.adopt id generations root .validating false).heap j = s.heap j :=
            Function.update_of_ne (Nat.ne_of_lt (h.bound j hj)) _ _
          have hsel : s.select target = some i := by
            cases target with
            | stable => exact hi'
            | latest => exact hi'
            | id id => exact hold (fun j hj => by rw [hheap j hj]) hi'
            | root root => exact hold (fun j hj => by rw [hheap j hj]) hi'
          have hadm : (s.adopt id generations root .validating false).admission target i = .open := hopen
          exact ⟨i, hsel, (admission_congr hsame rfl).symm.trans hadm⟩

theorem drainEnds_notified {drained : Bool} (hn : s.drainEnds j drained = some t) : Notified t := by
  obtain ⟨k, _, hn⟩ := Option.bind_eq_some_iff.mp hn
  split at hn
  · cases hn
    exact notified_notifyAll
  · cases hn

theorem release_awake (ha : Awake s) : Awake (s.release n) := by
  rw [Store.release]
  split
  · next l hl =>
      split
      · exact ha
      · dsimp only
        split
        · exact ha.quiet (.of_heap rfl rfl rfl rfl (fun _ => id) id)
        · exact notified_notifyAll.awake
  · exact ha

/-- The two operations that can end without a notification do not. -/
def Wakes (s : Store) : Action → Prop
  | .commit tx valid before after => ¬ s.CommitFails tx valid before after
  | .waitCancelled n => ∀ w, s.waits[n]? = some w → ∀ j ∈ w.tasks, ∀ k, s.tasks[j]? = some k → k.stage ≠ .created
  | _ => True

theorem cancelTasks_same {js : List Nat} (h : ∀ j ∈ js, ∀ k, s.tasks[j]? = some k → k.stage ≠ .created) :
    js.foldl Store.cancelTask s = s := by
  induction js with
  | nil => rfl
  | cons j js ih =>
      have hone : s.cancelTask j = s := by
        rw [Store.cancelTask]
        split
        · next k hk => rw [if_neg (h j List.mem_cons_self k hk)]
        · rfl
      rw [List.foldl_cons, hone]
      exact ih fun i hi => h i (List.mem_cons_of_mem _ hi)

theorem awake_next {a : Action} (h : StoreInv s) (ha : Awake s) (hok : Wakes s a)
    (hn : storeMachine.next s a = some t) : Awake t := by
  have hp := h.pointers
  cases a with
  | beginPublish id generations root valid =>
      cases hn
      exact ha.quiet (beginPublish_quiet hp)
  | commit tx valid before after =>
      cases hn
      exact (commit_tells hok).awake ha
  | commitLatest tx valid before =>
      cases hn
      exact commitLatest_tells.awake ha
  | commitProvisional tx valid =>
      cases hn
      exact commitProvisional_tells.awake ha
  | promoteLatestProvisional valid =>
      cases hn
      exact promoteLatestProvisional_tells.awake ha
  | finalizeProvisional tx valid before after =>
      cases hn
      exact (finalizeProvisional_tells hp).awake ha
  | rollbackProvisional tx keep reopen =>
      cases hn
      exact rollbackProvisional_tells.awake ha
  | promoteLatest valid before after =>
      cases hn
      exact promoteLatest_tells.awake ha
  | abort tx reopen =>
      cases hn
      exact abort_awake h ha
  | retryDrains =>
      cases hn
      exact ha.settles (settles_await .refl (settles_retryRest .refl))
  | waitEnds n => exact ha.settles (waitEnds_settles hn)
  | waitCancelled n =>
      obtain ⟨w, hw, hn⟩ := Option.bind_eq_some_iff.mp hn
      cases hn
      rw [cancelTasks_same (s := { s with waits := s.waits.eraseIdx n }) (hok w hw)]
      exact ha.settles (.waits _ .refl)
  | drainStarts j =>
      obtain ⟨k, hk, hn⟩ := Option.bind_eq_some_iff.mp hn
      split at hn
      · cases hn
        refine ha.quiet (.of_heap rfl rfl rfl rfl (fun _ => id) fun _ => ?_)
        exact ⟨_, List.mem_set (List.getElem?_eq_some_iff.mp hk).1 _, rfl⟩
      · cases hn
  | drainEnds j drained => exact (drainEnds_notified hn).awake
  | acquire target =>
      cases hn
      exact ha.acquire hp
  | wake n =>
      obtain ⟨w, _, hn⟩ := Option.bind_eq_some_iff.mp hn
      split at hn
      · cases hn
        refine Awake.acquire ?_ (h.waiters _).pointers
        exact ha.quiet (.of_heap rfl rfl rfl rfl (fun _ => List.mem_of_mem_eraseIdx) id)
      · cases hn
  | cancelWaiter n =>
      cases hn
      exact ha.quiet (.of_heap rfl rfl rfl rfl (fun _ => List.mem_of_mem_eraseIdx) id)
  | lease target =>
      cases hn
      exact ha.claims (lease_cases hp)
  | retainPublicationTarget tx =>
      cases hn
      exact ha.claims (retainPublicationTarget_cases hp)
  | retainRecoveryTarget i =>
      cases hn
      exact ha.claims ((retainRecoveryTarget_cases hp).imp id fun hi => ⟨i, hi⟩)
  | forkLease n =>
      cases hn
      exact ha.claims forkLease_cases
  | release n =>
      cases hn
      exact release_awake ha
  | pauseAdmission =>
      cases hn
      exact ha.quiet quiet_accept
  | pauseCandidateAdmission i =>
      cases hn
      rw [Store.pauseCandidateAdmission]
      split
      · exact ha.quiet quiet_accept
      · exact ha
  | resume i =>
      cases hn
      exact notified_notifyAll.awake

theorem awake_reach (h : storeMachine.Reach Wakes s) : Awake s := by
  have hboth : StoreInv s ∧ Awake s := by
    refine h.invariant (I := fun s => StoreInv s ∧ Awake s) (fun s hs => ⟨storeInv_start hs, ?_⟩)
      fun s a t hi hok hn => ⟨(step_stepped hi.1 hn).inv, awake_next hi.1 hi.2 hok hn⟩
    rcases hs with rfl | ⟨_, _, _, _, rfl⟩
    · exact fun w hw => absurd hw List.not_mem_nil
    · exact fun w hw => absurd hw List.not_mem_nil
  exact hboth.2

end MonoAgent.Snapshots
