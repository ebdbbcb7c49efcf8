import MonoAgent.Snapshots.Pointers

/-!
# Steps of the store

An operation first switches the pointers and the phases, and then schedules drains and
notifies.  So what the leases and the drains keep is proved of these two parts only.
-/

namespace MonoAgent.Snapshots

open MonoAgent.Lib

variable {r s t : Store} {i j c p : Nat} {tx : Transaction} {valid before after : Bool}

/-! ## The two parts -/

/-- The pointers, the phases and the admission change, and a closed snapshot stays closed. -/
structure Switches (s t : Store) : Prop where
  heap : ∀ i, (t.heap i).leases = (s.heap i).leases ∧ (t.heap i).generations = (s.heap i).generations
  closed : ∀ i, (s.heap i).phase.closed = true → (t.heap i).phase.closed = true
  retained : t.retained = s.retained
  size : t.size = s.size
  counts : t.counts = s.counts
  leases : t.leases = s.leases
  tasks : t.tasks = s.tasks
  drains : t.drains = s.drains
  failures : t.failures = s.failures
  waiters : t.waiters = s.waiters

theorem Switches.refl : Switches s s := ⟨fun _ => ⟨rfl, rfl⟩, fun _ => id, rfl, rfl, rfl, rfl, rfl, rfl, rfl, rfl⟩

theorem Switches.trans (h : Switches r s) (h' : Switches s t) : Switches r t where
  heap i := ⟨(h'.heap i).1.trans (h.heap i).1, (h'.heap i).2.trans (h.heap i).2⟩
  closed i hi := h'.closed i (h.closed i hi)
  retained := h'.retained.trans h.retained
  size := h'.size.trans h.size
  counts := h'.counts.trans h.counts
  leases := h'.leases.trans h.leases
  tasks := h'.tasks.trans h.tasks
  drains := h'.drains.trans h.drains
  failures := h'.failures.trans h.failures
  waiters := h'.waiters.trans h.waiters

/-- The pointers are not what leases and drains depend on. -/
theorem Switches.pointers (h : Switches s t) {current latest : Option Nat} {pending provisional : Option Transaction}
    {serial : Nat} : Switches s { t with current, latest, pending, provisional, serial } :=
  ⟨h.heap, h.closed, h.retained, h.size, h.counts, h.leases, h.tasks, h.drains, h.failures, h.waiters⟩

theorem Switches.modify (h : Switches s t) {f : Snapshot → Snapshot}
    (hf : ∀ x, (f x).leases = x.leases ∧ (f x).generations = x.generations)
    (hclosed : (t.heap i).phase.closed = true → (f (t.heap i)).phase.closed = true) : Switches s (t.modify i f) := by
  refine h.trans ⟨fun j => ?_, fun j hj => ?_, rfl, rfl, rfl, rfl, rfl, rfl, rfl, rfl⟩
  · rw [modify_heap]
    split
    · next heq =>
        rw [heq]
        exact hf _
    · exact ⟨rfl, rfl⟩
  · rw [modify_heap]
    split
    · next heq => exact hclosed (heq ▸ hj)
    · exact hj

theorem Switches.accept (h : Switches s t) {i : Option Nat} {b : Bool} : Switches s (t.accept i b) := by
  cases i with
  | none => exact h
  | some i => exact h.modify (fun _ => ⟨rfl, rfl⟩) id

/-- Drains are scheduled and waited for, and waiters are notified. -/
inductive Settles (s : Store) : Store → Prop where
  | refl : Settles s s
  | schedule (i : Nat) {t : Store} (h : Settles s t) : Settles s (t.scheduleDrain i)
  | notify {t : Store} (h : Settles s t) : Settles s t.notifyAll
  | waits (waits : List Wait) {t : Store} (h : Settles s t) : Settles s { t with waits }

theorem Settles.still (h : Settles s t) : Still s t := by
  induction h with
  | refl => exact .refl
  | schedule i _ ih => exact ih.trans still_scheduleDrain
  | notify _ ih => exact ih.trans still_notifyAll
  | waits ws _ ih => exact ih.trans ⟨fun _ => rfl, rfl, rfl, rfl, rfl, rfl, rfl⟩

/-- An operation that publishes, or takes back. -/
def Publishes (s t : Store) : Prop := ∃ r, Switches s r ∧ PointerInv r ∧ Settles r t

theorem Publishes.refl (h : PointerInv s) : Publishes s s := ⟨s, .refl, h, .refl⟩

theorem Publishes.inv (h : Publishes s t) : PointerInv t := by
  obtain ⟨r, _, hr, hsettles⟩ := h
  exact hr.still hsettles.still

/-! ## Publication -/

theorem Candidate.not_closed (h : Candidate s c) : (s.heap c).phase.closed = false := by
  rcases h.phase with hp | hp
  · rw [hp]
    rfl
  · rw [hp]
    rfl

/-- The phases after a promotion. -/
theorem retire_phase {f g : Snapshot → Snapshot} (ht : t.heap = ((s.modify c f).modify p g).heap) (hne : p ≠ c)
    (hp : s.current = some p) (hf : ∀ x, (f x).phase = .committed) (hg : ∀ x, (g x).phase = .retired) :
    (t.heap i).phase = if i = c then .committed else if s.current = some i then .retired else (s.heap i).phase := by
  rw [ht, modify_heap, modify_heap, modify_heap, hp]
  by_cases hip : i = p
  · subst hip
    rw [if_pos rfl, if_neg hne, if_neg hne, if_pos rfl, hg]
  · rw [if_neg hip]
    split
    · exact hf _
    · rw [if_neg fun h => hip (Option.some.inj h).symm]

theorem first_phase {f : Snapshot → Snapshot} (ht : t.heap = (s.modify c f).heap) (hp : s.current = none)
    (hf : ∀ x, (f x).phase = .committed) :
    (t.heap i).phase = if i = c then .committed else if s.current = some i then .retired else (s.heap i).phase := by
  rw [ht, modify_heap, hp]
  split
  · exact hf _
  · rw [if_neg nofun]

theorem Candidate.ne (h : Candidate s c) (hp : s.current = some p) : p ≠ c := by
  rintro rfl
  exact h.current hp

/-- A candidate is open, so its phase may change. -/
theorem Candidate.become (h : Candidate s c) (ph : Phase) (b : Bool) : Switches s (s.modify c (.become ph b)) :=
  Switches.refl.modify (fun _ => ⟨rfl, rfl⟩) fun hx => absurd (h.not_closed.symm.trans hx) nofun

theorem Candidate.enter (h : Candidate s c) (ph : Phase) : Switches s (s.modify c (.enter ph)) :=
  Switches.refl.modify (fun _ => ⟨rfl, rfl⟩) fun hx => absurd (h.not_closed.symm.trans hx) nofun

theorem commit_publishes (h : PointerInv s) : Publishes s (s.commit tx valid before after).1 := by
  rw [Store.commit]
  split
  · exact .refl h
  · next htx =>
      rw [not_not] at htx
      have hc := h.pending_candidate htx
      obtain ⟨hprov, _, hprevious, _⟩ := h.pending tx htx
      have hswitch := hc.become .committed true
      split
      · exact .refl h
      · split
        · exact .refl h
        · dsimp only
          split
          · next hnone =>
              refine ⟨_, hswitch.pointers, ?_, .notify .refl⟩
              exact h.promoted hc rfl rfl rfl hprov rfl rfl fun i =>
                first_phase rfl (hprevious.symm.trans hnone) fun _ => rfl
          · next p hsome =>
              have hp : s.current = some p := hprevious.symm.trans hsome
              split
              · refine ⟨_, ?_, ?_, .refl⟩
                · exact hswitch.pointers.modify (fun _ => ⟨rfl, rfl⟩) fun _ => rfl
                · exact h.promoted hc rfl rfl rfl hprov rfl rfl fun i =>
                    retire_phase rfl (hc.ne hp) hp (fun _ => rfl) fun _ => rfl
              · refine ⟨_, ?_, ?_, .notify (.schedule p .refl)⟩
                · exact hswitch.pointers.modify (fun _ => ⟨rfl, rfl⟩) fun _ => rfl
                · exact h.promoted hc rfl rfl rfl hprov rfl rfl fun i =>
                    retire_phase rfl (hc.ne hp) hp (fun _ => rfl) fun _ => rfl

theorem modify_phase {f : Snapshot → Snapshot} {ph : Phase} (ht : t.heap = (s.modify c f).heap)
    (hf : ∀ x, (f x).phase = ph) : (t.heap i).phase = if i = c then ph else (s.heap i).phase := by
  rw [ht, modify_heap]
  split
  · exact hf _
  · rfl

theorem commitLatest_publishes (h : PointerInv s) : Publishes s (s.commitLatest tx valid before).1 := by
  rw [Store.commitLatest]
  split
  · exact .refl h
  · next htx =>
      rw [not_not] at htx
      have hc := h.pending_candidate htx
      have hswitch := hc.become .committed true
      split
      · exact .refl h
      · split
        · exact .refl h
        · refine ⟨_, hswitch.pointers, ?_, .notify .refl⟩
          refine h.staged hc rfl rfl rfl (fun tx' htx' => ?_) rfl rfl fun i => modify_phase rfl fun _ => rfl
          cases (h.pending tx htx).1.symm.trans htx'

theorem commitProvisional_publishes (h : PointerInv s) : Publishes s (s.commitProvisional tx valid).1 := by
  rw [Store.commitProvisional]
  split
  · exact .refl h
  · next htx =>
      rw [not_not] at htx
      have hc := h.pending_candidate htx
      have hswitch := hc.become .committed false
      split
      · exact .refl h
      · refine ⟨_, hswitch.accept.pointers, ?_, .notify .refl⟩
        have haccept : Still (s.modify tx.candidate (.become .committed false))
            ((s.modify tx.candidate (.become .committed false)).accept tx.previous false) := still_accept
        refine h.staged hc haccept.current rfl rfl (fun tx' htx' => ?_) haccept.retained haccept.size fun i => ?_
        · cases htx'
          exact ⟨(h.pending tx htx).2.2.1, rfl⟩
        · exact (haccept.phase i).trans (modify_phase rfl fun _ => rfl)

theorem promoteLatestProvisional_publishes (h : PointerInv s) :
    Publishes s (s.promoteLatestProvisional valid).1 := by
  rw [Store.promoteLatestProvisional]
  split
  · exact .refl h
  · split
    · exact .refl h
    · next c hunpromoted =>
        have hc := h.unpromoted_candidate hunpromoted
        have hcommitted := (h.latest c (unpromoted_eq hunpromoted).1).2
        split
        · exact .refl h
        · split
          · exact .refl h
          · refine ⟨_, ?_, ?_, .notify .refl⟩
            · exact (Switches.refl.accept.accept (i := some c)).pointers
            · have haccept : Still s ((s.accept s.current false).modify c (.accept false)) :=
                still_accept.trans (still_modify fun _ => rfl)
              refine h.staged hc haccept.current rfl ?_ (fun tx' htx' => ?_) haccept.retained haccept.size fun i => ?_
              · cases hpending : s.pending with
                | none => exact haccept.pending.trans hpending
                | some tx => exact absurd ((h.pending tx hpending).2.1.symm.trans hunpromoted) nofun
              · cases htx'
                exact ⟨rfl, rfl⟩
              · rw [haccept.phase]
                split
                · next heq => rw [heq, hcommitted]
                · rfl

theorem finalizeProvisional_publishes (h : PointerInv s) :
    Publishes s (s.finalizeProvisional tx valid before after).1 := by
  rw [Store.finalizeProvisional]
  split
  · exact .refl h
  · next htx =>
      rw [not_not] at htx
      have hc := h.provisional_candidate htx
      obtain ⟨hpending, hprevious, hlatest, _⟩ := h.provisional tx htx
      have hswitch := hc.enter .committed
      have hopen : Switches s
          ({ s.modify tx.candidate (.enter .committed) with current := some tx.candidate } : Store) := hswitch.pointers
      split
      · exact .refl h
      · split
        · exact .refl h
        · dsimp only
          split
          · refine ⟨_, hswitch.pointers, ?_, .refl⟩
            refine h.still ⟨fun i => ?_, hprevious, rfl, rfl, rfl, rfl, rfl⟩
            have hphase := modify_phase (s := s) (c := tx.candidate) (f := .enter .committed) (i := i) rfl fun _ => rfl
            refine hphase.trans ?_
            split
            · next heq => rw [heq, (h.latest _ hlatest).2]
            · rfl
          · have haccept := hopen.accept (i := some tx.candidate) (b := true)
            split
            · next hnone =>
                refine ⟨_, haccept.pointers, ?_, .notify .refl⟩
                exact h.promoted hc rfl hlatest hpending rfl rfl rfl fun i =>
                  first_phase modify_modify (hprevious.symm.trans hnone) fun _ => rfl
            · next p hsome =>
                have hp : s.current = some p := hprevious.symm.trans hsome
                refine ⟨_, ?_, ?_, .notify (.schedule p .refl)⟩
                · exact haccept.pointers.modify (fun _ => ⟨rfl, rfl⟩) fun _ => rfl
                · exact h.promoted hc rfl hlatest hpending rfl rfl rfl fun i =>
                    retire_phase (modify_congr modify_modify) (hc.ne hp) hp (fun _ => rfl) fun _ => rfl

/-- The stable snapshot is committed already. -/
theorem restore_still {i : Option Nat} (h : PointerInv s) (hi : i = s.current) (reopen : Bool) :
    Switches s (s.restore i reopen) ∧ Still s (s.restore i reopen) := by
  cases i with
  | none => exact ⟨.refl, .refl⟩
  | some p =>
      have hcommitted := (h.current p hi.symm).2
      refine ⟨Switches.refl.modify (fun _ => ⟨rfl, rfl⟩) fun hx => ?_, ⟨fun i => ?_, rfl, rfl, rfl, rfl, rfl, rfl⟩⟩
      · rw [hcommitted] at hx
        cases hx
      · have hphase := modify_phase (s := s) (c := p) (f := .become .committed reopen) (i := i) rfl fun _ => rfl
        refine hphase.trans ?_
        split
        · next heq => rw [heq, hcommitted]
        · rfl

theorem rollbackProvisional_publishes {keep reopen : Bool} (h : PointerInv s) :
    Publishes s (s.rollbackProvisional tx keep reopen).1 := by
  rw [Store.rollbackProvisional]
  split
  · exact .refl h
  · next htx =>
      rw [not_not] at htx
      have hc := h.provisional_candidate htx
      obtain ⟨hpending, hprevious, hlatest, hcurrent⟩ := h.provisional tx htx
      split
      · exact .refl h
      · dsimp only
        obtain ⟨hswitch, hstill⟩ := restore_still h hprevious reopen
        generalize s.restore tx.previous reopen = r at hswitch hstill ⊢
        have hrc : Candidate r tx.candidate := by
          refine ⟨hstill.retained ▸ hc.retained, ?_, fun hx => hc.current (hstill.current ▸ hx)⟩
          rw [hstill.phase]
          exact hc.phase
        have hrinv := h.still hstill
        split
        · refine ⟨_, ?_, ?_, .notify .refl⟩
          · exact (hswitch.trans (hrc.become .committed false)).pointers
          · refine hrinv.staged hrc rfl rfl (hstill.pending.trans hpending) nofun rfl rfl fun i => ?_
            exact modify_phase rfl fun _ => rfl
        · refine ⟨_, ?_, ?_, .notify .refl⟩
          · exact (hswitch.trans (hrc.become .validating false)).pointers
          · refine hrinv.withdrawn hrc rfl (Or.inl ?_) ?_ rfl (fun tx' htx' => ?_) rfl rfl (Or.inl ⟨rfl, nofun⟩)
              fun i => modify_phase rfl fun _ => rfl
            · exact hprevious.trans hstill.current.symm
            · have hsame : tx.previous = r.current := hprevious.trans hstill.current.symm
              change (if tx.previous.or r.current = r.current then none else tx.previous.or r.current) = none
              rw [hsame, Option.or_self, if_pos rfl]
            · cases htx'
              exact ⟨hprevious.trans hstill.current.symm, rfl⟩

/-- A snapshot is retired and taken back. -/
theorem Switches.back (h : Switches s t) (hp : (t.heap p).phase.closed = false) {ph : Phase} {b b' : Bool} {ph' : Phase} :
    Switches s ((t.modify p (.become ph b)).modify p (.become ph' b')) := by
  have hone : Switches s (t.modify p (.become ph' b')) :=
    h.modify (fun _ => ⟨rfl, rfl⟩) fun hx => absurd (hp.symm.trans hx) nofun
  have heap : ((t.modify p (.become ph b)).modify p (.become ph' b')).heap = (t.modify p (.become ph' b')).heap :=
    modify_modify
  exact ⟨heap ▸ hone.heap, heap ▸ hone.closed, h.retained, h.size, h.counts, h.leases, h.tasks, h.drains, h.failures,
    h.waiters⟩

theorem promoteLatest_publishes (h : PointerInv s) : Publishes s (s.promoteLatest valid before after).1 := by
  rw [Store.promoteLatest]
  split
  · exact .refl h
  · next hprov =>
      rw [not_not] at hprov
      split
      · exact .refl h
      · next c hunpromoted =>
          have hc := h.unpromoted_candidate hunpromoted
          have hlatest := (unpromoted_eq hunpromoted).1
          have hcommitted := (h.latest c hlatest).2
          have hpending : s.pending = none := by
            cases hpending : s.pending with
            | none => rfl
            | some tx => exact absurd ((h.pending tx hpending).2.1.symm.trans hunpromoted) nofun
          have haccept : Switches s ({ s.modify c (.accept true) with current := some c, latest := some c } : Store) :=
            (Switches.refl.accept (i := some c)).pointers
          split
          · exact .refl h
          · split
            · exact .refl h
            · split
              · exact .refl h
              · dsimp only
                split
                · next hnone =>
                    split
                    · refine ⟨_, haccept.pointers, ?_, .notify .refl⟩
                      have hstill : Still s (s.modify c (.accept true)) := still_modify fun _ => rfl
                      exact h.still ⟨hstill.phase, hnone.symm, hlatest.symm, rfl, rfl, rfl, rfl⟩
                    · refine ⟨_, haccept, ?_, .notify .refl⟩
                      refine h.promoted hc rfl rfl hpending hprov rfl rfl fun i => ?_
                      have hphase := (still_modify (s := s) (i := c) (f := .accept true) fun _ => rfl).phase i
                      refine hphase.trans ?_
                      rw [hnone, if_neg (c := none = some i) nofun]
                      split
                      · next heq => rw [heq, hcommitted]
                      · rfl
                · next p hsome =>
                    have hne := hc.ne hsome
                    have hheap : (s.modify c (.accept true)).heap p = s.heap p := by
                      rw [modify_heap, if_neg hne]
                    have hp := (h.current p hsome).2
                    have hsame (i : Nat) : ((s.modify c (.accept true)).heap i).phase = (s.heap i).phase :=
                      (still_modify (f := .accept true) fun _ => rfl).phase i
                    split
                    · refine ⟨_, ?_, ?_, .notify .refl⟩
                      · refine (haccept.back (p := p) ?_).pointers
                        rw [show ({ s.modify c (.accept true) with current := some c, latest := some c } : Store).heap p = _
                          from hheap, hp]
                        rfl
                      · refine h.still ⟨fun i => ?_, hsome.symm, hlatest.symm, rfl, rfl, rfl, rfl⟩
                        refine (modify_phase (c := p) modify_modify fun _ => rfl).trans ?_
                        split
                        · next heq => rw [heq, hp]
                        · exact hsame i
                    · refine ⟨_, ?_, ?_, .notify (.schedule p .refl)⟩
                      · exact haccept.modify (fun _ => ⟨rfl, rfl⟩) fun _ => rfl
                      · refine h.promoted hc rfl rfl hpending hprov rfl rfl fun i => ?_
                        refine (modify_phase (c := p) rfl fun _ => rfl).trans ?_
                        rw [hsome]
                        by_cases hip : i = p
                        · rw [if_pos hip, if_neg (hip ▸ hne), if_pos (congrArg some hip.symm)]
                          rfl
                        · rw [if_neg hip, if_neg fun heq => hip (Option.some.inj heq).symm]
                          split
                          · next heq => exact (hsame i).trans (heq ▸ hcommitted)
                          · exact hsame i

theorem settles_await {call : Call} {snapshots : List Nat} {go : Store → Store} (h : Settles s t)
    (hgo : Settles s (go t)) : Settles s (t.await call snapshots go) := by
  rw [Store.await]
  split
  · exact hgo
  · exact .waits _ h

theorem settles_aborted (h : Settles s t) : Settles s (t.aborted c) := by
  rw [Store.aborted]
  split
  · exact h
  · exact .notify h

theorem settles_retryRest (h : Settles s t) : Settles s t.retryRest := by
  have hall (l : List Nat) {t : Store} (h : Settles s t) : Settles s (l.foldl Store.scheduleDrain t) := by
    induction l generalizing t with
    | nil => exact h
    | cons i l ih => exact ih (.schedule i h)
  exact settles_await (hall t.retained h) (hall t.retained h)

theorem waitEnds_settles {n : Nat} (hn : s.waitEnds n = some t) : Settles s t := by
  obtain ⟨w, hw, hn⟩ := Option.bind_eq_some_iff.mp hn
  have h : Settles s { s with waits := s.waits.eraseIdx n } := .waits _ .refl
  dsimp only at hn
  split at hn
  · cases hn
    exact h
  · split at hn
    · cases hn
    · split at hn
      · cases hn
        exact settles_aborted h
      · cases hn
        exact settles_retryRest h
      · cases hn
        exact h

theorem abort_publishes {reopen : Bool} (h : PointerInv s) : Publishes s (s.abort tx reopen).1 := by
  rw [Store.abort]
  split
  · exact .refl h
  · next htx =>
      rw [not_not] at htx
      have hc := h.pending_candidate htx
      obtain ⟨hprov, hunpromoted, hprevious, _⟩ := h.pending tx htx
      have hswitch := hc.become .aborted false
      dsimp only
      rw [if_pos (show (s.modify tx.candidate (.become .aborted false)).current = tx.previous from hprevious.symm)]
      have haccept : Still (s.modify tx.candidate (.become .aborted false))
          ((s.modify tx.candidate (.become .aborted false)).accept tx.previous reopen) := still_accept
      refine ⟨_, ?_, ?_, settles_await (.schedule _ .refl) (settles_aborted (.schedule _ .refl))⟩
      · exact hswitch.accept.pointers
      · refine h.withdrawn hc haccept.current (Or.inr ⟨haccept.latest, fun hl => ?_⟩) ?_ ?_ nofun haccept.retained
          haccept.size (Or.inr ⟨rfl, rfl⟩) fun i => (haccept.phase i).trans (modify_phase rfl fun _ => rfl)
        · exact hc.current (unpromoted_none hunpromoted hl)
        · refine Eq.trans ?_ hunpromoted
          rw [Store.unpromoted, Store.unpromoted, Store.latest?, Store.latest?]
          exact congrArg₂ (fun l k : Option Nat => if l.or k = k then none else l.or k) haccept.latest haccept.current
        · exact haccept.provisional.trans hprov

end MonoAgent.Snapshots
