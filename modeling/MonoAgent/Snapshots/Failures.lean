import MonoAgent.Snapshots.Runs

/-!
# Publications that raise

A publication that raises before it has switched the pointers leaves the store as it was.
`finalize_provisional` takes its switch back when the callback raises after it.  `commit`
does not, and `promote_latest` opens the candidate and the stable snapshot on its way back.
-/

namespace MonoAgent.Snapshots

open MonoAgent.Lib

variable {s t : Store} {i c : Nat}

inductive Publication where
  | commit (tx : Transaction) (valid before after : Bool)
  | commitLatest (tx : Transaction) (valid before : Bool)
  | finalizeProvisional (tx : Transaction) (valid before after : Bool)
  | promoteLatest (valid before after : Bool)

def Publication.run (s : Store) : Publication → Store.Result
  | .commit tx valid before after => s.commit tx valid before after
  | .commitLatest tx valid before => s.commitLatest tx valid before
  | .finalizeProvisional tx valid before after => s.finalizeProvisional tx valid before after
  | .promoteLatest valid before after => s.promoteLatest valid before after

/-- A snapshot is retired, and no drain is scheduled. -/
def Store.Stranded (s : Store) (i : Nat) : Prop :=
  i ∈ s.retained ∧ (s.heap i).phase = .retired ∧ (s.heap i).leases = 0 ∧ s.draining i = false

/-- The publication can be tried again, or be aborted. -/
structure Restored (s t : Store) : Prop where
  current : t.current = s.current
  latest : t.latest = s.latest
  pending : t.pending = s.pending
  provisional : t.provisional = s.provisional
  phase : ∀ i, (t.heap i).phase = (s.heap i).phase
  accepting : ∀ i, (t.heap i).accepting = (s.heap i).accepting
  stranded : ∀ i, t.Stranded i → s.Stranded i

theorem Restored.refl : Restored s s := ⟨rfl, rfl, rfl, rfl, fun _ => rfl, fun _ => rfl, fun _ => id⟩

/-- `promote_latest` switches, and its `after_open` raises. -/
def Store.PromotionFails (s : Store) (valid before after : Bool) : Prop :=
  s.provisional = none ∧ (∃ c, s.unpromoted = some c ∧ (s.heap c).accepting = false) ∧ valid = true ∧
    before = false ∧ after = true

/-- The callback raises after the switch. -/
def Publication.Fails (s : Store) : Publication → Prop
  | .commit tx valid before after => s.CommitFails tx valid before after
  | .promoteLatest valid before after => s.PromotionFails valid before after
  | _ => False

theorem commit_fails {tx : Transaction} {valid before after : Bool} (h : s.CommitFails tx valid before after) :
    (s.commit tx valid before after).2 = true ∧ (s.commit tx valid before after).1.pending = none := by
  obtain ⟨htx, rfl, rfl, hp, rfl⟩ := h
  obtain ⟨p, hp⟩ := Option.ne_none_iff_exists'.mp hp
  rw [Store.commit, if_neg (not_not.mpr htx), if_neg (by simp), if_neg (by simp)]
  dsimp only
  rw [hp]
  exact ⟨rfl, rfl⟩

theorem commit_raises {tx : Transaction} {valid before after : Bool} (h : ¬ s.CommitFails tx valid before after)
    (hr : (s.commit tx valid before after).2 = true) : (s.commit tx valid before after).1 = s := by
  rw [Store.commit] at hr ⊢
  split
  · rfl
  · next htx =>
      rw [if_neg htx] at hr
      split
      · rfl
      · next hv =>
          rw [if_neg hv] at hr
          split
          · rfl
          · next hb =>
              rw [if_neg hb] at hr
              dsimp only at hr
              split at hr
              · cases hr
              · next p hp =>
                  split at hr
                  · next ha =>
                      refine absurd ⟨not_not.mp htx, by simpa using hv, by simpa using hb, ?_, ha⟩ h
                      rw [hp]
                      simp
                  · cases hr

theorem commitLatest_raises {tx : Transaction} {valid before : Bool} (hr : (s.commitLatest tx valid before).2 = true) :
    (s.commitLatest tx valid before).1 = s := by
  rw [Store.commitLatest] at hr ⊢
  split
  · rfl
  · next htx =>
      rw [if_neg htx] at hr
      split
      · rfl
      · next hv =>
          rw [if_neg hv] at hr
          split
          · rfl
          · next hb =>
              rw [if_neg hb] at hr
              cases hr

theorem finalizeProvisional_raises {tx : Transaction} {valid before after : Bool} (h : PointerInv s)
    (hr : (s.finalizeProvisional tx valid before after).2 = true) :
    (s.finalizeProvisional tx valid before after).1 = s := by
  rw [Store.finalizeProvisional] at hr ⊢
  split
  · rfl
  · next htx =>
      rw [if_neg htx] at hr
      split
      · rfl
      · next hv =>
          rw [if_neg hv] at hr
          split
          · rfl
          · next hb =>
              rw [if_neg hb] at hr
              dsimp only at hr ⊢
              split
              · exact finalize_raises h (not_not.mp htx)
              · next ha =>
                  rw [if_neg ha] at hr
                  split at hr
                  · cases hr
                  · cases hr

theorem promoteLatest_raises {valid before after : Bool} (h : ¬ s.PromotionFails valid before after)
    (hr : (s.promoteLatest valid before after).2 = true) : (s.promoteLatest valid before after).1 = s := by
  rw [Store.promoteLatest] at hr ⊢
  split
  · rfl
  · next hprov =>
      rw [if_neg hprov] at hr
      split
      · rfl
      · next c hc =>
          rw [hc] at hr
          dsimp only at hr
          split
          · rfl
          · next hacc =>
              rw [if_neg hacc] at hr
              split
              · rfl
              · next hv =>
                  rw [if_neg hv] at hr
                  split
                  · rfl
                  · next hb =>
                      rw [if_neg hb] at hr
                      have ha : after = false := by
                        cases after with
                        | false => rfl
                        | true =>
                            exact absurd ⟨not_not.mp hprov, ⟨c, hc, by simpa using hacc⟩, by simpa using hv,
                              by simpa using hb, rfl⟩ h
                      subst ha
                      split at hr
                      · cases hr
                      · cases hr

/-- The candidate is open, though it was not. -/
theorem promoteLatest_fails {valid before after : Bool} (hp : PointerInv s) (h : s.PromotionFails valid before after) :
    (s.promoteLatest valid before after).2 = true ∧ ∃ c, (s.heap c).accepting = false ∧
      ((s.promoteLatest valid before after).1.heap c).accepting = true := by
  obtain ⟨hprov, ⟨c, hc, hacc⟩, rfl, rfl, rfl⟩ := h
  have hcandidate := hp.unpromoted_candidate hc
  rw [Store.promoteLatest, if_neg (not_not.mpr hprov), hc]
  dsimp only
  rw [if_neg (by rw [hacc]; simp), if_neg (by simp), if_neg (by simp)]
  have hopen : ((s.modify c (.accept true)).heap c).accepting = true := by
    rw [modify_heap, if_pos rfl]
    rfl
  cases hcur : s.current with
  | none => exact ⟨rfl, c, hacc, hopen⟩
  | some p =>
      refine ⟨rfl, c, hacc, ?_⟩
      have hne := hcandidate.ne hcur
      refine (congrArg Snapshot.accepting ?_).trans hopen
      exact (modify_heap.trans (if_neg (Ne.symm hne))).trans (modify_heap.trans (if_neg (Ne.symm hne)))

/-- A publication that raises leaves the store as it was, if and only if it does not raise after its switch. -/
theorem failed_publication (h : storeMachine.Reachable s) (p : Publication) :
    ((p.run s).2 = true → Restored s (p.run s).1) ↔ ¬ p.Fails s := by
  have hp := (storeInv_reach h).pointers
  constructor
  · intro hrestored hfails
    cases p with
    | commit tx valid before after =>
        obtain ⟨hraised, hpending⟩ := commit_fails hfails
        have hsame := (hrestored hraised).pending
        rw [show (Publication.run s (.commit tx valid before after)).1.pending = none from hpending, hfails.1] at hsame
        cases hsame
    | promoteLatest valid before after =>
        obtain ⟨hraised, c, hclosed, hopen⟩ := promoteLatest_fails hp hfails
        have hsame := (hrestored hraised).accepting c
        rw [hclosed] at hsame
        exact absurd (hopen.symm.trans hsame) nofun
    | commitLatest tx valid before => exact hfails
    | finalizeProvisional tx valid before after => exact hfails
  · intro hok hraised
    have hsame : (p.run s).1 = s := by
      cases p with
      | commit tx valid before after => exact commit_raises hok hraised
      | commitLatest tx valid before => exact commitLatest_raises hraised
      | finalizeProvisional tx valid before after => exact finalizeProvisional_raises hp hraised
      | promoteLatest valid before after => exact promoteLatest_raises hok hraised
    rw [hsame]
    exact .refl

/-- A candidate that is ready for its promotion. -/
def readyRun : List Action :=
  [.beginPublish "b" {0, 1} none true, .commitLatest { serial := 0, previous := some 0, candidate := 1 } true false,
    .pauseCandidateAdmission 1]

def ready : Store := (storeMachine.run (Store.installed "a" {0} none true) readyRun).getD {}

theorem ready_reach : storeMachine.Reachable ready :=
  Machine.reach_getD (Or.inr ⟨_, _, _, _, rfl⟩) (fun _ _ _ => trivial) (by decide)

/-- A callback that raises before the switch. -/
theorem failed_publication_example :
    (Publication.run ready (.promoteLatest true true false)).2 = true ∧
      Restored ready (Publication.run ready (.promoteLatest true true false)).1 := by
  have hraised : (Publication.run ready (.promoteLatest true true false)).2 = true := by decide
  exact ⟨hraised, (failed_publication ready_reach (.promoteLatest true true false)).mpr
    (fun hfails => nomatch hfails.2.2.2.2) hraised⟩

/-- The callback raises after the switch: the candidate is open, and the promotion cannot be tried again. -/
theorem promotion_not_restored : ∃ s p, storeMachine.Reachable s ∧ (Publication.run s p).2 = true ∧
    ¬ Restored s (Publication.run s p).1 ∧
    (Publication.run (Publication.run s p).1 (.promoteLatest true false false)).2 = true := by
  refine ⟨ready, .promoteLatest true false true, ready_reach, by decide, fun h => ?_, by decide⟩
  have hopen := h.accepting 1
  exact absurd hopen (by decide)

end MonoAgent.Snapshots
