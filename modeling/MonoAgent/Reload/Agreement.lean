import MonoAgent.Reload.Outcomes
import MonoAgent.Reload.Recoverable
import MonoAgent.Reload.Restored

/-!
# Updates agree with their reloads

The outcome of an update is final, and it is that of its reload.  A reload that `advance`
takes to `recovered` leaves its update armed: in a run where no update is armed then, no
transaction that has ended holds one.
-/

namespace MonoAgent.Reload

open MonoAgent.Lib

variable {j j' : Journal} {s s' : State} {c : Call} {home : Directory} {order order' : List String}
  {updateId : Option String} {b : Bool}

/-! ## Ended transactions -/

/-- No update is armed when `advance` takes its transaction to `recovered`. -/
def Call.Frees (s : State) : Call → Prop
  | .advance txId phase _ => phase = .recovered → s.journal.Free txId
  | .finishRecovery r _ => r.action.retry = false → r.action ≠ .discardCandidate → s.journal.Free r.txId
  | _ => True

def Frees (s : State) : Action → Prop
  | .call c => c.Frees s
  | _ => True

theorem commit_released (ht : Tables s.journal) (hr : Released b s.journal) (hf : b = true → c.Frees s)
    (h : (c.attempt s).commit = some j') : Released b j' := by
  cases c with
  | armUpdate =>
      obtain ⟨u, harms, rfl⟩ := armUpdate_arms h
      exact harms.released hr
  | commitUpdate =>
      obtain ⟨_, _, _, _, rfl⟩ := commitUpdate_settles h
      exact hr.settle nofun
  | rollbackUpdates => exact (rollbackUpdates_rollbacks h).released hr
  | begin =>
      obtain ⟨t, hfresh, hp, _, hb⟩ := begin_begins h
      exact hb.released hfresh hp hr
  | markRuntimeOwner =>
      obtain ⟨t, t', hget, hmark, rfl⟩ := write_eq_some.mp h
      refine hr.put fun hp => hr _ (Dict.mem_of_get? hget) ?_
      rwa [(Transaction.markRuntimeOwner_noted hmark).1.phase] at hp
  | advance => exact (advance_advances h).released ht hr hf
  | annotate =>
      obtain ⟨t, t', hget, hnote, rfl⟩ := write_eq_some.mp h
      refine hr.put fun hp => hr _ (Dict.mem_of_get? hget) ?_
      rwa [(Transaction.annotate_noted hnote).1.phase] at hp
  | finishRecovery =>
      cases finishRecovery_finishes h with
      | advances _ _ hnot hphase ha =>
          refine ha.released ht hr fun hb heq => hf hb hnot fun hdiscard => ?_
          rw [heq, if_pos hdiscard] at hphase
          cases hphase
      | retries _ hretries => exact hretries.released ht hr

theorem released_reach (h : reloadMachine.Reach Frees s) : Released true s.journal := by
  have hboth : Tables s.journal ∧ Released true s.journal := by
    refine h.invariant (I := fun s => Tables s.journal ∧ Released true s.journal) (fun s hs => ?_)
      fun s a s' hi ha hn => ?_
    · rw [show s.journal = {} from hs]
      exact ⟨tables_empty, fun e he => absurd he List.not_mem_nil⟩
    · rcases next_journal hn with heq | ⟨c, rfl, hc⟩
      · rw [heq]
        exact hi
      · exact ⟨commit_tables hc hi.1, commit_released hi.1 hi.2 (fun _ => ha) hc⟩
  exact hboth.2

theorem releases_of_terminal {phase : Phase} (h : phase.terminal = true) : phase.releases true = true := by
  cases phase with
  | complete | aborted | recovered => rfl
  | _ => cases h

/-! ## A call that is run again -/

theorem armed_nodup (ht : Tables j) : (j.armed updateId).Nodup := Dict.nodup_keys_filter ht.updates _

/-- The updates of a call are rolled back in the rows. -/
theorem rollbackAll_rolledBack {fs : Files} {id : String} (h : (Journal.rollbackAll home order j fs).commit = some j')
    (hid : id ∈ order) (ht : Tables j) : ∃ v, j'.updates.get? id = some v ∧ v.phase = .rolledBack := by
  induction order generalizing j fs with
  | nil => exact absurd hid List.not_mem_nil
  | cons first rest ih =>
      obtain ⟨j₁, h₁, h⟩ := andThen_commit h
      obtain ⟨u, ws, hu, hws, _⟩ := rollback_writes h₁
      rw [rollback_commit h₁] at h
      rcases List.mem_cons.mp hid with rfl | hid
      · have harmed := (rollback_eq_some.mp hws).1.armed
        have hmem : (id, { u with phase := .rolledBack }) ∈ (j.settle (fun i _ => i = id) .rolledBack).updates := by
          refine List.mem_map.mpr ⟨(id, u), Dict.mem_of_get? hu, if_pos ⟨decide_eq_true rfl, harmed⟩⟩
        have hr := rollbackAll_rollbacks h
        obtain ⟨f, hf, (hfid : f.1 = id), hfollows⟩ := hr.updates _ hmem
        refine ⟨f.2, Dict.get?_of_mem (hr.tables ht.rolledBack).updates (hfid ▸ hf), hfollows.phase nofun⟩
      · exact ih h hid ht.rolledBack

/-- Stopped after any of its writes and run again, a call restores every update it is about. -/
theorem rollbackUpdates_again (ht : Tables s.journal)
    (h : (s.journal.rollbackUpdates s.files home updateId order).commit ≠ none) (n : Nat) (hperm : order'.Perm order)
    {id : String} (hid : id ∈ order) :
    ∃ u v, s.journal.updates.get? id = some u ∧
      (((s.next (.crash (.rollbackUpdates home updateId order) n)).next
        (.call (.rollbackUpdates home updateId order'))).journal.updates.get? id = some v) ∧ v.phase = .rolledBack ∧
      u.Restored home ((s.next (.crash (.rollbackUpdates home updateId order) n)).next
        (.call (.rollbackUpdates home updateId order'))).files := by
  obtain ⟨j', h⟩ := Option.ne_none_iff_exists'.mp h
  rw [Journal.rollbackUpdates] at h
  split at h
  · next harmed =>
      have hnd : order.Nodup := harmed.nodup_iff.mpr (armed_nodup ht)
      have hready := rollbackAll_ready hnd ht h
      have hwrites := (rollbackAll_restores hnd ht hready).2.1
      generalize hstop : s.next (.crash (.rollbackUpdates home updateId order) n) = stopped
      have hjournal : stopped.journal = s.journal := hstop ▸ rfl
      have hstopped : AllReady stopped.journal home order' stopped.files := by
        have hfiles : stopped.files = s.files ∨
            stopped.files ∈ (Journal.rollbackAll home order s.journal s.files).writes := by
          rw [← hstop, State.next, Call.attempt, Journal.rollbackUpdates, if_pos harmed]
          dsimp only
          cases hlast : ((Journal.rollbackAll home order s.journal s.files).writes.take n).getLast? with
          | none => exact Or.inl rfl
          | some fs => exact Or.inr (List.mem_of_mem_take (List.mem_of_getLast? hlast))
        intro i hi
        rw [hjournal]
        rcases hfiles with heq | hmem
        · rw [heq]
          exact hready i (hperm.mem_iff.mp hi)
        · exact hwrites _ hmem i (hperm.mem_iff.mp hi)
      have hagain : stopped.journal.rollbackUpdates stopped.files home updateId order' =
          Journal.rollbackAll home order' stopped.journal stopped.files := by
        rw [Journal.rollbackUpdates, if_pos (hjournal ▸ hperm.trans harmed)]
      have htables : Tables stopped.journal := hjournal ▸ ht
      obtain ⟨⟨j₂, hcommit⟩, _, hrestored, _⟩ := rollbackAll_restores (hperm.nodup_iff.mpr hnd) htables hstopped
      obtain ⟨u, hu, hr⟩ := hrestored id (hperm.mem_iff.mpr hid)
      obtain ⟨v, hv, hphase⟩ := rollbackAll_rolledBack hcommit (hperm.mem_iff.mpr hid) htables
      refine ⟨u, v, hjournal ▸ hu, ?_, hphase, ?_⟩
      · rw [State.next, Call.attempt, hagain, hcommit]
        exact hv
      · rw [State.next, Call.attempt, hagain]
        exact hr
  · cases h

/-! ## Agreement -/

/-- What is promised of the updates in a state. -/
structure Agrees (s : State) : Prop where
  active : ∀ e ∈ s.journal.updates, ∀ f ∈ s.journal.updates, e.2.pluginId = f.2.pluginId → e.2.phase = .armed →
    f.2.phase = .armed → e.1 = f.1
  /-- An update leaves `armed` once. -/
  once : ∀ s', reloadMachine.Path Machine.always s s' → ∀ id u, s.journal.updates.get? id = some u →
    ∃ v, s'.journal.updates.get? id = some v ∧ (u.phase ≠ .armed → v.phase = u.phase)
  /-- A linked update was committed where its reload was. -/
  committed : ∀ s₀ actions, reloadMachine.start s₀ → reloadMachine.run s₀ actions = some s →
    ∀ e ∈ s.journal.updates, e.2.phase = .committed → ∀ tx, e.2.reloadTxId = some tx →
      ∃ before a rest s₁ s₂, actions = before ++ a :: rest ∧ reloadMachine.run s₀ before = some s₁ ∧
        reloadMachine.next s₁ a = some s₂ ∧ Commits s₁ a s₂ tx
  rolledBack : ∀ actions r, s.journal.pendingRecovery = some actions → r ∈ actions →
    (∃ e ∈ s.journal.updates, e.2.phase = .rolledBack ∧ e.2.reloadTxId = some r.txId) →
      r.action = .discardCandidate ∨ r.recoveryTarget = some .base
  /-- The transaction of an armed update has not ended. -/
  ended : ∀ e ∈ s.journal.updates, e.2.phase = .armed → ∀ tx, e.2.reloadTxId = some tx →
    ∃ t, s.journal.transactions.get? tx = some t ∧ t.phase.terminal = false
  /-- A rollback that is stopped after a write and run again restores the files. -/
  again : ∀ id u, s.journal.updates.get? id = some u → ∀ home ws fs, u.rollback home s.files = some ws → fs ∈ ws →
    ∃ ws', u.rollback home fs = some ws' ∧ u.Restored home (ws'.getLast?.getD fs)
  rerun : ∀ home updateId order, (s.journal.rollbackUpdates s.files home updateId order).commit ≠ none →
    ∀ n order', order'.Perm order → ∀ id ∈ order, ∃ u v, s.journal.updates.get? id = some u ∧
      (((s.next (.crash (.rollbackUpdates home updateId order) n)).next
        (.call (.rollbackUpdates home updateId order'))).journal.updates.get? id = some v) ∧ v.phase = .rolledBack ∧
      u.Restored home ((s.next (.crash (.rollbackUpdates home updateId order) n)).next
        (.call (.rollbackUpdates home updateId order'))).files

theorem recovery_rolledBack {actions : List Recovery} {r : Recovery} (ht : Tables s.journal)
    (h : s.journal.pendingRecovery = some actions) (hr : r ∈ actions)
    (hu : ∃ e ∈ s.journal.updates, e.2.phase = .rolledBack ∧ e.2.reloadTxId = some r.txId) :
    r.recoveryTarget = some .base := by
  obtain ⟨actions', hactions, hmem⟩ := mem_pendingRecovery ht
  rw [h] at hactions
  cases hactions
  obtain ⟨e, _, _, hrec⟩ := (hmem r).mp hr
  obtain ⟨f, hf, hphase, hlink⟩ := hu
  rw [(recovery_fields hrec).1] at hlink
  obtain ⟨x, _, rfl⟩ := Option.map_eq_some_iff.mp hrec
  have hany : (s.journal.updates.any fun u => u.2.phase = .rolledBack ∧ u.2.reloadTxId = some e.1) = true :=
    List.any_eq_true.mpr ⟨f, hf, decide_eq_true ⟨hphase, hlink⟩⟩
  exact if_pos hany

theorem updates_agree (h : reloadMachine.Reach Frees s) : Agrees s := by
  have ht := tables_reach h
  refine ⟨ht.active, fun s' hp id u hu => ?_, fun s₀ actions hstart hrun e he hphase tx hlink => ?_,
    fun actions r hactions hr hu => Or.inr (recovery_rolledBack ht hactions hr hu), fun e he ha tx hlink => ?_,
    fun id u hu home ws fs hws hfs => rollback_again hws hfs,
    fun home updateId order hcommit n order' hperm id hid => rollbackUpdates_again ht hcommit n hperm hid⟩
  · obtain ⟨f, hf, (hid : f.1 = id), hfollows⟩ := keepsUpdates_path h hp _ (Dict.mem_of_get? hu)
    have hreach : reloadMachine.Reachable s := h.mono fun _ _ _ => trivial
    have hlater := (tables_reach (hreach.path hp)).updates
    exact ⟨f.2, Dict.get?_of_mem hlater (hid ▸ hf), hfollows.phase⟩
  · have hnone : ¬ CommittedFor s₀.journal tx := by
      rintro ⟨f, hf, _⟩
      rw [show s₀.journal = {} from hstart] at hf
      exact List.not_mem_nil hf
    have hempty : Tables s₀.journal := by
      rw [show s₀.journal = {} from hstart]
      exact tables_empty
    refine Machine.run_cause (I := fun s => Tables s.journal) (P := fun s => CommittedFor s.journal tx)
      (C := fun s a s' => Commits s a s' tx) (fun s a s' hi hn => ?_) (fun s a s' hi hn => step_commits hi hn) hempty
      hnone hrun ⟨e, he, hphase, hlink⟩
    rcases next_journal hn with heq | ⟨c, _, hc⟩
    · rw [heq]
      exact hi
    · exact commit_tables hc hi
  · obtain ⟨t, hmem⟩ := Dict.mem_keys.mp (ht.refers e he tx hlink)
    refine ⟨t, Dict.get?_of_mem ht.transactions hmem, ?_⟩
    cases hterminal : t.phase.terminal with
    | false => rfl
    | true => exact absurd ha (released_reach h _ hmem (releases_of_terminal hterminal) e he hlink)

/-- An update that is armed and linked is rolled back. -/
theorem updates_agree_example : Agrees (after (commitRun.take 6)) := by
  refine updates_agree (after_reach (fun a ha s => ?_) rfl)
  simp only [commitRun, beginReload, List.take_succ_cons, List.take_zero, List.mem_cons, List.not_mem_nil, or_false] at ha
  rcases ha with rfl | rfl | rfl | rfl | rfl | rfl
  · trivial
  · trivial
  · intro heq
    cases heq
  · intro heq
    cases heq
  · intro heq
    cases heq
  · trivial

/-- The reload of an armed update is recovered. -/
def recoverRun : List Action := commitRun.take 5 ++ [.call (.advance "t" .recovered {})]

/-- The update stays armed after its reload has ended, and the plugin takes neither an update nor a reload. -/
theorem recovered_holds : ∃ s t u, reloadMachine.Reachable s ∧ s.journal.transactions.get? "t" = some t ∧
    t.phase = .recovered ∧ s.journal.updates.get? "u" = some u ∧ u.reloadTxId = some "t" ∧ u.phase = .armed ∧
    s.journal.armUpdate s.files "v" u.pluginId u.pluginBase none (some "d") none = none ∧
    s.journal.begin "w" { pluginId := u.pluginId, generationId := "h", sourceRevision := "q",
                          candidateArtifactPointer := some u.candidate } = none := by
  have hreach : reloadMachine.Reachable (after recoverRun) := after_reach (fun _ _ _ => trivial) rfl
  refine ⟨_, _, _, hreach, rfl, ?_, rfl, ?_, ?_, ?_, ?_⟩
  · decide
  · decide
  · decide
  · decide
  · decide

end MonoAgent.Reload
