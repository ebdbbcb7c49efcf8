import MonoAgent.Reload.Tables

/-!
# What a call commits

A call that returns has changed the tables in one of a few ways, and one that ends a
transaction takes its update along: `advance` to `committed` and `aborted`, and the retry of
the host.
-/

namespace MonoAgent.Reload

open MonoAgent.Lib

variable {j j' : Journal} {s : State} {fs : Files} {tx id : String} {t t' : Transaction}
  {e : String × UpdateRollback} {phase : Phase} {a : Advance} {r : Recovery} {b : Bool}

/-! ## Updates are rolled back -/

/-- The update of a transaction is rolled back, if one is armed. -/
inductive Unlinks (j : Journal) (tx : String) : Journal → Prop where
  | free (h : j.Free tx) : Unlinks j tx j
  | rolledBack (e : String × UpdateRollback) (hmem : e ∈ j.updates) (hlink : e.2.reloadTxId = some tx)
      (harmed : e.2.phase = .armed) : Unlinks j tx (j.settle (fun id _ => id = e.1) .rolledBack)

/-- Updates are rolled back one after the other. -/
inductive Rollbacks (j : Journal) : Journal → Prop where
  | refl : Rollbacks j j
  | step {j' : Journal} (id : String) : Rollbacks j j' → Rollbacks j (j'.settle (fun i _ => i = id) .rolledBack)

theorem Rollbacks.trans {j₁ j₂ j₃ : Journal} (h : Rollbacks j₁ j₂) (h' : Rollbacks j₂ j₃) : Rollbacks j₁ j₃ := by
  induction h' with
  | refl => exact h
  | step id _ ih => exact .step id ih

theorem rollback_commit {home : Directory} (h : (j.rollback fs id home).commit = some j') :
    j' = j.settle (fun i _ => i = id) .rolledBack := by
  rw [Journal.rollback] at h
  split at h
  · cases h
  · split at h
    · cases h
    · exact (Option.some.inj h).symm

theorem rollbackLinked_unlinks (h : (j.rollbackLinked fs tx).commit = some j') : Unlinks j tx j' := by
  rw [Journal.rollbackLinked] at h
  split at h
  · next hnone =>
      cases h
      refine .free fun e he hlink ha => ?_
      have hno := List.find?_eq_none.mp hnone e he
      exact hno (decide_eq_true ⟨hlink, ha⟩)
  · next e hsome =>
      have hfound := List.find?_some hsome
      obtain ⟨hlink, ha⟩ := of_decide_eq_true hfound
      rw [rollback_commit h]
      exact .rolledBack e (List.mem_of_find?_eq_some hsome) hlink ha

theorem andThen_commit {x : Attempt} {f : Journal → Files → Attempt} (h : (x.andThen fs f).commit = some j') :
    ∃ j₁, x.commit = some j₁ ∧ (f j₁ (x.files fs)).commit = some j' := by
  rw [Attempt.andThen] at h
  split at h
  · next hnone => exact absurd (hnone.symm.trans h) nofun
  · next j₁ hsome => exact ⟨j₁, hsome, h⟩

theorem rollbackAll_rollbacks {home : Directory} {order : List String}
    (h : (Journal.rollbackAll home order j fs).commit = some j') : Rollbacks j j' := by
  induction order generalizing j fs with
  | nil =>
      cases h
      exact .refl
  | cons id rest ih =>
      obtain ⟨j₁, h₁, h⟩ := andThen_commit h
      rw [rollback_commit h₁] at h
      exact Rollbacks.trans (.step id .refl) (ih h)

theorem rollbackUpdates_rollbacks {home : Directory} {updateId : Option String} {order : List String}
    (h : (j.rollbackUpdates fs home updateId order).commit = some j') : Rollbacks j j' := by
  rw [Journal.rollbackUpdates] at h
  split at h
  · exact rollbackAll_rollbacks h
  · cases h

/-! ## Transactions advance -/

/-- A transaction advances to a phase, and takes its update along. -/
inductive Advances (j : Journal) (tx : String) (phase : Phase) : Journal → Prop where
  | plain {t t' : Transaction} (hget : j.transactions.get? tx = some t) (h : t.Advanced phase t')
      (hc : phase ≠ .committed) (ha : phase ≠ .aborted) : Advances j tx phase (j.put tx t')
  | committed {t t' : Transaction} (hget : j.transactions.get? tx = some t) (h : t.Advanced phase t')
      (hc : phase = .committed) : Advances j tx phase ((j.put tx t').commit tx)
  | aborted {t t' : Transaction} {j' : Journal} (hget : j.transactions.get? tx = some t) (h : t.Advanced phase t')
      (ha : phase = .aborted) (hu : Unlinks (j.put tx t') tx j') : Advances j tx phase j'

theorem advance_advances (h : (j.advance fs tx phase a).commit = some j') : Advances j tx phase j' := by
  rw [Journal.advance] at h
  split at h
  · cases h
  · next j₁ hwrite =>
      obtain ⟨t, t', hget, hadv, rfl⟩ := write_eq_some.mp hwrite
      have hadv := Transaction.advance_advanced hadv
      split at h
      · cases h
        exact .committed hget hadv rfl
      · exact .aborted hget hadv rfl (rollbackLinked_unlinks h)
      · next hc ha =>
          cases h
          exact .plain hget hadv hc ha

/-- The host has finished a retry. -/
inductive Retries (j : Journal) (r : Recovery) : Journal → Prop where
  | candidate {t : Transaction} (hget : j.transactions.get? r.txId = some t) (hcurrent : t.phase = r.phase)
      (hcand : r.recoveryTarget = some .candidate) :
      Retries j r ((j.put r.txId { t with phase := .recovered }).commit r.txId)
  | base {t : Transaction} {phase : Phase} {j' : Journal} (hget : j.transactions.get? r.txId = some t)
      (hcurrent : t.phase = r.phase) (hbase : r.recoveryTarget ≠ some .candidate) (hphase : phase.terminal = true)
      (hu : Unlinks (j.put r.txId { t with phase }) r.txId j') : Retries j r j'

theorem finishHostRetry_retries (h : (j.finishHostRetry fs r).commit = some j') : Retries j r j' := by
  rw [Journal.finishHostRetry] at h
  split at h
  · cases h
  · next j₁ hwrite =>
      obtain ⟨t, t', hget, hput, rfl⟩ := write_eq_some.mp hwrite
      split at hput
      · next hguard =>
          cases hput
          split at h
          · next hcand =>
              cases h
              have hphase : ¬ (r.action = .retryGenerationCleanup ∧ r.recoveryTarget = some .base) := by
                rintro ⟨_, hbase⟩
                exact absurd (hbase.symm.trans hcand) nofun
              rw [if_neg hphase]
              exact .candidate hget hguard.1 hcand
          · next hbase =>
              refine .base hget hguard.1 hbase ?_ (rollbackLinked_unlinks h)
              split
              · rfl
              · rfl
      · cases hput

/-- What `finish_recovery` commits. -/
inductive Finishes (j : Journal) (r : Recovery) (receipt : Option String) : Journal → Prop where
  | advances {phase : Phase} {j' : Journal} {t : Transaction} (hget : j.transactions.get? r.txId = some t)
      (hcurrent : t.phase = r.phase) (hnot : r.action.retry = false)
      (hphase : phase = if r.action = .discardCandidate then .aborted else .recovered)
      (h : Advances j r.txId phase j') : Finishes j r receipt j'
  | retries {j' : Journal} (hretry : r.action.retry = true) (h : Retries j r j') : Finishes j r receipt j'

theorem finishRecovery_finishes {receipt : Option String} (h : (j.finishRecovery fs r receipt).commit = some j') :
    Finishes j r receipt j' := by
  rw [Journal.finishRecovery] at h
  split at h
  · cases h
  · next t hget =>
      have hget := (Option.filter_eq_some_iff.mp hget).1
      split at h
      · cases h
      · next hcurrent =>
          rw [Bool.not_eq_false, Journal.current] at hcurrent
          obtain ⟨hphase, _⟩ := of_decide_eq_true hcurrent
          split at h
          · next hretry =>
              split at h
              · cases h
              · exact .retries hretry (finishHostRetry_retries h)
          · next hretry =>
              rw [Bool.not_eq_true] at hretry
              exact .advances hget hphase hretry rfl (advance_advances h)

/-! ## New rows -/

/-- A new update. -/
structure Arms (j : Journal) (id : String) (u : UpdateRollback) : Prop where
  fresh : id ∉ j.updates.keys
  armed : u.phase = .armed
  link : u.reloadTxId = none
  active : ∀ e ∈ j.updates, e.2.pluginId = u.pluginId → e.2.phase ≠ .armed

theorem armUpdate_arms {pluginId : String} {pluginBase : Directory} {previous : Option ArtifactPointers}
    {candidate : Option String} {previousEnabled : Option Bool}
    (h : j.armUpdate fs id pluginId pluginBase previous candidate previousEnabled = some j') :
    ∃ u, Arms j id u ∧ j' = { j with updates := j.updates ++ [(id, u)] } := by
  rw [Journal.armUpdate] at h
  simp only [Option.bind_eq_bind, Option.bind_eq_some_iff, Option.guard_eq_some'] at h
  obtain ⟨candidate, _, _, ⟨_, hfresh⟩, _, hactive, h⟩ := h
  exact ⟨_, ⟨hfresh, rfl, rfl, hactive⟩, (Option.some.inj h).symm⟩

/-- A new transaction, with the update of the plugin that is armed. -/
inductive Begins (j : Journal) (tx : String) (t : Transaction) : Journal → Prop where
  | free (h : ∀ e ∈ j.updates, e.2.pluginId = t.pluginId → e.2.phase ≠ .armed) :
      Begins j tx t { j with transactions := j.transactions ++ [(tx, t)] }
  | linked (e : String × UpdateRollback) (hmem : e ∈ j.updates) (hplugin : e.2.pluginId = t.pluginId)
      (harmed : e.2.phase = .armed) (hlink : e.2.reloadTxId = none) :
      Begins j tx t { transactions := j.transactions ++ [(tx, t)],
                      updates := j.updates.set e.1 { e.2 with reloadTxId := some tx } }

theorem begin_begins {x : Begin} (h : j.begin tx x = some j') : ∃ t : Transaction, tx ∉ j.transactions.keys ∧
    t.phase = .preparing ∧ t.Sound ∧ Begins j tx t j' := by
  rw [Journal.begin] at h
  simp only [Option.bind_eq_bind, Option.bind_eq_some_iff, Option.guard_eq_some'] at h
  obtain ⟨_, hfresh, h⟩ := h
  refine ⟨x.row, hfresh, rfl, Transaction.sound_new rfl rfl rfl rfl, ?_⟩
  rw [Journal.link] at h
  split at h
  · next hnone =>
      cases h
      refine .free fun e he hplugin ha => ?_
      exact List.find?_eq_none.mp hnone e he (decide_eq_true ⟨hplugin, ha⟩)
  · next e hsome =>
      have hfound := List.find?_some hsome
      obtain ⟨hplugin, ha⟩ := of_decide_eq_true hfound
      split at h
      · cases h
      · next hlink =>
          cases h
          rw [not_or, not_not] at hlink
          exact .linked e (List.mem_of_find?_eq_some hsome) hplugin ha (not_not.mp hlink.2)

theorem commitUpdate_settles (h : j.commitUpdate id = some j') : ∃ u, j.updates.get? id = some u ∧
    u.phase = .armed ∧ u.reloadTxId = none ∧ j' = j.settle (fun i _ => i = id) .committed := by
  rw [Journal.commitUpdate] at h
  split at h
  · cases h
  · next u hget =>
      split at h
      · next hu => exact ⟨u, hget, hu.1, hu.2, (Option.some.inj h).symm⟩
      · cases h

end MonoAgent.Reload
