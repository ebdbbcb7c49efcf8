import MonoAgent.Reload.Accepted

/-!
# A reload is recovered once

In every state of a run that keeps the evidence of failures, commits no transaction after
its update was rolled back and recovers none that has ended, each interrupted reload can be
recovered, and what was recorded of it stays.
-/

namespace MonoAgent.Reload

open MonoAgent.Lib

variable {s s' : State}

/-- What is promised of the recovery in a state, and of the states after it. -/
structure Recoverable (s : State) : Prop where
  /-- The transactions that have not ended have an action, which is accepted and ends them. -/
  pending : ∃ actions, s.journal.pendingRecovery = some actions ∧
    (∀ tx t, s.journal.transactions.get? tx = some t → (t.phase.terminal = false ↔ ∃ r ∈ actions, r.txId = tx)) ∧
    ∀ r ∈ actions, ∀ receipt : Option String, (r.action.retry = true → receipt ≠ none ∧ receipt ≠ some "") →
      s.Restorable r.txId → ∃ j' t', (s.journal.finishRecovery s.files r receipt).commit = some j' ∧
        j'.transactions.get? r.txId = some t' ∧ t'.phase.terminal = true
  evident : ∀ tx t, s.journal.transactions.get? tx = some t → t.phase.failure = true → t.Evident
  kept : ∀ s', reloadMachine.Path Steady s s' → ∀ tx t, s.journal.transactions.get? tx = some t →
    ∃ t', s'.journal.transactions.get? tx = some t' ∧ (t.phase.terminal = true → t'.phase = t.phase) ∧
      t.attemptCount ≤ t'.attemptCount ∧ (∀ g, t.recoveryTarget = some g → t'.recoveryTarget = some g) ∧
      (t.phase.failure = true → ∀ x ∈ t.failed, x ∈ t'.failed)

theorem reloads_recover (h : reloadMachine.Reach Steady s) : Recoverable s := by
  have hinv := recoveryInv_reach h
  have hrow {tx : String} {t : Transaction} := Dict.get?_eq_some hinv.tables.transactions (k := tx) (v := t)
  obtain ⟨actions, hactions, hmem⟩ := mem_pendingRecovery hinv.tables
  refine ⟨⟨actions, hactions, fun tx t hget => ⟨fun ht => ?_, ?_⟩, fun r hr receipt hreceipt hfiles => ?_⟩, ?_, ?_⟩
  · obtain ⟨x, _, hx⟩ := recovers (hinv.row hget).1 ht
    have hsome : ∃ r, s.journal.recovery tx t = some r := by
      rw [Journal.recovery, hx]
      exact ⟨_, rfl⟩
    obtain ⟨r, hr⟩ := hsome
    exact ⟨r, (hmem r).mpr ⟨(tx, t), hrow.mp hget, ht, hr⟩, (recovery_fields hr).1⟩
  · rintro ⟨r, hr, rfl⟩
    obtain ⟨e, he, ht, hrec⟩ := (hmem r).mp hr
    have hid := (recovery_fields hrec).1
    have hsame : e.2 = t := by
      rw [hid, hrow.mpr he] at hget
      exact Option.some.inj hget
    exact hsame ▸ ht
  · obtain ⟨e, he, ht, hrec⟩ := (hmem r).mp hr
    have hid := (recovery_fields hrec).1
    rw [hid] at hfiles ⊢
    exact finishRecovery_accepts hinv he ht hrec hreceipt hfiles
  · intro tx t hget
    exact (hinv.row hget).2.1
  · intro s' hp tx t hget
    obtain ⟨t', hget', hk⟩ := keepsRows_path h hp tx t hget
    exact ⟨t', hget', hk.phase, hk.attempts, hk.target, fun hf => hk.failed ((hinv.row hget).2.1 hf).target⟩

/-! ## Runs -/

/-- A plugin that is enabled and has no pointers. -/
def plainFiles : Files where
  pointers _ := .absent
  manifest _ := some fun _ => some true
  artifact _ _ := true
  resolve := id

def fresh : State := { files := plainFiles }

/-- The state after some actions on a new journal. -/
def after (actions : List Action) : State := (reloadMachine.run fresh actions).getD fresh

theorem after_reach {ok : State → Action → Prop} {actions : List Action} (h : ∀ a ∈ actions, ∀ s, ok s a)
    (hs : (reloadMachine.run fresh actions).isSome = true) : reloadMachine.Reach ok (after actions) :=
  Machine.reach_getD rfl h hs

def beginReload : Action :=
  .call (.begin "t" { pluginId := "memory@local", generationId := "g", sourceRevision := "r",
                      candidateArtifactPointer := some "c" })

/-- A reload fails in its first phase. -/
def failRun : List Action :=
  [beginReload, .call (.advance "t" .cleanupFailed
    { error := some "stopped", resource := some "tools, hooks", recoveryTarget := some .base })]

theorem reloads_recover_example : Recoverable (after failRun) := by
  refine reloads_recover (after_reach (fun a ha s => ?_) rfl)
  simp only [failRun, beginReload, List.mem_cons, List.not_mem_nil, or_false] at ha
  rcases ha with rfl | rfl
  · trivial
  · exact fun heq => nomatch heq

/-- An update is armed and linked, rolled back, and its reload is committed after that. -/
def commitRun : List Action :=
  [.call (.armUpdate "u" "memory@local" ["cache", "local", "memory"] none (some "c") (some true)), beginReload,
    .call (.advance "t" .prepared {}), .call (.advance "t" .validating {}), .call (.advance "t" .commitStarted {}),
    .call (.rollbackUpdates [] none ["u"]), .call (.advance "t" .committed {})]

/-- A note drops a failed resource, and the action of a committed transaction is refused. -/
theorem recovery_lost :
    (∃ s s' t t', reloadMachine.Reachable s ∧ reloadMachine.Path Machine.always s s' ∧
      s.journal.transactions.get? "t" = some t ∧ t.phase.failure = true ∧ "hooks" ∈ t.failed ∧
      s'.journal.transactions.get? "t" = some t' ∧ "hooks" ∉ t'.failed) ∧
    ∃ s actions r, reloadMachine.Reachable s ∧ s.journal.pendingRecovery = some actions ∧ r ∈ actions ∧
      r.action = .discardCandidate ∧ (∀ e ∈ s.journal.updates, e.2.phase ≠ .armed) ∧
      (s.journal.finishRecovery s.files r none).commit = none := by
  constructor
  · let note : Action := .call (.annotate "t" [("resource", .str "tools")])
    have hreach : reloadMachine.Reachable (after failRun) := after_reach (fun _ _ _ => trivial) rfl
    have hpath : reloadMachine.Path Machine.always (after failRun) ((after failRun).next note) :=
      .step note .refl trivial rfl
    refine ⟨_, _, _, _, hreach, hpath, rfl, ?_, ?_, rfl, ?_⟩
    · decide
    · decide
    · decide
  · have hreach : reloadMachine.Reachable (after commitRun) := after_reach (fun _ _ _ => trivial) rfl
    refine ⟨_, _, _, hreach, rfl, List.mem_singleton.mpr rfl, ?_, ?_, ?_⟩
    · decide
    · decide
    · decide

end MonoAgent.Reload
