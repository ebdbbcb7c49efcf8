import MonoAgent.Reload.Recovery

/-!
# The actions of `pending_recovery`

Each transaction that has not ended has one action, which `finish_recovery` takes while the
journal is unchanged.
-/

namespace MonoAgent.Reload

open MonoAgent.Lib

variable {j j' : Journal} {s s' : State} {fs : Files} {tx : String} {t : Transaction} {r : Recovery}
  {receipt : Option String}

/-! ## Actions -/

theorem mapM_total {α β : Type} {f : α → Option β} {l : List α} (h : ∀ x ∈ l, ∃ y, f x = some y) :
    ∃ out, l.mapM f = some out ∧ ∀ y, y ∈ out ↔ ∃ x ∈ l, f x = some y := by
  induction l with
  | nil => exact ⟨[], rfl, fun y => by simp⟩
  | cons x rest ih =>
      obtain ⟨y, hy⟩ := h x List.mem_cons_self
      obtain ⟨out, hout, hmem⟩ := ih fun x hx => h x (List.mem_cons_of_mem _ hx)
      refine ⟨y :: out, ?_, fun z => ?_⟩
      · rw [List.mapM_cons, hy, hout]
        rfl
      · simp [hmem, hy, eq_comm]

/-- The phase of a transaction that has not ended has an action, and no other is stored. -/
theorem recovers (h : t.Sound) (ht : t.phase.terminal = false) :
    ∃ x, t.phase.action = some x ∧ recoveryAction t.phase t.recoveryAction = some x := by
  have hsome : ∃ x, t.phase.action = some x := by
    cases hphase : t.phase with
    | complete | aborted | recovered =>
        rw [hphase] at ht
        cases ht
    | _ => exact ⟨_, rfl⟩
  obtain ⟨x, hx⟩ := hsome
  refine ⟨x, hx, ?_⟩
  rcases h.action with hnone | hnone | heq
  · rw [recoveryAction, hnone, Option.none_or, hx]
  · exact absurd (hnone.symm.trans hx) nofun
  · rw [recoveryAction, heq, hx, Option.some_or]

theorem mem_pendingRecovery (h : Tables j) : ∃ actions, j.pendingRecovery = some actions ∧
    ∀ r, r ∈ actions ↔ ∃ e ∈ j.transactions, e.2.phase.terminal = false ∧ j.recovery e.1 e.2 = some r := by
  have htotal : ∀ e ∈ j.transactions.filter (fun e => e.2.phase.terminal = false),
      ∃ r, j.recovery e.1 e.2 = some r := by
    intro e he
    obtain ⟨hmem, hphase⟩ := List.mem_filter.mp he
    obtain ⟨x, _, hx⟩ := recovers (h.sound e hmem) (of_decide_eq_true hphase)
    rw [Journal.recovery, hx]
    exact ⟨_, rfl⟩
  obtain ⟨out, hout, hmem⟩ := mapM_total htotal
  refine ⟨_, by rw [Journal.pendingRecovery, hout, Option.map_some], fun r => ?_⟩
  rw [List.mem_insertionSort, hmem]
  simp only [List.mem_filter, decide_eq_true_eq, and_assoc]

/-- What an action takes from its row. -/
theorem recovery_fields (h : j.recovery tx t = some r) : r.txId = tx ∧ r.phase = t.phase ∧
    r.generationId = t.generationId ∧ r.sourceRevision = t.sourceRevision ∧ r.attemptCount = t.attemptCount := by
  obtain ⟨_, _, rfl⟩ := Option.map_eq_some_iff.mp h
  exact ⟨rfl, rfl, rfl, rfl, rfl⟩

/-- The action is that of the row, or discards a transaction whose update was rolled back. -/
theorem recovery_action {x : RecoveryAction} (h : j.recovery tx t = some r)
    (hx : recoveryAction t.phase t.recoveryAction = some x) : r.action = x ∨
      r.action = .discardCandidate ∧ x.retry = false ∧
        ∃ u ∈ j.updates, u.2.phase = .rolledBack ∧ u.2.reloadTxId = some tx := by
  rw [Journal.recovery, hx] at h
  cases h
  dsimp only
  split
  · next hr =>
      obtain ⟨u, hu, hp⟩ := List.any_eq_true.mp hr.1
      exact Or.inr ⟨rfl, hr.2, u, hu, of_decide_eq_true hp⟩
  · exact Or.inl rfl

/-! ## Acceptance -/

/-- The files of an armed update of the transaction can be rolled back. -/
def State.Restorable (s : State) (txId : String) : Prop :=
  ∀ e ∈ s.journal.updates, e.2.reloadTxId = some txId → e.2.phase = .armed →
    (e.2.rollback (e.2.pluginBase.take (e.2.pluginBase.length - 3)) s.files).isSome = true

theorem rollbackLinked_commits (ht : Tables j) (h : ∀ e ∈ j.updates, e.2.reloadTxId = some tx → e.2.phase = .armed →
    (e.2.rollback (e.2.pluginBase.take (e.2.pluginBase.length - 3)) fs).isSome = true) :
    ∃ j', (j.rollbackLinked fs tx).commit = some j' ∧ j'.transactions = j.transactions := by
  rw [Journal.rollbackLinked]
  split
  · exact ⟨j, rfl, rfl⟩
  · next e hsome =>
      have hmem := List.mem_of_find?_eq_some hsome
      have hfound := List.find?_some hsome
      obtain ⟨hlink, ha⟩ := of_decide_eq_true hfound
      obtain ⟨writes, hwrites⟩ := Option.isSome_iff_exists.mp (h e hmem hlink ha)
      rw [Journal.rollback, Dict.get?_of_mem ht.updates hmem]
      dsimp only
      rw [hwrites]
      exact ⟨_, rfl, rfl⟩

/-- A phase without action and evidence is taken with the details of `finish_recovery`. -/
theorem advance_finishes {phase : Phase} {x : RecoveryAction} {n : Int} {w : Option String}
    {action : Option RecoveryAction} (h : phase ∈ t.phase.transitions) (hp : phase.terminal = true)
    (hx : action ≠ none) :
    ∃ t', t.advance phase { details := [("recovery_action", .str x.name), ("attempt_count", .int n)], error := w
                            recoveryAction := action } = some t' := by
  obtain ⟨haction, hfailure⟩ := Transaction.terminal_phase hp
  obtain ⟨y, rfl⟩ := Option.ne_none_iff_exists'.mp hx
  cases w with
  | none => simp [Transaction.advance, guard, h, orDetail, detailString, Dict.get?, List.lookup, Transaction.nextResource,
      Transaction.nextEffects, Transaction.detailEffects, Transaction.nextAction, Advance.givenAction, haction,
      Transaction.nextAttemptCount, Transaction.nextError, Transaction.nextRecoveryTarget, hfailure]
  | some w => simp [Transaction.advance, guard, h, orDetail, detailString, Dict.get?, List.lookup, Transaction.nextResource,
      Transaction.nextEffects, Transaction.detailEffects, Transaction.nextAction, Advance.givenAction, haction,
      Transaction.nextAttemptCount, Transaction.nextError, Transaction.nextRecoveryTarget, hfailure]

/-- The phases that `finish_recovery` may abort and may recover. -/
theorem aborts_of_action {phase : Phase}
    (h : phase.action = some .discardCandidate ∨ phase = .commitStarted ∨ phase = .promoting) :
    Phase.aborted ∈ phase.transitions := by
  rcases h with h | rfl | rfl
  · cases phase with
    | preparing | prepared | validating | latestReady | discarding => simp [Phase.transitions]
    | _ => cases h
  · simp [Phase.transitions]
  · simp [Phase.transitions]

theorem recovers_of_action {phase : Phase} (h : phase.action = some .restoreCommitted) :
    Phase.recovered ∈ phase.transitions := by
  cases phase with
  | commitStarted | promoting | committed | draining => simp [Phase.transitions]
  | _ => cases h

theorem failure_of_retry {phase : Phase} {x : RecoveryAction} (h : phase.action = some x) (hx : x.retry = true) :
    phase.failure = true := by
  cases phase with
  | cleanupFailed | degraded => rfl
  | complete | aborted | recovered => cases h
  | _ =>
      cases h
      cases hx

/-- What may be done instead of the action of a phase. -/
theorem rolledBack_phase {phase : Phase} {x : RecoveryAction} (h : phase.action = some x) (hx : x.retry = false)
    (hc : ¬ (phase = .committed ∨ phase = .draining)) :
    phase.action = some .discardCandidate ∨ phase = .commitStarted ∨ phase = .promoting := by
  cases phase with
  | preparing | prepared | validating | latestReady | discarding => exact Or.inl rfl
  | commitStarted => exact Or.inr (Or.inl rfl)
  | promoting => exact Or.inr (Or.inr rfl)
  | committed => exact absurd (Or.inl rfl) hc
  | draining => exact absurd (Or.inr rfl) hc
  | complete | aborted | recovered => cases h
  | cleanupFailed | degraded =>
      cases h
      cases hx

/-- The action of a row is one that `finish_recovery` takes for its phase. -/
theorem recovery_takes {x : RecoveryAction} (h : RecoveryInv j) (he : (tx, t) ∈ j.transactions)
    (hr : j.recovery tx t = some r) (hx : t.phase.action = some x)
    (hpersist : recoveryAction t.phase t.recoveryAction = some x) :
    r.action = x ∨ r.action = .discardCandidate ∧
      (t.phase.action = some .discardCandidate ∨ t.phase = .commitStarted ∨ t.phase = .promoting) := by
  rcases recovery_action hr hpersist with heq | ⟨heq, hretry, u, hu, hrolled, hlink⟩
  · exact Or.inl heq
  · refine Or.inr ⟨heq, rolledBack_phase hx hretry fun hc => ?_⟩
    exact absurd (hrolled.symm.trans (h.held _ he hc u hu hlink)) nofun

theorem current_of_takes {x : RecoveryAction} (hr : j.recovery tx t = some r) (hx : t.phase.action = some x)
    (hpersist : recoveryAction t.phase t.recoveryAction = some x)
    (h : r.action = x ∨ r.action = .discardCandidate ∧
      (t.phase.action = some .discardCandidate ∨ t.phase = .commitStarted ∨ t.phase = .promoting)) :
    Journal.current t r = true := by
  obtain ⟨_, hphase, hgeneration, hrevision, hattempts⟩ := recovery_fields hr
  refine decide_eq_true ⟨hphase.symm, ?_, hgeneration, hrevision, hattempts⟩
  rcases h with heq | ⟨heq, hdiscard | hstarted | hpromoting⟩
  · exact Or.inl (heq ▸ hpersist)
  · exact Or.inl (by rw [hpersist, heq, ← hx, hdiscard])
  · refine Or.inr ⟨heq, ?_, Or.inl hstarted⟩
    rw [hpersist, ← hx, hstarted]
    rfl
  · refine Or.inr ⟨heq, ?_, Or.inr hpromoting⟩
    rw [hpersist, ← hx, hpromoting]
    rfl

/-- `rollback_linked` after the row is written. -/
theorem rollbackLinked_put {t' : Transaction} (ht : Tables j) (hget : j.transactions.get? tx = some t)
    (hs : t'.Sound) (h : ∀ e ∈ j.updates, e.2.reloadTxId = some tx → e.2.phase = .armed →
      (e.2.rollback (e.2.pluginBase.take (e.2.pluginBase.length - 3)) fs).isSome = true) :
    ∃ j', ((j.put tx t').rollbackLinked fs tx).commit = some j' ∧ j'.transactions.get? tx = some t' := by
  obtain ⟨j', hcommit, htrans⟩ := rollbackLinked_commits (ht.put hget hs) h
  refine ⟨j', hcommit, ?_⟩
  rw [htrans, Dict.get?_set ht.transactions, if_pos rfl]

theorem finishHostRetry_accepts (h : RecoveryInv s.journal) (hget : s.journal.transactions.get? r.txId = some t)
    (hphase : t.phase = r.phase) (haction : t.recoveryAction = some r.action)
    (hattempts : t.attemptCount = r.attemptCount) (hfiles : s.Restorable r.txId) :
    ∃ j' t', (s.journal.finishHostRetry s.files r).commit = some j' ∧ j'.transactions.get? r.txId = some t' ∧
      t'.phase.terminal = true := by
  rw [Journal.finishHostRetry, write_eq_some.mpr ⟨t, _, hget, if_pos ⟨hphase, haction, hattempts⟩, rfl⟩]
  dsimp only
  have hterminal : (if r.action = .retryGenerationCleanup ∧ r.recoveryTarget = some .base then Phase.aborted
      else Phase.recovered).terminal = true := by
    split
    · rfl
    · rfl
  generalize (if r.action = .retryGenerationCleanup ∧ r.recoveryTarget = some .base then Phase.aborted
      else Phase.recovered) = phase at hterminal
  have hsound := (h.row hget).1.retried hterminal
  obtain ⟨j', hcommit, hrow⟩ := rollbackLinked_put h.tables hget hsound hfiles
  split
  · refine ⟨_, { t with phase }, rfl, ?_, hterminal⟩
    change Dict.get? (Dict.set _ _ _) _ = _
    rw [Dict.get?_set h.tables.transactions, if_pos rfl]
  · exact ⟨j', _, hcommit, hrow, hterminal⟩

theorem finishRecovery_accepts (h : RecoveryInv s.journal) (he : (tx, t) ∈ s.journal.transactions)
    (ht : t.phase.terminal = false) (hr : s.journal.recovery tx t = some r)
    (hreceipt : r.action.retry = true → receipt ≠ none ∧ receipt ≠ some "") (hfiles : s.Restorable tx) :
    ∃ j' t', (s.journal.finishRecovery s.files r receipt).commit = some j' ∧
      j'.transactions.get? tx = some t' ∧ t'.phase.terminal = true := by
  obtain ⟨hid, hphase, hgeneration, hrevision, hattempts⟩ := recovery_fields hr
  have hget := Dict.get?_of_mem h.tables.transactions he
  obtain ⟨hs, _, _⟩ := h.row hget
  obtain ⟨x, hx, hpersist⟩ := recovers hs ht
  have htakes := recovery_takes h he hr hx hpersist
  have hrow : s.journal.get r.txId = some t := by
    rw [hid]
    exact Option.filter_eq_some_iff.mpr ⟨hget, decide_eq_true hs.attempts⟩
  rw [Journal.finishRecovery, hrow]
  dsimp only
  rw [if_neg (by rw [current_of_takes hr hx hpersist htakes]; simp)]
  split
  · next hretry =>
      -- The host finishes a retry, which is the action of the phase.
      rw [if_neg (not_or.mpr (hreceipt hretry))]
      have hxr : r.action = x := by
        rcases htakes with heq | ⟨heq, _⟩
        · exact heq
        · rw [heq] at hretry
          cases hretry
      have haction : t.recoveryAction = some r.action := by
        rw [hxr, ← hx]
        exact hs.retry (failure_of_retry hx (hxr ▸ hretry))
      rw [← hid] at hget hfiles ⊢
      exact finishHostRetry_accepts h hget hphase.symm haction hattempts.symm hfiles
  · next hretry =>
      -- The others advance to a phase that ends the transaction.
      have hsome : recoveryAction t.phase t.recoveryAction ≠ none := by
        rw [hpersist]
        exact Option.some_ne_none x
      split
      · next hdiscard =>
          have hmem : Phase.aborted ∈ t.phase.transitions := by
            refine aborts_of_action ?_
            rcases htakes with heq | ⟨_, hp⟩
            · exact Or.inl (by rw [hx, ← heq, hdiscard])
            · exact hp
          obtain ⟨t', hadvance⟩ := advance_finishes (x := r.action) (n := r.attemptCount)
            (w := if t.phase.failure then none else some "startup recovery") hmem rfl hsome
          have hadv := Transaction.advance_advanced hadvance
          obtain ⟨j', hcommit, hrow'⟩ := rollbackLinked_put h.tables hget (hadv.sound hs) hfiles
          rw [hid, Journal.advance, write_eq_some.mpr ⟨t, t', hget, hadvance, rfl⟩]
          exact ⟨j', t', hcommit, hrow', congrArg Phase.terminal hadv.moved⟩
      · next hdiscard =>
          have hxr : r.action = x := by
            rcases htakes with heq | ⟨heq, _⟩
            · exact heq
            · exact absurd heq hdiscard
          have hrestore : t.phase.action = some .restoreCommitted := by
            rw [hx]
            cases hphase : t.phase with
            | commitStarted | promoting | committed | draining =>
                rw [hphase] at hx
                exact hx.symm
            | complete | aborted | recovered =>
                rw [hphase] at hx
                cases hx
            | cleanupFailed | degraded =>
                rw [hphase] at hx
                cases hx
                rw [hxr] at hretry
                exact absurd rfl hretry
            | _ =>
                rw [hphase] at hx
                cases hx
                exact absurd hxr hdiscard
          obtain ⟨t', hadvance⟩ := advance_finishes (x := r.action) (n := r.attemptCount)
            (w := if t.phase.failure then none else some "startup recovery") (recovers_of_action hrestore) rfl hsome
          have hadv := Transaction.advance_advanced hadvance
          rw [hid, Journal.advance, write_eq_some.mpr ⟨t, t', hget, hadvance, rfl⟩]
          refine ⟨_, t', rfl, ?_, congrArg Phase.terminal hadv.moved⟩
          change Dict.get? (Dict.set _ _ _) _ = _
          rw [Dict.get?_set h.tables.transactions, if_pos rfl]

end MonoAgent.Reload
