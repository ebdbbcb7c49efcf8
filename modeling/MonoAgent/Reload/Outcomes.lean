import MonoAgent.Reload.Invariant

/-!
# The outcome of an update

An update leaves `armed` once.  With a reload it becomes committed only where the reload
does: at the phase `committed`, or by a retry of the host for the candidate.
-/

namespace MonoAgent.Reload

open MonoAgent.Lib

variable {j j' : Journal} {s s' : State} {tx id : String} {t : Transaction} {u v w : UpdateRollback}
  {phase : Phase} {r : Recovery} {receipt : Option String} {c : Call} {ph : UpdatePhase}

/-! ## Updates follow each other -/

/-- What a row of `plugin_updates` keeps. -/
structure UpdateRollback.Follows (u v : UpdateRollback) : Prop where
  same : v = { u with phase := v.phase, reloadTxId := v.reloadTxId }
  phase : u.phase ≠ .armed → v.phase = u.phase
  link : u.reloadTxId ≠ none → v.reloadTxId = u.reloadTxId

theorem UpdateRollback.Follows.refl (u : UpdateRollback) : u.Follows u := ⟨rfl, fun _ => rfl, fun _ => rfl⟩

theorem UpdateRollback.Follows.trans (h : u.Follows v) (h' : v.Follows w) : u.Follows w := by
  refine ⟨?_, fun hne => ?_, fun hne => ?_⟩
  · rw [h'.same, h.same]
  · have hphase := h.phase hne
    exact (h'.phase (hphase ▸ hne)).trans hphase
  · have hlink := h.link hne
    exact (h'.link (hlink ▸ hne)).trans hlink

/-- Each update is still there. -/
def KeepsUpdates (j j' : Journal) : Prop :=
  ∀ e ∈ j.updates, ∃ f ∈ j'.updates, f.1 = e.1 ∧ e.2.Follows f.2

theorem KeepsUpdates.same (h : j'.updates = j.updates) : KeepsUpdates j j' := by
  intro e he
  exact ⟨e, h ▸ he, rfl, .refl e.2⟩

theorem KeepsUpdates.trans {j₁ j₂ j₃ : Journal} (h : KeepsUpdates j₁ j₂) (h' : KeepsUpdates j₂ j₃) :
    KeepsUpdates j₁ j₃ := by
  intro e he
  obtain ⟨f, hf, hid, hfollows⟩ := h e he
  obtain ⟨g, hg, hid', hfollows'⟩ := h' f hf
  exact ⟨g, hg, hid'.trans hid, hfollows.trans hfollows'⟩

theorem keepsUpdates_settle {p : String → UpdateRollback → Bool} : KeepsUpdates j (j.settle p ph) := by
  intro e he
  refine ⟨_, List.mem_map_of_mem he, ?_⟩
  split
  · next hp => exact ⟨rfl, rfl, fun hne => absurd hp.2 hne, fun _ => rfl⟩
  · exact ⟨rfl, .refl e.2⟩

theorem Unlinks.updates (h : Unlinks j tx j') : KeepsUpdates j j' := by
  cases h with
  | free => exact .same rfl
  | rolledBack => exact keepsUpdates_settle

theorem Rollbacks.updates (h : Rollbacks j j') : KeepsUpdates j j' := by
  induction h with
  | refl => exact .same rfl
  | step id _ ih => exact ih.trans keepsUpdates_settle

theorem Advances.updates (h : Advances j tx phase j') : KeepsUpdates j j' := by
  cases h with
  | plain => exact .same rfl
  | committed => exact keepsUpdates_settle
  | aborted _ _ _ hu => exact hu.updates

theorem Retries.updates (h : Retries j r j') : KeepsUpdates j j' := by
  cases h with
  | candidate => exact keepsUpdates_settle
  | base _ _ _ _ hu => exact hu.updates

theorem Begins.updates (h : Begins j tx t j') (ht : Tables j) : KeepsUpdates j j' := by
  cases h with
  | free => exact .same rfl
  | linked e hmem _ _ hlink =>
      intro f hf
      by_cases hid : f.1 = e.1
      · have hsame : f.2 = e.2 := by
          have hget := (Dict.get?_eq_some ht.updates).mpr hmem
          rw [← hid, (Dict.get?_eq_some ht.updates).mpr hf] at hget
          exact Option.some.inj hget
        refine ⟨(e.1, { e.2 with reloadTxId := some tx }), Dict.mem_set.mpr (Or.inl rfl), hid.symm, ?_⟩
        rw [hsame]
        exact ⟨rfl, fun _ => rfl, fun hne => absurd hlink hne⟩
      · exact ⟨f, Dict.mem_set.mpr (Or.inr ⟨hid, hf⟩), rfl, .refl f.2⟩

theorem commit_updates (ht : Tables s.journal) (h : (c.attempt s).commit = some j') : KeepsUpdates s.journal j' := by
  cases c with
  | armUpdate =>
      obtain ⟨u, _, rfl⟩ := armUpdate_arms h
      intro e he
      exact ⟨e, List.mem_append_left _ he, rfl, .refl e.2⟩
  | commitUpdate =>
      obtain ⟨_, _, _, _, rfl⟩ := commitUpdate_settles h
      exact keepsUpdates_settle
  | rollbackUpdates => exact (rollbackUpdates_rollbacks h).updates
  | begin =>
      obtain ⟨t, _, _, _, hb⟩ := begin_begins h
      exact hb.updates ht
  | markRuntimeOwner =>
      obtain ⟨_, _, _, _, rfl⟩ := write_eq_some.mp h
      exact .same rfl
  | advance => exact (advance_advances h).updates
  | annotate =>
      obtain ⟨_, _, _, _, rfl⟩ := write_eq_some.mp h
      exact .same rfl
  | finishRecovery =>
      cases finishRecovery_finishes h with
      | advances _ _ _ _ ha => exact ha.updates
      | retries _ hr => exact hr.updates

/-- The run lemma for updates. -/
theorem keepsUpdates_path {ok : State → Action → Prop} (h : reloadMachine.Reach ok s)
    (hp : reloadMachine.Path Machine.always s s') : KeepsUpdates s.journal s'.journal := by
  have hstep {s s' : State} {a : Action} (ht : Tables s.journal) (hn : reloadMachine.next s a = some s') :
      Tables s'.journal ∧ KeepsUpdates s.journal s'.journal := by
    rcases next_journal hn with heq | ⟨c, rfl, hc⟩
    · rw [heq]
      exact ⟨ht, .same rfl⟩
    · exact ⟨commit_tables hc ht, commit_updates ht hc⟩
  exact hp.rel (I := fun s => Tables s.journal) (R := fun s s' => KeepsUpdates s.journal s'.journal)
    (fun s => .same rfl) (fun _ _ _ => .trans) (fun _ _ _ ht _ hn => (hstep ht hn).1)
    (fun _ _ _ ht _ hn => (hstep ht hn).2) (tables_reach h)

/-! ## Where an update becomes committed -/

def CommittedFor (j : Journal) (tx : String) : Prop :=
  ∃ e ∈ j.updates, e.2.phase = .committed ∧ e.2.reloadTxId = some tx

/-- The reload of an update commits: it reaches `committed`, or the host has retried it for its candidate. -/
def Commits (s : State) (a : Action) (s' : State) (tx : String) : Prop :=
  (∃ t, s'.journal.transactions.get? tx = some t ∧ t.phase = .committed) ∨
    ∃ r receipt, a = .call (.finishRecovery r receipt) ∧ r.txId = tx ∧ r.action.retry = true ∧
      r.recoveryTarget = some .candidate ∧ ((Call.finishRecovery r receipt).attempt s).commit = some s'.journal

/-- Rolled back, an update is not committed. -/
theorem committedFor_rolledBack {p : String → UpdateRollback → Bool} (h : CommittedFor (j.settle p .rolledBack) tx) :
    CommittedFor j tx := by
  obtain ⟨e, he, hphase, hlink⟩ := h
  obtain ⟨f, hf, _, _, hsame, ⟨_, _, hnew⟩ | ⟨_, rfl⟩⟩ := mem_settle he
  · exact absurd (hnew.symm.trans hphase) nofun
  · exact ⟨e, hf, hphase, hlink⟩

/-- Settled as committed, it was before or is among those settled. -/
theorem committedFor_commit {p : String → UpdateRollback → Bool} (h : CommittedFor (j.settle p .committed) tx) :
    CommittedFor j tx ∨ ∃ e ∈ j.updates, p e.1 e.2 = true ∧ e.2.reloadTxId = some tx := by
  obtain ⟨e, he, hphase, hlink⟩ := h
  obtain ⟨f, hf, _, _, hsame, ⟨hp, _, _⟩ | ⟨_, rfl⟩⟩ := mem_settle he
  · exact Or.inr ⟨f, hf, hp, hsame.trans hlink⟩
  · exact Or.inl ⟨e, hf, hphase, hlink⟩

theorem Unlinks.committedFor {tx' : String} (h : Unlinks j tx j') (hc : CommittedFor j' tx') : CommittedFor j tx' := by
  cases h with
  | free => exact hc
  | rolledBack => exact committedFor_rolledBack hc

theorem Rollbacks.committedFor (h : Rollbacks j j') (hc : CommittedFor j' tx) : CommittedFor j tx := by
  induction h with
  | refl => exact hc
  | step id _ ih => exact ih (committedFor_rolledBack hc)

theorem Advances.committedFor {tx' : String} (h : Advances j tx phase j') (ht : Tables j) (hc : CommittedFor j' tx') :
    CommittedFor j tx' ∨ ∃ t, j'.transactions.get? tx' = some t ∧ t.phase = .committed := by
  cases h with
  | plain => exact Or.inl hc
  | @committed t t' hget hadv heq =>
      rcases committedFor_commit (p := Journal.linked tx) hc with hold | ⟨e, _, hp, hlink⟩
      · exact Or.inl hold
      · have hkey : tx' = tx := Option.some.inj (hlink.symm.trans (of_decide_eq_true hp))
        refine Or.inr ⟨t', ?_, hadv.moved.trans heq⟩
        change Dict.get? (Dict.set _ _ _) _ = _
        rw [Dict.get?_set ht.transactions, if_pos hkey]
  | aborted _ _ _ hu => exact Or.inl (hu.committedFor hc)

theorem Retries.committedFor {tx' : String} (h : Retries j r j') (hc : CommittedFor j' tx') :
    CommittedFor j tx' ∨ r.txId = tx' ∧ r.recoveryTarget = some .candidate := by
  cases h with
  | candidate _ _ hcand =>
      rcases committedFor_commit (p := Journal.linked r.txId) hc with hold | ⟨e, _, hp, hlink⟩
      · exact Or.inl hold
      · exact Or.inr ⟨Option.some.inj ((of_decide_eq_true hp).symm.trans hlink), hcand⟩
  | base _ _ _ _ hu => exact Or.inl (hu.committedFor hc)

/-- The step lemma: what an update is committed by. -/
theorem step_commits {a : Action} (ht : Tables s.journal) (hn : reloadMachine.next s a = some s')
    (hc : CommittedFor s'.journal tx) : CommittedFor s.journal tx ∨ Commits s a s' tx := by
  rcases next_journal hn with heq | ⟨c, rfl, h⟩
  · exact Or.inl (heq ▸ hc)
  · cases c with
    | armUpdate =>
        obtain ⟨u, harms, hj⟩ := armUpdate_arms h
        rw [hj] at hc
        obtain ⟨e, he, hphase, hlink⟩ := hc
        rcases mem_concat he with he | rfl
        · exact Or.inl ⟨e, he, hphase, hlink⟩
        · exact absurd (harms.link.symm.trans hlink) nofun
    | commitUpdate updateId =>
        obtain ⟨u, hget, _, hfree, hj⟩ := commitUpdate_settles h
        rw [hj] at hc
        rcases committedFor_commit (p := fun i _ => i = updateId) hc with hold | ⟨e, he, hp, hlink⟩
        · exact Or.inl hold
        · have hsame : e.2 = u := by
            rw [← (of_decide_eq_true hp : e.1 = updateId), (Dict.get?_eq_some ht.updates).mpr he] at hget
            exact Option.some.inj hget
          rw [hsame, hfree] at hlink
          cases hlink
    | rollbackUpdates => exact Or.inl ((rollbackUpdates_rollbacks h).committedFor hc)
    | begin =>
        obtain ⟨t, _, _, _, hb⟩ := begin_begins h
        generalize s'.journal = j' at hb hc
        cases hb with
        | free => exact Or.inl hc
        | linked e hmem _ harmed _ =>
            obtain ⟨f, hf, hphase, hlink⟩ := hc
            obtain ⟨g, hg, _, _, hgphase, ⟨rfl, _⟩ | ⟨rfl, _⟩⟩ := mem_link hmem hf
            · exact absurd (harmed.symm.trans (hgphase.trans hphase)) nofun
            · exact Or.inl ⟨g, hg, hphase, hlink⟩
    | markRuntimeOwner =>
        obtain ⟨_, _, _, _, hj⟩ := write_eq_some.mp h
        rw [hj] at hc
        exact Or.inl hc
    | advance =>
        rcases (advance_advances h).committedFor ht hc with hold | hnew
        · exact Or.inl hold
        · exact Or.inr (Or.inl hnew)
    | annotate =>
        obtain ⟨_, _, _, _, hj⟩ := write_eq_some.mp h
        rw [hj] at hc
        exact Or.inl hc
    | finishRecovery r receipt =>
        cases finishRecovery_finishes h with
        | advances _ _ _ _ ha =>
            rcases ha.committedFor ht hc with hold | hnew
            · exact Or.inl hold
            · exact Or.inr (Or.inl hnew)
        | retries hretry hr =>
            rcases hr.committedFor hc with hold | ⟨hid, hcand⟩
            · exact Or.inl hold
            · exact Or.inr (Or.inr ⟨r, receipt, rfl, hid, hretry, hcand, h⟩)

end MonoAgent.Reload
