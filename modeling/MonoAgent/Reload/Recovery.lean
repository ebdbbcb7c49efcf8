import MonoAgent.Reload.Invariant

/-!
# Every reload can be recovered

`pending_recovery` names an action for each transaction that has not ended, and
`finish_recovery` takes it.  `annotate` writes over the evidence of a failure, a transaction
whose update was rolled back can still be committed, and the retry of the host takes an
action of a phase that has ended: a run that does none of these keeps what recovery needs.
-/

namespace MonoAgent.Reload

open MonoAgent.Lib

variable {j j' : Journal} {s s' : State} {fs : Files} {tx id : String} {t t' : Transaction} {u : UpdateRollback}
  {phase : Phase} {r : Recovery} {receipt : Option String} {c : Call}

/-! ## The invariant -/

structure RecoveryInv (j : Journal) : Prop where
  tables : Tables j
  evident : ∀ e ∈ j.transactions, e.2.phase.failure = true → e.2.Evident
  /-- What a committed transaction holds is committed. -/
  held : ∀ e ∈ j.transactions, e.2.phase = .committed ∨ e.2.phase = .draining →
    ∀ u ∈ j.updates, u.2.reloadTxId = some e.1 → u.2.phase = .committed

/-- The evidence of a failure is kept, no transaction is committed after its update was rolled
back, and no transaction that has ended is recovered. -/
def Call.Steady (s : State) : Call → Prop
  | .annotate txId d => ∀ t, s.journal.transactions.get? txId = some t → t.KeepsEvidence d
  | .advance txId phase _ => phase = .committed →
      ∀ u ∈ s.journal.updates, u.2.reloadTxId = some txId → u.2.phase ≠ .rolledBack
  | .finishRecovery r _ => r.phase.terminal = false
  | _ => True

def Steady (s : State) : Action → Prop
  | .call c => c.Steady s
  | _ => True

/-- The rows of a later journal keep what `Keeps` says. -/
def KeepsRows (j j' : Journal) : Prop :=
  ∀ tx t, j.transactions.get? tx = some t → ∃ t', j'.transactions.get? tx = some t' ∧ t.Keeps t'

theorem KeepsRows.refl (j : Journal) : KeepsRows j j := fun _ t h => ⟨t, h, .refl t⟩

theorem KeepsRows.trans {j₁ j₂ j₃ : Journal} (h : KeepsRows j₁ j₂) (h' : KeepsRows j₂ j₃) : KeepsRows j₁ j₃ := by
  intro tx t hget
  obtain ⟨t', hget', hk⟩ := h tx t hget
  obtain ⟨t'', hget'', hk'⟩ := h' tx t' hget'
  exact ⟨t'', hget'', hk.trans hk'⟩

theorem KeepsRows.same (h : j'.transactions = j.transactions) : KeepsRows j j' := by
  intro tx t hget
  exact ⟨t, h ▸ hget, .refl t⟩

/-- One row is written. -/
theorem KeepsRows.put (ht : Tables j) (hget : j.transactions.get? tx = some t) (hk : t.Keeps t')
    (h : j'.transactions = (j.put tx t').transactions) : KeepsRows j j' := by
  intro tx' u hu
  rw [h, Dict.get?_set ht.transactions]
  split
  · next heq =>
      rw [heq, hget] at hu
      cases hu
      exact ⟨t', rfl, hk⟩
  · exact ⟨u, hu, .refl u⟩

theorem KeepsRows.concat (ht : Tables j) (hfresh : tx ∉ j.transactions.keys)
    (h : j'.transactions = j.transactions ++ [(tx, t)]) : KeepsRows j j' := by
  intro tx' u hu
  rw [h]
  refine ⟨u, Dict.get?_of_mem (Dict.nodup_keys_concat ht.transactions hfresh t) ?_, .refl u⟩
  exact List.mem_append_left _ (Dict.mem_of_get? hu)

/-! ### Single writes -/

theorem RecoveryInv.rolledBack (h : RecoveryInv j) :
    RecoveryInv (j.settle (fun i _ => i = id) .rolledBack) := by
  refine ⟨h.tables.settle nofun, h.evident, fun e he hphase u hu hlink => ?_⟩
  obtain ⟨f, hf, _, _, hsame, ⟨_, ha, _⟩ | ⟨_, rfl⟩⟩ := mem_settle hu
  · have hcommitted := h.held e he hphase f hf (hsame.trans hlink)
    exact absurd (ha.symm.trans hcommitted) nofun
  · exact h.held e he hphase u hf hlink

/-- Settled as committed, an update is no less committed. -/
theorem held_commit {p : String → UpdateRollback → Bool}
    (h : ∀ u ∈ j.updates, u.2.reloadTxId = some tx → u.2.phase = .committed) :
    ∀ u ∈ (j.settle p .committed).updates, u.2.reloadTxId = some tx → u.2.phase = .committed := by
  intro u hu hlink
  obtain ⟨f, hf, _, _, hsame, ⟨_, _, hphase⟩ | ⟨_, rfl⟩⟩ := mem_settle hu
  · exact hphase
  · exact h u hf hlink

theorem RecoveryInv.unlinks (h : RecoveryInv j) (hu : Unlinks j tx j') : RecoveryInv j' := by
  cases hu with
  | free => exact h
  | rolledBack => exact h.rolledBack

theorem RecoveryInv.rollbacks (h : RecoveryInv j) (hr : Rollbacks j j') : RecoveryInv j' := by
  induction hr with
  | refl => exact h
  | step id _ ih => exact ih.rolledBack

theorem RecoveryInv.put (h : RecoveryInv j) (hget : j.transactions.get? tx = some t) (hs : t'.Sound)
    (he : t'.phase.failure = true → t'.Evident)
    (hheld : t'.phase = .committed ∨ t'.phase = .draining →
      ∀ u ∈ j.updates, u.2.reloadTxId = some tx → u.2.phase = .committed) : RecoveryInv (j.put tx t') := by
  refine ⟨h.tables.put hget hs, fun e hmem hp => ?_, fun e hmem hp => ?_⟩
  · rcases mem_put hmem with rfl | ⟨_, hmem⟩
    · exact he hp
    · exact h.evident e hmem hp
  · rcases mem_put hmem with rfl | ⟨_, hmem⟩
    · exact hheld hp
    · exact h.held e hmem hp

theorem RecoveryInv.row (h : RecoveryInv j) (hget : j.transactions.get? tx = some t) : t.Sound ∧
    (t.phase.failure = true → t.Evident) ∧ (t.phase = .committed ∨ t.phase = .draining →
      ∀ u ∈ j.updates, u.2.reloadTxId = some tx → u.2.phase = .committed) := by
  have hmem := Dict.mem_of_get? hget
  exact ⟨h.tables.sound _ hmem, h.evident _ hmem, h.held _ hmem⟩

/-- A row that takes its phase along. -/
theorem RecoveryInv.noted (h : RecoveryInv j) (hget : j.transactions.get? tx = some t) (hn : t.Noted t')
    (he : t.phase.failure = true → t.Evident → t'.Evident) : RecoveryInv (j.put tx t') := by
  obtain ⟨hs, hevident, hheld⟩ := h.row hget
  refine h.put hget (hn.sound hs) (fun hp => ?_) ?_
  · rw [hn.phase] at hp
    exact he hp (hevident hp)
  · rw [hn.phase]
    exact hheld

/-! ### Calls -/

theorem RecoveryInv.advances (h : RecoveryInv j) (ha : Advances j tx phase j')
    (hc : phase = .committed → ∀ u ∈ j.updates, u.2.reloadTxId = some tx → u.2.phase ≠ .rolledBack) :
    RecoveryInv j' ∧ KeepsRows j j' := by
  cases ha with
  | plain hget hadv hnc hna =>
      obtain ⟨hs, _, hheld⟩ := h.row hget
      refine ⟨h.put hget (hadv.sound hs) (fun hp => hadv.evident (hadv.moved ▸ hp)) fun hp => ?_,
        .put h.tables hget (hadv.keeps hs) rfl⟩
      rw [hadv.moved] at hp
      rcases hp with heq | rfl
      · exact absurd heq hnc
      · have hold := hadv.transition
        refine hheld (Or.inl ?_)
        cases hphase : Transaction.phase _ with
        | committed => rfl
        | _ =>
            rw [hphase] at hold
            simp [Phase.transitions] at hold
  | committed hget hadv hcommit =>
      obtain ⟨hs, _, _⟩ := h.row hget
      refine ⟨⟨(h.tables.put hget (hadv.sound hs)).settle (by simp), fun e hmem hp => ?_, fun e hmem hp => ?_⟩,
        .put h.tables hget (hadv.keeps hs) rfl⟩
      · rcases mem_put hmem with rfl | ⟨_, hmem⟩
        · exact hadv.evident (hadv.moved ▸ hp)
        · exact h.evident e hmem hp
      · rcases mem_put hmem with rfl | ⟨_, hmem⟩
        · intro u hu hlink
          obtain ⟨f, hf, _, _, hsame, ⟨_, _, hphase⟩ | ⟨hnot, rfl⟩⟩ := mem_settle hu
          · exact hphase
          · cases hphase : u.2.phase with
            | armed => exact absurd ⟨decide_eq_true hlink, hphase⟩ hnot
            | committed => rfl
            | rolledBack => exact absurd hphase (hc hcommit u hf hlink)
        · exact held_commit (h.held e hmem hp)
  | aborted hget hadv habort hu =>
      obtain ⟨hs, _, _⟩ := h.row hget
      refine ⟨(h.put hget (hadv.sound hs) (fun hp => hadv.evident (hadv.moved ▸ hp)) fun hp => ?_).unlinks hu,
        .put h.tables hget (hadv.keeps hs) hu.transactions⟩
      rw [hadv.moved, habort] at hp
      rcases hp with heq | heq
      · cases heq
      · cases heq

theorem RecoveryInv.retries (h : RecoveryInv j) (hr : Retries j r j') (hphase : r.phase.terminal = false) :
    RecoveryInv j' ∧ KeepsRows j j' := by
  have hput {t : Transaction} {phase : Phase} (hget : j.transactions.get? r.txId = some t)
      (hp : phase.terminal = true) : RecoveryInv (j.put r.txId { t with phase }) := by
    refine h.put hget ((h.row hget).1.retried hp) (fun hf => ?_) fun hc => ?_
    · exact absurd ((Transaction.terminal_phase hp).2.symm.trans hf) nofun
    · change phase = .committed ∨ phase = .draining at hc
      rcases hc with rfl | rfl
      · cases hp
      · cases hp
  cases hr with
  | candidate hget hcurrent =>
      have hrecovered : Phase.terminal .recovered = true := rfl
      obtain ⟨ht, he, hheld⟩ := hput hget hrecovered
      exact ⟨⟨ht.settle nofun, he, fun e hmem hp => held_commit (hheld e hmem hp)⟩,
        .put h.tables hget (Transaction.keeps_retried (hcurrent ▸ hphase)) rfl⟩
  | base hget hcurrent _ hp hu =>
      exact ⟨(hput hget hp).unlinks hu,
        .put h.tables hget (Transaction.keeps_retried (hcurrent ▸ hphase)) hu.transactions⟩

theorem RecoveryInv.arms (h : RecoveryInv j) (ha : Arms j id u) :
    RecoveryInv { j with updates := j.updates ++ [(id, u)] } := by
  refine ⟨ha.tables h.tables, h.evident, fun e he hp f hf hlink => ?_⟩
  rcases mem_concat hf with hf | rfl
  · exact h.held e he hp f hf hlink
  · exact absurd (ha.link.symm.trans hlink) nofun

theorem RecoveryInv.begins (h : RecoveryInv j) (hb : Begins j tx t j') (hfresh : tx ∉ j.transactions.keys)
    (hp : t.phase = .preparing) (hs : t.Sound) : RecoveryInv j' ∧ KeepsRows j j' := by
  have ht := hb.tables hfresh hs h.tables
  have hold {e : String × Transaction} (he : e ∈ j.transactions ++ [(tx, t)]) (hne : e.2.phase ≠ .preparing) :
      e ∈ j.transactions := by
    rcases mem_concat he with he | rfl
    · exact he
    · exact absurd hp hne
  have hfailure {e : String × Transaction} (hf : e.2.phase.failure = true) : e.2.phase ≠ .preparing := by
    intro heq
    rw [heq] at hf
    cases hf
  have hnew {e : String × Transaction} (hc : e.2.phase = .committed ∨ e.2.phase = .draining) :
      e.2.phase ≠ .preparing := by
    rcases hc with heq | heq
    · rw [heq]
      exact nofun
    · rw [heq]
      exact nofun
  cases hb with
  | free =>
      exact ⟨⟨ht, fun e he hf => h.evident e (hold he (hfailure hf)) hf,
        fun e he hc => h.held e (hold he (hnew hc)) hc⟩, .concat h.tables hfresh rfl⟩
  | linked f hmem hplugin ha hlink =>
      refine ⟨⟨ht, fun e he hf => h.evident e (hold he (hfailure hf)) hf, fun e he hc u hu hl => ?_⟩,
        .concat h.tables hfresh rfl⟩
      have he := hold he (hnew hc)
      obtain ⟨g, hg, _, _, _, ⟨_, hgtx⟩ | ⟨rfl, _⟩⟩ := mem_link hmem hu
      · have hkey : tx = e.1 := Option.some.inj (hgtx.symm.trans hl)
        exact absurd (Dict.mem_keys.mpr ⟨e.2, he⟩) (hkey ▸ hfresh)
      · exact h.held e he hc _ hg hl

theorem commit_recoveryInv (h : RecoveryInv s.journal) (hsteady : c.Steady s)
    (hc : (c.attempt s).commit = some j') : RecoveryInv j' ∧ KeepsRows s.journal j' := by
  cases c with
  | armUpdate =>
      obtain ⟨u, harms, rfl⟩ := armUpdate_arms hc
      exact ⟨h.arms harms, .same rfl⟩
  | commitUpdate =>
      obtain ⟨_, _, _, _, rfl⟩ := commitUpdate_settles hc
      exact ⟨⟨h.tables.settle nofun, h.evident, fun e he hp => held_commit (h.held e he hp)⟩, .same rfl⟩
  | rollbackUpdates =>
      have hr := rollbackUpdates_rollbacks hc
      exact ⟨h.rollbacks hr, .same hr.transactions⟩
  | begin =>
      obtain ⟨t, hfresh, hp, hs, hb⟩ := begin_begins hc
      exact h.begins hb hfresh hp hs
  | markRuntimeOwner =>
      obtain ⟨t, t', hget, hmark, rfl⟩ := write_eq_some.mp hc
      obtain ⟨hn, hk, he⟩ := Transaction.markRuntimeOwner_noted hmark
      exact ⟨h.noted hget hn fun _ => he, .put h.tables hget hk rfl⟩
  | advance => exact h.advances (advance_advances hc) hsteady
  | annotate =>
      obtain ⟨t, t', hget, hnote, rfl⟩ := write_eq_some.mp hc
      have hd := hsteady t hget
      exact ⟨h.noted hget (Transaction.annotate_noted hnote).1
        fun hp he => Transaction.annotate_evident hnote hd he hp,
        .put h.tables hget (Transaction.annotate_keeps hnote hd) rfl⟩
  | finishRecovery =>
      cases finishRecovery_finishes hc with
      | advances _ _ _ hphase ha =>
          refine h.advances ha fun heq => ?_
          rw [heq] at hphase
          split at hphase
          · cases hphase
          · cases hphase
      | retries _ hr => exact h.retries hr hsteady

theorem recoveryInv_next {a : Action} (h : RecoveryInv s.journal) (ha : Steady s a)
    (hn : reloadMachine.next s a = some s') : RecoveryInv s'.journal ∧ KeepsRows s.journal s'.journal := by
  rcases next_journal hn with heq | ⟨c, rfl, hc⟩
  · rw [heq]
    exact ⟨h, .refl _⟩
  · exact commit_recoveryInv h ha hc

theorem recoveryInv_empty : RecoveryInv {} :=
  ⟨tables_empty, fun _ he => absurd he List.not_mem_nil, fun _ he => absurd he List.not_mem_nil⟩

theorem recoveryInv_reach (h : reloadMachine.Reach Steady s) : RecoveryInv s.journal := by
  refine h.invariant (I := fun s => RecoveryInv s.journal) (fun s hs => ?_)
    fun s a s' hi ha hn => (recoveryInv_next hi ha hn).1
  rw [show s.journal = {} from hs]
  exact recoveryInv_empty

/-- The run lemma: what `Keeps` says, over any number of steps. -/
theorem keepsRows_path (h : reloadMachine.Reach Steady s) (hp : reloadMachine.Path Steady s s') :
    KeepsRows s.journal s'.journal :=
  hp.rel (I := fun s => RecoveryInv s.journal) (R := fun s s' => KeepsRows s.journal s'.journal)
    (fun s => .refl s.journal) (fun _ _ _ => .trans)
    (fun _ _ _ hi ha hn => (recoveryInv_next hi ha hn).1)
    (fun _ _ _ hi ha hn => (recoveryInv_next hi ha hn).2) (recoveryInv_reach h)

end MonoAgent.Reload
