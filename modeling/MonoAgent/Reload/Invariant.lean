import MonoAgent.Reload.Calls

/-!
# What every call keeps

The constraints of the tables hold in every state.  A transaction that is committed, or has
ended by `complete` or `aborted`, holds no armed update.  After `recovered` this needs that
no update was armed when `advance` took the transaction there.
-/

namespace MonoAgent.Reload

open MonoAgent.Lib

variable {j j' : Journal} {s : State} {fs : Files} {tx id : String} {t t' : Transaction} {u : UpdateRollback}
  {phase : Phase} {r : Recovery} {receipt : Option String} {b : Bool} {c : Call}

/-! ## Updates are rolled back -/

theorem Unlinks.transactions (h : Unlinks j tx j') : j'.transactions = j.transactions := by
  cases h with
  | free => rfl
  | rolledBack => rfl

theorem Unlinks.tables (h : Unlinks j tx j') (ht : Tables j) : Tables j' := by
  cases h with
  | free => exact ht
  | rolledBack => exact ht.settle nofun

/-- After it no update of the transaction is armed. -/
theorem Unlinks.released (h : Unlinks j tx j') (ht : Tables j) : j'.Free tx := by
  cases h with
  | free h => exact h
  | rolledBack e hmem hlink ha =>
      intro f hf hflink hfa
      have hne : UpdatePhase.rolledBack ≠ .armed := nofun
      obtain ⟨hf, hnot⟩ := armed_of_settle hne hf hfa
      exact hnot (decide_eq_true (ht.link f hf e hmem tx hflink hlink))

theorem Unlinks.keepsFree {tx' : String} (h : Unlinks j tx j') (hf : j.Free tx') : j'.Free tx' := by
  cases h with
  | free => exact hf
  | rolledBack => exact hf.settle nofun

theorem Rollbacks.transactions (h : Rollbacks j j') : j'.transactions = j.transactions := by
  induction h with
  | refl => rfl
  | step id _ ih => exact ih

theorem Rollbacks.tables (h : Rollbacks j j') (ht : Tables j) : Tables j' := by
  induction h with
  | refl => exact ht
  | step id _ ih => exact ih.settle nofun

theorem Rollbacks.released (h : Rollbacks j j') (hr : Released b j) : Released b j' := by
  induction h with
  | refl => exact hr
  | step id _ ih => exact ih.settle nofun

/-! ## Transactions advance -/

theorem Advances.tables (h : Advances j tx phase j') (ht : Tables j) : Tables j' := by
  cases h with
  | plain hget h => exact ht.put hget (h.sound (ht.get hget))
  | committed hget h => exact (ht.put hget (h.sound (ht.get hget))).settle nofun
  | aborted hget h _ hu => exact hu.tables (ht.put hget (h.sound (ht.get hget)))

/-- A phase that holds no update follows another one, but for three that free it. -/
theorem releases_of_transition (h : phase ∈ t.phase.transitions) (hp : phase.releases b = true) :
    phase = .committed ∨ phase = .aborted ∨ phase = .recovered ∧ b = true ∨ t.phase.releases b = true := by
  cases phase with
  | committed => exact Or.inl rfl
  | aborted => exact Or.inr (Or.inl rfl)
  | recovered => exact Or.inr (Or.inr (Or.inl ⟨rfl, hp⟩))
  | draining | complete =>
      refine Or.inr (Or.inr (Or.inr ?_))
      cases hphase : t.phase with
      | committed | draining | complete | aborted => rfl
      | _ =>
          rw [hphase] at h
          simp [Phase.transitions] at h
  | _ => cases hp

/-- The transaction that is written is freed after. -/
theorem Released.freed (h : Released b j) (htrans : j'.transactions = (j.put tx t').transactions)
    (hkeep : ∀ tx', j.Free tx' → j'.Free tx') (hfree : j'.Free tx) : Released b j' := by
  intro e he hphase
  rw [htrans] at he
  rcases mem_put he with rfl | ⟨_, he⟩
  · exact hfree
  · exact hkeep _ (h e he hphase)

theorem Advances.released (h : Advances j tx phase j') (ht : Tables j) (hr : Released b j)
    (hb : b = true → phase = .recovered → j.Free tx) : Released b j' := by
  cases h with
  | @plain t t' hget h hc ha =>
      refine hr.put fun hp => ?_
      rw [h.moved] at hp
      rcases releases_of_transition h.transition hp with heq | heq | ⟨heq, hb'⟩ | hold
      · exact absurd heq hc
      · exact absurd heq ha
      · exact hb hb' heq
      · exact hr _ (Dict.mem_of_get? hget) hold
  | committed hget h => exact hr.freed rfl (fun _ hf => Journal.Free.settle (j := j.put tx _) hf nofun) free_commit
  | aborted hget h _ hu =>
      exact hr.freed hu.transactions (fun _ hf => hu.keepsFree hf)
        (hu.released (ht.put hget (h.sound (ht.get hget))))

theorem Retries.tables (h : Retries j r j') (ht : Tables j) : Tables j' := by
  cases h with
  | candidate hget => exact (ht.put hget ((ht.get hget).retried rfl)).settle nofun
  | base hget _ _ hp hu => exact hu.tables (ht.put hget ((ht.get hget).retried hp))

theorem Retries.released (h : Retries j r j') (ht : Tables j) (hr : Released b j) : Released b j' := by
  cases h with
  | candidate hget =>
      exact hr.freed rfl (fun _ hf => Journal.Free.settle (j := j.put r.txId _) hf nofun) free_commit
  | base hget _ _ hp hu =>
      exact hr.freed hu.transactions (fun _ hf => hu.keepsFree hf)
        (hu.released (ht.put hget ((ht.get hget).retried hp)))

/-! ## New rows -/

theorem mem_concat {κ ν : Type} {d : Dict κ ν} {k : κ} {v : ν} {e : κ × ν} (h : e ∈ d ++ [(k, v)]) :
    e ∈ d ∨ e = (k, v) := by simpa using h

theorem Arms.tables (h : Arms j id u) (ht : Tables j) : Tables { j with updates := j.updates ++ [(id, u)] } := by
  have hlink {e : String × UpdateRollback} {tx : String} (he : e ∈ j.updates ++ [(id, u)])
      (hl : e.2.reloadTxId = some tx) : e ∈ j.updates := by
    rcases mem_concat he with he | rfl
    · exact he
    · exact absurd (h.link.symm.trans hl) nofun
  refine ⟨ht.transactions, Dict.nodup_keys_concat ht.updates h.fresh u, fun e he f hf hplugin ha hb => ?_,
    fun e he f hf tx hl hl' => ht.link e (hlink he hl) f (hlink hf hl') tx hl hl',
    fun e he tx hl => ht.refers e (hlink he hl) tx hl, ht.sound⟩
  rcases mem_concat he with he | rfl <;> rcases mem_concat hf with hf | rfl
  · exact ht.active e he f hf hplugin ha hb
  · exact absurd ha (h.active e he hplugin)
  · exact absurd hb (h.active f hf hplugin.symm)
  · rfl

theorem Arms.released (h : Arms j id u) (hr : Released b j) :
    Released b { j with updates := j.updates ++ [(id, u)] } := by
  intro e he hphase f hf hl
  rcases mem_concat hf with hf | rfl
  · exact hr e he hphase f hf hl
  · exact absurd (h.link.symm.trans hl) nofun

/-- The update that takes the link keeps the rest. -/
theorem mem_link {e f : String × UpdateRollback} (he : e ∈ j.updates)
    (hf : f ∈ j.updates.set e.1 { e.2 with reloadTxId := some tx }) :
    ∃ g ∈ j.updates, g.1 = f.1 ∧ g.2.pluginId = f.2.pluginId ∧ g.2.phase = f.2.phase ∧
      (g = e ∧ f.2.reloadTxId = some tx ∨ g = f ∧ f.1 ≠ e.1) := by
  rcases Dict.mem_set.mp hf with rfl | ⟨hne, hf⟩
  · exact ⟨e, he, rfl, rfl, rfl, Or.inl ⟨rfl, rfl⟩⟩
  · exact ⟨f, hf, rfl, rfl, rfl, Or.inr ⟨rfl, hne⟩⟩

theorem Begins.tables (h : Begins j tx t j') (hfresh : tx ∉ j.transactions.keys) (hs : t.Sound) (ht : Tables j) :
    Tables j' := by
  have hnodup := Dict.nodup_keys_concat ht.transactions hfresh t
  have hgrow {k : String} (hk : k ∈ j.transactions.keys) : k ∈ Dict.keys (j.transactions ++ [(tx, t)]) := by
    obtain ⟨v, hv⟩ := Dict.mem_keys.mp hk
    exact Dict.mem_keys.mpr ⟨v, List.mem_append_left _ hv⟩
  have hsound {e : String × Transaction} (he : e ∈ j.transactions ++ [(tx, t)]) : e.2.Sound := by
    rcases mem_concat he with he | rfl
    · exact ht.sound e he
    · exact hs
  cases h with
  | free =>
      exact ⟨hnodup, ht.updates, ht.active, ht.link, fun e he k hl => hgrow (ht.refers e he k hl),
        fun e he => hsound he⟩
  | linked e hmem hplugin ha hlink =>
      have hnew {k : String} (hk : k ∉ j.transactions.keys) {g : String × UpdateRollback} (hg : g ∈ j.updates) :
          g.2.reloadTxId ≠ some k := fun hl => hk (ht.refers g hg k hl)
      refine ⟨hnodup, Dict.nodup_keys_set ht.updates _ _, fun f hf g hg hp ha hb => ?_,
        fun f hf g hg k hl hl' => ?_, fun f hf k hl => ?_, fun f hf => hsound hf⟩
      · obtain ⟨f', hf', hfid, hfp, hfa, _⟩ := mem_link hmem hf
        obtain ⟨g', hg', hgid, hgp, hga, _⟩ := mem_link hmem hg
        rw [← hfid, ← hgid]
        exact ht.active f' hf' g' hg' (hfp.trans (hp.trans hgp.symm)) (hfa.trans ha) (hga.trans hb)
      · obtain ⟨f', hf', hfid, _, _, ⟨rfl, hftx⟩ | ⟨rfl, hfne⟩⟩ := mem_link hmem hf
        · obtain ⟨g', hg', hgid, _, _, ⟨rfl, _⟩ | ⟨rfl, _⟩⟩ := mem_link hmem hg
          · exact hfid.symm.trans hgid
          · rw [hftx] at hl
            cases hl
            exact absurd hl' (hnew hfresh hg')
        · obtain ⟨g', hg', hgid, _, _, ⟨rfl, hgtx⟩ | ⟨rfl, _⟩⟩ := mem_link hmem hg
          · rw [hgtx] at hl'
            cases hl'
            exact absurd hl (hnew hfresh hf')
          · exact ht.link _ hf' _ hg' k hl hl'
      · obtain ⟨f', hf', _, _, _, ⟨_, hftx⟩ | ⟨rfl, _⟩⟩ := mem_link hmem hf
        · rw [hftx] at hl
          cases hl
          exact Dict.mem_keys.mpr ⟨t, List.mem_append_right _ (List.mem_singleton.mpr rfl)⟩
        · exact hgrow (ht.refers _ hf' k hl)

theorem Begins.released (h : Begins j tx t j') (hfresh : tx ∉ j.transactions.keys) (hp : t.phase = .preparing)
    (hr : Released b j) : Released b j' := by
  have hold {e : String × Transaction} (he : e ∈ j.transactions ++ [(tx, t)]) (hphase : e.2.phase.releases b = true) :
      e ∈ j.transactions := by
    rcases mem_concat he with he | rfl
    · exact he
    · rw [hp] at hphase
      cases hphase
  cases h with
  | free =>
      intro e he hphase
      exact hr e (hold he hphase) hphase
  | linked e hmem hplugin ha hlink =>
      intro f hf hphase g hg hl
      have hf := hold hf hphase
      obtain ⟨g', hg', _, _, hga, ⟨_, hgtx⟩ | ⟨rfl, _⟩⟩ := mem_link hmem hg
      · have hkey : tx = f.1 := Option.some.inj (hgtx.symm.trans hl)
        exact absurd (Dict.mem_keys.mpr ⟨f.2, hf⟩) (hkey ▸ hfresh)
      · exact hr f hf hphase _ hg' hl

/-! ## Calls -/

/-- A step commits what a call commits, or leaves the tables. -/
theorem next_journal {a : Action} {s' : State} (h : reloadMachine.next s a = some s') : s'.journal = s.journal ∨
    ∃ c, a = .call c ∧ (c.attempt s).commit = some s'.journal := by
  cases h
  cases a with
  | call c =>
      rw [State.next]
      cases hc : (c.attempt s).commit with
      | none => exact Or.inl rfl
      | some j' => exact Or.inr ⟨c, rfl, hc⟩
  | crash => exact Or.inl rfl
  | outside => exact Or.inl rfl

theorem Finishes.tables (h : Finishes j r receipt j') (ht : Tables j) : Tables j' := by
  cases h with
  | advances _ _ _ _ h => exact h.tables ht
  | retries _ h => exact h.tables ht

theorem commit_tables (h : (c.attempt s).commit = some j') (ht : Tables s.journal) : Tables j' := by
  cases c with
  | armUpdate =>
      obtain ⟨u, harms, rfl⟩ := armUpdate_arms h
      exact harms.tables ht
  | commitUpdate =>
      obtain ⟨_, _, _, _, rfl⟩ := commitUpdate_settles h
      exact ht.settle nofun
  | rollbackUpdates => exact (rollbackUpdates_rollbacks h).tables ht
  | begin =>
      obtain ⟨t, hfresh, _, hs, hb⟩ := begin_begins h
      exact hb.tables hfresh hs ht
  | markRuntimeOwner =>
      obtain ⟨t, t', hget, hmark, rfl⟩ := write_eq_some.mp h
      exact ht.put hget ((Transaction.markRuntimeOwner_noted hmark).1.sound (ht.get hget))
  | advance => exact (advance_advances h).tables ht
  | annotate =>
      obtain ⟨t, t', hget, hnote, rfl⟩ := write_eq_some.mp h
      exact ht.put hget ((Transaction.annotate_noted hnote).1.sound (ht.get hget))
  | finishRecovery => exact (finishRecovery_finishes h).tables ht

theorem tables_empty : Tables {} := by
  refine ⟨List.nodup_nil, List.nodup_nil, fun e he => ?_, fun e he => ?_, fun e he => ?_, fun e he => ?_⟩
  · exact absurd he List.not_mem_nil
  · exact absurd he List.not_mem_nil
  · exact absurd he List.not_mem_nil
  · exact absurd he List.not_mem_nil

theorem tables_reach {ok : State → Action → Prop} (h : reloadMachine.Reach ok s) : Tables s.journal := by
  refine h.invariant (I := fun s => Tables s.journal) (fun s hs => ?_) fun s a s' ht _ hn => ?_
  · rw [show s.journal = {} from hs]
    exact tables_empty
  · rcases next_journal hn with heq | ⟨c, _, hc⟩
    · rw [heq]
      exact ht
    · exact commit_tables hc ht

end MonoAgent.Reload
