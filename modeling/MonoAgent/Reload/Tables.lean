import MonoAgent.Reload.Rows

/-!
# The two tables

`Tables` are the constraints of the tables and what holds of each row.  `Released` says that
a transaction in some phases holds no update.  A call changes the tables by a few writes,
and each write keeps both.
-/

namespace MonoAgent.Reload

open MonoAgent.Lib

variable {j j' : Journal} {fs : Files} {tx id : String} {t t' : Transaction} {u : UpdateRollback}
  {e : String × UpdateRollback} {p : String → UpdateRollback → Bool} {phase : Phase} {ph : UpdatePhase}
  {a : Advance} {b : Bool}

structure Tables (j : Journal) : Prop where
  transactions : j.transactions.keys.Nodup
  updates : j.updates.keys.Nodup
  /-- `plugin_update_active`. -/
  active : ∀ e ∈ j.updates, ∀ f ∈ j.updates, e.2.pluginId = f.2.pluginId → e.2.phase = .armed →
    f.2.phase = .armed → e.1 = f.1
  /-- `reload_tx_id` is unique and refers to a transaction. -/
  link : ∀ e ∈ j.updates, ∀ f ∈ j.updates, ∀ tx, e.2.reloadTxId = some tx → f.2.reloadTxId = some tx → e.1 = f.1
  refers : ∀ e ∈ j.updates, ∀ tx, e.2.reloadTxId = some tx → tx ∈ j.transactions.keys
  sound : ∀ e ∈ j.transactions, e.2.Sound

/-- The phases that hold no update; `recovered` is one when `b`. -/
def Phase.releases (b : Bool) : Phase → Bool
  | .committed | .draining | .complete | .aborted => true
  | .recovered => b
  | _ => false

/-- No update of the transaction is armed. -/
def Journal.Free (j : Journal) (tx : String) : Prop :=
  ∀ e ∈ j.updates, e.2.reloadTxId = some tx → e.2.phase ≠ .armed

def Released (b : Bool) (j : Journal) : Prop :=
  ∀ e ∈ j.transactions, e.2.phase.releases b = true → j.Free e.1

/-! ## Updates that take another phase -/

theorem mem_settle (h : e ∈ (j.settle p ph).updates) : ∃ f ∈ j.updates, f.1 = e.1 ∧
    f.2.pluginId = e.2.pluginId ∧ f.2.reloadTxId = e.2.reloadTxId ∧
    ((p f.1 f.2 = true ∧ f.2.phase = .armed ∧ e.2.phase = ph) ∨
      (¬ (p f.1 f.2 = true ∧ f.2.phase = .armed) ∧ e = f)) := by
  obtain ⟨f, hf, rfl⟩ := List.mem_map.mp h
  refine ⟨f, hf, ?_⟩
  split
  · next hp => exact ⟨rfl, rfl, rfl, Or.inl ⟨hp.1, hp.2, rfl⟩⟩
  · next hp => exact ⟨rfl, rfl, rfl, Or.inr ⟨hp, rfl⟩⟩

theorem settle_keys : (j.settle p ph).updates.keys = j.updates.keys := by
  rw [Dict.keys, Journal.settle, List.map_map]
  refine List.map_congr_left fun e _ => ?_
  change Prod.fst (if _ then _ else _) = _
  split
  · rfl
  · rfl

/-- An update is armed after it only if it was before. -/
theorem armed_of_settle (hph : ph ≠ .armed) (h : e ∈ (j.settle p ph).updates) (ha : e.2.phase = .armed) :
    e ∈ j.updates ∧ ¬ (p e.1 e.2 = true) := by
  obtain ⟨f, hf, _, _, _, ⟨_, _, hphase⟩ | ⟨hp, rfl⟩⟩ := mem_settle h
  · exact absurd (hphase.symm.trans ha) hph
  · exact ⟨hf, fun h => hp ⟨h, ha⟩⟩

theorem Journal.Free.settle (h : j.Free tx) (hph : ph ≠ .armed) : (j.settle p ph).Free tx := by
  intro e he hlink ha
  exact h e (armed_of_settle hph he ha).1 hlink ha

theorem free_commit : (j.commit tx).Free tx := by
  intro e he hlink ha
  have hne : UpdatePhase.committed ≠ .armed := nofun
  have hnot := (armed_of_settle (p := Journal.linked tx) hne he ha).2
  exact hnot (decide_eq_true hlink)

theorem Tables.settle (h : Tables j) (hph : ph ≠ .armed) : Tables (j.settle p ph) := by
  have hkeys : (j.settle p ph).updates.keys.Nodup := by
    rw [settle_keys]
    exact h.updates
  refine ⟨h.transactions, hkeys, fun e he f hf hplugin ha hb => ?_,
    fun e he f hf tx hlink hlink' => ?_, fun e he tx hlink => ?_, h.sound⟩
  · exact h.active e (armed_of_settle hph he ha).1 f (armed_of_settle hph hf hb).1 hplugin ha hb
  · obtain ⟨e', he', hid, _, hsame, _⟩ := mem_settle he
    obtain ⟨f', hf', hid', _, hsame', _⟩ := mem_settle hf
    rw [← hid, ← hid']
    exact h.link e' he' f' hf' tx (hsame.trans hlink) (hsame'.trans hlink')
  · obtain ⟨e', he', _, _, hsame, _⟩ := mem_settle he
    exact h.refers e' he' tx (hsame.trans hlink)

theorem Released.settle (h : Released b j) (hph : ph ≠ .armed) : Released b (j.settle p ph) := by
  intro e he hphase
  exact (h e he hphase).settle hph

/-! ## A transaction is written -/

/-- The row of a transaction is replaced. -/
abbrev Journal.put (j : Journal) (tx : String) (t : Transaction) : Journal :=
  { j with transactions := j.transactions.set tx t }

theorem put_keys (h : j.transactions.get? tx = some t) : (j.put tx t').transactions.keys = j.transactions.keys := by
  rw [Journal.put, Dict.keys_set, if_pos (Dict.mem_keys.mpr ⟨t, Dict.mem_of_get? h⟩)]

theorem mem_put {e : String × Transaction} (h : e ∈ (j.put tx t').transactions) :
    e = (tx, t') ∨ e.1 ≠ tx ∧ e ∈ j.transactions := Dict.mem_set.mp h

theorem Tables.put (h : Tables j) (hget : j.transactions.get? tx = some t) (hs : t'.Sound) : Tables (j.put tx t') := by
  refine ⟨Dict.nodup_keys_set h.transactions _ _, h.updates, h.active, h.link, fun e he tx' hlink => ?_, fun e he => ?_⟩
  · rw [put_keys hget]
    exact h.refers e he tx' hlink
  · rcases mem_put he with rfl | ⟨_, he⟩
    · exact hs
    · exact h.sound e he

theorem Tables.get (h : Tables j) (hget : j.transactions.get? tx = some t) : t.Sound :=
  h.sound _ (Dict.mem_of_get? hget)

/-- The others hold what they held. -/
theorem Released.put (h : Released b j) (hfree : t'.phase.releases b = true → j.Free tx) :
    Released b (j.put tx t') := by
  intro e he hphase
  rcases mem_put he with rfl | ⟨_, he⟩
  · exact hfree hphase
  · exact h e he hphase

theorem write_eq_some {f : Transaction → Option Transaction} : j.write tx f = some j' ↔
    ∃ t t', j.transactions.get? tx = some t ∧ f t = some t' ∧ j' = j.put tx t' := by
  rw [Journal.write]
  simp only [Option.bind_eq_bind, Option.bind_eq_some_iff]
  constructor
  · rintro ⟨t, hget, t', hf, h⟩
    exact ⟨t, t', hget, hf, (Option.some.inj h).symm⟩
  · rintro ⟨t, t', hget, hf, rfl⟩
    exact ⟨t, hget, t', hf, rfl⟩

end MonoAgent.Reload
