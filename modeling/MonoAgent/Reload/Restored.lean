import MonoAgent.Reload.Invariant

/-!
# A rollback that is run again

`rollback` accepts the pointers it has written itself, and an enabled state it has restored.
So it can be stopped after any write and be run again.  Updates of different plugins have
different pointers and different entries, and do not stand in each other's way.
-/

namespace MonoAgent.Reload

open MonoAgent.Lib

variable {j j' : Journal} {fs fs' : Files} {home : Directory} {u v : UpdateRollback} {ws : List Files} {id : String}
  {order : List String}

/-! ## Plugins and their directories -/

theorem rpartition_eq {s n m : String} (h : rpartition s = some (n, m)) : s.toList = n.toList ++ '@' :: m.toList := by
  rw [rpartition] at h
  split at h
  · cases h
  · next c rest hdrop =>
      cases h
      have hat : c = '@' := by
        have hnot := List.head?_dropWhile_not (fun c => decide (c ≠ '@')) s.toList.reverse
        rw [hdrop] at hnot
        simpa using hnot
      have hsplit := List.takeWhile_append_dropWhile (p := fun c => decide (c ≠ '@')) (l := s.toList.reverse)
      have hrev := congrArg List.reverse hsplit
      rw [hdrop, hat, List.reverse_append, List.reverse_cons, List.reverse_reverse, List.append_assoc] at hrev
      rw [String.toList_ofList, String.toList_ofList]
      exact hrev.symm

/-- The directory tells which plugin it is. -/
theorem plugin_of_base (h : u.expectedBase home fs = v.expectedBase home fs) (hu : u.expectedBase home fs ≠ none) :
    u.pluginId = v.pluginId := by
  obtain ⟨base, hbase⟩ := Option.ne_none_iff_exists'.mp hu
  have hv : v.expectedBase home fs = some base := h ▸ hbase
  rw [UpdateRollback.expectedBase] at hbase hv
  simp only [Option.bind_eq_bind, Option.bind_eq_some_iff, Option.guard_eq_some'] at hbase hv
  obtain ⟨⟨n, m⟩, hn, _, _, hbase⟩ := hbase
  obtain ⟨⟨n', m'⟩, hn', _, _, hv⟩ := hv
  have hsame := (Option.some.inj hbase).trans (Option.some.inj hv).symm
  have htail := List.append_cancel_left hsame
  simp only [List.cons.injEq, and_true, true_and] at htail
  obtain ⟨rfl, rfl⟩ := htail
  exact String.toList_inj.mp ((rpartition_eq hn).trans (rpartition_eq hn').symm)

/-! ## One rollback -/

/-- What `rollback` checks. -/
structure UpdateRollback.Ready (u : UpdateRollback) (home : Directory) (fs : Files) : Prop where
  armed : u.phase = .armed
  base : u.expectedBase home fs = some u.pluginBase
  resolved : fs.resolve u.pluginBase = u.pluginBase
  pointers : fs.pointers u.pluginBase ∈ u.accepted
  enabled : ∃ entries, fs.manifest (fs.resolve home) = some entries ∧
    (entries u.pluginId = u.previousEnabled ∨ entries u.pluginId = some true)
  valid : u.previous.all (fs.valid u.pluginBase) = true

/-- The pointers and the enabled state are the old ones. -/
structure UpdateRollback.Restored (u : UpdateRollback) (home : Directory) (fs : Files) : Prop where
  pointers : fs.pointers u.pluginBase = pointerValue u.previous
  enabled : ∃ entries, fs.manifest (fs.resolve home) = some entries ∧ entries u.pluginId = u.previousEnabled

theorem rollback_eq_some : u.rollback home fs = some ws ↔ u.Ready home fs ∧
    ∃ entries, fs.manifest (fs.resolve home) = some entries ∧
      ws = [fs.setPointers u.pluginBase (pointerValue u.previous),
        (fs.setPointers u.pluginBase (pointerValue u.previous)).setManifest (fs.resolve home)
          (Function.update entries u.pluginId u.previousEnabled)] := by
  rw [UpdateRollback.rollback]
  simp only [Option.bind_eq_bind, Option.bind_eq_some_iff, Option.guard_eq_some']
  constructor
  · rintro ⟨_, harmed, base, hbase, _, ⟨rfl, hresolved⟩, _, hpointers, entries, hentries, _, henabled, _, hvalid, h⟩
    exact ⟨⟨harmed, hbase, hresolved, hpointers, ⟨entries, hentries, henabled⟩, hvalid⟩, entries, hentries,
      (Option.some.inj h).symm⟩
  · rintro ⟨h, entries, hentries, rfl⟩
    obtain ⟨entries', hentries', henabled⟩ := h.enabled
    rw [hentries] at hentries'
    cases hentries'
    exact ⟨⟨⟩, h.armed, u.pluginBase, h.base, ⟨⟩, ⟨rfl, h.resolved⟩, ⟨⟩, h.pointers, entries, hentries, ⟨⟩, henabled,
      ⟨⟩, h.valid, rfl⟩

theorem UpdateRollback.Ready.rollback (h : u.Ready home fs) : ∃ ws, u.rollback home fs = some ws := by
  obtain ⟨entries, hentries, _⟩ := h.enabled
  exact ⟨_, rollback_eq_some.mpr ⟨h, entries, hentries, rfl⟩⟩

theorem expectedBase_resolve (h : fs'.resolve = fs.resolve) : u.expectedBase home fs' = u.expectedBase home fs := by
  rw [UpdateRollback.expectedBase, UpdateRollback.expectedBase, h]

/-- The files are the same for an update. -/
structure SameFor (v : UpdateRollback) (home : Directory) (fs fs' : Files) : Prop where
  resolve : fs'.resolve = fs.resolve
  artifact : fs'.artifact = fs.artifact
  pointers : fs'.pointers v.pluginBase = fs.pointers v.pluginBase
  enabled : (fs'.manifest (fs.resolve home)).map (· v.pluginId) = (fs.manifest (fs.resolve home)).map (· v.pluginId)

namespace SameFor

theorem trans {fs'' : Files} (h : SameFor v home fs fs') (h' : SameFor v home fs' fs'') : SameFor v home fs fs'' := by
  refine ⟨h'.resolve.trans h.resolve, h'.artifact.trans h.artifact, h'.pointers.trans h.pointers, ?_⟩
  have henabled := h'.enabled
  rw [h.resolve] at henabled
  exact henabled.trans h.enabled

theorem symm (h : SameFor v home fs fs') : SameFor v home fs' fs := by
  refine ⟨h.resolve.symm, h.artifact.symm, h.pointers.symm, ?_⟩
  rw [h.resolve]
  exact h.enabled.symm

theorem entries {p : Option Bool → Prop} (h : SameFor v home fs fs')
    (he : ∃ entries, fs.manifest (fs.resolve home) = some entries ∧ p (entries v.pluginId)) :
    ∃ entries, fs'.manifest (fs'.resolve home) = some entries ∧ p (entries v.pluginId) := by
  obtain ⟨entries, hentries, hp⟩ := he
  have hsame := h.enabled
  rw [hentries, Option.map_some] at hsame
  obtain ⟨entries', hentries', heq⟩ := Option.map_eq_some_iff.mp hsame
  refine ⟨entries', h.resolve ▸ hentries', ?_⟩
  rw [heq]
  exact hp

theorem ready (h : SameFor v home fs fs') (hv : v.Ready home fs) : v.Ready home fs' := by
  refine ⟨hv.armed, (expectedBase_resolve h.resolve).trans hv.base, ?_, ?_, ?_, ?_⟩
  · rw [h.resolve]
    exact hv.resolved
  · rw [h.pointers]
    exact hv.pointers
  · exact h.entries (p := fun x => x = v.previousEnabled ∨ x = some true) hv.enabled
  · have hvalid : fs'.valid v.pluginBase = fs.valid v.pluginBase := by
      funext p
      rw [Files.valid, Files.valid, h.artifact]
    rw [hvalid]
    exact hv.valid

theorem restored (h : SameFor v home fs fs') (hv : v.Restored home fs) : v.Restored home fs' :=
  ⟨h.pointers.trans hv.pointers, h.entries (p := fun x => x = v.previousEnabled) hv.enabled⟩

end SameFor

/-- The rollback of one plugin leaves the files of another. -/
theorem sameFor_write (h : u.rollback home fs = some ws) (hmem : fs' ∈ ws)
    (hv : v.expectedBase home fs = some v.pluginBase) (hne : v.pluginId ≠ u.pluginId) : SameFor v home fs fs' := by
  obtain ⟨hu, entries, hentries, rfl⟩ := rollback_eq_some.mp h
  have hbase : v.pluginBase ≠ u.pluginBase := by
    intro heq
    refine hne (plugin_of_base (hv.trans ((congrArg some heq).trans hu.base.symm)) ?_)
    rw [hv]
    exact Option.some_ne_none _
  have hpointers : Function.update fs.pointers u.pluginBase (pointerValue u.previous) v.pluginBase =
      fs.pointers v.pluginBase := Function.update_of_ne hbase _ _
  rcases List.mem_pair.mp hmem with rfl | rfl
  · exact ⟨rfl, rfl, hpointers, rfl⟩
  · refine ⟨rfl, rfl, hpointers, ?_⟩
    change Option.map _ (Function.update fs.manifest (fs.resolve home) _ (fs.resolve home)) = _
    rw [Function.update_self, hentries, Option.map_some, Option.map_some,
      Function.update_of_ne hne]

theorem resolve_write (h : u.rollback home fs = some ws) (hmem : fs' ∈ ws) : fs'.resolve = fs.resolve := by
  obtain ⟨_, entries, _, rfl⟩ := rollback_eq_some.mp h
  rcases List.mem_pair.mp hmem with rfl | rfl
  · rfl
  · rfl

/-- `rollback` accepts what it has written. -/
theorem ready_again (h : u.rollback home fs = some ws) (hmem : fs' ∈ ws) : u.Ready home fs' := by
  obtain ⟨hu, entries, hentries, rfl⟩ := rollback_eq_some.mp h
  obtain ⟨entries', hentries', henabled⟩ := hu.enabled
  rw [hentries] at hentries'
  cases hentries'
  have hpointers : Function.update fs.pointers u.pluginBase (pointerValue u.previous) u.pluginBase ∈ u.accepted := by
    rw [Function.update_self]
    exact List.mem_cons_self
  rcases List.mem_pair.mp hmem with rfl | rfl
  · exact ⟨hu.armed, hu.base, hu.resolved, hpointers, ⟨entries, hentries, henabled⟩, hu.valid⟩
  · exact ⟨hu.armed, hu.base, hu.resolved, hpointers,
      ⟨_, Function.update_self _ _ _, Or.inl (Function.update_self _ _ _)⟩, hu.valid⟩

/-- The last write restores the update. -/
theorem restored_last (h : u.rollback home fs = some ws) : u.Restored home (ws.getLast?.getD fs) := by
  obtain ⟨_, entries, _, rfl⟩ := rollback_eq_some.mp h
  exact ⟨Function.update_self _ _ _, _, Function.update_self _ _ _, Function.update_self _ _ _⟩

theorem last_mem (h : u.rollback home fs = some ws) : ws.getLast?.getD fs ∈ ws := by
  obtain ⟨_, entries, _, rfl⟩ := rollback_eq_some.mp h
  exact List.mem_cons_of_mem _ (List.mem_singleton.mpr rfl)

/-- Stopped after any write and run again, `rollback` restores the update. -/
theorem rollback_again (h : u.rollback home fs = some ws) (hmem : fs' ∈ ws) :
    ∃ ws', u.rollback home fs' = some ws' ∧ u.Restored home (ws'.getLast?.getD fs') := by
  obtain ⟨ws', hws'⟩ := (ready_again h hmem).rollback
  exact ⟨ws', hws', restored_last hws'⟩

/-! ## All rollbacks of a call -/

/-- Each of the updates can be rolled back. -/
def AllReady (j : Journal) (home : Directory) (order : List String) (fs : Files) : Prop :=
  ∀ id ∈ order, ∃ u, j.updates.get? id = some u ∧ u.Ready home fs

def AllRestored (j : Journal) (home : Directory) (order : List String) (fs : Files) : Prop :=
  ∀ id ∈ order, ∃ u, j.updates.get? id = some u ∧ u.Restored home fs

theorem rollback_writes (h : (j.rollback fs id home).commit = some j') : ∃ u ws, j.updates.get? id = some u ∧
    u.rollback home fs = some ws ∧ (j.rollback fs id home).writes = ws := by
  rw [Journal.rollback] at h ⊢
  split at h
  · cases h
  · next u hu =>
      split at h
      · cases h
      · next ws hws =>
          exact ⟨u, ws, hu, hws, rfl⟩

theorem get?_settle {other : String} (hne : other ≠ id) :
    (j.settle (fun i _ => i = id) .rolledBack).updates.get? other = j.updates.get? other := by
  rw [Journal.settle]
  induction j.updates with
  | nil => rfl
  | cons e rest ih =>
      rw [List.map_cons]
      split
      · next hp =>
          have hid : e.1 = id := of_decide_eq_true hp.1
          have hother : (other == e.1) = false := by
            rw [hid]
            exact beq_false_of_ne hne
          rw [Dict.get?, Dict.get?, List.lookup_cons, List.lookup_cons, hother]
          exact ih
      · rw [Dict.get?, Dict.get?, List.lookup_cons, List.lookup_cons]
        split
        · rfl
        · exact ih

theorem Tables.rolledBack (h : Tables j) : Tables (j.settle (fun i _ => i = id) .rolledBack) := h.settle nofun

theorem AllReady.settle (h : AllReady j home order fs) (hid : id ∉ order) :
    AllReady (j.settle (fun i _ => i = id) .rolledBack) home order fs := by
  intro other hother
  rw [get?_settle (ne_of_mem_of_not_mem hother hid)]
  exact h other hother

theorem AllReady.of_settle (h : AllReady (j.settle (fun i _ => i = id) .rolledBack) home order fs) (hid : id ∉ order) :
    AllReady j home order fs := by
  intro other hother
  have hready := h other hother
  rwa [get?_settle (ne_of_mem_of_not_mem hother hid)] at hready

/-- Two armed updates are of two plugins. -/
theorem plugin_ne {id' : String} (ht : Tables j) (hu : j.updates.get? id = some u) (hv : j.updates.get? id' = some v)
    (ha : u.phase = .armed) (hb : v.phase = .armed) (hne : id' ≠ id) : v.pluginId ≠ u.pluginId := fun heq =>
  hne (ht.active _ (Dict.mem_of_get? hv) _ (Dict.mem_of_get? hu) heq hb ha)

/-- The writes for one update leave the others ready. -/
theorem AllReady.same (h : AllReady j home order fs) (ht : Tables j) (hid : id ∉ order)
    (hu : j.updates.get? id = some u) (hws : u.rollback home fs = some ws) (hmem : fs' ∈ ws) :
    AllReady j home order fs' := by
  intro other hother
  obtain ⟨v, hv, hready⟩ := h other hother
  have hne := plugin_ne ht hu hv (rollback_eq_some.mp hws).1.armed hready.armed (ne_of_mem_of_not_mem hother hid)
  exact ⟨v, hv, (sameFor_write hws hmem hready.base hne).ready hready⟩

theorem AllReady.back (h : AllReady j home order fs') (ht : Tables j) (hid : id ∉ order)
    (hu : j.updates.get? id = some u) (hws : u.rollback home fs = some ws) (hmem : fs' ∈ ws) :
    AllReady j home order fs := by
  intro other hother
  obtain ⟨v, hv, hready⟩ := h other hother
  have hbase : v.expectedBase home fs = some v.pluginBase :=
    (expectedBase_resolve (resolve_write hws hmem)).symm.trans hready.base
  have hne := plugin_ne ht hu hv (rollback_eq_some.mp hws).1.armed hready.armed (ne_of_mem_of_not_mem hother hid)
  exact ⟨v, hv, (sameFor_write hws hmem hbase hne).symm.ready hready⟩

/-- A call that rolls updates back returns only if each of them is ready. -/
theorem rollbackAll_ready (hnd : order.Nodup) (ht : Tables j)
    (h : (Journal.rollbackAll home order j fs).commit = some j') : AllReady j home order fs := by
  induction order generalizing j fs with
  | nil => exact fun id hid => absurd hid List.not_mem_nil
  | cons id rest ih =>
      obtain ⟨hid, hnd⟩ := List.nodup_cons.mp hnd
      obtain ⟨j₁, h₁, h⟩ := andThen_commit h
      obtain ⟨u, ws, hu, hws, hwrites⟩ := rollback_writes h₁
      rw [rollback_commit h₁] at h
      have hrest := (ih hnd ht.rolledBack h).of_settle hid
      rw [Attempt.files, hwrites] at hrest
      have hback := hrest.back ht hid hu hws (last_mem hws)
      intro other hother
      rcases List.mem_cons.mp hother with rfl | hother
      · exact ⟨u, hu, (rollback_eq_some.mp hws).1⟩
      · exact hback other hother

theorem files_mem (x : Attempt) (fs : Files) : x.files fs = fs ∨ x.files fs ∈ x.writes := by
  rw [Attempt.files]
  cases hlast : x.writes.getLast? with
  | none => exact Or.inl rfl
  | some y => exact Or.inr (List.mem_of_getLast? hlast)

/-- When each is ready, the call returns, all are restored, and all are ready after any write. -/
theorem rollbackAll_restores (hnd : order.Nodup) (ht : Tables j) (h : AllReady j home order fs) :
    (∃ j', (Journal.rollbackAll home order j fs).commit = some j') ∧
      (∀ fs' ∈ (Journal.rollbackAll home order j fs).writes, AllReady j home order fs') ∧
      AllRestored j home order ((Journal.rollbackAll home order j fs).files fs) ∧
      ∀ v : UpdateRollback, v.expectedBase home fs = some v.pluginBase →
        (∀ id ∈ order, ∀ u, j.updates.get? id = some u → v.pluginId ≠ u.pluginId) →
        ∀ fs' ∈ (Journal.rollbackAll home order j fs).writes, SameFor v home fs fs' := by
  induction order generalizing j fs with
  | nil =>
      exact ⟨⟨j, rfl⟩, fun fs' hmem => absurd hmem List.not_mem_nil, fun id hid => absurd hid List.not_mem_nil,
        fun v _ _ fs' hmem => absurd hmem List.not_mem_nil⟩
  | cons id rest ih =>
      obtain ⟨hid, hnd⟩ := List.nodup_cons.mp hnd
      obtain ⟨u, hu, hready⟩ := h id List.mem_cons_self
      obtain ⟨ws, hws⟩ := hready.rollback
      have hrollback : j.rollback fs id home =
          { writes := ws, commit := some (j.settle (fun i _ => i = id) .rolledBack) } := by
        rw [Journal.rollback, hu]
        dsimp only
        rw [hws]
      have hrest : AllReady j home rest fs := fun other hother => h other (List.mem_cons_of_mem _ hother)
      have hlast := last_mem hws
      obtain ⟨hcommit, hwrites, hrestored, hkeep⟩ := ih hnd ht.rolledBack
        ((hrest.same ht hid hu hws hlast).settle hid)
      have hall : (Journal.rollbackAll home (id :: rest) j fs).writes =
          ws ++ (Journal.rollbackAll home rest (j.settle (fun i _ => i = id) .rolledBack)
            (ws.getLast?.getD fs)).writes := by
        rw [Journal.rollbackAll, hrollback, Attempt.andThen]
        rfl
      have hfiles : (Journal.rollbackAll home (id :: rest) j fs).files fs =
          (Journal.rollbackAll home rest (j.settle (fun i _ => i = id) .rolledBack) (ws.getLast?.getD fs)).files
            (ws.getLast?.getD fs) := by
        rw [Attempt.files, hall, Attempt.files, List.getLast?_append]
        cases (Journal.rollbackAll home rest _ _).writes.getLast? with
        | none => rfl
        | some x => rfl
      -- The updates of the rest are of other plugins.
      have hother {v : UpdateRollback} (hv : v.expectedBase home fs = some v.pluginBase)
          (hne : ∀ i ∈ rest, ∀ u, j.updates.get? i = some u → v.pluginId ≠ u.pluginId) :
          ∀ fs' ∈ (Journal.rollbackAll home rest (j.settle (fun i _ => i = id) .rolledBack)
            (ws.getLast?.getD fs)).writes, SameFor v home (ws.getLast?.getD fs) fs' := by
        refine hkeep v ?_ fun i hi u' hu' => ?_
        · rw [← hv]
          exact expectedBase_resolve (resolve_write hws hlast)
        · rw [get?_settle (ne_of_mem_of_not_mem hi hid)] at hu'
          exact hne i hi u' hu'
      have hself : ∀ fs' ∈ (Journal.rollbackAll home rest (j.settle (fun i _ => i = id) .rolledBack)
          (ws.getLast?.getD fs)).writes, SameFor u home (ws.getLast?.getD fs) fs' := by
        refine hother hready.base fun i hi v hv => ?_
        obtain ⟨v', hv', hvready⟩ := hrest i hi
        rw [hv] at hv'
        cases hv'
        exact (plugin_ne ht hu hv hready.armed hvready.armed (ne_of_mem_of_not_mem hi hid)).symm
      refine ⟨?_, fun fs' hmem => ?_, fun other hmem => ?_, fun v hv hne fs' hmem => ?_⟩
      · rw [Journal.rollbackAll, hrollback, Attempt.andThen]
        exact hcommit
      · rw [hall] at hmem
        intro other hin
        rcases List.mem_append.mp hmem with hw | hw
        · rcases List.mem_cons.mp hin with rfl | hin
          · exact ⟨u, hu, ready_again hws hw⟩
          · exact hrest.same ht hid hu hws hw other hin
        · rcases List.mem_cons.mp hin with rfl | hin
          · exact ⟨u, hu, (hself fs' hw).ready (ready_again hws hlast)⟩
          · exact (hwrites fs' hw).of_settle hid other hin
      · rw [hfiles]
        rcases List.mem_cons.mp hmem with rfl | hmem
        · refine ⟨u, hu, ?_⟩
          have hrest := restored_last hws
          rcases files_mem (Journal.rollbackAll home rest (j.settle (fun i _ => i = other) .rolledBack)
              (ws.getLast?.getD fs)) (ws.getLast?.getD fs) with heq | hin
          · rw [heq]
            exact hrest
          · exact (hself _ hin).restored hrest
        · obtain ⟨v, hv, hr⟩ := hrestored other hmem
          rw [get?_settle (ne_of_mem_of_not_mem hmem hid)] at hv
          exact ⟨v, hv, hr⟩
      · rw [hall] at hmem
        have hplugin := hne id List.mem_cons_self u hu
        rcases List.mem_append.mp hmem with hmem | hmem
        · exact sameFor_write hws hmem hv hplugin
        · refine (sameFor_write hws hlast hv hplugin).trans (hother hv (fun i hi => ?_) fs' hmem)
          exact hne i (List.mem_cons_of_mem _ hi)

end MonoAgent.Reload
