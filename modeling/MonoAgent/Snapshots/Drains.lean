import MonoAgent.Snapshots.Leases

/-!
# The drains of the snapshots

A snapshot is drained when it is closed and has no lease, and it stays so.  `_drain_tasks`
has the task of a snapshot until it is done, so no other is started beside it.
-/

namespace MonoAgent.Snapshots

open MonoAgent.Lib

variable {r s t : Store} {i j n : Nat} {tx : Transaction} {k : Task}

structure DrainInv (s : Store) : Prop where
  closed : ∀ k ∈ s.tasks, (s.heap k.snapshot).phase.closed = true ∧ (s.heap k.snapshot).leases = 0
  bound : ∀ k ∈ s.tasks, k.snapshot < s.size
  /-- The task that is not done is the one of `_drain_tasks`. -/
  live : ∀ j k, s.tasks[j]? = some k → k.stage.live = true →
    s.drains k.snapshot = some j ∧ k.snapshot ∈ s.retained
  drained : ∀ k ∈ s.tasks, k.stage = .ended true → k.snapshot ∉ s.retained
  once : ∀ (i j : Nat) (k l : Task), s.tasks[i]? = some k → s.tasks[j]? = some l → k.stage = .ended true →
    l.stage = .ended true → k.snapshot = l.snapshot → i = j
  nodup : s.retained.Nodup
  /-- What is known of the drains of a snapshot comes from a task. -/
  slot : ∀ i, s.drains i ≠ none ∨ s.failures i = true → ∃ k ∈ s.tasks, k.snapshot = i

theorem DrainInv.switches (h : DrainInv s) (hs : Switches s t) : DrainInv t := by
  refine ⟨fun k hk => ?_, fun k hk => ?_, fun j k hk hlive => ?_, fun k hk hdone => ?_, ?_, ?_, ?_⟩
  · obtain ⟨hclosed, hzero⟩ := h.closed k (hs.tasks ▸ hk)
    exact ⟨hs.closed _ hclosed, (hs.heap _).1.trans hzero⟩
  · rw [hs.size]
    exact h.bound k (hs.tasks ▸ hk)
  · rw [hs.drains, hs.retained]
    exact h.live j k (hs.tasks ▸ hk) hlive
  · rw [hs.retained]
    exact h.drained k (hs.tasks ▸ hk) hdone
  · rw [hs.tasks]
    exact h.once
  · rw [hs.retained]
    exact h.nodup
  · rw [hs.drains, hs.failures, hs.tasks]
    exact h.slot

theorem DrainInv.scheduleDrain (h : DrainInv s) (hp : PointerInv s) : DrainInv (s.scheduleDrain i) := by
  rw [Store.scheduleDrain]
  split
  · exact h
  · next hready =>
      rw [not_or, not_not, not_or, Bool.not_eq_false, not_not] at hready
      obtain ⟨hret, hclosed, hzero⟩ := hready
      split
      · exact h
      · next hidle =>
          have hnew {j : Nat} {k : Task} (hk : (s.tasks ++ [{ snapshot := i }])[j]? = some k) :
              s.tasks[j]? = some k ∨ k = { snapshot := i } ∧ j = s.tasks.length := by
            rcases Nat.lt_trichotomy j s.tasks.length with hlt | heq | hgt
            · rw [List.getElem?_append_left hlt] at hk
              exact Or.inl hk
            · rw [heq, List.getElem?_concat_length] at hk
              exact Or.inr ⟨(Option.some.inj hk).symm, heq⟩
            · rw [List.getElem?_eq_none (by simp; omega)] at hk
              cases hk
          have hmem {k : Task} (hk : k ∈ s.tasks ++ [{ snapshot := i }]) : k ∈ s.tasks ∨ k = { snapshot := i } :=
            (List.mem_append.mp hk).imp id List.mem_singleton.mp
          -- A task that is not done is in the way.
          have hfree {j : Nat} {k : Task} (hk : s.tasks[j]? = some k) (hlive : k.stage.live = true) :
              k.snapshot ≠ i := by
            rintro rfl
            apply hidle
            rw [Store.draining, (h.live j k hk hlive).1, Option.bind_some, hk]
            exact hlive
          refine ⟨fun k hk => ?_, fun k hk => ?_, fun j k hk hlive => ?_, fun k hk hdone => ?_,
            fun a b k l hk hl hdk hdl heq => ?_, h.nodup, fun a ha => ?_⟩
          · rcases hmem hk with hk | rfl
            · exact h.closed k hk
            · exact ⟨hclosed, hzero⟩
          · rcases hmem hk with hk | rfl
            · exact h.bound k hk
            · exact hp.bound i hret
          · rcases hnew hk with hk | ⟨rfl, rfl⟩
            · obtain ⟨hdrain, hr⟩ := h.live j k hk hlive
              exact ⟨(Function.update_of_ne (hfree hk hlive) _ _).trans hdrain, hr⟩
            · exact ⟨Function.update_self _ _ _, hret⟩
          · rcases hmem hk with hk | rfl
            · exact h.drained k hk hdone
            · cases hdone
          · rcases hnew hk with hk | ⟨rfl, _⟩
            · rcases hnew hl with hl | ⟨rfl, _⟩
              · exact h.once a b k l hk hl hdk hdl heq
              · cases hdl
            · cases hdk
          · by_cases hai : a = i
            · exact ⟨{ snapshot := i }, List.mem_append_right _ (List.mem_singleton.mpr rfl), hai.symm⟩
            · have ha' : s.drains a ≠ none ∨ s.failures a = true :=
                ha.imp (fun hd => Function.update_of_ne hai (some _) s.drains ▸ hd)
                  fun hf => (Function.update_of_ne hai false s.failures).symm.trans hf
              obtain ⟨k, hk, heq⟩ := h.slot a ha'
              exact ⟨k, List.mem_append_left _ hk, heq⟩

theorem DrainInv.settles (h : DrainInv s) (hp : PointerInv s) (hs : Settles s t) : DrainInv t := by
  induction hs with
  | refl => exact h
  | schedule i hs ih => exact ih.scheduleDrain (hp.still hs.still)
  | notify _ ih => exact ⟨ih.closed, ih.bound, ih.live, ih.drained, ih.once, ih.nodup, ih.slot⟩
  | waits ws _ ih => exact ⟨ih.closed, ih.bound, ih.live, ih.drained, ih.once, ih.nodup, ih.slot⟩

theorem DrainInv.publishes (h : DrainInv s) (hs : Publishes s t) : DrainInv t := by
  obtain ⟨r, hswitch, hr, hsettles⟩ := hs
  exact (h.switches hswitch).settles hr hsettles

/-- No snapshot with a task is leased. -/
theorem DrainInv.leasable (h : DrainInv s) (hl : LeaseInv s) (hi : Leasable s i) (hk : k ∈ s.tasks) :
    k.snapshot ≠ i := by
  rintro rfl
  obtain ⟨hclosed, hzero⟩ := h.closed k hk
  rcases hi.held with hopen | ⟨l, hmem, hactive, hsnapshot⟩
  · exact absurd (hopen.symm.trans hclosed) nofun
  · have hpos : 0 < s.held k.snapshot := List.countP_pos_iff.mpr ⟨l, hmem, by simp [hactive, hsnapshot]⟩
    rw [← hl.snapshots, hzero] at hpos
    exact absurd hpos (Nat.lt_irrefl 0)

theorem DrainInv.addLeases (h : DrainInv s) {f : Nat → Nat} (hf : ∀ k ∈ s.tasks, k.snapshot = i → f 0 = 0) :
    DrainInv (s.addLeases i f) := by
  refine ⟨fun k hk => ?_, h.bound, h.live, h.drained, h.once, h.nodup, h.slot⟩
  obtain ⟨hclosed, hzero⟩ := h.closed k hk
  rw [addLeases_heap]
  split
  · next heq =>
      refine ⟨heq ▸ hclosed, ?_⟩
      change f (s.heap i).leases = 0
      rw [← heq, hzero]
      exact hf k hk heq
  · exact ⟨hclosed, hzero⟩

theorem slot_set {stage : Stage} (hk : s.tasks[j]? = some k) (h : ∃ k ∈ s.tasks, k.snapshot = i) :
    ∃ l ∈ s.tasks.set j { k with stage }, l.snapshot = i := by
  obtain ⟨l, hl, heq⟩ := h
  obtain ⟨a, ha⟩ := List.mem_iff_getElem?.mp hl
  by_cases haj : j = a
  · subst haj
    cases hk.symm.trans ha
    exact ⟨_, List.mem_set (List.getElem?_eq_some_iff.mp hk).1 _, heq⟩
  · exact ⟨l, List.mem_of_getElem? ((List.getElem?_set_ne haj).trans ha), heq⟩

/-- A task takes a step that leaves it live or leaves what it was. -/
theorem DrainInv.stage (h : DrainInv s) (hk : s.tasks[j]? = some k) {stage : Stage}
    (hlive : stage.live = true → k.stage.live = true) (hdone : stage ≠ .ended true) :
    DrainInv { s with tasks := s.tasks.set j { k with stage } } := by
  have hlt := (List.getElem?_eq_some_iff.mp hk).1
  have hat {i : Nat} {l : Task} (hl : (s.tasks.set j { k with stage })[i]? = some l) :
      i = j ∧ l = { k with stage } ∨ i ≠ j ∧ s.tasks[i]? = some l := by
    by_cases hij : i = j
    · subst hij
      rw [List.getElem?_set_self hlt] at hl
      exact Or.inl ⟨rfl, (Option.some.inj hl).symm⟩
    · rw [List.getElem?_set_ne (Ne.symm hij)] at hl
      exact Or.inr ⟨hij, hl⟩
  have hmem {l : Task} (hl : l ∈ s.tasks.set j { k with stage }) : l ∈ s.tasks ∨ l = { k with stage } :=
    List.mem_or_eq_of_mem_set hl
  have hkm := List.mem_of_getElem? hk
  refine ⟨fun l hl => ?_, fun l hl => ?_, fun i l hl hlv => ?_, fun l hl hd => ?_, fun a b x y hx hy hdx hdy heq => ?_,
    h.nodup, fun a ha => slot_set hk (h.slot a ha)⟩
  · rcases hmem hl with hl | rfl
    · exact h.closed l hl
    · exact h.closed k hkm
  · rcases hmem hl with hl | rfl
    · exact h.bound l hl
    · exact h.bound k hkm
  · rcases hat hl with ⟨rfl, rfl⟩ | ⟨_, hl⟩
    · exact h.live i k hk (hlive hlv)
    · exact h.live i l hl hlv
  · rcases hmem hl with hl | rfl
    · exact h.drained l hl hd
    · exact absurd hd hdone
  · rcases hat hx with ⟨_, rfl⟩ | ⟨_, hx⟩
    · exact absurd hdx hdone
    · rcases hat hy with ⟨_, rfl⟩ | ⟨_, hy⟩
      · exact absurd hdy hdone
      · exact h.once a b x y hx hy hdx hdy heq

theorem DrainInv.ends (h : DrainInv s) (hk : s.tasks[j]? = some k) (hrun : k.stage = .running) {drained : Bool}
    {retained : List Nat}
    (hret : drained = true ∧ retained = s.retained.erase k.snapshot ∨ drained = false ∧ retained = s.retained)
    {failures : Nat → Bool} (hfail : ∀ i, failures i = true → s.failures i = true ∨ i = k.snapshot)
    {waiters : List Waiter} :
    DrainInv { s with
      tasks := s.tasks.set j { k with stage := .ended drained }
      drains := Function.update s.drains k.snapshot none
      retained, failures, waiters } := by
  have hlt := (List.getElem?_eq_some_iff.mp hk).1
  have hkm := List.mem_of_getElem? hk
  obtain ⟨hdrain, hin⟩ := h.live j k hk (by rw [hrun]; rfl)
  have hsub {i : Nat} (hi : i ∈ retained) : i ∈ s.retained := by
    rcases hret with ⟨_, rfl⟩ | ⟨_, rfl⟩
    · exact List.mem_of_mem_erase hi
    · exact hi
  have hstay {i : Nat} (hi : i ∈ s.retained) (hne : i ≠ k.snapshot) : i ∈ retained := by
    rcases hret with ⟨_, rfl⟩ | ⟨_, rfl⟩
    · exact (List.mem_erase_of_ne hne).mpr hi
    · exact hi
  have hat {i : Nat} {l : Task} (hl : (s.tasks.set j { k with stage := .ended drained })[i]? = some l) :
      i = j ∧ l = { k with stage := .ended drained } ∨ i ≠ j ∧ s.tasks[i]? = some l := by
    by_cases hij : i = j
    · subst hij
      rw [List.getElem?_set_self hlt] at hl
      exact Or.inl ⟨rfl, (Option.some.inj hl).symm⟩
    · rw [List.getElem?_set_ne (Ne.symm hij)] at hl
      exact Or.inr ⟨hij, hl⟩
  have hmem {l : Task} (hl : l ∈ s.tasks.set j { k with stage := .ended drained }) :
      l ∈ s.tasks ∨ l = { k with stage := .ended drained } := List.mem_or_eq_of_mem_set hl
  -- The snapshot was retained, so no task has drained it.
  have hfirst {i : Nat} {l : Task} (hl : s.tasks[i]? = some l) (hd : l.stage = .ended true) :
      l.snapshot ≠ k.snapshot := fun heq => h.drained l (List.mem_of_getElem? hl) hd (heq ▸ hin)
  refine ⟨fun l hl => ?_, fun l hl => ?_, fun i l hl hlv => ?_, fun l hl hd => ?_, fun a b x y hx hy hdx hdy heq => ?_, ?_,
    fun i hi => slot_set hk ?_⟩
  · rcases hmem hl with hl | rfl
    · exact h.closed l hl
    · exact h.closed k hkm
  · rcases hmem hl with hl | rfl
    · exact h.bound l hl
    · exact h.bound k hkm
  · rcases hat hl with ⟨_, rfl⟩ | ⟨hij, hl⟩
    · cases hlv
    · obtain ⟨hdl, hil⟩ := h.live i l hl hlv
      have hne : l.snapshot ≠ k.snapshot := by
        intro heq
        rw [heq, hdrain] at hdl
        exact hij (Option.some.inj hdl).symm
      exact ⟨(Function.update_of_ne hne _ _).trans hdl, hstay hil hne⟩
  · rcases hmem hl with hl | rfl
    · exact fun hin => h.drained l hl hd (hsub hin)
    · rcases hret with ⟨_, rfl⟩ | ⟨rfl, _⟩
      · exact h.nodup.not_mem_erase
      · cases hd
  · rcases hat hx with ⟨rfl, rfl⟩ | ⟨_, hx⟩
    · rcases hat hy with ⟨rfl, _⟩ | ⟨_, hy⟩
      · rfl
      · exact absurd heq.symm (hfirst hy hdy)
    · rcases hat hy with ⟨_, rfl⟩ | ⟨_, hy⟩
      · exact absurd heq (hfirst hx hdx)
      · exact h.once a b x y hx hy hdx hdy heq
  · rcases hret with ⟨_, rfl⟩ | ⟨_, rfl⟩
    · exact h.nodup.erase _
    · exact h.nodup
  · by_cases hik : i = k.snapshot
    · exact ⟨k, hkm, hik.symm⟩
    · refine h.slot i (hi.imp (fun hd => Function.update_of_ne hik none s.drains ▸ hd) fun hf => ?_)
      exact (hfail i hf).resolve_right hik

theorem DrainInv.cancelTask (h : DrainInv s) : DrainInv (s.cancelTask j) := by
  rw [Store.cancelTask]
  split
  · next k hk =>
      split
      · exact h.stage hk nofun nofun
      · exact h
  · exact h

theorem still_cancelTask : Still s (s.cancelTask j) ∧ (s.cancelTask j).heap = s.heap ∧
    (s.cancelTask j).counts = s.counts ∧ (s.cancelTask j).leases = s.leases := by
  rw [Store.cancelTask]
  split
  · split
    · exact ⟨⟨fun _ => rfl, rfl, rfl, rfl, rfl, rfl, rfl⟩, rfl, rfl, rfl⟩
    · exact ⟨.refl, rfl, rfl, rfl⟩
  · exact ⟨.refl, rfl, rfl, rfl⟩

/-! ## The store as a whole -/

structure StoreInv (s : Store) : Prop where
  pointers : PointerInv s
  leases : LeaseInv s
  drains : DrainInv s

theorem PointerInv.adopt (h : PointerInv s) (hpending : s.pending = none) (hprov : s.provisional = none)
    (hun : s.unpromoted = none) {id : String} {generations : Finset Nat} {root : Option Nat} {b : Bool} {n m : Nat} :
    PointerInv { s.adopt id generations root .validating b with
      pending := some { serial := n, previous := s.current, candidate := s.size }, serial := m } := by
  have hheap (i : Nat) (hi : i ∈ s.retained) : (s.adopt id generations root .validating b).heap i = s.heap i :=
    Function.update_of_ne (Nat.ne_of_lt (h.bound i hi)) _ _
  have hself : ((s.adopt id generations root .validating b).heap s.size).phase = .validating :=
    congrArg Snapshot.phase (Function.update_self s.size _ s.heap)
  refine ⟨fun i hi => ?_, fun c hc => ?_, fun c hc => ?_, fun tx htx => ?_, fun tx htx => ?_, fun i hi hp => ?_⟩
  · rcases List.mem_append.mp hi with hi | hi
    · exact Nat.lt_succ_of_lt (h.bound i hi)
    · rw [List.mem_singleton.mp hi]
      exact Nat.lt_succ_self _
  · obtain ⟨hret, hphase⟩ := h.current c hc
    exact ⟨List.mem_append_left _ hret, (congrArg Snapshot.phase (hheap c hret)).trans hphase⟩
  · obtain ⟨hret, hphase⟩ := h.latest c hc
    exact ⟨List.mem_append_left _ hret, (congrArg Snapshot.phase (hheap c hret)).trans hphase⟩
  · cases htx
    exact ⟨hprov, hun, rfl, List.mem_append_right _ (List.mem_singleton.mpr rfl), hself⟩
  · cases hprov.symm.trans htx
  · rcases List.mem_append.mp hi with hi | hi
    · have hphase : ((s.adopt id generations root .validating b).heap i).phase = (s.heap i).phase :=
        congrArg Snapshot.phase (hheap i hi)
      rcases h.known i hi (hphase ▸ hp) with hcur | hlatest | ⟨tx, htx, _⟩
      · exact Or.inl hcur
      · exact Or.inr (Or.inl hlatest)
      · cases hpending.symm.trans htx
    · exact Or.inr (Or.inr ⟨_, rfl, (List.mem_singleton.mp hi).symm⟩)

theorem DrainInv.adopt (h : DrainInv s) (hp : PointerInv s) {id : String} {generations : Finset Nat}
    {root : Option Nat} {ph : Phase} {b : Bool} : DrainInv (s.adopt id generations root ph b) := by
  have hheap (k : Task) (hk : k ∈ s.tasks) :
      (s.adopt id generations root ph b).heap k.snapshot = s.heap k.snapshot :=
    Function.update_of_ne (Nat.ne_of_lt (h.bound k hk)) _ _
  refine ⟨fun k hk => ?_, fun k hk => Nat.lt_succ_of_lt (h.bound k hk), fun j k hk hlive => ?_, fun k hk hd hin => ?_,
    h.once, ?_, h.slot⟩
  · rw [hheap k hk]
    exact h.closed k hk
  · obtain ⟨hdrain, hret⟩ := h.live j k hk hlive
    exact ⟨hdrain, List.mem_append_left _ hret⟩
  · rcases List.mem_append.mp hin with hin | hin
    · exact h.drained k hk hd hin
    · exact absurd (List.mem_singleton.mp hin) (Nat.ne_of_lt (h.bound k hk))
  · refine List.nodup_append.mpr ⟨h.nodup, List.nodup_singleton _, fun a ha b hb => ?_⟩
    rw [List.mem_singleton.mp hb]
    exact Nat.ne_of_lt (hp.bound a ha)

theorem PointerInv.erase (h : PointerInv s) (hi : (s.heap i).phase.closed = true) :
    PointerInv { s with retained := s.retained.erase i } := by
  have hstay {c : Nat} (hc : c ∈ s.retained) (hp : (s.heap c).phase.closed = false) : c ∈ s.retained.erase i := by
    refine (List.mem_erase_of_ne ?_).mpr hc
    rintro rfl
    exact absurd (hp.symm.trans hi) nofun
  refine ⟨fun c hc => h.bound c (List.mem_of_mem_erase hc), fun c hc => ?_, fun c hc => ?_, fun tx htx => ?_,
    h.provisional, fun c hc hp => h.known c (List.mem_of_mem_erase hc) hp⟩
  · obtain ⟨hret, hphase⟩ := h.current c hc
    exact ⟨hstay hret (by rw [hphase]; rfl), hphase⟩
  · obtain ⟨hret, hphase⟩ := h.latest c hc
    exact ⟨hstay hret (by rw [hphase]; rfl), hphase⟩
  · obtain ⟨hprov, hun, hprevious, hret, hphase⟩ := h.pending tx htx
    exact ⟨hprov, hun, hprevious, hstay hret (by rw [hphase]; rfl), hphase⟩

theorem StoreInv.publishes (h : StoreInv s) (hs : Publishes s t) : StoreInv t :=
  ⟨hs.inv, h.leases.publishes hs, h.drains.publishes hs⟩

theorem StoreInv.settles (h : StoreInv s) (hs : Settles s t) : StoreInv t :=
  h.publishes ⟨s, .refl, h.pointers, hs⟩

theorem StoreInv.waiters (h : StoreInv s) (waiters : List Waiter) : StoreInv { s with waiters } :=
  ⟨h.pointers.still ⟨fun _ => rfl, rfl, rfl, rfl, rfl, rfl, rfl⟩, h.leases.congr (fun _ => ⟨rfl, rfl⟩) rfl rfl rfl,
    ⟨h.drains.closed, h.drains.bound, h.drains.live, h.drains.drained, h.drains.once, h.drains.nodup, h.drains.slot⟩⟩

theorem StoreInv.claimLease (h : StoreInv s) (hi : Leasable s i) : StoreInv (s.claimLease i) := by
  refine ⟨h.pointers.still still_claimLease, h.leases.claimLease (h.pointers.bound i hi.retained), ?_⟩
  have hadd : DrainInv (s.addLeases i (· + 1)) :=
    h.drains.addLeases fun k hk heq => absurd heq (h.drains.leasable h.leases hi hk)
  exact ⟨hadd.closed, hadd.bound, hadd.live, hadd.drained, hadd.once, hadd.nodup, hadd.slot⟩

theorem StoreInv.release (h : StoreInv s) : StoreInv (s.release n) := by
  rw [Store.release]
  split
  · next l hl =>
      split
      · exact h
      · next ha =>
          rw [Bool.not_eq_false] at ha
          have hpos : (s.heap l.snapshot).leases ≠ 0 := by
            have hheld : 0 < s.held l.snapshot :=
              List.countP_pos_iff.mpr ⟨l, List.mem_of_getElem? hl, by simp [ha]⟩
            rw [h.leases.snapshots]
            exact Nat.ne_of_gt hheld
          dsimp only
          rw [if_neg hpos]
          have hadd : DrainInv (s.addLeases l.snapshot (· - 1)) := h.drains.addLeases fun _ _ _ => rfl
          have hinv : StoreInv (Store.addLeases { s with leases := s.leases.set n { l with active := false } }
              l.snapshot (· - 1)) := by
            have hstill : Still s (s.addLeases l.snapshot (· - 1)) := still_addLeases
            exact ⟨h.pointers.still ⟨hstill.phase, rfl, rfl, rfl, rfl, rfl, rfl⟩, h.leases.release hl ha,
              ⟨hadd.closed, hadd.bound, hadd.live, hadd.drained, hadd.once, hadd.nodup, hadd.slot⟩⟩
          exact hinv.settles (.notify (.schedule _ .refl))
  · exact h

theorem StoreInv.cancelTask (h : StoreInv s) : StoreInv (s.cancelTask j) := by
  obtain ⟨hstill, hheap, hcounts, hleases⟩ := still_cancelTask (s := s) (j := j)
  exact ⟨h.pointers.still hstill, h.leases.congr (fun i => by rw [hheap]; exact ⟨rfl, rfl⟩) hcounts hleases hstill.size,
    h.drains.cancelTask⟩

theorem StoreInv.drainEnds (h : StoreInv s) {drained : Bool} (hn : s.drainEnds j drained = some t) : StoreInv t := by
  obtain ⟨k, hk, hn⟩ := Option.bind_eq_some_iff.mp hn
  split at hn
  · next hrun =>
      have hclosed := (h.drains.closed k (List.mem_of_getElem? hk)).1
      cases drained with
      | true =>
          cases hn
          have herase := h.pointers.erase hclosed
          exact ⟨⟨herase.bound, herase.current, herase.latest, herase.pending, herase.provisional, herase.known⟩,
            h.leases.congr (fun _ => ⟨rfl, rfl⟩) rfl rfl rfl, h.drains.ends hk hrun (Or.inl ⟨rfl, rfl⟩) fun _ => Or.inl⟩
      | false =>
          cases hn
          have hfail (i : Nat) (hi : Function.update s.failures k.snapshot true i = true) :
              s.failures i = true ∨ i = k.snapshot := by
            by_cases hik : i = k.snapshot
            · exact Or.inr hik
            · exact Or.inl ((Function.update_of_ne hik true s.failures).symm.trans hi)
          exact ⟨h.pointers.still ⟨fun _ => rfl, rfl, rfl, rfl, rfl, rfl, rfl⟩,
            h.leases.congr (fun _ => ⟨rfl, rfl⟩) rfl rfl rfl, h.drains.ends hk hrun (Or.inr ⟨rfl, rfl⟩) hfail⟩
  · cases hn

/-! ## Every run -/

/-- A step of the store gives out no lease, or one of a snapshot that no drain was scheduled of. -/
def Store.Leases (s t : Store) : Prop := t.leases.length = s.leases.length ∨
  ∃ i, t.leases = s.leases ++ [{ snapshot := i }] ∧ ∀ k ∈ s.tasks, k.snapshot ≠ i

theorem Settles.leases (h : Settles s t) : t.leases = s.leases := by
  induction h with
  | refl => rfl
  | schedule i _ ih => exact scheduleDrain_keeps.2.2.1.trans ih
  | notify _ ih => exact ih
  | waits ws _ ih => exact ih

/-- What every step does. -/
structure Stepped (s t : Store) : Prop where
  inv : StoreInv t
  leases : s.Leases t

theorem Stepped.same (h : StoreInv t) (hl : t.leases = s.leases) : Stepped s t := ⟨h, Or.inl (congrArg _ hl)⟩

theorem Stepped.publishes (h : StoreInv s) (hs : Publishes s t) : Stepped s t := by
  refine .same (h.publishes hs) ?_
  obtain ⟨r, hswitch, _, hsettles⟩ := hs
  exact hsettles.leases.trans hswitch.leases

theorem Stepped.settles (h : StoreInv s) (hs : Settles s t) : Stepped s t := .same (h.settles hs) hs.leases

theorem Stepped.claims (h : StoreInv s) (hs : t = s ∨ ∃ i, Leasable s i ∧ t = s.claimLease i) : Stepped s t := by
  rcases hs with rfl | ⟨i, hi, rfl⟩
  · exact .same h rfl
  · exact ⟨h.claimLease hi, Or.inr ⟨i, rfl, fun k hk => h.drains.leasable h.leases hi hk⟩⟩

theorem Stepped.acquires (h : StoreInv s) (target : Target) : Stepped s (s.acquire target) := by
  rcases acquire_cases (t := target) h.pointers with heq | hclaims | ⟨heq, _⟩
  · exact .claims h (Or.inl heq)
  · exact .claims h (Or.inr hclaims)
  · rw [heq]
    exact .same (h.waiters _) rfl

theorem StoreInv.cancelTasks (h : StoreInv s) (js : List Nat) :
    StoreInv (js.foldl Store.cancelTask s) ∧ (js.foldl Store.cancelTask s).leases = s.leases := by
  induction js generalizing s with
  | nil => exact ⟨h, rfl⟩
  | cons j js ih =>
      obtain ⟨hinv, hleases⟩ := ih (s := s.cancelTask j) h.cancelTask
      exact ⟨hinv, hleases.trans still_cancelTask.2.2.2⟩

theorem release_leases : (s.release n).leases.length = s.leases.length := by
  rw [Store.release]
  split
  · next l hl =>
      split
      · rfl
      · dsimp only
        split
        · exact List.length_set
        · have hsettles := Settles.notify (.schedule l.snapshot
            (.refl (s := Store.addLeases { s with leases := s.leases.set n { l with active := false } } l.snapshot (· - 1))))
          rw [hsettles.leases]
          exact List.length_set
  · rfl

theorem step_stepped {a : Action} (h : StoreInv s) (hn : storeMachine.next s a = some t) : Stepped s t := by
  have hp := h.pointers
  cases a with
  | beginPublish id generations root valid =>
      cases hn
      rw [Store.beginPublish]
      split
      · exact .same h rfl
      · next hidle =>
          rw [not_or, not_not, not_not] at hidle
          split
          · exact .same h rfl
          · next hun =>
              split
              · exact .same h rfl
              · split
                · exact .same h rfl
                · refine .same ⟨hp.adopt hidle.1 hidle.2 (not_not.mp hun), h.leases.adopt.congr (fun _ => ⟨rfl, rfl⟩) rfl rfl rfl,
                    ?_⟩ rfl
                  have hadopt : DrainInv (s.adopt id generations root .validating false) := h.drains.adopt hp
                  exact ⟨hadopt.closed, hadopt.bound, hadopt.live, hadopt.drained, hadopt.once, hadopt.nodup, hadopt.slot⟩
  | commit tx valid before after =>
      cases hn
      exact .publishes h (commit_publishes hp)
  | commitLatest tx valid before =>
      cases hn
      exact .publishes h (commitLatest_publishes hp)
  | commitProvisional tx valid =>
      cases hn
      exact .publishes h (commitProvisional_publishes hp)
  | promoteLatestProvisional valid =>
      cases hn
      exact .publishes h (promoteLatestProvisional_publishes hp)
  | finalizeProvisional tx valid before after =>
      cases hn
      exact .publishes h (finalizeProvisional_publishes hp)
  | rollbackProvisional tx keep reopen =>
      cases hn
      exact .publishes h (rollbackProvisional_publishes hp)
  | promoteLatest valid before after =>
      cases hn
      exact .publishes h (promoteLatest_publishes hp)
  | abort tx reopen =>
      cases hn
      exact .publishes h (abort_publishes hp)
  | retryDrains =>
      cases hn
      exact .settles h (settles_await .refl (settles_retryRest .refl))
  | waitEnds n => exact .settles h (waitEnds_settles hn)
  | waitCancelled n =>
      obtain ⟨w, _, hn⟩ := Option.bind_eq_some_iff.mp hn
      cases hn
      have hwaits : StoreInv { s with waits := s.waits.eraseIdx n } := h.settles (.waits _ .refl)
      obtain ⟨hinv, hleases⟩ := hwaits.cancelTasks w.tasks
      exact .same hinv hleases
  | drainStarts j =>
      obtain ⟨k, hk, hn⟩ := Option.bind_eq_some_iff.mp hn
      split at hn
      · next hcreated =>
          cases hn
          refine .same ⟨hp.still ⟨fun _ => rfl, rfl, rfl, rfl, rfl, rfl, rfl⟩, h.leases.congr (fun _ => ⟨rfl, rfl⟩) rfl rfl rfl,
            h.drains.stage hk (fun _ => ?_) nofun⟩ rfl
          rw [hcreated]
          rfl
      · cases hn
  | drainEnds j drained =>
      refine .same (h.drainEnds hn) ?_
      obtain ⟨k, _, hn⟩ := Option.bind_eq_some_iff.mp hn
      split at hn
      · cases hn
        cases drained with
        | true => rfl
        | false => rfl
      · cases hn
  | acquire target =>
      cases hn
      exact .acquires h target
  | wake n =>
      obtain ⟨w, _, hn⟩ := Option.bind_eq_some_iff.mp hn
      split at hn
      · cases hn
        have hstep := Stepped.acquires (h.waiters (s.waiters.eraseIdx n)) w.target
        exact ⟨hstep.inv, hstep.leases⟩
      · cases hn
  | cancelWaiter n =>
      cases hn
      exact .same (h.waiters _) rfl
  | lease target =>
      cases hn
      exact .claims h (lease_cases hp)
  | retainPublicationTarget tx =>
      cases hn
      exact .claims h (retainPublicationTarget_cases hp)
  | retainRecoveryTarget i =>
      cases hn
      exact .claims h ((retainRecoveryTarget_cases hp).imp id fun hi => ⟨i, hi⟩)
  | forkLease n =>
      cases hn
      exact .claims h forkLease_cases
  | release n =>
      cases hn
      exact ⟨h.release, Or.inl release_leases⟩
  | pauseAdmission =>
      cases hn
      exact .publishes h ⟨_, Switches.refl.accept, hp.still still_accept, .refl⟩
  | pauseCandidateAdmission i =>
      cases hn
      rw [Store.pauseCandidateAdmission]
      split
      · exact .publishes h ⟨_, Switches.refl.accept, hp.still still_accept, .refl⟩
      · exact .same h rfl
  | resume i =>
      cases hn
      rw [Store.resume]
      split
      · exact .publishes h ⟨_, Switches.refl.accept, hp.still still_accept, .notify .refl⟩
      · exact .settles h (.notify .refl)

theorem storeInv_empty : StoreInv {} where
  pointers :=
    { bound := fun _ hi => absurd hi List.not_mem_nil
      current := fun _ hc => nomatch (hc : none = some _)
      latest := fun _ hc => nomatch (hc : none = some _)
      pending := fun _ htx => nomatch (htx : none = some _)
      provisional := fun _ htx => nomatch (htx : none = some _)
      known := fun _ hi => absurd hi List.not_mem_nil }
  leases := ⟨fun _ => rfl, fun _ => rfl, fun _ hl => absurd hl List.not_mem_nil⟩
  drains :=
    { closed := fun _ hk => absurd hk List.not_mem_nil
      bound := fun _ hk => absurd hk List.not_mem_nil
      live := fun _ _ hk => nomatch (hk : none = some _)
      drained := fun _ hk => absurd hk List.not_mem_nil
      once := fun _ _ _ _ hk => nomatch (hk : none = some _)
      nodup := List.nodup_nil
      slot := fun _ hi => hi.elim (fun hd => absurd rfl hd) nofun }

theorem storeInv_installed {id : String} {generations : Finset Nat} {root : Option Nat} {b : Bool} :
    StoreInv (Store.installed id generations root b) := by
  have hdrains : DrainInv (({} : Store).adopt id generations root .committed b) :=
    storeInv_empty.drains.adopt storeInv_empty.pointers
  have hfirst {c : Nat} (hc : some 0 = some c) : c ∈ (Store.installed id generations root b).retained ∧
      ((Store.installed id generations root b).heap c).phase = .committed := by
    cases hc
    exact ⟨List.mem_singleton.mpr rfl, rfl⟩
  refine ⟨⟨fun i hi => ?_, fun c hc => hfirst hc, fun c hc => hfirst hc, fun tx htx => (nomatch (htx : none = some _)),
    fun tx htx => (nomatch (htx : none = some _)), fun i hi _ => Or.inl ?_⟩,
    (storeInv_empty.leases.adopt (p := .committed)).congr (fun _ => ⟨rfl, rfl⟩) rfl rfl rfl,
    ⟨hdrains.closed, hdrains.bound, hdrains.live, hdrains.drained, hdrains.once, hdrains.nodup, hdrains.slot⟩⟩
  · rw [List.mem_singleton.mp hi]
    exact Nat.zero_lt_one
  · rw [List.mem_singleton.mp hi]
    rfl

theorem storeInv_start (h : storeMachine.start s) : StoreInv s := by
  rcases h with rfl | ⟨id, generations, root, accepting, rfl⟩
  · exact storeInv_empty
  · exact storeInv_installed

theorem storeInv_reach {ok : Store → Action → Prop} (h : storeMachine.Reach ok s) : StoreInv s :=
  h.invariant (fun _ => storeInv_start) fun _ _ _ hi _ hn => (step_stepped hi hn).inv

end MonoAgent.Snapshots
