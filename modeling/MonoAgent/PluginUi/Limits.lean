import MonoAgent.PluginUi.Invariant

/-!
# Limits of the queries

The executions of a kind that run hold one gate, so they are no more than it has slots.
-/

namespace MonoAgent.PluginUi

open MonoAgent.Lib Semaphore

namespace Scheduler

variable {s : Scheduler} {e : Execution}

/-- The executions of a kind that run. -/
def running (s : Scheduler) (kind : Execution → Bool) : Nat :=
  s.executions.countP fun e => e.phase = .runs && kind e

/-- The scheduler keeps nothing of the device. -/
def Clear (s : Scheduler) (device : String) : Prop :=
  s.outstanding device = 0 ∧ s.devices device = none ∧ ∀ plugin, s.plugins (device, plugin) = none

/-- Every slot that a gate lacks was handed to one that waits for it, or is held by one that did
not end. -/
structure Accounted (s : Scheduler) (g : Nat) : Prop where
  balance : (s.gates g).value + (s.gates g).granted + s.taken g = (s.gates g).slots
  handed : ((s.gates g).waiters.map Prod.fst).Nodup ∧ ∀ w ∈ (s.gates g).waiters,
    ∃ e, s.executions[w.1]? = some e ∧ e.phase = .waits ∧ e.todo.head? = some g
  kept : ∀ e ∈ s.executions, g ∈ e.held → e.phase ≠ .ended

theorem Inv.accounted (h : Inv s) (g : Nat) : s.Accounted g := by
  refine ⟨h.balance g, ⟨(h.waiting g).1, fun w hw => (h.waiting g).2 w.1 (List.mem_map_of_mem hw)⟩,
    fun e he hg hended => ?_⟩
  obtain ⟨i, hi⟩ := List.getElem?_of_mem he
  rw [((h.placed i e hi).ended hended).1] at hg
  cases hg

theorem countP_le_sum {kind : Execution → Bool} {g : Nat} {l : List Execution}
    (h : ∀ e ∈ l, kind e = true → g ∈ e.held) : l.countP kind ≤ (l.map fun e => e.held.count g).sum := by
  induction l with
  | nil => exact Nat.zero_le _
  | cons e rest ih =>
      have hrest := ih fun a ha => h a (List.mem_cons_of_mem _ ha)
      rw [List.countP_cons, List.map_cons, List.sum_cons]
      split
      · next hkind =>
          have hcount := List.count_pos_iff.mpr (h e (List.mem_cons_self ..) hkind)
          omega
      · omega

/-- What runs holds all its gates. -/
theorem Inv.held_all (h : Inv s) (he : e ∈ s.executions) (hruns : e.phase = .runs) :
    ∃ x p, s.devices e.device = some x ∧ s.plugins (e.device, e.plugin) = some p ∧
      ∀ g ∈ gatesOf e.slot p x.2 x.1, g ∈ e.held := by
  obtain ⟨i, hi⟩ := List.getElem?_of_mem he
  have hplaced := h.placed i e hi
  obtain ⟨-, x, p, hx, hp, hpath⟩ := hplaced.live (by rw [hruns]; decide)
  refine ⟨x, p, hx, hp, fun g hg => ?_⟩
  rw [← hpath, hplaced.runs hruns, List.append_nil, List.mem_reverse] at hg
  exact hg

/-- What holds one gate is no more than that has slots. -/
theorem Inv.running_le (h : Inv s) {kind : Execution → Bool} {n : Nat}
    (hgate : ∀ e ∈ s.executions, e.phase = .runs → kind e = true → ∃ g, (s.gates g).slots = n ∧
      ∀ a ∈ s.executions, a.phase = .runs → kind a = true → g ∈ a.held) : s.running kind ≤ n := by
  rcases Nat.eq_zero_or_pos (s.running kind) with hzero | hpos
  · omega
  · obtain ⟨e, he, hkind⟩ := List.countP_pos_iff.mp hpos
    rw [Bool.and_eq_true, decide_eq_true_eq] at hkind
    obtain ⟨g, rfl, hall⟩ := hgate e he hkind.1 hkind.2
    have hle : s.running kind ≤ s.taken g := countP_le_sum fun a ha hk => by
      rw [Bool.and_eq_true, decide_eq_true_eq] at hk
      exact hall a ha hk.1 hk.2
    have hbalance := h.balance g
    omega

theorem Inv.device_running (h : Inv s) (d : String) : s.running (fun e => e.device = d) ≤ maxDeviceQueries := by
  refine h.running_le fun e he hruns hd => ?_
  obtain ⟨x, -, hx, -, -⟩ := h.held_all he hruns
  rw [of_decide_eq_true hd] at hx
  refine ⟨x.1, (h.deviceGates d x hx).2.2.1, fun a ha hr had => ?_⟩
  obtain ⟨y, p, hy, -, hheld⟩ := h.held_all ha hr
  rw [of_decide_eq_true had, hx] at hy
  cases hy
  refine hheld _ ?_
  rw [gatesOf]
  split <;> simp

theorem Inv.background_running (h : Inv s) (d : String) :
    s.running (fun e => e.device = d && !interactive e.slot) ≤ maxBackgroundDeviceQueries := by
  refine h.running_le fun e he hruns hd => ?_
  rw [Bool.and_eq_true, decide_eq_true_eq] at hd
  obtain ⟨x, -, hx, -, -⟩ := h.held_all he hruns
  rw [hd.1] at hx
  refine ⟨x.2, (h.deviceGates d x hx).2.2.2, fun a ha hr had => ?_⟩
  rw [Bool.and_eq_true, decide_eq_true_eq, Bool.not_eq_true'] at had
  obtain ⟨y, p, hy, -, hheld⟩ := h.held_all ha hr
  rw [had.1, hx] at hy
  cases hy
  refine hheld _ ?_
  rw [gatesOf, had.2]
  simp

theorem Inv.plugin_running (h : Inv s) (d plugin : String) :
    s.running (fun e => e.device = d && e.plugin = plugin) ≤ maxPluginQueries := by
  refine h.running_le fun e he hruns hd => ?_
  rw [Bool.and_eq_true, decide_eq_true_eq, decide_eq_true_eq] at hd
  obtain ⟨-, p, -, hp, -⟩ := h.held_all he hruns
  rw [hd.1, hd.2] at hp
  refine ⟨p, (h.pluginGates _ p hp).2, fun a ha hr had => ?_⟩
  rw [Bool.and_eq_true, decide_eq_true_eq, decide_eq_true_eq] at had
  obtain ⟨y, q, -, hq, hheld⟩ := h.held_all ha hr
  rw [had.1, had.2, hp] at hq
  cases hq
  refine hheld _ ?_
  rw [gatesOf]
  split <;> simp

/-- All slots are back when all executions ended. -/
theorem Inv.all_back (h : Inv s) (hall : ∀ e ∈ s.executions, e.phase = .ended) (g : Nat) :
    (s.gates g).value = (s.gates g).slots := by
  have hbalance := h.balance g
  have hnone : (s.gates g).waiters = [] := by
    refine List.eq_nil_iff_forall_not_mem.mpr fun w hw => ?_
    obtain ⟨e, he, hwaits, -⟩ := (h.waiting g).2 w.1 (List.mem_map_of_mem hw)
    cases hwaits.symm.trans (hall e (List.mem_of_getElem? he))
  have htaken : s.taken g = 0 := by
    refine List.sum_eq_zero fun n hn => ?_
    obtain ⟨e, he, rfl⟩ := List.mem_map.mp hn
    obtain ⟨i, hi⟩ := List.getElem?_of_mem he
    rw [((h.placed i e hi).ended (hall e he)).1, List.count_nil]
  rw [weight, granted, hnone, List.countP_nil] at hbalance
  omega

/-- A device has a query exactly while one of its executions did not end. -/
theorem Inv.outstanding_pos (h : Inv s) {d : String} :
    0 < s.outstanding d ↔ ∃ e ∈ s.executions, e.device = d ∧ e.phase ≠ .ended := by
  rw [outstanding, List.countP_pos_iff]
  constructor
  · rintro ⟨q, hq, hd⟩
    obtain ⟨e, he, hl, hk⟩ := h.tracked q hq
    refine ⟨e, List.mem_of_getElem? he, ?_, hl⟩
    rw [← of_decide_eq_true hd, ← hk]
  · rintro ⟨e, he, hd, hl⟩
    obtain ⟨i, hi⟩ := List.getElem?_of_mem he
    exact ⟨_, ((h.placed i e hi).live hl).1, by simpa using hd⟩

theorem cleanUp_pos {d : String} (h : 0 < s.outstanding d) : s.cleanUp d = s := by
  rw [Scheduler.cleanUp, if_pos]
  rw [outstanding, List.countP_pos_iff] at h
  exact List.any_eq_true.mpr h

theorem cleanUp_zero {d : String} (h : s.outstanding d = 0) : (s.cleanUp d).Clear d := by
  rw [Scheduler.cleanUp, if_neg (by rw [outstanding_zero.mpr h]; exact Bool.false_ne_true)]
  exact ⟨h, Function.update_self .., fun _ => if_pos rfl⟩

end Scheduler

open Scheduler

variable {s : Scheduler}

/-- No limit is exceeded in any run, and every slot is accounted for; a device whose queries ended
has none registered, and the last section of `cancel_device` then leaves nothing of it.  A query
that came meanwhile keeps the gates. -/
theorem queries_limited (h : queryMachine.Reachable s) :
    (∀ d, s.outstanding d ≤ maxDeviceOutstanding) ∧
    (∀ d, s.running (fun e => e.device = d) ≤ maxDeviceQueries) ∧
    (∀ d, s.running (fun e => e.device = d && !interactive e.slot) ≤ maxBackgroundDeviceQueries) ∧
    (∀ d plugin, s.running (fun e => e.device = d && e.plugin = plugin) ≤ maxPluginQueries) ∧
    (∀ g, s.Accounted g) ∧
    ((∀ e ∈ s.executions, e.phase = .ended) → ∀ g, (s.gates g).value = (s.gates g).slots) ∧
    (∀ d, s.outstanding d = 0 ↔ ∀ e ∈ s.executions, e.device = d → e.phase = .ended) ∧
    (∀ d, s.outstanding d = 0 → (s.cancelDevice d).Clear d) ∧
    ∀ c d tasks t, s.cancels[c]? = some (d, tasks) → queryMachine.next s (.gathered c) = some t →
      (s.outstanding d = 0 → t.Clear d) ∧
      (0 < s.outstanding d → t = { s with cancels := s.cancels.eraseIdx c }) := by
  have hinv := inv_reach h
  refine ⟨hinv.admitted, hinv.device_running, hinv.background_running, hinv.plugin_running, hinv.accounted,
    hinv.all_back, fun d => ?_, fun d hd => ?_, fun c d tasks t hc hn => ?_⟩
  · rw [← Nat.le_zero, ← not_lt, hinv.outstanding_pos]
    simp
  · have htasks : (s.queries.filter fun e => e.1.1 = d) = [] := by
      rw [outstanding, List.countP_eq_zero] at hd
      exact List.filter_eq_nil_iff.mpr hd
    rw [Scheduler.cancelDevice, htasks]
    exact cleanUp_zero hd
  · obtain ⟨call, hcall, hn⟩ := Option.bind_eq_some_iff.mp hn
    cases Option.some.inj (hc.symm.trans hcall)
    split at hn
    · cases Option.some.inj hn
      exact ⟨fun hd => cleanUp_zero (s := { s with cancels := s.cancels.eraseIdx c }) hd,
        fun hd => cleanUp_pos (s := { s with cancels := s.cancels.eraseIdx c }) hd⟩
    · cases hn

/-- Two background queries of a plugin run, a third waits and is cancelled, and the first ends. -/
def exampleQueries : List Action :=
  [.execute "d" "1" "p" "card", .execute "d" "2" "p" "card", .execute "d" "3" "p" "card", .cancel 2,
    .provided 0, .resume 2, .cancelDevice "d", .provided 1, .gathered 0]

theorem queries_limited_example :
    let s := (queryMachine.run {} exampleQueries).getD {}
    s.outstanding "d" = 0 ∧ (s.gates 2).value = 2 ∧ s.devices "d" = none ∧
      s.running (fun e => e.device = "d") ≤ maxDeviceQueries := by
  intro s
  have hreach : queryMachine.Reachable s := Machine.reach_getD rfl (fun _ _ _ => trivial) (by decide)
  obtain ⟨_, hdevice, _, _, _, hback, hended, _⟩ := queries_limited hreach
  have hall : ∀ e ∈ s.executions, e.phase = .ended := by decide
  exact ⟨(hended "d").mpr fun e he _ => hall e he, (hback hall 2).trans (by decide), by decide, hdevice "d"⟩

/-- A query comes while the call waits for the one that it has cancelled. -/
def lateQuery : List Action :=
  [.execute "d" "1" "p" "drawer.panel", .cancelDevice "d", .execute "d" "2" "p" "drawer.panel", .provided 0,
    .gathered 0, .provided 1]

/-- The device was cancelled, all its queries ended, and its gates stay. -/
theorem lateQuery_keeps_gates :
    let s := (queryMachine.run {} lateQuery).getD {}
    queryMachine.Reachable s ∧ .cancelDevice "d" ∈ lateQuery ∧ s.cancels = [] ∧
      (∀ e ∈ s.executions, e.phase = .ended) ∧ s.outstanding "d" = 0 ∧ s.devices "d" = some (0, 1) ∧
      s.plugins ("d", "p") = some 2 := by
  intro s
  exact ⟨Machine.reach_getD rfl (fun _ _ _ => trivial) (by decide), List.mem_cons_of_mem _ (List.mem_cons_self ..),
    by decide⟩

end MonoAgent.PluginUi
