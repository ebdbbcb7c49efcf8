import MonoAgent.PluginUi.Gates

/-!
# What the scheduler keeps

What a gate lacks of its slots is held by executions or was handed to one that waits (`balance`).
An execution that did not end is registered, so the gates of its device and of its plugin are the
ones that have their names (`placed`).  One lemma says when an execution may change its place
(`Inv.move`), one what its end keeps (`Inv.finish`); the steps are made of these two and of the
gates that are made.
-/

namespace MonoAgent.PluginUi

open MonoAgent.Lib Semaphore

/-! ## The invariant -/

namespace Scheduler

/-- The slots of a gate that executions hold. -/
def taken (s : Scheduler) (g : Nat) : Nat := (s.executions.map fun e => e.held.count g).sum

/-- Where an execution is. -/
structure Placed (s : Scheduler) (i : Nat) (e : Execution) : Prop where
  ended : e.phase = .ended → e.held = [] ∧ e.todo = []
  live : e.phase ≠ .ended → ((e.device, e.requestId), i) ∈ s.queries ∧
    ∃ x p, s.devices e.device = some x ∧ s.plugins (e.device, e.plugin) = some p ∧
      e.held.reverse ++ e.todo = gatesOf e.slot p x.2 x.1
  runs : e.phase = .runs → e.todo = []

structure Inv (s : Scheduler) : Prop where
  balance : ∀ g, (s.gates g).weight + s.taken g = (s.gates g).slots
  unused : ∀ g, s.made ≤ g → s.gates g = .make 0
  waiting : ∀ g, (s.gates g).ids.Nodup ∧ ∀ i ∈ (s.gates g).ids,
    ∃ e, s.executions[i]? = some e ∧ e.phase = .waits ∧ e.todo.head? = some g
  placed : ∀ i e, s.executions[i]? = some e → s.Placed i e
  keys : s.queries.keys.Nodup
  tracked : ∀ q ∈ s.queries, ∃ e, s.executions[q.2]? = some e ∧ e.phase ≠ .ended ∧
    (e.device, e.requestId) = q.1
  deviceGates : ∀ d x, s.devices d = some x → x.1 < s.made ∧ x.2 < s.made ∧
    (s.gates x.1).slots = maxDeviceQueries ∧ (s.gates x.2).slots = maxBackgroundDeviceQueries
  pluginGates : ∀ k p, s.plugins k = some p → p < s.made ∧ (s.gates p).slots = maxPluginQueries
  admitted : ∀ d, s.outstanding d ≤ maxDeviceOutstanding

theorem inv_start : Inv {} where
  balance _ := rfl
  unused _ _ := rfl
  waiting _ := ⟨List.nodup_nil, by simp [Semaphore.make, ids]⟩
  placed _ _ h := by cases h
  keys := List.nodup_nil
  tracked := by simp
  deviceGates _ _ h := by cases h
  pluginGates _ _ h := by cases h
  admitted _ := Nat.zero_le _

variable {s t : Scheduler} {i : Nat} {e e' : Execution} {G : Nat → Semaphore}

theorem Placed.same (h : s.Placed i e) (hq : t.queries = s.queries) (hd : t.devices = s.devices)
    (hp : t.plugins = s.plugins) : t.Placed i e := by
  refine ⟨h.ended, fun hl => ?_, h.runs⟩
  rw [hq, hd, hp]
  exact h.live hl

theorem mem_gatesOf {slot : String} {p b t g : Nat} (h : g ∈ gatesOf slot p b t) : g = p ∨ g = b ∨ g = t := by
  rw [gatesOf] at h
  split at h
  · simp only [List.mem_cons, List.not_mem_nil, or_false] at h
    exact h.imp_right Or.inr
  · simpa using h

/-- The gates of an execution were made. -/
theorem Inv.gate_made (h : Inv s) (he : s.executions[i]? = some e) (hlive : e.phase ≠ .ended) {g : Nat}
    (hg : g ∈ e.held ∨ g ∈ e.todo) : g < s.made := by
  obtain ⟨-, x, p, hx, hp, hpath⟩ := (h.placed i e he).live hlive
  have hmem : g ∈ gatesOf e.slot p x.2 x.1 := by
    rw [← hpath, List.mem_append, List.mem_reverse]
    exact hg
  obtain ⟨hx1, hx2, -⟩ := h.deviceGates _ _ hx
  rcases mem_gatesOf hmem with rfl | rfl | rfl
  · exact (h.pluginGates _ _ hp).1
  · exact hx2
  · exact hx1

/-- One term of the sum changes. -/
theorem sum_set {l : List Execution} (f : Execution → Nat) (he : l[i]? = some e) (e' : Execution) :
    ((l.set i e').map f).sum + f e = (l.map f).sum + f e' := by
  induction l generalizing i with
  | nil => cases he
  | cons a rest ih =>
      cases i with
      | zero =>
          cases Option.some.inj he
          simp only [List.set_cons_zero, List.map_cons, List.sum_cons]
          omega
      | succ i =>
          have h := ih (i := i) he
          simp only [List.set_cons_succ, List.map_cons, List.sum_cons]
          omega

/-- The gates of an execution change, and its place. -/
theorem Inv.move (h : Inv s) (he : s.executions[i]? = some e) (hlive : e.phase ≠ .ended)
    (hdevice : e'.device = e.device) (hrequest : e'.requestId = e.requestId) (hplugin : e'.plugin = e.plugin)
    (hslot : e'.slot = e.slot) (hphase : e'.phase ≠ .ended)
    (hpath : e'.held.reverse ++ e'.todo = e.held.reverse ++ e.todo) (hruns : e'.phase = .runs → e'.todo = [])
    (hslots : ∀ g, (G g).slots = (s.gates g).slots)
    (hbalance : ∀ g, (G g).weight + e'.held.count g = (s.gates g).weight + e.held.count g)
    (hunused : ∀ g, s.made ≤ g → G g = s.gates g)
    (hwait : ∀ g, (G g).ids.Nodup ∧ ∀ j ∈ (G g).ids, (j ≠ i ∧ j ∈ (s.gates g).ids) ∨
      (j = i ∧ e'.phase = .waits ∧ e'.todo.head? = some g)) :
    Inv { s with gates := G, executions := s.executions.set i e' } := by
  have hlt : i < s.executions.length := (List.getElem?_eq_some_iff.mp he).1
  have hat : (s.executions.set i e')[i]? = some e' := List.getElem?_set_self hlt
  have hother {j : Nat} (hj : j ≠ i) : (s.executions.set i e')[j]? = s.executions[j]? :=
    List.getElem?_set_ne (Ne.symm hj)
  refine ⟨fun g => ?_, fun g hg => (hunused g hg).trans (h.unused g hg), fun g => ⟨(hwait g).1, fun j hj => ?_⟩,
    fun j a ha => ?_, h.keys, fun q hq => ?_, fun d x hx => ?_, fun k p hp => ?_, h.admitted⟩
  · have hsum := sum_set (fun a => a.held.count g) he e'
    have hold := h.balance g
    have hnew := hbalance g
    rw [hslots g]
    simp only [taken] at hold ⊢
    omega
  · rcases (hwait g).2 j hj with ⟨hne, hmem⟩ | ⟨rfl, hwaits, hhead⟩
    · obtain ⟨a, ha, hw⟩ := (h.waiting g).2 j hmem
      exact ⟨a, (hother hne).trans ha, hw⟩
    · exact ⟨e', hat, hwaits, hhead⟩
  · by_cases hj : j = i
    · subst hj
      cases Option.some.inj (hat.symm.trans ha)
      obtain ⟨hq, x, p, hx, hp, hold⟩ := (h.placed j e he).live hlive
      refine ⟨fun hended => absurd hended hphase, fun _ => ⟨?_, x, p, ?_, ?_, ?_⟩, hruns⟩
      · rw [hdevice, hrequest]
        exact hq
      · rw [hdevice]
        exact hx
      · rw [hdevice, hplugin]
        exact hp
      · rw [hpath, hslot, hold]
    · exact (h.placed j a ((hother hj).symm.trans ha)).same rfl rfl rfl
  · obtain ⟨a, ha, hl, hk⟩ := h.tracked q hq
    by_cases hj : q.2 = i
    · rw [hj] at ha
      cases Option.some.inj (he.symm.trans ha)
      exact ⟨e', by rw [hj]; exact hat, hphase, by rw [hdevice, hrequest]; exact hk⟩
    · exact ⟨a, (hother hj).trans ha, hl, hk⟩
  · rw [hslots, hslots]
    exact h.deviceGates d x hx
  · rw [hslots]
    exact h.pluginGates k p hp

/-- An execution ends. -/
theorem Inv.finish (h : Inv s) (he : s.executions[i]? = some e) (hlive : e.phase ≠ .ended)
    (hslots : ∀ g, (G g).slots = (s.gates g).slots) (hbalance : ∀ g, (G g).weight = (s.gates g).weight)
    (hunused : ∀ g, s.made ≤ g → G g = s.gates g)
    (hwait : ∀ g, (G g).ids.Nodup ∧ ∀ j ∈ (G g).ids, j ≠ i ∧ j ∈ (s.gates g).ids) :
    Inv (s.finish i e G) := by
  have hlt : i < s.executions.length := (List.getElem?_eq_some_iff.mp he).1
  have hat (e') : (s.executions.set i e')[i]? = some e' := List.getElem?_set_self hlt
  have hother {j : Nat} (hj : j ≠ i) (e') : (s.executions.set i e')[j]? = s.executions[j]? :=
    List.getElem?_set_ne (Ne.symm hj)
  have hslots' (g : Nat) : (leave G e.held g).slots = (s.gates g).slots :=
    (leave_spec G e.held g).1.slots.trans (hslots g)
  have hmine := ((h.placed i e he).live hlive).1
  refine ⟨fun g => ?_, fun g hg => ?_, fun g => ?_, fun j a ha => ?_, ?_, fun q hq => ?_, fun d x hx => ?_,
    fun k p hp => ?_, fun d => ?_⟩
  · have hsum := sum_set (fun a => a.held.count g) he { e with held := [], todo := [], phase := .ended }
    have hold := h.balance g
    have hleft := (leave_spec G e.held g).1.weight
    rw [hbalance g] at hleft
    simp only [List.count_nil, Nat.add_zero] at hsum
    simp only [Scheduler.finish, taken] at hold ⊢
    rw [hslots' g]
    omega
  · have hg : s.made ≤ g := hg
    have hnot : g ∉ e.held := fun hmem => absurd (h.gate_made he hlive (Or.inl hmem)) (by omega)
    exact ((leave_spec G e.held g).2 hnot).trans ((hunused g hg).trans (h.unused g hg))
  · have hids : (leave G e.held g).ids = (G g).ids := (leave_spec G e.held g).1.ids
    simp only [Scheduler.finish]
    rw [hids]
    refine ⟨(hwait g).1, fun j hj => ?_⟩
    obtain ⟨hne, hmem⟩ := (hwait g).2 j hj
    obtain ⟨a, ha, hw⟩ := (h.waiting g).2 j hmem
    exact ⟨a, (hother hne _).trans ha, hw⟩
  · by_cases hj : j = i
    · subst hj
      cases Option.some.inj ((hat _).symm.trans ha)
      exact ⟨fun _ => ⟨rfl, rfl⟩, fun hne => absurd rfl hne, fun hruns => by cases hruns⟩
    · have hold := (hother hj _).symm.trans ha
      have hplaced := h.placed j a hold
      refine ⟨hplaced.ended, fun hl => ?_, hplaced.runs⟩
      obtain ⟨hq, hgates⟩ := hplaced.live hl
      refine ⟨Dict.mem_pop.mpr ⟨hq, fun hkey => hj ?_⟩, hgates⟩
      have hkey : (a.device, a.requestId) = (e.device, e.requestId) := hkey
      rw [hkey] at hq
      exact Option.some.inj ((Dict.get?_of_mem h.keys hq).symm.trans (Dict.get?_of_mem h.keys hmine))
  · exact Dict.nodup_keys_filter h.keys _
  · obtain ⟨hq, hkey⟩ := Dict.mem_pop.mp hq
    obtain ⟨a, ha, hl, hk⟩ := h.tracked q hq
    refine ⟨a, (hother (fun hj => hkey ?_) _).trans ha, hl, hk⟩
    rw [hj, he] at ha
    cases Option.some.inj ha
    exact hk.symm
  · obtain ⟨hx1, hx2, hs1, hs2⟩ := h.deviceGates d x hx
    exact ⟨hx1, hx2, (hslots' _).trans hs1, (hslots' _).trans hs2⟩
  · obtain ⟨hp1, hs⟩ := h.pluginGates k p hp
    exact ⟨hp1, (hslots' _).trans hs⟩
  · exact (List.Sublist.countP_le List.filter_sublist).trans (h.admitted d)

/-! ## The steps -/

theorem Inv.cancels (h : Inv s) (cancels : List (String × List Nat)) : Inv { s with cancels } :=
  ⟨h.balance, h.unused, h.waiting, fun i e he => (h.placed i e he).same rfl rfl rfl, h.keys, h.tracked, h.deviceGates, h.pluginGates, h.admitted⟩

/-- A gate is made. -/
theorem Inv.make (h : Inv s) (n : Nat) :
    Inv { s with gates := Function.update s.gates s.made (.make n), made := s.made + 1 } := by
  have hother {g : Nat} (hg : g ≠ s.made) : Function.update s.gates s.made (.make n) g = s.gates g :=
    Function.update_of_ne hg _ _
  refine ⟨fun g => ?_, fun g hg => ?_, fun g => ?_,
    fun i e he => (h.placed i e he).same rfl rfl rfl, h.keys, h.tracked, fun d x hx => ?_, fun k p hp => ?_, h.admitted⟩
  · have hold := h.balance g
    by_cases hg : g = s.made
    · subst hg
      rw [h.unused s.made le_rfl] at hold
      have hnone : s.taken s.made = 0 := by
        simp only [Semaphore.make, weight, granted, List.countP_nil] at hold
        omega
      dsimp only
      rw [Function.update_self]
      change n + 0 + s.taken s.made = n
      omega
    · dsimp only
      rw [hother hg]
      exact hold
  · have hg : s.made + 1 ≤ g := hg
    exact (hother (by omega)).trans (h.unused g (by omega))
  · by_cases hg : g = s.made
    · subst hg
      dsimp only
      rw [Function.update_self]
      exact ⟨List.nodup_nil, by simp [Semaphore.make, ids]⟩
    · dsimp only
      rw [hother hg]
      exact h.waiting g
  · obtain ⟨hx1, hx2, hs⟩ := h.deviceGates d x hx
    dsimp only
    rw [hother (by omega), hother (by omega)]
    exact ⟨by omega, by omega, hs⟩
  · obtain ⟨hp1, hs⟩ := h.pluginGates k p hp
    dsimp only
    rw [hother (by omega)]
    exact ⟨by omega, hs⟩

/-- The gates of a device are named. -/
theorem Inv.nameDevice (h : Inv s) {d : String} {x : Nat × Nat} (hnone : s.devices d = none)
    (hx : x.1 < s.made ∧ x.2 < s.made ∧ (s.gates x.1).slots = maxDeviceQueries ∧
      (s.gates x.2).slots = maxBackgroundDeviceQueries) :
    Inv { s with devices := Function.update s.devices d (some x) } := by
  refine ⟨h.balance, h.unused, h.waiting,
    fun i e he => ⟨(h.placed i e he).ended, fun hl => ?_, (h.placed i e he).runs⟩, h.keys, h.tracked, fun d' y hy => ?_, h.pluginGates, h.admitted⟩
  · obtain ⟨hq, y, p, hy, hp⟩ := (h.placed i e he).live hl
    refine ⟨hq, y, p, ?_, hp⟩
    have hne : e.device ≠ d := by
      intro heq
      rw [heq, hnone] at hy
      cases hy
    exact (Function.update_of_ne hne _ _).trans hy
  · by_cases hd : d' = d
    · subst hd
      have hy : some x = some y := (Function.update_self d' (some x) s.devices).symm.trans hy
      cases hy
      exact hx
    · exact h.deviceGates d' y ((Function.update_of_ne hd _ _).symm.trans hy)

/-- The gate of a plugin is named. -/
theorem Inv.namePlugin (h : Inv s) {k : String × String} {p : Nat} (hnone : s.plugins k = none)
    (hp : p < s.made ∧ (s.gates p).slots = maxPluginQueries) :
    Inv { s with plugins := Function.update s.plugins k (some p) } := by
  refine ⟨h.balance, h.unused, h.waiting,
    fun i e he => ⟨(h.placed i e he).ended, fun hl => ?_, (h.placed i e he).runs⟩, h.keys, h.tracked, h.deviceGates, fun k' q hq => ?_, h.admitted⟩
  · obtain ⟨hq, y, q, hy, hq', hpath⟩ := (h.placed i e he).live hl
    refine ⟨hq, y, q, hy, ?_, hpath⟩
    have hne : (e.device, e.plugin) ≠ k := by
      intro heq
      rw [heq, hnone] at hq'
      cases hq'
    exact (Function.update_of_ne hne _ _).trans hq'
  · by_cases hk : k' = k
    · subst hk
      have hq : some p = some q := (Function.update_self k' (some p) s.plugins).symm.trans hq
      cases hq
      exact hp
    · exact h.pluginGates k' q ((Function.update_of_ne hk _ _).symm.trans hq)

theorem Inv.setDevice (h : Inv s) (device : String) : Inv (s.deviceGates device) ∧
    (∃ x, (s.deviceGates device).devices device = some x) ∧ (s.deviceGates device).queries = s.queries := by
  rw [Scheduler.deviceGates]
  split
  · next x hx => exact ⟨h, ⟨x, hx⟩, rfl⟩
  · next hnone =>
      refine ⟨((h.make maxDeviceQueries).make maxBackgroundDeviceQueries).nameDevice hnone ⟨?_, ?_, ?_, ?_⟩,
        ⟨_, Function.update_self ..⟩, rfl⟩
      · dsimp only
        omega
      · dsimp only
        omega
      · dsimp only
        rw [Function.update_of_ne (by omega), Function.update_self]
        rfl
      · dsimp only
        rw [Function.update_self]
        rfl

theorem Inv.setPlugin (h : Inv s) (device plugin : String) : Inv (s.pluginGate device plugin) ∧
    (∃ p, (s.pluginGate device plugin).plugins (device, plugin) = some p) ∧
    (s.pluginGate device plugin).queries = s.queries ∧ (s.pluginGate device plugin).devices = s.devices := by
  rw [Scheduler.pluginGate]
  split
  · next p hp => exact ⟨h, ⟨p, hp⟩, rfl, rfl⟩
  · next hnone =>
      refine ⟨(h.make maxPluginQueries).namePlugin hnone ⟨?_, ?_⟩, ⟨_, Function.update_self ..⟩, rfl, rfl⟩
      · dsimp only
        omega
      · dsimp only
        rw [Function.update_self]
        rfl

/-- A query is registered. -/
theorem Inv.register (h : Inv s) {x : Nat × Nat} {p : Nat} (hx : s.devices e.device = some x)
    (hp : s.plugins (e.device, e.plugin) = some p) (hkey : (e.device, e.requestId) ∉ s.queries.keys)
    (hroom : s.outstanding e.device < maxDeviceOutstanding) (hheld : e.held = []) (hphase : e.phase = .waits)
    (htodo : e.todo = gatesOf e.slot p x.2 x.1) :
    Inv { s with queries := s.queries.set (e.device, e.requestId) s.executions.length
                 executions := s.executions ++ [e] } := by
  have hset : s.queries.set (e.device, e.requestId) s.executions.length =
      s.queries ++ [((e.device, e.requestId), s.executions.length)] := if_neg hkey
  have hkept {j : Nat} {a : Execution} (ha : s.executions[j]? = some a) : (s.executions ++ [e])[j]? = some a := by
    rw [List.getElem?_append_left (List.getElem?_eq_some_iff.mp ha).1]
    exact ha
  have hnew : (s.executions ++ [e])[s.executions.length]? = some e := by simp
  have hlive : e.phase ≠ .ended := by
    rw [hphase]
    decide
  rw [hset]
  refine ⟨fun g => ?_, h.unused, fun g => ⟨(h.waiting g).1, fun j hj => ?_⟩, fun j a ha => ?_,
    Dict.nodup_keys_concat h.keys hkey _, fun q hq => ?_, h.deviceGates, h.pluginGates, fun d => ?_⟩
  · have hold := h.balance g
    simp only [taken, List.map_append, List.sum_append, List.map_singleton, List.sum_singleton, hheld,
      List.count_nil, Nat.add_zero] at hold ⊢
    exact hold
  · obtain ⟨a, ha, hw⟩ := (h.waiting g).2 j hj
    exact ⟨a, hkept ha, hw⟩
  · by_cases hj : j < s.executions.length
    · rw [List.getElem?_append_left hj] at ha
      have hplaced := h.placed j a ha
      exact ⟨hplaced.ended, fun hl => ⟨List.mem_append_left _ (hplaced.live hl).1, (hplaced.live hl).2⟩,
        hplaced.runs⟩
    · have hlt := (List.getElem?_eq_some_iff.mp ha).1
      rw [List.length_append, List.length_singleton] at hlt
      have hj : j = s.executions.length := by omega
      subst hj
      cases Option.some.inj (hnew.symm.trans ha)
      refine ⟨fun hended => absurd hended hlive, fun _ => ⟨List.mem_append_right _ (List.mem_singleton.mpr rfl),
        x, p, hx, hp, ?_⟩, fun hruns => ?_⟩
      · rw [hheld, htodo]
        rfl
      · rw [hphase] at hruns
        cases hruns
  · rcases List.mem_append.mp hq with hq | hq
    · obtain ⟨a, ha, hl⟩ := h.tracked q hq
      exact ⟨a, hkept ha, hl⟩
    · cases List.mem_singleton.mp hq
      exact ⟨e, hnew, hlive, rfl⟩
  · have hold := h.admitted d
    simp only [outstanding, List.countP_append, List.countP_singleton] at hold hroom ⊢
    split
    · next hd =>
        have hd : e.device = d := by simpa using hd
        subst hd
        omega
    · omega

/-- The execution goes on where nobody has its number in a gate. -/
theorem Inv.proceed (h : Inv s) (he : s.executions[i]? = some e) (hphase : e.phase = .waits)
    (hslots : ∀ g, (G g).slots = (s.gates g).slots) {held todo : List Nat}
    (hpath : held.reverse ++ todo = e.held.reverse ++ e.todo)
    (hbalance : ∀ g, (G g).weight + held.count g = (s.gates g).weight + e.held.count g)
    (hunused : ∀ g, s.made ≤ g → G g = s.gates g)
    (hwait : ∀ g, (G g).ids.Nodup ∧ ∀ j ∈ (G g).ids, j ≠ i ∧ j ∈ (s.gates g).ids) :
    Inv (s.proceed i e G held todo) := by
  have hlive : e.phase ≠ .ended := by
    rw [hphase]
    decide
  have hr := enter_spec i G held todo
  have hmade : ∀ g ∈ todo, g < s.made := by
    intro g hg
    refine h.gate_made he hlive ?_
    have hmem : g ∈ e.held.reverse ++ e.todo := by
      rw [← hpath]
      exact List.mem_append_right _ hg
    rwa [List.mem_append, List.mem_reverse] at hmem
  refine h.move he hlive rfl rfl rfl rfl ?_ (hr.path.trans hpath) ?_ (fun g => (hr.slots g).trans (hslots g))
    (fun g => (hr.balance g).trans (hbalance g)) (fun g hg => ?_) (fun g => ?_)
  · rcases hr.phase with ⟨hp, -⟩ | hp <;> exact fun heq => by cases hp.symm.trans heq
  · rcases hr.phase with ⟨-, hp⟩ | hp
    · exact fun _ => hp
    · exact fun heq => by cases hp.symm.trans heq
  · exact (hr.outside g fun hmem => absurd (hmade g hmem) (by omega)).trans (hunused g hg)
  · rcases hr.ids g with hids | ⟨hp, hhead, hids⟩
    · rw [hids]
      exact ⟨(hwait g).1, fun j hj => Or.inl ((hwait g).2 j hj)⟩
    · rw [hids]
      refine ⟨List.nodup_append.mpr ⟨(hwait g).1, List.nodup_singleton _, fun a ha b hb heq => ?_⟩,
        fun j hj => ?_⟩
      · rw [List.mem_singleton.mp hb] at heq
        exact ((hwait g).2 a ha).1 heq
      · rcases List.mem_append.mp hj with hj | hj
        · exact Or.inl ((hwait g).2 j hj)
        · exact Or.inr ⟨List.mem_singleton.mp hj, hp, hhead⟩

theorem Inv.execute (h : Inv s) (device requestId plugin slot : String) :
    Inv (s.execute device requestId plugin slot) := by
  rw [Scheduler.execute]
  split
  · exact h
  · next hnot =>
      rw [not_or, not_le] at hnot
      obtain ⟨h₁, ⟨x, hx⟩, hq₁⟩ := h.setDevice device
      obtain ⟨h₂, ⟨p, hp⟩, hq₂, hd₂⟩ := h₁.setPlugin device plugin
      have hqueries := hq₂.trans hq₁
      dsimp only
      have hdevice := (congrFun hd₂ device).trans hx
      rw [hdevice, hp]
      have hregistered := h₂.register (e := { device, requestId, plugin, slot, todo := gatesOf slot p x.2 x.1 })
        hdevice hp (by rw [hqueries]; exact hnot.1)
        (by rw [outstanding, hqueries]; exact hnot.2) rfl rfl rfl
      refine hregistered.proceed List.getElem?_concat_length rfl (fun _ => rfl) rfl (fun _ => rfl)
        (fun _ _ => rfl) fun g => ?_
      obtain ⟨hnodup, hwaits⟩ := h₂.waiting g
      refine ⟨hnodup, fun j hj => ⟨fun heq => ?_, hj⟩⟩
      obtain ⟨a, ha, -⟩ := hwaits j hj
      have hlt := (List.getElem?_eq_some_iff.mp ha).1
      omega

/-- A gate of an execution that waits changes, and the execution is no more in it. -/
theorem Inv.step_aside (h : Inv s) {g : Nat} {w : Nat × Future} (hw : w ∈ (s.gates g).waiters) :
    ∀ g', (Function.update s.gates g ((s.gates g).remove w).wake g').ids.Nodup ∧
      ∀ j ∈ (Function.update s.gates g ((s.gates g).remove w).wake g').ids,
        j ≠ w.1 ∧ j ∈ (s.gates g').ids := by
  have hmine : w.1 ∈ (s.gates g).ids := List.mem_map_of_mem hw
  obtain ⟨a, ha, -, hhead⟩ := (h.waiting g).2 w.1 hmine
  intro g'
  by_cases hg : g' = g
  · subst hg
    rw [Function.update_self, (hands_wake _).ids]
    exact remove_ids hw (h.waiting g').1
  · rw [Function.update_of_ne hg]
    refine ⟨(h.waiting g').1, fun j hj => ⟨?_, hj⟩⟩
    rintro rfl
    obtain ⟨b, hb, -, hhead'⟩ := (h.waiting g').2 w.1 hj
    cases Option.some.inj (ha.symm.trans hb)
    exact hg (Option.some.inj (hhead'.symm.trans hhead))

theorem slots_update {g : Nat} {u : Semaphore} (h : u.slots = (s.gates g).slots) (g' : Nat) :
    (Function.update s.gates g u g').slots = (s.gates g').slots := by
  by_cases hg : g' = g
  · subst hg
    rw [Function.update_self, h]
  · rw [Function.update_of_ne hg]

theorem weight_update {g : Nat} {u : Semaphore} (h : u.weight = (s.gates g).weight) (g' : Nat) :
    (Function.update s.gates g u g').weight = (s.gates g').weight := by
  by_cases hg : g' = g
  · subst hg
    rw [Function.update_self, h]
  · rw [Function.update_of_ne hg]

theorem Inv.resume (h : Inv s) (hn : s.resume i = some t) : Inv t := by
  obtain ⟨e, he, hn⟩ := Option.bind_eq_some_iff.mp hn
  split at hn
  · next g rest hphase htodo =>
      have hlive : e.phase ≠ .ended := by
        rw [hphase]
        decide
      have hmade : g < s.made := h.gate_made he hlive (Or.inr (by rw [htodo]; exact List.mem_cons_self ..))
      have hunused (u : Semaphore) (g' : Nat) (hg' : s.made ≤ g') : Function.update s.gates g u g' = s.gates g' :=
        Function.update_of_ne (by omega) _ _
      have hslots (w : Nat × Future) : ((s.gates g).remove w).wake.slots = (s.gates g).slots :=
        (hands_wake _).slots
      dsimp only at hn
      split at hn
      · next hgranted =>
          obtain ⟨-, hweight⟩ := remove_spec hgranted
          rw [if_pos rfl] at hweight
          have haside := h.step_aside hgranted
          split at hn
          · cases hn
            have hfree := hands_free ((s.gates g).remove (i, .granted))
            refine h.finish he hlive (slots_update hfree.slots)
              (weight_update (hfree.weight.trans hweight.symm)) (hunused _) fun g' => ?_
            have hold := haside g'
            by_cases hg : g' = g
            · subst hg
              rw [Function.update_self, (hands_wake _).ids] at hold
              rw [Function.update_self, hfree.ids]
              exact hold
            · rw [Function.update_of_ne hg] at hold ⊢
              exact hold
          · cases hn
            refine h.proceed he hphase (slots_update (hslots _)) ?_ (fun g' => ?_) (hunused _) haside
            · rw [htodo, List.reverse_cons, List.append_assoc]
              rfl
            · by_cases hg : g' = g
              · subst hg
                rw [Function.update_self, (hands_wake _).weight, hweight, List.count_cons_self]
                omega
              · rw [Function.update_of_ne hg, List.count_cons_of_ne (Ne.symm hg)]
      · split at hn
        · next hcancelled =>
            cases hn
            obtain ⟨-, hweight⟩ := remove_spec hcancelled
            rw [if_neg (by simp)] at hweight
            exact h.finish he hlive (slots_update (hslots _))
              (weight_update ((hands_wake _).weight.trans hweight.symm)) (hunused _) (h.step_aside hcancelled)
        · cases hn
  · cases hn

theorem Inv.cancel (h : Inv s) (i : Nat) : Inv (s.cancel i) := by
  rw [Scheduler.cancel]
  split
  · next e he =>
      split
      · next g rest hphase htodo =>
          have hlive : e.phase ≠ .ended := by
            rw [hphase]
            decide
          have hmade : g < s.made := h.gate_made he hlive (Or.inr (by rw [htodo]; exact List.mem_cons_self ..))
          have hhands (g' : Nat) : Hands (s.gates g') (Function.update s.gates g ((s.gates g).cancel i) g') 0 := by
            by_cases hg : g' = g
            · subst hg
              rw [Function.update_self]
              exact hands_cancel _ i
            · rw [Function.update_of_ne hg]
              exact .refl _
          refine h.move he hlive rfl rfl rfl rfl hlive rfl (h.placed i e he).runs (fun g' => (hhands g').slots)
            (fun g' => by rw [(hhands g').weight, Nat.add_zero]) (fun g' hg' => Function.update_of_ne (by omega) _ _)
            fun g' => ?_
          rw [(hhands g').ids]
          refine ⟨(h.waiting g').1, fun j hj => ?_⟩
          by_cases hj' : j = i
          · subst hj'
            obtain ⟨a, ha, hw, hhead⟩ := (h.waiting g').2 j hj
            cases Option.some.inj (he.symm.trans ha)
            exact Or.inr ⟨rfl, hw, hhead⟩
          · exact Or.inl ⟨hj', hj⟩
      · exact h
  · exact h

theorem outstanding_zero {device : String} :
    (s.queries.any fun e => e.1.1 = device) = false ↔ s.outstanding device = 0 := by
  rw [outstanding, List.countP_eq_zero, List.any_eq_false]

theorem Inv.cleanUp (h : Inv s) (device : String) : Inv (s.cleanUp device) := by
  rw [Scheduler.cleanUp]
  split
  · exact h
  · next hnone =>
      have hother {i : Nat} {e : Execution} (he : s.executions[i]? = some e) (hl : e.phase ≠ .ended) :
          e.device ≠ device := by
        intro heq
        have hq := ((h.placed i e he).live hl).1
        exact hnone (List.any_eq_true.mpr ⟨_, hq, by simpa using heq⟩)
      refine ⟨h.balance, h.unused, h.waiting,
        fun i e he => ⟨(h.placed i e he).ended, fun hl => ?_, (h.placed i e he).runs⟩, h.keys, h.tracked, fun d x hx => ?_, fun k p hp => ?_, h.admitted⟩
      · obtain ⟨hq, x, p, hx, hp, hpath⟩ := (h.placed i e he).live hl
        exact ⟨hq, x, p, (Function.update_of_ne (hother he hl) _ _).trans hx,
          (if_neg (hother he hl)).trans hp, hpath⟩
      · by_cases hd : d = device
        · subst hd
          cases (Function.update_self d none s.devices).symm.trans hx
        · exact h.deviceGates d x ((Function.update_of_ne hd _ _).symm.trans hx)
      · dsimp only at hp
        split at hp
        · cases hp
        · exact h.pluginGates k p hp

theorem Inv.cancelAll (h : Inv s) (tasks : List Nat) : Inv (tasks.foldl Scheduler.cancel s) := by
  induction tasks generalizing s with
  | nil => exact h
  | cons i rest ih => exact ih (h.cancel i)

theorem inv_next {a : Action} (h : Inv s) (hn : queryMachine.next s a = some t) : Inv t := by
  cases a with
  | execute device requestId plugin slot =>
      cases Option.some.inj hn
      exact h.execute device requestId plugin slot
  | resume i => exact h.resume hn
  | provided i =>
      obtain ⟨e, he, hn⟩ := Option.bind_eq_some_iff.mp hn
      split at hn
      · next hruns =>
          cases Option.some.inj hn
          have hlive : e.phase ≠ .ended := by
            rw [hruns]
            decide
          refine h.finish he hlive (fun _ => rfl) (fun _ => rfl) (fun _ _ => rfl)
            fun g => ⟨(h.waiting g).1, fun j hj => ⟨?_, hj⟩⟩
          rintro rfl
          obtain ⟨a, ha, hw, -⟩ := (h.waiting g).2 j hj
          cases Option.some.inj (he.symm.trans ha)
          cases hruns.symm.trans hw
      · cases hn
  | cancel i =>
      cases Option.some.inj hn
      exact h.cancel i
  | cancelDevice device =>
      cases Option.some.inj hn
      rw [Scheduler.cancelDevice]
      split
      · exact (h.cancelAll _).cleanUp device
      · exact (h.cancelAll _).cancels _
  | gathered c =>
      obtain ⟨call, hcall, hn⟩ := Option.bind_eq_some_iff.mp hn
      split at hn
      · cases Option.some.inj hn
        exact (h.cancels _).cleanUp call.1
      · cases hn

theorem inv_reach (h : queryMachine.Reachable s) : Inv s := by
  refine h.invariant (fun s hs => ?_) fun s a t hi _ hn => inv_next hi hn
  rw [show s = {} from hs]
  exact inv_start

end Scheduler

end MonoAgent.PluginUi
