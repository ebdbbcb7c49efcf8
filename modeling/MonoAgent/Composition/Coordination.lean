import MonoAgent.Lib.Machine
import MonoAgent.Composition.Groups
import MonoAgent.Composition.Slots

/-!
# Coordination

`Tasks` admits Tasks by key, and coordinates the uses of a key.  Its methods are
called by any number of contexts, in any order.  A step is what runs between two
waits.

What a use may rely on is a property of all runs: at most one Task of a key that is
not done, at most one exclusive section of a key, sections that are entered in the
order of the requests that may be granted, and no request that may be granted and
was not woken.
-/

namespace MonoAgent.Composition

open MonoAgent.Lib

variable {K : Type}

/-! ## The machine -/

structure Tasks (K : Type) where
  slots : Slots K := {}
  groups : Groups K := {}
  closed : Bool := false
deriving DecidableEq

inductive TaskAction (K : Type) where
  | admitTask (key : K) (callback : Callback)
  /-- The Task that an admission rejects is done. -/
  | drained (admission : Nat)
  /-- A Task goes on to its next wait. -/
  | next (task : Nat)
  /-- The done callback of a Task. -/
  | finish (task : Nat)
  | cancelTask (task : Nat)
  | activity (key : K)
  | waitIdle (key : K)
  | exclusive (key : K) (idle : Bool)
  /-- A use that was woken goes on. -/
  | resume (use : Nat)
  /-- A use is cancelled where it waits. -/
  | cancel (use : Nat)
  /-- The body of a use ends. -/
  | leave (use : Nat)
  /-- `close`, up to its wait. -/
  | close

namespace Tasks

variable [DecidableEq K] (s : Tasks K)

/-- What is refused once the service is closed. -/
def opened (s' : Tasks K) : Option (Tasks K) := if s.closed then none else some s'

/-- `close`, up to its wait for the Tasks that it has cancelled. -/
def close : Tasks K :=
  { slots := s.slots.tasks.foldl (fun slots e => slots.cancel e.2) s.slots
    groups := s.groups.notifyAll
    closed := true }

end Tasks

def tasksMachine [DecidableEq K] : Machine (Tasks K) (TaskAction K) where
  start s := s = {}
  next s
    | .admitTask key callback => s.opened { s with slots := s.slots.admitTask key callback }
    | .drained admission => (s.slots.drained admission).map fun slots => { s with slots }
    | .next task => (s.slots.next task).map fun slots => { s with slots }
    | .finish task => (s.slots.finish task).map fun slots => { s with slots }
    | .cancelTask task => some { s with slots := s.slots.cancel task }
    | .activity key => s.opened { s with groups := s.groups.activity key }
    | .waitIdle key => s.opened { s with groups := s.groups.waitIdle key }
    | .exclusive key idle => s.opened { s with groups := s.groups.exclusive key idle }
    | .resume use => (s.groups.resume s.closed use).map fun groups => { s with groups }
    | .cancel use => (s.groups.cancel use).map fun groups => { s with groups }
    | .leave use => (s.groups.leave use).map fun groups => { s with groups }
    | .close => some s.close

/-! ## The invariant -/

variable [DecidableEq K] {s s' : Tasks K}

structure TasksInv (s : Tasks K) : Prop where
  slots : SlotsInv s.slots
  groups : GroupsInv s.groups

theorem tasksInv_next {a : TaskAction K} (h : TasksInv s) (hn : tasksMachine.next s a = some s') :
    TasksInv s' := by
  have hopened {x : Tasks K} (ho : s.opened x = some s') (hx : TasksInv x) : TasksInv s' := by
    rw [Tasks.opened] at ho
    split at ho
    · cases ho
    · exact Option.some.inj ho ▸ hx
  cases a with
  | admitTask key callback => exact hopened hn ⟨h.slots.admitTask key callback, h.groups⟩
  | drained admission =>
      obtain ⟨slots, hs, rfl⟩ := Option.map_eq_some_iff.mp hn
      exact ⟨h.slots.drained hs, h.groups⟩
  | next task =>
      obtain ⟨slots, hs, rfl⟩ := Option.map_eq_some_iff.mp hn
      exact ⟨h.slots.next hs, h.groups⟩
  | finish task =>
      obtain ⟨slots, hs, rfl⟩ := Option.map_eq_some_iff.mp hn
      exact ⟨h.slots.finish hs, h.groups⟩
  | cancelTask task => exact Option.some.inj hn ▸ ⟨h.slots.cancel task, h.groups⟩
  | activity key => exact hopened hn ⟨h.slots, h.groups.activity key⟩
  | waitIdle key => exact hopened hn ⟨h.slots, h.groups.waitIdle key⟩
  | exclusive key idle => exact hopened hn ⟨h.slots, h.groups.exclusive key idle⟩
  | resume use =>
      obtain ⟨groups, hg, rfl⟩ := Option.map_eq_some_iff.mp hn
      exact ⟨h.slots, h.groups.resume hg⟩
  | cancel use =>
      obtain ⟨groups, hg, rfl⟩ := Option.map_eq_some_iff.mp hn
      exact ⟨h.slots, h.groups.cancel hg⟩
  | leave use =>
      obtain ⟨groups, hg, rfl⟩ := Option.map_eq_some_iff.mp hn
      exact ⟨h.slots, h.groups.leave hg⟩
  | close =>
      refine Option.some.inj hn ▸ ⟨?_, h.groups.notifyAll⟩
      have hfold (l : Dict K Nat) (x : Slots K) (hx : SlotsInv x) :
          SlotsInv (l.foldl (fun slots e => slots.cancel e.2) x) := by
        induction l generalizing x with
        | nil => exact hx
        | cons e rest ih => exact ih _ (hx.cancel e.2)
      exact hfold _ _ h.slots

theorem tasksInv_reach (h : tasksMachine.Reachable s) : TasksInv s := by
  refine h.invariant (fun s hs => ?_) fun s a t hi _ hn => tasksInv_next hi hn
  rw [show s = {} from hs]
  exact ⟨slotsInv_start, groupsInv_start⟩

/-! ## Uses of a key -/

/-- A use of the key is there. -/
def Tasks.Uses (s : Tasks K) (c : Nat) (k : K) (u : Use) : Prop :=
  ∃ i, s.groups.holders[c]? = some ⟨k, i, u⟩

/-- The number of the uses of a key that are somewhere. -/
def Tasks.count (s : Tasks K) (k : K) (p : Use → Bool) : Nat :=
  s.groups.holders.countP fun h => h.key = k && p h.pc

/-- `_groups.get(key)`. -/
def Tasks.group? (s : Tasks K) (k : K) : Option Group :=
  (s.groups.table.get? k).bind fun i => s.groups.objects[i]?.map (·.value)

/-- A request of the key may be granted as far as the activity goes. -/
def Tasks.Eligible (s : Tasks K) (c : Nat) (k : K) : Prop :=
  ∃ idle changed, s.Uses c k (.queued idle changed) ∧ (idle = true → s.count k Use.isActive = 0)

theorem kept_of_live (g : Group) (ps : Dict Nat Use) (c : Nat) (u : Use) (h : g.Inv ps) (hc : ps.get? c = some u)
    (hu : u.live = true) : g.kept = true := h.counted.kept hc hu

/-- A use has its group in the table. -/
theorem GroupsInv.live {s : Groups K} (h : GroupsInv s) {c : Nat} {x : Holder K Use}
    (hc : s.holders[c]? = some x) (hx : x.pc.live = true) :
    ∃ g, s.objects[x.object]? = some ⟨x.key, g⟩ ∧ (x.key, x.object) ∈ s.table ∧
      g.Inv (s.parties x.object) :=
  Shared.Inv.live h kept_of_live hc hx

theorem live_of_active {u : Use} (h : u.isActive = true) : u.live = true := by
  cases u with
  | active => rfl
  | _ => cases h

theorem live_of_inside {u : Use} (h : u.isInside = true) : u.live = true := by
  cases u with
  | inside idle => rfl
  | _ => cases h

/-- The group of a use, and what it counts. -/
structure GroupOf (s : Tasks K) (k : K) (i : Nat) (g : Group) : Prop where
  entry : (k, i) ∈ s.groups.table
  object : s.groups.objects[i]? = some ⟨k, g⟩
  inv : g.Inv (s.groups.parties i)
  references : g.references = s.count k Use.live
  activity : g.activity = s.count k Use.isActive
  exclusive : g.exclusive.toInt = s.count k Use.isInside

theorem TasksInv.groupOf (h : TasksInv s) {k : K} {i : Nat} (hi : (k, i) ∈ s.groups.table) :
    ∃ g, GroupOf s k i g := by
  obtain ⟨g, hg⟩ := h.groups.own k i hi
  have hinv := h.groups.each _ _ hg
  refine ⟨g, hi, hg, hinv, ?_, ?_, ?_⟩
  · exact hinv.counted.references.trans (Shared.Inv.count h.groups kept_of_live hi fun _ hu => hu)
  · exact hinv.counted.activity.trans (Shared.Inv.count h.groups kept_of_live hi fun _ => live_of_active)
  · exact hinv.counted.exclusive.trans (Shared.Inv.count h.groups kept_of_live hi fun _ => live_of_inside)

theorem TasksInv.groupOf_use (h : TasksInv s) {c : Nat} {k : K} {u : Use} {i : Nat}
    (hc : s.groups.holders[c]? = some ⟨k, i, u⟩) (hu : u.live = true) : ∃ g, GroupOf s k i g := by
  obtain ⟨g, _, hmem, _⟩ := h.groups.live hc hu
  exact h.groupOf hmem

/-- The uses of a key that are there have one group. -/
theorem TasksInv.same (h : TasksInv s) {c d : Nat} {k : K} {u v : Use} {i j : Nat}
    (hc : s.groups.holders[c]? = some ⟨k, i, u⟩) (hu : u.live = true)
    (hd : s.groups.holders[d]? = some ⟨k, j, v⟩) (hv : v.live = true) : i = j := by
  obtain ⟨_, _, hi, _⟩ := h.groups.live hc hu
  obtain ⟨_, _, hj, _⟩ := h.groups.live hd hv
  exact h.groups.same hi hj

/-! ## What a use may rely on -/

/-- At most one exclusive section of a key. -/
theorem TasksInv.section_one (h : TasksInv s) {c d : Nat} {k : K} {idle idle' : Bool}
    (hc : s.Uses c k (.inside idle)) (hd : s.Uses d k (.inside idle')) : c = d := by
  obtain ⟨i, hi⟩ := hc
  obtain ⟨j, hj⟩ := hd
  obtain rfl := h.same hi rfl hj rfl
  obtain ⟨g, hg⟩ := h.groupOf_use hi rfl
  have hone : (s.groups.parties i).tally Use.isInside ≤ 1 := by
    rw [← hg.inv.counted.exclusive]
    cases g.exclusive <;> decide
  exact Dict.eq_of_tally hone (Shared.mem_parties.mpr ⟨_, hi, rfl, rfl⟩) rfl
    (Shared.mem_parties.mpr ⟨_, hj, rfl, rfl⟩) rfl

theorem GroupOf.get {k : K} {i : Nat} {g : Group} (h : GroupOf s k i g) (hs : TasksInv s) :
    s.group? k = some g := by
  rw [Tasks.group?, Dict.get?_of_mem hs.groups.keys h.entry, Option.bind_some, h.object, Option.map_some]

/-- The group of a key is there as long as it has references, which are its uses. -/
theorem TasksInv.entries (h : TasksInv s) (k : K) :
    (∀ g, s.group? k = some g → g.references = s.count k Use.live ∧ g.activity = s.count k Use.isActive ∧
      0 < g.references) ∧ (s.group? k = none → s.count k Use.live = 0) := by
  constructor
  · intro g hget
    obtain ⟨i, hi, hg⟩ := Option.bind_eq_some_iff.mp hget
    obtain ⟨e, he, rfl⟩ := Option.map_eq_some_iff.mp hg
    have hmem := Dict.mem_of_get? hi
    obtain ⟨g, hof⟩ := h.groupOf hmem
    obtain rfl : e = ⟨k, g⟩ := Option.some.inj (he.symm.trans hof.object)
    refine ⟨hof.references, hof.activity, ?_⟩
    have hkept : g.kept = true := (h.groups.kept i _ he).mpr hmem
    have hne : g.references ≠ 0 := by simpa [Group.kept] using hkept
    have hpos : 0 ≤ g.references := hof.references ▸ Int.natCast_nonneg _
    exact Int.lt_iff_le_and_ne.mpr ⟨hpos, hne.symm⟩
  · intro hnone
    refine List.countP_eq_zero.mpr fun x hx hlive => ?_
    obtain ⟨c, hc⟩ := List.mem_iff_getElem?.mp hx
    obtain ⟨hk, hlive⟩ : x.key = k ∧ x.pc.live = true := by simpa using hlive
    obtain ⟨g, _, hmem, _⟩ := h.groups.live hc hlive
    obtain ⟨g, hg⟩ := h.groupOf hmem
    rw [← hk, hg.get h] at hnone
    cases hnone

/-- A request of the key may be granted by its group, as it may as far as the activity goes. -/
theorem GroupOf.request {k : K} {i : Nat} {g : Group} (h : GroupOf s k i g) (hs : TasksInv s) {c : Nat} :
    s.Eligible c k ↔ ∃ idle, (c, idle) ∈ g.waiting ∧ g.grants (c, idle) = true := by
  have hactive : g.activity = 0 ↔ s.count k Use.isActive = 0 := by
    rw [h.activity]
    exact Int.natCast_eq_zero
  constructor
  · rintro ⟨idle, changed, ⟨j, hj⟩, hidle⟩
    have hij : j = i := hs.groups.same (hs.groups.live hj rfl).choose_spec.2.1 h.entry
    subst hij
    refine ⟨idle, h.inv.counted.mem_waiting.mpr ⟨changed, Shared.mem_parties.mpr ⟨_, hj, rfl, rfl⟩⟩, ?_⟩
    cases idle with
    | false => rfl
    | true => simp [Group.grants, hactive.mpr (hidle rfl)]
  · rintro ⟨idle, hmem, hgrants⟩
    obtain ⟨changed, hc⟩ := h.inv.counted.mem_waiting.mp hmem
    obtain ⟨⟨k', j, u⟩, hx, rfl, rfl⟩ := Shared.mem_parties.mp hc
    obtain ⟨v, hv⟩ := hs.groups.held _ (List.mem_of_getElem? hx)
    obtain rfl : k' = k := congrArg Entry.key (Option.some.inj (hv.symm.trans h.object))
    refine ⟨idle, changed, ⟨_, hx⟩, fun hidle => hactive.mp ?_⟩
    simpa [Group.grants, hidle] using hgrants

/-- The first request that may be granted was woken, when the section is free. -/
theorem TasksInv.request_woken (h : TasksInv s) {k : K} (hfree : s.count k Use.isInside = 0) {c : Nat}
    (hc : s.Eligible c k) : ∃ d idle changed g, s.Uses d k (.queued idle changed) ∧ s.Eligible d k ∧
      (∀ e, s.Eligible e k → d ≤ e) ∧ s.group? k = some g ∧ changed < g.changed := by
  obtain ⟨g, i, hg⟩ : ∃ g i, GroupOf s k i g := by
    obtain ⟨_, _, ⟨i, hi⟩, _⟩ := hc
    obtain ⟨g, hg⟩ := h.groupOf_use hi rfl
    exact ⟨g, i, hg⟩
  have hexclusive : g.exclusive = false := by
    have hzero := hg.exclusive
    rw [hfree] at hzero
    cases hx : g.exclusive with
    | false => rfl
    | true =>
        rw [hx] at hzero
        cases hzero
  obtain ⟨b, hb, hgb⟩ := (hg.request h).mp hc
  obtain ⟨⟨d, idle⟩, hw⟩ := Option.isSome_iff_exists.mp (List.find?_isSome.mpr ⟨_, hb, hgb⟩)
  have hd : s.Eligible d k := (hg.request h).mpr ⟨idle, List.mem_of_find?_eq_some hw, List.find?_some hw⟩
  obtain ⟨changed, hchanged⟩ := hg.inv.counted.mem_waiting.mp (List.mem_of_find?_eq_some hw)
  obtain ⟨⟨k', j, u⟩, hx, rfl, rfl⟩ := Shared.mem_parties.mp hchanged
  obtain ⟨v, hv⟩ := h.groups.held _ (List.mem_of_getElem? hx)
  obtain rfl : k' = k := congrArg Entry.key (Option.some.inj (hv.symm.trans hg.object))
  refine ⟨d, idle, changed, g, ⟨_, hx⟩, hd, fun e he => ?_, hg.get h, ?_⟩
  · obtain ⟨b', hb', hgb'⟩ := (hg.request h).mp he
    exact eligible_le (hg.inv.counted.sorted Shared.sorted_parties) hw hb' hgb'
  · exact hg.inv.woken.first hexclusive _ hw nofun changed hchanged

/-- What waits for an idle group was woken, when it is idle. -/
theorem TasksInv.idle_woken (h : TasksInv s) {k : K} (hidle : s.count k Use.isActive = 0) {c changed : Nat}
    (hc : s.Uses c k (.waitsIdle changed)) : ∃ g, s.group? k = some g ∧ changed < g.changed := by
  obtain ⟨i, hi⟩ := hc
  obtain ⟨g, hg⟩ := h.groupOf_use hi rfl
  refine ⟨g, hg.get h, hg.inv.woken.idle ?_ c changed (Shared.mem_parties.mpr ⟨_, hi, rfl, rfl⟩)⟩
  rw [hg.activity, hidle]
  rfl

/-- A use that has entered may, and has asked before the others that may. -/
theorem TasksInv.entered (h : TasksInv s) {c i : Nat} {k : K} {idle : Bool} {g : Group}
    (hobj : s.groups.objects[i]? = some ⟨k, g⟩) (hc : s.groups.holders[c]? = some ⟨k, i, .inside idle⟩)
    (hidle : idle = true → g.activity = 0) (hfirst : ∀ r ∈ g.waiting, g.grants r = true → c < r.1) :
    (idle = true → s.count k Use.isActive = 0) ∧ ∀ d, s.Eligible d k → c < d := by
  obtain ⟨g', hg⟩ := h.groupOf_use hc rfl
  obtain rfl : g = g' := congrArg Entry.value (Option.some.inj (hobj.symm.trans hg.object))
  constructor
  · intro hi
    have hzero := hg.activity.symm.trans (hidle hi)
    exact Int.natCast_eq_zero.mp hzero
  · intro d hd
    obtain ⟨b, hb, hgb⟩ := (hg.request h).mp hd
    exact hfirst _ hb hgb

/-- Where the round of a use that was woken may end in the section. -/
theorem resume_inside {g g' : Group} {closed : Bool} {c : Nat} {u : Use} {idle : Bool}
    (h : g.resume closed c u = some (g', .inside idle)) : ∃ b, g.tryEnter c b = (g', .inside idle) := by
  cases u with
  | waitsIdle changed =>
      rw [Group.resume, Group.tryIdle] at h
      split at h
      · split at h
        · cases h
        · split at h
          · cases h
          · cases h
      · cases h
  | queued b changed =>
      rw [Group.resume] at h
      split at h
      · split at h
        · cases h
        · exact ⟨b, Option.some.inj h⟩
      · cases h
  | active => cases h
  | inside b => cases h
  | left => cases h

/-- A use that enters may, and asked before the others that may. -/
theorem TasksInv.enters (h : TasksInv s) {a : TaskAction K} (hn : tasksMachine.next s a = some s') {c : Nat}
    {k : K} {idle : Bool} (hold : ¬ s.Uses c k (.inside idle)) (hnew : s'.Uses c k (.inside idle)) :
    (idle = true → s'.count k Use.isActive = 0) ∧ ∀ d, s'.Eligible d k → c < d := by
  have hs' := tasksInv_next h hn
  obtain ⟨i, hi⟩ := hnew
  have hkept (hg : s'.groups.holders = s.groups.holders) : False := hold ⟨i, hg ▸ hi⟩
  have hopened {x : Tasks K} (ho : s.opened x = some s') : x = s' := by
    rw [Tasks.opened] at ho
    split at ho
    · cases ho
    · exact Option.some.inj ho
  cases a with
  | admitTask key callback =>
      cases hopened hn
      exact (hkept rfl).elim
  | drained admission =>
      obtain ⟨slots, _, rfl⟩ := Option.map_eq_some_iff.mp hn
      exact (hkept rfl).elim
  | next task =>
      obtain ⟨slots, _, rfl⟩ := Option.map_eq_some_iff.mp hn
      exact (hkept rfl).elim
  | finish task =>
      obtain ⟨slots, _, rfl⟩ := Option.map_eq_some_iff.mp hn
      exact (hkept rfl).elim
  | cancelTask task =>
      cases hn
      exact (hkept rfl).elim
  | close =>
      cases hn
      exact (hkept rfl).elim
  | activity key =>
      cases hopened hn
      obtain hc | ⟨_, _, v, _, _, _, _, hpc, _⟩ := Shared.Inv.entered h.groups group_new hi
      · exact (hold ⟨i, hc⟩).elim
      · cases hpc
  | waitIdle key =>
      cases hopened hn
      obtain hc | ⟨_, _, v, _, _, _, _, hpc, _⟩ := Shared.Inv.entered h.groups group_new hi
      · exact (hold ⟨i, hc⟩).elim
      · rw [Group.tryIdle] at hpc
        split at hpc
        · cases hpc
        · cases hpc
  | exclusive key b =>
      cases hopened hn
      obtain hc | ⟨hlen, hk, v, ps, hv, hsorted, hlt, hpc, hobj⟩ := Shared.Inv.entered h.groups group_new hi
      · exact (hold ⟨i, hc⟩).elim
      · subst hk hlen
        have hrequests := hv.counted.sorted_concat hsorted hlt b
        have henter : (Group.tryEnter { v.acquire with waiting := v.waiting ++ [(_, b)] } _ b) =
            ((v.request _ b).1, .inside idle) := Prod.ext rfl hpc.symm
        obtain ⟨rfl, hidle, hfirst⟩ := tryEnter_inside hrequests henter
        exact hs'.entered hobj hi hidle hfirst
  | resume use =>
      obtain ⟨groups, hg, rfl⟩ := Option.map_eq_some_iff.mp hn
      obtain hc | ⟨rfl, e, pc, v, hc, he, hf, hobj⟩ := Shared.acted hg hi
      · exact (hold ⟨i, hc⟩).elim
      · obtain ⟨b, henter⟩ := resume_inside hf
        have hinv := h.groups.each _ _ he
        obtain ⟨rfl, hidle, hfirst⟩ := tryEnter_inside (hinv.counted.sorted Shared.sorted_parties) henter
        obtain ⟨w, hw⟩ := h.groups.held _ (List.mem_of_getElem? hc)
        rw [he] at hw
        cases hw
        exact hs'.entered hobj hi hidle hfirst
  | cancel use =>
      obtain ⟨groups, hg, rfl⟩ := Option.map_eq_some_iff.mp hn
      obtain hc | ⟨_, e, pc, v, _, _, hf, _⟩ := Shared.acted hg hi
      · exact (hold ⟨i, hc⟩).elim
      · cases pc <;> cases hf
  | leave use =>
      obtain ⟨groups, hg, rfl⟩ := Option.map_eq_some_iff.mp hn
      obtain hc | ⟨_, e, pc, v, _, _, hf, _⟩ := Shared.acted hg hi
      · exact (hold ⟨i, hc⟩).elim
      · cases pc <;> cases hf

/-- What the contexts that share a `Tasks` may rely on, in every run.

At most one Task of a key is not done, and a callback that failed leaves its Task
done, with its operation never called.  At most one use of a key is in the exclusive
section, and a use enters it when no part of the key is active, if it asked for that,
and before the others that may enter and asked later.  While the section is free, the
first of those that may enter was woken, and so was what waits for a key that is
idle.  The group of a key is there exactly while it has references. -/
theorem tasks_coordinate (h : tasksMachine.Reachable s) :
    (∀ (i j : Nat) (t t' : Task K), s.slots.objects[i]? = some t → s.slots.objects[j]? = some t' → t.key = t'.key →
      t.place ≠ .done → t'.place ≠ .done → i = j) ∧
    (∀ a ∈ s.slots.admissions, a.outcome = .raised → ∀ i, a.started = some i →
      ∃ t : Task K, s.slots.objects[i]? = some t ∧ t.key = a.key ∧ t.place = .done ∧ t.ran = false) ∧
    (∀ c d k idle idle', s.Uses c k (.inside idle) → s.Uses d k (.inside idle') → c = d) ∧
    (∀ a s', tasksMachine.next s a = some s' → ∀ c k idle, ¬ s.Uses c k (.inside idle) →
      s'.Uses c k (.inside idle) →
      (idle = true → s'.count k Use.isActive = 0) ∧ ∀ d, s'.Eligible d k → c < d) ∧
    (∀ k c, s.count k Use.isInside = 0 → s.Eligible c k → ∃ d idle changed g,
      s.Uses d k (.queued idle changed) ∧ s.Eligible d k ∧ (∀ e, s.Eligible e k → d ≤ e) ∧
      s.group? k = some g ∧ changed < g.changed) ∧
    (∀ k c changed, s.count k Use.isActive = 0 → s.Uses c k (.waitsIdle changed) →
      ∃ g, s.group? k = some g ∧ changed < g.changed) ∧
    (∀ k, (∀ g, s.group? k = some g → g.references = s.count k Use.live ∧
      g.activity = s.count k Use.isActive ∧ 0 < g.references) ∧
      (s.group? k = none → s.count k Use.live = 0)) := by
  have hinv := tasksInv_reach h
  refine ⟨fun i j t t' hi hj hk ht ht' => hinv.slots.one hi hj hk ht ht', fun a ha hout i hi => ?_,
    fun c d k idle idle' => hinv.section_one, fun a s' hn c k idle hold hnew => hinv.enters hn hold hnew,
    fun k c hfree => hinv.request_woken hfree, fun k c changed hidle => hinv.idle_woken hidle, hinv.entries⟩
  exact hinv.slots.raised ha hout hi

/-- Two uses ask for an idle section while a part is active, which then ends, and a
callback fails after it has started a Task. -/
def exampleTasks : List (TaskAction String) :=
  [.activity "chat", .exclusive "chat" true, .exclusive "chat" true, .leave 0,
    .admitTask "chat" (.start .raises .raises), .next 0, .next 0, .drained 0]

theorem tasks_coordinate_example :
    let s := (tasksMachine.run ({} : Tasks String) exampleTasks).getD {}
    (∃ t : Task String, s.slots.objects[0]? = some t ∧ t.place = .done ∧ t.ran = false) ∧
      ∃ d idle changed g, s.Uses d "chat" (.queued idle changed) ∧ s.Eligible d "chat" ∧ d ≤ 1 ∧
        s.group? "chat" = some g ∧ changed < g.changed := by
  intro s
  have hreach : tasksMachine.Reachable s := Machine.reach_getD rfl (fun _ _ _ => trivial) (by decide)
  have hfirst : s.Eligible 1 "chat" := ⟨true, 1, ⟨0, by decide⟩, by decide⟩
  obtain ⟨_, hraised, _, _, hwoken, _⟩ := tasks_coordinate hreach
  obtain ⟨t, ht, _, hdone, hran⟩ := hraised ⟨"chat", some 0, .raised⟩ (by decide) rfl 0 rfl
  obtain ⟨d, idle, changed, g, hd, hel, hle, hg, hlt⟩ := hwoken "chat" 1 (by decide) hfirst
  exact ⟨⟨t, ht, hdone, hran⟩, d, idle, changed, g, hd, hel, hle 1 hfirst, hg, hlt⟩

/-- A use asks while the section is free and the first of those that wait was woken but has not yet run. -/
def askedLate : List (TaskAction String) :=
  [.exclusive "chat" false, .exclusive "chat" false, .leave 0, .exclusive "chat" false]

/-- Only the first of those that may enter was woken: the one that asked last sleeps on the event that
is current. -/
theorem later_not_woken : ¬ ∀ s : Tasks String, tasksMachine.Reachable s → ∀ k c,
    s.count k Use.isInside = 0 → s.Eligible c k →
    ∃ idle changed g, s.Uses c k (.queued idle changed) ∧ s.group? k = some g ∧ changed < g.changed := by
  intro hclaim
  let s := (tasksMachine.run ({} : Tasks String) askedLate).getD {}
  have hreach : tasksMachine.Reachable s := Machine.reach_getD rfl (fun _ _ _ => trivial) (by decide)
  have hholder : s.groups.holders[2]? = some ⟨"chat", 0, .queued false 1⟩ := by decide
  obtain ⟨idle, changed, g, ⟨i, hqueued⟩, hg, hlt⟩ :=
    hclaim s hreach "chat" 2 (by decide) ⟨false, 1, ⟨0, hholder⟩, by decide⟩
  rw [hholder] at hqueued
  cases hqueued
  have hcurrent : (s.group? "chat").map (·.changed) = some 1 := by decide
  rw [hg] at hcurrent
  have hone : g.changed = 1 := Option.some.inj hcurrent
  omega

end MonoAgent.Composition
