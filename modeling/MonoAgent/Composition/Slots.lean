import MonoAgent.Lib.Dict

/-!
# Slots

`admit` runs a callback, which may start the Task of a key.  The Task waits until
the callback has returned, so what is rejected never runs.  A callback is
synchronous: it is one step, and so is every stretch of a Task between two waits.

Tasks and admissions are numbered.  The number of a Task is its handle, and the Tasks
that one callback starts wait for the event of its slot.
-/

namespace MonoAgent.Composition

open MonoAgent.Lib

variable {K : Type}

/-! ## Tasks -/

/-- Where `_run` is. -/
inductive Place where
  | created
  /-- At the event of its slot. -/
  | waiting
  | working
  /-- In the `finally`. -/
  | closing
  | done
deriving DecidableEq

structure Task (K : Type) where
  key : K
  /-- The admission whose event it waits for. -/
  slot : Nat
  /-- The event is set. -/
  admitted : Bool := false
  active : Bool := true
  cancelRequested : Bool := false
  /-- The asyncio task was cancelled. -/
  interrupted : Bool := false
  place : Place := .created
  /-- The operation was called. -/
  ran : Bool := false
  /-- The done callback has run. -/
  released : Bool := false
deriving DecidableEq

namespace Task

variable (t : Task K)

/-- `_running`. -/
def running : Bool := t.place ≠ .created

def cancel : Task K :=
  if t.cancelRequested then t
  else { t with cancelRequested := true, active := false, interrupted := t.interrupted || t.running }

/-- The next stretch of `_run`, from `place`. -/
def next : Option (Task K) :=
  match t.place with
  | .created =>
      if t.cancelRequested then some { t with place := .closing, active := false }
      else some { t with place := .waiting }
  | .waiting =>
      if t.interrupted then some { t with place := .closing, active := false }
      else if t.admitted then some { t with place := .working, ran := true }
      else none
  | .working => some { t with place := .closing, active := false }
  | .closing => some { t with place := .done }
  | .done => none

end Task

/-! ## Admissions -/

inductive Outcome where
  | returned
  /-- The callback failed, and the Task that it has started is not done. -/
  | draining
  | raised
deriving DecidableEq

structure Admission (K : Type) where
  key : K
  /-- The Task that the callback has started. -/
  started : Option Nat
  outcome : Outcome
deriving DecidableEq

/-- What a callback does with its slot and with the Tasks that it knows. -/
inductive Callback where
  | returns
  | raises
  /-- `slot.start`, and what follows it or its `TaskBusy`. -/
  | start (next busy : Callback)
  /-- `slot.current`. -/
  | current (absent : Callback) (next : Nat → Callback)
  /-- `slot.require`, and what follows it or its `StaleTask`. -/
  | require (handle : Nat) (next stale : Callback)
  /-- `Task.cancel`. -/
  | cancel (handle : Nat) (next : Callback)

/-- The part of `Tasks` that is about Tasks. -/
structure Slots (K : Type) where
  tasks : Dict K Nat := []
  objects : List (Task K) := []
  admissions : List (Admission K) := []
deriving DecidableEq

namespace Slots

variable [DecidableEq K] (s : Slots K)

/-- `TaskSlot.current`. -/
def current (k : K) : Option Nat :=
  (s.tasks.get? k).filter fun i => s.objects[i]?.any fun t => t.place ≠ .done

/-- `TaskSlot.require`. -/
def require (k : K) (handle : Nat) : Bool :=
  s.current k = some handle && s.objects[handle]?.any (·.active)

/-- `TaskSlot.start`, of the slot with this number. -/
def start (k : K) (slot : Nat) : Option (Slots K × Nat) :=
  match s.current k with
  | some _ => none
  | none => some ({ s with tasks := s.tasks.set k s.objects.length
                           objects := s.objects ++ [{ key := k, slot }] }, s.objects.length)

def cancel (i : Nat) : Slots K := { s with objects := s.objects.modify i Task.cancel }

/-- `_release`. -/
def release (k : K) (i : Nat) : Slots K :=
  if s.tasks.get? k = some i then { s with tasks := s.tasks.pop k } else s

/-- A callback leaves the slots, the Task it has started, and whether it has returned. -/
def call (k : K) (slot : Nat) : Callback → Slots K → Option Nat → Slots K × Option Nat × Bool
  | .returns, s, started => (s, started, true)
  | .raises, s, started => (s, started, false)
  | .start next busy, s, started => match s.start k slot with
      | some (s, i) => call k slot next s (some i)
      | none => call k slot busy s started
  | .current absent next, s, started => match s.current k with
      | some i => call k slot (next i) s started
      | none => call k slot absent s started
  | .require handle next stale, s, started =>
      if s.require k handle then call k slot next s started else call k slot stale s started
  | .cancel handle next, s, started => call k slot next (s.cancel handle) started

/-- `slot._admitted.set()`. -/
def grant (slot : Nat) : Slots K :=
  { s with objects := s.objects.map fun t => if t.slot = slot then { t with admitted := true } else t }

/-- `admit`, up to where it waits for the Task that it rejects. -/
def admitTask (k : K) (callback : Callback) : Slots K :=
  let slot := s.admissions.length
  match call k slot callback s none with
  | (s, started, true) =>
      let s := s.grant slot
      { s with admissions := s.admissions ++ [⟨k, started, .returned⟩] }
  | (s, none, false) => { s with admissions := s.admissions ++ [⟨k, none, .raised⟩] }
  | (s, some i, false) =>
      let s := s.cancel i
      { s with admissions := s.admissions ++ [⟨k, some i, .draining⟩] }

/-- The Task that `admit` rejects is done. -/
def drained (a : Nat) : Option (Slots K) := do
  let admission ← s.admissions[a]?
  let i ← admission.started
  let t ← s.objects[i]?
  if admission.outcome = .draining ∧ t.place = .done then
    let s := s.release admission.key i
    some { s with admissions := s.admissions.set a { admission with outcome := .raised } }
  else none

/-- A Task goes on to its next wait. -/
def next (i : Nat) : Option (Slots K) := do
  let t ← s.objects[i]?
  let t ← t.next
  return { s with objects := s.objects.set i t }

/-- The done callback of a Task. -/
def finish (i : Nat) : Option (Slots K) := do
  let t ← s.objects[i]?
  if t.place = .done ∧ t.released = false then
    return ({ s with objects := s.objects.set i { t with released := true } } : Slots K).release t.key i
  else none

end Slots

/-! ## The invariant -/

/-- A Task whose event is not set has not run. -/
def Task.Held (t : Task K) : Prop := t.admitted = false → t.ran = false ∧ t.place ≠ .working

/-- What is true of the Task that a rejected callback has started. -/
structure Rejected (a : Admission K) (slot : Nat) (t : Task K) : Prop where
  key : t.key = a.key
  slot : t.slot = slot
  admitted : t.admitted = false
  done : a.outcome = .raised → t.place = .done

variable [DecidableEq K]

structure SlotsInv (s : Slots K) : Prop where
  keys : s.tasks.keys.Nodup
  own : ∀ k i, (k, i) ∈ s.tasks → ∃ t, s.objects[i]? = some t ∧ t.key = k
  live : ∀ (i : Nat) (t : Task K), s.objects[i]? = some t → t.place ≠ .done → (t.key, i) ∈ s.tasks
  held : ∀ (i : Nat) (t : Task K), s.objects[i]? = some t → t.Held
  rejected : ∀ (n : Nat) (a : Admission K) (i : Nat), s.admissions[n]? = some a → a.started = some i → a.outcome ≠ .returned →
    ∃ t, s.objects[i]? = some t ∧ Rejected a n t

variable {s s' : Slots K} {i j : Nat} {k : K} {t t' : Task K}

omit [DecidableEq K] in
theorem slotsInv_start : SlotsInv ({} : Slots K) where
  keys := List.nodup_nil
  own _ _ hmem := nomatch hmem
  live _ _ he := nomatch he
  held _ _ he := nomatch he
  rejected _ _ _ he := nomatch he

/-- There is at most one Task of a key that is not done. -/
theorem SlotsInv.one (h : SlotsInv s) (hi : s.objects[i]? = some t) (hj : s.objects[j]? = some t')
    (hkey : t.key = t'.key) (ht : t.place ≠ .done) (ht' : t'.place ≠ .done) : i = j := by
  have hmem := h.live i t hi ht
  have hmem' := h.live j t' hj ht'
  rw [← hkey] at hmem'
  exact Option.some.inj ((Dict.get?_of_mem h.keys hmem).symm.trans (Dict.get?_of_mem h.keys hmem'))

/-! ## Writing Tasks -/

/-- The Task stays what it is for its slot, and may go on. -/
structure Onward (t t' : Task K) : Prop where
  key : t'.key = t.key
  slot : t'.slot = t.slot
  admitted : t'.admitted = t.admitted
  done : t.place = .done → t'.place = .done
  held : t.Held → t'.Held

omit [DecidableEq K] in
theorem Rejected.onward {a : Admission K} {n : Nat} (h : Rejected a n t) (ho : Onward t t') : Rejected a n t' :=
  ⟨ho.key.trans h.key, ho.slot.trans h.slot, ho.admitted.trans h.admitted, fun ha => ho.done (h.done ha)⟩

omit [DecidableEq K] in
theorem Onward.refl : Onward t t := ⟨rfl, rfl, rfl, id, id⟩

omit [DecidableEq K] in
/-- Tasks go on. -/
theorem SlotsInv.onward (h : SlotsInv s) {g : Nat → Task K → Task K}
    (hobj : ∀ i, s'.objects[i]? = s.objects[i]?.map (g i))
    (hg : ∀ i t, s.objects[i]? = some t → Onward t (g i t)) (htasks : s'.tasks = s.tasks)
    (hadm : s'.admissions = s.admissions) : SlotsInv s' := by
  have hout {i : Nat} {t : Task K} (ht : s.objects[i]? = some t) : s'.objects[i]? = some (g i t) := by
    rw [hobj, ht, Option.map_some]
  have hback {i : Nat} {t' : Task K} (ht' : s'.objects[i]? = some t') :
      ∃ t, s.objects[i]? = some t ∧ t' = g i t := by
    rw [hobj] at ht'
    obtain ⟨t, ht, heq⟩ := Option.map_eq_some_iff.mp ht'
    exact ⟨t, ht, heq.symm⟩
  refine ⟨htasks ▸ h.keys, fun k i hi => ?_, fun i t' ht' hdone => ?_, fun i t' ht' => ?_,
    fun n a i ha hi hne => ?_⟩
  · rw [htasks] at hi
    obtain ⟨t, ht, hk⟩ := h.own k i hi
    exact ⟨g i t, hout ht, (hg i t ht).key.trans hk⟩
  · obtain ⟨t, ht, rfl⟩ := hback ht'
    rw [htasks, (hg i t ht).key]
    exact h.live i t ht fun hd => hdone ((hg i t ht).done hd)
  · obtain ⟨t, ht, rfl⟩ := hback ht'
    exact (hg i t ht).held (h.held i t ht)
  · rw [hadm] at ha
    obtain ⟨t, ht, hr⟩ := h.rejected n a i ha hi hne
    exact ⟨g i t, hout ht, hr.onward (hg i t ht)⟩

omit [DecidableEq K] in
theorem SlotsInv.set (h : SlotsInv s) (hi : s.objects[i]? = some t) (ho : Onward t t') :
    SlotsInv { s with objects := s.objects.set i t' } := by
  have hlen := (List.getElem?_eq_some_iff.mp hi).1
  refine h.onward (g := fun j u => if i = j then t' else u) (fun j => ?_) (fun j u hu => ?_) rfl rfl
  · rw [List.getElem?_set]
    split
    · next hj =>
        subst hj
        simp [hlen]
    · simp
  · split
    · next hj =>
        subst hj
        rw [hi] at hu
        cases hu
        exact ho
    · exact .refl

omit [DecidableEq K] in
theorem onward_cancel : Onward t t.cancel := by
  rw [Task.cancel]
  split
  · exact .refl
  · exact ⟨rfl, rfl, rfl, id, id⟩

omit [DecidableEq K] in
theorem SlotsInv.cancel (h : SlotsInv s) (i : Nat) : SlotsInv (s.cancel i) := by
  refine h.onward (g := fun j t => if i = j then t.cancel else t) (fun j => List.getElem?_modify ..)
    (fun j t ht => ?_) rfl rfl
  split
  · exact onward_cancel
  · exact .refl

omit [DecidableEq K] in
theorem onward_next (h : t.next = some t') : Onward t t' := by
  rw [Task.next] at h
  split at h
  · next hplace =>
      split at h
      · cases h
        exact ⟨rfl, rfl, rfl, fun hd => (nomatch hplace.symm.trans hd), fun hh ha => ⟨(hh ha).1, nofun⟩⟩
      · cases h
        exact ⟨rfl, rfl, rfl, fun hd => (nomatch hplace.symm.trans hd), fun hh ha => ⟨(hh ha).1, nofun⟩⟩
  · next hplace =>
      split at h
      · cases h
        exact ⟨rfl, rfl, rfl, fun hd => (nomatch hplace.symm.trans hd), fun hh ha => ⟨(hh ha).1, nofun⟩⟩
      · split at h
        · next hadmitted =>
            cases h
            refine ⟨rfl, rfl, rfl, fun hd => (nomatch hplace.symm.trans hd), fun _ ha => ?_⟩
            exact absurd (hadmitted.symm.trans ha) nofun
        · cases h
  · next hplace =>
      cases h
      exact ⟨rfl, rfl, rfl, fun hd => (nomatch hplace.symm.trans hd), fun hh ha => ⟨(hh ha).1, nofun⟩⟩
  · next hplace =>
      cases h
      exact ⟨rfl, rfl, rfl, fun _ => rfl, fun hh ha => ⟨(hh ha).1, nofun⟩⟩
  · cases h

omit [DecidableEq K] in
theorem SlotsInv.next (h : SlotsInv s) (hn : s.next i = some s') : SlotsInv s' := by
  obtain ⟨t, ht, hn⟩ := Option.bind_eq_some_iff.mp hn
  obtain ⟨t', ht', hn⟩ := Option.bind_eq_some_iff.mp hn
  cases hn
  exact h.set ht (onward_next ht')

/-! ## The table -/

theorem SlotsInv.release (h : SlotsInv s) (hi : s.objects[i]? = some t) (hdone : t.place = .done) :
    SlotsInv (s.release k i) := by
  rw [Slots.release]
  split
  · next hget =>
      refine ⟨Dict.nodup_keys_filter h.keys _, fun k' j hj => h.own k' j (Dict.mem_pop.mp hj).1,
        fun j u hu hlive => Dict.mem_pop.mpr ⟨h.live j u hu hlive, fun heq => hlive ?_⟩, h.held, h.rejected⟩
      -- The entry of the key is the Task that is done.
      have hmem : (k, j) ∈ s.tasks := heq ▸ h.live j u hu hlive
      have hij : i = j := Option.some.inj (hget.symm.trans (Dict.get?_of_mem h.keys hmem))
      subst hij
      rw [hi] at hu
      cases hu
      exact hdone
  · exact h

theorem SlotsInv.finish (h : SlotsInv s) (hn : s.finish i = some s') : SlotsInv s' := by
  obtain ⟨t, ht, hn⟩ := Option.bind_eq_some_iff.mp hn
  split at hn
  · next hdone =>
      cases hn
      have hlen := (List.getElem?_eq_some_iff.mp ht).1
      have ho : Onward t { t with released := true } := ⟨rfl, rfl, rfl, id, id⟩
      exact (h.set ht ho).release (List.getElem?_set_self hlen) hdone.1
  · cases hn

/-- The entry of a key, when it has one, is of a Task that is done, unless it is current. -/
theorem current_none (hcur : s.current k = none) (hmem : (k, i) ∈ s.tasks) (hk : s.tasks.keys.Nodup)
    (hi : s.objects[i]? = some t) : t.place = .done := by
  have hget := Dict.get?_of_mem hk hmem
  rw [Slots.current, hget, Option.filter_some, hi] at hcur
  simpa using hcur

/-! ## Callbacks -/

/-- The Task was started in the slot, whose event is not set. -/
def Started (s : Slots K) (k : K) (slot i : Nat) : Prop :=
  ∃ t, s.objects[i]? = some t ∧ t.key = k ∧ t.slot = slot ∧ t.admitted = false

variable {slot n : Nat} {started : Option Nat}

theorem SlotsInv.start (h : SlotsInv s) (hs : s.start k slot = some (s', i)) :
    SlotsInv s' ∧ Started s' k slot i ∧ (∀ j, Started s k slot j → Started s' k slot j) ∧
      s'.admissions = s.admissions := by
  rw [Slots.start] at hs
  split at hs
  · cases hs
  · next hcur =>
      cases hs
      have hnew : (s.objects ++ [{ key := k, slot }])[s.objects.length]? = some { key := k, slot } := by simp
      have hold {j : Nat} {t : Task K} (ht : s.objects[j]? = some t) :
          (s.objects ++ [{ key := k, slot }])[j]? = some t := by
        rw [List.getElem?_append_left (List.getElem?_eq_some_iff.mp ht).1, ht]
      have hback {j : Nat} {t : Task K} (ht : (s.objects ++ [{ key := k, slot }])[j]? = some t) :
          s.objects[j]? = some t ∨ (j = s.objects.length ∧ t = { key := k, slot }) := by
        by_cases hj : j < s.objects.length
        · rw [List.getElem?_append_left hj] at ht
          exact Or.inl ht
        · have hlt := (List.getElem?_eq_some_iff.mp ht).1
          rw [List.length_append, List.length_singleton] at hlt
          obtain rfl : j = s.objects.length := by omega
          rw [hnew] at ht
          exact Or.inr ⟨rfl, (Option.some.inj ht).symm⟩
      refine ⟨⟨Dict.nodup_keys_set h.keys _ _, fun k' j hj => ?_, fun j t ht hlive => ?_, fun j t ht => ?_,
        fun m a j ha hj hne => ?_⟩, ⟨_, hnew, rfl, rfl, rfl⟩, fun j hj => ?_, rfl⟩
      · rcases Dict.mem_set.mp hj with heq | ⟨_, hj⟩
        · cases heq
          exact ⟨_, hnew, rfl⟩
        · obtain ⟨t, ht, hk⟩ := h.own k' j hj
          exact ⟨t, hold ht, hk⟩
      · rcases hback ht with ht | ⟨rfl, rfl⟩
        · have hmem := h.live j t ht hlive
          refine Dict.mem_set.mpr (Or.inr ⟨fun heq => hlive ?_, hmem⟩)
          exact current_none hcur (heq ▸ hmem) h.keys ht
        · exact Dict.mem_set.mpr (Or.inl rfl)
      · rcases hback ht with ht | ⟨_, rfl⟩
        · exact h.held j t ht
        · exact fun _ => ⟨rfl, nofun⟩
      · obtain ⟨t, ht, hr⟩ := h.rejected m a j ha hj hne
        exact ⟨t, hold ht, hr⟩
      · obtain ⟨t, ht, hrest⟩ := hj
        exact ⟨t, hold ht, hrest⟩

omit [DecidableEq K] in
theorem Started.cancel (h : Started s k slot i) (j : Nat) : Started (s.cancel j) k slot i := by
  obtain ⟨t, ht, hk, hslot, hadm⟩ := h
  have ho : Onward t (if j = i then t.cancel else t) := by
    split
    · exact onward_cancel
    · exact .refl
  refine ⟨_, (List.getElem?_modify ..).trans (by rw [ht]; rfl), ho.key.trans hk, ho.slot.trans hslot,
    ho.admitted.trans hadm⟩

/-- A callback keeps the invariant, by induction on what it does. -/
theorem SlotsInv.call (h : SlotsInv s) (hstarted : ∀ i, started = some i → Started s k slot i)
    (callback : Callback) {r : Slots K × Option Nat × Bool} (hr : s.call k slot callback started = r) :
    SlotsInv r.1 ∧ (∀ i, r.2.1 = some i → Started r.1 k slot i) ∧ r.1.admissions = s.admissions := by
  induction callback generalizing s started with
  | returns =>
      subst hr
      exact ⟨h, hstarted, rfl⟩
  | raises =>
      subst hr
      exact ⟨h, hstarted, rfl⟩
  | start next busy ihnext ihbusy =>
      rw [Slots.call] at hr
      split at hr
      · next s₁ i hs =>
          obtain ⟨h₁, hi, _, hadm⟩ := h.start hs
          have hstep := ihnext h₁ (fun j hj => Option.some.inj hj ▸ hi) hr
          exact ⟨hstep.1, hstep.2.1, hstep.2.2.trans hadm⟩
      · exact ihbusy h hstarted hr
  | current absent next ihabsent ihnext =>
      rw [Slots.call] at hr
      split at hr
      · exact ihnext _ h hstarted hr
      · exact ihabsent h hstarted hr
  | require handle next stale ihnext ihstale =>
      rw [Slots.call] at hr
      split at hr
      · exact ihnext h hstarted hr
      · exact ihstale h hstarted hr
  | cancel handle next ih =>
      rw [Slots.call] at hr
      have hstep := ih (h.cancel handle) (fun i hi => (hstarted i hi).cancel handle) hr
      exact hstep

/-! ## Admissions -/

omit [DecidableEq K] in
/-- An admission is recorded. -/
theorem SlotsInv.record (h : SlotsInv s) {a : Admission K}
    (ha : ∀ i, a.started = some i → a.outcome ≠ .returned →
      ∃ t, s.objects[i]? = some t ∧ Rejected a s.admissions.length t) :
    SlotsInv { s with admissions := s.admissions ++ [a] } := by
  refine ⟨h.keys, h.own, h.live, h.held, fun m b i hb hi hne => ?_⟩
  by_cases hm : m < s.admissions.length
  · rw [List.getElem?_append_left hm] at hb
    exact h.rejected m b i hb hi hne
  · have hlt := (List.getElem?_eq_some_iff.mp hb).1
    rw [List.length_append, List.length_singleton] at hlt
    obtain rfl : m = s.admissions.length := by omega
    obtain rfl : a = b := by simpa using hb
    exact ha i hi hne

omit [DecidableEq K] in
/-- The event of the newest slot is set: the Tasks that were rejected are of other slots. -/
theorem SlotsInv.grant (h : SlotsInv s) : SlotsInv (s.grant s.admissions.length) := by
  have hobj (i : Nat) : (s.grant s.admissions.length).objects[i]? = s.objects[i]?.map fun t =>
      if t.slot = s.admissions.length then { t with admitted := true } else t := List.getElem?_map
  have hout {i : Nat} {t : Task K} (ht : s.objects[i]? = some t) :
      ∃ t', (s.grant s.admissions.length).objects[i]? = some t' ∧ t'.key = t.key ∧ t'.slot = t.slot ∧
        t'.place = t.place ∧ (t.slot ≠ s.admissions.length → t' = t) := by
    rw [hobj, ht, Option.map_some]
    refine ⟨_, rfl, ?_⟩
    split
    · next hslot => exact ⟨rfl, rfl, rfl, fun hne => absurd hslot hne⟩
    · exact ⟨rfl, rfl, rfl, fun _ => rfl⟩
  have hback {i : Nat} {t' : Task K} (ht' : (s.grant s.admissions.length).objects[i]? = some t') :
      ∃ t, s.objects[i]? = some t ∧ t'.key = t.key ∧ t'.place = t.place ∧ (t.Held → t'.Held) := by
    rw [hobj] at ht'
    obtain ⟨t, ht, heq⟩ := Option.map_eq_some_iff.mp ht'
    refine ⟨t, ht, ?_⟩
    split at heq
    · subst heq
      exact ⟨rfl, rfl, fun _ => nofun⟩
    · subst heq
      exact ⟨rfl, rfl, id⟩
  refine ⟨h.keys, fun k i hi => ?_, fun i t' ht' hlive => ?_, fun i t' ht' => ?_, fun n a i ha hi hne => ?_⟩
  · obtain ⟨t, ht, hk⟩ := h.own k i hi
    obtain ⟨t', ht', hkey, _⟩ := hout ht
    exact ⟨t', ht', hkey.trans hk⟩
  · obtain ⟨t, ht, hkey, hplace, _⟩ := hback ht'
    rw [hkey]
    exact h.live i t ht (hplace ▸ hlive)
  · obtain ⟨t, ht, _, _, hheld⟩ := hback ht'
    exact hheld (h.held i t ht)
  · obtain ⟨t, ht, hr⟩ := h.rejected n a i ha hi hne
    obtain ⟨t', ht', _, _, _, hsame⟩ := hout ht
    have hlt := (List.getElem?_eq_some_iff.mp ha).1
    obtain rfl := hsame (hr.slot.trans_ne (Nat.ne_of_lt hlt))
    exact ⟨t', ht', hr⟩

theorem SlotsInv.admitTask (h : SlotsInv s) (k : K) (callback : Callback) : SlotsInv (s.admitTask k callback) := by
  obtain ⟨r, hr⟩ : ∃ r, s.call k s.admissions.length callback none = r := ⟨_, rfl⟩
  have hnone : ∀ i, (none : Option Nat) = some i → Started s k s.admissions.length i := nofun
  obtain ⟨hinv, hstarted, hadm⟩ := h.call hnone callback hr
  rw [Slots.admitTask, hr]
  obtain ⟨s₁, started, ok⟩ := r
  rw [← hadm] at hstarted ⊢
  cases ok with
  | true => exact hinv.grant.record fun _ _ hne => absurd rfl hne
  | false =>
      cases started with
      | none => exact hinv.record fun i hi => nomatch hi
      | some i =>
          refine (hinv.cancel i).record fun j hj _ => ?_
          obtain rfl := Option.some.inj hj
          obtain ⟨t, ht, hk, hslot, hunset⟩ := (hstarted i rfl).cancel i
          exact ⟨t, ht, hk, hslot, hunset, nofun⟩

theorem SlotsInv.drained (h : SlotsInv s) {n : Nat} (hn : s.drained n = some s') : SlotsInv s' := by
  obtain ⟨a, ha, hn⟩ := Option.bind_eq_some_iff.mp hn
  obtain ⟨i, hi, hn⟩ := Option.bind_eq_some_iff.mp hn
  obtain ⟨t, ht, hn⟩ := Option.bind_eq_some_iff.mp hn
  split at hn
  · next hdone =>
      cases hn
      have hrel := h.release (k := a.key) ht hdone.2
      have hobj : (s.release a.key i).objects = s.objects := by
        rw [Slots.release]
        split
        · rfl
        · rfl
      have hadm : (s.release a.key i).admissions = s.admissions := by
        rw [Slots.release]
        split
        · rfl
        · rfl
      refine ⟨hrel.keys, hrel.own, hrel.live, hrel.held, fun m b j hb hj hne => ?_⟩
      rw [hadm] at hb
      by_cases hm : n = m
      · subst hm
        rw [List.getElem?_set_self (List.getElem?_eq_some_iff.mp ha).1] at hb
        obtain rfl := Option.some.inj hb
        rw [hi] at hj
        obtain rfl := Option.some.inj hj
        obtain ⟨u, hu, hr⟩ := h.rejected n a i ha hi (by rw [hdone.1]; simp)
        rw [ht] at hu
        obtain rfl := Option.some.inj hu
        exact ⟨t, hobj ▸ ht, hr.key, hr.slot, hr.admitted, fun _ => hdone.2⟩
      · rw [List.getElem?_set_ne hm] at hb
        exact hrel.rejected m b j (hadm ▸ hb) hj hne
  · cases hn

/-! ## What a rejection leaves -/

omit [DecidableEq K] in
/-- A callback that failed leaves no Task: the one that it has started is done, its
key is free of it, and its operation was never called. -/
theorem SlotsInv.raised (h : SlotsInv s) {a : Admission K} (ha : a ∈ s.admissions)
    (hout : a.outcome = .raised) (hi : a.started = some i) :
    ∃ t, s.objects[i]? = some t ∧ t.key = a.key ∧ t.place = .done ∧ t.ran = false := by
  obtain ⟨n, hn⟩ := List.mem_iff_getElem?.mp ha
  obtain ⟨t, ht, hr⟩ := h.rejected n a i hn hi (hout ▸ nofun)
  exact ⟨t, ht, hr.key, hr.done hout, (h.held i t ht hr.admitted).1⟩

end MonoAgent.Composition
