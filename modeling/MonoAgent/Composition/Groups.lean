import MonoAgent.Lib.Shared

/-!
# Groups

The uses of a key share one `_Group`: the parts that are active, the ones that wait
until nothing is, and the ones that ask for the exclusive section.

A use runs on its own up to the `await` of an event, so each method is a step up to
its wait and a step from it.  The events of a group are numbered: `changed` is the
one that is not set yet, and a use that waits for an earlier one was woken.  A use
that waits may be cancelled at any time, whether it was woken or not.
-/

namespace MonoAgent.Composition

open MonoAgent.Lib

/-! ## The code -/

/-- Where a use of a group is. -/
inductive Use where
  /-- In the body of `activity`. -/
  | active
  /-- In `wait_idle`, waiting for an event. -/
  | waitsIdle (changed : Nat)
  /-- In `exclusive`, waiting for an event. -/
  | queued (idle : Bool) (changed : Nat)
  /-- In the body of `exclusive`. -/
  | inside (idle : Bool)
  | left
deriving DecidableEq

/-- `_Group`.  A request is the number of the use that made it, with `idle`. -/
structure Group where
  changed : Nat := 0
  references : Int := 0
  activity : Int := 0
  exclusive : Bool := false
  waiting : List (Nat × Bool) := []
deriving DecidableEq

namespace Group

variable (g : Group)

/-- The event is set, and the next one takes its place. -/
def notify : Group := { g with changed := g.changed + 1 }

/-- The counting part of `_group`. -/
def acquire : Group := { g with references := g.references + 1 }

/-- The counting part of `_release_group`. -/
def release : Group := { g with references := g.references - 1 }

/-- A group without references is deleted. -/
def kept : Bool := g.references ≠ 0

/-- The request may be granted as far as the activity goes. -/
def grants (request : Nat × Bool) : Bool := !request.2 || g.activity = 0

def eligible : Option (Nat × Bool) := g.waiting.find? g.grants

/-- `activity`, up to its body. -/
def begin_ : Group × Use := ({ g.acquire with activity := g.activity + 1 }.notify, .active)

/-- A round of the loop of `wait_idle`. -/
def tryIdle : Group × Use :=
  if g.activity = 0 then (g.release, .left) else (g, .waitsIdle g.changed)

/-- A round of the loop of `exclusive`. -/
def tryEnter (c : Nat) (idle : Bool) : Group × Use :=
  if g.exclusive = false ∧ g.eligible = some (c, idle) then
    ({ g with waiting := g.waiting.erase (c, idle), exclusive := true }, .inside idle)
  else (g, .queued idle g.changed)

/-- `exclusive`, up to its wait or its body. -/
def request (c : Nat) (idle : Bool) : Group × Use :=
  ({ g.acquire with waiting := g.waiting ++ [(c, idle)] } : Group).tryEnter c idle

/-- The end of `exclusive` when it did not enter. -/
def giveUp (c : Nat) (idle : Bool) : Group × Use :=
  (({ g with waiting := g.waiting.erase (c, idle) } : Group).notify.release, .left)

/-- A use that was woken goes on. -/
def resume (closed : Bool) (c : Nat) : Use → Option (Group × Use)
  | .waitsIdle changed =>
      if changed < g.changed then some (if closed then (g.release, .left) else g.tryIdle) else none
  | .queued idle changed =>
      if changed < g.changed then some (if closed then g.giveUp c idle else g.tryEnter c idle) else none
  | _ => none

/-- `CancelledError` where a use waits. -/
def cancel (c : Nat) : Use → Option (Group × Use)
  | .waitsIdle _ => some (g.release, .left)
  | .queued idle _ => some (g.giveUp c idle)
  | _ => none

/-- The body of a use ends, however it does. -/
def leave : Use → Option (Group × Use)
  | .active => some (({ g with activity := g.activity - 1 } : Group).notify.release, .left)
  | .inside _ => some (({ g with exclusive := false } : Group).notify.release, .left)
  | _ => none

end Group

variable {K : Type}

abbrev Groups (K : Type) := Shared K Group Use

namespace Groups

variable [DecidableEq K] (s : Groups K)

def activity (k : K) : Groups K := s.enter Group.kept k {} Group.begin_

def waitIdle (k : K) : Groups K := s.enter Group.kept k {} fun g => g.acquire.tryIdle

def exclusive (k : K) (idle : Bool) : Groups K :=
  s.enter Group.kept k {} fun g => g.request s.holders.length idle

def resume (closed : Bool) (c : Nat) : Option (Groups K) :=
  s.act Group.kept c fun g => g.resume closed c

def cancel (c : Nat) : Option (Groups K) := s.act Group.kept c fun g => g.cancel c

def leave (c : Nat) : Option (Groups K) := s.act Group.kept c Group.leave

/-- All groups are notified. -/
def notifyAll : Groups K :=
  { s with objects := s.objects.mapIdx fun i e =>
      if i ∈ s.table.map Prod.snd then { e with value := e.value.notify } else e }

end Groups

/-! ## What the fields of a group count -/

/-- The use has its reference. -/
def Use.live : Use → Bool
  | .left => false
  | _ => true

def Use.isActive : Use → Bool
  | .active => true
  | _ => false

def Use.isInside : Use → Bool
  | .inside _ => true
  | _ => false

/-- The request of a use that waits to enter. -/
def request? (e : Nat × Use) : Option (Nat × Bool) :=
  match e.2 with
  | .queued idle _ => some (e.1, idle)
  | _ => none

/-- The event that a use waits for. -/
def Use.event? : Use → Option Nat
  | .waitsIdle changed => some changed
  | .queued _ changed => some changed
  | _ => none

variable {g g' : Group} {ps : Dict Nat Use} {c : Nat} {u u' : Use} {idle : Bool}

structure Counted (g : Group) (ps : Dict Nat Use) : Prop where
  references : g.references = ps.tally Use.live
  activity : g.activity = ps.tally Use.isActive
  exclusive : g.exclusive.toInt = ps.tally Use.isInside
  waiting : g.waiting = ps.filterMap request?

theorem counted_new : Counted {} [] := ⟨rfl, rfl, rfl, rfl⟩

/-- A use more. -/
theorem Counted.concat (h : Counted g ps)
    (hr : g'.references = g.references + if u.live then 1 else 0)
    (ha : g'.activity = g.activity + if u.isActive then 1 else 0)
    (he : g'.exclusive.toInt = g.exclusive.toInt + if u.isInside then 1 else 0)
    (hw : g'.waiting = g.waiting ++ (request? (c, u)).toList) : Counted g' (ps ++ [(c, u)]) where
  references := by rw [hr, h.references, Dict.tally_concat]
  activity := by rw [ha, h.activity, Dict.tally_concat]
  exclusive := by rw [he, h.exclusive, Dict.tally_concat]
  waiting := by
    rw [hw, h.waiting, List.filterMap_append]
    cases hq : request? (c, u) with
    | none => rw [List.filterMap_cons_none hq]; rfl
    | some w => rw [List.filterMap_cons_some hq]; rfl

/-- A use at another place. -/
theorem Counted.set (h : Counted g ps) (hnd : ps.keys.Nodup) (hc : ps.get? c = some u)
    (hr : g'.references = g.references - (if u.live then 1 else 0) + if u'.live then 1 else 0)
    (ha : g'.activity = g.activity - (if u.isActive then 1 else 0) + if u'.isActive then 1 else 0)
    (he : g'.exclusive.toInt =
      g.exclusive.toInt - (if u.isInside then 1 else 0) + if u'.isInside then 1 else 0)
    (hw : g'.waiting = (ps.set c u').filterMap request?) : Counted g' (ps.set c u') where
  references := by rw [hr, h.references, Dict.tally_set _ hnd hc]
  activity := by rw [ha, h.activity, Dict.tally_set _ hnd hc]
  exclusive := by rw [he, h.exclusive, Dict.tally_set _ hnd hc]
  waiting := hw

/-- What a use at another place does to the requests. -/
theorem requests_set (hnd : ps.keys.Nodup) (hc : ps.get? c = some u) (u' : Use)
    (hq : request? (c, u') = request? (c, u)) : (ps.set c u').filterMap request? = ps.filterMap request? :=
  Dict.filterMap_set_same hnd hc hq

theorem request?_eq_some {e : Nat × Use} {w : Nat × Bool} :
    request? e = some w ↔ e.1 = w.1 ∧ ∃ changed, e.2 = .queued w.2 changed := by
  obtain ⟨c, u⟩ := e
  obtain ⟨d, idle⟩ := w
  cases u with
  | queued idle' changed => simp [request?]
  | _ => simp [request?]

theorem requests_erase {changed : Nat} (hnd : ps.keys.Nodup) (hc : ps.get? c = some (.queued idle changed))
    (hq : request? (c, u) = none) :
    (ps.set c u).filterMap request? = (ps.filterMap request?).erase (c, idle) :=
  Dict.filterMap_set_erase hnd hc (show request? _ = some (c, idle) from rfl) hq
    fun _ _ he => (request?_eq_some.mp he).1

theorem Counted.mem_waiting (h : Counted g ps) : (c, idle) ∈ g.waiting ↔ ∃ changed, (c, .queued idle changed) ∈ ps := by
  rw [h.waiting, List.mem_filterMap]
  constructor
  · rintro ⟨⟨d, u⟩, he, hq⟩
    obtain ⟨hd, changed, hu⟩ := request?_eq_some.mp hq
    cases hd
    cases hu
    exact ⟨changed, he⟩
  · rintro ⟨changed, he⟩
    exact ⟨_, he, rfl⟩

/-- The requests are in the order in which they were made. -/
theorem Counted.sorted (h : Counted g ps) (hs : ps.keys.Pairwise (· < ·)) :
    (g.waiting.map Prod.fst).Pairwise (· < ·) := by
  rw [h.waiting]
  refine List.Pairwise.sublist ?_ hs
  clear h hs
  induction ps with
  | nil => exact List.Sublist.refl _
  | cons e rest ih =>
      cases hq : request? e with
      | none =>
          rw [List.filterMap_cons_none hq]
          exact ih.cons _
      | some w =>
          rw [List.filterMap_cons_some hq, List.map_cons, ← (request?_eq_some.mp hq).1]
          exact ih.cons_cons _

/-- A new request is the last one. -/
theorem Counted.sorted_concat (h : Counted g ps) (hs : ps.keys.Pairwise (· < ·)) (hlt : ∀ e ∈ ps, e.1 < c)
    (idle : Bool) : ((g.waiting ++ [(c, idle)]).map Prod.fst).Pairwise (· < ·) := by
  rw [List.map_append, List.map_singleton]
  refine List.pairwise_append.mpr ⟨h.sorted hs, List.pairwise_singleton _ _, fun a ha b hb => ?_⟩
  obtain ⟨w, hw, rfl⟩ := List.mem_map.mp ha
  obtain ⟨changed, hmem⟩ := h.mem_waiting.mp (show (w.1, w.2) ∈ g.waiting from hw)
  rw [List.mem_singleton.mp hb]
  exact hlt _ hmem

theorem Counted.kept (h : Counted g ps) (hc : ps.get? c = some u) (hu : u.live = true) : g.kept = true := by
  have hpos : 0 < ps.tally Use.live := Dict.tally_pos.mpr ⟨c, u, Dict.mem_of_get? hc, hu⟩
  rw [Group.kept, h.references]
  exact decide_eq_true (Int.ne_of_gt hpos)

/-! ## Who was woken -/

/-- A use that may go on was woken: the request that comes first when the section is
free, and those that wait for an idle group when it is idle.  One use may be left
out, which is about to look. -/
structure Woken (but : Option Nat) (g : Group) (ps : Dict Nat Use) : Prop where
  asleep : ∀ c u changed, (c, u) ∈ ps → u.event? = some changed → changed ≤ g.changed
  first : g.exclusive = false → ∀ w, g.eligible = some w → some w.1 ≠ but →
    ∀ changed, (w.1, .queued w.2 changed) ∈ ps → changed < g.changed
  idle : g.activity = 0 → ∀ c changed, (c, .waitsIdle changed) ∈ ps → changed < g.changed

/-- A notification wakes all that wait. -/
theorem woken_notify (h : ∀ c u changed, (c, u) ∈ ps → u.event? = some changed → changed < g.changed) :
    Woken none g ps where
  asleep c u changed hmem hu := Nat.le_of_lt (h c u changed hmem hu)
  first _ w _ _ changed hmem := h w.1 _ changed hmem rfl
  idle _ c changed hmem := h c _ changed hmem rfl

/-- What is kept of the invariant is kept when nothing was done to who may go on. -/
theorem Woken.keep {but : Option Nat} (h : Woken but g ps) {qs : Dict Nat Use} (hc : g'.changed = g.changed)
    (he : g'.exclusive = g.exclusive) (ha : g'.activity = g.activity) (hw : g'.waiting = g.waiting)
    (hqs : ∀ d u changed, (d, u) ∈ qs → u.event? = some changed → (d, u) ∈ ps) : Woken but g' qs where
  asleep d u changed hmem hu := hc ▸ h.asleep d u changed (hqs d u changed hmem hu) hu
  first hx w hw' hb changed hmem := by
    have hsame : g'.eligible = g.eligible := by
      rw [Group.eligible, Group.eligible, hw]
      refine congrArg (fun p => g.waiting.find? p) (funext fun r => ?_)
      rw [Group.grants, Group.grants, ha]
    exact hc ▸ h.first (he ▸ hx) w (hsame ▸ hw') hb changed (hqs _ _ _ hmem rfl)
  idle hx d changed hmem := hc ▸ h.idle (ha ▸ hx) d changed (hqs _ _ _ hmem rfl)

structure Group.Inv (g : Group) (ps : Dict Nat Use) : Prop where
  counted : Counted g ps
  woken : Woken none g ps

/-! ## Entering -/

section Enter

variable {changed : Nat}

theorem Counted.tryEnter (h : Counted g ps) (hnd : ps.keys.Nodup)
    (hc : ps.get? c = some (.queued idle changed)) :
    Counted (g.tryEnter c idle).1 (ps.set c (g.tryEnter c idle).2) := by
  rw [Group.tryEnter]
  split
  · next hfree =>
      refine h.set hnd hc ?_ ?_ ?_ ?_
      · simp [Use.live]
      · simp [Use.isActive]
      · simp [Use.isInside, hfree.1]
      · rw [requests_erase hnd hc rfl, h.waiting]
  · refine h.set hnd hc ?_ ?_ ?_ ?_
    · simp [Use.live]
    · simp [Use.isActive]
    · simp [Use.isInside]
    · exact h.waiting.trans (requests_set hnd hc (.queued idle g.changed) rfl).symm

theorem Woken.tryEnter (h : Woken (some c) g ps) (idle : Bool) : Woken none (g.tryEnter c idle).1
    (ps.set c (g.tryEnter c idle).2) := by
  rw [Group.tryEnter]
  split
  · refine ⟨fun d u changed hmem hu => ?_, fun hx _ _ _ _ _ => (nomatch hx), fun ha d changed hmem => ?_⟩
    · rcases Dict.mem_set.mp hmem with heq | ⟨_, hmem⟩
      · cases heq
        cases hu
      · exact h.asleep d u changed hmem hu
    · rcases Dict.mem_set.mp hmem with heq | ⟨_, hmem⟩
      · cases heq
      · exact h.idle ha d changed hmem
  · next hnot =>
      refine ⟨fun d u changed hmem hu => ?_, fun hx w hw _ changed hmem => ?_, fun ha d changed hmem => ?_⟩
      · rcases Dict.mem_set.mp hmem with heq | ⟨_, hmem⟩
        · cases heq
          cases hu
          exact Nat.le_refl _
        · exact h.asleep d u changed hmem hu
      · rcases Dict.mem_set.mp hmem with heq | ⟨hne, hmem⟩
        · -- The request comes first and the section is free, so it would have entered.
          obtain ⟨d, idle'⟩ := w
          cases heq
          exact absurd ⟨hx, hw⟩ hnot
        · exact h.first hx w hw (fun heq => hne (Option.some.inj heq)) changed hmem
      · rcases Dict.mem_set.mp hmem with heq | ⟨_, hmem⟩
        · cases heq
        · exact h.idle ha d changed hmem

/-- The eligible request is before the others that may be granted. -/
theorem eligible_le (hsorted : (g.waiting.map Prod.fst).Pairwise (· < ·)) {w r : Nat × Bool}
    (hw : g.eligible = some w) (hr : r ∈ g.waiting) (hgr : g.grants r = true) : w.1 ≤ r.1 := by
  obtain ⟨_, before, after, hsplit, hbefore⟩ := List.find?_eq_some_iff_append.mp hw
  rw [hsplit] at hr hsorted
  rw [List.map_append, List.map_cons] at hsorted
  rcases List.mem_append.mp hr with hr | hr
  · have hno := hbefore r hr
    rw [hgr] at hno
    cases hno
  · rcases List.mem_cons.mp hr with rfl | hr
    · exact Nat.le_refl _
    · have hright := (List.pairwise_append.mp hsorted).2.1
      exact Nat.le_of_lt (List.rel_of_pairwise_cons hright (List.mem_map_of_mem hr))

/-- A use enters when it may, and before those that asked after it. -/
theorem tryEnter_inside (hsorted : (g.waiting.map Prod.fst).Pairwise (· < ·)) {idle' : Bool}
    (h : g.tryEnter c idle = (g', .inside idle')) :
    idle' = idle ∧ (idle = true → g'.activity = 0) ∧ ∀ r ∈ g'.waiting, g'.grants r = true → c < r.1 := by
  rw [Group.tryEnter] at h
  split at h
  · next hfree =>
      cases h
      refine ⟨rfl, fun hidle => ?_, fun r hr hgr => ?_⟩
      · have hgrants := List.find?_some hfree.2
        simpa [Group.grants, hidle] using hgrants
      · have hnd : (g.waiting.map Prod.fst).Nodup := hsorted.imp Nat.ne_of_lt
        obtain ⟨hne, hmem⟩ := (List.Nodup.of_map _ hnd).mem_erase_iff.mp hr
        have hle := eligible_le hsorted hfree.2 hmem hgr
        refine Nat.lt_of_le_of_ne hle fun heq => hne ?_
        exact List.inj_on_of_nodup_map hnd hmem (List.mem_of_find?_eq_some hfree.2) heq.symm
  · cases h

theorem Group.Inv.tryEnter (h : g.Inv ps) (hnd : ps.keys.Nodup)
    (hc : ps.get? c = some (.queued idle changed)) :
    Group.Inv (g.tryEnter c idle).1 (ps.set c (g.tryEnter c idle).2) where
  counted := h.counted.tryEnter hnd hc
  woken := Woken.tryEnter ⟨h.woken.asleep, fun hx w hw _ => h.woken.first hx w hw nofun, h.woken.idle⟩ idle

end Enter

/-! ## The methods -/

theorem Group.Inv.begin_ (h : g.Inv ps) : Group.Inv g.begin_.1 (ps ++ [(c, g.begin_.2)]) where
  counted := h.counted.concat (by simp [Group.begin_, Group.acquire, Group.notify, Use.live])
    (by simp [Group.begin_, Group.notify, Use.isActive])
    (by simp [Group.begin_, Group.acquire, Group.notify, Use.isInside])
    (by simp [Group.begin_, Group.acquire, Group.notify, request?])
  woken := by
    refine woken_notify fun d u changed hmem hu => ?_
    rcases List.mem_append.mp hmem with hmem | hmem
    · exact Nat.lt_succ_of_le (h.woken.asleep d u changed hmem hu)
    · cases List.mem_singleton.mp hmem
      cases hu

theorem Group.Inv.waitIdle (h : g.Inv ps) :
    Group.Inv g.acquire.tryIdle.1 (ps ++ [(c, g.acquire.tryIdle.2)]) := by
  rw [Group.tryIdle]
  split
  · refine ⟨h.counted.concat ?_ ?_ ?_ ?_, h.woken.keep rfl rfl rfl rfl fun d u changed hmem hu => ?_⟩
    · simp [Group.acquire, Group.release, Use.live]
    · simp [Group.acquire, Group.release, Use.isActive]
    · simp [Group.acquire, Group.release, Use.isInside]
    · simp [Group.acquire, Group.release, request?]
    · rcases List.mem_append.mp hmem with hmem | hmem
      · exact hmem
      · cases List.mem_singleton.mp hmem
        cases hu
  · next hbusy =>
      refine ⟨h.counted.concat ?_ ?_ ?_ ?_, fun d u changed hmem hu => ?_, fun hx w hw hb changed hmem => ?_,
        fun hx => absurd hx hbusy⟩
      · simp [Group.acquire, Use.live]
      · simp [Group.acquire, Use.isActive]
      · simp [Group.acquire, Use.isInside]
      · simp [Group.acquire, request?]
      · rcases List.mem_append.mp hmem with hmem | hmem
        · exact h.woken.asleep d u changed hmem hu
        · cases List.mem_singleton.mp hmem
          cases hu
          exact Nat.le_refl _
      · rcases List.mem_append.mp hmem with hmem | hmem
        · exact h.woken.first hx w hw hb changed hmem
        · cases List.mem_singleton.mp hmem

theorem Group.Inv.request (h : g.Inv ps) (hsorted : ps.keys.Pairwise (· < ·)) (hlt : ∀ e ∈ ps, e.1 < c) :
    Group.Inv (g.request c idle).1 (ps ++ [(c, (g.request c idle).2)]) := by
  -- It is as if the use had waited for an event before it looked.
  let g₀ : Group := { g.acquire with waiting := g.waiting ++ [(c, idle)] }
  let ps₀ : Dict Nat Use := ps ++ [(c, .queued idle g.changed)]
  have hnot := Dict.not_mem_keys_of_lt hlt
  have hnd : ps₀.keys.Nodup := Dict.nodup_keys_concat (hsorted.imp Nat.ne_of_lt) hnot _
  have hget : ps₀.get? c = some (.queued idle g.changed) :=
    Dict.get?_concat (hsorted.imp Nat.ne_of_lt) hnot _
  have hset (u : Use) : ps₀.set c u = ps ++ [(c, u)] := Dict.set_concat hnot
  have hcounted : Counted g₀ ps₀ := h.counted.concat (by simp [g₀, Group.acquire, Use.live])
    (by simp [g₀, Group.acquire, Use.isActive]) (by simp [g₀, Group.acquire, Use.isInside])
    (by simp [g₀, request?])
  have hwoken : Woken (some c) g₀ ps₀ := by
    refine ⟨fun d u changed hmem hu => ?_, fun hx w hw hb changed hmem => ?_, fun hx d changed hmem => ?_⟩
    · rcases List.mem_append.mp hmem with hmem | hmem
      · exact h.woken.asleep d u changed hmem hu
      · cases List.mem_singleton.mp hmem
        cases hu
        exact Nat.le_refl _
    · -- What comes first with the new request is what came first before, or the new one.
      have hfind : (g.waiting ++ [(c, idle)]).find? g.grants = some w := hw
      rw [List.find?_append, Option.or_eq_some_iff] at hfind
      rcases hfind with hold | ⟨_, hnew⟩
      · rcases List.mem_append.mp hmem with hmem | hmem
        · exact h.woken.first hx w hold nofun changed hmem
        · cases List.mem_singleton.mp hmem
          exact absurd rfl hb
      · have hwc := List.mem_singleton.mp (List.mem_of_find?_eq_some hnew)
        exact absurd (congrArg some (congrArg Prod.fst hwc)) hb
    · rcases List.mem_append.mp hmem with hmem | hmem
      · exact h.woken.idle hx d changed hmem
      · cases List.mem_singleton.mp hmem
  have hfinal := hcounted.tryEnter hnd hget
  rw [hset] at hfinal
  have hfinal' := hwoken.tryEnter idle
  rw [hset] at hfinal'
  exact ⟨hfinal, hfinal'⟩

/-- The last step of a use, which notifies. -/
theorem Group.Inv.notified (h : g.Inv ps) (hnd : ps.keys.Nodup) (hc : ps.get? c = some u) (hu : u.live = true)
    (hr : g'.references = g.references - 1)
    (ha : g'.activity = g.activity - if u.isActive then 1 else 0)
    (he : g'.exclusive.toInt = g.exclusive.toInt - if u.isInside then 1 else 0)
    (hw : g'.waiting = (ps.set c .left).filterMap request?) (hn : g'.changed = g.changed + 1) :
    g'.Inv (ps.set c .left) where
  counted := h.counted.set hnd hc (by rw [hr, if_pos hu]; simp [Use.live]) (by simp [ha, Use.isActive])
    (by simp [he, Use.isInside]) hw
  woken := by
    refine woken_notify fun d v changed hmem hv => ?_
    rcases Dict.mem_set.mp hmem with heq | ⟨_, hmem⟩
    · cases heq
      cases hv
    · exact hn ▸ Nat.lt_succ_of_le (h.woken.asleep d v changed hmem hv)

theorem Group.Inv.giveUp {changed : Nat} (h : g.Inv ps) (hnd : ps.keys.Nodup)
    (hc : ps.get? c = some (.queued idle changed)) :
    Group.Inv (g.giveUp c idle).1 (ps.set c (g.giveUp c idle).2) :=
  h.notified hnd hc rfl rfl (by simp [Group.giveUp, Group.notify, Group.release, Use.isActive])
    (by simp [Group.giveUp, Group.notify, Group.release, Use.isInside])
    (by
      rw [requests_erase hnd hc rfl, ← h.counted.waiting]
      rfl)
    rfl

/-- A use that waited for an idle group goes. -/
theorem Group.Inv.quit {changed : Nat} (h : g.Inv ps) (hnd : ps.keys.Nodup)
    (hc : ps.get? c = some (.waitsIdle changed)) : g.release.Inv (ps.set c .left) where
  counted := h.counted.set hnd hc (by simp [Group.release, Use.live]) (by simp [Group.release, Use.isActive])
    (by simp [Group.release, Use.isInside]) (h.counted.waiting.trans (requests_set hnd hc .left rfl).symm)
  woken := by
    refine h.woken.keep rfl rfl rfl rfl fun d v changed hmem hv => ?_
    rcases Dict.mem_set.mp hmem with heq | ⟨_, hmem⟩
    · cases heq
      cases hv
    · exact hmem

theorem Group.Inv.tryIdle {changed : Nat} (h : g.Inv ps) (hnd : ps.keys.Nodup)
    (hc : ps.get? c = some (.waitsIdle changed)) : Group.Inv g.tryIdle.1 (ps.set c g.tryIdle.2) := by
  rw [Group.tryIdle]
  split
  · exact h.quit hnd hc
  · next hbusy =>
      refine ⟨h.counted.set hnd hc ?_ ?_ ?_ ?_, fun d u changed hmem hu => ?_, fun hx w hw hb changed hmem => ?_,
        fun hx => absurd hx hbusy⟩
      · simp [Use.live]
      · simp [Use.isActive]
      · simp [Use.isInside]
      · exact h.counted.waiting.trans (requests_set hnd hc (.waitsIdle g.changed) rfl).symm
      · rcases Dict.mem_set.mp hmem with heq | ⟨_, hmem⟩
        · cases heq
          cases hu
          exact Nat.le_refl _
        · exact h.woken.asleep d u changed hmem hu
      · rcases Dict.mem_set.mp hmem with heq | ⟨_, hmem⟩
        · cases heq
        · exact h.woken.first hx w hw hb changed hmem

theorem Group.Inv.resume {closed : Bool} (h : g.Inv ps) (hnd : ps.keys.Nodup) (hc : ps.get? c = some u)
    (hf : g.resume closed c u = some (g', u')) : g.kept = true ∧ g'.Inv (ps.set c u') := by
  cases u with
  | waitsIdle changed =>
      refine ⟨h.counted.kept hc rfl, ?_⟩
      rw [Group.resume] at hf
      split at hf
      · split at hf
        · cases hf
          exact h.quit hnd hc
        · have hstep := h.tryIdle hnd hc
          rw [Option.some.inj hf] at hstep
          exact hstep
      · cases hf
  | queued idle changed =>
      refine ⟨h.counted.kept hc rfl, ?_⟩
      rw [Group.resume] at hf
      split at hf
      · split at hf
        · have hstep := h.giveUp hnd hc
          rw [Option.some.inj hf] at hstep
          exact hstep
        · have hstep := h.tryEnter hnd hc
          rw [Option.some.inj hf] at hstep
          exact hstep
      · cases hf
  | active => cases hf
  | inside idle => cases hf
  | left => cases hf

theorem Group.Inv.cancel (h : g.Inv ps) (hnd : ps.keys.Nodup) (hc : ps.get? c = some u)
    (hf : g.cancel c u = some (g', u')) : g.kept = true ∧ g'.Inv (ps.set c u') := by
  cases u with
  | waitsIdle changed =>
      cases hf
      exact ⟨h.counted.kept hc rfl, h.quit hnd hc⟩
  | queued idle changed =>
      cases hf
      exact ⟨h.counted.kept hc rfl, h.giveUp hnd hc⟩
  | active => cases hf
  | inside idle => cases hf
  | left => cases hf

theorem Group.Inv.leave (h : g.Inv ps) (hnd : ps.keys.Nodup) (hc : ps.get? c = some u)
    (hf : g.leave u = some (g', u')) : g.kept = true ∧ g'.Inv (ps.set c u') := by
  cases u with
  | active =>
      cases hf
      refine ⟨h.counted.kept hc rfl, h.notified hnd hc rfl rfl rfl ?_ ?_ rfl⟩
      · simp [Group.notify, Group.release, Use.isInside]
      · exact h.counted.waiting.trans (requests_set hnd hc .left rfl).symm
  | inside idle =>
      cases hf
      refine ⟨h.counted.kept hc rfl, h.notified hnd hc rfl rfl ?_ ?_ ?_ rfl⟩
      · simp [Group.notify, Group.release, Use.isActive]
      · -- The section is held, because this use is in it.
        have hheld : g.exclusive = true := by
          have hpos := Dict.tally_pos.mpr ⟨c, _, Dict.mem_of_get? hc, show Use.isInside (.inside idle) = true from rfl⟩
          rw [← h.counted.exclusive] at hpos
          cases hx : g.exclusive with
          | true => rfl
          | false =>
              rw [hx] at hpos
              exact absurd hpos (by decide)
        rw [hheld]
        rfl
      · exact h.counted.waiting.trans (requests_set hnd hc .left rfl).symm
  | waitsIdle changed => cases hf
  | queued idle changed => cases hf
  | left => cases hf

/-! ## All groups -/

def GroupsInv [DecidableEq K] (s : Groups K) : Prop := s.Inv Group.kept Group.Inv

variable [DecidableEq K] {s t : Groups K}

theorem group_new : Group.Inv {} [] where
  counted := counted_new
  woken := ⟨fun _ _ _ hmem => (nomatch hmem), fun _ _ hw => (nomatch hw), fun _ _ _ hmem => (nomatch hmem)⟩

theorem groupsInv_start : GroupsInv ({} : Groups K) := Shared.inv_empty

theorem GroupsInv.activity (h : GroupsInv s) (k : K) : GroupsInv (s.activity k) :=
  Shared.Inv.enter h group_new fun _ _ hg _ _ => hg.begin_

theorem GroupsInv.waitIdle (h : GroupsInv s) (k : K) : GroupsInv (s.waitIdle k) :=
  Shared.Inv.enter h group_new fun _ _ hg _ _ => hg.waitIdle

theorem GroupsInv.exclusive (h : GroupsInv s) (k : K) (idle : Bool) : GroupsInv (s.exclusive k idle) :=
  Shared.Inv.enter h group_new fun _ _ hg hsorted hlt => hg.request hsorted hlt

theorem GroupsInv.resume (h : GroupsInv s) {closed : Bool} (hn : s.resume closed c = some t) : GroupsInv t :=
  Shared.Inv.act h hn fun _ _ _ _ _ hg hsorted hc hf => hg.resume (hsorted.imp Nat.ne_of_lt) hc hf

theorem GroupsInv.cancel (h : GroupsInv s) (hn : s.cancel c = some t) : GroupsInv t :=
  Shared.Inv.act h hn fun _ _ _ _ _ hg hsorted hc hf => hg.cancel (hsorted.imp Nat.ne_of_lt) hc hf

theorem GroupsInv.leave (h : GroupsInv s) (hn : s.leave c = some t) : GroupsInv t :=
  Shared.Inv.act h hn fun _ _ _ _ _ hg hsorted hc hf => hg.leave (hsorted.imp Nat.ne_of_lt) hc hf

theorem Group.Inv.notify (h : g.Inv ps) : g.notify.Inv ps where
  counted := ⟨h.counted.references, h.counted.activity, h.counted.exclusive, h.counted.waiting⟩
  woken := woken_notify fun c u changed hmem hu => Nat.lt_succ_of_le (h.woken.asleep c u changed hmem hu)

theorem GroupsInv.notifyAll (h : GroupsInv s) : GroupsInv s.notifyAll := by
  have hobj (i : Nat) : s.notifyAll.objects[i]? = s.objects[i]?.map fun e =>
      if i ∈ s.table.map Prod.snd then { e with value := e.value.notify } else e := List.getElem?_mapIdx
  have hsame {k : K} {i : Nat} (hi : ∃ v, s.objects[i]? = some ⟨k, v⟩) :
      ∃ v, s.notifyAll.objects[i]? = some ⟨k, v⟩ := by
    obtain ⟨v, hv⟩ := hi
    rw [hobj, hv]
    by_cases hin : i ∈ s.table.map Prod.snd
    · exact ⟨v.notify, by rw [Option.map_some, if_pos hin]⟩
    · exact ⟨v, by rw [Option.map_some, if_neg hin]⟩
  refine ⟨h.keys, fun k i hi => hsame (h.own k i hi), fun i e he => ?_, fun x hx => hsame (h.held x hx),
    fun i e he => ?_⟩
  · rw [hobj] at he
    obtain ⟨e₀, he₀, rfl⟩ := Option.map_eq_some_iff.mp he
    split
    · exact h.kept i e₀ he₀
    · exact h.kept i e₀ he₀
  · rw [hobj] at he
    obtain ⟨e₀, he₀, rfl⟩ := Option.map_eq_some_iff.mp he
    split
    · exact (h.each i e₀ he₀).notify
    · exact h.each i e₀ he₀

end MonoAgent.Composition
