import MonoAgent.Scheduler.Ledger

/-!
# Jobs of an interval stay on their grid

A job of an interval advances to the first point of its grid that is later than the time
it is advanced past.  So what `settle` and `recover` move it to is a point of the grid it
started on, whatever the clock read, and later than the clock.

The run lemma follows one job along any run that does not cancel it.
-/

namespace MonoAgent.Scheduler

open MonoAgent.Lib MonoAgent.Session

/-! ## One advance -/

/-- A job that fires again every `seconds`. -/
structure Interval (job : ScheduledJob) (seconds : Int) : Prop where
  every : job.trigger = .every
  intervalSeconds : job.intervalSeconds = some seconds
  /-- No expression is written, so that the interval counts. -/
  cron : job.cronExpr.getD "" = ""
  pos : 0 < seconds

/-- The interval, in microseconds. -/
def period (seconds : Int) : Int := seconds * 1000000

section Advance

variable {store : JobStore} {job job' : ScheduledJob} {seconds after : Int}

theorem Interval.period_pos (h : Interval job seconds) : 0 < period seconds := by
  have hpos := h.pos
  rw [period]
  omega

/-- What the store admits with an interval has no expression. -/
theorem interval_of_valid {index : Nat} (hvalid : store.validateJob job index = .ok ())
    (hevery : job.trigger = .every) (hseconds : job.intervalSeconds = some seconds) :
    Interval job seconds := by
  obtain ⟨_, _, hvalid⟩ := Except.bind_eq_ok.mp hvalid
  obtain ⟨_, _, hschedule⟩ := Except.bind_eq_ok.mp hvalid
  rw [JobStore.validateJobSchedule, if_pos hevery] at hschedule
  obtain ⟨_, hone, hschedule⟩ := Except.bind_eq_ok.mp hschedule
  obtain ⟨_, hpos, _⟩ := Except.bind_eq_ok.mp hschedule
  have hone := ensure_eq_ok.mp hone
  have hcron : job.cronExpr = none := by
    rw [hseconds] at hone
    simpa using hone
  exact ⟨hevery, hseconds, by rw [hcron]; rfl, ensure_eq_ok.mp hpos seconds hseconds⟩

theorem advance_eq (calendar : Calendar) (h : Interval job seconds) (after : Int) :
    calendar.advance job after = Calendar.advance.step job seconds after := by
  rw [Calendar.advance, h.intervalSeconds]
  cases hexpr : job.cronExpr with
  | none => rfl
  | some expr =>
      have hempty : expr = "" := by simpa [hexpr] using h.cron
      simp only [hempty, if_true]

/-- An advanced job is moved to the first later point of its grid. -/
theorem advance_least (calendar : Calendar) (h : Interval job seconds) {d : DateTime}
    (hd : calendar.advance job after = .ok d) :
    IsLeast (gridAfter (aware job.fireAt) (period seconds) after) (aware d) := by
  rw [advance_eq calendar h] at hd
  rw [step_ok hd]
  exact isLeast_nextPoint h.period_pos

/-- The first later point is computed when it is a time.  Its distance from the nominal time is then
one that a `timedelta` has, and so is the interval, which is no longer. -/
theorem advance_of_inRange (calendar : Calendar) (h : Interval job seconds)
    (hpoint : InRange (nextPoint (aware job.fireAt) (period seconds) after)) :
    ∃ d, calendar.advance job after = .ok d ∧
      aware d = nextPoint (aware job.fireAt) (period seconds) after := by
  have hpos := h.period_pos
  have hstart : InRange (aware job.fireAt) := job.fireAt.inRange
  have hcount : 1 ≤ max 0 ((after - aware job.fireAt) / period seconds) + 1 := by omega
  have hle : 1 * period seconds ≤
      (max 0 ((after - aware job.fireAt) / period seconds) + 1) * period seconds :=
    Int.mul_le_mul_of_nonneg_right hcount hpos.le
  rw [advance_eq calendar h, Calendar.advance.step]
  rw [InRange, nextPoint] at hpoint
  rw [InRange] at hstart
  rw [nextPoint]
  rw [period] at hpoint hle hpos ⊢
  generalize hahead : (max 0 ((after - aware job.fireAt) / (seconds * 1000000)) + 1) * (seconds * 1000000) =
    ahead at hpoint hle ⊢
  have hinterval : timedelta (seconds * 1000000) = .ok (seconds * 1000000) := timedelta_of_days (by omega)
  have hdistance : timedelta ahead = .ok ahead := timedelta_of_days (by omega)
  simp only [hinterval, hdistance, hahead, bind, Except.bind]
  have hinRange : InRange (aware job.fireAt + ahead) := hpoint
  refine ⟨⟨aware job.fireAt + ahead, some 0, hinRange⟩, ?_, rfl⟩
  rw [DateTime.computed, DateTime.utc?, dif_pos hinRange]

/-- Otherwise the arithmetic raises. -/
theorem advance_of_not_inRange (calendar : Calendar) (h : Interval job seconds)
    (hpoint : ¬ InRange (nextPoint (aware job.fireAt) (period seconds) after)) :
    ∃ text, calendar.advance job after = .error ⟨.overflowError, text⟩ := by
  rw [advance_eq calendar h, Calendar.advance.step]
  rcases timedelta_cases (seconds * 1000000) with hinterval | ⟨text, hinterval⟩
  · simp only [hinterval, bind, Except.bind]
    rcases timedelta_cases ((max 0 ((after - aware job.fireAt) / (seconds * 1000000)) + 1) * (seconds * 1000000))
      with hdistance | ⟨text, hdistance⟩
    · simp only [hdistance]
      refine ⟨"date value out of range", ?_⟩
      have hutc : DateTime.utc? (nextPoint (aware job.fireAt) (period seconds) after) = none := dif_neg hpoint
      show DateTime.computed (nextPoint (aware job.fireAt) (period seconds) after) = _
      rw [DateTime.computed, hutc]
    · simp only [hdistance]
      exact ⟨text, rfl⟩
  · simp only [hinterval, bind, Except.bind]
    exact ⟨text, rfl⟩

end Advance

/-! ## One call -/

/-- What a call made at `now` does to a job of an interval that stays. -/
structure Stepped (now : Option DateTime) (seconds : Int) (job job' : ScheduledJob) : Prop where
  interval : Interval job' seconds
  fireAt : job'.fireAt = job.fireAt ∨
    ∃ d ∈ now, IsLeast (gridAfter (aware job.fireAt) (period seconds) (aware d))
      (aware job'.fireAt)

section Step

variable {store : JobStore} {s t : ScheduleState} {a : ScheduleAction} {job job' : ScheduledJob}
  {seconds : Int}

theorem Stepped.same {now : Option DateTime} (h : Interval job seconds) :
    Stepped now seconds job job :=
  ⟨h, Or.inl rfl⟩

/-- A settled job goes on from the later of the clock and its own time, which is from the
clock: a point behind its own time is later than it anyway. -/
theorem settleJob_stepped (h : Interval job seconds) {settlement : Settlement} {now : DateTime}
    (hjob : store.settleJob job settlement (aware now) = .ok job') :
    Stepped (some now) seconds job job' := by
  rw [JobStore.settleJob, if_pos h.every] at hjob
  obtain ⟨d, hd, rfl⟩ := Except.map_eq_ok.mp hjob
  refine ⟨⟨h.every, h.intervalSeconds, h.cron, h.pos⟩, Or.inr ⟨now, rfl, ?_⟩⟩
  have hleast := advance_least store.calendar h hd
  rw [gridAfter_max h.period_pos] at hleast
  exact hleast

theorem recoverJob_stepped (h : Interval job seconds) {fires : Dict FireKey Fire} {now : DateTime}
    (hjob : store.recoverJob fires (aware now) job = .ok job') :
    Stepped (some now) seconds job job' := by
  rw [JobStore.recoverJob] at hjob
  split at hjob
  · cases hjob
    exact .same h
  · rw [if_pos h.every] at hjob
    obtain ⟨d, hd, rfl⟩ := Except.map_eq_ok.mp hjob
    exact ⟨⟨h.every, h.intervalSeconds, h.cron, h.pos⟩,
      Or.inr ⟨now, rfl, advance_least store.calendar h hd⟩⟩

/-- What each change does to a job of an interval that stays, by cases on the change. -/
theorem Published.stepped (h : Published store s a t) (hs : Settled store s) {id : String}
    (hj : s.jobs.get? id = some job) (hj' : t.jobs.get? id = some job')
    (hinterval : Interval job seconds) : Stepped a.now seconds job job' := by
  cases h with
  | same => cases hj.symm.trans hj'; exact .same hinterval
  | refused => cases hj.symm.trans hj'; exact .same hinterval
  | started => cases hj.symm.trans hj'; exact .same hinterval
  | late => cases hj.symm.trans hj'; exact .same hinterval
  | @added key new response operation _ hnew _ =>
      have hj' : (s.jobs.set new.id new).get? id = some job' := hj'
      rw [Dict.get?_set hs.jobKeys, if_neg] at hj'
      · cases hj.symm.trans hj'
        exact .same hinterval
      · rintro rfl
        exact hnew (Dict.mem_keys.mpr ⟨_, Dict.mem_of_get? hj⟩)
  | cancelled =>
      have hmem := List.mem_filter.mp (Dict.mem_of_get? hj')
      cases hj.symm.trans (Dict.get?_of_mem hs.jobKeys hmem.1)
      exact .same hinterval
  | @settled key settlement now error fire current new _ _ hcurrent _ hnew =>
      have hcid : fire.job.id = current.id := hs.job_id (Dict.mem_of_get? hcurrent)
      have hj' : (s.jobs.set current.id new).get? id = some job' := hj'
      rw [Dict.get?_set hs.jobKeys] at hj'
      split at hj'
      · next heq =>
          cases hj'
          rw [heq, ← hcid] at hj
          cases hj.symm.trans hcurrent
          exact settleJob_stepped hinterval hnew
      · cases hj.symm.trans hj'
        exact .same hinterval
  | @recovered now jobs hjobs =>
      obtain ⟨⟨k, old⟩, hold, hoid, hrecover⟩ :=
        mem_of_forall₂ (recoverJobs_ok hjobs) (Dict.mem_of_get? hj')
      cases hoid
      cases hj.symm.trans (Dict.get?_of_mem hs.jobKeys hold)
      exact recoverJob_stepped hinterval hrecover

end Step

/-! ## Runs -/

/-- The call does not cancel the job with this identity. -/
def Spares (id : String) (_ : ScheduleState) (a : ScheduleAction) : Prop :=
  ∀ key jobIds, a = .cancel key jobIds → id ∉ jobIds

/-- The job is there, with its interval, at a point of the grid from `start`. -/
def OnCourse (id : String) (seconds start : Int) (s : ScheduleState) : Prop :=
  ∃ job, s.jobs.get? id = some job ∧ Interval job seconds ∧
    OnGrid start (period seconds) (aware job.fireAt)

section Runs

variable {store : JobStore} {s t : ScheduleState} {a : ScheduleAction} {id : String}
  {job : ScheduledJob} {seconds start : Int}

/-- A job that is not cancelled stays. -/
theorem Published.present (h : Published store s a t) (hs : Settled store s)
    (hspares : Spares id s a) (hj : s.jobs.get? id = some job) :
    ∃ job', t.jobs.get? id = some job' := by
  cases h with
  | same => exact ⟨job, hj⟩
  | refused => exact ⟨job, hj⟩
  | started => exact ⟨job, hj⟩
  | late => exact ⟨job, hj⟩
  | @added key new response operation _ hnew _ =>
      show ∃ job', (s.jobs.set new.id new).get? id = some job'
      rw [Dict.get?_set hs.jobKeys]
      split
      · exact ⟨new, rfl⟩
      · exact ⟨job, hj⟩
  | @cancelled key jobIds operation _ =>
      refine ⟨job, Dict.get?_of_mem (Dict.nodup_keys_filter hs.jobKeys _) ?_⟩
      refine List.mem_filter.mpr ⟨Dict.mem_of_get? hj, ?_⟩
      have hnot := hspares key jobIds rfl
      simp [hnot]
  | @settled key settlement now error fire current new _ _ _ _ _ =>
      show ∃ job', (s.jobs.set current.id new).get? id = some job'
      rw [Dict.get?_set hs.jobKeys]
      split
      · exact ⟨new, rfl⟩
      · exact ⟨job, hj⟩
  | @recovered now jobs hjobs =>
      have hkeys := (keys_of_forall₂ (recoverJobs_ok hjobs)).1
      have hmem : id ∈ jobs.keys := by
        rw [hkeys]
        exact Dict.mem_keys.mpr ⟨job, Dict.mem_of_get? hj⟩
      obtain ⟨job', hjob'⟩ := Dict.mem_keys.mp hmem
      exact ⟨job', Dict.get?_of_mem (hkeys ▸ hs.jobKeys) hjob'⟩

theorem onCourse_next (h : OnCourse id seconds start s) (hs : Settled store s)
    (hspares : Spares id s a) (hn : (scheduleMachine store).next s a = some t) :
    OnCourse id seconds start t := by
  obtain ⟨job, hj, hinterval, hgrid⟩ := h
  have hpublished := (next_published hn).1
  obtain ⟨job', hj'⟩ := hpublished.present hs hspares hj
  have hstepped := hpublished.stepped hs hj hj' hinterval
  refine ⟨job', hj', hstepped.interval, ?_⟩
  rcases hstepped.fireAt with hsame | ⟨d, _, hleast⟩
  · rw [hsame]
    exact hgrid
  · exact hgrid.trans (onGrid_of_mem_gridAfter hleast.1)

/-- A job that is never cancelled stays on its grid, by induction on the run. -/
theorem path_onCourse (hs : Settled store s) (hj : s.jobs.get? id = some job)
    (hinterval : Interval job seconds) (hpath : (scheduleMachine store).Path (Spares id) s t) :
    OnCourse id seconds (aware job.fireAt) t := by
  have hboth : Settled store t ∧ OnCourse id seconds (aware job.fireAt) t := by
    refine hpath.invariant (I := fun u => Settled store u ∧
      OnCourse id seconds (aware job.fireAt) u) ?_ ⟨hs, job, hj, hinterval, .refl _ _⟩
    rintro u a v ⟨hu, hcourse⟩ hspares hn
    exact ⟨settled_next hu hn, onCourse_next hcourse hu hspares hn⟩
  exact hboth.2

/-- An interval advances to the least later point of its grid, and raises when that is behind the year
9999.  In every run that does not cancel the job its time is a point of the grid it was added with, and a
call that moves it moves it to the first one later than the time of the call. -/
theorem interval_grid (store : JobStore) :
    (∀ job seconds, Interval job seconds → ∀ after, ∃ point,
      IsLeast (gridAfter (aware job.fireAt) (period seconds) after) point ∧
      (InRange point → ∃ d, store.calendar.advance job after = .ok d ∧ aware d = point) ∧
      (¬ InRange point → ∃ text, store.calendar.advance job after = .error ⟨.overflowError, text⟩)) ∧
    ∀ s, (scheduleMachine store).Reachable s → ∀ id job seconds, s.jobs.get? id = some job →
      job.trigger = .every → job.intervalSeconds = some seconds →
      ∀ t, (scheduleMachine store).Path (Spares id) s t → ∃ job', t.jobs.get? id = some job' ∧
        OnGrid (aware job.fireAt) (period seconds) (aware job'.fireAt) ∧
        ∀ a u, (scheduleMachine store).next t a = some u → ∀ job'', u.jobs.get? id = some job'' →
          Stepped a.now seconds job' job'' := by
  constructor
  · intro job seconds hinterval after
    exact ⟨_, isLeast_nextPoint hinterval.period_pos, advance_of_inRange store.calendar hinterval,
      advance_of_not_inRange store.calendar hinterval⟩
  · intro s hreach id job seconds hj hevery hseconds t hpath
    have hs := settled_reachable hreach
    obtain ⟨index, hvalid⟩ := ((encode_ok hs.encoded).jobs _ (Dict.mem_of_get? hj)).2
    have hinterval : Interval job seconds := interval_of_valid hvalid hevery hseconds
    obtain ⟨job', hj', hinterval', hgrid⟩ := path_onCourse hs hj hinterval hpath
    have ht : Settled store t := hpath.invariant (fun _ _ _ hi _ hn => settled_next hi hn) hs
    exact ⟨job', hj', hgrid, fun a u hn job'' hj'' =>
      (next_published hn).1.stepped ht hj' hj'' hinterval'⟩

end Runs

/-! ## A job of every minute -/

def exampleMinutely : ScheduledJob :=
  { exampleJob with cronExpr := none, intervalSeconds := some 60 }

def exampleAdded : ScheduleState :=
  ((scheduleMachine exampleStore).run {} [.add "add" exampleMinutely "ok"]).getD {}

theorem exampleAdded_reachable : (scheduleMachine exampleStore).Reachable exampleAdded := by
  have hstart : (scheduleMachine exampleStore).start {} := rfl
  exact Machine.reach_getD hstart (fun _ _ _ => trivial) (by decide)

theorem exampleLate_lt : 302 < 10000 ∧ 7202 < 10000 := by decide

/-- Fired, delivered two and a half minutes late, and recovered an hour later, exactly on a
point of the grid. -/
def exampleLate : List ScheduleAction :=
  [.startFire exampleMinutely,
    .settle (fireKey exampleMinutely) .delivered (exampleTime ⟨302, exampleLate_lt.1⟩) none,
    .recover (exampleTime ⟨7202, exampleLate_lt.2⟩)]

def exampleRecovered : ScheduleState :=
  ((scheduleMachine exampleStore).run exampleAdded exampleLate).getD {}

theorem exampleRecovered_path :
    (scheduleMachine exampleStore).Path (Spares "job") exampleAdded exampleRecovered := by
  have hsome : ((scheduleMachine exampleStore).run exampleAdded exampleLate).isSome = true := by
    decide
  obtain ⟨t, ht⟩ := Option.isSome_iff_exists.mp hsome
  rw [exampleRecovered, ht]
  refine Machine.path_of_run (fun a ha s key jobIds heq => ?_) ht
  subst heq
  simp [exampleLate] at ha

theorem interval_grid_example :
    (exampleRecovered.jobs.get? "job").map (fun job => aware job.fireAt) = some 3661000000 ∧
      OnGrid 1000000 60000000 3661000000 := by
  obtain ⟨job, hjob, hgrid, _⟩ := (interval_grid exampleStore).2 exampleAdded
    exampleAdded_reachable "job" exampleMinutely 60 (by decide) rfl rfl exampleRecovered
    exampleRecovered_path
  have htime : (exampleRecovered.jobs.get? "job").map (fun job => aware job.fireAt) =
      some 3661000000 := by decide
  refine ⟨htime, ?_⟩
  rw [hjob, Option.map_some, Option.some.injEq] at htime
  rw [htime] at hgrid
  exact hgrid

/-- An interval that ends behind the year 9999. -/
def exampleRare : ScheduledJob :=
  { exampleJob with cronExpr := none, intervalSeconds := some 1000000000000 }

/-- The store admits the job, but it cannot be advanced. -/
theorem advance_overflows :
    ((scheduleMachine exampleStore).run {} [.add "add" exampleRare "ok"]).any (·.jobs.get? "job" = some exampleRare) ∧
    ¬ ∀ (store : JobStore) (job : ScheduledJob) (seconds : Int), Interval job seconds → ∀ after, ∃ d,
      store.calendar.advance job after = .ok d ∧
        IsLeast (gridAfter (aware job.fireAt) (period seconds) after) (aware d) := by
  refine ⟨by decide, fun hclaim => ?_⟩
  obtain ⟨d, hd, _⟩ := hclaim exampleStore exampleRare 1000000000000 ⟨rfl, rfl, rfl, by decide⟩ 0
  have hraises : exampleStore.calendar.advance exampleRare 0 =
      .error ⟨.overflowError, "date value out of range"⟩ := by decide
  rw [hraises] at hd
  cases hd

end MonoAgent.Scheduler
