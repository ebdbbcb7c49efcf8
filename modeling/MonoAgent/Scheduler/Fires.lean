import MonoAgent.Lib.Grid
import MonoAgent.Scheduler.Store

/-!
# A fire happens once

`Published` says once what a call can publish.  The invariant of the document is
then read off its cases: every fire of a live job that is pending is that of its
nominal time, and no more jobs are enabled than `add` admits.

Time goes on: a job that fires again is moved past the time of the call that moves
it, by whole periods or by the next time of its cron expression.
-/

namespace MonoAgent.Scheduler

open MonoAgent.Lib MonoAgent.Session

/-! ## What a document holds -/

section Encode

variable {store : JobStore} {s : ScheduleState}

theorem forM_eq_ok {α ε : Type} {f : α → Except ε Unit} {l : List α} :
    l.forM f = .ok () ↔ ∀ x ∈ l, f x = .ok () := by
  induction l with
  | nil => exact iff_of_true rfl (by simp)
  | cons x rest ih =>
      show (f x >>= fun _ => rest.forM f) = .ok () ↔ _
      rw [Except.bind_eq_ok, List.forall_mem_cons, ← ih]
      exact ⟨fun ⟨_, hx, hrest⟩ => ⟨hx, hrest⟩, fun ⟨hx, hrest⟩ => ⟨(), hx, hrest⟩⟩

/-- What `encode` has checked of each entry. -/
structure Encoded (store : JobStore) (s : ScheduleState) : Prop where
  jobs : ∀ e ∈ s.jobs, e.1 = e.2.id ∧ ∃ index, store.validateJob e.2 index = .ok ()
  operations : ∀ e ∈ s.operations, e.1 ≠ ""
  fires : ∀ e ∈ s.fires, e.1 = e.2.key

theorem encode_ok (h : store.encode s = .ok ()) : Encoded store s := by
  obtain ⟨_, hjobs, h⟩ := Except.bind_eq_ok.mp h
  obtain ⟨_, hoperations, hfires⟩ := Except.bind_eq_ok.mp h
  refine ⟨fun e he => ?_, fun e he => ?_, fun e he => ?_⟩
  · obtain ⟨i, hi⟩ := List.mem_iff_getElem?.mp he
    have hmem : (e, i) ∈ s.jobs.zipIdx := List.mk_mem_zipIdx_iff_getElem?.mpr hi
    obtain ⟨_, hkey, hvalid⟩ := Except.bind_eq_ok.mp (forM_eq_ok.mp hjobs _ hmem)
    exact ⟨ensure_eq_ok.mp hkey, i, hvalid⟩
  · obtain ⟨_, hkey, _⟩ := Except.bind_eq_ok.mp (forM_eq_ok.mp hoperations e he)
    exact ensure_eq_ok.mp hkey
  · obtain ⟨i, hi⟩ := List.mem_iff_getElem?.mp he
    have hmem : (e, i) ∈ s.fires.zipIdx := List.mk_mem_zipIdx_iff_getElem?.mpr hi
    obtain ⟨_, _, h⟩ := Except.bind_eq_ok.mp (forM_eq_ok.mp hfires _ hmem)
    obtain ⟨_, _, hkey⟩ := Except.bind_eq_ok.mp h
    exact ensure_eq_ok.mp hkey

end Encode

/-! ## The next time -/

/-- The next time of a cron expression is later. -/
def Calendar.Advances (calendar : Calendar) : Prop :=
  ∀ expr tz after d, calendar.nextCronFire expr tz after = .ok d → after < aware d

theorem timedelta_cases (micros : Int) :
    timedelta micros = .ok micros ∨ ∃ text, timedelta micros = .error ⟨.overflowError, text⟩ := by
  rw [timedelta]
  by_cases hint : -2 ^ 31 ≤ micros / 86400000000 ∧ micros / 86400000000 < 2 ^ 31
  · by_cases hdays : -999999999 ≤ micros / 86400000000 ∧ micros / 86400000000 ≤ 999999999
    · left
      rw [ensure, if_pos hint, ensure, if_pos hdays]
      rfl
    · right
      rw [ensure, if_pos hint, ensure, if_neg hdays]
      exact ⟨_, rfl⟩
  · right
    rw [ensure, if_neg hint]
    exact ⟨_, rfl⟩

theorem timedelta_of_days {micros : Int}
    (h : -999999999 ≤ micros / 86400000000 ∧ micros / 86400000000 ≤ 999999999) :
    timedelta micros = .ok micros := by
  rw [timedelta, ensure, if_pos (by omega), ensure, if_pos h]
  rfl

theorem computed_ok {micros : Int} {d : DateTime} (h : DateTime.computed micros = .ok d) :
    aware d = micros := by
  rw [DateTime.computed, DateTime.utc?] at h
  split at h
  · next hutc =>
      split at hutc
      · cases hutc
        cases h
        rfl
      · cases hutc
  · cases h

/-- What an interval computes is the next point of its grid. -/
theorem step_ok {job : ScheduledJob} {seconds after : Int} {d : DateTime}
    (h : Calendar.advance.step job seconds after = .ok d) :
    aware d = nextPoint (aware job.fireAt) (seconds * 1000000) after := by
  obtain ⟨interval, hinterval, h⟩ := Except.bind_eq_ok.mp h
  obtain ⟨ahead, hahead, h⟩ := Except.bind_eq_ok.mp h
  rcases timedelta_cases (seconds * 1000000) with hok | ⟨text, herror⟩
  · rw [hok] at hinterval
    cases hinterval
    rcases timedelta_cases ((max 0 ((after - aware job.fireAt) / (seconds * 1000000)) + 1) * (seconds * 1000000))
      with hok | ⟨text, herror⟩
    · rw [hok] at hahead
      cases hahead
      exact computed_ok h
    · rw [herror] at hahead
      cases hahead
  · rw [herror] at hinterval
    cases hinterval

/-- A job that fires again is moved past the time that it is advanced past. -/
theorem advance_lt {store : JobStore} (hcron : store.calendar.Advances) {job : ScheduledJob}
    {index : Nat} (hvalid : store.validateJob job index = .ok ()) (hevery : job.trigger = .every)
    {after : Int} {d : DateTime}
    (h : store.calendar.advance job after = .ok d) : after < aware d := by
  obtain ⟨_, _, hvalid⟩ := Except.bind_eq_ok.mp hvalid
  obtain ⟨_, _, hschedule⟩ := Except.bind_eq_ok.mp hvalid
  rw [JobStore.validateJobSchedule, if_pos hevery] at hschedule
  obtain ⟨_, _, hschedule⟩ := Except.bind_eq_ok.mp hschedule
  obtain ⟨_, hpos, _⟩ := Except.bind_eq_ok.mp hschedule
  have hpos := ensure_eq_ok.mp hpos
  have hstep (seconds : Int) (hs : 0 < seconds)
      (h : Calendar.advance.step job seconds after = .ok d) : after < aware d := by
    rw [step_ok h]
    exact nextPoint_later (by omega)
  rw [Calendar.advance] at h
  split at h
  · split at h
    · split at h
      · next seconds heq => exact hstep seconds (hpos seconds heq) h
      · cases h
    · exact hcron _ _ _ _ h
  · next seconds _ heq => exact hstep seconds (hpos seconds heq) h
  · cases h

/-! ## What a call publishes -/

/-- A call publishes the document as it was, or one of these changes. -/
inductive Published (store : JobStore) (s : ScheduleState) : ScheduleAction → ScheduleState → Prop where
  | same (a : ScheduleAction) : Published store s a s
  /-- There are too many jobs. -/
  | refused {key : String} {job : ScheduledJob} {response : String} (operation : Operation)
      (hfresh : s.operations.get? key = none) :
      Published store s (.add key job response)
        { s with operations := s.operations.set key operation }
  | added {key : String} {job : ScheduledJob} {response : String} (operation : Operation)
      (hfresh : s.operations.get? key = none) (hnew : job.id ∉ s.jobs.keys)
      (hroom : s.active < scheduleMaxActiveJobs) :
      Published store s (.add key job response)
        { s with jobs := s.jobs.set job.id job, operations := s.operations.set key operation }
  | cancelled {key : String} {jobIds : List String} (operation : Operation)
      (hfresh : s.operations.get? key = none) :
      Published store s (.cancel key jobIds)
        { s with
          jobs := List.filter (fun e => e.1 ∉ jobIds.filter (· ∈ s.jobs.keys)) s.jobs
          fires := List.map (fun e => (e.1, JobStore.cancelFire jobIds e.2)) s.fires
          operations := s.operations.set key operation }
  | started {job current : ScheduledJob} (hcurrent : s.jobs.get? job.id = some current)
      (hkey : fireKey current = fireKey job) (hnew : s.fires.get? (fireKey current) = none) :
      Published store s (.startFire job)
        { s with fires := s.fires.set (fireKey current) { job := current } }
  /-- The job is gone, or has moved on. -/
  | late {key : FireKey} {settlement : Settlement} {now : DateTime} {error : Option String}
      {fire : Fire} (hfire : s.fires.get? key = some fire) (hpending : fire.status = .pending)
      (hlate : ∀ current, s.jobs.get? fire.job.id = some current → fireKey current ≠ key) :
      Published store s (.settle key settlement now error)
        { s with fires := s.fires.set key { fire with status := settlement.status, error } }
  | settled {key : FireKey} {settlement : Settlement} {now : DateTime} {error : Option String}
      {fire : Fire} {current job : ScheduledJob} (hfire : s.fires.get? key = some fire)
      (hpending : fire.status = .pending) (hcurrent : s.jobs.get? fire.job.id = some current)
      (hkey : fireKey current = key) (hjob : store.settleJob current settlement (aware now) = .ok job) :
      Published store s (.settle key settlement now error)
        { s with
          fires := s.fires.set key { fire with status := settlement.status, error }
          jobs := s.jobs.set current.id job }
  | recovered {now : DateTime} {jobs : Dict String ScheduledJob}
      (hjobs : store.recoverJobs s.fires (aware now) s.jobs = .ok jobs) :
      Published store s (.recover now) { s with jobs }

section Run

variable {store : JobStore} {s t : ScheduleState}

theorem change_ok {α : Type} {update : ScheduleState → Except Error (α × ScheduleState)} {a : α}
    (h : store.change s update = .ok (a, t)) :
    update s = .ok (a, t) ∧ store.encode t = .ok () := by
  obtain ⟨_, _, h⟩ := Except.bind_eq_ok.mp h
  obtain ⟨changed, hchanged, h⟩ := Except.bind_eq_ok.mp h
  obtain ⟨_, hencode, h⟩ := Except.bind_eq_ok.mp h
  cases h
  exact ⟨hchanged, hencode⟩

/-- An operation is stored already with the same request, or its key is free. -/
theorem previous_ok {key : String} {kind : OperationKind} {digest : Request}
    {found : Option Operation} (h : JobStore.previous s key kind digest = .ok found) :
    s.operations.get? key = found := by
  rw [JobStore.previous] at h
  split at h
  · next hnone =>
      cases h
      exact hnone
  · next operation hsome =>
      split at h
      · cases h
        exact hsome
      · cases h

/-- An operation that is found was stored with the request. -/
theorem previous_stored {key : String} {kind : OperationKind} {digest : Request}
    {operation : Operation} (h : JobStore.previous s key kind digest = .ok (some operation)) :
    s.operations.get? key = some operation ∧ operation.kind = kind ∧ operation.digest = digest := by
  refine ⟨previous_ok h, ?_⟩
  rw [JobStore.previous, previous_ok h] at h
  dsimp only at h
  split at h
  · next hsame => exact hsame
  · cases h

theorem addNew_ok {key : String} {job : ScheduledJob} {response : String} {operation : Operation}
    (hfresh : s.operations.get? key = none)
    (h : JobStore.addNew s key job response = .ok (operation, t)) :
    Published store s (.add key job response) t := by
  obtain ⟨_, hnew, h⟩ := Except.bind_eq_ok.mp h
  split at h
  · obtain ⟨_, _, h⟩ := Except.bind_eq_ok.mp h
    cases h
    exact .refused _ hfresh
  · next hroom =>
      obtain ⟨_, _, h⟩ := Except.bind_eq_ok.mp h
      cases h
      exact .added _ hfresh (ensure_eq_ok.mp hnew) (Nat.lt_of_not_le hroom)

theorem settleIn_ok {key : FireKey} {settlement : Settlement} {now : DateTime}
    {error : Option String} (h : store.settleIn s key settlement (aware now) error = .ok t) :
    Published store s (.settle key settlement now error) t := by
  rw [JobStore.settleIn] at h
  split at h
  · cases h
  · next fire hfire =>
      split at h
      · cases h
        exact .same _
      · next hpending =>
          have hpending : fire.status = .pending := by simpa using hpending
          dsimp only at h
          split at h
          · next hnone =>
              cases h
              exact .late hfire hpending fun current hc => by cases hnone.symm.trans hc
          · next current hcurrent =>
              split at h
              · next hne =>
                  cases h
                  refine .late hfire hpending fun c hc => ?_
                  cases hcurrent.symm.trans hc
                  exact hne
              · next heq =>
                  obtain ⟨job, hjob, rfl⟩ := Except.map_eq_ok.mp h
                  exact .settled hfire hpending hcurrent (by simpa using heq) hjob

/-- Every call publishes one of the changes, on a document that was checked. -/
theorem run_published {a : ScheduleAction} (h : a.run store s = .ok t) :
    Published store s a t ∧ store.encode t = .ok () := by
  cases a with
  | add key job response =>
      obtain ⟨⟨returned, u⟩, hp, rfl⟩ := Except.map_eq_ok.mp h
      obtain ⟨hupdate, hencode⟩ := change_ok hp
      refine ⟨?_, hencode⟩
      obtain ⟨found, hfound, hupdate⟩ := Except.bind_eq_ok.mp hupdate
      cases found with
      | some operation =>
          cases hupdate
          exact .same _
      | none => exact addNew_ok (previous_ok hfound) hupdate
  | cancel key jobIds =>
      obtain ⟨⟨returned, u⟩, hp, rfl⟩ := Except.map_eq_ok.mp h
      obtain ⟨hupdate, hencode⟩ := change_ok hp
      refine ⟨?_, hencode⟩
      obtain ⟨found, hfound, hupdate⟩ := Except.bind_eq_ok.mp hupdate
      cases found with
      | some operation =>
          cases hupdate
          exact .same _
      | none =>
          obtain ⟨_, _, hupdate⟩ := Except.bind_eq_ok.mp hupdate
          obtain ⟨_, _, hupdate⟩ := Except.bind_eq_ok.mp hupdate
          cases hupdate
          exact .cancelled _ (previous_ok hfound)
  | startFire job =>
      obtain ⟨⟨returned, u⟩, hp, rfl⟩ := Except.map_eq_ok.mp h
      obtain ⟨hupdate, hencode⟩ := change_ok hp
      refine ⟨?_, hencode⟩
      have hu : u = (JobStore.startFireIn s job).2 := (congrArg Prod.snd (Except.ok.inj hupdate)).symm
      show Published store s _ u
      rw [hu, JobStore.startFireIn]
      split
      · exact .same _
      · next current hcurrent =>
          split
          · exact .same _
          · next hcond =>
              have hkey : fireKey current = fireKey job := by
                by_contra hne
                exact hcond (Or.inr hne)
              split
              · exact .same _
              · next hnew => exact .started hcurrent hkey (hkey ▸ hnew)
  | settle key settlement now error =>
      obtain ⟨⟨returned, u⟩, hp, rfl⟩ := Except.map_eq_ok.mp h
      obtain ⟨hupdate, hencode⟩ := change_ok hp
      obtain ⟨v, hv, hpair⟩ := Except.map_eq_ok.mp hupdate
      cases hpair
      exact ⟨settleIn_ok hv, hencode⟩
  | recover now =>
      obtain ⟨⟨returned, u⟩, hp, rfl⟩ := Except.map_eq_ok.mp h
      obtain ⟨hupdate, hencode⟩ := change_ok hp
      obtain ⟨jobs, hjobs, hpair⟩ := Except.map_eq_ok.mp hupdate
      cases hpair
      exact ⟨.recovered hjobs, hencode⟩

end Run

end MonoAgent.Scheduler
