import MonoAgent.Scheduler.Fires

/-!
# The ledger of fires in every run

`Settled` is the invariant of the document, kept by each change of `Published`.
From it: a fire leaves `pending` once, a live job has one pending fire, a delivery
counts once for the job whose time it was, and an operation answers for good.
-/

namespace MonoAgent.Scheduler

open MonoAgent.Lib MonoAgent.Session

/-! ## The invariant -/

structure Settled (store : JobStore) (s : ScheduleState) : Prop where
  encoded : store.encode s = .ok ()
  jobKeys : s.jobs.keys.Nodup
  operationKeys : s.operations.keys.Nodup
  fireKeys : s.fires.keys.Nodup
  /-- A pending fire is that of the nominal time of a live job. -/
  current : ∀ e ∈ s.fires, e.2.status = .pending → ∃ job, (e.2.job.id, job) ∈ s.jobs ∧ fireKey job = e.1
  room : s.active ≤ scheduleMaxActiveJobs

section Jobs

variable {store : JobStore} {s t : ScheduleState}

theorem Settled.job_id (h : Settled store s) {j : String × ScheduledJob} (hj : j ∈ s.jobs) :
    j.1 = j.2.id :=
  ((encode_ok h.encoded).jobs j hj).1

theorem Settled.fire_key (h : Settled store s) {e : FireKey × Fire} (he : e ∈ s.fires) :
    e.1 = e.2.key :=
  (encode_ok h.encoded).fires e he

/-- A job is moved on under its own identity. -/
theorem settleJob_ok {current job : ScheduledJob} {settlement : Settlement} {now : Int}
    (h : store.settleJob current settlement now = .ok job) :
    job.id = current.id ∧ job.trigger = current.trigger ∧
      job.runCount = current.runCount + (if settlement = .delivered then 1 else 0) ∧
      (job.enabled = true → current.enabled = true) ∧
      (current.trigger = .every →
        store.calendar.advance current (max now (aware current.fireAt)) = .ok job.fireAt) ∧
      (current.trigger ≠ .every → job.fireAt = current.fireAt) := by
  rw [JobStore.settleJob] at h
  split at h
  · next hevery =>
      obtain ⟨d, hd, rfl⟩ := Except.map_eq_ok.mp h
      exact ⟨rfl, rfl, rfl, fun he => he, fun _ => hd, fun hone => absurd hevery hone⟩
  · next hone =>
      cases h
      exact ⟨rfl, rfl, rfl, fun he => (by cases he), fun hevery => absurd hevery hone, fun _ => rfl⟩

/-- A job that is recovered keeps its identity and its count. -/
theorem recoverJob_ok {fires : Dict FireKey Fire} {now : Int} {job job' : ScheduledJob}
    (h : store.recoverJob fires now job = .ok job') :
    job'.id = job.id ∧ job'.trigger = job.trigger ∧ job'.runCount = job.runCount ∧
      (job'.enabled = true → job.enabled = true) ∧
      (job'.fireAt = job.fireAt ∨ (fireKey job ∉ fires.keys ∧ aware job.fireAt ≤ now ∧
        job.trigger = .every ∧ store.calendar.advance job now = .ok job'.fireAt)) := by
  rw [JobStore.recoverJob] at h
  split at h
  · cases h
    exact ⟨rfl, rfl, rfl, fun he => he, Or.inl rfl⟩
  · next hdue =>
      rw [not_or, not_or] at hdue
      split at h
      · next hevery =>
          obtain ⟨d, hd, rfl⟩ := Except.map_eq_ok.mp h
          exact ⟨rfl, rfl, rfl, fun he => he, Or.inr ⟨hdue.2.2, Int.not_lt.mp hdue.2.1, hevery, hd⟩⟩
      · split at h
        · cases h
          exact ⟨rfl, rfl, rfl, fun he => (by cases he), Or.inl rfl⟩
        · cases h
          exact ⟨rfl, rfl, rfl, fun he => he, Or.inl rfl⟩

/-- Every job is recovered under its key, by induction on the jobs. -/
theorem recoverJobs_ok {fires : Dict FireKey Fire} {now : Int} {jobs jobs' : Dict String ScheduledJob}
    (h : store.recoverJobs fires now jobs = .ok jobs') :
    List.Forall₂ (fun e e' => e'.1 = e.1 ∧ store.recoverJob fires now e.2 = .ok e'.2) jobs jobs' := by
  induction jobs generalizing jobs' with
  | nil =>
      cases h
      exact .nil
  | cons e rest ih =>
      obtain ⟨job, hjob, h⟩ := Except.bind_eq_ok.mp h
      obtain ⟨later, hlater, h⟩ := Except.bind_eq_ok.mp h
      cases h
      exact .cons ⟨rfl, hjob⟩ (ih hlater)

theorem mem_of_forall₂ {α β : Type} {R : α → β → Prop} {l : List α} {l' : List β}
    (h : List.Forall₂ R l l') {b : β} (hb : b ∈ l') : ∃ a ∈ l, R a b := by
  induction h with
  | nil => cases hb
  | cons hr _ ih =>
      rcases List.mem_cons.mp hb with rfl | hb
      · exact ⟨_, List.mem_cons_self .., hr⟩
      · obtain ⟨a, ha, hab⟩ := ih hb
        exact ⟨a, List.mem_cons_of_mem _ ha, hab⟩

theorem keys_of_forall₂ {fires : Dict FireKey Fire} {now : Int}
    {jobs jobs' : Dict String ScheduledJob}
    (h : List.Forall₂ (fun e e' => e'.1 = e.1 ∧ store.recoverJob fires now e.2 = .ok e'.2) jobs jobs') :
    jobs'.keys = jobs.keys ∧
      List.countP (fun e => e.2.enabled) jobs' ≤ List.countP (fun e => e.2.enabled) jobs := by
  induction h with
  | nil => exact ⟨rfl, Nat.le_refl _⟩
  | @cons e e' rest rest' hr _ ih =>
      obtain ⟨hkeys, hcount⟩ := ih
      obtain ⟨_, _, _, henabled, _⟩ := recoverJob_ok hr.2
      refine ⟨?_, ?_⟩
      · show e'.1 :: Dict.keys rest' = e.1 :: Dict.keys rest
        rw [hr.1, hkeys]
      · rw [List.countP_cons, List.countP_cons]
        cases he' : e'.2.enabled with
        | false => simp; omega
        | true => simp [henabled he']; omega

/-- Replacing a job by one that is enabled only if it was adds no enabled job. -/
theorem countP_set_le {jobs : Dict String ScheduledJob} {id : String} {job current : ScheduledJob}
    (hnd : jobs.keys.Nodup) (hcurrent : (id, current) ∈ jobs)
    (henabled : job.enabled = true → current.enabled = true) :
    List.countP (fun e => e.2.enabled) (jobs.set id job) ≤
      List.countP (fun e => e.2.enabled) jobs := by
  rw [Dict.set, if_pos (Dict.mem_keys.mpr ⟨current, hcurrent⟩), List.countP_map]
  refine List.countP_mono_left fun e he hen => ?_
  by_cases heq : e.1 = id
  · have hval : e.2 = current := by
      have hpair : e = (id, current) := List.inj_on_of_nodup_map hnd he hcurrent heq
      rw [hpair]
    have hjob : job.enabled = true := by simpa [heq] using hen
    rw [hval]
    exact henabled hjob
  · simpa [heq] using hen

end Jobs

/-! ## One call -/

section Step

variable {store : JobStore} {s t : ScheduleState} {a : ScheduleAction}

/-- The status of the fire of a job and time. -/
def ScheduleState.status? (s : ScheduleState) (key : FireKey) : Option FireStatus :=
  (s.fires.get? key).map (·.status)

theorem cancelFire_key (jobIds : List String) (fire : Fire) :
    (JobStore.cancelFire jobIds fire).job = fire.job := by
  rw [JobStore.cancelFire]
  split <;> rfl

theorem cancelFire_pending {jobIds : List String} {fire : Fire}
    (h : (JobStore.cancelFire jobIds fire).status = .pending) :
    fire.status = .pending ∧ fire.job.id ∉ jobIds ∧ JobStore.cancelFire jobIds fire = fire := by
  rw [JobStore.cancelFire] at h ⊢
  split at h
  · cases h
  · next hcond => exact ⟨h, fun hmem => hcond ⟨hmem, h⟩, if_neg hcond⟩

/-- What is left of the pending fires after one of them is settled. -/
theorem pending_of_settled {key : FireKey} {fire : Fire} {settlement : Settlement}
    {error : Option String} {e : FireKey × Fire}
    (he : e ∈ s.fires.set key { fire with status := settlement.status, error })
    (hpending : e.2.status = .pending) : e.1 ≠ key ∧ e ∈ s.fires := by
  rcases Dict.mem_set.mp he with rfl | h
  · cases settlement <;> cases hpending
  · exact h

/-- Every change keeps the invariant, by cases on the change. -/
theorem Published.keeps (h : Published store s a t) (hencode : store.encode t = .ok ())
    (hs : Settled store s) : Settled store t := by
  cases h with
  | same => exact hs
  | refused operation _ =>
      exact ⟨hencode, hs.jobKeys, Dict.nodup_keys_set hs.operationKeys _ _, hs.fireKeys, hs.current,
        hs.room⟩
  | @added key job response operation _ hnew hroom =>
      refine ⟨hencode, Dict.nodup_keys_set hs.jobKeys _ _, Dict.nodup_keys_set hs.operationKeys _ _,
        hs.fireKeys, fun e he hpending => ?_, ?_⟩
      · obtain ⟨current, hcurrent, hkey⟩ := hs.current e he hpending
        have hne : e.2.job.id ≠ job.id := fun heq => hnew (heq ▸ Dict.mem_keys.mpr ⟨_, hcurrent⟩)
        exact ⟨current, Dict.mem_set.mpr (Or.inr ⟨hne, hcurrent⟩), hkey⟩
      · show List.countP (fun e => e.2.enabled) (s.jobs.set job.id job) ≤ _
        rw [Dict.set, if_neg hnew, List.countP_append]
        have hone : List.countP (fun e => e.2.enabled) [(job.id, job)] ≤ 1 := List.countP_le_length
        have hroom : List.countP (fun e => e.2.enabled) s.jobs < scheduleMaxActiveJobs := hroom
        omega
  | @cancelled key jobIds operation _ =>
      refine ⟨hencode, Dict.nodup_keys_filter hs.jobKeys _, Dict.nodup_keys_set hs.operationKeys _ _,
        ?_, fun e he hpending => ?_, ?_⟩
      · show (List.map Prod.fst (List.map _ s.fires)).Nodup
        rw [List.map_map]
        exact hs.fireKeys
      · obtain ⟨e, hmem, rfl⟩ := List.mem_map.mp he
        obtain ⟨hbefore, hout, hsame⟩ := cancelFire_pending hpending
        obtain ⟨current, hcurrent, hkey⟩ := hs.current e hmem hbefore
        rw [hsame]
        refine ⟨current, List.mem_filter.mpr ⟨hcurrent, ?_⟩, hkey⟩
        simp [hout]
      · have hsub : (List.filter (fun e => e.1 ∉ jobIds.filter (· ∈ s.jobs.keys)) s.jobs).Sublist s.jobs :=
          List.filter_sublist
        exact Nat.le_trans (List.Sublist.countP_le hsub) hs.room
  | @started job current hcurrent hkey hnew =>
      refine ⟨hencode, hs.jobKeys, hs.operationKeys, Dict.nodup_keys_set hs.fireKeys _ _,
        fun e he hpending => ?_, hs.room⟩
      have hmem := Dict.mem_of_get? hcurrent
      have hid : job.id = current.id := hs.job_id hmem
      rcases Dict.mem_set.mp he with rfl | ⟨_, he⟩
      · exact ⟨current, hid ▸ hmem, rfl⟩
      · exact hs.current e he hpending
  | late hfire hpending hlate =>
      refine ⟨hencode, hs.jobKeys, hs.operationKeys, Dict.nodup_keys_set hs.fireKeys _ _,
        fun e he hp => ?_, hs.room⟩
      exact hs.current e (pending_of_settled he hp).2 hp
  | @settled key settlement now error fire current job hfire hpending hcurrent hkey hjob =>
      obtain ⟨_, _, _, henabled, _, _⟩ := settleJob_ok hjob
      have hmem := Dict.mem_of_get? hcurrent
      have hcid : fire.job.id = current.id := hs.job_id hmem
      refine ⟨hencode, Dict.nodup_keys_set hs.jobKeys _ _, hs.operationKeys,
        Dict.nodup_keys_set hs.fireKeys _ _, fun e he hp => ?_, ?_⟩
      · obtain ⟨hne, he⟩ := pending_of_settled he hp
        obtain ⟨other, hother, hokey⟩ := hs.current e he hp
        -- A pending fire of the same job would be the one that is settled.
        have hdiff : e.2.job.id ≠ current.id := by
          intro heq
          have hsame : some other = some current := by
            rw [← Dict.get?_of_mem hs.jobKeys hother, heq, ← hcid, hcurrent]
          cases hsame
          exact hne (hokey.symm.trans hkey)
        exact ⟨other, Dict.mem_set.mpr (Or.inr ⟨hdiff, hother⟩), hokey⟩
      · exact Nat.le_trans (countP_set_le hs.jobKeys (hcid ▸ hmem) henabled) hs.room
  | @recovered now jobs hjobs =>
      have hall := recoverJobs_ok hjobs
      obtain ⟨hkeys, hcount⟩ := keys_of_forall₂ hall
      refine ⟨hencode, hkeys ▸ hs.jobKeys, hs.operationKeys, hs.fireKeys, fun e he hp => ?_,
        Nat.le_trans hcount hs.room⟩
      obtain ⟨current, hcurrent, hkey⟩ := hs.current e he hp
      have hin : e.2.job.id ∈ Dict.keys jobs := hkeys ▸ Dict.mem_keys.mpr ⟨_, hcurrent⟩
      obtain ⟨job, hjob⟩ := Dict.mem_keys.mp hin
      obtain ⟨old, hold, hoid, hrecover⟩ := mem_of_forall₂ hall hjob
      have hsame : old = (e.2.job.id, current) := List.inj_on_of_nodup_map hs.jobKeys hold hcurrent hoid.symm
      subst hsame
      obtain ⟨hid, _, _, _, hat⟩ := recoverJob_ok hrecover
      refine ⟨job, hjob, ?_⟩
      rcases hat with hat | ⟨hnone, _⟩
      · rw [← hkey, fireKey, fireKey, hid, hat]
      · exact absurd (hkey ▸ Dict.mem_keys.mpr ⟨_, he⟩) hnone

/-- A step leaves the document as it was or publishes a change of it. -/
theorem next_published (h : (scheduleMachine store).next s a = some t) :
    Published store s a t ∧ (t = s ∨ store.encode t = .ok ()) := by
  have h : some ((a.run store s).toOption.getD s) = some t := h
  cases hrun : a.run store s with
  | error e =>
      rw [hrun] at h
      cases h
      exact ⟨.same a, Or.inl rfl⟩
  | ok u =>
      rw [hrun] at h
      cases h
      obtain ⟨hpublished, hencode⟩ := run_published hrun
      exact ⟨hpublished, Or.inr hencode⟩

theorem settled_next (hs : Settled store s) (h : (scheduleMachine store).next s a = some t) :
    Settled store t := by
  obtain ⟨hpublished, rfl | hencode⟩ := next_published h
  · exact hs
  · exact hpublished.keeps hencode hs

/-- The invariant holds in every state of every run. -/
theorem settled_reachable (h : (scheduleMachine store).Reachable s) : Settled store s := by
  refine h.invariant ?_ fun s a t hs _ hn => settled_next hs hn
  rintro s rfl
  refine ⟨rfl, List.nodup_nil, List.nodup_nil, List.nodup_nil, ?_, Nat.zero_le _⟩
  intro e he
  cases he

/-! ## What stays -/

/-- Operations stay, fires stay with their jobs, and those that are settled do not change. -/
structure Stays (s t : ScheduleState) : Prop where
  operations : ∀ key operation, s.operations.get? key = some operation →
    t.operations.get? key = some operation
  fires : ∀ key fire, s.fires.get? key = some fire → ∃ fire', t.fires.get? key = some fire' ∧
    fire'.job = fire.job ∧ (fire.status ≠ .pending → fire' = fire)

theorem Stays.refl (s : ScheduleState) : Stays s s :=
  ⟨fun _ _ h => h, fun _ fire h => ⟨fire, h, rfl, fun _ => rfl⟩⟩

theorem Stays.trans {u : ScheduleState} (h : Stays s t) (h' : Stays t u) : Stays s u := by
  refine ⟨fun key operation ho => h'.operations key operation (h.operations key operation ho),
    fun key fire hf => ?_⟩
  obtain ⟨fire', hf', hjob', hsame'⟩ := h.fires key fire hf
  obtain ⟨fire'', hf'', hjob'', hsame''⟩ := h'.fires key fire' hf'
  refine ⟨fire'', hf'', hjob''.trans hjob', fun hpending => ?_⟩
  have heq := hsame' hpending
  subst heq
  exact hsame'' hpending

/-- An operation under a free key adds to the operations. -/
theorem operations_set (hs : Settled store s) {key : String} (hfresh : s.operations.get? key = none)
    (operation : Operation) (k : String) (o : Operation) (h : s.operations.get? k = some o) :
    (s.operations.set key operation).get? k = some o := by
  rw [Dict.get?_set hs.operationKeys, if_neg]
  · exact h
  · rintro rfl
    cases hfresh.symm.trans h

/-- A pending fire is replaced by one of the same job. -/
theorem fires_set (hs : Settled store s) {key : FireKey} {fire fire' : Fire}
    (hfire : s.fires.get? key = some fire) (hpending : fire.status = .pending)
    (hjob : fire'.job = fire.job) (k : FireKey) (f : Fire) (h : s.fires.get? k = some f) :
    ∃ f', (s.fires.set key fire').get? k = some f' ∧ f'.job = f.job ∧ (f.status ≠ .pending → f' = f) := by
  rw [Dict.get?_set hs.fireKeys]
  split
  · next heq =>
      subst heq
      cases hfire.symm.trans h
      exact ⟨fire', rfl, hjob, fun hne => absurd hpending hne⟩
  · exact ⟨f, h, rfl, fun _ => rfl⟩

theorem Published.stays (h : Published store s a t) (hs : Settled store s) : Stays s t := by
  cases h with
  | same => exact Stays.refl s
  | refused operation hfresh =>
      exact ⟨operations_set hs hfresh operation, (Stays.refl s).fires⟩
  | added operation hfresh _ _ =>
      exact ⟨operations_set hs hfresh operation, (Stays.refl s).fires⟩
  | @cancelled key jobIds operation hfresh =>
      refine ⟨operations_set hs hfresh operation, fun k f hf => ?_⟩
      refine ⟨JobStore.cancelFire jobIds f, ?_, cancelFire_key jobIds f, fun hne => ?_⟩
      · have hnd : (Dict.keys (List.map (fun e => (e.1, JobStore.cancelFire jobIds e.2)) s.fires)).Nodup := by
          rw [Dict.keys, List.map_map]
          exact hs.fireKeys
        exact Dict.get?_of_mem hnd (List.mem_map.mpr ⟨_, Dict.mem_of_get? hf, rfl⟩)
      · rw [JobStore.cancelFire, if_neg fun hcond => hne hcond.2]
  | @started job current hcurrent hkey hnew =>
      refine ⟨(Stays.refl s).operations, fun k f hf => ⟨f, ?_, rfl, fun _ => rfl⟩⟩
      rw [Dict.get?_set hs.fireKeys, if_neg]
      · exact hf
      · rintro rfl
        cases hnew.symm.trans hf
  | late hfire hpending _ =>
      exact ⟨(Stays.refl s).operations, fires_set hs hfire hpending rfl⟩
  | settled hfire hpending _ _ _ =>
      exact ⟨(Stays.refl s).operations, fires_set hs hfire hpending rfl⟩
  | recovered _ => exact ⟨(Stays.refl s).operations, (Stays.refl s).fires⟩

/-- Along a run, by induction on its steps. -/
theorem path_stays (hs : Settled store s) (h : (scheduleMachine store).Path Machine.always s t) :
    Stays s t := by
  refine Machine.Path.rel (I := Settled store) (R := Stays) Stays.refl
    (fun _ _ _ h h' => h.trans h') (fun s a t hs _ hn => settled_next hs hn)
    (fun s a t hs _ hn => (next_published hn).1.stays hs) h hs

/-! ## The job of a fire -/

/-- The time a call is made at. -/
def ScheduleAction.now : ScheduleAction → Option DateTime
  | .settle _ _ now _ => some now
  | .recover now => some now
  | _ => none

/-- Whether a step delivers the current fire of a job. -/
def Delivers (s t : ScheduleState) (job : ScheduledJob) : Prop :=
  s.status? (fireKey job) = some .pending ∧ t.status? (fireKey job) = some .delivered

instance (s t : ScheduleState) (job : ScheduledJob) : Decidable (Delivers s t job) :=
  inferInstanceAs (Decidable (_ ∧ _))

/-- What a call does to a job that stays. -/
structure Moved (s t : ScheduleState) (now : Option DateTime) (job job' : ScheduledJob) : Prop where
  trigger : job'.trigger = job.trigger
  runCount : job'.runCount = job.runCount + if Delivers s t job then 1 else 0
  fireAt : job'.fireAt = job.fireAt ∨ (job.trigger = .every ∧ aware job.fireAt < aware job'.fireAt ∧
    ∃ d ∈ now, aware d < aware job'.fireAt)

/-- A job that is not touched, when its current fire is not delivered. -/
theorem Moved.same {now : Option DateTime} {job : ScheduledJob} (h : ¬ Delivers s t job) :
    Moved s t now job job := by
  refine ⟨rfl, ?_, Or.inl rfl⟩
  rw [if_neg h]
  omega

theorem not_delivers_of_status {job : ScheduledJob}
    (h : t.status? (fireKey job) = s.status? (fireKey job)) : ¬ Delivers s t job := by
  rintro ⟨hp, hd⟩
  rw [h, hp] at hd
  cases hd

theorem status_set (hs : Settled store s) {key : FireKey} {fire : Fire} (k : FireKey) :
    ((s.fires.set key fire).get? k).map (·.status) =
      if k = key then some fire.status else s.status? k := by
  rw [Dict.get?_set hs.fireKeys]
  split
  · rfl
  · rfl

/-- The job a fire is of is the job of its key. -/
theorem Settled.fire_id (hs : Settled store s) {key : FireKey} {fire : Fire}
    (h : s.fires.get? key = some fire) : key.id = fire.job.id := by
  have hkey : key = fire.key := hs.fire_key (Dict.mem_of_get? h)
  rw [hkey]
  rfl

/-- Settling the current fire of a job delivers it or not. -/
theorem delivers_settled (hs : Settled store s) {key : FireKey} {fire : Fire}
    {settlement : Settlement} {error : Option String} {job : ScheduledJob}
    {jobs : Dict String ScheduledJob} (hfire : s.fires.get? key = some fire)
    (hpending : fire.status = .pending) (hkey : fireKey job = key) :
    Delivers s { s with
      fires := s.fires.set key { fire with status := settlement.status, error }, jobs } job ↔
      settlement = .delivered := by
  have hbefore : s.status? (fireKey job) = some .pending := by
    rw [ScheduleState.status?, hkey, hfire, Option.map_some, hpending]
  rw [Delivers, hbefore, ScheduleState.status?, status_set hs, if_pos hkey]
  cases settlement with
  | delivered => simp [Settlement.status]
  | failed => simp [Settlement.status]

/-- What each change does to a job that stays, by cases on the change. -/
theorem Published.moved (h : Published store s a t) (hcron : store.calendar.Advances)
    (hs : Settled store s) {id : String} {job job' : ScheduledJob}
    (hj : s.jobs.get? id = some job) (hj' : t.jobs.get? id = some job') :
    Moved s t a.now job job' := by
  have hid : id = job.id := hs.job_id (Dict.mem_of_get? hj)
  obtain ⟨index, hvalid⟩ := ((encode_ok hs.encoded).jobs _ (Dict.mem_of_get? hj)).2
  have hvalid : store.validateJob job index = .ok () := hvalid
  cases h with
  | same =>
      cases hj.symm.trans hj'
      exact .same (not_delivers_of_status rfl)
  | refused operation _ =>
      cases hj.symm.trans hj'
      exact .same (not_delivers_of_status rfl)
  | @added key new response operation _ hnew _ =>
      have hj' : (s.jobs.set new.id new).get? id = some job' := hj'
      rw [Dict.get?_set hs.jobKeys, if_neg] at hj'
      · cases hj.symm.trans hj'
        exact .same (not_delivers_of_status rfl)
      · rintro rfl
        exact hnew (Dict.mem_keys.mpr ⟨_, Dict.mem_of_get? hj⟩)
  | @cancelled key jobIds operation _ =>
      have hmem := List.mem_filter.mp (Dict.mem_of_get? hj')
      cases hj.symm.trans (Dict.get?_of_mem hs.jobKeys hmem.1)
      refine .same ?_
      rintro ⟨hp, hd⟩
      obtain ⟨before, hbefore, hp⟩ := Option.map_eq_some_iff.mp hp
      obtain ⟨fire, hfire, hd⟩ := Option.map_eq_some_iff.mp hd
      obtain ⟨⟨k, f⟩, he, hpair⟩ := List.mem_map.mp (Dict.mem_of_get? hfire)
      cases hpair
      cases hbefore.symm.trans (Dict.get?_of_mem hs.fireKeys he)
      rw [JobStore.cancelFire] at hd
      split at hd
      · cases hd
      · cases hp.symm.trans hd
  | @started new current hcurrent hkey hnew =>
      cases hj.symm.trans hj'
      refine .same ?_
      rintro ⟨hp, hd⟩
      rw [ScheduleState.status?, status_set hs] at hd
      split at hd
      · cases hd
      · rw [hp] at hd
        cases hd
  | @late key settlement now error fire hfire hpending hlate =>
      cases hj.symm.trans hj'
      refine .same ?_
      rintro ⟨hp, hd⟩
      rw [ScheduleState.status?, status_set hs] at hd
      split at hd
      · next heq =>
          have hfid : fire.job.id = id := by
            rw [hid, ← hs.fire_id hfire, ← heq]
            rfl
          exact hlate job (hfid ▸ hj) heq
      · rw [hp] at hd
        cases hd
  | @settled key settlement now error fire current new hfire hpending hcurrent hkey hnew =>
      have hcid : fire.job.id = current.id := hs.job_id (Dict.mem_of_get? hcurrent)
      have hj' : (s.jobs.set current.id new).get? id = some job' := hj'
      rw [Dict.get?_set hs.jobKeys] at hj'
      split at hj'
      · next heq =>
          cases hj'
          have hsame : job = current := by
            rw [heq, ← hcid] at hj
            exact Option.some.inj (hj.symm.trans hcurrent)
          subst hsame
          obtain ⟨_, htrigger, hcount, _, hat, hone⟩ := settleJob_ok hnew
          refine ⟨htrigger, ?_, ?_⟩
          · rw [hcount]
            congr 1
            exact if_congr (delivers_settled hs hfire hpending hkey).symm rfl rfl
          · by_cases hevery : job.trigger = .every
            · have hlt := advance_lt hcron hvalid hevery (hat hevery)
              exact Or.inr ⟨hevery, by omega, now, rfl, by omega⟩
            · exact Or.inl (hone hevery)
      · next hne =>
          cases hj.symm.trans hj'
          refine .same (not_delivers_of_status ?_)
          rw [ScheduleState.status?, status_set hs, if_neg]
          rintro hk
          exact hne (by rw [hid, ← hcid, ← hs.fire_id hfire, ← hk]; rfl)
  | @recovered now jobs hjobs =>
      obtain ⟨⟨k, old⟩, hold, hoid, hrecover⟩ :=
        mem_of_forall₂ (recoverJobs_ok hjobs) (Dict.mem_of_get? hj')
      cases hoid
      cases hj.symm.trans (Dict.get?_of_mem hs.jobKeys hold)
      have hrecover : store.recoverJob s.fires (aware now) job = .ok job' := hrecover
      obtain ⟨_, htrigger, hcount, _, hat⟩ := recoverJob_ok hrecover
      have hno : ¬ Delivers s { s with jobs } job := not_delivers_of_status rfl
      refine ⟨htrigger, ?_, ?_⟩
      · rw [hcount, if_neg hno]
        omega
      · refine hat.imp (fun hsame => hsame) fun hmoved => ?_
        obtain ⟨_, hdue, hevery, hnext⟩ := hmoved
        have hlt := advance_lt hcron hvalid hevery hnext
        exact ⟨hevery, by omega, now, rfl, hlt⟩

end Step

/-! ## A request that is made again -/

section Replay

variable {store : JobStore} {s t : ScheduleState}

/-- What `add` returns is stored with its request. -/
theorem add_stored {key : String} {job : ScheduledJob} {response : String} {operation : Operation}
    (hs : Settled store s) (h : store.add s key job response = .ok (operation, t)) :
    t.operations.get? key = some operation ∧ operation.kind = .schedule ∧
      operation.digest = .job job := by
  obtain ⟨hupdate, _⟩ := change_ok h
  obtain ⟨found, hfound, hupdate⟩ := Except.bind_eq_ok.mp hupdate
  cases found with
  | some stored =>
      cases hupdate
      exact previous_stored hfound
  | none =>
      have hset (o : Operation) : (s.operations.set key o).get? key = some o := by
        rw [Dict.get?_set hs.operationKeys, if_pos rfl]
      obtain ⟨_, _, hupdate⟩ := Except.bind_eq_ok.mp hupdate
      split at hupdate
      · obtain ⟨_, _, hupdate⟩ := Except.bind_eq_ok.mp hupdate
        cases hupdate
        exact ⟨hset _, rfl, rfl⟩
      · obtain ⟨_, _, hupdate⟩ := Except.bind_eq_ok.mp hupdate
        cases hupdate
        exact ⟨hset _, rfl, rfl⟩

/-- What `cancel` returns is stored with its request. -/
theorem cancel_stored {key : String} {jobIds : List String} {operation : Operation}
    (hs : Settled store s) (h : store.cancel s key jobIds = .ok (operation, t)) :
    t.operations.get? key = some operation ∧ operation.kind = .cancel ∧
      operation.digest = .ids jobIds := by
  obtain ⟨hupdate, _⟩ := change_ok h
  obtain ⟨found, hfound, hupdate⟩ := Except.bind_eq_ok.mp hupdate
  cases found with
  | some stored =>
      cases hupdate
      exact previous_stored hfound
  | none =>
      obtain ⟨_, _, hupdate⟩ := Except.bind_eq_ok.mp hupdate
      obtain ⟨_, _, hupdate⟩ := Except.bind_eq_ok.mp hupdate
      cases hupdate
      refine ⟨?_, rfl, rfl⟩
      show (s.operations.set key _).get? key = _
      rw [Dict.get?_set hs.operationKeys, if_pos rfl]

theorem add_again {key : String} {job : ScheduledJob} {operation : Operation}
    (hencode : store.encode s = .ok ()) (hstored : s.operations.get? key = some operation)
    (hkind : operation.kind = .schedule) (hdigest : operation.digest = .job job) (response : String) :
    store.add s key job response = .ok (operation, s) := by
  have hprevious : JobStore.previous s key .schedule (.job job) = .ok (some operation) := by
    rw [JobStore.previous, hstored]
    exact if_pos ⟨hkind, hdigest⟩
  rw [JobStore.add, JobStore.change, hencode, hprevious]
  show (store.encode s >>= fun _ => .ok (operation, s)) = _
  rw [hencode]
  rfl

theorem cancel_again {key : String} {jobIds : List String} {operation : Operation}
    (hencode : store.encode s = .ok ()) (hstored : s.operations.get? key = some operation)
    (hkind : operation.kind = .cancel) (hdigest : operation.digest = .ids jobIds) :
    store.cancel s key jobIds = .ok (operation, s) := by
  have hprevious : JobStore.previous s key .cancel (.ids jobIds) = .ok (some operation) := by
    rw [JobStore.previous, hstored]
    exact if_pos ⟨hkind, hdigest⟩
  rw [JobStore.cancel, JobStore.change, hencode, hprevious]
  show (store.encode s >>= fun _ => .ok (operation, s)) = _
  rw [hencode]
  rfl

end Replay

/-! ## The ledger -/

/-- What holds of the fires, the jobs and the operations of a document, and of every
run from it. -/
structure Ledger (store : JobStore) (s : ScheduleState) : Prop where
  /-- A job and a time have one record. -/
  one_record : s.fires.keys.Nodup ∧ ∀ e ∈ s.fires, e.1 = fireKey e.2.job
  /-- A record stays, and once it is not pending it stays as it is. -/
  leaves_once : ∀ t, (scheduleMachine store).Path Machine.always s t →
    ∀ key fire, s.fires.get? key = some fire → ∃ fire', t.fires.get? key = some fire' ∧
      fire'.job = fire.job ∧ (fire.status ≠ .pending → fire' = fire)
  one_pending : ∀ id job, s.jobs.get? id = some job → ∀ e ∈ s.fires, ∀ e' ∈ s.fires,
    e.2.job.id = id → e'.2.job.id = id → e.2.status = .pending → e'.2.status = .pending → e = e'
  /-- A job that stays counts the delivery of its current fire, and goes on past the
  time of the call. -/
  moved : ∀ a t, (scheduleMachine store).next s a = some t → ∀ id job job',
    s.jobs.get? id = some job → t.jobs.get? id = some job' → Moved s t a.now job job'
  add_again : ∀ key job response operation t,
    store.add s key job response = .ok (operation, t) →
    ∀ u, (scheduleMachine store).Path Machine.always t u → ∀ response',
      store.add u key job response' = .ok (operation, u)
  cancel_again : ∀ key jobIds operation t, store.cancel s key jobIds = .ok (operation, t) →
    ∀ u, (scheduleMachine store).Path Machine.always t u →
      store.cancel u key jobIds = .ok (operation, u)
  room : s.active ≤ scheduleMaxActiveJobs

/-- In every state of every run, when the next time of a cron expression is later. -/
theorem fires_once {store : JobStore} (hcron : store.calendar.Advances) {s : ScheduleState}
    (h : (scheduleMachine store).Reachable s) : Ledger store s := by
  have hs := settled_reachable h
  refine
    { one_record := ⟨hs.fireKeys, fun e he => hs.fire_key he⟩
      leaves_once := fun t ht => (path_stays hs ht).fires
      one_pending := ?_
      moved := fun a t ht id job job' hj hj' => (next_published ht).1.moved hcron hs hj hj'
      add_again := ?_
      cancel_again := ?_
      room := hs.room }
  · intro id job hjob e he e' he' hid hid' hp hp'
    obtain ⟨current, hcurrent, hkey⟩ := hs.current e he hp
    obtain ⟨current', hcurrent', hkey'⟩ := hs.current e' he' hp'
    rw [hid] at hcurrent
    rw [hid'] at hcurrent'
    cases (Dict.get?_of_mem hs.jobKeys hcurrent).symm.trans (Dict.get?_of_mem hs.jobKeys hcurrent')
    exact List.inj_on_of_nodup_map hs.fireKeys he he' (hkey.symm.trans hkey')
  · intro key job response operation t hadd u hu response'
    have hnext : (scheduleMachine store).next s (.add key job response) = some t := by
      show some (((store.add s key job response).map (·.2)).toOption.getD s) = some t
      rw [hadd]
      rfl
    have ht := settled_next hs hnext
    obtain ⟨hstored, hkind, hdigest⟩ := add_stored hs hadd
    have hu' : Settled store u := hu.invariant (fun _ _ _ hi _ hn => settled_next hi hn) ht
    exact add_again hu'.encoded ((path_stays ht hu).operations _ _ hstored) hkind hdigest response'
  · intro key jobIds operation t hcancel u hu
    have hnext : (scheduleMachine store).next s (.cancel key jobIds) = some t := by
      show some (((store.cancel s key jobIds).map (·.2)).toOption.getD s) = some t
      rw [hcancel]
      rfl
    have ht := settled_next hs hnext
    obtain ⟨hstored, hkind, hdigest⟩ := cancel_stored hs hcancel
    have hu' : Settled store u := hu.invariant (fun _ _ _ hi _ hn => settled_next hi hn) ht
    exact cancel_again hu'.encoded ((path_stays ht hu).operations _ _ hstored) hkind hdigest

/-! ## A job of every second -/

/-- The clock of the expression for every second: the first whole second from the
time after which to fire, or after the previous time. -/
def everySecond : Calendar where
  zoneKnown tz := tz = "UTC"
  nextFireTime _ _ previous after :=
    let start := match previous with
      | none => after
      | some d => aware d + 1
    .ok (DateTime.utc? (-(-start / 1000000) * 1000000))

theorem aware_utc {micros : Int} {d : DateTime} (h : DateTime.utc? micros = some d) : aware d = micros := by
  rw [DateTime.utc?] at h
  split at h
  · cases h
    rfl
  · cases h

theorem everySecond_advances : everySecond.Advances := by
  intro expr tz after d h
  obtain ⟨_, _, h⟩ := Except.bind_eq_ok.mp h
  obtain ⟨result, hresult, h⟩ := Except.bind_eq_ok.mp h
  cases hresult
  cases hutc : DateTime.utc? (-(-after / 1000000) * 1000000) with
  | none =>
      rw [hutc] at h
      cases h
  | some first =>
      have hfirst := aware_utc hutc
      rw [hutc] at h
      dsimp only at h
      split at h
      · obtain ⟨late, hlate, h⟩ := Except.bind_eq_ok.mp h
        have hlate := Except.ok.inj hlate
        cases late with
        | none => cases h
        | some second =>
            have hsecond := aware_utc hlate
            cases h
            show after < aware second
            dsimp only at hsecond
            omega
      · cases h
        show after < aware first
        omega

def exampleStore : JobStore := ⟨"jobs.json", everySecond⟩

theorem exampleTime_inRange (n : Fin 10000) : InRange (n * 500000) := by
  have hlt := n.isLt
  rw [InRange]
  omega

/-- So many half seconds of 1970. -/
def exampleTime (n : Fin 10000) : DateTime := ⟨n * 500000, some 0, exampleTime_inRange n⟩

def exampleJob : ScheduledJob :=
  { trigger := .every, tier := .instant, fireAt := exampleTime 2, channel := "telegram",
    chatId := "1", cronExpr := some "* * * * * *", message := some "hi",
    createdAt := exampleTime 0, id := "job" }

/-- Added, fired, delivered half a second late, and fired again. -/
def exampleFires : List ScheduleAction :=
  [.add "add" exampleJob "ok", .startFire exampleJob,
    .settle (fireKey exampleJob) .delivered (exampleTime 3) none,
    .startFire { exampleJob with fireAt := exampleTime 4 }]

def exampleFired : ScheduleState := ((scheduleMachine exampleStore).run {} exampleFires).getD {}

theorem exampleFired_reachable : (scheduleMachine exampleStore).Reachable exampleFired := by
  have hstart : (scheduleMachine exampleStore).start {} := rfl
  exact Machine.reach_getD hstart (fun _ _ _ => trivial) (by decide)

theorem fires_once_example : Ledger exampleStore exampleFired ∧
    (exampleFired.jobs.get? "job").map (fun job => (aware job.fireAt, job.runCount)) =
      some (2000000, 1) ∧
    exampleFired.status? ⟨"job", 1000000⟩ = some .delivered ∧
    exampleFired.status? ⟨"job", 2000000⟩ = some .pending := by
  have hcron : exampleStore.calendar.Advances := everySecond_advances
  exact ⟨fires_once hcron exampleFired_reachable, by decide⟩

end MonoAgent.Scheduler
