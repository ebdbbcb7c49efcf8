import MonoAgent.Lib.Dict
import MonoAgent.Lib.Machine
import MonoAgent.Scheduler.Schedule

/-!
# The store of jobs, operations and fires

Every call reads the file, changes what it read and publishes it whole, under one
lock.  `change` checks the document before and after; a call that raises publishes
nothing.  A digest is modelled by what it digests, so an operation carries its
request and a fire is keyed by its job and nominal time.
-/

namespace MonoAgent.Scheduler

open MonoAgent.Lib MonoAgent.Session

/-! ## The document -/

inductive OperationKind where
  | schedule | cancel
deriving DecidableEq, Repr

/-- What the digest of an operation digests. -/
inductive Request where
  | job (job : ScheduledJob)
  | ids (jobIds : List String)
deriving DecidableEq

inductive OperationOutcome where
  | success | error
deriving DecidableEq, Repr

structure Operation where
  kind : OperationKind
  digest : Request
  jobIds : List String
  outcome : OperationOutcome
  response : String
deriving DecidableEq

/-- `Operation.check_ids`, and the length of the response. -/
def Operation.check (o : Operation) : Except Error Unit := do
  ensure (o.response ≠ "") ⟨.valueError, "String should have at least 1 character"⟩
  ensure ("" ∉ o.jobIds ∧ o.jobIds.Nodup) ⟨.valueError, "调度回执任务 ID 必须非空且唯一"⟩
  ensure (o.kind = .schedule → o.jobIds.length = if o.outcome = .success then 1 else 0)
    ⟨.valueError, "新增调度回执与任务数量不一致"⟩

inductive FireStatus where
  | pending | delivered | failed | cancelled
deriving DecidableEq, Repr

/-- What `fire_key` digests. -/
structure FireKey where
  id : String
  fireAt : Int
deriving DecidableEq, Repr

def fireKey (job : ScheduledJob) : FireKey := ⟨job.id, aware job.fireAt⟩

structure Fire where
  job : ScheduledJob
  status : FireStatus := .pending
  error : Option String := none
deriving DecidableEq

def Fire.key (f : Fire) : FireKey := fireKey f.job

structure ScheduleState where
  jobs : Dict String ScheduledJob := []
  operations : Dict String Operation := []
  fires : Dict FireKey Fire := []
deriving DecidableEq

/-- The number of jobs that are enabled. -/
def ScheduleState.active (s : ScheduleState) : Nat := List.countP (fun e => e.2.enabled) s.jobs

/-! ## Validation -/

/-- `JobStore`. -/
structure JobStore where
  path : String
  calendar : Calendar

namespace JobStore

variable (store : JobStore)

/-- An error about the whole document. -/
def invalid (text : String) : Error := ⟨.valueError, "job_store " ++ text ++ "：path=" ++ store.path⟩

/-- `_schema_error`. -/
def schemaError (index : Nat) (detail : String) : Error :=
  ⟨.valueError, "job_store 任务 schema 无效：path=" ++ store.path ++ " index=" ++ toString index ++
    " " ++ detail⟩

def validateJobIdentity (job : ScheduledJob) (index : Nat) : Except Error Unit := do
  ensure (job.id ≠ "") (store.schemaError index "id 无效")
  ensure (job.channel ≠ "") (store.schemaError index "channel 无效")
  ensure (job.chatId ≠ "") (store.schemaError index "chat_id 无效")
  ensure (job.timezone ≠ "") (store.schemaError index "timezone 无效")
  ensure (store.calendar.zoneKnown job.timezone)
    (store.schemaError index ("timezone 无效 timezone='" ++ job.timezone ++ "'"))

def validateJobPayload (job : ScheduledJob) (index : Nat) : Except Error Unit := do
  ensure (job.tier = .instant → job.message.getD "" ≠ "")
    (store.schemaError index "instant 任务缺少 message")
  ensure (job.tier = .soft → job.prompt.getD "" ≠ "")
    (store.schemaError index "soft 任务缺少 prompt")
  ensure (0 ≤ job.runCount) (store.schemaError index "run_count 无效")

/-- A job that fires again has one kind of period. -/
def validateJobSchedule (job : ScheduledJob) (index : Nat) : Except Error Unit := do
  if job.trigger = .every then
    ensure (job.intervalSeconds.isSome ≠ job.cronExpr.isSome)
      (store.schemaError index "every 任务必须且只能有一种周期")
    ensure (∀ seconds ∈ job.intervalSeconds, 0 < seconds)
      (store.schemaError index "interval_seconds 无效")
    ensure (∀ expr ∈ job.cronExpr, isCronExpr expr) (store.schemaError index "cron_expr 无效")
  else
    ensure (job.intervalSeconds = none ∧ job.cronExpr = none)
      (store.schemaError index "非 every 任务不能带周期字段")

/-- `_validate_job`. -/
def validateJob (job : ScheduledJob) (index : Nat) : Except Error Unit := do
  store.validateJobIdentity job index
  store.validateJobPayload job index
  store.validateJobSchedule job index

def checkJob (entry : (String × ScheduledJob) × Nat) : Except Error Unit := do
  ensure (entry.1.1 = entry.1.2.id) (store.invalid "任务 ID 与字典键不一致")
  store.validateJob entry.1.2 entry.2

def checkOperation (entry : String × Operation) : Except Error Unit := do
  ensure (entry.1 ≠ "") (store.invalid "操作 key 无效")
  entry.2.check

/-- A settled fire says why, unless it was delivered. -/
def checkFire (entry : (FireKey × Fire) × Nat) : Except Error Unit := do
  let fire := entry.1.2
  store.validateJob fire.job entry.2
  ensure (if fire.status = .pending ∨ fire.status = .delivered then fire.error = none
    else fire.error.getD "" ≠ "") (store.invalid "触发状态无效")
  ensure (entry.1.1 = fire.key) (store.invalid "触发身份不一致")

/-- `encode`, as what it refuses. -/
def encode (s : ScheduleState) : Except Error Unit := do
  s.jobs.zipIdx.forM store.checkJob
  s.operations.forM store.checkOperation
  s.fires.zipIdx.forM store.checkFire

/-! ## Calls -/

/-- `_change`. -/
def change {α : Type} (s : ScheduleState) (update : ScheduleState → Except Error (α × ScheduleState)) :
    Except Error (α × ScheduleState) := do
  store.encode s
  let changed ← update s
  store.encode changed.2
  return changed

/-- `_previous`. -/
def previous (s : ScheduleState) (key : String) (kind : OperationKind) (digest : Request) :
    Except Error (Option Operation) :=
  match s.operations.get? key with
  | none => .ok none
  | some operation =>
      if operation.kind = kind ∧ operation.digest = digest then .ok (some operation)
      else .error ⟨.valueError, "调度操作 key 已用于不同请求"⟩

/-- A job that was not asked for before, unless there are too many. -/
def addNew (s : ScheduleState) (key : String) (job : ScheduledJob) (response : String) :
    Except Error (Operation × ScheduleState) := do
  ensure (job.id ∉ s.jobs.keys) ⟨.valueError, "新增调度任务 ID 已存在"⟩
  if s.active ≥ scheduleMaxActiveJobs then
    let operation : Operation := ⟨.schedule, .job job, [], .error,
      "schedule_capacity_reached：当前已有 " ++ toString s.active ++ " 个活动定时任务，默认上限为 " ++
        toString scheduleMaxActiveJobs ++ " 个。请先确认要移除的任务。"⟩
    operation.check
    return (operation, { s with operations := s.operations.set key operation })
  else
    let operation : Operation := ⟨.schedule, .job job, [job.id], .success, response⟩
    operation.check
    return (operation, { s with
      jobs := s.jobs.set job.id job
      operations := s.operations.set key operation })

def add (s : ScheduleState) (key : String) (job : ScheduledJob) (response : String) :
    Except Error (Operation × ScheduleState) :=
  store.change s fun s => do
    match ← previous s key .schedule (.job job) with
    | some operation => return (operation, s)
    | none => addNew s key job response

/-- The pending fires of cancelled jobs are cancelled, also those of jobs that are gone. -/
def cancelFire (jobIds : List String) (fire : Fire) : Fire :=
  if fire.job.id ∈ jobIds ∧ fire.status = .pending then
    { fire with status := .cancelled, error := some "任务已被明确取消" }
  else fire

/-- The jobs are deleted one by one. -/
def cancelNew (s : ScheduleState) (key : String) (jobIds : List String) :
    Except Error (Operation × ScheduleState) := do
  let removed := jobIds.filter (· ∈ s.jobs.keys)
  ensure removed.Nodup ⟨.keyError, "identity"⟩
  let operation : Operation := ⟨.cancel, .ids jobIds, removed, .success,
    if removed = [] then "未找到匹配的任务" else "已取消 " ++ toString removed.length ++ " 个任务"⟩
  operation.check
  return (operation, { s with
    jobs := List.filter (fun e => e.1 ∉ removed) s.jobs
    fires := List.map (fun e => (e.1, cancelFire jobIds e.2)) s.fires
    operations := s.operations.set key operation })

def cancel (s : ScheduleState) (key : String) (jobIds : List String) :
    Except Error (Operation × ScheduleState) :=
  store.change s fun s => do
    match ← previous s key .cancel (.ids jobIds) with
    | some operation => return (operation, s)
    | none => cancelNew s key jobIds

/-- `start_fire`: the fire of the time that has come, unless it is settled. -/
def startFireIn (s : ScheduleState) (job : ScheduledJob) : Option Fire × ScheduleState :=
  match s.jobs.get? job.id with
  | none => (none, s)
  | some current =>
      if current.enabled = false ∨ fireKey current ≠ fireKey job then (none, s)
      else match s.fires.get? (fireKey job) with
        | some previous => (if previous.status = .pending then some previous else none, s)
        | none =>
            let fire : Fire := { job := current }
            (some fire, { s with fires := s.fires.set fire.key fire })

def startFire (s : ScheduleState) (job : ScheduledJob) :
    Except Error (Option Fire × ScheduleState) :=
  store.change s fun s => .ok (startFireIn s job)

end JobStore

/-- How a fire is settled. -/
inductive Settlement where
  | delivered | failed
deriving DecidableEq, Repr

def Settlement.status : Settlement → FireStatus
  | .delivered => .delivered
  | .failed => .failed

namespace JobStore

variable (store : JobStore)

/-- The job of a fire that was current: it counts a delivery and goes on, or ends. -/
def settleJob (current : ScheduledJob) (settlement : Settlement) (now : Int) :
    Except Error ScheduledJob :=
  let runCount := current.runCount + if settlement = .delivered then 1 else 0
  if current.trigger = .every then
    (store.calendar.advance current (max now (aware current.fireAt))).map fun fireAt =>
      { current with fireAt, runCount }
  else .ok { current with enabled := false, runCount }

def settleIn (s : ScheduleState) (key : FireKey) (settlement : Settlement) (now : Int)
    (error : Option String) : Except Error ScheduleState :=
  match s.fires.get? key with
  | none => .error ⟨.keyError, key.id⟩
  | some fire =>
      if fire.status ≠ .pending then .ok s
      else
        let fires := s.fires.set key { fire with status := settlement.status, error }
        match s.jobs.get? fire.job.id with
        | none => .ok { s with fires }
        | some current =>
            if fireKey current ≠ key then .ok { s with fires }
            else (store.settleJob current settlement now).map fun job =>
              { s with fires, jobs := s.jobs.set current.id job }

def settle (s : ScheduleState) (key : FireKey) (settlement : Settlement) (now : DateTime)
    (error : Option String) : Except Error (Unit × ScheduleState) :=
  store.change s fun s => (store.settleIn s key settlement (aware now) error).map fun s => ((), s)

/-- A job whose time has passed without a fire: one that fires again goes on, the
others end when they are five minutes late. -/
def recoverJob (fires : Dict FireKey Fire) (now : Int) (job : ScheduledJob) :
    Except Error ScheduledJob :=
  if job.enabled = false ∨ now < aware job.fireAt ∨ fireKey job ∈ fires.keys then .ok job
  else if job.trigger = .every then
    (store.calendar.advance job now).map fun fireAt => { job with fireAt }
  else if 300 * 1000000 < now - aware job.fireAt then .ok { job with enabled := false }
  else .ok job

def recoverJobs (fires : Dict FireKey Fire) (now : Int) :
    Dict String ScheduledJob → Except Error (Dict String ScheduledJob)
  | [] => .ok []
  | e :: rest => do
      let job ← store.recoverJob fires now e.2
      let later ← recoverJobs fires now rest
      return (e.1, job) :: later

def recover (s : ScheduleState) (now : DateTime) :
    Except Error (ScheduleState × ScheduleState) :=
  store.change s fun s => (store.recoverJobs s.fires (aware now) s.jobs).map fun jobs =>
    ({ s with jobs }, { s with jobs })

end JobStore

/-! ## The machine -/

inductive ScheduleAction where
  | add (key : String) (job : ScheduledJob) (response : String)
  | cancel (key : String) (jobIds : List String)
  | startFire (job : ScheduledJob)
  | settle (key : FireKey) (settlement : Settlement) (now : DateTime) (error : Option String)
  | recover (now : DateTime)

/-- What a call publishes. -/
def ScheduleAction.run (store : JobStore) (s : ScheduleState) :
    ScheduleAction → Except Error ScheduleState
  | .add key job response => (store.add s key job response).map (·.2)
  | .cancel key jobIds => (store.cancel s key jobIds).map (·.2)
  | .startFire job => (store.startFire s job).map (·.2)
  | .settle key settlement now error => (store.settle s key settlement now error).map (·.2)
  | .recover now => (store.recover s now).map (·.2)

/-- A store whose file is missing at first.  A crash leaves the file as it is. -/
def scheduleMachine (store : JobStore) : Machine ScheduleState ScheduleAction where
  start s := s = {}
  next s a := some ((a.run store s).toOption.getD s)

end MonoAgent.Scheduler
