import MonoAgent.Lib.Exec
import MonoAgent.Lib.Text
import MonoAgent.Session.Message

/-!
# Scheduled jobs

A job fires once, or again and again by an interval or a cron expression.
`advance` is the next nominal time of a job that fires again.

What the clock library computes is a parameter: the zones it knows, and the next
time of a cron trigger.  A `datetime` lies in the years 1 to 9999, and a `timedelta` has at
most 999999999 days: arithmetic that leaves these raises `OverflowError`.
-/

namespace MonoAgent.Scheduler

open MonoAgent.Lib MonoAgent.Session

/-- `SCHEDULE_MAX_ACTIVE_JOBS`. -/
def scheduleMaxActiveJobs : Nat := 10

inductive Trigger where
  | «at» | after | every
deriving DecidableEq, Repr

inductive Tier where
  | instant | soft
deriving DecidableEq, Repr

/-- The microseconds of UTC from `datetime.min` to `datetime.max`. -/
def InRange (micros : Int) : Prop := -62135596800000000 ≤ micros ∧ micros < 253402300800000000

instance (micros : Int) : Decidable (InRange micros) := inferInstanceAs (Decidable (_ ∧ _))

/-- A time, in microseconds of UTC, and the offset it is written with.  One without
an offset is naive, and means UTC. -/
structure DateTime where
  micros : Int
  offset : Option Int
  inRange : InRange micros
deriving DecidableEq

/-- The time in UTC, if there is one. -/
def DateTime.utc? (micros : Int) : Option DateTime :=
  if h : InRange micros then some ⟨micros, some 0, h⟩ else none

/-- A `datetime` that was computed. -/
def DateTime.computed (micros : Int) : Except Error DateTime :=
  match DateTime.utc? micros with
  | some d => .ok d
  | none => .error ⟨.overflowError, "date value out of range"⟩

/-- A `timedelta`, in microseconds. -/
def timedelta (micros : Int) : Except Error Int := do
  let days := micros / 86400000000
  ensure (-2 ^ 31 ≤ days ∧ days < 2 ^ 31) ⟨.overflowError, "Python int too large to convert to C int"⟩
  ensure (-999999999 ≤ days ∧ days ≤ 999999999)
    ⟨.overflowError, "days=" ++ toString days ++ "; must have magnitude <= 999999999"⟩
  return micros

/-- `aware`, as the microseconds it stands for. -/
def aware (d : DateTime) : Int := d.micros

structure ScheduledJob where
  trigger : Trigger
  tier : Tier
  fireAt : DateTime
  channel : String
  chatId : String
  intervalSeconds : Option Int := none
  cronExpr : Option String := none
  message : Option String := none
  prompt : Option String := none
  name : Option String := none
  timezone : String := "UTC"
  createdAt : DateTime
  runCount : Int := 0
  enabled : Bool := true
  id : String
deriving DecidableEq

/-- The clock library: `ZoneInfo`, and `CronTrigger.get_next_fire_time` of the fields
of an expression, a zone, the previous time and the time after which to fire. -/
structure Calendar where
  zoneKnown : String → Bool
  nextFireTime : List String → String → Option DateTime → Int → Except Error (Option DateTime)

/-- `is_cron_expr`. -/
def isCronExpr (s : String) : Bool :=
  let parts := words (strip s)
  parts.length = 5 || parts.length = 6

/-- The error of a cron expression. -/
def cronError (expr : String) : Error := ⟨.valueError, "无效的 cron 表达式: '" ++ expr ++ "'"⟩

namespace Calendar

variable (calendar : Calendar)

/-- `next_cron_fire`. -/
def nextCronFire (expr tz : String) (after : Int) : Except Error DateTime := do
  let parts := words (strip expr)
  ensure (parts.length = 5 ∨ parts.length = 6) (cronError expr)
  let result ← calendar.nextFireTime parts tz none after
  let late ← match result with
    | some d => if aware d ≤ after then calendar.nextFireTime parts tz (some d) after else .ok result
    | none => .ok none
  match late with
  | none => throw (cronError expr)
  | some d => return { d with offset := some (d.offset.getD 0) }

/-- `advance`: past `after`, in whole periods from the nominal time. -/
def advance (job : ScheduledJob) (after : Int) : Except Error DateTime :=
  match job.cronExpr, job.intervalSeconds with
  | some expr, interval =>
      if expr = "" then
        match interval with
        | some seconds => step job seconds after
        | none => .error ⟨.runtimeError, "AssertionError"⟩
      else calendar.nextCronFire expr job.timezone after
  | none, some seconds => step job seconds after
  | none, none => .error ⟨.runtimeError, "AssertionError"⟩
where
  /-- `start + (max(0, (after - start) // interval) + 1) * interval`. -/
  step (job : ScheduledJob) (seconds after : Int) : Except Error DateTime := do
    let interval ← timedelta (seconds * 1000000)
    let start := aware job.fireAt
    let ahead ← timedelta ((max 0 ((after - start) / interval) + 1) * interval)
    DateTime.computed (start + ahead)

end Calendar

end MonoAgent.Scheduler
