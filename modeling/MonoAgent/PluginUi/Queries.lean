import MonoAgent.Lib.Dict
import MonoAgent.Lib.Machine

/-!
# Queries of plugin pages

`PluginUiQueryScheduler` runs the queries of the plugin pages of the devices.  A query is registered
under its device and request, takes the gate of its plugin and the gates of its device in turn, and
gives them back in the reverse order.  The gates are made for the first query of a device, and are
dropped when the device is cancelled.

The sections under the lock of the scheduler do not wait, so each is part of one step.  A semaphore
hands its slot to the first that waits; what was handed over and then cancelled gives it back.
-/

namespace MonoAgent.PluginUi

open MonoAgent.Lib

/-! ## Semaphores -/

/-- What `Semaphore.acquire` waits for. -/
inductive Future where
  | pending
  | granted
  | cancelled
deriving DecidableEq

/-- `asyncio.Semaphore`, with the value that it was made with, and who waits. -/
structure Semaphore where
  slots : Nat
  value : Nat
  waiters : List (Nat × Future) := []

namespace Semaphore

variable (v : Semaphore)

def make (n : Nat) : Semaphore := { slots := n, value := n }

def locked : Bool := v.value = 0 || v.waiters.any fun w => w.2 ≠ .cancelled

/-- The first future that is not done has its result. -/
def grant : List (Nat × Future) → Option (List (Nat × Future))
  | [] => none
  | w :: rest => if w.2 = .pending then some ((w.1, .granted) :: rest) else (grant rest).map (w :: ·)

def wakeUpNext : Option Semaphore :=
  (grant v.waiters).map fun waiters => { v with value := v.value - 1, waiters := waiters }

def release : Semaphore :=
  let v := { v with value := v.value + 1 }
  v.wakeUpNext.getD v

/-- The loop at the end of `acquire`. -/
def wakeRounds : Nat → Semaphore → Semaphore
  | 0, v => v
  | n + 1, v =>
      match v.wakeUpNext with
      | some u => wakeRounds n u
      | none => v

def wake : Semaphore := wakeRounds v.value v

def remove (w : Nat × Future) : Semaphore := { v with waiters := v.waiters.erase w }

/-- `Future.cancel`, of the future of a task. -/
def cancel (i : Nat) : Semaphore :=
  { v with waiters := v.waiters.map fun w => if w = (i, .pending) then (i, .cancelled) else w }

end Semaphore

/-! ## The scheduler -/

def maxDeviceQueries : Nat := 4

def maxBackgroundDeviceQueries : Nat := 2

def maxPluginQueries : Nat := 2

def maxDeviceOutstanding : Nat := 32

inductive Phase where
  | waits
  | runs
  | ended
deriving DecidableEq

/-- A call of `execute` that was admitted. -/
structure Execution where
  device : String
  requestId : String
  plugin : String
  slot : String
  /-- The gates that it has, the last one first. -/
  held : List Nat := []
  /-- The gates that it has still to enter. -/
  todo : List Nat := []
  phase : Phase := .waits
  /-- A cancellation came when its future had the result already. -/
  mustCancel : Bool := false

/-- The slots that leave the background gate alone. -/
def interactive (slot : String) : Bool := slot = "dashboard.main" || slot = "drawer.panel"

/-- The gates of a query, in the order of the `async with`. -/
def gatesOf (slot : String) (plugin background total : Nat) : List Nat :=
  if interactive slot then [plugin, total] else [plugin, background, total]

structure Scheduler where
  /-- The semaphores that were made, by number. -/
  gates : Nat → Semaphore := fun _ => .make 0
  made : Nat := 0
  /-- The total and the background gate of each device. -/
  devices : String → Option (Nat × Nat) := fun _ => none
  plugins : String × String → Option Nat := fun _ => none
  queries : Dict (String × String) Nat := []
  executions : List Execution := []
  /-- The calls of `cancel_device` that wait for tasks. -/
  cancels : List (String × List Nat) := []

/-- The gates of a path are entered, up to one that is locked. -/
def enter (i : Nat) (gates : Nat → Semaphore) (held : List Nat) :
    List Nat → (Nat → Semaphore) × List Nat × List Nat × Phase
  | [] => (gates, held, [], .runs)
  | g :: rest =>
      if (gates g).locked then
        (Function.update gates g { gates g with waiters := (gates g).waiters ++ [(i, .pending)] },
          held, g :: rest, .waits)
      else enter i (Function.update gates g { gates g with value := (gates g).value - 1 }) (g :: held) rest

/-- The gates are left, the last one first. -/
def leave (gates : Nat → Semaphore) : List Nat → (Nat → Semaphore)
  | [] => gates
  | g :: rest => leave (Function.update gates g (gates g).release) rest

local instance lawfulKey : LawfulBEq (String × String) := inferInstance

namespace Scheduler

variable (s : Scheduler)

def outstanding (device : String) : Nat := s.queries.countP fun e => e.1.1 = device

/-- `setdefault` of the gates of a device. -/
def deviceGates (device : String) : Scheduler :=
  match s.devices device with
  | some _ => s
  | none =>
      { s with
        gates := Function.update (Function.update s.gates s.made (.make maxDeviceQueries)) (s.made + 1)
          (.make maxBackgroundDeviceQueries)
        made := s.made + 2
        devices := Function.update s.devices device (some (s.made, s.made + 1)) }

/-- `setdefault` of the gate of a plugin. -/
def pluginGate (device plugin : String) : Scheduler :=
  match s.plugins (device, plugin) with
  | some _ => s
  | none =>
      { s with
        gates := Function.update s.gates s.made (.make maxPluginQueries)
        made := s.made + 1
        plugins := Function.update s.plugins (device, plugin) (some s.made) }

/-- The execution goes on to its next gates. -/
def proceed (i : Nat) (e : Execution) (gates : Nat → Semaphore) (held todo : List Nat) : Scheduler :=
  let r := enter i gates held todo
  { s with
    gates := r.1
    executions := s.executions.set i { e with held := r.2.1, todo := r.2.2.1, phase := r.2.2.2 } }

/-- The execution leaves its gates, and is taken out of the queries. -/
def finish (i : Nat) (e : Execution) (gates : Nat → Semaphore) : Scheduler :=
  { s with
    gates := leave gates e.held
    queries := s.queries.pop (e.device, e.requestId)
    executions := s.executions.set i { e with held := [], todo := [], phase := .ended } }

/-- `execute`, up to its first wait.  What is refused changes nothing. -/
def execute (device requestId plugin slot : String) : Scheduler :=
  if (device, requestId) ∈ s.queries.keys ∨ maxDeviceOutstanding ≤ s.outstanding device then s
  else
    let t := (s.deviceGates device).pluginGate device plugin
    let gates := (t.devices device).getD (0, 0)
    let todo := gatesOf slot ((t.plugins (device, plugin)).getD 0) gates.2 gates.1
    let i := t.executions.length
    let e : Execution := { device, requestId, plugin, slot, todo }
    { t with
      queries := t.queries.set (device, requestId) i
      executions := t.executions ++ [e] }.proceed i e t.gates e.held e.todo

/-- The future of an execution is done. -/
def resume (i : Nat) : Option Scheduler :=
  (s.executions[i]?).bind fun e =>
    match e.phase, e.todo with
    | .waits, g :: rest =>
        let v := s.gates g
        if (i, .granted) ∈ v.waiters then
          let v := v.remove (i, .granted)
          if e.mustCancel then
            some (s.finish i e (Function.update s.gates g { v with value := v.value + 1 }.wake))
          else some (s.proceed i e (Function.update s.gates g v.wake) (g :: e.held) rest)
        else if (i, .cancelled) ∈ v.waiters then
          some (s.finish i e (Function.update s.gates g (v.remove (i, .cancelled)).wake))
        else none
    | _, _ => none

/-- `Task.cancel`.  What runs is cancelled at an await of its provider. -/
def cancel (i : Nat) : Scheduler :=
  match s.executions[i]? with
  | some e =>
      match e.phase, e.todo with
      | .waits, g :: _ =>
          { s with
            gates := Function.update s.gates g ((s.gates g).cancel i)
            executions := s.executions.set i
              { e with mustCancel := e.mustCancel || (i, .granted) ∈ (s.gates g).waiters } }
      | _, _ => s
  | none => s

/-- The last section of `cancel_device`. -/
def cleanUp (device : String) : Scheduler :=
  if s.queries.any fun e => e.1.1 = device then s
  else
    { s with
      devices := Function.update s.devices device none
      plugins := fun key => if key.1 = device then none else s.plugins key }

/-- `cancel_device`, up to its wait for the tasks. -/
def cancelDevice (device : String) : Scheduler :=
  let tasks := (s.queries.filter fun e => e.1.1 = device).map Prod.snd
  let t := tasks.foldl cancel s
  if tasks = [] then t.cleanUp device else { t with cancels := t.cancels ++ [(device, tasks)] }

def ended (i : Nat) : Bool := (s.executions[i]?).all fun e => e.phase = .ended

end Scheduler

/-- What happens to the scheduler. -/
inductive Action where
  | execute (device requestId plugin slot : String)
  | resume (i : Nat)
  /-- The provider returns, raises or is cancelled. -/
  | provided (i : Nat)
  | cancel (i : Nat)
  | cancelDevice (device : String)
  /-- The tasks that the call waits for are done. -/
  | gathered (c : Nat)

def next (s : Scheduler) : Action → Option Scheduler
  | .execute device requestId plugin slot => some (s.execute device requestId plugin slot)
  | .resume i => s.resume i
  | .provided i => (s.executions[i]?).bind fun e => if e.phase = .runs then some (s.finish i e s.gates) else none
  | .cancel i => some (s.cancel i)
  | .cancelDevice device => some (s.cancelDevice device)
  | .gathered c =>
      (s.cancels[c]?).bind fun call =>
        if call.2.all s.ended then some ({ s with cancels := s.cancels.eraseIdx c }.cleanUp call.1) else none

def queryMachine : Machine Scheduler Action where
  start s := s = {}
  next := next

end MonoAgent.PluginUi
