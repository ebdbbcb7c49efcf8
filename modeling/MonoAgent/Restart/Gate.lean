import Mathlib
import MonoAgent.Lib.Exec
import MonoAgent.Lib.Machine
import MonoAgent.Lib.Text
import MonoAgent.Session.Message

/-!
# The restart gate

`prepare` closes the gate for new roots, `commit` waits until the permits are
released and calls the commit channel, `abort` opens the gate again.

`commit` is one step up to its wait and one step from it.  A waiter is woken when
the drain event is set and resumes at some later time, whatever happened since.
A timeout or a cancellation may hit it at any time before.

`aborts` counts the aborts that took effect, and `calls` keeps what the gate was
at each call of the commit channel.  No operation reads them.
-/

namespace MonoAgent.Restart

open MonoAgent.Lib MonoAgent.Session

/-! ## The gate -/

/-- What a gate is built with. -/
structure Settings where
  supervised : Bool
  executionEnabled : Bool
  /-- There is a commit channel. -/
  channel : Bool
  channel_ok : channel = (supervised && executionEnabled) := by decide
deriving DecidableEq

structure RestartGate where
  settings : Settings
  requestId : Option String := none
  permits : Nat := 0
  accepting : Bool := true
  /-- The event `_drained` is set. -/
  drained : Bool := true
  committed : Bool := false
deriving DecidableEq

/-- `ExternalRootPermit`. -/
structure Permit where
  requestId : String
  released : Bool := false
deriving DecidableEq

/-- `RestartRejectedError`. -/
def rejected (text : String) : Error := ⟨.runtimeError, text⟩

namespace RestartGate

def checkOpen (g : RestartGate) : Except Error Unit :=
  ensure g.accepting ⟨.restartPending, "runtime 正在等待重启，暂不接纳新 Root"⟩

def prepare (g : RestartGate) (requestId : String) : Except Error RestartGate := do
  ensure g.settings.supervised (rejected "当前进程未由 supervisor 托管")
  ensure g.settings.executionEnabled (rejected "当前 runtime 不允许重启效果")
  ensure (requestId ≠ "" ∧ strip requestId = requestId) ⟨.valueError, "restart request id 无效"⟩
  match g.requestId with
  | some current =>
      ensure (current = requestId) (rejected "已有重启请求等待提交")
      return g
  | none => return { g with requestId := some requestId, accepting := false }

/-- One permit more. -/
def issue (g : RestartGate) : RestartGate := { g with permits := g.permits + 1, drained := false }

def acquire (g : RestartGate) : Except Error (RestartGate × Permit) := do
  g.checkOpen
  return (g.issue, ⟨g.requestId.getD "", false⟩)

/-- `_acquire_child`. -/
def acquireChild (g : RestartGate) (requestId : String) : Except Error (RestartGate × Permit) := do
  ensure (requestId = "" ∨ requestId = g.requestId.getD "") (rejected "Root permit 不属于当前 gate")
  return (g.issue, ⟨requestId, false⟩)

/-- `_release`. -/
def release (g : RestartGate) (requestId : String) : Except Error RestartGate := do
  ensure (0 < g.permits) ⟨.runtimeError, "restart Root permit 重复释放"⟩
  ensure (requestId = "" ∨ requestId = g.requestId.getD "")
    ⟨.runtimeError, "restart Root permit 不属于当前 gate"⟩
  let permits := g.permits - 1
  return { g with permits, drained := g.drained || permits = 0 }

/-- `abort`, for a request that may not be the one that is prepared. -/
def abort (g : RestartGate) (requestId : String) : RestartGate :=
  if g.requestId = some requestId then
    { g with requestId := none, accepting := true, committed := false }
  else g

/-- The checks of `commit`: whether there is something to do. -/
def checkCommit (g : RestartGate) (requestId : String) : Except Error Bool := do
  ensure g.settings.executionEnabled (rejected "当前 runtime 不允许重启效果")
  ensure (g.requestId = some requestId) (rejected "restart request id 不属于当前 gate")
  if g.committed then return false
  else
    ensure g.settings.channel (rejected "当前进程没有 restart commit channel")
    return true

end RestartGate

/-! ## The machine -/

/-- A `commit` that waits for the drain event. -/
structure Waiter where
  requestId : String
  /-- The event was set since it waits. -/
  woken : Bool := false
  /-- The aborts before it was called. -/
  since : Nat
deriving DecidableEq

/-- The gate at a call of the commit channel. -/
structure Call where
  requestId : String
  gate : RestartGate
  /-- The aborts before `commit` was called, and before the channel was. -/
  since : Nat
  aborts : Nat
deriving DecidableEq

structure State where
  gate : RestartGate
  permits : List Permit := []
  waiters : List Waiter := []
  aborts : Nat := 0
  calls : List Call := []
deriving DecidableEq

namespace State

def abort (s : State) (requestId : String) : State :=
  { s with
    gate := s.gate.abort requestId
    aborts := if s.gate.requestId = some requestId then s.aborts + 1 else s.aborts }

/-- Call the commit channel.  It returns or raises. -/
def call (s : State) (requestId : String) (since : Nat) (returns : Bool) : State :=
  let s : State := { s with calls := s.calls ++ [⟨requestId, s.gate, since, s.aborts⟩] }
  if returns then { s with gate := { s.gate with committed := true } } else s.abort requestId

/-- `ExternalRootPermit.release`.  The permit is marked before the gate is told. -/
def release (s : State) (i : Nat) (permit : Permit) : State :=
  let permits := s.permits.set i { permit with released := true }
  match s.gate.release permit.requestId with
  | .error _ => { s with permits }
  | .ok gate =>
      let waiters := s.waiters.map fun w => { w with woken := w.woken || gate.permits = 0 }
      { s with gate, permits, waiters }

/-- `ExternalRootPermit.child`. -/
def child (s : State) (permit : Permit) : Except Error State := do
  ensure (permit.released = false) (rejected "已释放的 Root permit 不能派生子 permit")
  let admitted ← s.gate.acquireChild permit.requestId
  return { s with gate := admitted.1, permits := s.permits ++ [admitted.2] }

/-- `commit`, up to its wait. -/
def commit (s : State) (requestId : String) (returns : Bool) : State :=
  match s.gate.checkCommit requestId with
  | .error _ => s
  | .ok false => s
  | .ok true =>
      if s.gate.drained then s.call requestId s.aborts returns
      else { s with waiters := s.waiters ++ [⟨requestId, false, s.aborts⟩] }

end State

inductive GateAction where
  | prepare (requestId : String)
  | acquire
  | child (i : Nat)
  | release (i : Nat)
  /-- `returns` says what the commit channel does when it is called. -/
  | commit (requestId : String) (returns : Bool)
  /-- A waiter that was woken goes on. -/
  | resume (i : Nat) (returns : Bool)
  /-- A waiter is cancelled, or its time is up. -/
  | interrupt (i : Nat)
  | abort (requestId : String)
deriving DecidableEq

/-- The value of an operation that may be refused. -/
def State.after (s : State) (x : Except Error State) : State := x.toOption.getD s

def gateMachine : Machine State GateAction where
  start s := ∃ settings, s = { gate := { settings } }
  next s
    | .prepare requestId =>
        some (s.after ((s.gate.prepare requestId).map fun gate => { s with gate }))
    | .acquire => some (s.after (s.gate.acquire.map fun p =>
        { s with gate := p.1, permits := s.permits ++ [p.2] }))
    | .child i => s.permits[i]?.map fun permit => s.after (s.child permit)
    | .release i => s.permits[i]?.map fun permit =>
        if permit.released then s else s.release i permit
    | .commit requestId returns => some (s.commit requestId returns)
    | .resume i returns => s.waiters[i]?.bind fun w =>
        if w.woken then
          some (({ s with waiters := s.waiters.eraseIdx i } : State).call w.requestId w.since returns)
        else none
    | .interrupt i => s.waiters[i]?.map fun w =>
        ({ s with waiters := s.waiters.eraseIdx i } : State).abort w.requestId
    | .abort requestId => some (s.abort requestId)

end MonoAgent.Restart
