import MonoAgent.Bus.Lane
import MonoAgent.Lib.Machine

/-!
# The outbound dispatcher

One task takes the accepted deliveries from a queue and sends each in the lane of its chat.  A
passive delivery is counted in its lane when it is published.  Other tasks mark their passive turns
in the lanes, before and after.

A section under the condition of a lane does not wait, so a publication is one step, and so is what
the dispatcher does up to its wait or its send.
-/

namespace MonoAgent.Bus

open MonoAgent.Lib

/-- `_AwaitedChannelOutbound`, by the key of its lane. -/
structure Item (K : Type) where
  key : K
  passive : Bool

/-- The lanes, the queue, and what `dispatch_outbound` has taken and where it is in the lane. -/
structure Outbound (K : Type) where
  lanes : K → LaneState := fun _ => {}
  queue : List (Item K) := []
  current : Option (Item K × Party) := none
  stopped : Bool := false

inductive OutboundAction (K : Type) where
  /-- `publish_channel_outbound_awaited`. -/
  | publish (item : Item K)
  | markPending (k : K)
  /-- The end of a passive turn. -/
  | markDone (k : K)
  | take
  /-- The dispatcher was woken. -/
  | resume
  /-- The provider is done, and a receipt is there. -/
  | sent
  /-- The send raises. -/
  | raised

namespace Outbound

variable {K : Type} [DecidableEq K] (s : Outbound K)

/-- A state of a lane is deleted when nobody needs it. -/
def put (k : K) (v : LaneState) : Outbound K :=
  { s with lanes := Function.update s.lanes k (if v.kept then v else {}) }

/-- `run_passive` of a registered send, or `run_non_passive`, up to its wait or its send. -/
def enterLane (item : Item K) (v : LaneState) : LaneState × Party :=
  if item.passive then (v.runRegistered .registered).getD (v, .left) else v.runNonPassive

/-- The dispatcher is in the lane of its item, or `run_passive` has raised. -/
def serve (item : Item K) (r : LaneState × Party) : Outbound K :=
  { s.put item.key r.1 with
    current := if r.2 = .left then none else some (item, r.2)
    stopped := s.stopped || r.2 = .left }

def next : OutboundAction K → Option (Outbound K)
  | .publish item =>
      if s.stopped then some s
      else if item.passive then
        some { s.put item.key (s.lanes item.key).markSendPending with queue := s.queue ++ [item] }
      else some { s with queue := s.queue ++ [item] }
  | .markPending k => some (s.put k (s.lanes k).markPending)
  | .markDone k => if 0 < (s.lanes k).passiveTurns then some (s.put k (s.lanes k).markDone) else none
  | .take =>
      match s.stopped, s.current, s.queue with
      | false, none, item :: rest =>
          some ({ s with queue := rest }.serve item (enterLane item (s.lanes item.key)))
      | _, _, _ => none
  | .resume =>
      s.current.bind fun c => ((s.lanes c.1.key).resume c.2).map (s.serve c.1)
  | .sent =>
      s.current.bind fun c => ((s.lanes c.1.key).sent c.2).map fun r =>
        { s.put c.1.key r.1 with current := none }
  | .raised =>
      s.current.bind fun c => ((s.lanes c.1.key).sent c.2).map fun r =>
        { s.put c.1.key r.1 with current := none, stopped := true }

end Outbound

variable {K : Type} [DecidableEq K]

def outboundMachine : Machine (Outbound K) (OutboundAction K) where
  start s := s = {}
  next := Outbound.next

namespace Outbound

/-- An accepted delivery is not settled, the dispatcher is alive, and neither it nor a provider nor
a passive turn has a step. -/
structure Wedged (s : Outbound K) : Prop where
  alive : s.stopped = false
  unsettled : s.current.isSome = true ∨ s.queue ≠ []
  take : s.next .take = none
  resume : s.next .resume = none
  sent : s.next .sent = none
  turns : ∀ k, s.next (.markDone k) = none

/-- A delivery that is not passive waits for its send: in the queue or in the lane. -/
def Awaits (s : Outbound K) (k : K) : Prop :=
  (∃ item ∈ s.queue, item.key = k ∧ item.passive = false) ∨
    ∃ item t n, s.current = some (item, .waits t n) ∧ item.key = k

/-- No passive delivery is published behind one of its chat that is not. -/
def InOrder (s : Outbound K) (a : OutboundAction K) : Prop :=
  ∀ k, a = .publish ⟨k, true⟩ → ¬ s.Awaits k

end Outbound

end MonoAgent.Bus
