import MonoAgent.Mobile.Connections

/-!
# Acknowledgements

A client acknowledges what it has received.  The sent cursor is advanced after the
event is put on the connection, so a client may be faster: its acknowledgement is then
refused, and the connection is closed.
-/

namespace MonoAgent.Mobile

open MonoAgent.Lib

variable {s : Gateway} {d : Device} {k : Socket} {c : Nat} {e : Event}

/-- The cursor of an event that the client has was not advanced yet. -/
def Socket.Lags (k : Socket) (n : Nat) : Prop := ∃ m, k.drain = .written m ∧ m.seq ≤ n

/-- What was received is acknowledged, unless the cursor lags. -/
theorem Active.lags_iff (h : Active d k) (hk : k.Inv) (hready : k.ready = true) (he : e ∈ k.out) :
    d.sent < e.seq ↔ k.Lags e.seq := by
  have hle : e.seq ≤ k.front := hk.sequence.1.mem_le he
  have hsent := h.sent hready
  constructor
  · intro hlt
    cases hdrain : k.drain with
    | written m =>
        rw [hdrain] at hsent
        exact ⟨m, hdrain, by omega⟩
    | idle =>
        rw [hdrain] at hsent
        omega
    | looks =>
        rw [hdrain] at hsent
        omega
    | writing m =>
        rw [hdrain] at hsent
        omega
  · rintro ⟨m, hdrain, hm⟩
    rw [hdrain] at hsent
    omega

/-- A client acknowledges an event that it has received on its connection.  It is told of an overflow if and only
if the gateway is between the write of that event and the advance of its cursor, and the acknowledgement is accepted
if and only if it is not, and the acknowledgement does not go back. -/
theorem honest_ack (h : gatewayMachine.Reachable s) (hr : s.device.revoked = false) (hc : s.active = some c)
    (hk : s.sockets[c]? = some k) (hp : k.place = .running) (he : e ∈ k.out) :
    (s.device.acknowledge e.seq = .overflow ↔ k.Lags e.seq) ∧
      ((∃ d, s.device.acknowledge e.seq = .advance d ∧ d.acked = e.seq) ↔
        s.device.acked ≤ e.seq ∧ ¬ k.Lags e.seq) := by
  have hinv := connectionsInv_reach h hr
  obtain ⟨x, hx, hact⟩ := hinv.active c hc
  cases hk.symm.trans hx
  have hlags := hact.lags_iff (hinv.sockets c k hk) (hact.ready (by rw [hp]; rfl)) he
  have hacked := hinv.device.acked
  rw [← hlags, Device.acknowledge]
  split
  · next hback =>
      refine ⟨⟨fun hover => (by cases hover), fun hover => absurd hover (by omega)⟩, ?_, fun hok => absurd hok.1 (by omega)⟩
      rintro ⟨d, hd, _⟩
      cases hd
  · next hforward =>
      split
      · next hover =>
          refine ⟨⟨fun _ => hover, fun _ => rfl⟩, ?_, fun hok => absurd hover hok.2⟩
          rintro ⟨d, hd, _⟩
          cases hd
      · next hok =>
          exact ⟨⟨fun hover => (by cases hover), fun hover => absurd hover hok⟩, fun _ => ⟨by omega, hok⟩, fun _ => ⟨_, rfl, rfl⟩⟩

/-- A device is connected, and an event that is published is put on the connection. -/
def eagerRun : List GatewayAction :=
  [.authenticate, .register 0 0 0 0, .act 0 .send, .act 0 .ended, .publish "message.final" 0, .act 0 .take,
    .act 0 .wrote]

theorem honest_ack_example : ∃ s d, gatewayMachine.Reachable s ∧ s.device.acknowledge 1 = .advance d ∧ d.acked = 1 := by
  have hreach : gatewayMachine.Reachable ((gatewayMachine.run {} eagerRun).getD {}) :=
    Machine.reach_getD rfl (fun _ _ _ => trivial) (by decide)
  obtain ⟨k, hk⟩ : ∃ k, ((gatewayMachine.run {} eagerRun).getD {}).sockets[0]? = some k := ⟨_, rfl⟩
  have hplace : k.place = .running ∧ (⟨1, completed, 0⟩ : Event) ∈ k.out ∧
      k.drain = .written ⟨2, "message.final", 0⟩ := by
    cases hk
    decide
  obtain ⟨hp, hout, hdrain⟩ := hplace
  have hcurrent : ¬ k.Lags 1 := by
    rintro ⟨m, hm, hle⟩
    rw [hdrain] at hm
    cases hm
    exact absurd hle (by decide)
  obtain ⟨d, hd, ha⟩ := (honest_ack hreach (by decide) (by decide) hk hp hout).2.mpr ⟨by decide, hcurrent⟩
  exact ⟨_, d, hreach, hd, ha⟩

/-- The client acknowledges the event at once, and its connection is closed.  So it is when the client acknowledges
both events, the later one first. -/
theorem honest_ack_refused :
    (∃ s k t k', gatewayMachine.Reachable s ∧ s.active = some 0 ∧ s.sockets[0]? = some k ∧ k.place = .running ∧
      (⟨2, "message.final", 0⟩ : Event) ∈ k.out ∧ s.device.acknowledge 2 = .overflow ∧
      gatewayMachine.next s (.act 0 (.acknowledge 2)) = some t ∧ t.sockets[0]? = some k' ∧ k'.place = .closing) ∧
    ∃ s k t k', gatewayMachine.Reachable s ∧ s.active = some 0 ∧ s.sockets[0]? = some k ∧ k.place = .running ∧
      (⟨1, completed, 0⟩ : Event) ∈ k.out ∧ s.device.acknowledge 1 = .rollback ∧
      gatewayMachine.next s (.act 0 (.acknowledge 1)) = some t ∧ t.sockets[0]? = some k' ∧ k'.place = .closing := by
  have heager : gatewayMachine.Reachable ((gatewayMachine.run {} eagerRun).getD {}) :=
    Machine.reach_getD rfl (fun _ _ _ => trivial) (by decide)
  have hback : gatewayMachine.Reachable
      ((gatewayMachine.run {} (eagerRun ++ [.act 0 .commit, .act 0 (.acknowledge 2)])).getD {}) :=
    Machine.reach_getD rfl (fun _ _ _ => trivial) (by decide)
  exact ⟨⟨_, _, _, _, heager, rfl, rfl, rfl, by decide, rfl, rfl, rfl, rfl⟩,
    ⟨_, _, _, _, hback, rfl, rfl, rfl, by decide, rfl, rfl, rfl, rfl⟩⟩

end MonoAgent.Mobile
