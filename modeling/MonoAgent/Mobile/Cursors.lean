import MonoAgent.Mobile.Delivery

/-!
# The rows of a device over a run

The cursors of a device never go back.  A row is deleted only by an acknowledgement, or
when the device goes on from a client that is ahead of it.  With what a device is sent,
no event is lost that the client is not told of by a reset.
-/

namespace MonoAgent.Mobile

open MonoAgent.Lib

variable {s t : Gateway} {c : Nat} {w : Window}

/-- A row leaves the inbox when it is acknowledged, or when the device goes on from a client that is ahead of
it, in the transaction that stores the reset. -/
def Gateway.Deletes (s t : Gateway) (e : Event) : GatewayAction → Prop
  | .act _ (.acknowledge n) => e.seq ≤ n ∧ n ≤ s.device.sent
  | .register _ lastAck _ _ => s.device.next ≤ lastAck ∧ ∃ r ∈ t.device.inbox, r.isReset = true ∧ e.seq < r.seq
  | _ => False

/-- What one step does to the rows of a device that is not revoked. -/
structure Gateway.Runs (s t : Gateway) (a : GatewayAction) : Prop where
  acked : s.device.acked ≤ t.device.acked
  sent : s.device.sent ≤ t.device.sent
  next : s.device.next ≤ t.device.next
  deletes : ∀ e ∈ s.device.inbox, e ∉ t.device.inbox → s.Deletes t e a

theorem Gateway.Runs.same {a : GatewayAction} (h : t.device = s.device) : s.Runs t a := by
  refine ⟨?_, ?_, ?_, fun e he hne => absurd (h ▸ he) hne⟩
  · rw [h]
  · rw [h]
  · rw [h]

theorem Gateway.Runs.append {a : GatewayAction} (type : String) (now : Nat)
    (h : t.device = (s.device.append type now).1) : s.Runs t a := by
  refine ⟨?_, ?_, ?_, fun e he hne => absurd (h ▸ List.mem_append_left _ he) hne⟩
  · rw [h]
    exact Nat.le_refl _
  · rw [h]
    exact Nat.le_refl _
  · rw [h]
    exact Nat.le_succ _

/-- The step of a socket that advances a cursor. -/
theorem Gateway.Runs.advances {c : Nat} {a : SocketAction} (h : s.device.Advances a t.device) :
    s.Runs t (.act c a) := by
  generalize ht : t.device = d at h
  cases h with
  | markSent n h =>
      obtain ⟨hle, _, rfl⟩ := Device.markSent_ok h
      refine ⟨by rw [ht], by rw [ht]; exact hle, by rw [ht], fun e he hne => absurd ?_ hne⟩
      rw [ht]
      exact he
  | acknowledge n h =>
      obtain ⟨hle, hsent, rfl⟩ := Device.acknowledge_ok h
      refine ⟨by rw [ht]; exact hle, by rw [ht], by rw [ht], fun e he hne => ⟨?_, hsent⟩⟩
      rw [ht] at hne
      have hnot : ¬ n < e.seq := fun hlt => hne (List.mem_filter.mpr ⟨he, by simpa using hlt⟩)
      omega

theorem Gateway.Runs.store {a : GatewayAction} {type : String} {now : Nat} (ht : t = s.store type now) : s.Runs t a := by
  refine .append type now ?_
  rw [ht]
  obtain ⟨d, e, happend, hstore⟩ := store_ok (s := s) type now
  rw [happend]
  rcases hstore with ⟨hs, _⟩ | ⟨_, _, _, _, _, _, hs⟩
  · rw [hs]
    rfl
  · rw [hs]
    rfl

theorem Gateway.Runs.resumes {lastAck now cutoff : Nat} (hd : s.device.Inv)
    (h : s.device.Resumes lastAck now t.device w) : s.Runs t (.register c lastAck now cutoff) := by
  generalize ht : t.device = d at h
  cases h with
  | anew h => exact .append _ _ ht
  | replay h hle => exact .append _ _ ht
  | reset h hle he hreset hlast => exact .same ht
  | after h hle he hreset htail hlast hne => exact .same ht
  | rebase h =>
      obtain ⟨hle, rfl, rfl⟩ := Device.rebase_ok h
      have hacked := hd.acked
      have hsent := hd.sent
      have hlen := hd.length
      refine ⟨?_, ?_, ?_, fun e he _ => ⟨hle, ⟨lastAck + 1, resetRequired, now⟩, ?_, rfl, ?_⟩⟩
      · rw [ht]
        change s.device.acked ≤ lastAck
        omega
      · rw [ht]
        change s.device.sent ≤ lastAck
        omega
      · rw [ht]
        change s.device.next ≤ lastAck + 2
        omega
      · rw [ht]
        exact List.mem_cons_self
      · have hbound := (hd.inbox.bounds he).2
        change e.seq < lastAck + 1
        omega

theorem runs_next {a : GatewayAction} (hd : s.device.Inv) (hn : gatewayMachine.next s a = some t)
    (hrev : t.device.revoked = false) : s.Runs t a := by
  cases a with
  | authenticate =>
      replace hn : s.authenticate = some t := hn
      rw [Gateway.authenticate] at hn
      split at hn
      · cases hn
      · cases hn
        exact .same rfl
  | otherAuthenticates =>
      cases hn
      exact .same rfl
  | register c lastAck now cutoff =>
      obtain ⟨k, hk, _, hcase⟩ := register_ok hn
      rcases hcase with ⟨_, _, _, rfl⟩ | ⟨d, w, place, hprep, _, rfl⟩
      · exact .same rfl
      · exact .resumes hd (prepareResume_ok hprep)
  | act c a =>
      obtain ⟨k, u, hk, hu, rfl⟩ := act_ok hn
      rcases act_device a hu with hdev | ⟨_, hdev⟩
      · exact .same hdev
      · exact .advances hdev
  | publish type now =>
      cases hn
      rw [Gateway.publish]
      split
      · exact .same rfl
      · exact .store rfl
  | publishTo type now epoch =>
      cases hn
      cases epoch with
      | none => exact .store rfl
      | some n =>
          rw [Gateway.publishTo]
          split
          · exact .store rfl
          · exact .same rfl
  | revoke =>
      cases hn
      rw [revoke_ok.1] at hrev
      cases hrev
  | revokeEnds c =>
      replace hn : s.revokeEnds c = some t := hn
      rw [Gateway.revokeEnds] at hn
      split at hn
      · obtain ⟨_, _, _, hu, rfl⟩ := act_ok hn
        cases hu
        exact .same rfl
      · cases hn
  | stop =>
      cases hn
      exact .same rfl
  | restart =>
      cases hn
      exact .same rfl

/-- What the gateway promises of a device that is not revoked, in a state that is reached. -/
structure Gateway.Delivers (s : Gateway) : Prop where
  ascending : ∀ k ∈ s.sockets, Ascending k.lastAck k.out
  /-- The events of a connection are consecutive, but for a jump that a reset makes. -/
  sequence : ∀ k ∈ s.sockets, k.late = false → Consecutive k.lastAck k.out
  late : ∀ c k, s.active = some c → s.sockets[c]? = some k → k.late = false
  acked : s.device.acked ≤ s.device.sent
  sent : s.device.sent < s.device.next
  /-- What the sent cursor has passed was put on a connection, or is before a reset that was, or was passed by a
  client that was ahead of the device. -/
  covered : ∀ e ∈ s.stored, e.seq ≤ s.device.sent → s.Covered e ∨ e.seq ≤ s.rebased
  inbox : s.device.inbox.map Event.seq = List.range' (s.device.acked + 1) (s.device.next - 1 - s.device.acked)

/-- Over every run of a device whose client resumes after what it has received, or ahead of the device: no event is lost
silently, and a step takes no cursor back and deletes only what is acknowledged or rebased. -/
theorem delivery_whole (h : gatewayMachine.Reach Honest s) (hr : s.device.revoked = false) :
    s.Delivers ∧ ∀ a t, gatewayMachine.next s a = some t → t.device.revoked = false → s.Runs t a := by
  have hc := connectionsInv_reach h hr
  have hd := deliveryInv_reach h hr
  have hdev := hc.device
  have hsequence (k : Socket) (hk : k ∈ s.sockets) :
      Ascending k.lastAck k.out ∧ (k.late = false → Consecutive k.lastAck k.out) := by
    obtain ⟨i, hi⟩ := List.mem_iff_getElem?.mp hk
    exact (hc.sockets i k hi).sequence
  refine ⟨⟨fun k hk => (hsequence k hk).1, fun k hk => (hsequence k hk).2, fun c k hact hk => ?_, hdev.acked, hdev.sent,
    fun e he hle => ?_, ?_⟩, fun a t hn hrev => runs_next hdev hn hrev⟩
  · obtain ⟨x, hx, ha⟩ := hc.active c hact
    cases hk.symm.trans hx
    exact ha.late
  · rcases Nat.lt_or_ge s.rebased e.seq with hlt | hge
    · exact Or.inl (hd.sent e he hlt hle)
    · exact Or.inr hge
  · have hlen := hdev.length
    rw [Numbered.map_eq.mp hdev.inbox]
    congr 1
    omega

/-- A client that resumes after a week: the event is not replayed, and the cursor passes it with the reset. -/
def expiredRun : List GatewayAction :=
  [.publish "message.final" 0, .authenticate, .register 0 0 10 5, .act 0 .send, .act 0 .ended]

theorem expiredRun_reach : gatewayMachine.Reach Honest ((gatewayMachine.run {} expiredRun).getD {}) := by
  refine Machine.reach_getD rfl (fun a ha s => ?_) (by decide)
  cases a with
  | register c lastAck now cutoff =>
      have hzero : lastAck = 0 := by
        simp [expiredRun] at ha
        exact ha.2.1
      exact Or.inl (by omega)
  | _ => trivial

theorem delivery_whole_example : ((gatewayMachine.run {} expiredRun).getD {}).Delivers :=
  (delivery_whole expiredRun_reach (by decide)).1

theorem sent_passes_unsent : ∃ s e, gatewayMachine.Reach Honest s ∧ s.device.revoked = false ∧ e ∈ s.stored ∧
    e.seq ≤ s.device.sent ∧ ¬ s.Put e := by
  refine ⟨_, ⟨1, "message.final", 0⟩, expiredRun_reach, by decide, by decide, by decide, ?_⟩
  have hout : ∀ k ∈ ((gatewayMachine.run {} expiredRun).getD {}).sockets, (⟨1, "message.final", 0⟩ : Event) ∉ k.out := by
    decide
  exact fun ⟨k, hk, he⟩ => hout k hk he

end MonoAgent.Mobile
