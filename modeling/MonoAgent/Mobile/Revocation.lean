import MonoAgent.Mobile.Epochs

/-!
# Revocation

A revocation is stored, and the connection in the table is closed, before
`revoke_device` returns.  What it does not reach: a socket that has authenticated and
not resumed, an event that is on its way to a connection that has left the table, and
an event that is published to the device by name.
-/

namespace MonoAgent.Mobile

open MonoAgent.Lib

variable {s t : Gateway} {d : Device} {k : Socket} {u : Turn} {c : Nat}

/-! ## Sockets that send nothing more -/

/-- The websocket is closed, or the socket has no resume window and no event to send. -/
def Socket.Still (k : Socket) : Prop :=
  k.shut = true ∨ (∀ w, k.place ≠ .replacing w ∧ k.place ≠ .resuming w) ∧ ∀ e, k.drain ≠ .writing e

/-- What a socket that is still does when it is not in the table: nothing that counts. -/
structure StillTurn (d : Device) (k : Socket) (u : Turn) : Prop where
  still : u.socket.Still
  device : u.device = d
  out : u.socket.out = k.out
  command : u.command = false

theorem Socket.Still.move (hk : k.Still) {p : Place} (hp : ∀ w, p ≠ .replacing w ∧ p ≠ .resuming w) :
    Socket.Still { k with place := p } := by
  rcases hk with hk | ⟨_, he⟩
  · exact Or.inl hk
  · exact Or.inr ⟨hp, he⟩

theorem Socket.Still.drained (hk : k.Still) {p : Drain} (hp : ∀ e, p ≠ .writing e) :
    Socket.Still { k with drain := p } := by
  rcases hk with hk | ⟨hw, _⟩
  · exact Or.inl hk
  · exact Or.inr ⟨hw, hp⟩

theorem Socket.Still.shut_of_replacing (hk : k.Still) {w : Window} (hp : k.place = .replacing w) : k.shut = true :=
  hk.resolve_right fun h => (h.1 w).1 hp

theorem Socket.Still.shut_of_resuming (hk : k.Still) {w : Window} (hp : k.place = .resuming w) : k.shut = true :=
  hk.resolve_right fun h => (h.1 w).2 hp

theorem Socket.Still.shut_of_writing (hk : k.Still) {e : Event} (hp : k.drain = .writing e) : k.shut = true :=
  hk.resolve_right fun h => h.2 e hp

theorem fail_still {b : Bool} (hk : k.Still) (h : k.fail d b = some u) : StillTurn d k u := by
  obtain ⟨hs, hd, hc⟩ := fail_ok h
  exact ⟨hs ▸ hk.move fun _ => ⟨nofun, nofun⟩, hd, by rw [hs], hc⟩

theorem send_still (hk : k.Still) (h : k.send d false = some u) : StillTurn d k u := by
  rw [Socket.send] at h
  split at h
  · next w hw =>
      have hshut := hk.shut_of_resuming hw
      split at h
      · rw [if_pos hshut] at h
        cases h
      · split at h
        · split at h
          · exact fail_still (b := false) hk h
          · cases h
            exact ⟨Or.inl hshut, rfl, rfl, rfl⟩
        · rw [if_pos (Or.inr hshut)] at h
          cases h
  · cases h

theorem act_still (a : SocketAction) (hk : k.Still) (h : a.act d false k = some u) : StillTurn d k u := by
  have hrunning : ∀ w, Place.running ≠ .replacing w ∧ Place.running ≠ .resuming w := fun _ => ⟨by simp, by simp⟩
  cases a with
  | fail => exact fail_still (b := false) hk h
  | send => exact send_still hk h
  | replaced =>
      rw [SocketAction.act, Socket.replaced] at h
      split at h
      · next w hw =>
          cases h
          exact ⟨Or.inl (hk.shut_of_replacing hw), rfl, rfl, rfl⟩
      · cases h
  | ended =>
      rw [SocketAction.act, Socket.ended] at h
      split at h
      · next w hw =>
          split at h
          · cases h
          · cases h
            exact ⟨Or.inl (hk.shut_of_resuming hw), rfl, rfl, rfl⟩
      · cases h
  | take =>
      rw [SocketAction.act, Socket.take] at h
      split at h
      · cases h
        exact ⟨hk.drained (by simp), rfl, rfl, rfl⟩
      · cases h
  | wrote =>
      rw [SocketAction.act, Socket.wrote] at h
      split at h
      · next e he =>
          rw [if_pos (hk.shut_of_writing he)] at h
          cases h
      · cases h
  | sendRaised =>
      rw [SocketAction.act, Socket.sendRaised] at h
      split at h
      · cases h
        exact ⟨hk.drained (by simp), rfl, rfl, rfl⟩
      · cases h
        exact ⟨hk.drained (by simp), rfl, rfl, rfl⟩
      · cases h
  | commit =>
      rw [SocketAction.act, Socket.commit] at h
      split at h
      · cases h
        exact ⟨hk.drained (by simp), rfl, rfl, rfl⟩
      · cases h
  | acknowledge n =>
      rw [SocketAction.act, Socket.acknowledge] at h
      split at h
      · cases h
      · exact fail_still (b := false) hk h
  | command =>
      rw [SocketAction.act, Socket.command] at h
      split at h
      · cases h
      · exact fail_still (b := false) hk h
  | answered =>
      rw [SocketAction.act, Socket.answered] at h
      split at h
      · cases h
      · cases h
        exact ⟨hk.move hrunning, rfl, rfl, rfl⟩
  | flush =>
      rw [SocketAction.act, Socket.flush] at h
      split at h
      · cases h
      · exact fail_still (b := false) hk h
  | flushed =>
      rw [SocketAction.act, Socket.flushed] at h
      split at h
      · exact fail_still (b := false) hk h
      · cases h
  | replied =>
      rw [SocketAction.act, Socket.replied] at h
      split at h
      · dsimp only at h
        split at h
        · cases h
          exact ⟨hk.move hrunning, rfl, rfl, rfl⟩
        · cases h
          exact ⟨hk.move hrunning, rfl, rfl, rfl⟩
      · cases h
  | close =>
      cases h
      exact ⟨Or.inl rfl, rfl, rfl, rfl⟩
  | evict =>
      cases h
      exact ⟨hk, rfl, rfl, rfl⟩

/-! ## Runs in which nothing slips past a revocation -/

/-- The sockets, but one, send nothing more. -/
def Gateway.StillBut (s : Gateway) (c : Option Nat) : Prop :=
  ∀ i k, some i ≠ c → s.sockets[i]? = some k → k.Still

/-- No socket resumes after the revocation, unless the gateway stops; nothing is published to the device
itself once it has returned, and when it returns the sockets that it does not close send nothing more. -/
def Unpassed (s : Gateway) : GatewayAction → Prop
  | .register _ _ _ _ => s.device.revoked = false ∨ s.stopping = true
  | .publishTo _ _ epoch => s.revoked = false ∨ epoch ≠ none
  | .revoke => s.active = none → s.StillBut none
  | .revokeEnds c => s.StillBut (some c)
  | _ => True

structure RevokedInv (s : Gateway) : Prop where
  table : s.device.revoked = true → s.active = none
  revoking : s.revoking ≠ [] → s.device.revoked = true
  device : s.revoked = true → s.device.revoked = true
  still : s.revoked = true → s.StillBut none

/-- What a step leaves as it is once the device is revoked. -/
structure Final (s t : Gateway) : Prop where
  active : t.active = none
  stored : t.stored = s.stored
  commands : t.commands = s.commands
  out : t.sockets.map Socket.out = s.sockets.map Socket.out

theorem Gateway.StillBut.set (h : s.StillBut none) {k' : Socket} (hk : k'.Still) {t : Gateway}
    (ht : t.sockets = s.sockets.set c k') : t.StillBut none := by
  intro i x _ hx
  rw [ht, List.getElem?_set] at hx
  split at hx
  · split at hx
    · cases hx
      exact hk
    · cases hx
  · exact h i x nofun hx

theorem act_final {f : Act} (hf : ∀ d k u, k.Still → f d false k = some u → StillTurn d k u)
    (hactive : s.active = none) (hstill : s.StillBut none) (h : s.act f c = some t) :
    Final s t ∧ t.device = s.device ∧ t.StillBut none := by
  obtain ⟨k, u, hk, hu, rfl⟩ := act_ok h
  rw [hactive] at hu
  have hturn := hf _ _ _ (hstill c k nofun hk) hu
  refine ⟨⟨?_, rfl, ?_, map_set_same hk hturn.out⟩, hturn.device, hstill.set hturn.still rfl⟩
  · simp [hactive]
  · simp [hturn.command]

theorem RevokedInv.act {f : Act} (h : RevokedInv s) (hd : ∀ d b k u, f d b k = some u → u.device.revoked = d.revoked)
    (hf : ∀ d k u, k.Still → f d false k = some u → StillTurn d k u) (hn : s.act f c = some t) : RevokedInv t := by
  have hrevoked : t.device.revoked = s.device.revoked ∧ t.revoked = s.revoked ∧ t.revoking = s.revoking := by
    obtain ⟨k, u, _, hu, rfl⟩ := act_ok hn
    exact ⟨hd _ _ _ _ hu, rfl, rfl⟩
  obtain ⟨hdev, hrev, hing⟩ := hrevoked
  refine ⟨fun hr => ?_, fun hne => hdev.trans (h.revoking (hing ▸ hne)), fun hr => hdev.trans (h.device (hrev ▸ hr)),
    fun hr => ?_⟩
  · have hnone := h.table (hdev ▸ hr)
    obtain ⟨k, u, _, _, rfl⟩ := act_ok hn
    simp [hnone]
  · rw [hrev] at hr
    exact (act_final hf (h.table (h.device hr)) (h.still hr) hn).2.2

/-- A socket that resumes while the gateway stops is not registered. -/
theorem register_stopping {lastAck now cutoff : Nat} (hstop : s.stopping = true)
    (h : s.register c lastAck now cutoff = some t) : ∃ k, s.sockets[c]? = some k ∧
      t = { s with sockets := s.sockets.set c { k with place := .running } } := by
  obtain ⟨k, hk, h⟩ := Option.bind_eq_some_iff.mp h
  refine ⟨k, hk, ?_⟩
  split at h
  · cases h
  · exact (Option.some.inj h).symm

/-- An event is stored for a device that is not revoked. -/
theorem RevokedInv.store (h : RevokedInv s) (hrev : s.revoked = false) (type : String) (now : Nat) :
    RevokedInv (s.store type now) := by
  obtain ⟨hdev, hrev', hing, hact⟩ := store_revoked (s := s) type now
  have hnot (hr : (s.store type now).revoked = true) : False :=
    absurd (hrev.symm.trans (hrev'.symm.trans hr)) (by simp)
  refine ⟨fun hr => ?_, fun hne => hdev.trans (h.revoking (hing ▸ hne)), fun hr => (hnot hr).elim,
    fun hr => (hnot hr).elim⟩
  rcases hact with hact | hact
  · exact hact.trans (h.table (hdev ▸ hr))
  · exact hact

theorem revokedInv_next {a : GatewayAction} (h : RevokedInv s) (hok : Unpassed s a)
    (hn : gatewayMachine.next s a = some t) : RevokedInv t := by
  cases a with
  | authenticate =>
      replace hn : s.authenticate = some t := hn
      rw [Gateway.authenticate] at hn
      split at hn
      · cases hn
      · next hrev =>
          cases hn
          exact ⟨h.table, h.revoking, h.device, fun hr => absurd (h.device hr) hrev⟩
  | otherAuthenticates =>
      cases hn
      exact ⟨h.table, h.revoking, h.device, h.still⟩
  | register c lastAck now cutoff =>
      rcases hok with hrev | hstop
      rotate_left
      · obtain ⟨k, hk, rfl⟩ := register_stopping hstop hn
        exact ⟨h.table, h.revoking, h.device, fun hr =>
          (h.still hr).set ((h.still hr c k (fun hne => (by cases hne)) hk).move fun _ => ⟨Place.noConfusion, Place.noConfusion⟩) rfl⟩
      have hnot : s.revoked ≠ true := fun hr => absurd (hrev.symm.trans (h.device hr)) (by simp)
      obtain ⟨k, hk, _, ⟨k', _, _, rfl⟩ | ⟨d, w, place, hprep, _, rfl⟩⟩ := register_ok hn
      · exact ⟨h.table, h.revoking, h.device, fun hr => absurd hr hnot⟩
      · have hd : d.revoked = false := (prepareResume_ok hprep).revoked.trans hrev
        exact ⟨fun hr => absurd (hd.symm.trans hr) (by simp),
          fun hne => absurd (hrev.symm.trans (h.revoking hne)) (by simp), fun hr => absurd hr hnot,
          fun hr => absurd hr hnot⟩
  | act c a => exact h.act (f := a.act) (fun _ _ _ _ => act_revoked a) (fun _ _ _ => act_still a) hn
  | publish type now =>
      cases hn
      rw [Gateway.publish]
      split
      · exact h
      · next hrev =>
          obtain ⟨hdev, hrev', hing, _⟩ := store_revoked (s := s) type now
          have hnot (hr : (s.store type now).device.revoked = true) : False := hrev (hdev ▸ hr)
          have hnot' (hr : (s.store type now).revoked = true) : False := hrev (h.device (hrev' ▸ hr))
          exact ⟨fun hr => (hnot hr).elim, fun hne => (hrev (h.revoking (hing ▸ hne))).elim,
            fun hr => (hnot' hr).elim, fun hr => (hnot' hr).elim⟩
  | publishTo type now epoch =>
      cases hn
      cases epoch with
      | none => exact h.store (hok.resolve_right fun hne => hne rfl) type now
      | some n =>
          rw [Gateway.publishTo]
          split
          · next hactive =>
              have hrev : s.revoked = false := by
                rw [← Bool.not_eq_true]
                intro hr
                rw [h.table (h.device hr)] at hactive
                cases hactive
              exact h.store hrev type now
          · exact h
  | revoke =>
      cases hn
      rw [Gateway.revoke]
      dsimp only
      split
      · next hnone => exact ⟨fun _ => hnone, fun _ => rfl, fun _ => rfl, fun _ => hok hnone⟩
      · exact ⟨fun _ => rfl, fun _ => rfl, fun _ => rfl, h.still⟩
  | revokeEnds c =>
      replace hn : s.revokeEnds c = some t := hn
      rw [Gateway.revokeEnds] at hn
      split at hn
      · next hmem =>
          have hrev := h.revoking (List.ne_nil_of_mem hmem)
          obtain ⟨k, u, hk, hu, rfl⟩ := act_ok hn
          cases hu
          have hstill : s.StillBut (some c) := hok
          refine ⟨fun _ => ?_, fun _ => hrev, fun _ => hrev, fun _ i x _ hx => ?_⟩
          · simp [h.table hrev]
          · rw [List.getElem?_set] at hx
            split at hx
            · split at hx
              · cases hx
                exact Or.inl rfl
              · cases hx
            · next hne => exact hstill i x (fun heq => hne (Option.some.inj heq).symm) hx
      · cases hn
  | stop =>
      cases hn
      exact ⟨fun _ => rfl, h.revoking, h.device, h.still⟩
  | restart =>
      cases hn
      refine ⟨fun _ => rfl, fun hne => absurd rfl hne, h.device, fun _ i x _ hx => ?_⟩
      rw [Gateway.restart, List.getElem?_map] at hx
      obtain ⟨k, _, rfl⟩ := Option.map_eq_some_iff.mp hx
      exact Or.inl rfl

theorem revokedInv_reach (h : gatewayMachine.Reach Unpassed s) : RevokedInv s := by
  refine h.invariant (fun s hs => ?_) fun s a t hi hok hn => revokedInv_next hi hok hn
  rw [show s = {} from hs]
  exact ⟨nofun, fun hne => absurd rfl hne, nofun, nofun⟩

/-- After `revoke_device` has returned no step registers a connection of the device, executes a command of
it, stores an event for it or sends one. -/
theorem RevokedInv.final (h : RevokedInv s) (hr : s.revoked = true) {a : GatewayAction} (hok : Unpassed s a)
    (hn : gatewayMachine.next s a = some t) : Final s t := by
  have hrev := h.device hr
  have hnone := h.table hrev
  cases a with
  | authenticate =>
      replace hn : s.authenticate = some t := hn
      rw [Gateway.authenticate, if_pos hrev] at hn
      cases hn
  | otherAuthenticates =>
      cases hn
      exact ⟨hnone, rfl, rfl, rfl⟩
  | register c lastAck now cutoff =>
      have hstop : s.stopping = true := hok.resolve_left fun hno => absurd (hno.symm.trans hrev) (by simp)
      obtain ⟨k, hk, rfl⟩ := register_stopping hstop hn
      exact ⟨hnone, rfl, rfl, map_set_same hk rfl⟩
  | act c a => exact (act_final (fun _ _ _ => act_still a) hnone (h.still hr) hn).1
  | publish type now =>
      cases hn
      rw [Gateway.publish, if_pos hrev]
      exact ⟨hnone, rfl, rfl, rfl⟩
  | publishTo type now epoch =>
      cases hn
      cases epoch with
      | none => exact absurd rfl (hok.resolve_left fun hno => absurd (hno.symm.trans hr) (by simp))
      | some n =>
          rw [Gateway.publishTo, hnone]
          exact ⟨hnone, rfl, rfl, rfl⟩
  | revoke =>
      cases hn
      rw [Gateway.revoke]
      simp only [hnone]
      exact ⟨rfl, rfl, rfl, rfl⟩
  | revokeEnds c =>
      replace hn : s.revokeEnds c = some t := hn
      rw [Gateway.revokeEnds] at hn
      split at hn
      · obtain ⟨k, u, hk, hu, rfl⟩ := act_ok hn
        cases hu
        exact ⟨by simp [hnone], rfl, rfl, map_set_same hk rfl⟩
      · cases hn
  | stop =>
      cases hn
      exact ⟨rfl, rfl, rfl, rfl⟩
  | restart =>
      cases hn
      refine ⟨rfl, rfl, rfl, ?_⟩
      rw [Gateway.restart, List.map_map]
      rfl

/-- In a run in which nothing slips past a revocation, it is final once `revoke_device` has returned: no
connection of the device is in the table, and no later step registers one, executes a command of the device,
stores an event for it or sends one. -/
theorem revocation_final (h : gatewayMachine.Reach Unpassed s) (hr : s.revoked = true) :
    s.active = none ∧ ∀ t, gatewayMachine.Path Unpassed s t → Final s t := by
  have hs := revokedInv_reach h
  refine ⟨hs.table (hs.device hr), fun t hpath => ?_⟩
  have hboth : (RevokedInv t ∧ t.revoked = true) ∧ Final s t := by
    refine hpath.invariant (I := fun t => (RevokedInv t ∧ t.revoked = true) ∧ Final s t) ?_
      ⟨⟨hs, hr⟩, hs.table (hs.device hr), rfl, rfl, rfl⟩
    rintro t a v ⟨⟨ht, htr⟩, hfinal⟩ hok hn
    have hstep := ht.final htr hok hn
    refine ⟨⟨revokedInv_next ht hok hn, ?_⟩, hstep.active, hstep.stored.trans hfinal.stored,
      hstep.commands.trans hfinal.commands, hstep.out.trans hfinal.out⟩
    exact (stays_revoked hn).2 htr
  exact hboth.2

/-- A socket of the device is connected and has sent its window, and the device is revoked. -/
def revokedRun : List GatewayAction := [.authenticate, .register 0 0 0 0, .act 0 .send, .act 0 .ended, .revoke]

theorem revocation_final_example : ∃ s, s.revoked = true ∧ s.stored.length = 1 ∧ s.active = none ∧
    ∀ t, gatewayMachine.Path Unpassed s t → Final s t := by
  have hconnected : gatewayMachine.Reach Unpassed ((gatewayMachine.run {} revokedRun).getD {}) := by
    have hregistered : gatewayMachine.Reach Unpassed ((gatewayMachine.run {} (revokedRun.take 2)).getD {}) :=
      .step (a := .register 0 0 0 0) (.step (a := .authenticate) (.start rfl) trivial rfl) (Or.inl rfl) (by decide)
    have hsent : gatewayMachine.Reach Unpassed ((gatewayMachine.run {} (revokedRun.take 3)).getD {}) :=
      .step (a := .act 0 .send) hregistered trivial (by decide)
    have hready : gatewayMachine.Reach Unpassed ((gatewayMachine.run {} (revokedRun.take 4)).getD {}) :=
      .step (a := .act 0 .ended) hsent trivial (by decide)
    exact .step (a := .revoke) hready (fun hnone => absurd hnone (by decide)) (by decide)
  have hreach : gatewayMachine.Reach Unpassed
      ((gatewayMachine.next ((gatewayMachine.run {} revokedRun).getD {}) (.revokeEnds 0)).getD {}) := by
    refine .step (a := .revokeEnds 0) hconnected (fun i k hne hk => ?_) (by decide)
    have hlen := (List.getElem?_eq_some_iff.mp hk).1
    have hone : ((gatewayMachine.run {} revokedRun).getD {}).sockets.length = 1 := by decide
    exact absurd (congrArg some (by omega : i = 0)) hne
  have hfinal := revocation_final hreach (by decide)
  exact ⟨_, by decide, by decide, hfinal⟩

/-- A socket that has authenticated resumes after the revocation. -/
theorem revocation_passed : ¬ ∀ s, gatewayMachine.Reachable s → s.revoked = true → s.active = none := by
  intro h
  have hreach : gatewayMachine.Reachable
      ((gatewayMachine.run {} [.authenticate, .revoke, .register 0 0 0 0]).getD {}) :=
    Machine.reach_getD rfl (fun _ _ _ => trivial) (by decide)
  exact absurd (h _ hreach (by decide)) (by decide)

end MonoAgent.Mobile
