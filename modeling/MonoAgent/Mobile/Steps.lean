import MonoAgent.Mobile.Gateway

/-!
# Steps of the gateway

What the steps of a socket and of the gateway can do, and what they keep.
-/

namespace MonoAgent.Mobile

open MonoAgent.Lib

variable {s t : Gateway} {d d' : Device} {b : Bool} {k : Socket} {u : Turn} {c : Nat}

/-! ## What a step of a socket keeps -/

/-- The socket stays the one that authenticated, and what was sent stays sent. -/
structure Socket.Grows (k k' : Socket) : Prop where
  epoch : k'.epoch = k.epoch
  lastAck : k'.lastAck = k.lastAck
  out : ∃ es, k'.out = k.out ++ es

theorem Socket.Grows.same {k k' : Socket} (he : k'.epoch = k.epoch) (hl : k'.lastAck = k.lastAck)
    (ho : k'.out = k.out) : k.Grows k' := ⟨he, hl, [], by simp [ho]⟩

@[simp] theorem schedule_epoch : k.schedule.epoch = k.epoch := by
  rw [Socket.schedule]
  split
  · rfl
  · rfl

@[simp] theorem schedule_lastAck : k.schedule.lastAck = k.lastAck := by
  rw [Socket.schedule]
  split
  · rfl
  · rfl

@[simp] theorem schedule_out : k.schedule.out = k.out := by
  rw [Socket.schedule]
  split
  · rfl
  · rfl

theorem fail_ok (h : k.fail d b = some u) :
    u.socket = { k with place := .closed } ∧ u.device = d ∧ u.command = false := by
  rw [Socket.fail] at h
  split at h
  · cases h
  · cases h
  · cases h
    exact ⟨rfl, rfl, rfl⟩
  · cases h
    exact ⟨rfl, rfl, rfl⟩
  · cases h
    exact ⟨rfl, rfl, rfl⟩

theorem fail_grows (h : k.fail d b = some u) : k.Grows u.socket := by
  rw [(fail_ok h).1]
  exact .same rfl rfl rfl

theorem send_grows (h : k.send d b = some u) : k.Grows u.socket := by
  rw [Socket.send] at h
  split at h
  · split at h
    · split at h
      · cases h
      · cases h
        exact ⟨rfl, rfl, _, rfl⟩
    · split at h
      · split at h
        · exact fail_grows h
        · cases h
          exact .same rfl rfl rfl
      · split at h
        · cases h
        · cases h
          exact ⟨rfl, rfl, _, rfl⟩
  · cases h

theorem ended_grows (h : k.ended d b = some u) : k.Grows u.socket := by
  rw [Socket.ended] at h
  split at h
  · split at h
    · cases h
    · split at h
      · cases h
        exact .same rfl rfl rfl
      · split at h
        · exact fail_grows h
        · cases h
          exact .same (by simp) (by simp) (by simp)
  · cases h

theorem take_grows (h : k.take d b = some u) : k.Grows u.socket := by
  rw [Socket.take] at h
  split at h
  · split at h
    · cases h
      exact .same rfl rfl rfl
    · split at h
      · cases h
        exact .same rfl rfl rfl
      · cases h
        exact .same rfl rfl rfl
  · cases h

theorem commit_grows (h : k.commit d b = some u) : k.Grows u.socket := by
  rw [Socket.commit] at h
  split at h
  · split at h
    · cases h
      exact .same rfl rfl rfl
    · split at h
      · cases h
        exact .same rfl rfl rfl
      · cases h
        exact .same rfl rfl rfl
  · cases h

theorem acknowledge_grows {n : Nat} (h : k.acknowledge n d b = some u) : k.Grows u.socket := by
  rw [Socket.acknowledge] at h
  split at h
  · cases h
  · split at h
    · exact fail_grows h
    · split at h
      · cases h
        exact .same rfl rfl rfl
      · cases h
        exact .same rfl rfl rfl
      · cases h
        exact .same rfl rfl rfl

theorem command_grows (h : k.command d b = some u) : k.Grows u.socket := by
  rw [Socket.command] at h
  split at h
  · cases h
  · split at h
    · exact fail_grows h
    · cases h
      exact .same rfl rfl rfl

theorem flush_grows (h : k.flush d b = some u) : k.Grows u.socket := by
  rw [Socket.flush] at h
  split at h
  · cases h
  · split at h
    · exact fail_grows h
    · cases h
      exact .same rfl rfl rfl

theorem flushed_grows (h : k.flushed d b = some u) : k.Grows u.socket := by
  rw [Socket.flushed] at h
  split at h
  · split at h
    · exact fail_grows h
    · split at h
      · cases h
        exact .same rfl rfl rfl
      · split at h
        · exact fail_grows h
        · cases h
  · cases h

theorem replied_grows (h : k.replied d b = some u) : k.Grows u.socket := by
  rw [Socket.replied] at h
  split at h
  · dsimp only at h
    split at h
    · cases h
      exact .same rfl rfl rfl
    · cases h
      dsimp only
      split
      · exact .same (by simp) (by simp) (by simp)
      · exact .same rfl rfl rfl
  · cases h

theorem act_grows (a : SocketAction) (h : a.act d b k = some u) : k.Grows u.socket := by
  cases a with
  | fail => exact fail_grows (b := b) h
  | send => exact send_grows h
  | ended => exact ended_grows h
  | take => exact take_grows h
  | commit => exact commit_grows h
  | acknowledge n => exact acknowledge_grows h
  | command => exact command_grows h
  | flush => exact flush_grows h
  | flushed => exact flushed_grows h
  | replied => exact replied_grows h
  | replaced =>
      rw [SocketAction.act, Socket.replaced] at h
      split at h
      · cases h
        exact .same rfl rfl rfl
      · cases h
  | wrote =>
      rw [SocketAction.act, Socket.wrote] at h
      split at h
      · split at h
        · cases h
        · cases h
          exact ⟨rfl, rfl, _, rfl⟩
      · cases h
  | sendRaised =>
      rw [SocketAction.act, Socket.sendRaised] at h
      split at h
      · cases h
        exact .same rfl rfl rfl
      · cases h
        exact .same rfl rfl rfl
      · cases h
  | answered =>
      rw [SocketAction.act, Socket.answered] at h
      split at h
      · cases h
      · cases h
        exact .same rfl rfl rfl
  | close =>
      cases h
      exact .same rfl rfl rfl
  | evict =>
      cases h
      exact .same rfl rfl rfl

theorem queue_grows {e : Event} (h : k.queue e d b = some u) : k.Grows u.socket := by
  rw [Socket.queue] at h
  split at h
  · cases h
    exact .same rfl rfl rfl
  · cases h
    exact .same (by simp) (by simp) (by simp)

/-! ## What a step of the gateway keeps -/

/-- What the step of a socket does. -/
theorem act_ok {f : Act} (h : s.act f c = some t) : ∃ k u, s.sockets[c]? = some k ∧
    f s.device (s.active = some c) k = some u ∧
    t = { s with
      device := u.device
      sockets := s.sockets.set c u.socket
      active := if u.pop ∧ s.active = some c then none else s.active
      commands := s.commands + u.command.toNat } := by
  obtain ⟨k, hk, h⟩ := Option.bind_eq_some_iff.mp h
  obtain ⟨u, hu, h⟩ := Option.bind_eq_some_iff.mp h
  exact ⟨k, u, hk, hu, (Option.some.inj h).symm⟩

/-- No socket authenticates or is registered. -/
structure Gateway.Keeps (s t : Gateway) : Prop where
  epochs : t.sockets.map Socket.epoch = s.sockets.map Socket.epoch
  lastEpoch : t.lastEpoch = s.lastEpoch
  resumed : t.resumed = s.resumed
  active : t.active = s.active ∨ t.active = none

theorem Gateway.Keeps.refl : s.Keeps s := ⟨rfl, rfl, rfl, Or.inl rfl⟩

/-- A place of a list is written, and what is read of it stays. -/
theorem map_set_same {α β : Type} {f : α → β} {l : List α} {x y : α} (hk : l[c]? = some x) (h : f y = f x) :
    (l.set c y).map f = l.map f := by
  refine List.ext_getElem? fun i => ?_
  rw [List.getElem?_map, List.getElem?_map, List.getElem?_set]
  split
  · next heq =>
      subst heq
      rw [if_pos (List.getElem?_eq_some_iff.mp hk).1, hk]
      exact congrArg some h
  · rfl

theorem act_keeps {f : Act} (hf : ∀ d b k u, f d b k = some u → u.socket.epoch = k.epoch)
    (h : s.act f c = some t) : s.Keeps t := by
  obtain ⟨k, u, hk, hu, rfl⟩ := act_ok h
  refine ⟨map_set_same hk (hf _ _ _ _ hu), rfl, rfl, ?_⟩
  dsimp only
  split
  · exact Or.inr rfl
  · exact Or.inl rfl

theorem write_keeps : s.Keeps (s.write d) := ⟨rfl, rfl, rfl, Or.inl rfl⟩

theorem Gateway.Keeps.trans {r : Gateway} (h : r.Keeps s) (h' : s.Keeps t) : r.Keeps t where
  epochs := h'.epochs.trans h.epochs
  lastEpoch := h'.lastEpoch.trans h.lastEpoch
  resumed := h'.resumed.trans h.resumed
  active := by
    rcases h'.active with hact | hact
    · rw [hact]
      exact h.active
    · exact Or.inr hact

theorem store_keeps {type : String} {now : Nat} : s.Keeps (s.store type now) := by
  rw [Gateway.store]
  cases hq : ((s.write (s.device.append type now).1).active.bind
      ((s.write (s.device.append type now).1).act (Socket.queue (s.device.append type now).2))) with
  | none => exact write_keeps
  | some t =>
      obtain ⟨c, _, hact⟩ := Option.bind_eq_some_iff.mp hq
      exact write_keeps.trans (act_keeps (fun _ _ _ _ hu => (queue_grows hu).epoch) hact)

theorem publishTo_keeps {type : String} {now : Nat} {epoch : Option Nat} :
    s.Keeps (s.publishTo type now epoch) := by
  cases epoch with
  | none => exact store_keeps
  | some n =>
      rw [Gateway.publishTo]
      split
      · exact store_keeps
      · exact .refl

theorem publish_keeps {type : String} {now : Nat} : s.Keeps (s.publish type now) := by
  rw [Gateway.publish]
  split
  · exact .refl
  · exact store_keeps

theorem revoke_keeps : s.Keeps s.revoke := by
  rw [Gateway.revoke]
  dsimp only
  split
  · exact ⟨rfl, rfl, rfl, Or.inl rfl⟩
  · exact ⟨rfl, rfl, rfl, Or.inr rfl⟩

theorem revokeEnds_keeps (h : s.revokeEnds c = some t) : s.Keeps t := by
  rw [Gateway.revokeEnds] at h
  split at h
  · have hkeep := act_keeps (f := Socket.close) (fun d b _ _ hu => (act_grows (d := d) (b := b) .close hu).epoch) h
    exact ⟨hkeep.epochs, hkeep.lastEpoch, hkeep.resumed, hkeep.active⟩
  · cases h

theorem restart_keeps : s.Keeps s.restart := by
  refine ⟨?_, rfl, rfl, Or.inr rfl⟩
  rw [Gateway.restart, List.map_map]
  rfl

/-- What a registration does. -/
theorem register_ok {lastAck now cutoff : Nat} (h : s.register c lastAck now cutoff = some t) :
    ∃ k, s.sockets[c]? = some k ∧ k.place = .authenticated ∧
      ((∃ k', k.Grows k' ∧ k'.place ≠ .authenticated ∧ t = { s with sockets := s.sockets.set c k' }) ∨
        ∃ d w place, s.device.prepareResume lastAck now cutoff = some (d, w) ∧
          (place = .resuming w ∨ place = .replacing w) ∧
          t = { s.write d with
            sockets := s.sockets.set c { k with place, lastAck }
            active := some c
            resumed := s.resumed ++ [c]
            rebased := if s.device.next ≤ lastAck then lastAck else s.rebased }) := by
  obtain ⟨k, hk, h⟩ := Option.bind_eq_some_iff.mp h
  refine ⟨k, hk, ?_⟩
  split at h
  · cases h
  · next hplace =>
      refine ⟨by simpa using hplace, ?_⟩
      split at h
      · cases h
        exact Or.inl ⟨{ k with place := .running }, .same rfl rfl rfl, nofun, rfl⟩
      · split at h
        · cases h
          exact Or.inl ⟨{ k with place := .closed }, .same rfl rfl rfl, nofun, rfl⟩
        · next d w hprep =>
            cases h
            refine Or.inr ⟨d, w, _, hprep, ?_, rfl⟩
            split
            · exact Or.inl rfl
            · exact Or.inr rfl

/-! ## What a step does to the device -/

/-- A cursor of the device is advanced. -/
inductive Device.Advances (d : Device) : SocketAction → Device → Prop where
  | markSent {a : SocketAction} {d' : Device} (n : Nat) (h : d.markSent n = some d') : Device.Advances d a d'
  | acknowledge {d' : Device} (n : Nat) (h : d.acknowledge n = .advance d') : Device.Advances d (.acknowledge n) d'

theorem Device.Advances.revoked {a : SocketAction} (h : d.Advances a d') : d'.revoked = d.revoked := by
  cases h with
  | markSent n h =>
      obtain ⟨_, _, rfl⟩ := markSent_ok h
      rfl
  | acknowledge n h =>
      obtain ⟨_, _, rfl⟩ := acknowledge_ok h
      rfl

theorem send_device (h : k.send d b = some u) : u.device = d := by
  rw [Socket.send] at h
  split at h
  · split at h
    · split at h
      · cases h
      · cases h
        rfl
    · split at h
      · split at h
        · exact (fail_ok h).2.1
        · cases h
          rfl
      · split at h
        · cases h
        · cases h
          rfl
  · cases h

theorem flushed_device (h : k.flushed d b = some u) : u.device = d := by
  rw [Socket.flushed] at h
  split at h
  · split at h
    · exact (fail_ok h).2.1
    · split at h
      · cases h
        rfl
      · split at h
        · exact (fail_ok h).2.1
        · cases h
  · cases h

theorem take_device (h : k.take d b = some u) : u.device = d := by
  rw [Socket.take] at h
  split at h
  · split at h
    · cases h
      rfl
    · split at h
      · cases h
        rfl
      · cases h
        rfl
  · cases h

/-- A socket advances a cursor only while its connection is in the table. -/
theorem act_device (a : SocketAction) (h : a.act d b k = some u) :
    u.device = d ∨ b = true ∧ d.Advances a u.device := by
  cases a with
  | fail => exact Or.inl (fail_ok (b := b) h).2.1
  | send => exact Or.inl (send_device h)
  | flushed => exact Or.inl (flushed_device h)
  | take => exact Or.inl (take_device h)
  | ended =>
      rw [SocketAction.act, Socket.ended] at h
      split at h
      · split at h
        · cases h
        · split at h
          · cases h
            exact Or.inl rfl
          · next hb =>
              split at h
              · exact Or.inl (fail_ok h).2.1
              · next d' hd =>
                  cases h
                  exact Or.inr ⟨by simpa using hb, .markSent _ hd⟩
      · cases h
  | commit =>
      rw [SocketAction.act, Socket.commit] at h
      split at h
      · split at h
        · cases h
          exact Or.inl rfl
        · next hb =>
            split at h
            · cases h
              exact Or.inl rfl
            · next d' hd =>
                cases h
                exact Or.inr ⟨by simpa using hb, .markSent _ hd⟩
      · cases h
  | acknowledge n =>
      rw [SocketAction.act, Socket.acknowledge] at h
      split at h
      · cases h
      · split at h
        · exact Or.inl (fail_ok (b := b) h).2.1
        · next hb =>
            split at h
            · next d' hd =>
                cases h
                exact Or.inr ⟨by simpa using hb, .acknowledge _ hd⟩
            · cases h
              exact Or.inl rfl
            · cases h
              exact Or.inl rfl
  | command =>
      rw [SocketAction.act, Socket.command] at h
      split at h
      · cases h
      · split at h
        · exact Or.inl (fail_ok (b := b) h).2.1
        · cases h
          exact Or.inl rfl
  | flush =>
      rw [SocketAction.act, Socket.flush] at h
      split at h
      · cases h
      · split at h
        · exact Or.inl (fail_ok (b := b) h).2.1
        · cases h
          exact Or.inl rfl
  | replied =>
      rw [SocketAction.act, Socket.replied] at h
      split at h
      · dsimp only at h
        split at h
        · cases h
          exact Or.inl rfl
        · cases h
          exact Or.inl rfl
      · cases h
  | replaced =>
      rw [SocketAction.act, Socket.replaced] at h
      split at h
      · cases h
        exact Or.inl rfl
      · cases h
  | wrote =>
      rw [SocketAction.act, Socket.wrote] at h
      split at h
      · split at h
        · cases h
        · cases h
          exact Or.inl rfl
      · cases h
  | sendRaised =>
      rw [SocketAction.act, Socket.sendRaised] at h
      split at h
      · cases h
        exact Or.inl rfl
      · cases h
        exact Or.inl rfl
      · cases h
  | answered =>
      rw [SocketAction.act, Socket.answered] at h
      split at h
      · cases h
      · cases h
        exact Or.inl rfl
  | close =>
      cases h
      exact Or.inl rfl
  | evict =>
      cases h
      exact Or.inl rfl

theorem act_revoked (a : SocketAction) (h : a.act d b k = some u) : u.device.revoked = d.revoked := by
  rcases act_device a h with hd | ⟨_, hd⟩
  · rw [hd]
  · exact hd.revoked

theorem queue_device {e : Event} (h : k.queue e d b = some u) : u.device = d := by
  rw [Socket.queue] at h
  split at h
  · cases h
    rfl
  · cases h
    rfl

/-- An event is stored, and may be queued for the connection in the table. -/
theorem store_ok (type : String) (now : Nat) : ∃ d e, s.device.append type now = (d, e) ∧
    (s.store type now = s.write d ∧ s.active.bind (s.sockets[·]?) = none ∨
      ∃ c k u, s.active = some c ∧ s.sockets[c]? = some k ∧ k.queue e d true = some u ∧
        s.store type now = { s.write d with
          sockets := s.sockets.set c u.socket
          active := if u.pop then none else s.active
          commands := s.commands + u.command.toNat }) := by
  refine ⟨(s.device.append type now).1, (s.device.append type now).2, rfl, ?_⟩
  rw [Gateway.store]
  cases hact : s.active with
  | none => exact Or.inl ⟨by rw [show (s.write _).active = none from hact]; rfl, rfl⟩
  | some c =>
      cases hk : s.sockets[c]? with
      | none =>
          refine Or.inl ⟨?_, hk⟩
          rw [show (s.write _).active = some c from hact, Option.bind_some, Gateway.act,
            show (s.write _).sockets[c]? = none from hk]
          rfl
      | some k =>
          obtain ⟨u, hu⟩ : ∃ u, k.queue (s.device.append type now).2 (s.device.append type now).1 true = some u := by
            rw [Socket.queue]
            split
            · exact ⟨_, rfl⟩
            · exact ⟨_, rfl⟩
          refine Or.inr ⟨c, k, u, rfl, hk, hu, ?_⟩
          rw [show (s.write _).active = some c from hact, Option.bind_some, Gateway.act,
            show (s.write _).sockets[c]? = some k from hk]
          have hd := queue_device hu
          simp [Gateway.write, hact, hu, hd]

/-! ## What a resume sends -/

/-- What `_prepare_resume` does. -/
inductive Device.Resumes (d : Device) (lastAck now : Nat) : Device → Window → Prop where
  /-- The client builds its state anew, and no event is replayed. -/
  | anew (h : lastAck < d.acked ∨ lastAck ≤ d.next - 1) :
      Resumes d lastAck now (d.restartAt lastAck resetRequired now).1 (d.restartAt lastAck resetRequired now).2
  /-- The client is ahead of the device. -/
  | rebase {d' : Device} {e : Event} (h : d.rebase lastAck resetRequired now = some (d', e)) :
      Resumes d lastAck now d' { after := lastAck, through := lastAck, terminal := e }
  | replay (h : d.acked ≤ lastAck) (hle : lastAck ≤ d.next - 1) :
      Resumes d lastAck now (d.append completed now).1
        { after := lastAck, through := d.next - 1, terminal := (d.append completed now).2 }
  /-- The last event is a reset. -/
  | reset {e : Event} {rest : List Event} (h : d.acked ≤ lastAck) (hle : lastAck ≤ d.next - 1)
      (he : d.readEvents lastAck 1 = e :: rest) (hreset : e.isReset = true) (hlast : e.seq = d.next - 1) :
      Resumes d lastAck now d { after := lastAck, through := lastAck, terminal := e }
  /-- The first event is a reset, and others follow. -/
  | after {e tail : Event} {rest rest' : List Event} (h : d.acked ≤ lastAck) (hle : lastAck ≤ d.next - 1)
      (he : d.readEvents lastAck 1 = e :: rest) (hreset : e.isReset = true)
      (ht : d.readEvents (d.next - 1 - 1) 1 = tail :: rest') (hlast : tail.seq = d.next - 1) (hne : d.next - 1 ≠ e.seq) :
      Resumes d lastAck now d { after := e.seq - 1, through := d.next - 1 - 1, terminal := tail }

theorem replayFrom_ok {lastAck : Nat} (now : Nat) (h : d.acked ≤ lastAck) (hle : lastAck ≤ d.next - 1) :
    d.Resumes lastAck now (d.replayFrom lastAck now).1 (d.replayFrom lastAck now).2 := by
  rw [Device.replayFrom]
  split
  · exact .replay h hle
  · exact .anew (Or.inr hle)

theorem prepareResume_ok {lastAck now cutoff : Nat} {w : Window}
    (h : d.prepareResume lastAck now cutoff = some (d', w)) : d.Resumes lastAck now d' w := by
  rw [Device.prepareResume] at h
  split at h
  · next hlt =>
      cases h
      exact .anew (Or.inl hlt)
  · next hacked =>
      split at h
      · obtain ⟨⟨r, e⟩, hr, h⟩ := Option.map_eq_some_iff.mp h
        cases h
        exact .rebase hr
      · next hnext =>
          have hle : d.acked ≤ lastAck := Nat.le_of_not_lt hacked
          have hlast : lastAck ≤ d.next - 1 := Nat.le_of_not_lt hnext
          have hreplay (hr : d.replayFrom lastAck now = (d', w)) : d.Resumes lastAck now d' w := by
            have hok := replayFrom_ok now hle hlast
            rwa [hr] at hok
          split at h
          · cases h
            exact .anew (Or.inr hlast)
          · split at h
            · next e rest he =>
                split at h
                · next hreset =>
                    rw [Device.replayReset] at h
                    split at h
                    · cases h
                      exact .anew (Or.inr hlast)
                    · split at h
                      · next hseq =>
                          cases h
                          exact .reset hle hlast he hreset hseq.symm
                      · next hne =>
                          split at h
                          · next tail rest' ht =>
                              split at h
                              · next hseq =>
                                  cases h
                                  exact .after hle hlast he hreset ht hseq hne
                              · cases h
                          · cases h
                · exact hreplay (Option.some.inj h)
            · exact hreplay (Option.some.inj h)

theorem Device.Resumes.revoked {lastAck now : Nat} {w : Window} (h : d.Resumes lastAck now d' w) :
    d'.revoked = d.revoked := by
  cases h with
  | rebase h =>
      obtain ⟨_, _, rfl⟩ := Device.rebase_ok h
      rfl
  | _ => rfl

/-! ## Revocation stays -/

theorem store_revoked (type : String) (now : Nat) :
    (s.store type now).device.revoked = s.device.revoked ∧ (s.store type now).revoked = s.revoked ∧
      (s.store type now).revoking = s.revoking ∧
      ((s.store type now).active = s.active ∨ (s.store type now).active = none) := by
  obtain ⟨d, e, hd, hstore⟩ := store_ok (s := s) type now
  have hrev : d.revoked = s.device.revoked := by
    rw [Device.append] at hd
    cases hd
    rfl
  rcases hstore with ⟨hs, _⟩ | ⟨c, k, u, _, _, _, hs⟩
  · rw [hs]
    exact ⟨hrev, rfl, rfl, Or.inl rfl⟩
  · rw [hs]
    refine ⟨hrev, rfl, rfl, ?_⟩
    dsimp only
    split
    · exact Or.inr rfl
    · exact Or.inl rfl

theorem revoke_ok : s.revoke.device = s.device.revoke ∧ (s.revoked = true → s.revoke.revoked = true) := by
  rw [Gateway.revoke]
  dsimp only
  split
  · exact ⟨rfl, fun _ => rfl⟩
  · exact ⟨rfl, id⟩

/-- A device that is revoked stays so, and a revocation that has returned has. -/
theorem stays_revoked {a : GatewayAction} (hn : gatewayMachine.next s a = some t) :
    (s.device.revoked = true → t.device.revoked = true) ∧ (s.revoked = true → t.revoked = true) := by
  have hstore (type : String) (now : Nat) : (s.device.revoked = true → (s.store type now).device.revoked = true) ∧
      (s.revoked = true → (s.store type now).revoked = true) :=
    ⟨(store_revoked _ _).1.trans, (store_revoked _ _).2.1.trans⟩
  cases a with
  | authenticate =>
      replace hn : s.authenticate = some t := hn
      rw [Gateway.authenticate] at hn
      split at hn
      · cases hn
      · cases hn
        exact ⟨id, id⟩
  | register c lastAck now cutoff =>
      obtain ⟨k, hk, _, ⟨k', _, _, rfl⟩ | ⟨d, w, place, hprep, _, rfl⟩⟩ := register_ok hn
      · exact ⟨id, id⟩
      · exact ⟨(prepareResume_ok hprep).revoked.trans, id⟩
  | act c a =>
      obtain ⟨k, u, _, hu, rfl⟩ := act_ok hn
      exact ⟨(act_revoked a hu).trans, id⟩
  | publish type now =>
      cases hn
      rw [Gateway.publish]
      split
      · exact ⟨id, id⟩
      · exact hstore type now
  | publishTo type now epoch =>
      cases hn
      cases epoch with
      | none => exact hstore type now
      | some n =>
          rw [Gateway.publishTo]
          split
          · exact hstore type now
          · exact ⟨id, id⟩
  | revoke =>
      cases hn
      exact ⟨fun _ => by rw [revoke_ok.1]; rfl, revoke_ok.2⟩
  | revokeEnds c =>
      replace hn : s.revokeEnds c = some t := hn
      rw [Gateway.revokeEnds] at hn
      split at hn
      · obtain ⟨k, u, _, hu, rfl⟩ := act_ok hn
        cases hu
        exact ⟨id, fun _ => rfl⟩
      · cases hn
  | otherAuthenticates =>
      cases hn
      exact ⟨id, id⟩
  | stop =>
      cases hn
      exact ⟨id, id⟩
  | restart =>
      cases hn
      exact ⟨id, id⟩

/-- A device that is not revoked was never. -/
theorem revoked_before {a : GatewayAction} (hn : gatewayMachine.next s a = some t)
    (hr : t.device.revoked = false) : s.device.revoked = false := by
  cases hs : s.device.revoked with
  | false => rfl
  | true => exact absurd (hr.symm.trans ((stays_revoked hn).1 hs)) nofun

end MonoAgent.Mobile
