import MonoAgent.Mobile.Steps

/-!
# Connection epochs

The epochs of the sockets grow in the order in which they authenticate, whatever other
devices do and however often the process restarts.  A resume does not compare the epoch
of its socket with the one in the table: the epochs in the table grow when the sockets
resume in the order in which they authenticated.
-/

namespace MonoAgent.Mobile

open MonoAgent.Lib

variable {s t : Gateway}

/-! ## Epochs grow -/

/-- The epochs of the connections, in the order in which they were registered. -/
def Gateway.registered (s : Gateway) : List Nat := s.resumed.map fun c => ((s.sockets.map Socket.epoch)[c]?).getD 0

structure EpochsInv (s : Gateway) : Prop where
  sorted : (s.sockets.map Socket.epoch).Pairwise (· < ·)
  le : ∀ n ∈ s.sockets.map Socket.epoch, n ≤ s.lastEpoch
  bound : ∀ c ∈ s.resumed, c < s.sockets.length
  last : ∀ c, s.active = some c → s.resumed.getLast? = some c

theorem EpochsInv.keep (h : EpochsInv s) (hk : s.Keeps t) : EpochsInv t where
  sorted := hk.epochs ▸ h.sorted
  le := hk.epochs ▸ hk.lastEpoch ▸ h.le
  bound c hc := by
    have hlen := congrArg List.length hk.epochs
    rw [List.length_map, List.length_map] at hlen
    rw [hlen]
    exact h.bound c (hk.resumed ▸ hc)
  last c hc := by
    rw [hk.resumed]
    rcases hk.active with hact | hact
    · exact h.last c (hact ▸ hc)
    · rw [hact] at hc
      cases hc

theorem epochsInv_next {a : GatewayAction} (h : EpochsInv s) (hn : gatewayMachine.next s a = some t) :
    EpochsInv t := by
  cases a with
  | authenticate =>
      replace hn : s.authenticate = some t := hn
      rw [Gateway.authenticate] at hn
      split at hn
      · cases hn
      · cases hn
        refine ⟨?_, ?_, fun c hc => ?_, h.last⟩
        · rw [List.map_append]
          refine List.pairwise_append.mpr ⟨h.sorted, List.pairwise_singleton _ _, fun n hn m hm => ?_⟩
          rw [List.mem_singleton.mp hm]
          exact Nat.lt_succ_of_le (h.le n hn)
        · intro n hn
          rw [List.map_append] at hn
          rcases List.mem_append.mp hn with hn | hn
          · exact Nat.le_succ_of_le (h.le n hn)
          · rw [List.mem_singleton.mp hn]
        · rw [List.length_append]
          exact Nat.lt_add_right _ (h.bound c hc)
  | otherAuthenticates =>
      cases hn
      exact ⟨h.sorted, fun n hn => Nat.le_succ_of_le (h.le n hn), h.bound, h.last⟩
  | register c lastAck now cutoff =>
      obtain ⟨k, hk, _, ⟨k', hk', _, rfl⟩ | ⟨d, w, place, _, _, rfl⟩⟩ := register_ok hn
      · exact h.keep ⟨map_set_same hk hk'.epoch, rfl, rfl, Or.inl rfl⟩
      · have hepochs := map_set_same (f := Socket.epoch) (y := { k with place, lastAck }) hk rfl
        refine ⟨?_, ?_, fun n hn => ?_, fun n hn => ?_⟩
        · exact hepochs ▸ h.sorted
        · exact hepochs ▸ h.le
        · rw [List.length_set]
          rcases List.mem_append.mp hn with hn | hn
          · exact h.bound n hn
          · rw [List.mem_singleton.mp hn]
            exact (List.getElem?_eq_some_iff.mp hk).1
        · cases hn
          exact List.getLast?_concat
  | act c a => exact h.keep (act_keeps (fun _ _ _ _ hu => (act_grows a hu).epoch) hn)
  | publish type now =>
      cases hn
      exact h.keep publish_keeps
  | publishTo type now epoch =>
      cases hn
      exact h.keep publishTo_keeps
  | revoke =>
      cases hn
      exact h.keep revoke_keeps
  | revokeEnds c => exact h.keep (revokeEnds_keeps hn)
  | stop =>
      cases hn
      exact h.keep ⟨rfl, rfl, rfl, Or.inr rfl⟩
  | restart =>
      cases hn
      exact h.keep restart_keeps

theorem epochsInv_start : EpochsInv {} where
  sorted := List.Pairwise.nil
  le _ hn := nomatch hn
  bound _ hc := nomatch hc
  last _ hc := nomatch hc

theorem epochsInv_reach (h : gatewayMachine.Reachable s) : EpochsInv s := by
  refine h.invariant (fun s hs => ?_) fun s a t hi _ hn => epochsInv_next hi hn
  rw [show s = {} from hs]
  exact epochsInv_start

/-! ## Epochs in the table -/

/-- The epochs of two sockets are in the order of the sockets. -/
theorem EpochsInv.le_iff (h : EpochsInv s) {i j : Nat} (hi : i < s.sockets.length) (hj : j < s.sockets.length) :
    ((s.sockets.map Socket.epoch)[i]?).getD 0 ≤ ((s.sockets.map Socket.epoch)[j]?).getD 0 ↔ i ≤ j := by
  have hi' : i < (s.sockets.map Socket.epoch).length := by rwa [List.length_map]
  have hj' : j < (s.sockets.map Socket.epoch).length := by rwa [List.length_map]
  rw [List.getElem?_eq_getElem hi', List.getElem?_eq_getElem hj', Option.getD_some, Option.getD_some]
  have hlt := List.pairwise_iff_getElem.mp h.sorted
  constructor
  · intro hle
    refine Nat.le_of_not_lt fun hji => ?_
    exact absurd hle (Nat.not_le_of_lt (hlt j i hj' hi' hji))
  · intro hle
    rcases Nat.eq_or_lt_of_le hle with rfl | hij
    · exact Nat.le_refl _
    · exact Nat.le_of_lt (hlt i j hi' hj' hij)

/-- The epochs in the table never decreased, if the sockets resumed in the order in which they
authenticated, and not otherwise. -/
theorem EpochsInv.registered_iff (h : EpochsInv s) :
    s.registered.Pairwise (· ≤ ·) ↔ s.resumed.Pairwise (· ≤ ·) := by
  rw [Gateway.registered, List.pairwise_map]
  refine List.Pairwise.iff_of_mem fun {i j} hi hj => ?_
  exact h.le_iff (h.bound i hi) (h.bound j hj)

/-- What was allocated and registered stays so. -/
structure Gateway.Extends (s t : Gateway) : Prop where
  epochs : s.sockets.map Socket.epoch <+: t.sockets.map Socket.epoch
  resumed : s.resumed <+: t.resumed

theorem Gateway.Keeps.extends (h : s.Keeps t) : s.Extends t :=
  ⟨h.epochs ▸ List.prefix_rfl, h.resumed ▸ List.prefix_rfl⟩

theorem extends_next {a : GatewayAction} (hn : gatewayMachine.next s a = some t) : s.Extends t := by
  cases a with
  | authenticate =>
      replace hn : s.authenticate = some t := hn
      rw [Gateway.authenticate] at hn
      split at hn
      · cases hn
      · cases hn
        exact ⟨by rw [List.map_append]; exact List.prefix_append _ _, List.prefix_rfl⟩
  | otherAuthenticates =>
      cases hn
      exact ⟨List.prefix_rfl, List.prefix_rfl⟩
  | register c lastAck now cutoff =>
      obtain ⟨k, hk, _, ⟨k', hk', _, rfl⟩ | ⟨d, w, place, _, _, rfl⟩⟩ := register_ok hn
      · exact ⟨map_set_same hk hk'.epoch ▸ List.prefix_rfl, List.prefix_rfl⟩
      · exact ⟨map_set_same (f := Socket.epoch) (y := { k with place, lastAck }) hk rfl ▸ List.prefix_rfl, List.prefix_append _ _⟩
  | act c a => exact (act_keeps (fun _ _ _ _ hu => (act_grows a hu).epoch) hn).extends
  | publish type now =>
      cases hn
      exact publish_keeps.extends
  | publishTo type now epoch =>
      cases hn
      exact publishTo_keeps.extends
  | revoke =>
      cases hn
      exact revoke_keeps.extends
  | revokeEnds c => exact (revokeEnds_keeps hn).extends
  | stop =>
      cases hn
      exact ⟨List.prefix_rfl, List.prefix_rfl⟩
  | restart =>
      cases hn
      exact restart_keeps.extends

/-- The epochs that were registered stay so. -/
theorem Gateway.Extends.registered (h : s.Extends t) (hs : EpochsInv s) : s.registered <+: t.registered := by
  have heq : s.registered = s.resumed.map fun c => ((t.sockets.map Socket.epoch)[c]?).getD 0 := by
    refine List.map_congr_left fun c hc => ?_
    have hlt : c < (s.sockets.map Socket.epoch).length := by
      rw [List.length_map]
      exact hs.bound c hc
    obtain ⟨es, hes⟩ := h.epochs
    rw [← hes, List.getElem?_append_left hlt]
  rw [heq]
  exact h.resumed.map _

/-- The epoch of the connection in the table. -/
def Gateway.epoch? (s : Gateway) : Option Nat := (s.active.bind (s.sockets[·]?)).map Socket.epoch

/-- The connection in the table is the one that was registered last. -/
theorem EpochsInv.epoch_last (h : EpochsInv s) {n : Nat} (hn : s.epoch? = some n) :
    s.registered.getLast? = some n := by
  obtain ⟨k, hk, rfl⟩ := Option.map_eq_some_iff.mp hn
  obtain ⟨c, hc, hk⟩ := Option.bind_eq_some_iff.mp hk
  rw [Gateway.registered, List.getLast?_map, h.last c hc, Option.map_some, List.getElem?_map, hk]
  rfl

theorem epoch_le {m n : Nat} (hs : EpochsInv s) (ht : EpochsInv t) (hext : s.registered <+: t.registered)
    (hsorted : t.registered.Pairwise (· ≤ ·)) (hm : s.epoch? = some m) (hn : t.epoch? = some n) : m ≤ n := by
  have hmem : m ∈ t.registered := hext.subset (List.mem_of_getLast? (hs.epoch_last hm))
  obtain ⟨es, hes⟩ := List.getLast?_eq_some_iff.mp (ht.epoch_last hn)
  rw [hes] at hmem hsorted
  rcases List.mem_append.mp hmem with hmem | hmem
  · exact (List.pairwise_append.mp hsorted).2.2 m hmem n (List.mem_singleton.mpr rfl)
  · exact Nat.le_of_eq (List.mem_singleton.mp hmem)

/-- The epochs that sockets get grow, and the connection in the table is the one that was registered
last.  The epochs in the table never decrease in a run in which the sockets resume in the order in which
they authenticated, and decrease in every other. -/
theorem epochs_fence (h : gatewayMachine.Reachable s) :
    (s.sockets.map Socket.epoch).Pairwise (· < ·) ∧ (∀ n ∈ s.sockets.map Socket.epoch, n ≤ s.lastEpoch) ∧
    (∀ c, s.active = some c → s.resumed.getLast? = some c) ∧
    (s.registered.Pairwise (· ≤ ·) ↔ s.resumed.Pairwise (· ≤ ·)) ∧
    (∀ t m n, gatewayMachine.Path Machine.always s t → t.resumed.Pairwise (· ≤ ·) → s.epoch? = some m →
      t.epoch? = some n → m ≤ n) := by
  have hs := epochsInv_reach h
  refine ⟨hs.sorted, hs.le, hs.last, hs.registered_iff, fun t m n hpath hsorted hm hn => ?_⟩
  have ht := epochsInv_reach (h.path hpath)
  have hext : s.registered <+: t.registered :=
    hpath.rel (R := fun s t => s.registered <+: t.registered) (fun _ => List.prefix_rfl)
      (fun _ _ _ => List.IsPrefix.trans)
      (fun _ _ _ hi _ hn => epochsInv_next hi hn) (fun _ _ _ hi _ hn => (extends_next hn).registered hi) hs
  exact epoch_le hs ht hext (ht.registered_iff.mpr hsorted) hm hn

/-- Two sockets authenticate, and resume in this order. -/
def inOrder : List GatewayAction := [.authenticate, .authenticate, .register 0 0 0 0, .register 1 0 0 0]

theorem epochs_fence_example :
    ((gatewayMachine.run {} inOrder).getD {}).registered.Pairwise (· ≤ ·) ∧
      ((gatewayMachine.run {} (inOrder.take 3)).getD {}).epoch? = some 1 ∧
      ((gatewayMachine.run {} inOrder).getD {}).epoch? = some 2 ∧ 1 ≤ 2 := by
  have hbefore : gatewayMachine.Reachable ((gatewayMachine.run {} (inOrder.take 3)).getD {}) :=
    Machine.reach_getD rfl (fun _ _ _ => trivial) (by decide)
  have hafter : gatewayMachine.Reachable ((gatewayMachine.run {} inOrder).getD {}) :=
    Machine.reach_getD rfl (fun _ _ _ => trivial) (by decide)
  have hpath : gatewayMachine.Path Machine.always ((gatewayMachine.run {} (inOrder.take 3)).getD {})
      ((gatewayMachine.run {} inOrder).getD {}) := by
    have hrun : gatewayMachine.run ((gatewayMachine.run {} (inOrder.take 3)).getD {}) (inOrder.drop 3) =
        some ((gatewayMachine.run {} inOrder).getD {}) := by decide
    exact Machine.path_of_run (fun _ _ _ => trivial) hrun
  have hsorted : ((gatewayMachine.run {} inOrder).getD {}).resumed.Pairwise (· ≤ ·) := by decide
  have hone : ((gatewayMachine.run {} (inOrder.take 3)).getD {}).epoch? = some 1 := by decide
  have htwo : ((gatewayMachine.run {} inOrder).getD {}).epoch? = some 2 := by decide
  obtain ⟨_, _, _, hiff, _⟩ := epochs_fence hafter
  obtain ⟨_, _, _, _, hepochs⟩ := epochs_fence hbefore
  exact ⟨hiff.mpr hsorted, hone, htwo, hepochs _ 1 2 hpath hsorted hone htwo⟩

/-- Two sockets authenticate, and the second resumes before the first. -/
def overtaken : List GatewayAction := [.authenticate, .authenticate, .register 1 0 0 0, .register 0 0 0 0]

/-- The epoch in the table decreases. -/
theorem epochs_decrease : ∃ s t m n, gatewayMachine.Reachable s ∧ gatewayMachine.Path Machine.always s t ∧
    s.epoch? = some m ∧ t.epoch? = some n ∧ n < m := by
  have hreach : gatewayMachine.Reachable ((gatewayMachine.run {} (overtaken.take 3)).getD {}) :=
    Machine.reach_getD rfl (fun _ _ _ => trivial) (by decide)
  have hpath : gatewayMachine.Path Machine.always ((gatewayMachine.run {} (overtaken.take 3)).getD {})
      ((gatewayMachine.run {} overtaken).getD {}) := by
    have hrun : gatewayMachine.run ((gatewayMachine.run {} (overtaken.take 3)).getD {}) (overtaken.drop 3) =
        some ((gatewayMachine.run {} overtaken).getD {}) := by decide
    exact Machine.path_of_run (fun _ _ _ => trivial) hrun
  exact ⟨_, _, 2, 1, hreach, hpath, by decide, by decide, by decide⟩

end MonoAgent.Mobile
