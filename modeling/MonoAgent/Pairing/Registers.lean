import MonoAgent.Pairing.Calls

/-!
# At most one device, the approved one

The invariant over runs of any calls in any order, and what each step may do to the
devices.
-/

namespace MonoAgent.Pairing

open MonoAgent.Lib

variable {k : Crypto} {ttl : Nat} {s t : System}

/-! ## The invariant -/

structure Inv (k : Crypto) (s : System) : Prop where
  shared : SharedInv k s
  threads : ∀ (i : Nat) u, s.threads[i]? = some u → PhaseFine k s u.late u.phase
  /-- A pairing has one consumer at most that has not forgotten its claim. -/
  consumers : ∀ (i j : Nat) u v p, s.threads[i]? = some u → s.threads[j]? = some v → u.phase.forgets = some p →
    v.phase.forgets = some p → i = j

theorem SharedInv.withThreads (h : SharedInv k s) (threads : List Thread) : SharedInv k { s with threads := threads } :=
  ⟨h.secret, h.consumed, h.once, h.devices, h.claims, h.stays, h.verified⟩

theorem Grows.withThreads {hole : Option String} (h : Grows hole s t) (threads : List Thread) :
    Grows hole s { t with threads := threads } :=
  ⟨h.accepted, h.consumed, h.clock, h.claims, h.secrets⟩

theorem forgets_iff {phase : Phase} {p : String} :
    phase.forgets = some p ↔ ∃ a d, phase = .approveConsumed a d ∧ a.pairingId = p := by
  cases phase with
  | approveConsumed a d => simp [Phase.forgets]
  | _ => simp [Phase.forgets]

/-- A consumer's pairing is consumed. -/
theorem PhaseFine.consumed {late : Bool} {phase : Phase} {p : String} (h : PhaseFine k s late phase)
    (hp : phase.forgets = some p) : s.isConsumed p = true := by
  obtain ⟨a, d, rfl, rfl⟩ := forgets_iff.mp hp
  exact h.2.1

theorem call_inv {phase : Phase} {p : String} (h : Inv k s) (hp : phase.start = some p) :
    Inv k { s with threads := s.threads ++ [⟨s.isConsumed p, phase⟩] } := by
  have hgrows : Grows none s { s with threads := s.threads ++ [⟨s.isConsumed p, phase⟩] } :=
    (Grows.refl _).withThreads _
  have hnew : phase.forgets = none ∧ PhaseFine k s (s.isConsumed p) phase := by
    cases phase with
    | offer _ _ => exact ⟨rfl, trivial⟩
    | claim payload =>
        cases hp
        exact ⟨rfl, id⟩
    | approve a =>
        cases hp
        exact ⟨rfl, id⟩
    | _ => cases hp
  have hcases : ∀ (i : Nat) u, (s.threads ++ [⟨s.isConsumed p, phase⟩])[i]? = some u →
      s.threads[i]? = some u ∨ u = ⟨s.isConsumed p, phase⟩ := by
    intro i u hu
    rcases Nat.lt_or_ge i s.threads.length with hi | hi
    · rw [List.getElem?_append_left hi] at hu
      exact Or.inl hu
    · rw [List.getElem?_append_right hi] at hu
      exact Or.inr (List.mem_singleton.mp (List.mem_of_getElem? hu))
  constructor
  · exact h.shared.withThreads _
  · intro i u hu
    rcases hcases i u hu with hold | rfl
    · exact (h.threads i u hold).grows hgrows fun _ _ => (nomatch ·)
    · exact hnew.2.grows hgrows fun _ _ => (nomatch ·)
  · intro i j u v q hu hv hpu hpv
    rcases hcases i u hu with hold | rfl
    · rcases hcases j v hv with hold' | rfl
      · exact h.consumers i j u v q hold hold' hpu hpv
      · exact nomatch hnew.1.symm.trans hpv
    · exact nomatch hnew.1.symm.trans hpu

theorem getElem_set_cases {l : List Thread} {i j : Nat} {u v : Thread} (h : (l.set i u)[j]? = some v) :
    (i = j ∧ v = u) ∨ (i ≠ j ∧ l[j]? = some v) := by
  by_cases hij : i = j
  · subst hij
    refine Or.inl ⟨rfl, ?_⟩
    rw [List.getElem?_set_self'] at h
    obtain ⟨_, -, hv⟩ := Option.map_eq_some_iff.mp h
    exact hv.symm
  · rw [List.getElem?_set_ne hij] at h
    exact Or.inr ⟨hij, h⟩

theorem stepThread_inv {i : Nat} {u : Thread} (h : Inv k s) (hu : s.threads[i]? = some u) :
    Inv k (stepThread k ttl s i u) := by
  have hadv := advance_advanced ttl h.shared (h.threads i u hu)
  constructor
  · exact hadv.inv.withThreads _
  · intro j v hv
    rcases getElem_set_cases hv with ⟨-, rfl⟩ | ⟨hne, hv⟩
    · exact hadv.fine.grows ((Grows.refl none).withThreads _) fun _ _ => (nomatch ·)
    · refine (h.threads j v hv).grows (hadv.grows.withThreads _) fun q hq heq => ?_
      exact hne (h.consumers i j u v q hu hv heq hq)
  · intro j l v w q hv hw hpv hpw
    rcases getElem_set_cases hv with ⟨rfl, rfl⟩ | ⟨hnej, hv⟩
    · rcases getElem_set_cases hw with ⟨rfl, -⟩ | ⟨-, hw⟩
      · rfl
      · obtain ⟨a, d, hphase, rfl⟩ := forgets_iff.mp hpv
        have hopen := hadv.consumes a d hphase
        exact nomatch hopen.symm.trans ((h.threads l w hw).consumed hpw)
    · rcases getElem_set_cases hw with ⟨rfl, rfl⟩ | ⟨-, hw⟩
      · obtain ⟨a, d, hphase, rfl⟩ := forgets_iff.mp hpw
        have hopen := hadv.consumes a d hphase
        exact nomatch hopen.symm.trans ((h.threads j v hv).consumed hpv)
      · exact h.consumers j l v w q hv hw hpv hpw

/-- Another clock and other devices, for the same threads. -/
theorem Inv.environment {clock : Nat} {devices : List DeviceRecord} (h : Inv k s) (hclock : s.clock ≤ clock)
    (hdevices : DeviceKeys devices) : Inv k { s with clock := clock, devices := devices } where
  shared := ⟨h.shared.secret, h.shared.consumed, h.shared.once, hdevices, h.shared.claims, h.shared.stays, h.shared.verified⟩
  threads i u hu := by
    have hgrows : Grows none s { s with clock := clock, devices := devices } :=
      ⟨fun _ hc => hc, fun _ hp => hp, hclock, fun _ _ hp => hp, fun _ _ h => h⟩
    exact (h.threads i u hu).grows hgrows fun _ _ => (nomatch ·)
  consumers := h.consumers

def revokeIn (clock : Nat) (deviceId : String) (d : DeviceRecord) : DeviceRecord :=
  if d.deviceId = deviceId then { d with revokedAt := some (d.revokedAt.getD clock) } else d

theorem revokeIn_keys (clock : Nat) (deviceId : String) (d : DeviceRecord) :
    (revokeIn clock deviceId d).deviceId = d.deviceId ∧ (revokeIn clock deviceId d).publicKey = d.publicKey := by
  unfold revokeIn
  split <;> exact ⟨rfl, rfl⟩

/-- A device that is revoked is revoked for good. -/
theorem revokeIn_revoked {clock : Nat} {deviceId : String} {d : DeviceRecord} (h : d.revokedAt ≠ none) :
    revokeIn clock deviceId d = d := by
  unfold revokeIn
  split
  · obtain ⟨time, htime⟩ := Option.ne_none_iff_exists'.mp h
    rw [htime, Option.getD_some, ← htime]
  · rfl

theorem next_inv {a : Action} (h : Inv k s) (hn : next k ttl s a = some t) : Inv k t := by
  cases a with
  | call phase =>
      obtain ⟨p, hp, rfl⟩ := Option.map_eq_some_iff.mp hn
      exact call_inv h hp
  | step i =>
      obtain ⟨u, hu, rfl⟩ := Option.map_eq_some_iff.mp hn
      exact stepThread_inv h hu
  | tick time =>
      cases Option.some.inj hn
      exact h.environment (Nat.le_add_right ..) h.shared.devices
  | revoke deviceId =>
      cases Option.some.inj hn
      exact h.environment (Nat.le_refl _) (h.shared.devices.of_map fun d _ => revokeIn_keys s.clock deviceId d)
  | restart =>
      cases Option.some.inj hn
      exact {
        shared := {
          secret := h.shared.secret
          consumed := h.shared.consumed
          once := h.shared.once
          devices := h.shared.devices
          claims := fun _ _ hc => nomatch hc
          stays := fun _ hc => absurd hc List.not_mem_nil
          verified := fun _ hc => absurd hc List.not_mem_nil }
        threads := fun _ _ hu => nomatch hu
        consumers := fun _ _ _ _ _ hu => nomatch hu }

theorem inv_reach (h : (pairingMachine k ttl).Reachable s) : Inv k s := by
  refine h.invariant ?_ ?_
  · rintro s rfl
    exact {
      shared := {
        secret := fun _ _ hr => nomatch hr
        consumed := fun p => by simp [System.isConsumed]
        once := List.nodup_nil
        devices := ⟨List.nodup_nil, List.nodup_nil⟩
        claims := fun _ _ hc => nomatch hc
        stays := fun _ hc => absurd hc List.not_mem_nil
        verified := fun _ hc => absurd hc List.not_mem_nil }
      threads := fun _ _ hu => nomatch hu
      consumers := fun _ _ _ _ _ hu => nomatch hu }
  · intro s a t hs _ hn
    have hn' : next k ttl s a = some t := hn
    exact next_inv hs hn'

/-! ## Devices -/

/-- The step of an approval that consumes: the claim was accepted in this process, is of this pairing, and carries the
approved code; the pairing is open at the time the approval has read. -/
structure Registers (k : Crypto) (s t : System) (i : Nat) (a : Approval) (claim : PendingPairingClaim) (now : Nat)
    (device : DeviceRecord) : Prop where
  before : ∃ late, s.threads[i]? = some ⟨late, .approveConfirmed a claim now⟩
  after : ∃ late, t.threads[i]? = some ⟨late, .approveConsumed a device⟩
  accepted : claim ∈ s.accepted
  verified : Verified k s claim
  pairing : claim.pairingId = a.pairingId
  code : claim.confirmationCode = a.confirmationCode
  consumes : Consumes s t a claim now device
  now : now ≤ s.clock

/-- The devices change by a consumption or a revocation only. -/
inductive DevicesStep (k : Crypto) (s : System) (act : Action) (t : System) : Prop where
  | same : t.devices = s.devices → t.consumptions = s.consumptions → DevicesStep k s act t
  | registers (i : Nat) (a : Approval) (claim : PendingPairingClaim) (now : Nat) (device : DeviceRecord) :
      act = .step i → Registers k s t i a claim now device → DevicesStep k s act t
  | revoke (deviceId : String) : act = .revoke deviceId → t.devices = s.devices.map (revokeIn s.clock deviceId) →
      t.consumptions = s.consumptions → DevicesStep k s act t

theorem goOn_same {α : Type} {x : Except Failure α} {f : α → Phase × System} {out : Phase × System}
    (h : goOn s x f = out) (hok : ∀ a, x = .ok a → (f a).2.devices = s.devices ∧ (f a).2.consumptions = s.consumptions) :
    out.2.devices = s.devices ∧ out.2.consumptions = s.consumptions := by
  subst h
  cases x with
  | ok a => exact hok a rfl
  | error e => exact ⟨rfl, rfl⟩

/-- Every step but that of a confirmed approval leaves the devices. -/
theorem advance_devices (k : Crypto) (ttl : Nat) (s : System) (phase : Phase) :
    ((advance k ttl s phase).2.devices = s.devices ∧ (advance k ttl s phase).2.consumptions = s.consumptions) ∨
      ∃ a claim now, phase = .approveConfirmed a claim now := by
  cases phase with
  | offerTimed p secret expiresAt =>
      refine Or.inl (goOn_same rfl fun t ht => ?_)
      obtain ⟨_, _, ht⟩ := Except.bind_eq_ok.mp ht
      obtain ⟨_, _, ht⟩ := Except.bind_eq_ok.mp ht
      obtain ⟨_, _, ht⟩ := Except.bind_eq_ok.mp ht
      cases ht
      exact ⟨rfl, rfl⟩
  | claimVerified claim =>
      refine Or.inl (goOn_same rfl fun t ht => ?_)
      unfold acceptClaim at ht
      split at ht
      · cases ht
      · cases ht
        exact ⟨rfl, rfl⟩
  | approveTimed a claim session now =>
      refine Or.inl (goOn_same rfl fun t ht => ?_)
      unfold confirmStep at ht
      split at ht
      · obtain ⟨_, _, ht⟩ := Except.bind_eq_ok.mp ht
        cases ht
        exact ⟨rfl, rfl⟩
      · cases ht
        exact ⟨rfl, rfl⟩
      · cases ht
  | approveConsumed a d =>
      refine Or.inl (goOn_same rfl fun t ht => ?_)
      unfold forgetClaim at ht
      split at ht
      · cases ht
      · cases ht
        exact ⟨rfl, rfl⟩
  | approveConfirmed a claim now => exact Or.inr ⟨a, claim, now, rfl⟩
  | claim payload => exact Or.inl (goOn_same rfl fun _ _ => ⟨rfl, rfl⟩)
  | claimRead payload session => exact Or.inl (goOn_same rfl fun _ _ => ⟨rfl, rfl⟩)
  | approve a => exact Or.inl (goOn_same rfl fun _ _ => ⟨rfl, rfl⟩)
  | approveClaimed a claim => exact Or.inl (goOn_same rfl fun _ _ => ⟨rfl, rfl⟩)
  | offer p secret => exact Or.inl ⟨rfl, rfl⟩
  | approveRead a claim session => exact Or.inl ⟨rfl, rfl⟩
  | ended outcome => exact Or.inl ⟨rfl, rfl⟩

theorem next_devices {act : Action} (h : Inv k s) (hn : next k ttl s act = some t) : DevicesStep k s act t := by
  cases act with
  | call phase =>
      obtain ⟨p, hp, rfl⟩ := Option.map_eq_some_iff.mp hn
      exact .same rfl rfl
  | step i =>
      obtain ⟨u, hu, rfl⟩ := Option.map_eq_some_iff.mp hn
      rcases advance_devices k ttl s u.phase with ⟨hd, hc⟩ | ⟨a, claim, now, hphase⟩
      · exact .same hd hc
      · obtain ⟨late, phase⟩ := u
        obtain rfl : phase = .approveConfirmed a claim now := hphase
        obtain ⟨hchosen, -, hnow⟩ := h.threads i _ hu
        cases hstep : consumeStep s a claim now with
        | error e => exact .same (by simp [stepThread, advance, goOn, hstep]) (by simp [stepThread, advance, goOn, hstep])
        | ok out =>
            obtain ⟨device, next⟩ := out
            obtain ⟨hcon, -⟩ := consumeStep_ok h.shared hstep
            have ht : stepThread k ttl s i ⟨late, .approveConfirmed a claim now⟩ =
                { next with threads := s.threads.set i ⟨late, .approveConsumed a device⟩ } := by
              simp [stepThread, advance, goOn, hstep]
            have hi : i < s.threads.length := (List.getElem?_eq_some_iff.mp hu).1
            rw [ht]
            exact .registers i a claim now device rfl {
              before := ⟨late, hu⟩
              after := ⟨late, List.getElem?_set_self hi⟩
              accepted := hchosen.accepted
              verified := h.shared.verified _ hchosen.accepted
              pairing := hchosen.pairing
              code := hchosen.code
              consumes := ⟨hcon.session, hcon.destroyed, hcon.claimed, hcon.devices, hcon.logged⟩
              now := hnow }
  | tick time =>
      cases Option.some.inj hn
      exact .same rfl rfl
  | revoke deviceId =>
      cases Option.some.inj hn
      exact .revoke deviceId rfl rfl rfl
  | restart =>
      cases Option.some.inj hn
      exact .same rfl rfl

/-- A revoked device keeps its row whatever is registered or refreshed. -/
theorem OneDevice.revoked {before after : List DeviceRecord} {device d : DeviceRecord} (hkeys : DeviceKeys before)
    (h : OneDevice before device after) (hd : d ∈ before) (hrevoked : d.revokedAt ≠ none) : d ∈ after := by
  cases h with
  | insert _ => exact List.mem_append_left _ hd
  | refresh existing hmem _ _ hlive _ =>
      refine List.mem_map.mpr ⟨d, hd, if_neg fun heq => ?_⟩
      rw [hkeys.eq_of_id hd hmem heq] at hrevoked
      exact hrevoked hlive

theorem DevicesStep.revoked {act : Action} (hinv : Inv k s) (h : DevicesStep k s act t) {d : DeviceRecord} (hd : d ∈ s.devices)
    (hrevoked : d.revokedAt ≠ none) : d ∈ t.devices := by
  cases h with
  | same hdevices _ =>
      rw [hdevices]
      exact hd
  | registers i a claim now device _ hreg => exact hreg.consumes.devices.revoked hinv.shared.devices hd hrevoked
  | revoke deviceId _ hdevices _ =>
      rw [hdevices]
      exact List.mem_map.mpr ⟨d, hd, revokeIn_revoked hrevoked⟩

/-! ## Runs -/

/-- What holds of the pairings and the devices in a state of a run. -/
structure System.Sound (k : Crypto) (ttl : Nat) (s : System) : Prop where
  /-- A pairing is consumed once, and then has no secret. -/
  once : (s.consumptions.map (·.pairingId)).Nodup
  consumed : ∀ p r, s.sessions p = some r →
    (r.status = .consumed ↔ p ∈ s.consumptions.map (·.pairingId)) ∧ (r.status = .consumed → r.secretHash = none)
  /-- Until then its claims are equal. -/
  agree : ∀ c ∈ s.accepted, ∀ d ∈ s.accepted, c.pairingId = d.pairingId → s.isConsumed c.pairingId = false → c = d
  verified : ∀ c ∈ s.accepted, Verified k s c
  /-- No claim or approval that began after it succeeds. -/
  late : ∀ u ∈ s.threads, u.late = true → (∀ c, u.phase ≠ .ended (.claimed c)) ∧ ∀ d, u.phase ≠ .ended (.approved d)
  devices : ∀ act t, next k ttl s act = some t → DevicesStep k s act t
  /-- An approval that has registered its device returns it, and one that raises has changed no device. -/
  returns : ∀ (i : Nat) late a d t, s.threads[i]? = some ⟨late, .approveConsumed a d⟩ → next k ttl s (.step i) = some t →
    t.threads[i]? = some ⟨late, .ended (.approved d)⟩ ∧ t.devices = s.devices
  raises : ∀ (i : Nat) late e t, next k ttl s (.step i) = some t → t.threads[i]? = some ⟨late, .ended (.failed e)⟩ →
    t.devices = s.devices
  revoked : ∀ d ∈ s.devices, d.revokedAt ≠ none → ∀ act t, next k ttl s act = some t →
    d ∈ t.devices ∧ ∀ e ∈ t.devices, e.publicKey = d.publicKey → e = d

theorem approveConsumed_returns {i : Nat} {late : Bool} {a : Approval} {d : DeviceRecord} (h : Inv k s)
    (hu : s.threads[i]? = some ⟨late, .approveConsumed a d⟩) (hn : next k ttl s (.step i) = some t) :
    t.threads[i]? = some ⟨late, .ended (.approved d)⟩ ∧ t.devices = s.devices := by
  obtain ⟨u, hu', rfl⟩ := Option.map_eq_some_iff.mp hn
  cases Option.some.inj (hu.symm.trans hu')
  obtain ⟨-, -, hclaim⟩ := h.threads i _ hu
  obtain ⟨c, hc⟩ := Option.ne_none_iff_exists'.mp hclaim
  have hforget : forgetClaim s a.pairingId = .ok { s with claims := Function.update s.claims a.pairingId none } := by
    rw [forgetClaim, hc]
  have hi : i < s.threads.length := (List.getElem?_eq_some_iff.mp hu).1
  have ht : stepThread k ttl s i ⟨late, .approveConsumed a d⟩ =
      { s with
        claims := Function.update s.claims a.pairingId none
        threads := s.threads.set i ⟨late, .ended (.approved d)⟩ } := by
    simp [stepThread, advance, goOn, hforget]
  rw [ht]
  exact ⟨List.getElem?_set_self hi, rfl⟩

/-- In every state of a run, whatever the threads, their steps, the restarts and the passage of time. -/
theorem pairings_sound (h : (pairingMachine k ttl).Reachable s) : s.Sound k ttl := by
  have hinv := inv_reach h
  exact {
    once := hinv.shared.once
    consumed := fun p r hr => by
      refine ⟨?_, hinv.shared.secret p r hr⟩
      rw [← hinv.shared.consumed, System.isConsumed, hr, Option.any_some, decide_eq_true_iff]
    agree := fun c hc d hd hp hopen => by
      have hcs := hinv.shared.stays c hc hopen
      have hds := hinv.shared.stays d hd (hp ▸ hopen)
      rw [hp, hds] at hcs
      exact (Option.some.inj hcs).symm
    verified := hinv.shared.verified
    late := fun u hu hlate => by
      obtain ⟨i, hi⟩ := List.getElem?_of_mem hu
      have hfine := hinv.threads i u hi
      constructor
      · intro c hphase
        rw [hphase] at hfine
        cases hlate.symm.trans hfine
      · intro d hphase
        rw [hphase] at hfine
        cases hlate.symm.trans hfine
    devices := fun act t hn => next_devices hinv hn
    returns := fun i late a d t hu hn => approveConsumed_returns hinv hu hn
    raises := fun i late e t hn hu => by
      cases next_devices hinv hn with
      | same hdevices _ => exact hdevices
      | registers j a claim now device hact hreg =>
          cases hact
          obtain ⟨late', hafter⟩ := hreg.after
          cases hafter.symm.trans hu
      | revoke deviceId hact _ _ => cases hact
    revoked := fun d hd hrevoked act t hn => by
      have hmem := (next_devices hinv hn).revoked hinv hd hrevoked
      exact ⟨hmem, fun e he hkey => List.inj_on_of_nodup_map (next_inv hinv hn).shared.devices.keys he hmem hkey⟩ }

/-! ## A pairing that expires while it is approved -/

def offeredSecret : String := "AAAAAAAAAAAAAAAAAAAAAAAAAAAAAAAAAAAAAAAAAAA"

/-- Keys that parse and signatures that are right. -/
def honest : Crypto where
  serverId := "server"
  secretHash secret :=
    if secret = offeredSecret then "d4aefd9fd5f3dd668b320cd9c97e6c6cb2b9ca22a128e80593e22346acb88059" else ""
  parseKey _ := .ok ()
  decodes _ := true
  verify _ _ _ := true
  code signed := if signed.devicePublicKey = "key-1" then "004211" else "760098"

def claimOf (key : String) : PairClaimPayload where
  pairingId := "p1"
  oneTimeSecret := offeredSecret
  devicePublicKey := key
  deviceName := "phone"
  capabilities := []
  clientNonce := "nonce-0123456789"
  signature := "signature"

def approvalOf : Approval where
  pairingId := "p1"
  confirmationCode := "004211"
  deviceId := "device-1"

/-- An offer, a claim that is accepted and one that is verified, and an approval up to its reading of the clock. -/
def approvalRun : List Action :=
  [.call (.offer "p1" offeredSecret), .step 0, .step 0, .call (.claim (claimOf "key-1")), .call (.claim (claimOf "key-2")),
    .step 1, .step 1, .step 2, .step 2, .step 1, .call (.approve approvalOf), .step 3, .step 3, .step 3]

def after (rest : List Action) : System := ((pairingMachine honest 480).run {} (approvalRun ++ rest)).getD {}

theorem after_reach {rest : List Action} (h : ((pairingMachine honest 480).run {} (approvalRun ++ rest)).isSome = true) :
    (pairingMachine honest 480).Reachable (after rest) :=
  Machine.reach_getD rfl (fun _ _ _ => trivial) h

theorem pairings_sound_example : (after [.step 3, .step 3, .step 3]).devices.length = 1 ∧
    (after [.step 3, .step 3, .step 3]).Sound honest 480 :=
  ⟨by decide, pairings_sound (after_reach (by decide))⟩

/-- The time of an approval is the one it has read: its pairing is past its expiry when the device is registered.  And
a claim that was verified before its pairing was consumed is accepted after. -/
theorem registered_expired : (∃ s t r, (pairingMachine honest 480).Reachable s ∧ s.sessions "p1" = some r ∧
      r.expiresAt < s.clock ∧ s.devices = [] ∧ next honest 480 s (.step 3) = some t ∧ t.devices.length = 1) ∧
    ∃ s t c, (pairingMachine honest 480).Reachable s ∧ s.isConsumed "p1" = true ∧ next honest 480 s (.step 2) = some t ∧
      t.threads[2]? = some ⟨false, .ended (.claimed c)⟩ := by
  constructor
  · refine ⟨after [.tick 481, .step 3], _, _, after_reach (by decide), rfl, ?_, rfl, rfl, rfl⟩
    decide
  · exact ⟨after [.step 3, .step 3, .step 3], _, _, after_reach (by decide), by decide, rfl, rfl⟩

end MonoAgent.Pairing
