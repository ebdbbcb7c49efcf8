import Mathlib
import MonoAgent.Pairing.Service

/-!
# What a step of a call does

The shared state keeps its invariant, what other threads rely on only grows, and the thread
goes to a phase whose locals are right.
-/

namespace MonoAgent.Pairing

open MonoAgent.Lib

variable {k : Crypto} {ttl : Nat} {s t : System} {p : String} {now : Nat} {claim : PendingPairingClaim} {a : Approval}

/-! ## Devices -/

/-- One device is new, or one known device is refreshed. -/
inductive OneDevice (before : List DeviceRecord) (device : DeviceRecord) : List DeviceRecord → Prop where
  | insert : (∀ d ∈ before, d.deviceId ≠ device.deviceId ∧ d.publicKey ≠ device.publicKey) →
      OneDevice before device (before ++ [device])
  | refresh (existing : DeviceRecord) : existing ∈ before → existing.deviceId = device.deviceId →
      existing.publicKey = device.publicKey → existing.revokedAt = none → existing.createdAt = device.createdAt →
      OneDevice before device (before.map fun d => if d.deviceId = existing.deviceId then device else d)

theorem registerOrRefresh_ok {device registered : DeviceRecord} (h : registerOrRefresh s device = .ok (registered, t))
    (hnew : device.revokedAt = none) :
    registered.publicKey = device.publicKey ∧ registered.displayName = device.displayName ∧
      registered.capabilities = device.capabilities ∧ registered.revokedAt = none ∧
      OneDevice s.devices registered t.devices ∧ t = { s with devices := t.devices } := by
  unfold registerOrRefresh at h
  split at h
  · unfold insertDevice at h
    split at h
    · cases h
    · next hnone =>
        cases h
        refine ⟨rfl, rfl, rfl, hnew, .insert fun d hd => ?_, rfl⟩
        have hno := List.any_eq_false.mp (Bool.not_eq_true _ ▸ hnone) d hd
        exact not_or.mp fun h => hno (decide_eq_true h)
  · next existing hfind =>
      unfold refreshDevice at h
      split at h
      · cases h
      · next hrevoked =>
          cases h
          have hlive := not_not.mp hrevoked
          have hfound : decide (existing.publicKey = device.publicKey) = true :=
            List.find?_some (p := fun d : DeviceRecord => decide (d.publicKey = device.publicKey)) hfind
          have hkey := of_decide_eq_true hfound
          exact ⟨hkey, rfl, rfl, hlive, .refresh existing (List.mem_of_find?_eq_some hfind) rfl rfl hlive rfl, rfl⟩

/-- A device has one row, and a key one device. -/
structure DeviceKeys (devices : List DeviceRecord) : Prop where
  ids : (devices.map (·.deviceId)).Nodup
  keys : (devices.map (·.publicKey)).Nodup

theorem DeviceKeys.of_map {devices : List DeviceRecord} {f : DeviceRecord → DeviceRecord} (h : DeviceKeys devices)
    (hf : ∀ d ∈ devices, (f d).deviceId = d.deviceId ∧ (f d).publicKey = d.publicKey) : DeviceKeys (devices.map f) where
  ids := by
    have hids : (devices.map f).map (·.deviceId) = devices.map (·.deviceId) := by
      rw [List.map_map]
      exact List.map_congr_left fun d hd => (hf d hd).1
    rw [hids]
    exact h.ids
  keys := by
    have hkeys : (devices.map f).map (·.publicKey) = devices.map (·.publicKey) := by
      rw [List.map_map]
      exact List.map_congr_left fun d hd => (hf d hd).2
    rw [hkeys]
    exact h.keys

theorem DeviceKeys.eq_of_id {devices : List DeviceRecord} {d e : DeviceRecord} (h : DeviceKeys devices)
    (hd : d ∈ devices) (he : e ∈ devices) (hid : d.deviceId = e.deviceId) : d = e :=
  List.inj_on_of_nodup_map h.ids hd he hid

theorem DeviceKeys.oneDevice {before after : List DeviceRecord} {device : DeviceRecord} (h : DeviceKeys before)
    (hone : OneDevice before device after) : DeviceKeys after := by
  cases hone with
  | insert hfresh =>
      constructor
      · rw [List.map_append, List.nodup_append]
        refine ⟨h.ids, List.nodup_singleton _, fun x hx y hy hxy => ?_⟩
        obtain ⟨d, hd, rfl⟩ := List.mem_map.mp hx
        exact (hfresh d hd).1 (hxy.trans (List.mem_singleton.mp hy))
      · rw [List.map_append, List.nodup_append]
        refine ⟨h.keys, List.nodup_singleton _, fun x hx y hy hxy => ?_⟩
        obtain ⟨d, hd, rfl⟩ := List.mem_map.mp hx
        exact (hfresh d hd).2 (hxy.trans (List.mem_singleton.mp hy))
  | refresh existing hmem hid hkey hlive _ =>
      refine h.of_map fun d hd => ?_
      by_cases heq : d.deviceId = existing.deviceId
      · rw [if_pos heq, h.eq_of_id hd hmem heq]
        exact ⟨hid.symm, hkey.symm⟩
      · rw [if_neg heq]
        exact ⟨rfl, rfl⟩

/-! ## The shared state -/

/-- The pairing has a session, whose secret has this hash until it is consumed. -/
def HasSecret (s : System) (p : String) (secretHash : Option String) : Prop :=
  ∃ r, s.sessions p = some r ∧ (r.status ≠ .consumed → r.secretHash = secretHash)

/-- The claim came with the secret of its pairing, and was signed by the holder of its key; its code is that of
what was signed. -/
def Verified (k : Crypto) (s : System) (claim : PendingPairingClaim) : Prop :=
  ∃ payload, claim.pairingId = payload.pairingId ∧ claim.devicePublicKey = payload.devicePublicKey ∧
    HasSecret s payload.pairingId (some (k.secretHash payload.oneTimeSecret)) ∧
    k.parseKey payload.devicePublicKey = .ok () ∧
    k.verify payload.devicePublicKey payload.signature (transcript k payload (k.secretHash payload.oneTimeSecret)) = true ∧
    claim.confirmationCode = k.code (transcript k payload (k.secretHash payload.oneTimeSecret))

theorem Verified.mono (h : Verified k s claim)
    (hle : ∀ p hash, HasSecret s p hash → HasSecret t p hash) : Verified k t claim := by
  obtain ⟨payload, hp, hkey, hsecret, hsigned⟩ := h
  exact ⟨payload, hp, hkey, hle _ _ hsecret, hsigned⟩

/-- The invariant of the tables and the claims. -/
structure SharedInv (k : Crypto) (s : System) : Prop where
  secret : ∀ p r, s.sessions p = some r → r.status = .consumed → r.secretHash = none
  consumed : ∀ p, s.isConsumed p = true ↔ p ∈ s.consumptions.map (·.pairingId)
  once : (s.consumptions.map (·.pairingId)).Nodup
  devices : DeviceKeys s.devices
  claims : ∀ p c, s.claims p = some c → c ∈ s.accepted ∧ c.pairingId = p
  /-- Until a pairing is consumed, its claim stays. -/
  stays : ∀ c ∈ s.accepted, s.isConsumed c.pairingId = false → s.claims c.pairingId = some c
  verified : ∀ c ∈ s.accepted, Verified k s c

theorem isConsumed_iff : s.isConsumed p = true ↔ ∃ r, s.sessions p = some r ∧ r.status = .consumed := by
  rw [System.isConsumed, Option.any_eq_true]
  simp

theorem setSession_self {r : PairingSessionRecord} : (setSession s p r).sessions p = some r :=
  Function.update_self ..

theorem setSession_other {r : PairingSessionRecord} {q : String} (h : q ≠ p) :
    (setSession s p r).sessions q = s.sessions q :=
  Function.update_of_ne h ..

theorem isConsumed_setSession {r : PairingSessionRecord} {q : String} :
    (setSession s p r).isConsumed q = if q = p then decide (r.status = .consumed) else s.isConsumed q := by
  by_cases hq : q = p
  · rw [if_pos hq, hq, System.isConsumed, setSession_self, Option.any_some]
  · rw [if_neg hq, System.isConsumed, setSession_other hq]
    rfl

theorem hasSecret_setSession {r : PairingSessionRecord} {q : String} {hash : Option String} (h : HasSecret s q hash)
    (hr : ∀ old, s.sessions p = some old → r.status ≠ .consumed → old.status ≠ .consumed ∧ r.secretHash = old.secretHash) :
    HasSecret (setSession s p r) q hash := by
  obtain ⟨old, hold, hhash⟩ := h
  by_cases hq : q = p
  · subst hq
    refine ⟨r, setSession_self, fun hs => ?_⟩
    obtain ⟨hlive, hsame⟩ := hr old hold hs
    exact hsame.trans (hhash hlive)
  · exact ⟨old, (setSession_other hq).trans hold, hhash⟩

/-- A session that is not consumed, and was not. -/
theorem SharedInv.setSession {r : PairingSessionRecord} (h : SharedInv k s) (hold : s.isConsumed p = false)
    (hnew : r.status ≠ .consumed) (hsecret : ∀ old, s.sessions p = some old → r.secretHash = old.secretHash) :
    SharedInv k (setSession s p r) ∧ (∀ q, (Pairing.setSession s p r).isConsumed q = s.isConsumed q) ∧
      ∀ q hash, HasSecret s q hash → HasSecret (Pairing.setSession s p r) q hash := by
  have hsame : ∀ q, (Pairing.setSession s p r).isConsumed q = s.isConsumed q := by
    intro q
    rw [isConsumed_setSession]
    split
    · next hq => rw [hq, hold, decide_eq_false hnew]
    · rfl
  have hkeeps : ∀ q hash, HasSecret s q hash → HasSecret (Pairing.setSession s p r) q hash := by
    refine fun q hash h => hasSecret_setSession h fun old hr _ => ⟨fun hs => ?_, hsecret old hr⟩
    rw [isConsumed_iff.mpr ⟨old, hr, hs⟩] at hold
    cases hold
  refine ⟨?_, hsame, hkeeps⟩
  exact {
    secret := fun q r' hr' hs => by
      by_cases hq : q = p
      · subst hq
        rw [setSession_self] at hr'
        cases Option.some.inj hr'
        exact absurd hs hnew
      · rw [setSession_other hq] at hr'
        exact h.secret q r' hr' hs
    consumed := fun q => by
      rw [hsame]
      exact h.consumed q
    once := h.once
    devices := h.devices
    claims := h.claims
    stays := fun c hc hno => h.stays c hc (by rw [← hsame]; exact hno)
    verified := fun c hc => (h.verified c hc).mono hkeeps }

/-! ## What other threads rely on -/

/-- What was accepted and consumed stays so, the clock does not go back, no claim is forgotten but that of `hole`,
and no session gets another secret. -/
structure Grows (hole : Option String) (s t : System) : Prop where
  accepted : ∀ c ∈ s.accepted, c ∈ t.accepted
  consumed : ∀ p, s.isConsumed p = true → t.isConsumed p = true
  clock : s.clock ≤ t.clock
  claims : ∀ p, hole ≠ some p → s.claims p ≠ none → t.claims p ≠ none
  secrets : ∀ p hash, HasSecret s p hash → HasSecret t p hash

theorem Grows.refl (hole : Option String) : Grows hole s s :=
  ⟨fun _ hc => hc, fun _ hp => hp, Nat.le_refl _, fun _ _ hp => hp, fun _ _ h => h⟩

/-- The locals of an approval after its code was checked. -/
structure Chosen (s : System) (late : Bool) (a : Approval) (claim : PendingPairingClaim) : Prop where
  accepted : claim ∈ s.accepted
  pairing : claim.pairingId = a.pairingId
  code : claim.confirmationCode = a.confirmationCode
  late : late = true → s.isConsumed a.pairingId = true

/-- What the locals of a call are at a phase. -/
def PhaseFine (k : Crypto) (s : System) (late : Bool) : Phase → Prop
  | .claim payload => late = true → s.isConsumed payload.pairingId = true
  | .claimRead payload session => late = false ∧ HasSecret s payload.pairingId session.secretHash
  | .claimVerified claim => late = false ∧ Verified k s claim
  | .approve a => late = true → s.isConsumed a.pairingId = true
  | .approveClaimed a claim => Chosen s late a claim
  | .approveRead a claim session => Chosen s late a claim ∧ (late = true → session.status = .consumed)
  | .approveTimed a claim session now =>
      Chosen s late a claim ∧ (late = true → session.status = .consumed) ∧ now ≤ s.clock
  | .approveConfirmed a claim now => Chosen s late a claim ∧ late = false ∧ now ≤ s.clock
  | .approveConsumed a _ => late = false ∧ s.isConsumed a.pairingId = true ∧ s.claims a.pairingId ≠ none
  | .ended (.claimed _) => late = false
  | .ended (.approved _) => late = false
  | _ => True

/-- The pairing whose claim the next step of a call forgets. -/
def Phase.forgets : Phase → Option String
  | .approveConsumed a _ => some a.pairingId
  | _ => none

theorem Chosen.grows {hole : Option String} {late : Bool} (h : Chosen s late a claim) (hg : Grows hole s t) :
    Chosen t late a claim where
  accepted := hg.accepted _ h.accepted
  pairing := h.pairing
  code := h.code
  late hl := hg.consumed _ (h.late hl)

theorem PhaseFine.grows {hole : Option String} {late : Bool} {phase : Phase} (h : PhaseFine k s late phase)
    (hg : Grows hole s t) (hforgets : ∀ q, phase.forgets = some q → hole ≠ some q) : PhaseFine k t late phase := by
  match phase, h with
  | .offer .., _ => trivial
  | .offerTimed .., _ => trivial
  | .claim payload, h => exact fun hl => hg.consumed _ (h hl)
  | .claimRead _ _, ⟨hl, h⟩ => exact ⟨hl, hg.secrets _ _ h⟩
  | .claimVerified _, ⟨hl, h⟩ => exact ⟨hl, h.mono hg.secrets⟩
  | .approve a, h => exact fun hl => hg.consumed _ (h hl)
  | .approveClaimed a claim, h => exact Chosen.grows h hg
  | .approveRead a claim session, ⟨h, hs⟩ => exact ⟨h.grows hg, hs⟩
  | .approveTimed a claim session now, ⟨h, hs, hn⟩ => exact ⟨h.grows hg, hs, Nat.le_trans hn hg.clock⟩
  | .approveConfirmed a claim now, ⟨h, hl, hn⟩ => exact ⟨h.grows hg, hl, Nat.le_trans hn hg.clock⟩
  | .approveConsumed a d, ⟨hl, hc, hp⟩ => exact ⟨hl, hg.consumed _ hc, hg.claims _ (hforgets _ rfl) hp⟩
  | .ended (.offered _), _ => trivial
  | .ended (.claimed _), h => exact h
  | .ended (.approved _), h => exact h
  | .ended (.failed _), _ => trivial

/-! ## The transactions -/

theorem openSession_ok {status : PairingStatus} {verb : String} {session : PairingSessionRecord}
    (h : openSession s p status now verb = .ok session) :
    s.sessions p = some session ∧ session.status = status ∧ now < session.expiresAt := by
  unfold openSession at h
  split at h
  · cases h
  · next r hr =>
      split at h
      · cases h
      · next hs =>
          split at h
          · cases h
          · next he =>
              cases h
              exact ⟨hr, not_not.mp hs, Nat.lt_of_not_le he⟩

theorem not_consumed {r : PairingSessionRecord} (hr : s.sessions p = some r) (hs : r.status ≠ .consumed) :
    s.isConsumed p = false := by
  simp [System.isConsumed, hr, hs]

/-- What a consumption does: the pairing is confirmed and open at the time the approval has read, one device is new
or refreshed, and the secret is gone. -/
structure Consumes (s t : System) (a : Approval) (claim : PendingPairingClaim) (now : Nat) (device : DeviceRecord) :
    Prop where
  session : ∃ r, s.sessions a.pairingId = some r ∧ r.status = .confirmed ∧ now < r.expiresAt
  destroyed : ∃ r, t.sessions a.pairingId = some r ∧ r.status = .consumed ∧ r.secretHash = none
  claimed : device.publicKey = claim.devicePublicKey ∧ device.displayName = claim.deviceName ∧
    device.capabilities = claim.capabilities ∧ device.revokedAt = none
  devices : OneDevice s.devices device t.devices
  logged : t.consumptions = s.consumptions ++ [⟨a.pairingId, claim, a.confirmationCode, now⟩]

theorem consumeStep_ok {device : DeviceRecord} (h : SharedInv k s) (hok : consumeStep s a claim now = .ok (device, t)) :
    Consumes s t a claim now device ∧ SharedInv k t ∧ Grows none s t ∧ t.isConsumed a.pairingId = true ∧
      t.claims = s.claims ∧ t.accepted = s.accepted := by
  obtain ⟨⟨registered, u⟩, hconsume, hok⟩ := Except.bind_eq_ok.mp hok
  cases hok
  obtain ⟨r, hr, hconsume⟩ := Except.bind_eq_ok.mp hconsume
  obtain ⟨⟨registered', v⟩, hregister, hconsume⟩ := Except.bind_eq_ok.mp hconsume
  cases hconsume
  obtain ⟨hsession, hstatus, hopen⟩ := openSession_ok hr
  obtain ⟨hkey, hname, hcaps, hlive, hone, hsame⟩ := registerOrRefresh_ok hregister rfl
  have hfresh : s.isConsumed a.pairingId = false := not_consumed hsession (by rw [hstatus]; exact (nomatch ·))
  have hconsumed (q : String) : (setSession v a.pairingId { r with secretHash := none, status := .consumed }).isConsumed q =
      if q = a.pairingId then true else s.isConsumed q := by
    rw [isConsumed_setSession, hsame]
    rfl
  have hsecrets (q : String) (hash : Option String) (hq : HasSecret s q hash) :
      HasSecret (setSession v a.pairingId { r with secretHash := none, status := .consumed }) q hash := by
    rw [hsame]
    exact hasSecret_setSession (s := { s with devices := v.devices }) hq fun _ _ hlive => absurd rfl hlive
  refine ⟨{
    session := ⟨r, hsession, hstatus, hopen⟩
    destroyed := ⟨{ r with secretHash := none, status := .consumed }, setSession_self, rfl, rfl⟩
    claimed := ⟨hkey, hname, hcaps, hlive⟩
    devices := hone
    logged := rfl }, ?_, ?_, ?_, ?_, ?_⟩
  · exact {
      secret := fun q r' hr' hs => by
        by_cases hq : q = a.pairingId
        · subst hq
          cases Option.some.inj (setSession_self.symm.trans hr')
          rfl
        · have hr'' : v.sessions q = some r' := (setSession_other hq).symm.trans hr'
          rw [hsame] at hr''
          exact h.secret q r' hr'' hs
      consumed := fun q => by
        show (setSession v _ _).isConsumed q = true ↔ q ∈ (s.consumptions ++ [Consumption.mk a.pairingId claim a.confirmationCode now]).map Consumption.pairingId
        rw [hconsumed, List.map_append, List.mem_append, ← h.consumed q]
        by_cases hq : q = a.pairingId
        · simp [hq]
        · simp [hq]
      once := by
        show ((s.consumptions ++ [Consumption.mk a.pairingId claim a.confirmationCode now]).map Consumption.pairingId).Nodup
        rw [List.map_append, List.nodup_append]
        refine ⟨h.once, List.nodup_singleton _, fun x hx y hy hxy => ?_⟩
        have hxa : x = a.pairingId := hxy.trans (List.mem_singleton.mp hy)
        rw [hxa, ← h.consumed, hfresh] at hx
        cases hx
      devices := h.devices.oneDevice hone
      claims := fun q c hc => by
        rw [hsame] at hc ⊢
        exact h.claims q c hc
      stays := fun c hc hno => by
        have hno' : (setSession v a.pairingId { r with secretHash := none, status := .consumed }).isConsumed c.pairingId =
          false := hno
        rw [hconsumed] at hno'
        split at hno'
        · cases hno'
        · rw [hsame] at hc ⊢
          exact h.stays c hc hno'
      verified := fun c hc => by
        rw [hsame] at hc
        exact (h.verified c hc).mono hsecrets }
  · exact {
      accepted := fun c hc => by
        rw [hsame]
        exact hc
      consumed := fun q hq => by
        show (setSession v _ _).isConsumed q = true
        rw [hconsumed]
        split
        · rfl
        · exact hq
      clock := by
        rw [hsame]
        exact Nat.le_refl _
      claims := fun q _ hq => by
        rw [hsame]
        exact hq
      secrets := hsecrets }
  · show (setSession v _ _).isConsumed a.pairingId = true
    rw [hconsumed, if_pos rfl]
  · rw [hsame]
    rfl
  · rw [hsame]
    rfl

end MonoAgent.Pairing
