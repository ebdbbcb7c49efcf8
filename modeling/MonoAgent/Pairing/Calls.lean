import MonoAgent.Pairing.Steps

/-!
# One step of each call

For every phase of a call, its step keeps the shared state and leads to a phase whose
locals are right.
-/

namespace MonoAgent.Pairing

open MonoAgent.Lib

variable {k : Crypto} {ttl : Nat} {s t : System} {late : Bool} {phase : Phase}

/-- What a step of a call keeps and leads to. -/
structure Advanced (k : Crypto) (s : System) (late : Bool) (phase : Phase) (out : Phase × System) : Prop where
  inv : SharedInv k out.2
  fine : PhaseFine k out.2 late out.1
  grows : Grows phase.forgets s out.2
  /-- A pairing is consumed by the step that consumes it. -/
  consumes : ∀ a d, out.1 = .approveConsumed a d → s.isConsumed a.pairingId = false

theorem goOn_cases {α : Type} {x : Except Failure α} {f : α → Phase × System} (h : SharedInv k s)
    (hok : ∀ a, x = .ok a → Advanced k s late phase (f a)) : Advanced k s late phase (goOn s x f) := by
  cases x with
  | ok a => exact hok a rfl
  | error e =>
      exact {
        inv := h
        fine := trivial
        grows := .refl _
        consumes := fun _ _ he => nomatch he }

/-- A step that changes no table and no claim. -/
theorem Advanced.quiet {next : Phase} (h : SharedInv k s) (hfine : PhaseFine k s late next)
    (hnext : ∀ a d, next ≠ .approveConsumed a d) : Advanced k s late phase (next, s) where
  inv := h
  fine := hfine
  grows := .refl _
  consumes := fun a d he => absurd he (hnext a d)

theorem readPairingSession_ok {p : String} {r : Option PairingSessionRecord} (h : readPairingSession s p = .ok r) :
    r = s.sessions p := by
  unfold readPairingSession at h
  split at h
  · cases h
  · cases h
    rfl

theorem offerTimed_advanced {p secret : String} {expiresAt : Nat} (h : SharedInv k s) :
    Advanced k s late (.offerTimed p secret expiresAt) (advance k ttl s (.offerTimed p secret expiresAt)) := by
  refine goOn_cases h fun t ht => ?_
  obtain ⟨_, _, ht⟩ := Except.bind_eq_ok.mp ht
  obtain ⟨_, _, ht⟩ := Except.bind_eq_ok.mp ht
  obtain ⟨_, hnone, ht⟩ := Except.bind_eq_ok.mp ht
  cases ht
  have hnew : s.isConsumed p = false := by rw [System.isConsumed, ensure_eq_ok.mp hnone, Option.any_none]
  obtain ⟨hinv, hsame, hsecrets⟩ := h.setSession (r := ⟨some (k.secretHash secret), expiresAt, .pending⟩) hnew
    (by simp) fun old hold => by cases (ensure_eq_ok.mp hnone).symm.trans hold
  exact {
    inv := hinv
    fine := trivial
    grows := ⟨fun _ hc => hc, fun q hq => (hsame q).trans hq, Nat.le_refl _, fun _ _ hq => hq, hsecrets⟩
    consumes := fun _ _ he => by cases he }

theorem claim_advanced {payload : PairClaimPayload} (h : SharedInv k s) (hf : PhaseFine k s late (.claim payload)) :
    Advanced k s late (.claim payload) (advance k ttl s (.claim payload)) := by
  refine goOn_cases h fun session hsession => .quiet h ?_ fun _ _ => (nomatch ·)
  obtain ⟨r, hr, hclaimable⟩ := Except.bind_eq_ok.mp hsession
  cases readPairingSession_ok hr
  have hsecret : HasSecret s payload.pairingId session.secretHash := by
    cases hread : s.sessions payload.pairingId with
    | none =>
        rw [hread] at hclaimable
        cases hclaimable
    | some r =>
        rw [hread, checkClaimable] at hclaimable
        split at hclaimable
        · cases hclaimable
          exact ⟨session, hread, fun _ => rfl⟩
        · cases hclaimable
  refine ⟨?_, hsecret⟩
  by_contra hlate
  have hconsumed := hf ((Bool.not_eq_false _).mp hlate)
  obtain ⟨r, hr, hs⟩ := isConsumed_iff.mp hconsumed
  rw [hr, checkClaimable, hs, if_neg (by decide)] at hclaimable
  cases hclaimable

theorem claimRead_advanced {payload : PairClaimPayload} {session : PairingSessionRecord} (h : SharedInv k s)
    (hf : PhaseFine k s late (.claimRead payload session)) :
    Advanced k s late (.claimRead payload session) (advance k ttl s (.claimRead payload session)) := by
  refine goOn_cases h fun claim hclaim => .quiet h ⟨hf.1, ?_⟩ fun _ _ => (nomatch ·)
  obtain ⟨_, _, hclaim⟩ := Except.bind_eq_ok.mp hclaim
  obtain ⟨_, hsecret, hclaim⟩ := Except.bind_eq_ok.mp hclaim
  obtain ⟨_, hkey, hclaim⟩ := Except.bind_eq_ok.mp hclaim
  obtain ⟨_, _, hclaim⟩ := Except.bind_eq_ok.mp hclaim
  obtain ⟨_, hverify, hclaim⟩ := Except.bind_eq_ok.mp hclaim
  cases hclaim
  have hparse : k.parseKey payload.devicePublicKey = .ok () := by
    cases hp : k.parseKey payload.devicePublicKey with
    | ok _ => rfl
    | error e =>
        rw [hp] at hkey
        cases hkey
  have hread : HasSecret s payload.pairingId (some (k.secretHash payload.oneTimeSecret)) := by
    rw [← ensure_eq_ok.mp hsecret]
    exact hf.2
  exact ⟨payload, rfl, rfl, hread, hparse, ensure_eq_ok.mp hverify, rfl⟩

theorem claimVerified_advanced {claim : PendingPairingClaim} (h : SharedInv k s)
    (hf : PhaseFine k s late (.claimVerified claim)) :
    Advanced k s late (.claimVerified claim) (advance k ttl s (.claimVerified claim)) := by
  refine goOn_cases h fun t ht => ?_
  unfold acceptClaim at ht
  split at ht
  · cases ht
  · next hsame =>
      cases ht
      have hequal : ∀ c, s.claims claim.pairingId = some c → c = claim := by
        intro c hc
        rw [hc, Option.any_some, decide_eq_true_iff] at hsame
        exact not_not.mp hsame
      exact {
        inv := {
          secret := h.secret
          consumed := h.consumed
          once := h.once
          devices := h.devices
          claims := fun p c hc => by
            by_cases hp : p = claim.pairingId
            · subst hp
              have hc' : Function.update s.claims claim.pairingId (some claim) claim.pairingId = some c := hc
              rw [Function.update_self] at hc'
              cases Option.some.inj hc'
              exact ⟨List.mem_append_right _ (List.mem_singleton_self _), rfl⟩
            · have hc' : s.claims p = some c := (Function.update_of_ne hp ..).symm.trans hc
              obtain ⟨hmem, hpair⟩ := h.claims p c hc'
              exact ⟨List.mem_append_left _ hmem, hpair⟩
          stays := fun c hc hno => by
            show Function.update s.claims claim.pairingId (some claim) c.pairingId = some c
            rcases List.mem_append.mp hc with hc | hc
            · have hstays := h.stays c hc hno
              by_cases hp : c.pairingId = claim.pairingId
              · rw [hp] at hstays
                rw [hp, Function.update_self, hequal c hstays]
              · rw [Function.update_of_ne hp]
                exact hstays
            · cases List.mem_singleton.mp hc
              exact Function.update_self ..
          verified := fun c hc => by
            rcases List.mem_append.mp hc with hc | hc
            · exact h.verified c hc
            · cases List.mem_singleton.mp hc
              exact hf.2 }
        fine := hf.1
        grows := ⟨fun _ hc => List.mem_append_left _ hc, fun _ hq => hq, Nat.le_refl _, fun q _ hq => by
          show Function.update s.claims claim.pairingId (some claim) q ≠ none
          by_cases hp : q = claim.pairingId
          · rw [hp, Function.update_self]
            exact (nomatch ·)
          · rw [Function.update_of_ne hp]
            exact hq, fun _ _ hsecret => hsecret⟩
        consumes := fun _ _ he => nomatch he }

theorem approve_advanced {a : Approval} (h : SharedInv k s) (hf : PhaseFine k s late (.approve a)) :
    Advanced k s late (.approve a) (advance k ttl s (.approve a)) := by
  refine goOn_cases h fun claim hclaim => .quiet h ?_ fun _ _ => (nomatch ·)
  unfold approvedClaim at hclaim
  split at hclaim
  · cases hclaim
  · next c hc =>
      split at hclaim
      · next hcode =>
          cases hclaim
          obtain ⟨hmem, hpair⟩ := h.claims _ _ hc
          exact ⟨hmem, hpair, hcode, hf⟩
      · cases hclaim

theorem approveClaimed_advanced {a : Approval} {claim : PendingPairingClaim} (h : SharedInv k s)
    (hf : PhaseFine k s late (.approveClaimed a claim)) :
    Advanced k s late (.approveClaimed a claim) (advance k ttl s (.approveClaimed a claim)) := by
  have hchosen : Chosen s late a claim := hf
  refine goOn_cases h fun session hsession => .quiet h ⟨hchosen, fun hl => ?_⟩ fun _ _ => (nomatch ·)
  obtain ⟨r, hr, hfound⟩ := Except.bind_eq_ok.mp hsession
  cases readPairingSession_ok hr
  obtain ⟨r, hr, hs⟩ := isConsumed_iff.mp (hchosen.late hl)
  rw [hr] at hfound
  cases hfound
  exact hs

theorem approveTimed_advanced {a : Approval} {claim : PendingPairingClaim} {session : PairingSessionRecord} {now : Nat}
    (h : SharedInv k s) (hf : PhaseFine k s late (.approveTimed a claim session now)) :
    Advanced k s late (.approveTimed a claim session now) (advance k ttl s (.approveTimed a claim session now)) := by
  obtain ⟨hchosen, hlate, hnow⟩ := hf
  have hprompt : session.status ≠ .consumed → late = false := fun hs =>
    (Bool.not_eq_true _).mp fun hl => hs (hlate hl)
  refine goOn_cases h fun t ht => ?_
  unfold confirmStep at ht
  split at ht
  · next hs =>
      obtain ⟨r, hr, ht⟩ := Except.bind_eq_ok.mp ht
      cases ht
      obtain ⟨hsession, hstatus, -⟩ := openSession_ok hr
      have hold := not_consumed hsession (by rw [hstatus]; exact (nomatch ·))
      have hkeeps (old : PairingSessionRecord) (hold : s.sessions a.pairingId = some old) :
          r.secretHash = old.secretHash := by
        rw [Option.some.inj (hsession.symm.trans hold)]
      obtain ⟨hinv, hsame, hsecrets⟩ := h.setSession (r := { r with status := .confirmed }) hold (nomatch ·) hkeeps
      have hgrows : Grows none s (setSession s a.pairingId { r with status := .confirmed }) :=
        ⟨fun _ hc => hc, fun q hq => (hsame q).trans hq, Nat.le_refl _, fun _ _ hq => hq, hsecrets⟩
      exact {
        inv := hinv
        fine := ⟨hchosen.grows hgrows, hprompt (by rw [hs]; exact (nomatch ·)), hnow⟩
        grows := hgrows
        consumes := fun _ _ he => nomatch he }
  · next hs =>
      cases ht
      exact .quiet h ⟨hchosen, hprompt (by rw [hs]; exact (nomatch ·)), hnow⟩ fun _ _ => (nomatch ·)
  · cases ht

theorem approveConfirmed_advanced {a : Approval} {claim : PendingPairingClaim} {now : Nat} (h : SharedInv k s)
    (hf : PhaseFine k s late (.approveConfirmed a claim now)) :
    Advanced k s late (.approveConfirmed a claim now) (advance k ttl s (.approveConfirmed a claim now)) := by
  obtain ⟨hchosen, hlate, -⟩ := hf
  refine goOn_cases h fun out hout => ?_
  obtain ⟨device, t⟩ := out
  obtain ⟨hcon, hinv, hgrows, hconsumed, hclaims, haccepted⟩ := consumeStep_ok h hout
  obtain ⟨r, hr, hs, -⟩ := hcon.session
  have hopen : s.isConsumed a.pairingId = false := not_consumed hr (by rw [hs]; exact (nomatch ·))
  have hstays := h.stays claim hchosen.accepted (by rw [hchosen.pairing]; exact hopen)
  rw [hchosen.pairing] at hstays
  exact {
    inv := hinv
    fine := ⟨hlate, hconsumed, by rw [hclaims, hstays]; exact (nomatch ·)⟩
    grows := hgrows
    consumes := fun _ _ he => by
      cases he
      exact hopen }

theorem approveConsumed_advanced {a : Approval} {d : DeviceRecord} (h : SharedInv k s)
    (hf : PhaseFine k s late (.approveConsumed a d)) :
    Advanced k s late (.approveConsumed a d) (advance k ttl s (.approveConsumed a d)) := by
  obtain ⟨hlate, hconsumed, -⟩ := hf
  refine goOn_cases h fun t ht => ?_
  unfold forgetClaim at ht
  split at ht
  · cases ht
  · cases ht
    exact {
      inv := {
        secret := h.secret
        consumed := h.consumed
        once := h.once
        devices := h.devices
        claims := fun p c hc => by
          by_cases hp : p = a.pairingId
          · subst hp
            exact nomatch (Function.update_self ..).symm.trans hc
          · exact h.claims p c ((Function.update_of_ne hp ..).symm.trans hc)
        stays := fun c hc hno => by
          by_cases hp : c.pairingId = a.pairingId
          · rw [hp] at hno
            exact absurd (hconsumed.symm.trans hno) (by decide)
          · exact (Function.update_of_ne hp ..).trans (h.stays c hc hno)
        verified := h.verified }
      fine := hlate
      grows := ⟨fun _ hc => hc, fun _ hq => hq, Nat.le_refl _, fun q hne hq => by
        have hp : q ≠ a.pairingId := fun heq => hne (congrArg some heq.symm)
        show Function.update s.claims a.pairingId none q ≠ none
        rw [Function.update_of_ne hp]
        exact hq, fun _ _ hsecret => hsecret⟩
      consumes := fun _ _ he => nomatch he }

/-- Every step of a call keeps the shared state and leads to a phase whose locals are right. -/
theorem advance_advanced (ttl : Nat) (h : SharedInv k s) (hf : PhaseFine k s late phase) :
    Advanced k s late phase (advance k ttl s phase) := by
  cases phase with
  | offer p secret => exact .quiet h trivial fun _ _ => (nomatch ·)
  | offerTimed p secret expiresAt => exact offerTimed_advanced h
  | claim payload => exact claim_advanced h hf
  | claimRead payload session => exact claimRead_advanced h hf
  | claimVerified claim => exact claimVerified_advanced h hf
  | approve a => exact approve_advanced h hf
  | approveClaimed a claim => exact approveClaimed_advanced h hf
  | approveRead a claim session => exact .quiet h ⟨hf.1, hf.2, Nat.le_refl _⟩ fun _ _ => (nomatch ·)
  | approveTimed a claim session now => exact approveTimed_advanced h hf
  | approveConfirmed a claim now => exact approveConfirmed_advanced h hf
  | approveConsumed a d => exact approveConsumed_advanced h hf
  | ended outcome => exact .quiet h hf fun _ _ => (nomatch ·)

end MonoAgent.Pairing
