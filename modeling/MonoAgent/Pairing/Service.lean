import MonoAgent.Lib.Exec
import MonoAgent.Lib.Machine

/-!
# Pairing a device

The pairing sessions and the devices are rows of the database; the claims live in the
memory of the process.  A thread is a call in progress, stopped between two of its steps: a
read or a transaction of the storage, a reading of the clock, an access to the claims under
their lock.  Threads take their steps in any order, the clock moves on between them, and a
restart loses the threads and the claims.
-/

namespace MonoAgent.Pairing

open MonoAgent.Lib

inductive PairingStatus where
  | pending
  | confirmed
  | consumed
  | expired
deriving DecidableEq, Repr

def PairingStatus.text : PairingStatus → String
  | .pending => "pending"
  | .confirmed => "confirmed"
  | .consumed => "consumed"
  | .expired => "expired"

structure PairingSessionRecord where
  secretHash : Option String
  expiresAt : Nat
  status : PairingStatus
deriving DecidableEq, Repr

structure DeviceRecord where
  deviceId : String
  publicKey : String
  displayName : String
  createdAt : Nat
  revokedAt : Option Nat
  capabilities : List String
deriving DecidableEq, Repr

structure PairClaimPayload where
  pairingId : String
  oneTimeSecret : String
  devicePublicKey : String
  deviceName : String
  capabilities : List String
  clientNonce : String
  signature : String
deriving DecidableEq, Repr

structure PendingPairingClaim where
  pairingId : String
  devicePublicKey : String
  deviceName : String
  capabilities : List String
  clientNonce : String
  confirmationCode : String
deriving DecidableEq, Repr

/-- What the device signs, before it is written as canonical JSON. -/
structure Transcript where
  serverId : String
  pairingId : String
  secretHash : String
  devicePublicKey : String
  deviceName : String
  capabilities : List String
  clientNonce : String
deriving DecidableEq, Repr

inductive Failure where
  | secretError (text : String)
  | stateError (text : String)
  | signatureError (text : String)
  | confirmationError (text : String)
  | expiredError (text : String)
  | unknownPairing (text : String)
  | valueError (text : String)
  | integrityError
  | keyError
deriving DecidableEq, Repr

/-- The cryptography, and the identity of the server. -/
structure Crypto where
  serverId : String
  /-- `_pairing_secret_hash`. -/
  secretHash : String → String
  /-- `parse_device_public_key`, with the text of its error. -/
  parseKey : String → Except String Unit
  /-- Whether the text is Base64. -/
  decodes : String → Bool
  /-- ECDSA with SHA-256, over the key, the signature and the signed bytes. -/
  verify : String → String → Transcript → Bool
  /-- `_confirmation_code`. -/
  code : Transcript → String

/-- A consumption of a pairing; no step reads these. -/
structure Consumption where
  pairingId : String
  claim : PendingPairingClaim
  confirmationCode : String
  now : Nat
deriving DecidableEq, Repr

structure Approval where
  pairingId : String
  confirmationCode : String
  /-- The new identity the approval would give a device. -/
  deviceId : String
deriving DecidableEq, Repr

inductive Outcome where
  | offered (pairingId : String)
  | claimed (claim : PendingPairingClaim)
  | approved (device : DeviceRecord)
  | failed (error : Failure)
deriving DecidableEq, Repr

/-- Where a call stands, and what it holds in its locals. -/
inductive Phase where
  | offer (pairingId secret : String)
  | offerTimed (pairingId secret : String) (expiresAt : Nat)
  | claim (payload : PairClaimPayload)
  | claimRead (payload : PairClaimPayload) (session : PairingSessionRecord)
  | claimVerified (claim : PendingPairingClaim)
  | approve (a : Approval)
  | approveClaimed (a : Approval) (claim : PendingPairingClaim)
  | approveRead (a : Approval) (claim : PendingPairingClaim) (session : PairingSessionRecord)
  | approveTimed (a : Approval) (claim : PendingPairingClaim) (session : PairingSessionRecord) (now : Nat)
  | approveConfirmed (a : Approval) (claim : PendingPairingClaim) (now : Nat)
  | approveConsumed (a : Approval) (device : DeviceRecord)
  | ended (outcome : Outcome)
deriving DecidableEq, Repr

/-- A call in progress. -/
structure Thread where
  /-- Whether its pairing was consumed when it began; no step reads it. -/
  late : Bool
  phase : Phase
deriving DecidableEq, Repr

structure System where
  clock : Nat := 0
  sessions : String → Option PairingSessionRecord := fun _ => none
  devices : List DeviceRecord := []
  claims : String → Option PendingPairingClaim := fun _ => none
  threads : List Thread := []
  /-- The claims accepted since the last restart; no step reads them. -/
  accepted : List PendingPairingClaim := []
  consumptions : List Consumption := []

/-! ## Storage -/

section Storage

variable (s : System)

def setSession (p : String) (r : PairingSessionRecord) : System :=
  { s with sessions := Function.update s.sessions p (some r) }

def readPairingSession (p : String) : Except Failure (Option PairingSessionRecord) :=
  if p = "" then .error (.valueError "pairing_id 必须为非空文本") else .ok (s.sessions p)

def createPairingSession (p secretHash : String) (expiresAt : Nat) : Except Failure System := do
  ensure (secretHash ≠ "") (.valueError "secret_hash 必须为非空文本")
  ensure (p ≠ "") (.valueError "pairing_id 必须为非空文本")
  ensure (s.sessions p = none) .integrityError
  .ok (setSession s p ⟨some secretHash, expiresAt, .pending⟩)

/-- The session in the given state, not expired at `now`. -/
def openSession (p : String) (status : PairingStatus) (now : Nat) (verb : String) : Except Failure PairingSessionRecord :=
  match s.sessions p with
  | none => .error (.unknownPairing s!"配对会话不存在: {p}")
  | some session =>
      if session.status ≠ status then .error (.stateError s!"配对会话不能{verb}: {p} status={session.status.text}")
      else if session.expiresAt ≤ now then .error (.expiredError s!"配对会话已过期: {p}")
      else .ok session

def confirmPairing (p : String) (now : Nat) : Except Failure System := do
  let session ← openSession s p .pending now "确认"
  .ok (setSession s p { session with status := .confirmed })

def insertDevice (device : DeviceRecord) : Except Failure (DeviceRecord × System) :=
  if s.devices.any (fun d => d.deviceId = device.deviceId ∨ d.publicKey = device.publicKey) then .error .integrityError
  else .ok (device, { s with devices := s.devices ++ [device] })

/-- A known key keeps its device, under the name and with the capabilities of the claim. -/
def refreshDevice (existing device : DeviceRecord) : Except Failure (DeviceRecord × System) :=
  if existing.revokedAt ≠ none then .error (.stateError "已撤销的设备密钥不能重新配对")
  else
    let effective : DeviceRecord := { existing with displayName := device.displayName, capabilities := device.capabilities }
    .ok (effective, { s with devices := s.devices.map fun d => if d.deviceId = existing.deviceId then effective else d })

def registerOrRefresh (device : DeviceRecord) : Except Failure (DeviceRecord × System) :=
  match s.devices.find? (·.publicKey = device.publicKey) with
  | none => insertDevice s device
  | some existing => refreshDevice s existing device

def consumePairing (p : String) (device : DeviceRecord) (now : Nat) : Except Failure (DeviceRecord × System) := do
  let session ← openSession s p .confirmed now "消费"
  let registered ← registerOrRefresh s device
  .ok (registered.1, setSession registered.2 p { session with secretHash := none, status := .consumed })

end Storage

/-! ## The steps of the calls -/

def transcript (k : Crypto) (payload : PairClaimPayload) (secretHash : String) : Transcript where
  serverId := k.serverId
  pairingId := payload.pairingId
  secretHash := secretHash
  devicePublicKey := payload.devicePublicKey
  deviceName := payload.deviceName
  capabilities := payload.capabilities
  clientNonce := payload.clientNonce

/-- The session is there and may be claimed. -/
def checkClaimable : Option PairingSessionRecord → Except Failure PairingSessionRecord
  | none => .error (.secretError "配对会话不存在")
  | some session =>
      if session.status = .pending ∨ session.status = .confirmed then .ok session
      else .error (.stateError s!"配对会话不能 claim: status={session.status.text}")

/-- The checks of a claim after its session was read. -/
def verifyClaim (k : Crypto) (now : Nat) (payload : PairClaimPayload) (session : PairingSessionRecord) :
    Except Failure PendingPairingClaim := do
  ensure (now < session.expiresAt) (.secretError "配对会话已过期")
  ensure (session.secretHash = some (k.secretHash payload.oneTimeSecret)) (.secretError "一次性 pairing secret 无效")
  let signed := transcript k payload (k.secretHash payload.oneTimeSecret)
  (k.parseKey payload.devicePublicKey).mapError .signatureError
  ensure (k.decodes payload.signature = true) (.signatureError "signature 不是合法 Base64")
  ensure (k.verify payload.devicePublicKey payload.signature signed = true) (.signatureError "pair claim 设备签名无效")
  .ok {
    pairingId := payload.pairingId
    devicePublicKey := payload.devicePublicKey
    deviceName := payload.deviceName
    capabilities := payload.capabilities
    clientNonce := payload.clientNonce
    confirmationCode := k.code signed }

/-- One pairing takes one claim, again and again. -/
def acceptClaim (s : System) (claim : PendingPairingClaim) : Except Failure System :=
  if (s.claims claim.pairingId).any (· ≠ claim) then .error (.stateError "同一 pairing_id 已存在不同设备 claim")
  else .ok { s with
    claims := Function.update s.claims claim.pairingId (some claim)
    accepted := s.accepted ++ [claim] }

/-- The claim of this process, with the code that the computer shows. -/
def approvedClaim (s : System) (a : Approval) : Except Failure PendingPairingClaim :=
  match s.claims a.pairingId with
  | none => .error (.confirmationError "尚无可确认的设备 claim")
  | some claim =>
      if claim.confirmationCode = a.confirmationCode then .ok claim
      else .error (.confirmationError "配对确认码不一致")

def foundSession : Option PairingSessionRecord → Except Failure PairingSessionRecord
  | none => .error (.confirmationError "配对会话不存在")
  | some session => .ok session

/-- Confirm a pending session; a confirmed one goes on. -/
def confirmStep (s : System) (p : String) (session : PairingSessionRecord) (now : Nat) : Except Failure System :=
  match session.status with
  | .pending => confirmPairing s p now
  | .confirmed => .ok s
  | status => .error (.stateError s!"配对会话不能批准: status={status.text}")

def newDevice (a : Approval) (claim : PendingPairingClaim) (now : Nat) : DeviceRecord where
  deviceId := a.deviceId
  publicKey := claim.devicePublicKey
  displayName := claim.deviceName
  createdAt := now
  revokedAt := none
  capabilities := claim.capabilities

def consumeStep (s : System) (a : Approval) (claim : PendingPairingClaim) (now : Nat) :
    Except Failure (DeviceRecord × System) := do
  let consumed ← consumePairing s a.pairingId (newDevice a claim now) now
  .ok (consumed.1, { consumed.2 with
    consumptions := s.consumptions ++ [⟨a.pairingId, claim, a.confirmationCode, now⟩] })

/-- `del self._claims[pairing_id]`. -/
def forgetClaim (s : System) (p : String) : Except Failure System :=
  match s.claims p with
  | none => .error .keyError
  | some _ => .ok { s with claims := Function.update s.claims p none }

/-- The next phase after what a step computes, or the end of the call when it raises. -/
def goOn {α : Type} (s : System) (x : Except Failure α) (f : α → Phase × System) : Phase × System :=
  match x with
  | .ok a => f a
  | .error e => (.ended (.failed e), s)

/-- One step of a call. -/
def advance (k : Crypto) (ttl : Nat) (s : System) : Phase → Phase × System
  | .offer p secret => (.offerTimed p secret (s.clock + ttl), s)
  | .offerTimed p secret expiresAt =>
      goOn s (createPairingSession s p (k.secretHash secret) expiresAt) fun t => (.ended (.offered p), t)
  | .claim payload =>
      goOn s (readPairingSession s payload.pairingId >>= checkClaimable) fun session => (.claimRead payload session, s)
  | .claimRead payload session =>
      goOn s (verifyClaim k s.clock payload session) fun claim => (.claimVerified claim, s)
  | .claimVerified claim => goOn s (acceptClaim s claim) fun t => (.ended (.claimed claim), t)
  | .approve a => goOn s (approvedClaim s a) fun claim => (.approveClaimed a claim, s)
  | .approveClaimed a claim =>
      goOn s (readPairingSession s a.pairingId >>= foundSession) fun session => (.approveRead a claim session, s)
  | .approveRead a claim session => (.approveTimed a claim session s.clock, s)
  | .approveTimed a claim session now =>
      goOn s (confirmStep s a.pairingId session now) fun t => (.approveConfirmed a claim now, t)
  | .approveConfirmed a claim now =>
      goOn s (consumeStep s a claim now) fun out => (.approveConsumed a out.1, out.2)
  | .approveConsumed a device => goOn s (forgetClaim s a.pairingId) fun t => (.ended (.approved device), t)
  | .ended outcome => (.ended outcome, s)

/-! ## Runs -/

def System.isConsumed (s : System) (p : String) : Bool := (s.sessions p).any (·.status = .consumed)

/-- The pairing a call is about, at its start. -/
def Phase.start : Phase → Option String
  | .offer p _ => some p
  | .claim payload => some payload.pairingId
  | .approve a => some a.pairingId
  | _ => none

inductive Action where
  | call (phase : Phase)
  | step (thread : Nat)
  | tick (time : Nat)
  | revoke (deviceId : String)
  | restart
deriving DecidableEq, Repr

def stepThread (k : Crypto) (ttl : Nat) (s : System) (i : Nat) (t : Thread) : System :=
  let out := advance k ttl s t.phase
  { out.2 with threads := s.threads.set i { t with phase := out.1 } }

def next (k : Crypto) (ttl : Nat) (s : System) : Action → Option System
  | .call phase => phase.start.map fun p => { s with threads := s.threads ++ [⟨s.isConsumed p, phase⟩] }
  | .step i => (s.threads[i]?).map (stepThread k ttl s i)
  | .tick time => some { s with clock := s.clock + time }
  | .revoke deviceId => some { s with
      devices := s.devices.map fun d =>
        if d.deviceId = deviceId then { d with revokedAt := some (d.revokedAt.getD s.clock) } else d }
  | .restart => some { s with claims := fun _ => none, threads := [], accepted := [] }

def pairingMachine (k : Crypto) (ttl : Nat) : Machine System Action where
  start s := s = {}
  next := next k ttl

end MonoAgent.Pairing
