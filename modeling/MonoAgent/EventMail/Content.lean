import MonoAgent.EventMail.Store

/-!
# Content

A source submits batches of items.  A turn claims some of the items that wait: the
first is the driver and takes the status of the batch, the others stay as they are.
What is chosen for delivery is settled with the delivery, and acknowledged by the
source when it asks for that.

Every method is one transaction: when it raises, nothing is written.  `now` is what
`_utc_now` reads.
-/

namespace MonoAgent.EventMail

open MonoAgent.Lib MonoAgent.Session

/-- A reference to an item at a version of it. -/
structure ContentRef where
  key : ContentKey
  stateVersion : Nat
deriving DecidableEq, Repr

/-- `_identity` of the parts of a key. -/
def ContentKey.check (k : ContentKey) : Except Error Unit := do
  identity "source_id" k.sourceId
  identity "item_id" k.itemId
  identity "revision" k.revision

/-- `_normalize_ref`. -/
def ContentRef.check (r : ContentRef) : Except Error Unit := do
  ensure (0 < r.stateVersion) ⟨.valueError, "Content item_ref state_version 必须是正整数"⟩
  r.key.check

/-- `_normalize_accepted_turn`. -/
def AcceptedTurn.check (t : AcceptedTurn) : Except Error Unit := do
  identity "accepted_turn.session_id" t.sessionId
  identity "accepted_turn.turn_id" t.turnId

/-! ## Rows -/

/-- The driver of a new selection takes its token and its turn. -/
def Item.claim (i : Item) (token : String) (turn : AcceptedTurn) (now : Instant) : Item :=
  { i with status := .selected, selectionToken := some token, selectedTurn := some turn
           stateVersion := i.stateVersion + 1, updatedAt := now }

/-- A driver that is not delivered waits again. -/
def Item.release (i : Item) (now : Instant) : Item :=
  { i with status := .pending, selectionToken := none, selectedTurn := none
           stateVersion := i.stateVersion + 1, updatedAt := now }

/-- The item is in a status. -/
def Item.move (i : Item) (status : ContentStatus) (now : Instant) : Item :=
  { i with status, stateVersion := i.stateVersion + 1, updatedAt := now }

/-- The item is delivered. -/
def Item.settle (i : Item) (status : ContentStatus) (ref : String) (now : Instant) : Item :=
  { i.move status now with settlementRef := some ref }

def Member.settle (r : Member) (ref : String) : Member := { r with settlementRef := some ref }

/-- The selection claims the item: it is open, or it delivers the item. -/
def holds (s : Selection) (row : Member) : Bool :=
  s.token = row.token && (s.status = .selected ||
    (s.status = .readyForDelivery && row.selectedForDelivery))

/-- The reference names the item as it waits. -/
def expirable (ref : ContentRef) (i : Item) : Bool :=
  i.key = ref.key && i.stateVersion = ref.stateVersion && waiting i.status

/-- `_member_settlement`.  `sha256` is the hexadecimal digest of a text. -/
def memberSettlement (sha256 : String → String) (settlement : String) (key : ContentKey) : String :=
  let identity := key.sourceId ++ "\x00" ++ key.itemId ++ "\x00" ++ key.revision
  settlement ++ ":" ++ String.ofList ((sha256 identity).toList.take 16)

/-- The reference of a member, which is that of the delivery when it is the only one. -/
def memberRef (sha256 : String → String) (settlement : String) (single : Bool) (key : ContentKey) :
    String :=
  if single then settlement else memberSettlement sha256 settlement key

/-- The status of a member that is delivered. -/
def deliveredStatus (requiresAck : Bool) : ContentStatus :=
  if requiresAck then .delivered else .settled

/-! ## Results and actions -/

/-- `ContentSelectResult`. -/
structure SelectResult where
  selected : Bool
  reason : Option String := none
  selectionToken : Option String := none
  acceptedTurn : Option AcceptedTurn := none
  state : ContentState
deriving DecidableEq, Repr

/-- What can be done to a selection, apart from its delivery. -/
inductive SelectionAction where
  | readyForDelivery | release | defer | awaitChange | invalidated | abandoned | failed | expired
deriving DecidableEq, Repr

/-- The status of a selection after an action. -/
def SelectionAction.status : SelectionAction → ContentStatus
  | .readyForDelivery => .readyForDelivery
  | .release => .released
  | .defer => .deferred
  | .awaitChange => .awaitChange
  | .invalidated => .invalidated
  | .abandoned => .abandoned
  | .failed => .failed
  | .expired => .expired

def SelectionAction.mail : SelectionAction → MailAction
  | .readyForDelivery => .readyForDelivery
  | .release => .release
  | .defer => .defer
  | .awaitChange => .awaitChange
  | .invalidated => .invalidated
  | .abandoned => .abandoned
  | .failed => .failed
  | .expired => .expired

/-- A selection is in a status that the action can be done in. -/
def SelectionAction.allowed (action : SelectionAction) (status : ContentStatus) : Bool :=
  status = .selected ||
    ((action = .abandoned || action = .failed) && status = .readyForDelivery)

/-- `ContentTransitionResult`. -/
inductive TransitionResult where
  | unchanged (reason : String)
  | changed (status : ContentStatus) (state : ContentState)
deriving DecidableEq, Repr

/-- The text of a status. -/
def ContentStatus.text : ContentStatus → String
  | .pending => "pending"
  | .deferred => "deferred"
  | .selected => "selected"
  | .readyForDelivery => "ready_for_delivery"
  | .released => "released"
  | .awaitChange => "await_change"
  | .invalidated => "invalidated"
  | .abandoned => "abandoned"
  | .failed => "failed"
  | .expired => "expired"
  | .delivered => "delivered"
  | .settled => "settled"

/-- What `expire` returns: what expired, and what was not as it was read. -/
structure ExpireResult where
  expired : List ContentRef
  stale : List ContentRef
  state : ContentState
deriving DecidableEq, Repr

/-- What `_delivery_receipt` digests. -/
structure DeliveryReceipt where
  selectionToken : String
  settlementRef : String
deriving DecidableEq, Repr

inductive SettleResult where
  | missing
  | refused (reason : String)
  | settled (duplicate : Bool) (status : ContentStatus) (receipt : DeliveryReceipt)
deriving DecidableEq, Repr

inductive AckResult where
  | missing
  | refused (reason : String)
  | settled (duplicate : Bool)
deriving DecidableEq, Repr

namespace Mail

variable (m : Mail)

/-! ## Submission -/

/-- `_submission_receipt`. -/
def submissionReceipt (source batch : String) (fingerprint : List NormalizedItem) :
    Except Error (Option SubmissionReceipt) :=
  match m.submissions.find? fun row => row.sourceId = source ∧ row.batchId = batch with
  | none => .ok none
  | some row => do
      ensure (row.fingerprint = fingerprint)
        ⟨.identityConflict, "Content batch identity conflict: " ++ source ++ "/" ++ batch⟩
      return some row.receipt

/-- `_assert_same_revision`. -/
def assertSameRevision (source : String) (item : NormalizedItem) (existing : Item) :
    Except Error Unit :=
  ensure (existing.payloadJson = item.payloadJson ∧
      (1 < existing.stateVersion ∨ existing.notBefore = item.notBefore) ∧
      existing.requiresAck = item.requiresAck)
    ⟨.identityConflict, "Content revision identity conflict: " ++ source ++ "/" ++ item.itemId ++ "/" ++
      item.revision⟩

/-- A revision that is not there: its row, its envelope and its first transition. -/
def insertItem (key : ContentKey) (item : NormalizedItem) (seq : Nat) (now : Instant) :
    Except Error Mail := do
  let row : Item :=
    { key, payloadJson := item.payloadJson, snapshotSeq := seq, notBefore := item.notBefore
      requiresAck := item.requiresAck, createdAt := now, updatedAt := now }
  let m ← m.setItems (m.items ++ [row])
  let (inserted, m) ← m.appendEnvelope key.mail item.payloadJson now (some item.notBefore) none
  ensure (inserted = true) ⟨.runtimeError, "新 Content projection 缺少新 EventMail envelope"⟩
  m.appendTransition key.mail.id .content .received .empty

/-- The loop of `_append_items`: what was inserted and what was there, in order. -/
def appendEach (source : String) (now : Instant) (m : Mail) (nextSeq : Nat) :
    List NormalizedItem → Except Error ((List ContentKey × List ContentKey) × Mail)
  | [] => return (([], []), m)
  | item :: rest => do
      let key : ContentKey := ⟨source, item.itemId, item.revision⟩
      match m.item? key with
      | some existing => do
          assertSameRevision source item existing
          let ((inserted, duplicates), m) ← appendEach source now m nextSeq rest
          return ((inserted, key :: duplicates), m)
      | none => do
          let m ← m.insertItem key item (nextSeq + 1) now
          let ((inserted, duplicates), m) ← appendEach source now m (nextSeq + 1) rest
          return ((key :: inserted, duplicates), m)

/-- `_append_items`. -/
def appendItems (source : String) (items : List NormalizedItem) (now : Instant) :
    Except Error ((List ContentKey × List ContentKey) × Mail) := do
  let ((inserted, duplicates), n) ← appendEach source now m m.state.nextSeq items
  if inserted = [] then return ((inserted, duplicates), n)
  else return ((inserted, duplicates), { n with state := { n.state with
    nextSeq := m.state.nextSeq + inserted.length, stateVersion := n.state.stateVersion + 1 } })

/-- `submit`. -/
def submit (source batch : String) (items : List NormalizedItem) (now : Instant) :
    Except Error (SubmissionReceipt × Mail) := do
  identity "source_id" source
  identity "batch_id" batch
  items.forM fun item => do
    identity "item_id" item.itemId
    identity "revision" item.revision
  match ← m.submissionReceipt source batch items with
  | some previous => return (previous, m)
  | none => do
      let ((inserted, duplicates), n) ← m.appendItems source items now
      let n ← n.recomputeWake.appendContentProjections (inserted.map (·.mail.id))
      let receipt : SubmissionReceipt := ⟨"content-submit:" ++ source ++ ":" ++ batch, source, batch,
        inserted, duplicates, n.state.nextSeq, n.state.stateVersion, n.state.wakeNeeded⟩
      return (receipt, { n with submissions := n.submissions ++ [⟨source, batch, items, receipt⟩] })

/-! ## Selection -/

/-- Some selection claims the item. -/
def claimed (key : ContentKey) : Bool :=
  m.members.any fun row => row.key = key && m.selections.any fun s => holds s row

/-- The row of a reference, while it waits as it was read and nobody claims it. -/
def candidate (ref : ContentRef) (snapshotSeq : Nat) (now : Instant) : Option Item :=
  m.items.find? fun i => i.key = ref.key ∧ i.snapshotSeq ≤ snapshotSeq ∧
    i.stateVersion = ref.stateVersion ∧ waiting i.status ∧ i.notBefore ≤ now ∧ m.claimed i.key = false

/-- The driver takes the token, the turn and a new version. -/
def claimDriver (token : String) (turn : AcceptedTurn) (driver : ContentKey) (now : Instant) :
    Except Error Mail :=
  m.setItems (m.items.map fun i => if i.key = driver then i.claim token turn now else i)

/-- Each candidate is a member, and its claim is logged. -/
def claimMembers (token : String) (turn : AcceptedTurn) (m : Mail) (position : Nat) :
    List Item → Except Error Mail
  | [] => return m
  | row :: rest => do
      let m ← m.setMembers (m.members ++ [{ token, position, key := row.key }])
      let m ← m.appendTransition row.key.mail.id .content .selected (.selected token turn)
      claimMembers token turn m (position + 1) rest

/-- `select_batch`. -/
def selectBatch (refs : List ContentRef) (snapshotSeq : Nat) (turn : AcceptedTurn) (instant : Instant)
    (hex : String) (now : Instant) : Except Error (SelectResult × Mail) := do
  refs.forM ContentRef.check
  ensure (refs ≠ [] ∧ refs.length ≤ 100) ⟨.valueError, "Content batch selection 必须包含 1..100 个候选"⟩
  ensure (refs.map (·.key)).Nodup ⟨.valueError, "Content batch selection 不允许重复候选"⟩
  turn.check
  if turn ∈ m.selections.map (·.acceptedTurn) then
    return ({ selected := false, reason := some "turn_already_selected", state := m.state }, m)
  else
    let token := "content-selection:" ++ hex
    match refs.mapM fun ref => m.candidate ref snapshotSeq instant with
    | none => return ({ selected := false, reason := some "batch_candidate_changed", state := m.state }, m)
    | some [] => return ({ selected := false, state := m.state }, m)
    | some (driver :: rest) => do
        let n ← m.claimDriver token turn driver.key now
        let row : Selection :=
          { token, acceptedTurn := turn, snapshotSeq, driver := driver.key
            createdAt := now, updatedAt := now }
        let n ← n.setSelections (n.selections ++ [row])
        let n ← claimMembers token turn n 1 (driver :: rest)
        let n ← n.bump.recomputeWake.appendContentProjections
          ((driver :: rest).map (·.key.mail.id))
        return ({ selected := true, selectionToken := some token, acceptedTurn := some turn
                  state := n.state }, n)

/-! ## Transitions -/

def selection? (token : String) : Option Selection := m.selections.find? (·.token = token)

/-- The members of a selection, in their order. -/
def membersOf (token : String) : List Member :=
  (m.members.filter (·.token = token)).insertionSort (·.position ≤ ·.position)

/-- `_delivery_member_rows`. -/
def deliveryMemberRows (token : String) : List Item :=
  ((m.membersOf token).filter (·.selectedForDelivery)).filterMap fun row => m.item? row.key

/-- `_release_driver`. -/
def releaseDriver (token : String) (now : Instant) : Except Error Mail :=
  m.setItems (m.items.map fun i =>
    if i.selectionToken = some token ∧ (i.status = .selected ∨ i.status = .readyForDelivery) then
      i.release now else i)

local instance lawfulMember : LawfulBEq (String × ContentKey) := inferInstance

/-- `_select_delivery_members`. -/
def selectDeliveryMembers (token : String) (selectedRefs : Option (List ContentKey))
    (driver : ContentKey) : Except Error (List ContentKey × Mail) := do
  let chosen := selectedRefs.getD [driver]
  chosen.forM ContentKey.check
  ensure (chosen ≠ [] ∧ chosen.length ≤ 5 ∧ chosen.Nodup)
    ⟨.valueError, "Content share 必须引用 1..5 个不重复候选"⟩
  ensure (∀ key ∈ chosen, (token, key) ∈ m.members.map fun row => (row.token, row.key))
    ⟨.valueError, "Content share 引用了批次外候选"⟩
  let m ← m.setMembers (m.members.map fun row =>
    if row.token = token ∧ row.key ∈ chosen then { row with selectedForDelivery := true } else row)
  return (chosen, m)

/-- The members of a message that fails are closed; else the driver takes the status. -/
def closeItems (row : Selection) (action : SelectionAction) (notBefore : Option Instant)
    (now : Instant) : Except Error Mail :=
  if action = .failed ∧ row.status = .readyForDelivery then do
    let members := m.deliveryMemberRows row.token
    ensure (members ≠ []) ⟨.runtimeError, "Content ready batch 缺少 delivery members"⟩
    m.setItems (m.items.map fun i =>
      if i.key ∈ members.map (·.key) ∧ live i.status then i.move .failed now else i)
  else
    m.setItems (m.items.map fun i =>
      if i.selectionToken = some row.token then
        { i.move action.status now with notBefore := notBefore.getD i.notBefore } else i)

/-- What an action does to the items of a selection. -/
def moveItems (row : Selection) (action : SelectionAction) (notBefore : Option Instant)
    (selectedRefs : Option (List ContentKey)) (now : Instant) : Except Error Mail :=
  match action with
  | .readyForDelivery => do
      let (chosen, m) ← m.selectDeliveryMembers row.token selectedRefs row.driver
      if row.driver ∈ chosen then
        m.setItems (m.items.map fun i =>
          if i.selectionToken = some row.token ∧ i.status = .selected then
            i.move .readyForDelivery now else i)
      else m.releaseDriver row.token now
  | .release => m.releaseDriver row.token now
  | _ => m.closeItems row action notBefore now

/-- `transition`, of an action that is not the delivery. -/
def transition (token : String) (action : SelectionAction) (notBefore : Option Instant)
    (selectedRefs : Option (List ContentKey)) (now : Instant) :
    Except Error (TransitionResult × Mail) := do
  identity "selection_token" token
  ensure (action = .defer → notBefore ≠ none) ⟨.valueError, "defer 必须提供 not_before"⟩
  ensure (action ≠ .readyForDelivery → selectedRefs = none)
    ⟨.valueError, "只有 ready_for_delivery 可以提供 selected_refs"⟩
  match m.selection? token with
  | none => return (.unchanged "selection_missing", m)
  | some row =>
      if action.allowed row.status then do
        let members := m.membersOf token
        let n ← m.moveItems row action notBefore selectedRefs now
        let n ← n.setSelections (n.selections.map fun s =>
          if s.token = token then { s with status := action.status, updatedAt := now } else s)
        let n ← members.foldlM (fun n member =>
          n.appendTransition member.key.mail.id .content action.mail (.moved token notBefore)) n
        let n ← n.bump.recomputeWake.appendContentProjections (members.map (·.key.mail.id))
        return (.changed (if action = .release then .pending else action.status) n.state, n)
      else return (.unchanged ("status:" ++ row.status.text), m)

/-! ## Expiry -/

/-- The loop of `expire`: the references that expired, and those that were not there. -/
def expireEach (now : Instant) (m : Mail) :
    List ContentRef → Except Error ((List ContentRef × List ContentRef) × Mail)
  | [] => return (([], []), m)
  | ref :: rest =>
      if m.items.any (expirable ref) then do
        let m ← m.setItems (m.items.map fun i => if expirable ref i then i.move .expired now else i)
        let m ← m.appendTransition ref.key.mail.id .content .expired (.decayed now)
        let ((expired, stale), m) ← expireEach now m rest
        return ((ref :: expired, stale), m)
      else do
        let ((expired, stale), m) ← expireEach now m rest
        return ((expired, ref :: stale), m)

/-- `expire`. -/
def expire (refs : List ContentRef) (now : Instant) : Except Error (ExpireResult × Mail) := do
  refs.forM ContentRef.check
  ensure (refs ≠ [] ∧ refs.length ≤ 256) ⟨.valueError, "Content expire 必须包含 1..256 个候选"⟩
  ensure (refs.map (·.key)).Nodup ⟨.valueError, "Content expire 不允许重复候选"⟩
  let ((expired, stale), n) ← expireEach now m refs
  if expired = [] then return (⟨expired, stale, n.state⟩, n)
  else
    let n ← n.bump.recomputeWake.appendContentProjections (expired.map (·.key.mail.id))
    return (⟨expired, stale, n.state⟩, n)

/-! ## Delivery -/

/-- The loop of `settle_delivery`. -/
def settleEach (sha256 : String → String) (token settlement : String) (single : Bool) (now : Instant)
    (m : Mail) : List Item → Except Error Mail
  | [] => return m
  | member :: rest => do
      let ref := memberRef sha256 settlement single member.key
      let status := deliveredStatus member.requiresAck
      ensure (m.items.any fun i => i.key = member.key && live i.status)
        ⟨.runtimeError, "Content delivery member state changed before settlement"⟩
      let m ← m.setItems (m.items.map fun i => if i.key = member.key then i.settle status ref now else i)
      let m ← m.appendTransition member.key.mail.id .content
        (if member.requiresAck then .delivered else .settled) (.settled ref)
      let m ← m.setMembers (m.members.map fun row =>
        if row.token = token ∧ row.key = member.key then row.settle ref else row)
      settleEach sha256 token settlement single now m rest

/-- The driver waits again when it was not in the message. -/
def releaseUnless (chosen : Bool) (token : String) (now : Instant) : Except Error Mail :=
  if chosen then .ok m else m.releaseDriver token now

/-- `settle_delivery`. -/
def settleDelivery (sha256 : String → String) (token settlement : String) (now : Instant) :
    Except Error (SettleResult × Mail) := do
  identity "selection_token" token
  identity "settlement_ref" settlement
  match m.selection? token with
  | none => return (.missing, m)
  | some row =>
      if row.status = .delivered ∨ row.status = .settled then do
        ensure (row.settlementRef = some settlement)
          ⟨.runtimeError, "Content delivery settlement identity conflict"⟩
        return (.settled true row.status ⟨token, settlement⟩, m)
      else if row.status ≠ .readyForDelivery then
        return (.refused ("status:" ++ row.status.text), m)
      else do
        let members := m.deliveryMemberRows token
        ensure (members ≠ []) ⟨.runtimeError, "Content ready batch 缺少 delivery members"⟩
        let n ← settleEach sha256 token settlement (members.length = 1) now m members
        let n ← n.releaseUnless (row.driver ∈ members.map (·.key)) token now
        let status := if members.any (·.requiresAck) then .delivered else .settled
        let n ← n.setSelections (n.selections.map fun s =>
          if s.token = token ∧ s.status = .readyForDelivery then
            { s with status, settlementRef := some settlement, updatedAt := now } else s)
        let n ← n.bump.recomputeWake.appendContentProjections
          ((n.membersOf token).map (·.key.mail.id))
        return (.settled false status ⟨token, settlement⟩, n)

/-- `ack`. -/
def ack (source : String) (settlement : String) (now : Instant) :
    Except Error (AckResult × Mail) := do
  identity "source_id" source
  identity "settlement_ref" settlement
  match m.items.find? fun i => i.key.sourceId = source ∧ i.settlementRef = some settlement with
  | none => return (.missing, m)
  | some row =>
      if row.status = .settled then return (.settled true, m)
      else if row.status ≠ .delivered then return (.refused ("status:" ++ row.status.text), m)
      else do
        let n ← m.setItems (m.items.map fun i =>
          if i.key.sourceId = source ∧ i.settlementRef = some settlement ∧ i.status = .delivered then
            i.move .settled now else i)
        let n ← n.appendTransition row.key.mail.id .content .acknowledged (.settled settlement)
        let n ← n.bump.appendContentProjections [row.key.mail.id]
        return (.settled false, n)

end Mail

end MonoAgent.EventMail
