import MonoAgent.Lib.Numbered

/-!
# The inbox of a device

`MobileRealtimeStorage` keeps for each device the numbers of the next event, of the
last that was sent and of the last that was acknowledged, and the events that were
not acknowledged.  Each method is one transaction.
-/

namespace MonoAgent.Mobile

open MonoAgent.Lib

/-! ## The code -/

def resetRequired : String := "sync.reset_required"

def completed : String := "sync.completed"

/-- A row of `mobile_device_inbox`. -/
structure Event where
  seq : Nat
  type : String
  createdAt : Nat
deriving DecidableEq

/-- The event tells the client to build its state anew. -/
def Event.isReset (e : Event) : Bool := e.type = resetRequired

/-- The rows of a device. -/
structure Device where
  revoked : Bool := false
  /-- `next_event_seq` -/
  next : Nat := 1
  /-- `sent_event_seq` -/
  sent : Nat := 0
  /-- `acknowledged_event_seq` -/
  acked : Nat := 0
  /-- In the order of `event_seq`. -/
  inbox : List Event := []
deriving DecidableEq

/-- `_MAX_REBASE_ACK` -/
def maxRebaseAck : Nat := 2 ^ 62

/-- How an acknowledgement ends. -/
inductive AckResult where
  /-- `AckRollbackError` -/
  | rollback
  /-- `AckOverflowError` -/
  | overflow
  | advance (device : Device)

namespace Device

variable (d : Device)

/-- `append_durable_event` -/
def append (type : String) (now : Nat) : Device × Event :=
  ({ d with next := d.next + 1, inbox := d.inbox ++ [⟨d.next, type, now⟩] }, ⟨d.next, type, now⟩)

/-- `rebase_cursor_with_durable_event` -/
def rebase (through : Nat) (type : String) (now : Nat) : Option (Device × Event) :=
  if maxRebaseAck < through ∨ through < d.next then none
  else
    let e := ⟨through + 1, type, now⟩
    some ({ d with next := through + 2, sent := through, acked := through, inbox := [e] }, e)

/-- `read_durable_events` -/
def readEvents (after limit : Nat) : List Event := (d.inbox.filter fun e => after < e.seq).take limit

/-- `durable_event_range_is_contiguous` -/
def contiguous (after through : Nat) : Bool :=
  (d.inbox.filter fun e => after < e.seq).countP (fun e => e.seq ≤ through) = through - after

/-- `has_unacked_event_before` -/
def expired (cutoff : Nat) : Bool := d.inbox.any fun e => e.createdAt < cutoff

/-- `mark_events_sent` -/
def markSent (through : Nat) : Option Device :=
  if through < d.sent ∨ d.next - 1 < through then none else some { d with sent := through }

/-- `acknowledge_durable_events` -/
def acknowledge (through : Nat) : AckResult :=
  if through < d.acked then .rollback
  else if d.sent < through then .overflow
  else .advance { d with acked := through, inbox := d.inbox.filter fun e => through < e.seq }

/-- `revoke_device` -/
def revoke : Device := { d with revoked := true, inbox := [] }

end Device

/-! ## What the rows are -/

/-- The rows of a device that is not revoked: the inbox has every event that was not
acknowledged. -/
structure Device.Inv (d : Device) : Prop where
  acked : d.acked ≤ d.sent
  sent : d.sent < d.next
  inbox : Numbered Event.seq d.acked d.inbox
  length : d.acked + d.inbox.length + 1 = d.next

namespace Device

variable {d d' : Device} {e : Event} {type : String} {now after through : Nat}

theorem inv_new : Inv {} := ⟨Nat.le_refl _, Nat.zero_lt_one, trivial, rfl⟩

theorem Inv.append (h : d.Inv) : (d.append type now).1.Inv where
  acked := h.acked
  sent := Nat.lt_succ_of_lt h.sent
  inbox := h.inbox.concat h.length.symm
  length := by
    have hlen := h.length
    simp only [Device.append, List.length_append, List.length_singleton]
    omega

theorem rebase_ok (h : d.rebase through type now = some (d', e)) : d.next ≤ through ∧
    e = ⟨through + 1, type, now⟩ ∧
      d' = { d with next := through + 2, sent := through, acked := through, inbox := [e] } := by
  rw [rebase] at h
  split at h
  · cases h
  · next hle =>
      cases h
      exact ⟨by omega, rfl, rfl⟩

theorem Inv.rebase (h : d.rebase through type now = some (d', e)) : d'.Inv := by
  obtain ⟨_, rfl, rfl⟩ := rebase_ok h
  exact ⟨Nat.le_refl _, by simp, ⟨rfl, trivial⟩, rfl⟩

theorem markSent_ok (h : d.markSent through = some d') :
    d.sent ≤ through ∧ through ≤ d.next - 1 ∧ d' = { d with sent := through } := by
  rw [markSent] at h
  split at h
  · cases h
  · next hle =>
      cases h
      exact ⟨by omega, by omega, rfl⟩

theorem markSent_some (hs : d.sent ≤ through) (hn : through < d.next) :
    d.markSent through = some { d with sent := through } := by
  rw [markSent, if_neg (by omega)]

theorem Inv.markSent (h : d.Inv) (hm : d.markSent through = some d') : d'.Inv := by
  obtain ⟨hs, hn, rfl⟩ := markSent_ok hm
  have hsent := h.sent
  exact ⟨Nat.le_trans h.acked hs, (by omega : through < d.next), h.inbox, h.length⟩

theorem acknowledge_ok (h : d.acknowledge through = .advance d') :
    d.acked ≤ through ∧ through ≤ d.sent ∧
      d' = { d with acked := through, inbox := d.inbox.filter fun e => through < e.seq } := by
  rw [acknowledge] at h
  split at h
  · cases h
  · split at h
    · cases h
    · cases h
      exact ⟨by omega, by omega, rfl⟩

theorem Inv.acknowledge (h : d.Inv) (ha : d.acknowledge through = .advance d') : d'.Inv := by
  obtain ⟨hle, hsent, rfl⟩ := acknowledge_ok ha
  have hnext := h.sent
  have hlen := h.length
  obtain ⟨hrest, hcount⟩ := h.inbox.after hle (by omega)
  exact ⟨hsent, hnext, hrest, by simp only; omega⟩

/-! ## Reading -/

/-- What is read after a number that was acknowledged counts on from it. -/
theorem Inv.readEvents (h : d.Inv) (hacked : d.acked ≤ after) (hlt : after < d.next) (limit : Nat) :
    Numbered Event.seq after (d.readEvents after limit) := by
  have hlen := h.length
  exact (h.inbox.after hacked (by omega)).1.take limit

theorem mem_readEvents {limit : Nat} (he : e ∈ d.readEvents after limit) : e ∈ d.inbox ∧ after < e.seq := by
  have hmem := List.mem_of_mem_take he
  simpa using hmem

/-- An event that is read first is the next one. -/
theorem Inv.first (h : d.Inv) (hacked : d.acked ≤ after) (hlt : after < d.next) {limit : Nat} {rest : List Event}
    (he : d.readEvents after limit = e :: rest) : e.seq = after + 1 := by
  have hnum := h.readEvents hacked hlt limit
  rw [he] at hnum
  exact hnum.1

end Device

end MonoAgent.Mobile
