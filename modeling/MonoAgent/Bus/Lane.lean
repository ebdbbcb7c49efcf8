import MonoAgent.Lib.Columns
import MonoAgent.Lib.Shared

/-!
# Chat lanes

A `ChatLane` serialises what is sent to a chat.  The parties of a key share one
`_ChatLaneState`, whose condition wakes all that wait at once.  The lock of the
condition is never held across another wait, so what runs under it is one step.

A passive send is counted before it runs, by itself or by `mark_passive_send_pending`.
Such a registration is used once, by `mark_passive_send_done` or by the `run_passive`
that takes it over.  A send that is not passive draws a ticket.  A ticket that was
cancelled is skipped when it is its turn.
-/

namespace MonoAgent.Bus

open MonoAgent.Lib

/-! ## The code -/

/-- Where a party of a lane is.  What waits has seen so many notifications. -/
inductive Party where
  /-- Counted by `mark_passive_send_pending`. -/
  | registered
  | passiveWaits (notified : Nat)
  | passiveSends
  | waits (ticket notified : Nat)
  | sends (ticket : Nat)
  | left
deriving DecidableEq

/-- `_ChatLaneState`. -/
structure LaneState where
  /-- The calls of `notify_all`. -/
  notified : Nat := 0
  activeUsers : Int := 0
  passiveTurns : Nat := 0
  passiveSends : Nat := 0
  nextTicket : Nat := 0
  servingTicket : Nat := 0
  cancelled : List Nat := []
  sending : Bool := false
deriving DecidableEq

namespace LaneState

variable (v : LaneState)

def notifyAll : LaneState := { v with notified := v.notified + 1 }

/-- The counting part of `_acquire_state`. -/
def acquire : LaneState := { v with activeUsers := v.activeUsers + 1 }

/-- The counting part of `_release_state`. -/
def release : LaneState := { v with activeUsers := v.activeUsers - 1 }

/-- The state is not deleted. -/
def kept : Bool :=
  v.activeUsers ≠ 0 || v.passiveTurns ≠ 0 || v.passiveSends ≠ 0 || v.sending ||
    v.nextTicket ≠ v.servingTicket || v.cancelled ≠ []

/-- The rounds of `_skip_cancelled_non_passive`. -/
def skipRounds : Nat → LaneState → LaneState
  | 0, v => v
  | n + 1, v =>
      if v.servingTicket ∈ v.cancelled then
        skipRounds n { v with cancelled := v.cancelled.erase v.servingTicket
                              servingTicket := v.servingTicket + 1 }
      else v

/-- `_skip_cancelled_non_passive`.  A round takes one ticket out of the set. -/
def skip : LaneState := skipRounds v.cancelled.length v

/-- `mark_passive_pending` and `mark_passive_done`. -/
def markPending : LaneState := { v with passiveTurns := v.passiveTurns + 1 }.notifyAll

def markDone : LaneState :=
  (if 0 < v.passiveTurns then { v with passiveTurns := v.passiveTurns - 1 } else v).notifyAll

/-- `mark_passive_send_pending` and `mark_passive_send_done`. -/
def markSendPending : LaneState := { v with passiveSends := v.passiveSends + 1 }.notifyAll

def markSendDone : Party → Option (LaneState × Party)
  | .registered =>
      some ((if 0 < v.passiveSends then { v with passiveSends := v.passiveSends - 1 } else v).notifyAll, .left)
  | _ => none

/-- A round of the loop of `run_passive`. -/
def tryPassive : LaneState × Party :=
  if v.sending then (v, .passiveWaits v.notified) else ({ v with sending := true }, .passiveSends)

/-- `run_passive`, up to its wait or its send. -/
def runPassive : LaneState × Party := { v.acquire with passiveSends := v.passiveSends + 1 }.tryPassive

/-- The same, of a send that is registered. -/
def runRegistered : Party → Option (LaneState × Party)
  | .registered => some (if v.passiveSends = 0 then (v, .left) else v.acquire.tryPassive)
  | _ => none

/-- The end of `run_passive`. -/
def endPassive (sending : Bool) : LaneState × Party :=
  if v.passiveSends = 0 then (v.release, .left)
  else ({ v with passiveSends := v.passiveSends - 1, sending := v.sending && !sending }.notifyAll.release, .left)

/-- A round of the loop of `run_non_passive`. -/
def tryNonPassive (ticket : Nat) : LaneState × Party :=
  let v := v.skip
  if v.sending ∨ 0 < v.passiveTurns ∨ 0 < v.passiveSends ∨ ticket ≠ v.servingTicket then
    (v, .waits ticket v.notified)
  else ({ v with sending := true }, .sends ticket)

/-- `run_non_passive`, up to its wait or its send. -/
def runNonPassive : LaneState × Party :=
  { v.acquire with nextTicket := v.nextTicket + 1 }.tryNonPassive v.nextTicket

/-- The end of `run_non_passive`, after its send. -/
def endNonPassive : LaneState × Party :=
  ({ v with servingTicket := v.servingTicket + 1, sending := false }.skip.notifyAll.release, .left)

/-- The end of `run_non_passive`, where it waited. -/
def giveUp (ticket : Nat) : LaneState × Party :=
  ({ v with cancelled := v.cancelled ++ [ticket] }.skip.notifyAll.release, .left)

/-- A party that was woken goes on. -/
def resume : Party → Option (LaneState × Party)
  | .passiveWaits notified => if notified < v.notified then some v.tryPassive else none
  | .waits ticket notified => if notified < v.notified then some (v.tryNonPassive ticket) else none
  | _ => none

/-- `CancelledError` where a party waits. -/
def cancel : Party → Option (LaneState × Party)
  | .passiveWaits _ => some (v.endPassive false)
  | .waits ticket _ => some (v.giveUp ticket)
  | _ => none

/-- `send` returns or raises, or is cancelled. -/
def sent : Party → Option (LaneState × Party)
  | .passiveSends => some (v.endPassive true)
  | .sends _ => some v.endNonPassive
  | _ => none

end LaneState

variable {K : Type}

abbrev Lanes (K : Type) := Shared K LaneState Party

namespace Lanes

variable [DecidableEq K] (s : Lanes K)

def markPending (k : K) : Lanes K := s.enter LaneState.kept k {} fun v => (v.markPending, .left)

def markDone (k : K) : Lanes K := s.enter LaneState.kept k {} fun v => (v.markDone, .left)

def markSendPending (k : K) : Lanes K := s.enter LaneState.kept k {} fun v => (v.markSendPending, .registered)

def markSendDone (c : Nat) : Option (Lanes K) := s.retake LaneState.kept c {} LaneState.markSendDone

def runPassive (k : K) : Lanes K := s.enter LaneState.kept k {} LaneState.runPassive

def runRegistered (c : Nat) : Option (Lanes K) := s.retake LaneState.kept c {} LaneState.runRegistered

def runNonPassive (k : K) : Lanes K := s.enter LaneState.kept k {} LaneState.runNonPassive

def resume (c : Nat) : Option (Lanes K) := s.act LaneState.kept c LaneState.resume

def cancel (c : Nat) : Option (Lanes K) := s.act LaneState.kept c LaneState.cancel

def sent (c : Nat) : Option (Lanes K) := s.act LaneState.kept c LaneState.sent

end Lanes

/-! ## Tickets -/

variable {v w : LaneState} {ts : List Nat}

/-- The tickets that are not served yet are the ones of the parties and the cancelled
ones, each once. -/
structure Drawn (v : LaneState) (ts : List Nat) : Prop where
  le : v.servingTicket ≤ v.nextTicket
  perm : (ts ++ v.cancelled).Perm (List.range' v.servingTicket (v.nextTicket - v.servingTicket))

/-- The ticket that is served next was not cancelled. -/
structure Tickets (v : LaneState) (ts : List Nat) : Prop extends Drawn v ts where
  served : v.servingTicket ∉ v.cancelled

theorem Drawn.mem (h : Drawn v ts) {t : Nat} :
    t ∈ ts ∨ t ∈ v.cancelled ↔ v.servingTicket ≤ t ∧ t < v.nextTicket := by
  rw [← List.mem_append, h.perm.mem_iff, List.mem_range'_1]
  have := h.le
  omega

theorem Drawn.nodup (h : Drawn v ts) : (ts ++ v.cancelled).Nodup :=
  h.perm.nodup_iff.mpr (List.nodup_range' ..)

/-- What skipping does to a state. -/
structure Skipped (v w : LaneState) : Prop where
  serving : v.servingTicket ≤ w.servingTicket
  same : v.servingTicket ∉ v.cancelled → w = v
  eq : w = { v with servingTicket := w.servingTicket, cancelled := w.cancelled }

theorem Drawn.skipRounds {n : Nat} (h : Drawn v ts) (hn : v.cancelled.length ≤ n) :
    Tickets (LaneState.skipRounds n v) ts ∧ Skipped v (LaneState.skipRounds n v) := by
  induction n generalizing v with
  | zero =>
      have hnil : v.cancelled = [] := List.length_eq_zero_iff.mp (Nat.le_zero.mp hn)
      exact ⟨⟨h, by simp [LaneState.skipRounds, hnil]⟩, Nat.le_refl _, fun _ => rfl, rfl⟩
  | succ n ih =>
      rw [LaneState.skipRounds]
      split
      · next hmem =>
          have hlt := (h.mem.mp (Or.inr hmem)).2
          have hrange : List.range' v.servingTicket (v.nextTicket - v.servingTicket) =
              v.servingTicket :: List.range' (v.servingTicket + 1) (v.nextTicket - (v.servingTicket + 1)) := by
            rw [← List.range'_succ]
            congr 1
            omega
          have hdrawn : Drawn { v with cancelled := v.cancelled.erase v.servingTicket
                                       servingTicket := v.servingTicket + 1 } ts := by
            refine ⟨hlt, ?_⟩
            have hperm := h.perm
            rw [hrange] at hperm
            have hnot : v.servingTicket ∉ ts := fun hin => (List.nodup_append.mp h.nodup).2.2 _ hin _ hmem rfl
            have herase := hperm.erase v.servingTicket
            rw [List.erase_cons_head, List.erase_append_right _ hnot] at herase
            exact herase
          have hlen : (v.cancelled.erase v.servingTicket).length ≤ n := by
            rw [List.length_erase_of_mem hmem]
            omega
          obtain ⟨htickets, hskipped⟩ := ih hdrawn hlen
          refine ⟨htickets, Nat.le_of_succ_le hskipped.serving, fun hnot => absurd hmem hnot, ?_⟩
          exact hskipped.eq
      · next hnot => exact ⟨⟨h, hnot⟩, Nat.le_refl _, fun _ => rfl, rfl⟩

theorem Drawn.skip (h : Drawn v ts) : Tickets v.skip ts ∧ Skipped v v.skip := h.skipRounds (Nat.le_refl _)

theorem Tickets.skip (h : Tickets v ts) : v.skip = v := h.toDrawn.skip.2.same h.served

/-- The next ticket is drawn. -/
theorem Tickets.draw (h : Tickets v ts) (hs : w.servingTicket = v.servingTicket)
    (hn : w.nextTicket = v.nextTicket + 1) (hc : w.cancelled = v.cancelled) :
    Tickets w (ts ++ [v.nextTicket]) where
  le := by
    have hle := h.le
    omega
  perm := by
    have hle := h.le
    have hrange : w.nextTicket - w.servingTicket = v.nextTicket - v.servingTicket + 1 := by omega
    have hlast : v.servingTicket + (v.nextTicket - v.servingTicket) = v.nextTicket := by omega
    rw [hrange, List.range'_1_concat, hs, hlast, hc, List.append_assoc]
    have hswap : (ts ++ ([v.nextTicket] ++ v.cancelled)).Perm (ts ++ v.cancelled ++ [v.nextTicket]) := by
      rw [List.append_assoc]
      exact List.perm_append_comm.append_left ts
    exact hswap.trans (h.perm.append_right _)
  served := by
    rw [hs, hc]
    exact h.served

/-- A ticket of a party is cancelled. -/
theorem Tickets.giveUp (h : Tickets v ts) {t : Nat} (ht : t ∈ ts) :
    Tickets (LaneState.skip { v with cancelled := v.cancelled ++ [t] }) (ts.erase t) ∧
      Skipped { v with cancelled := v.cancelled ++ [t] }
        (LaneState.skip { v with cancelled := v.cancelled ++ [t] }) := by
  refine Drawn.skip ⟨h.le, ?_⟩
  have hmove : (ts.erase t ++ (v.cancelled ++ [t])).Perm (ts ++ v.cancelled) := by
    rw [← List.append_assoc]
    refine (List.perm_append_singleton t _).trans ?_
    exact (List.perm_cons_erase ht).symm.append_right v.cancelled
  exact hmove.trans h.perm

/-- The ticket that was served is done. -/
theorem Tickets.done (h : Tickets v ts) (ht : v.servingTicket ∈ ts) {b : Bool} :
    Tickets (LaneState.skip { v with servingTicket := v.servingTicket + 1, sending := b })
        (ts.erase v.servingTicket) ∧
      Skipped { v with servingTicket := v.servingTicket + 1, sending := b }
        (LaneState.skip { v with servingTicket := v.servingTicket + 1, sending := b }) := by
  have hlt := (h.mem.mp (Or.inl ht)).2
  refine Drawn.skip ⟨hlt, ?_⟩
  have hrange : List.range' v.servingTicket (v.nextTicket - v.servingTicket) =
      v.servingTicket :: List.range' (v.servingTicket + 1) (v.nextTicket - (v.servingTicket + 1)) := by
    rw [← List.range'_succ]
    congr 1
    omega
  have hperm := h.perm.erase v.servingTicket
  rw [hrange, List.erase_cons_head, List.erase_append_left _ ht] at hperm
  exact hperm

/-! ## What the fields of a lane count -/

namespace Party

/-- The party has the state: an active user. -/
def user : Party → Bool
  | .registered => false
  | .left => false
  | _ => true

/-- The party has a passive send that has not ended. -/
def passive : Party → Bool
  | .registered => true
  | .passiveWaits _ => true
  | .passiveSends => true
  | _ => false

/-- The party sends. -/
def sending : Party → Bool
  | .passiveSends => true
  | .sends _ => true
  | _ => false

def ticket? : Party → Option Nat
  | .waits ticket _ => some ticket
  | .sends ticket => some ticket
  | _ => none

/-- What a party that waits has seen. -/
def seen? : Party → Option Nat
  | .passiveWaits notified => some notified
  | .waits _ notified => some notified
  | _ => none

end Party

/-- The tickets of the parties. -/
def ticketsOf (ps : Dict Nat Party) : List Nat := ps.filterMap fun e => e.2.ticket?

variable {ps : Dict Nat Party} {c : Nat} {u u' : Party}

structure Counted (v : LaneState) (ps : Dict Nat Party) : Prop where
  users : v.activeUsers = ps.tally Party.user
  passive : v.passiveSends = ps.tally Party.passive
  sending : v.sending.toInt = ps.tally Party.sending
  /-- The tickets are drawn in the order of the parties. -/
  order : (ticketsOf ps).Pairwise (· < ·)
  /-- What sends without being passive has the ticket that is served. -/
  sender : ∀ c t, (c, .sends t) ∈ ps → t = v.servingTicket

/-- A party that may send was woken.  One may be left out, which is about to look. -/
structure Woken (but : Option Nat) (v : LaneState) (ps : Dict Nat Party) : Prop where
  asleep : ∀ c u n, (c, u) ∈ ps → u.seen? = some n → n ≤ v.notified
  passive : v.sending = false → ∀ c n, some c ≠ but → (c, .passiveWaits n) ∈ ps → n < v.notified
  next : v.sending = false → v.passiveTurns = 0 → v.passiveSends = 0 → ∀ c n, some c ≠ but →
    (c, .waits v.servingTicket n) ∈ ps → n < v.notified

structure LaneState.Inv (v : LaneState) (ps : Dict Nat Party) : Prop where
  counted : Counted v ps
  tickets : Tickets v (ticketsOf ps)
  woken : Woken none v ps

theorem lane_new : LaneState.Inv {} [] where
  counted := ⟨rfl, rfl, rfl, List.Pairwise.nil, fun _ _ hmem => nomatch hmem⟩
  tickets := ⟨⟨Nat.le_refl _, List.Perm.refl _⟩, by simp⟩
  woken := ⟨fun _ _ _ hmem => (nomatch hmem), fun _ _ _ _ hmem => (nomatch hmem),
    fun _ _ _ _ _ _ hmem => (nomatch hmem)⟩

/-- A notification wakes all that wait. -/
theorem woken_notify (h : ∀ c u n, (c, u) ∈ ps → u.seen? = some n → n < v.notified) : Woken none v ps where
  asleep c u n hmem hu := Nat.le_of_lt (h c u n hmem hu)
  passive _ c n _ hmem := h c _ n hmem rfl
  next _ _ _ c n _ hmem := h c _ n hmem rfl

theorem Counted.kept (h : Counted v ps) (hc : ps.get? c = some u) (hu : u.user = true ∨ u.passive = true) :
    v.kept = true := by
  rcases hu with hu | hu
  · have hpos : 0 < ps.tally Party.user := Dict.tally_pos.mpr ⟨c, u, Dict.mem_of_get? hc, hu⟩
    rw [← h.users] at hpos
    simp [LaneState.kept, Int.ne_of_gt hpos]
  · have hpos : 0 < ps.tally Party.passive := Dict.tally_pos.mpr ⟨c, u, Dict.mem_of_get? hc, hu⟩
    rw [← h.passive] at hpos
    simp [LaneState.kept, Nat.ne_of_gt (Int.natCast_pos.mp hpos)]

/-! ## Tickets of the parties -/

theorem mem_tickets {t : Nat} : t ∈ ticketsOf ps ↔ ∃ c u, (c, u) ∈ ps ∧ u.ticket? = some t := by
  rw [ticketsOf, List.mem_filterMap]
  constructor
  · rintro ⟨⟨c, u⟩, he, hu⟩
    exact ⟨c, u, he, hu⟩
  · rintro ⟨c, u, he, hu⟩
    exact ⟨(c, u), he, hu⟩

theorem tickets_concat : ticketsOf (ps ++ [(c, u)]) = ticketsOf ps ++ u.ticket?.toList := by
  rw [ticketsOf, List.filterMap_append]
  simp only [List.filterMap_cons, List.filterMap_nil]
  cases u.ticket? with
  | none => rfl
  | some t => rfl

theorem tickets_set (hnd : ps.keys.Nodup) (hc : ps.get? c = some u) (u' : Party) (hu : u'.ticket? = u.ticket?) :
    ticketsOf (ps.set c u') = ticketsOf ps := Dict.filterMap_set_same hnd hc hu

/-- A ticket goes with its party, because no other party has it. -/
theorem tickets_erase {t : Nat} (h : (ticketsOf ps).Pairwise (· < ·)) (hnd : ps.keys.Nodup)
    (hc : ps.get? c = some u) (hu : u.ticket? = some t) : ticketsOf (ps.set c .left) = (ticketsOf ps).erase t := by
  refine Dict.filterMap_set_erase hnd hc hu rfl fun e he hte => ?_
  have hsame := eq_of_filterMap_nodup (h.imp Nat.ne_of_lt) he (Dict.mem_of_get? hc) hte hu
  exact congrArg Prod.fst hsame

/-! ## Counts after a step -/

theorem Counted.concat (h : Counted v ps)
    (hu : w.activeUsers = v.activeUsers + if u.user then 1 else 0)
    (hp : (w.passiveSends : Int) = v.passiveSends + if u.passive then 1 else 0)
    (hs : w.sending.toInt = v.sending.toInt + if u.sending then 1 else 0)
    (ho : (ticketsOf (ps ++ [(c, u)])).Pairwise (· < ·))
    (ht : w.servingTicket = v.servingTicket) (hsend : ∀ t, u ≠ .sends t) : Counted w (ps ++ [(c, u)]) where
  users := by rw [hu, h.users, Dict.tally_concat]
  passive := by rw [hp, h.passive, Dict.tally_concat]
  sending := by rw [hs, h.sending, Dict.tally_concat]
  order := ho
  sender d t hmem := by
    rcases List.mem_append.mp hmem with hmem | hmem
    · exact ht ▸ h.sender d t hmem
    · cases List.mem_singleton.mp hmem
      exact absurd rfl (hsend t)

theorem Counted.set (h : Counted v ps) (hnd : ps.keys.Nodup) (hc : ps.get? c = some u)
    (hu : w.activeUsers = v.activeUsers - (if u.user then 1 else 0) + if u'.user then 1 else 0)
    (hp : (w.passiveSends : Int) = v.passiveSends - (if u.passive then 1 else 0) + if u'.passive then 1 else 0)
    (hs : w.sending.toInt = v.sending.toInt - (if u.sending then 1 else 0) + if u'.sending then 1 else 0)
    (ho : (ticketsOf (ps.set c u')).Pairwise (· < ·))
    (hsend : ∀ d t, (d, .sends t) ∈ ps.set c u' → t = w.servingTicket) : Counted w (ps.set c u') where
  users := by rw [hu, h.users, Dict.tally_set _ hnd hc]
  passive := by rw [hp, h.passive, Dict.tally_set _ hnd hc]
  sending := by rw [hs, h.sending, Dict.tally_set _ hnd hc]
  order := ho
  sender := hsend

/-- At most one party sends. -/
theorem Counted.one (h : Counted v ps) {d : Nat} (hc : (c, u) ∈ ps) (hu : u.sending = true)
    (hd : (d, u') ∈ ps) (hu' : u'.sending = true) : c = d := by
  have hone : ps.tally Party.sending ≤ 1 := by
    rw [← h.sending]
    cases v.sending <;> decide
  exact Dict.eq_of_tally hone hc hu hd hu'

theorem Counted.busy (h : Counted v ps) (hc : (c, u) ∈ ps) (hu : u.sending = true) : v.sending = true := by
  have hpos : 0 < ps.tally Party.sending := Dict.tally_pos.mpr ⟨c, u, hc, hu⟩
  rw [← h.sending] at hpos
  cases hv : v.sending with
  | true => rfl
  | false =>
      rw [hv] at hpos
      exact absurd hpos (by decide)

theorem Counted.free (h : Counted v ps) (hv : v.sending = false) {t : Nat} : (c, .sends t) ∉ ps := by
  intro hc
  have hbusy := h.busy hc rfl
  rw [hv] at hbusy
  cases hbusy

theorem mem_set_seen (hmem : (c, u) ∈ ps.set c' u') (hu' : u'.seen? = none) {n : Nat} (hu : u.seen? = some n) :
    (c, u) ∈ ps := by
  rcases Dict.mem_set.mp hmem with heq | ⟨_, hmem⟩
  · cases heq
    rw [hu'] at hu
    cases hu
  · exact hmem

/-! ## The methods -/

/-- A mark writes the counts and notifies. -/
theorem LaneState.Inv.mark (h : v.Inv ps) (hu : w.activeUsers = v.activeUsers + if u.user then 1 else 0)
    (hp : (w.passiveSends : Int) = v.passiveSends + if u.passive then 1 else 0)
    (hs : w.sending = v.sending) (hn : w.notified = v.notified + 1)
    (htickets : w.servingTicket = v.servingTicket ∧ w.nextTicket = v.nextTicket ∧ w.cancelled = v.cancelled)
    (hplace : u.sending = false ∧ u.ticket? = none ∧ u.seen? = none) : w.Inv (ps ++ [(c, u)]) := by
  obtain ⟨hserving, hnext, hcancelled⟩ := htickets
  obtain ⟨hidle, hnone, hseen⟩ := hplace
  have hts : ticketsOf (ps ++ [(c, u)]) = ticketsOf ps := by
    rw [tickets_concat, hnone]
    exact List.append_nil _
  refine ⟨h.counted.concat hu hp (by simp [hs, hidle]) (hts ▸ h.counted.order) hserving ?_, ?_, ?_⟩
  · rintro t rfl
    cases hidle
  · rw [hts]
    refine ⟨⟨?_, ?_⟩, ?_⟩
    · rw [hserving, hnext]
      exact h.tickets.le
    · rw [hserving, hnext, hcancelled]
      exact h.tickets.perm
    · rw [hserving, hcancelled]
      exact h.tickets.served
  · refine woken_notify fun d u' n hmem hu' => ?_
    rcases List.mem_append.mp hmem with hmem | hmem
    · exact hn ▸ Nat.lt_succ_of_le (h.woken.asleep d u' n hmem hu')
    · cases List.mem_singleton.mp hmem
      rw [hseen] at hu'
      cases hu'

theorem LaneState.Inv.markPending (h : v.Inv ps) : v.markPending.Inv (ps ++ [(c, .left)]) :=
  h.mark (by simp [LaneState.markPending, LaneState.notifyAll, Party.user])
    (by simp [LaneState.markPending, LaneState.notifyAll, Party.passive]) rfl rfl ⟨rfl, rfl, rfl⟩ ⟨rfl, rfl, rfl⟩

theorem LaneState.Inv.markDone (h : v.Inv ps) : v.markDone.Inv (ps ++ [(c, .left)]) := by
  rw [LaneState.markDone]
  split
  · exact h.mark (by simp [LaneState.notifyAll, Party.user]) (by simp [LaneState.notifyAll, Party.passive])
      rfl rfl ⟨rfl, rfl, rfl⟩ ⟨rfl, rfl, rfl⟩
  · exact h.mark (by simp [LaneState.notifyAll, Party.user]) (by simp [LaneState.notifyAll, Party.passive])
      rfl rfl ⟨rfl, rfl, rfl⟩ ⟨rfl, rfl, rfl⟩

theorem LaneState.Inv.markSendPending (h : v.Inv ps) : v.markSendPending.Inv (ps ++ [(c, .registered)]) :=
  h.mark (by simp [LaneState.markSendPending, LaneState.notifyAll, Party.user])
    (by simp [LaneState.markSendPending, LaneState.notifyAll, Party.passive]) rfl rfl ⟨rfl, rfl, rfl⟩
    ⟨rfl, rfl, rfl⟩

/-- A party that goes takes its ticket along. -/
theorem tickets_left (h : Counted v ps) (hnd : ps.keys.Nodup) (hc : ps.get? c = some u) :
    (ticketsOf (ps.set c .left)).Sublist (ticketsOf ps) := by
  cases hu : u.ticket? with
  | none =>
      rw [tickets_set hnd hc .left hu.symm]
  | some t =>
      rw [tickets_erase h.order hnd hc hu]
      exact List.erase_sublist

/-- The last step of a party, which notifies. -/
theorem LaneState.Inv.ended (h : v.Inv ps) (hnd : ps.keys.Nodup) (hc : ps.get? c = some u)
    (hu : w.activeUsers = v.activeUsers - if u.user then 1 else 0)
    (hp : (w.passiveSends : Int) = v.passiveSends - if u.passive then 1 else 0)
    (hs : w.sending.toInt = v.sending.toInt - if u.sending then 1 else 0)
    (hn : w.notified = v.notified + 1) (ht : Tickets w (ticketsOf (ps.set c .left)))
    (hserving : ∀ d t, (d, .sends t) ∈ ps → d ≠ c → w.servingTicket = v.servingTicket) :
    w.Inv (ps.set c .left) where
  counted := by
    refine h.counted.set hnd hc ?_ ?_ ?_ (h.counted.order.sublist (tickets_left h.counted hnd hc)) fun d t hmem => ?_
    · simp [hu, Party.user]
    · simp [hp, Party.passive]
    · simp [hs, Party.sending]
    · rcases Dict.mem_set.mp hmem with heq | ⟨hne, hmem⟩
      · cases heq
      · rw [hserving d t hmem hne]
        exact h.counted.sender d t hmem
  tickets := ht
  woken := woken_notify fun d u' n hmem hu' =>
    hn ▸ Nat.lt_succ_of_le (h.woken.asleep d u' n (mem_set_seen hmem rfl hu') hu')

theorem LaneState.Inv.passive_pos (h : v.Inv ps) (hc : ps.get? c = some u) (hu : u.passive = true) :
    0 < v.passiveSends := by
  have hpos : 0 < ps.tally Party.passive := Dict.tally_pos.mpr ⟨c, u, Dict.mem_of_get? hc, hu⟩
  rw [← h.counted.passive] at hpos
  exact Int.natCast_pos.mp hpos

/-- The tickets stay what they are. -/
theorem Tickets.same (h : Tickets v ts) (hs : w.servingTicket = v.servingTicket)
    (hn : w.nextTicket = v.nextTicket) (hc : w.cancelled = v.cancelled) : Tickets w ts where
  le := by
    rw [hs, hn]
    exact h.le
  perm := by
    rw [hs, hn, hc]
    exact h.perm
  served := by
    rw [hs, hc]
    exact h.served

theorem LaneState.Inv.markSendDone (h : v.Inv ps) (hnd : ps.keys.Nodup) (hc : ps.get? c = some u)
    (hf : v.markSendDone u = some (w, u')) : v.kept = true ∧ w.Inv (ps.set c u') := by
  cases u with
  | registered =>
      cases hf
      have hpos := h.passive_pos hc rfl
      refine ⟨h.counted.kept hc (Or.inr rfl), ?_⟩
      rw [if_pos hpos]
      refine h.ended hnd hc ?_ ?_ ?_ rfl ?_ fun _ _ _ _ => rfl
      · simp [LaneState.notifyAll, Party.user]
      · simp only [LaneState.notifyAll, Party.passive, if_true]
        omega
      · simp [LaneState.notifyAll, Party.sending]
      · rw [tickets_set hnd hc .left rfl]
        exact h.tickets.same rfl rfl rfl
  | _ => cases hf

theorem LaneState.Inv.endPassive (h : v.Inv ps) (hnd : ps.keys.Nodup) (hc : ps.get? c = some u)
    (hu : u.user = true) (hp : u.passive = true) (ht : u.ticket? = none) :
    LaneState.Inv (v.endPassive u.sending).1 (ps.set c (v.endPassive u.sending).2) := by
  have hpos := h.passive_pos hc hp
  rw [LaneState.endPassive, if_neg (Nat.ne_of_gt hpos)]
  refine h.ended hnd hc ?_ ?_ ?_ rfl ?_ fun _ _ _ _ => rfl
  · simp [LaneState.notifyAll, LaneState.release, hu]
  · simp only [LaneState.notifyAll, LaneState.release, hp, if_true]
    omega
  · cases hsend : u.sending with
    | false => simp [LaneState.notifyAll, LaneState.release]
    | true =>
        have hbusy := h.counted.busy (Dict.mem_of_get? hc) hsend
        simp [LaneState.notifyAll, LaneState.release, hbusy]
  · rw [tickets_set hnd hc .left ht.symm]
    exact h.tickets.same rfl rfl rfl

theorem LaneState.Inv.endNonPassive {t : Nat} (h : v.Inv ps) (hnd : ps.keys.Nodup)
    (hc : ps.get? c = some (.sends t)) :
    LaneState.Inv v.endNonPassive.1 (ps.set c v.endNonPassive.2) := by
  have hmem := Dict.mem_of_get? hc
  obtain rfl : t = v.servingTicket := h.counted.sender c t hmem
  have hts : v.servingTicket ∈ ticketsOf ps := mem_tickets.mpr ⟨c, _, hmem, rfl⟩
  obtain ⟨htickets, hskipped⟩ := h.tickets.done (b := false) hts
  rw [LaneState.endNonPassive]
  dsimp only
  rw [hskipped.eq]
  refine h.ended hnd hc ?_ ?_ ?_ rfl ?_ fun d t hd hne => (hne (h.counted.one hd rfl hmem rfl)).elim
  · simp [LaneState.notifyAll, LaneState.release, Party.user]
  · simp [LaneState.notifyAll, LaneState.release, Party.passive]
  · rw [h.counted.busy hmem rfl]
    rfl
  · rw [tickets_erase h.counted.order hnd hc rfl]
    rw [hskipped.eq] at htickets
    exact htickets.same rfl rfl rfl

theorem LaneState.Inv.giveUp {t n : Nat} (h : v.Inv ps) (hnd : ps.keys.Nodup)
    (hc : ps.get? c = some (.waits t n)) :
    LaneState.Inv (v.giveUp t).1 (ps.set c (v.giveUp t).2) := by
  have hmem := Dict.mem_of_get? hc
  have hts : t ∈ ticketsOf ps := mem_tickets.mpr ⟨c, _, hmem, rfl⟩
  obtain ⟨htickets, hskipped⟩ := h.tickets.giveUp hts
  rw [LaneState.giveUp]
  dsimp only
  have hserving : ∀ d t', (d, .sends t') ∈ ps → d ≠ c →
      (LaneState.skip { v with cancelled := v.cancelled ++ [t] }).servingTicket = v.servingTicket := by
    -- The ticket of a party that sends is the one that is served, so there is nothing to skip.
    intro d t' hd hne
    have hnot : v.servingTicket ∉ v.cancelled ++ [t] := by
      intro hin
      rcases List.mem_append.mp hin with hin | hin
      · exact h.tickets.served hin
      · have heq : t' = t := (h.counted.sender d t' hd).trans (List.mem_singleton.mp hin)
        have hsame := eq_of_filterMap_nodup (h.counted.order.imp Nat.ne_of_lt) hd hmem (v := t)
          (congrArg some heq) rfl
        exact hne (congrArg Prod.fst hsame)
    rw [hskipped.same hnot]
  rw [hskipped.eq]
  refine h.ended hnd hc ?_ ?_ ?_ rfl ?_ hserving
  · simp [LaneState.notifyAll, LaneState.release, Party.user]
  · simp [LaneState.notifyAll, LaneState.release, Party.passive]
  · simp [LaneState.notifyAll, LaneState.release, Party.sending]
  · rw [tickets_erase h.counted.order hnd hc rfl]
    rw [hskipped.eq] at htickets
    exact htickets.same rfl rfl rfl

/-! ## Looking -/

/-- A party is about to look whether it may send. -/
structure Looking (c : Nat) (u : Party) (v : LaneState) (ps : Dict Nat Party) : Prop where
  nodup : ps.keys.Nodup
  here : ps.get? c = some u
  counted : Counted v ps
  tickets : Tickets v (ticketsOf ps)
  woken : Woken (some c) v ps

theorem LaneState.Inv.looking (h : v.Inv ps) (hnd : ps.keys.Nodup) (hc : ps.get? c = some u) :
    Looking c u v ps :=
  ⟨hnd, hc, h.counted, h.tickets, h.woken.asleep, fun hs d n _ => h.woken.passive hs d n nofun,
    fun hs ht hp d n _ => h.woken.next hs ht hp d n nofun⟩

/-- A party that looked waits on, or sends. -/
theorem Looking.place (h : Looking c u v ps) (u' : Party) (b : Bool) (hticket : u'.ticket? = u.ticket?)
    (huser : u'.user = u.user) (hpassive : u'.passive = u.passive)
    (hsend : b.toInt = v.sending.toInt - (if u.sending then 1 else 0) + if u'.sending then 1 else 0)
    (hsender : ∀ t, u' = .sends t → t = v.servingTicket) :
    Counted { v with sending := b } (ps.set c u') ∧ Tickets { v with sending := b } (ticketsOf (ps.set c u')) := by
  have hts := tickets_set h.nodup h.here u' hticket
  refine ⟨h.counted.set h.nodup h.here ?_ ?_ hsend (hts ▸ h.counted.order) fun d t hmem => ?_, ?_⟩
  · rw [huser]
    simp
  · rw [hpassive]
    simp
  · rcases Dict.mem_set.mp hmem with heq | ⟨_, hmem⟩
    · exact hsender t (congrArg Prod.snd heq).symm
    · exact h.counted.sender d t hmem
  · rw [hts]
    exact h.tickets.same rfl rfl rfl

theorem Looking.passive {n : Nat} (h : Looking c (.passiveWaits n) v ps) :
    LaneState.Inv v.tryPassive.1 (ps.set c v.tryPassive.2) := by
  rw [LaneState.tryPassive]
  split
  · next hbusy =>
      obtain ⟨hcounted, htickets⟩ := h.place (.passiveWaits v.notified) v.sending rfl rfl rfl
        (by simp [Party.sending]) nofun
      refine ⟨hcounted, htickets, fun d u n hmem hu => ?_, fun hs => absurd (hbusy.symm.trans hs) nofun,
        fun hs => absurd (hbusy.symm.trans hs) nofun⟩
      rcases Dict.mem_set.mp hmem with heq | ⟨_, hmem⟩
      · cases heq
        cases hu
        exact Nat.le_refl _
      · exact h.woken.asleep d u n hmem hu
  · next hfree =>
      have hidle : v.sending = false := by simpa using hfree
      obtain ⟨hcounted, htickets⟩ := h.place .passiveSends true rfl rfl rfl
        (by simp [Party.sending, hidle]) nofun
      exact ⟨hcounted, htickets, fun d u n hmem hu => h.woken.asleep d u n (mem_set_seen hmem rfl hu) hu,
        fun hs => (nomatch hs), fun hs => (nomatch hs)⟩

theorem Looking.nonPassive {t n : Nat} (h : Looking c (.waits t n) v ps) :
    LaneState.Inv (v.tryNonPassive t).1 (ps.set c (v.tryNonPassive t).2) := by
  rw [LaneState.tryNonPassive, h.tickets.skip]
  split
  · next hwait =>
      obtain ⟨hcounted, htickets⟩ := h.place (.waits t v.notified) v.sending rfl rfl rfl
        (by simp [Party.sending]) nofun
      refine ⟨hcounted, htickets, fun d u n hmem hu => ?_, fun hs d n _ hmem => ?_,
        fun hs hturns hsends d n _ hmem => ?_⟩
      · rcases Dict.mem_set.mp hmem with heq | ⟨_, hmem⟩
        · cases heq
          cases hu
          exact Nat.le_refl _
        · exact h.woken.asleep d u n hmem hu
      · rcases Dict.mem_set.mp hmem with heq | ⟨hne, hmem⟩
        · cases heq
        · exact h.woken.passive hs d n (fun heq => hne (Option.some.inj heq)) hmem
      · rcases Dict.mem_set.mp hmem with heq | ⟨hne, hmem⟩
        · -- It would have sent.
          have hserved : v.servingTicket = t ∧ n = v.notified := by simpa using (Prod.mk.inj heq).2
          simp [show v.sending = false from hs, show v.passiveTurns = 0 from hturns,
            show v.passiveSends = 0 from hsends, hserved.1] at hwait
        · exact h.woken.next hs hturns hsends d n (fun heq => hne (Option.some.inj heq)) hmem
  · next hgo =>
      obtain ⟨hidle, _, _, rfl⟩ : v.sending = false ∧ v.passiveTurns = 0 ∧ v.passiveSends = 0 ∧
          t = v.servingTicket := by simpa using hgo
      obtain ⟨hcounted, htickets⟩ := h.place (.sends v.servingTicket) true rfl rfl rfl
        (by simp [Party.sending, hidle]) fun t ht => (Party.sends.inj ht).symm
      exact ⟨hcounted, htickets, fun d u n hmem hu => h.woken.asleep d u n (mem_set_seen hmem rfl hu) hu,
        fun hs => (nomatch hs), fun hs => (nomatch hs)⟩

/-- A party more is about to look. -/
theorem LaneState.Inv.joins (h : v.Inv ps) (hsorted : ps.keys.Pairwise (· < ·)) (hlt : ∀ e ∈ ps, e.1 < c)
    (hu : w.activeUsers = v.activeUsers + if u.user then 1 else 0)
    (hp : (w.passiveSends : Int) = v.passiveSends + if u.passive then 1 else 0)
    (hs : w.sending = v.sending) (hidle : u.sending = false) (hn : w.notified = v.notified)
    (hturns : w.passiveTurns = v.passiveTurns) (hserving : w.servingTicket = v.servingTicket)
    (hts : Tickets w (ticketsOf (ps ++ [(c, u)]))) (ho : (ticketsOf (ps ++ [(c, u)])).Pairwise (· < ·))
    (hseen : ∀ n, u.seen? = some n → n ≤ v.notified) : Looking c u w (ps ++ [(c, u)]) := by
  have hnot := Dict.not_mem_keys_of_lt hlt
  have hold {d : Nat} {u' : Party} (hmem : (d, u') ∈ ps ++ [(c, u)]) (hd : some d ≠ some c) : (d, u') ∈ ps := by
    rcases List.mem_append.mp hmem with hmem | hmem
    · exact hmem
    · cases List.mem_singleton.mp hmem
      exact absurd rfl hd
  refine ⟨Dict.nodup_keys_concat (hsorted.imp Nat.ne_of_lt) hnot u,
    Dict.get?_concat (hsorted.imp Nat.ne_of_lt) hnot u,
    h.counted.concat hu hp (by simp [hs, hidle]) ho hserving ?_, hts, fun d u' n hmem hu' => ?_,
    fun hw d n hd hmem => ?_, fun hw hturns' hsends d n hd hmem => ?_⟩
  · rintro t rfl
    cases hidle
  · rw [hn]
    rcases List.mem_append.mp hmem with hmem | hmem
    · exact h.woken.asleep d u' n hmem hu'
    · cases List.mem_singleton.mp hmem
      exact hseen n hu'
  · exact hn ▸ h.woken.passive (hs ▸ hw) d n nofun (hold hmem hd)
  · rw [hserving] at hmem
    have hzero : v.passiveSends = 0 := by
      have hle : v.passiveSends ≤ w.passiveSends := by
        have hcast := hp
        split at hcast
        · omega
        · omega
      omega
    exact hn ▸ h.woken.next (hs ▸ hw) (hturns ▸ hturns') hzero d n nofun (hold hmem hd)

theorem LaneState.Inv.runPassive (h : v.Inv ps) (hsorted : ps.keys.Pairwise (· < ·)) (hlt : ∀ e ∈ ps, e.1 < c) :
    LaneState.Inv v.runPassive.1 (ps ++ [(c, v.runPassive.2)]) := by
  have hts : ticketsOf (ps ++ [(c, .passiveWaits v.notified)]) = ticketsOf ps := by
    rw [tickets_concat]
    exact List.append_nil _
  have hlook := h.joins (w := { v.acquire with passiveSends := v.passiveSends + 1 }) (u := .passiveWaits v.notified)
    hsorted hlt (by simp [LaneState.acquire, Party.user]) (by simp [Party.passive]) rfl rfl rfl rfl rfl
    (hts ▸ h.tickets.same rfl rfl rfl) (hts ▸ h.counted.order) fun n hn => Option.some.inj hn ▸ Nat.le_refl _
  have hinv := hlook.passive
  rw [Dict.set_concat (Dict.not_mem_keys_of_lt hlt)] at hinv
  exact hinv

theorem LaneState.Inv.runNonPassive (h : v.Inv ps) (hsorted : ps.keys.Pairwise (· < ·)) (hlt : ∀ e ∈ ps, e.1 < c) :
    LaneState.Inv v.runNonPassive.1 (ps ++ [(c, v.runNonPassive.2)]) := by
  have hts : ticketsOf (ps ++ [(c, .waits v.nextTicket v.notified)]) = ticketsOf ps ++ [v.nextTicket] :=
    tickets_concat
  have horder : (ticketsOf ps ++ [v.nextTicket]).Pairwise (· < ·) := by
    refine List.pairwise_append.mpr ⟨h.counted.order, List.pairwise_singleton _ _, fun a ha b hb => ?_⟩
    rw [List.mem_singleton.mp hb]
    exact (h.tickets.mem.mp (Or.inl ha)).2
  have hdraw : Tickets { v.acquire with nextTicket := v.nextTicket + 1 } (ticketsOf ps ++ [v.nextTicket]) :=
    h.tickets.draw rfl rfl rfl
  have hlook := h.joins (w := { v.acquire with nextTicket := v.nextTicket + 1 })
    (u := .waits v.nextTicket v.notified) hsorted hlt (by simp [LaneState.acquire, Party.user])
    (by simp [LaneState.acquire, Party.passive]) rfl rfl rfl rfl rfl (hts ▸ hdraw) (hts ▸ horder)
    fun n hn => Option.some.inj hn ▸ Nat.le_refl _
  have hinv := hlook.nonPassive
  rw [Dict.set_concat (Dict.not_mem_keys_of_lt hlt)] at hinv
  exact hinv

theorem LaneState.Inv.runRegistered (h : v.Inv ps) (hnd : ps.keys.Nodup) (hc : ps.get? c = some u)
    (hf : v.runRegistered u = some (w, u')) : v.kept = true ∧ w.Inv (ps.set c u') := by
  cases u with
  | registered =>
      refine ⟨h.counted.kept hc (Or.inr rfl), ?_⟩
      have hpos := h.passive_pos hc rfl
      rw [LaneState.runRegistered, if_neg (Nat.ne_of_gt hpos)] at hf
      have hnd' : (ps.set c (.passiveWaits v.notified)).keys.Nodup := Dict.nodup_keys_set hnd _ _
      have hts := tickets_set hnd hc (.passiveWaits v.notified) rfl
      have hold {d : Nat} {x : Party} (hmem : (d, x) ∈ ps.set c (.passiveWaits v.notified)) (hd : some d ≠ some c) :
          (d, x) ∈ ps := by
        rcases Dict.mem_set.mp hmem with heq | ⟨_, hmem⟩
        · cases heq
          exact absurd rfl hd
        · exact hmem
      have hlook : Looking c (.passiveWaits v.notified) v.acquire (ps.set c (.passiveWaits v.notified)) := by
        refine ⟨hnd', by rw [Dict.get?_set hnd, if_pos rfl], h.counted.set hnd hc ?_ ?_ ?_
          (hts ▸ h.counted.order) fun d t hmem => ?_, hts ▸ h.tickets.same rfl rfl rfl, fun d x n hmem hx => ?_,
          fun hs d n hd hmem => h.woken.passive hs d n nofun (hold hmem hd),
          fun hs ht hp d n hd hmem => h.woken.next hs ht hp d n nofun (hold hmem hd)⟩
        · simp [LaneState.acquire, Party.user]
        · simp [LaneState.acquire, Party.passive]
        · simp [LaneState.acquire, Party.sending]
        · rcases Dict.mem_set.mp hmem with heq | ⟨_, hmem⟩
          · cases heq
          · exact h.counted.sender d t hmem
        · rcases Dict.mem_set.mp hmem with heq | ⟨_, hmem⟩
          · cases heq
            cases hx
            exact Nat.le_refl _
          · exact h.woken.asleep d x n hmem hx
      have hinv := hlook.passive
      rw [Option.some.inj hf, Dict.set_set hnd hc] at hinv
      exact hinv
  | _ => cases hf

theorem LaneState.Inv.resume (h : v.Inv ps) (hnd : ps.keys.Nodup) (hc : ps.get? c = some u)
    (hf : v.resume u = some (w, u')) : v.kept = true ∧ w.Inv (ps.set c u') := by
  cases u with
  | passiveWaits n =>
      refine ⟨h.counted.kept hc (Or.inl rfl), ?_⟩
      have hinv := (h.looking hnd hc).passive
      rw [LaneState.resume] at hf
      split at hf
      · rw [Option.some.inj hf] at hinv
        exact hinv
      · cases hf
  | waits t n =>
      refine ⟨h.counted.kept hc (Or.inl rfl), ?_⟩
      have hinv := (h.looking hnd hc).nonPassive
      rw [LaneState.resume] at hf
      split at hf
      · rw [Option.some.inj hf] at hinv
        exact hinv
      · cases hf
  | registered => cases hf
  | passiveSends => cases hf
  | sends t => cases hf
  | left => cases hf

theorem LaneState.Inv.cancel (h : v.Inv ps) (hnd : ps.keys.Nodup) (hc : ps.get? c = some u)
    (hf : v.cancel u = some (w, u')) : v.kept = true ∧ w.Inv (ps.set c u') := by
  cases u with
  | passiveWaits n =>
      have hinv := h.endPassive hnd hc rfl rfl rfl
      rw [show v.endPassive (Party.passiveWaits n).sending = (w, u') from Option.some.inj hf] at hinv
      exact ⟨h.counted.kept hc (Or.inl rfl), hinv⟩
  | waits t n =>
      have hinv := h.giveUp hnd hc
      rw [Option.some.inj hf] at hinv
      exact ⟨h.counted.kept hc (Or.inl rfl), hinv⟩
  | registered => cases hf
  | passiveSends => cases hf
  | sends t => cases hf
  | left => cases hf

theorem LaneState.Inv.sent (h : v.Inv ps) (hnd : ps.keys.Nodup) (hc : ps.get? c = some u)
    (hf : v.sent u = some (w, u')) : v.kept = true ∧ w.Inv (ps.set c u') := by
  cases u with
  | passiveSends =>
      have hinv := h.endPassive hnd hc rfl rfl rfl
      rw [show v.endPassive Party.passiveSends.sending = (w, u') from Option.some.inj hf] at hinv
      exact ⟨h.counted.kept hc (Or.inl rfl), hinv⟩
  | sends t =>
      have hinv := h.endNonPassive hnd hc
      rw [Option.some.inj hf] at hinv
      exact ⟨h.counted.kept hc (Or.inl rfl), hinv⟩
  | registered => cases hf
  | passiveWaits n => cases hf
  | waits t n => cases hf
  | left => cases hf

end MonoAgent.Bus
