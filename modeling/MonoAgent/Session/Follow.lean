import MonoAgent.Lib.Sorted
import MonoAgent.Session.Pages

/-!
# Followers of the log

`MessageReader.follow` registers an event, and then clears it, reads what it has not yet
yielded, and waits for the event when there was nothing.  Whoever writes holds the lock
from its commit until it has asked the loop of every registered event to set it; the loop
does so later.

A step of the machine is one of these pieces, so that other threads can run between any
two of them, and between the messages of a page.  A follower never misses a commit: one
that waits has everything, or is about to be woken (`Caught`).
-/

namespace MonoAgent.Session

open MonoAgent.Lib

/-! ## The machine -/

/-- Where a follower is in its coroutine. -/
inductive Phase where
  /-- Not started: no event is registered. -/
  | created
  /-- About to clear its event. -/
  | top
  /-- The event is cleared, the read comes next. -/
  | cleared
  /-- Paused with the rest of a page still to yield. -/
  | page (rest : List Message)
  /-- The read found nothing, the wait comes next. -/
  | empty
  /-- Suspended in `event.wait()`. -/
  | waiting
  | ended
deriving DecidableEq

structure Follower where
  sessionId : String
  /-- The argument. -/
  afterSeq : Int
  /-- `after_seq`, which the loop moves on. -/
  position : Int
  received : List Message := []
  phase : Phase := .created
  /-- `event.is_set()`. -/
  event : Bool := false
  /-- The calls of `event.set` that the loop has yet to make. -/
  pending : Nat := 0
deriving DecidableEq

/-- The event is in `_listeners`. -/
def Follower.listens (f : Follower) : Bool :=
  match f.phase with
  | .created => false
  | .ended => false
  | _ => true

/-- `call_soon_threadsafe(event.set)` for a registered event. -/
def Follower.notified (f : Follower) : Follower :=
  if f.listens then { f with pending := f.pending + 1 } else f

structure Followed where
  db : Database
  followers : List Follower := []
  /-- `_closed`. -/
  closed : Bool := false
  /-- A writer, or `close`, holds the lock and has yet to notify. -/
  notifying : Bool := false

/-- `MessageReader.read(after_seq=...)`, a page of at most a thousand messages. -/
def readPageAfter (db : Database) (sessionId : String) (afterSeq : Int) : Except Error (List Message) :=
  if afterSeq < -1 then .error ⟨.valueError, "读取需要正 limit 和不小于 -1 的 after_seq"⟩
  else if ¬ Bindable afterSeq then .error overflow
  else .ok (((db.snapshot sessionId).filter (afterSeq < ·.position)).take 1000)

/-- The next piece of the coroutine, `none` when it cannot go on: the lock is held, or the
event is not set. -/
def Follower.advance (s : Followed) (f : Follower) : Option Follower :=
  match f.phase with
  | .created =>
      if s.notifying then none
      else if s.closed then some { f with phase := .ended }
      else some { f with phase := .top }
  | .top => some { f with event := false, phase := .cleared }
  | .cleared =>
      if s.notifying then none
      else if s.closed then some { f with phase := .ended }
      else match readPageAfter s.db f.sessionId f.position with
        | .error _ => some { f with phase := .ended }
        | .ok [] => some { f with phase := .empty }
        | .ok (m :: rest) => some { f with phase := .page (m :: rest) }
  | .page (m :: rest) =>
      some { f with position := m.position, received := f.received ++ [m], phase := .page rest }
  | .page [] => some { f with phase := .top }
  | .empty => some { f with phase := if f.event then .top else .waiting }
  | .waiting => if f.event then some { f with phase := .top } else none
  | .ended => none

/-- The generator is closed, or its task cancelled, where it is suspended. -/
def Follower.stop (s : Followed) (f : Follower) : Option Follower :=
  match f.phase with
  | .created => some { f with phase := .ended }
  | .page _ => if s.notifying then none else some { f with phase := .ended }
  | .waiting => if s.notifying then none else some { f with phase := .ended }
  | _ => none

/-- The loop makes one of the calls it was asked for. -/
def Follower.deliver (f : Follower) : Option Follower :=
  if 0 < f.pending then some { f with event := true, pending := f.pending - 1 } else none

inductive FollowAction where
  /-- A consumer calls `follow`. -/
  | follow (sessionId : String) (afterSeq : Int)
  | advance (i : Nat)
  | stop (i : Nat)
  | deliver (i : Nat)
  /-- A write that commits.  One that changes no message may notify or not. -/
  | write (a : LogAction) (told : Bool)
  /-- The writer has asked every loop, and releases the lock. -/
  | notify
  | close

/-- Replace the follower at an index. -/
def Followed.change (s : Followed) (i : Nat) (f : Follower → Option Follower) : Option Followed := do
  let found ← s.followers[i]?
  let changed ← f found
  return { s with followers := s.followers.set i changed }

def Followed.next (s : Followed) : FollowAction → Option Followed
  | .follow sessionId afterSeq =>
      some { s with followers := s.followers ++ [⟨sessionId, afterSeq, afterSeq, [], .created, false, 0⟩] }
  | .advance i => s.change i (Follower.advance s)
  | .stop i => s.change i (Follower.stop s)
  | .deliver i => s.change i Follower.deliver
  | .write a told =>
      if s.notifying ∨ s.closed then none
      else (logMachine.next s.db a).map fun db =>
        { s with db, notifying := decide (db.messages ≠ s.db.messages) || told }
  | .notify =>
      if s.notifying then
        some { s with followers := s.followers.map Follower.notified, notifying := false }
      else none
  | .close => if s.notifying ∨ s.closed then none else some { s with closed := true, notifying := true }

/-- A log of any run, and no follower yet. -/
def followMachine : Machine Followed FollowAction where
  start s := logMachine.Reachable s.db ∧ s.followers = [] ∧ s.closed = false ∧ s.notifying = false
  next := Followed.next

/-! ## What a follower has received -/

/-- The messages of a Session behind a position. -/
def Database.behind (db : Database) (sessionId : String) (position : Int) : List Message :=
  (db.snapshot sessionId).filter (position < ·.position)

section Received

variable {db : Database} {sessionId : String} {afterSeq position : Int} {m : Message}
  {rest : List Message}

theorem window_none (afterSeq : Int) (log : List Message) :
    window Message.position afterSeq (afterSeq + 1) log = [] := by
  refine List.filter_eq_nil_iff.mpr fun m _ => ?_
  simp only [decide_eq_true_eq]
  omega

/-- What is behind a position, as a window up to the end of the log. -/
theorem behind_eq (hlog : WellFormed (db.snapshot sessionId)) (position : Int) :
    db.behind sessionId position = window Message.position position
      (db.snapshot sessionId).length (db.snapshot sessionId) := by
  refine List.filter_congr fun m hm => ?_
  have hlt : m.position < (db.snapshot sessionId).length := Int.ofNat_lt.mpr (hlog.seq_lt hm)
  exact decide_eq_decide.mpr ⟨fun h => ⟨h, hlt⟩, fun h => h.1⟩

/-- The first message behind a position extends what was received up to there. -/
theorem window_yield (hlog : WellFormed (db.snapshot sessionId)) (hle : afterSeq ≤ position)
    (hpage : m :: rest <+: db.behind sessionId position) :
    window Message.position afterSeq (m.position + 1) (db.snapshot sessionId) =
        window Message.position afterSeq (position + 1) (db.snapshot sessionId) ++ [m] ∧
      rest <+: db.behind sessionId m.position ∧ m ∈ db.snapshot sessionId ∧ position < m.position := by
  obtain ⟨tail, htail⟩ := hpage
  have hm : m ∈ db.behind sessionId position := by rw [← htail]; simp
  obtain ⟨hmem, hlt⟩ := List.mem_filter.mp hm
  have hlt : position < m.position := of_decide_eq_true hlt
  have hlength : m.position < (db.snapshot sessionId).length := Int.ofNat_lt.mpr (hlog.seq_lt hmem)
  have hwindow : window Message.position position (db.snapshot sessionId).length
      (db.snapshot sessionId) = m :: (rest ++ tail) := by
    rw [behind_eq hlog] at htail
    exact htail.symm
  obtain ⟨-, hrest⟩ := @window_cut _ _ _ _ _ _ _ hlog.positions [] _ _ hwindow
  have hone : window Message.position position (m.position + 1) (db.snapshot sessionId) = [m] := by
    rw [← @window_window _ _ _ _ position (db.snapshot sessionId).length _ _ _ (le_refl _)
      (by omega), hwindow, window, List.filter_cons, if_pos (by simp; omega)]
    congr 1
    refine List.filter_eq_nil_iff.mpr fun x hx => ?_
    have hbehind : m.position < x.position := by
      rw [← hrest] at hx
      exact (mem_window.mp hx).2.1
    simp only [decide_eq_true_eq]
    omega
  refine ⟨?_, ?_, hmem, hlt⟩
  · have hsplit := filter_append_filter_of_sorted hlog.positions
      (fun x => decide (afterSeq < x.position ∧ x.position < m.position + 1)) position
    rw [← hone]
    refine Eq.trans hsplit.symm (congr (congrArg _ ?_) ?_)
    · refine List.filter_congr fun x _ => ?_
      rw [← Bool.decide_and]
      exact decide_eq_decide.mpr (by omega)
    · refine List.filter_congr fun x _ => ?_
      rw [← Bool.decide_and]
      exact decide_eq_decide.mpr (by omega)
  · rw [behind_eq hlog, hrest]
    exact List.prefix_append _ _

end Received

/-! ## The invariant -/

/-- The follower has found nothing, and waits or is about to. -/
def Follower.idle (f : Follower) : Prop := f.phase = .empty ∨ f.phase = .waiting

structure Follower.Inv (s : Followed) (f : Follower) : Prop where
  /-- It has received the messages from its argument up to its position. -/
  received : f.received = window Message.position f.afterSeq (f.position + 1)
    (s.db.snapshot f.sessionId)
  /-- Its position is its argument, or that of a message. -/
  position : f.position = f.afterSeq ∨
    (f.afterSeq ≤ f.position ∧ f.position + 1 ≤ (s.db.snapshot f.sessionId).length)
  /-- What is left of a page comes next. -/
  page : ∀ rest, f.phase = .page rest → rest <+: s.db.behind f.sessionId f.position
  /-- When it is idle and nothing is to wake it, it has everything. -/
  caught : f.idle → f.event = false → f.pending = 0 → s.notifying = false →
    s.db.behind f.sessionId f.position = []
  /-- After `close` what is idle is woken. -/
  woken : f.idle → s.closed = true → s.notifying = false → f.event = true ∨ 0 < f.pending

structure Followed.Inv (s : Followed) : Prop where
  store : logMachine.Reachable s.db
  followers : ∀ f ∈ s.followers, f.Inv s

section Invariant

variable {s t : Followed} {f g : Follower}

theorem Followed.Inv.log (h : s.Inv) (sessionId : String) : WellFormed (s.db.snapshot sessionId) :=
  (logInvariant_of_reachable h.store).wellFormed sessionId

/-- A follower that is not idle, where its position and its page are in order. -/
theorem Follower.Inv.of_busy (h : f.Inv s) (hsession : g.sessionId = f.sessionId)
    (hafter : g.afterSeq = f.afterSeq) (hposition : g.position = f.position)
    (hreceived : g.received = f.received) (hidle : ¬ g.idle)
    (hpage : ∀ rest, g.phase = .page rest → rest <+: s.db.behind f.sessionId f.position) :
    g.Inv s where
  received := by rw [hreceived, hafter, hposition, hsession, h.received]
  position := by rw [hafter, hposition, hsession]; exact h.position
  page := by rw [hsession, hposition]; exact hpage
  caught := fun hi => absurd hi hidle
  woken := fun hi => absurd hi hidle

theorem readPageAfter_ok {db : Database} {sessionId : String} {afterSeq : Int}
    {messages : List Message} (h : readPageAfter db sessionId afterSeq = .ok messages) :
    messages = (db.behind sessionId afterSeq).take 1000 := by
  rw [readPageAfter] at h
  split at h
  · cases h
  · split at h
    · cases h
    · cases h
      rfl

/-- What the coroutine does next keeps the invariant, by cases on where it is. -/
theorem advance_inv (hs : s.Inv) (h : f.Inv s) (hn : f.advance s = some g) : g.Inv s := by
  have hlog := hs.log f.sessionId
  have hbusy (p : Phase) (e : Bool) (hp : p ≠ .empty ∧ p ≠ .waiting) (hpage : ∀ rest, p ≠ .page rest) :
      Follower.Inv s { f with phase := p, event := e } :=
    h.of_busy rfl rfl rfl rfl (fun hi => hi.elim hp.1 hp.2) fun rest hr => absurd hr (hpage rest)
  cases hphase : f.phase with
  | created =>
      simp only [Follower.advance, hphase] at hn
      split at hn
      · cases hn
      · split at hn
        · cases hn
          exact hbusy .ended f.event (by simp) (by simp)
        · cases hn
          exact hbusy .top f.event (by simp) (by simp)
  | top =>
      simp only [Follower.advance, hphase, Option.some.injEq] at hn
      subst hn
      exact hbusy .cleared false (by simp) (by simp)
  | cleared =>
      simp only [Follower.advance, hphase] at hn
      split at hn
      · cases hn
      · split at hn
        · cases hn
          exact hbusy .ended f.event (by simp) (by simp)
        · next hclosed =>
            split at hn
            · cases hn
              exact hbusy .ended f.event (by simp) (by simp)
            · next hread =>
                cases hn
                have hnone : s.db.behind f.sessionId f.position = [] := by
                  have htake := readPageAfter_ok hread
                  simpa using htake.symm
                exact ⟨h.received, h.position, fun rest hr => (by cases hr),
                  fun _ _ _ _ => hnone, fun _ hc => absurd hc hclosed⟩
            · next m rest hread =>
                cases hn
                refine h.of_busy rfl rfl rfl rfl (fun hi => by simp [Follower.idle] at hi) ?_
                intro rest' hr
                cases hr
                rw [readPageAfter_ok hread]
                exact List.take_prefix _ _
  | page rest =>
      cases rest with
      | nil =>
          simp only [Follower.advance, hphase, Option.some.injEq] at hn
          subst hn
          exact hbusy .top f.event (by simp) (by simp)
      | cons m rest =>
          simp only [Follower.advance, hphase, Option.some.injEq] at hn
          subst hn
          have hle : f.afterSeq ≤ f.position := h.position.elim (fun heq => heq.ge) (·.1)
          obtain ⟨hwindow, hrest, hmem, hlt⟩ := window_yield hlog hle (h.page _ hphase)
          have hlength : m.seq < (s.db.snapshot f.sessionId).length := hlog.seq_lt hmem
          have hposition : m.position = m.seq := rfl
          refine ⟨?_, Or.inr ⟨?_, ?_⟩, ?_, fun hi => ?_, fun hi => ?_⟩
          · show f.received ++ [m] = _
            rw [h.received]
            exact hwindow.symm
          · show f.afterSeq ≤ m.position
            omega
          · show m.position + 1 ≤ ((s.db.snapshot f.sessionId).length : Int)
            omega
          · intro rest' hr
            cases hr
            exact hrest
          · simp [Follower.idle] at hi
          · simp [Follower.idle] at hi
  | empty =>
      simp only [Follower.advance, hphase, Option.some.injEq] at hn
      subst hn
      by_cases hevent : f.event = true
      · rw [if_pos hevent]
        exact hbusy .top f.event (by simp) (by simp)
      · rw [if_neg hevent]
        exact ⟨h.received, h.position, fun rest hr => (by cases hr),
          fun _ => h.caught (Or.inl hphase), fun _ => h.woken (Or.inl hphase)⟩
  | waiting =>
      simp only [Follower.advance, hphase] at hn
      split at hn
      · cases hn
        exact hbusy .top f.event (by simp) (by simp)
      · cases hn
  | ended => simp [Follower.advance, hphase] at hn

theorem stop_inv (h : f.Inv s) (hn : f.stop s = some g) : g.Inv s := by
  have hended : Follower.Inv s { f with phase := .ended } :=
    h.of_busy rfl rfl rfl rfl (fun hi => by simp [Follower.idle] at hi) fun rest hr => by cases hr
  unfold Follower.stop at hn
  split at hn
  · cases hn
    exact hended
  · split at hn
    · cases hn
    · cases hn
      exact hended
  · split at hn
    · cases hn
    · cases hn
      exact hended
  · cases hn

/-- A follower whose event is set is woken. -/
theorem deliver_inv (h : f.Inv s) (hn : f.deliver = some g) : g.Inv s := by
  unfold Follower.deliver at hn
  split at hn
  · cases hn
    exact ⟨h.received, h.position, h.page, fun _ hevent => (by cases hevent), fun _ _ _ => Or.inl rfl⟩
  · cases hn

/-- So is one whose event is to be set. -/
theorem notified_inv (h : f.Inv s) (hs : t.db = s.db) : f.notified.Inv t := by
  by_cases hlistens : f.listens = true
  · rw [Follower.notified, if_pos hlistens]
    refine ⟨?_, ?_, ?_, fun _ _ hpending => ?_, fun _ _ _ => Or.inr (Nat.succ_pos _)⟩
    · rw [hs]; exact h.received
    · rw [hs]; exact h.position
    · rw [hs]; exact h.page
    · exact absurd hpending (Nat.succ_ne_zero _)
  · rw [Follower.notified, if_neg hlistens]
    have hidle : ¬ f.idle := by
      rintro (hphase | hphase)
      · exact hlistens (by simp [Follower.listens, hphase])
      · exact hlistens (by simp [Follower.listens, hphase])
    refine ⟨?_, ?_, ?_, fun hi => absurd hi hidle, fun hi => absurd hi hidle⟩
    · rw [hs]; exact h.received
    · rw [hs]; exact h.position
    · rw [hs]; exact h.page

/-- A log that grows leaves what was received, and keeps the writer on the lock unless no
message was written. -/
theorem grown_inv (h : f.Inv s) (hlog : WellFormed (t.db.snapshot f.sessionId))
    (hgrow : s.db.snapshot f.sessionId <+: t.db.snapshot f.sessionId)
    (hsame : t.notifying = false → t.db.messages = s.db.messages ∧ s.notifying = false)
    (hclosed : t.closed = s.closed) : f.Inv t where
  received := by
    rcases h.position with heq | ⟨_, hle⟩
    · rw [h.received, heq, window_none, window_none]
    · rw [h.received, window_grown hlog hgrow hle]
  position := h.position.imp id fun ⟨hle, hlength⟩ =>
    ⟨hle, hlength.trans (Int.ofNat_le.mpr hgrow.length_le)⟩
  page := fun rest hr => (h.page rest hr).trans (hgrow.filter _)
  caught := fun hi hevent hpending hnotifying => by
    obtain ⟨hmessages, hs⟩ := hsame hnotifying
    have hnone := h.caught hi hevent hpending hs
    rw [Database.behind, Database.snapshot, hmessages]
    exact hnone
  woken := fun hi hc hnotifying => h.woken hi (hclosed ▸ hc) (hsame hnotifying).2

theorem inv_congr (h : f.Inv s) (hdb : t.db = s.db) (hclosed : t.closed = s.closed)
    (hnotifying : t.notifying = s.notifying) : f.Inv t := by
  obtain ⟨db, followers, closed, notifying⟩ := t
  cases hdb
  cases hclosed
  cases hnotifying
  exact ⟨h.received, h.position, h.page, h.caught, h.woken⟩

/-- A step of one follower. -/
theorem change_inv {i : Nat} {step : Follower → Option Follower} (h : s.Inv)
    (hstep : ∀ f g, f.Inv s → step f = some g → g.Inv s) (hn : s.change i step = some t) :
    t.Inv := by
  obtain ⟨f, hf, hn⟩ := Option.bind_eq_some_iff.mp hn
  obtain ⟨g, hg, hn⟩ := Option.bind_eq_some_iff.mp hn
  cases hn
  refine ⟨h.store, fun x hx => ?_⟩
  rcases List.mem_or_eq_of_mem_set hx with hx | rfl
  · exact inv_congr (h.followers x hx) rfl rfl rfl
  · exact inv_congr (hstep f x (h.followers f (List.mem_of_getElem? hf)) hg) rfl rfl rfl

theorem followed_next {a : FollowAction} (h : s.Inv) (hn : followMachine.next s a = some t) :
    t.Inv := by
  have hn : s.next a = some t := hn
  cases a with
  | follow sessionId afterSeq =>
      cases hn
      refine ⟨h.store, fun x hx => ?_⟩
      rcases List.mem_append.mp hx with hx | hx
      · exact inv_congr (h.followers x hx) rfl rfl rfl
      · rw [List.mem_singleton.mp hx]
        exact ⟨(window_none _ _).symm, Or.inl rfl, fun rest hr => (by cases hr),
          fun hi => by simp [Follower.idle] at hi, fun hi => by simp [Follower.idle] at hi⟩
  | advance i => exact change_inv h (fun _ _ hf hg => advance_inv h hf hg) hn
  | stop i => exact change_inv h (fun _ _ hf hg => stop_inv hf hg) hn
  | deliver i => exact change_inv h (fun _ _ hf hg => deliver_inv hf hg) hn
  | write a told =>
      simp only [Followed.next] at hn
      split at hn
      · cases hn
      · next hfree =>
          obtain ⟨db, hdb, rfl⟩ := Option.map_eq_some_iff.mp hn
          have hstore : logMachine.Reachable db := h.store.step trivial hdb
          refine ⟨hstore, fun x hx => grown_inv (h.followers x hx)
            ((logInvariant_of_reachable hstore).wellFormed _) (snapshot_grows hdb _)
            (fun hnotifying => ?_) rfl⟩
          obtain ⟨hsame, -⟩ := Bool.or_eq_false_iff.mp hnotifying
          refine ⟨by simpa using hsame, ?_⟩
          cases hs : s.notifying with
          | false => rfl
          | true => exact absurd (Or.inl hs) hfree
  | notify =>
      simp only [Followed.next] at hn
      split at hn
      · cases hn
        refine ⟨h.store, fun x hx => ?_⟩
        obtain ⟨f, hf, rfl⟩ := List.mem_map.mp hx
        exact notified_inv (h.followers f hf) rfl
      · cases hn
  | close =>
      simp only [Followed.next] at hn
      split at hn
      · cases hn
      · cases hn
        refine ⟨h.store, fun x hx => ?_⟩
        have hx := h.followers x hx
        exact ⟨hx.received, hx.position, hx.page, fun _ _ _ hno => (by cases hno),
          fun _ _ hno => by cases hno⟩

theorem followed_inv (h : followMachine.Reachable s) : s.Inv := by
  refine h.invariant ?_ fun _ _ _ hs _ hn => followed_next hs hn
  rintro s ⟨hstore, hnone, _, _⟩
  exact ⟨hstore, by simp [hnone]⟩

end Invariant

/-! ## The end of a follower -/

/-- How far a follower is from its end once the log is closed. -/
def Follower.rank (f : Follower) : Nat :=
  match f.phase with
  | .ended => 0
  | .created => 2
  | .cleared => 2
  | .top => 4
  | .waiting => if f.event then 6 else 7
  | .page rest => 6 + 2 * rest.length
  | .empty => 8

section Ending

variable {s t : Followed} {f g : Follower} {i : Nat}

/-- The log is closed, and every follower was notified. -/
def Followed.over (s : Followed) : Prop := s.closed = true ∧ s.notifying = false

theorem advance_rank (hs : s.over) (hn : f.advance s = some g) : g.rank < f.rank := by
  obtain ⟨hclosed, hnotifying⟩ := hs
  cases hphase : f.phase with
  | created =>
      simp only [Follower.advance, hphase, hclosed, hnotifying, Bool.false_eq_true, if_false,
        if_true, Option.some.injEq] at hn
      subst hn
      simp [Follower.rank, hphase]
  | top =>
      simp only [Follower.advance, hphase, Option.some.injEq] at hn
      subst hn
      simp [Follower.rank, hphase]
  | cleared =>
      simp only [Follower.advance, hphase, hclosed, hnotifying, Bool.false_eq_true, if_false,
        if_true, Option.some.injEq] at hn
      subst hn
      simp [Follower.rank, hphase]
  | page rest =>
      cases rest with
      | nil =>
          simp only [Follower.advance, hphase, Option.some.injEq] at hn
          subst hn
          simp [Follower.rank, hphase]
      | cons m rest =>
          simp only [Follower.advance, hphase, Option.some.injEq] at hn
          subst hn
          simp [Follower.rank, hphase]
  | empty =>
      simp only [Follower.advance, hphase, Option.some.injEq] at hn
      subst hn
      cases f.event <;> simp [Follower.rank, hphase]
  | waiting =>
      simp only [Follower.advance, hphase] at hn
      split at hn
      · next hevent =>
          cases hn
          simp [Follower.rank, hphase, hevent]
      · cases hn
  | ended => simp [Follower.advance, hphase] at hn

theorem stop_rank (hn : f.stop s = some g) : g.rank ≤ f.rank := by
  have hended : g.phase = .ended := by
    unfold Follower.stop at hn
    split at hn
    · cases hn; rfl
    · split at hn <;> cases hn; rfl
    · split at hn <;> cases hn; rfl
    · cases hn
  simp [Follower.rank, hended]

theorem deliver_rank (hn : f.deliver = some g) : g.rank ≤ f.rank := by
  unfold Follower.deliver at hn
  split at hn
  · cases hn
    cases hphase : f.phase <;> simp [Follower.rank, hphase]
    split <;> omega
  · cases hn

/-- Nothing takes a follower further from its end. -/
theorem rank_next {a : FollowAction} (hs : s.over) (hn : followMachine.next s a = some t)
    (hf : s.followers[i]? = some f) :
    t.over ∧ ∃ g, t.followers[i]? = some g ∧ g.rank ≤ f.rank := by
  have hn : s.next a = some t := hn
  have hchange {j : Nat} {step : Follower → Option Follower} (hn : s.change j step = some t)
      (hstep : ∀ f g, step f = some g → g.rank ≤ f.rank) :
      t.over ∧ ∃ g, t.followers[i]? = some g ∧ g.rank ≤ f.rank := by
    obtain ⟨x, hx, hn⟩ := Option.bind_eq_some_iff.mp hn
    obtain ⟨y, hy, hn⟩ := Option.bind_eq_some_iff.mp hn
    cases hn
    refine ⟨hs, ?_⟩
    by_cases hij : j = i
    · subst hij
      cases hf.symm.trans hx
      have hlt : j < s.followers.length := (List.getElem?_eq_some_iff.mp hf).1
      exact ⟨y, by simp [hlt], hstep f y hy⟩
    · exact ⟨f, by rw [← hf]; exact List.getElem?_set_ne hij, le_refl _⟩
  cases a with
  | follow sessionId afterSeq =>
      cases hn
      have hlt : i < s.followers.length := (List.getElem?_eq_some_iff.mp hf).1
      exact ⟨hs, f, by rw [← hf]; exact List.getElem?_append_left hlt, le_refl _⟩
  | advance j => exact hchange hn fun _ _ h => (advance_rank hs h).le
  | stop j => exact hchange hn fun _ _ h => stop_rank h
  | deliver j => exact hchange hn fun _ _ h => deliver_rank h
  | write a told => simp [Followed.next, hs.1] at hn
  | notify => simp [Followed.next, hs.2] at hn
  | close => simp [Followed.next, hs.1] at hn

/-- Only a follower that waits for its event cannot go on by itself. -/
theorem advance_stuck (hs : s.over) (hn : f.advance s = none) :
    f.phase = .ended ∨ (f.phase = .waiting ∧ f.event = false) := by
  obtain ⟨hclosed, hnotifying⟩ := hs
  cases hphase : f.phase with
  | waiting =>
      refine Or.inr ⟨rfl, ?_⟩
      simpa [Follower.advance, hphase] using hn
  | ended => exact Or.inl rfl
  | page rest => cases rest <;> simp [Follower.advance, hphase] at hn
  | created => simp [Follower.advance, hphase, hclosed, hnotifying] at hn
  | top => simp [Follower.advance, hphase] at hn
  | cleared => simp [Follower.advance, hphase, hclosed, hnotifying] at hn
  | empty => simp [Follower.advance, hphase] at hn

/-- The coroutine of a follower goes on, or its loop sets the event. -/
def FollowAction.Own (i : Nat) (a : FollowAction) : Prop := a = .advance i ∨ a = .deliver i

/-- A follower that waits was woken. -/
theorem woken_over (h : s.Inv) (hs : s.over) (hf : s.followers[i]? = some f) (hwaiting : f.phase = .waiting) :
    f.event = true ∨ 0 < f.pending :=
  (h.followers f (List.mem_of_getElem? hf)).woken (Or.inr hwaiting) hs.1 hs.2

/-- A follower that has not ended can go on towards its end by itself. -/
theorem rank_progress (h : s.Inv) (hs : s.over) (hf : s.followers[i]? = some f)
    (hphase : f.phase ≠ .ended) :
    ∃ a t g, a.Own i ∧ followMachine.next s a = some t ∧ t.followers[i]? = some g ∧ g.rank < f.rank := by
  have hlt : i < s.followers.length := (List.getElem?_eq_some_iff.mp hf).1
  have hstep (a : FollowAction) (step : Follower → Option Follower) {g : Follower} (hown : a.Own i)
      (ha : s.next a = s.change i step) (hg : step f = some g) (hrank : g.rank < f.rank) :
      ∃ a t g, a.Own i ∧ followMachine.next s a = some t ∧ t.followers[i]? = some g ∧ g.rank < f.rank := by
    refine ⟨a, { s with followers := s.followers.set i g }, g, hown, ?_, by simp [hlt], hrank⟩
    show s.next a = _
    rw [ha, Followed.change, hf]
    show (step f).bind _ = _
    rw [hg]
    rfl
  cases hadvance : f.advance s with
  | some g => exact hstep (.advance i) (Follower.advance s) (Or.inl rfl) rfl hadvance (advance_rank hs hadvance)
  | none =>
      obtain ⟨hwaiting, hevent⟩ := (advance_stuck hs hadvance).resolve_left hphase
      have hpending : 0 < f.pending := (woken_over h hs hf hwaiting).resolve_left (by simp [hevent])
      refine hstep (.deliver i) Follower.deliver (Or.inr rfl) rfl (if_pos hpending) ?_
      simp [Follower.rank, hwaiting, hevent]

theorem over_path (hs : s.over) (hpath : followMachine.Path Machine.always s t)
    (hf : s.followers[i]? = some f) : t.over ∧ ∃ g, t.followers[i]? = some g ∧ g.rank ≤ f.rank := by
  refine hpath.invariant (I := fun u => u.over ∧ ∃ g, u.followers[i]? = some g ∧ g.rank ≤ f.rank)
    ?_ ⟨hs, f, hf, le_refl _⟩
  rintro u a v ⟨hu, g, hg, hle⟩ _ hn
  obtain ⟨hv, g', hg', hle'⟩ := rank_next hu hn hg
  exact ⟨hv, g', hg', hle'.trans hle⟩

end Ending

/-- A follower has received the messages behind its argument up to some bound, each once and
in order.  When it waits and no notification is under way, it has received all of them.
After `close` it ends: every step leads no further from its end, and until then the next piece of its
coroutine leads nearer, or the call of its loop that sets the event that it waits for. -/
theorem follow_exact {s : Followed} (hs : followMachine.Reachable s) {i : Nat} {f : Follower}
    (hf : s.followers[i]? = some f) :
    (f.received.Pairwise fun m m' => m.seq < m'.seq) ∧
    (∃ bound, f.received =
      (s.db.snapshot f.sessionId).filter fun m => f.afterSeq < m.seq ∧ (m.seq : Int) ≤ bound) ∧
    (f.phase = .waiting → f.event = false → f.pending = 0 → s.notifying = false →
      f.received = (s.db.snapshot f.sessionId).filter fun m => f.afterSeq < m.seq) ∧
    (s.closed = true → s.notifying = false →
      ∀ t, followMachine.Path Machine.always s t → ∃ g, t.followers[i]? = some g ∧
        g.rank ≤ f.rank ∧ (g.phase = .waiting → g.event = true ∨ 0 < g.pending) ∧
        (g.phase = .ended ∨ ∃ a u h, a.Own i ∧ followMachine.next t a = some u ∧
          u.followers[i]? = some h ∧ h.rank < g.rank)) := by
  have hinv := followed_inv hs
  have h := hinv.followers f (List.mem_of_getElem? hf)
  refine ⟨?_, ⟨f.position, ?_⟩, fun hwaiting hevent hpending hnotifying => ?_,
    fun hclosed hnotifying t hpath => ?_⟩
  · rw [h.received]
    exact (hinv.log f.sessionId).pairwise_seq.sublist List.filter_sublist
  · rw [h.received]
    refine List.filter_congr fun m _ => decide_eq_decide.mpr ?_
    show f.afterSeq < m.position ∧ m.position < f.position + 1 ↔
      f.afterSeq < m.position ∧ m.position ≤ f.position
    rw [Int.lt_add_one_iff]
  · have hnone := h.caught (Or.inr hwaiting) hevent hpending hnotifying
    rw [h.received]
    refine List.filter_congr fun m hm => decide_eq_decide.mpr ?_
    have hnot : ¬ f.position < m.position := by
      intro hlt
      have hmem : m ∈ s.db.behind f.sessionId f.position :=
        List.mem_filter.mpr ⟨hm, decide_eq_true hlt⟩
      rw [hnone] at hmem
      cases hmem
    have hposition : m.position = m.seq := rfl
    omega
  · have hover : s.over := ⟨hclosed, hnotifying⟩
    obtain ⟨hover', g, hg, hle⟩ := over_path hover hpath hf
    have hinv' : t.Inv := hpath.invariant (fun _ _ _ hu _ hn => followed_next hu hn) hinv
    refine ⟨g, hg, hle, woken_over hinv' hover' hg, ?_⟩
    by_cases hended : g.phase = .ended
    · exact Or.inl hended
    · exact Or.inr (rank_progress hinv' hover' hg hended)

/-! ## A follower that is yet to be woken -/

/-- A follower finds nothing and waits; then a message is committed, and its loop is asked
to set the event. -/
def exampleFollowing : List FollowAction :=
  [.follow "s" (-1), .advance 0, .advance 0, .advance 0, .advance 0,
    .write (.append exampleInputs 0 exampleRequest) true, .notify]

def exampleFollowed (actions : List FollowAction) : Followed :=
  (followMachine.run ⟨{}, [], false, false⟩ actions).getD ⟨{}, [], false, false⟩

theorem exampleFollowed_reachable {actions : List FollowAction}
    (h : (followMachine.run ⟨{}, [], false, false⟩ actions).isSome = true) :
    followMachine.Reachable (exampleFollowed actions) :=
  Machine.reach_getD ⟨.start ⟨rfl, rfl, rfl⟩, rfl, rfl, rfl⟩ (fun _ _ _ => trivial) h

/-- It waits with its event unset and has not received the message. -/
theorem follow_waits_behind :
    followMachine.Reachable (exampleFollowed exampleFollowing) ∧
      ∃ f, (exampleFollowed exampleFollowing).followers[0]? = some f ∧ f.phase = .waiting ∧
        f.event = false ∧ f.sessionId = "s" ∧ f.afterSeq = -1 ∧ f.received = [] ∧
        (exampleFollowed exampleFollowing).db.snapshot "s" = [exampleMessage] := by
  refine ⟨exampleFollowed_reachable (by decide +kernel), ?_⟩
  refine ⟨⟨"s", -1, -1, [], .waiting, false, 1⟩, ?_, rfl, rfl, rfl, rfl, rfl, ?_⟩
  all_goals decide +kernel

/-- The event is set, the follower receives the message and waits again, and the log is
closed. -/
def exampleClosed : List FollowAction :=
  exampleFollowing ++ [.deliver 0, .advance 0, .advance 0, .advance 0, .advance 0, .advance 0,
    .advance 0, .advance 0, .advance 0, .close, .notify]

theorem follow_exact_example :
    ∃ f, (exampleFollowed exampleClosed).followers[0]? = some f ∧ f.received = [exampleMessage] ∧
      f.phase = .waiting ∧
      ∃ a t g, a.Own 0 ∧ followMachine.next (exampleFollowed exampleClosed) a = some t ∧
        t.followers[0]? = some g ∧ g.rank < f.rank := by
  have hf : (exampleFollowed exampleClosed).followers[0]? =
      some ⟨"s", -1, 0, [exampleMessage], .waiting, false, 1⟩ := by decide +kernel
  obtain ⟨_, _, _, hends⟩ := follow_exact (exampleFollowed_reachable (by decide +kernel)) hf
  obtain ⟨g, hg, _, _, hnext⟩ := hends (by decide +kernel) (by decide +kernel) _ .refl
  cases hf.symm.trans hg
  refine ⟨_, hf, rfl, rfl, ?_⟩
  exact hnext.resolve_left (by simp)

end MonoAgent.Session
