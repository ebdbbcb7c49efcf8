import MonoAgent.Conversation.Source
import MonoAgent.Session.Settlement

/-!
# What an admission does

An admission leaves the store alone or stores one Input or Control, an abandon
only if it was admitted.  It cancels tasks and may start a program, and leaves
every other program where it was.  `Operation.run_admission` says so of every
operation of a conversation, whether it returns or raises.
-/

namespace MonoAgent.Conversation

open MonoAgent.Lib MonoAgent.Session

/-- An admission left the store alone or stored one message. -/
inductive Accepted (db : Database) : Database → Prop where
  | same : Accepted db db
  | stored {w : Writer} {now : Instant} {request : AppendRequest} {m : Message} {db' : Database}
      (h : Stored w now request db m db')
      (htype : m.body.type = .input ∨ m.body.type = .control)
      (hadm : Admitted (db.snapshot m.sessionId) m) : Accepted db db'

/-- What an admission has done to a room.  A program that was not there before is
one of `new`. -/
structure Admission {π : Type} (new : π → Prop) (r t : Room π) : Prop where
  accepted : Accepted r.db t.db
  programs : ∀ key task, t.tasks key = some task →
    (∃ old, r.tasks key = some old ∧ old.program = task.program) ∨ new task.program

section Admissions

variable {π α : Type} {new : π → Prop} {r t : Room π} {c : Conversation} {now : Instant}
  {messageId : String}

/-! ## Effects -/

namespace Admission

theorem same : Admission new r r := ⟨.same, fun _ task h => Or.inl ⟨task, h, rfl⟩⟩

theorem accept {db : Database} (h : Accepted r.db db) : Admission new r { r with db := db } :=
  ⟨h, fun _ task h => Or.inl ⟨task, h, rfl⟩⟩

/-- Storing an Input, or a Control that abandons nothing. -/
theorem store {w : Writer} {q : AppendRequest} {m : Message} {db : Database}
    (h : Stored w now q r.db m db) (htype : q.body.type = .input ∨ q.body.type = .control)
    (hnone : q.body.abandons = none) : Admission new r { r with db := db } := by
  refine .accept (.stored h (h.body ▸ htype) ?_)
  intro through hthrough
  rw [h.body, hnone] at hthrough
  cases hthrough

/-- A task of the room is replaced by one that is where a task was or is new. -/
theorem replace (h : Admission new r t) {key : String × String} {task : Option (Task π)}
    (htask : ∀ x, task = some x →
      (∃ old, t.tasks key = some old ∧ old.program = x.program) ∨ new x.program) :
    Admission new r (t.setTask key task) := by
  refine ⟨h.accepted, fun key' x hx => ?_⟩
  by_cases hkey : key' = key
  · subst hkey
    change Function.update t.tasks key' task key' = some x at hx
    rw [Function.update_self] at hx
    rcases htask x hx with ⟨old, hold, hprogram⟩ | hnew
    · rw [← hprogram]
      exact h.programs key' old hold
    · exact Or.inr hnew
  · change Function.update t.tasks key task key' = some x at hx
    rw [Function.update_of_ne hkey] at hx
    exact h.programs key' x hx

theorem cancel (h : Admission new r t) (key : String × String) : Admission new r
    (t.setTask key ((t.tasks key).map fun task => { task with active := false })) := by
  refine h.replace fun x hx => ?_
  obtain ⟨old, hold, rfl⟩ := Option.map_eq_some_iff.mp hx
  exact Or.inl ⟨old, hold, rfl⟩

end Admission

/-! ## Programs of a room -/

theorem post_lift {x : SessionM α} {Q : α → Room π → Prop} {E : Error → Room π → Prop}
    (h : x.Post r.db.idle (fun a t => Q a { r with db := t.durable })
      fun e t => E e { r with db := t.durable }) : (Room.lift x).Post r Q E := by
  constructor
  · intro a t hr
    obtain ⟨hres, rfl⟩ := Prod.mk.inj hr
    exact h.1 a _ (Prod.ext hres rfl)
  · intro e t hr
    obtain ⟨hres, rfl⟩ := Prod.mk.inj hr
    exact h.2 e _ (Prod.ext hres rfl)

/-- An append to the store of a room. -/
theorem post_append {w : Writer} {q : AppendRequest} {Q : Message → Room π → Prop}
    {E : Error → Room π → Prop} (hreplay : ∀ m, r.db.message? q.messageId = some m → Q m r)
    (hstored : ∀ m db', Stored w now q r.db m db' → Q m { r with db := db' })
    (herror : ∀ e, E e r) : (Room.lift (w.append now q)).Post r Q E := by
  refine post_lift ((append_post r.db).mono ?_ ?_)
  · intro m t h
    rcases h with ⟨rfl, hold, _⟩ | ⟨db', rfl, h⟩
    · exact hreplay m hold
    · exact hstored m db' h
  · intro e t h
    rw [h]
    exact herror e

theorem post_cancel {Q : Unit → Room π → Prop} {E : Error → Room π → Prop}
    (h : Q () (r.setTask c.key ((r.tasks c.key).map fun t => { t with active := false }))) :
    (cancel c : RoomM π Unit).Post r Q E :=
  Exec.post_modify h

theorem post_checkOpen {Q : Unit → Room π → Prop} {E : Error → Room π → Prop}
    (hq : Q () r) (he : ∀ e, E e r) : (checkOpen c : RoomM π Unit).Post r Q E :=
  Exec.post_bind (Exec.post_read (Exec.post_check (fun _ => hq) fun _ => he _))

theorem post_checkHandle {handle : Option String} {Q : Unit → Room π → Prop}
    {E : Error → Room π → Prop} (hq : Q () r) (he : ∀ e, E e r) :
    (checkHandle c handle : RoomM π Unit).Post r Q E := by
  refine Exec.post_bind (Exec.post_read ?_)
  cases handle with
  | some h => exact Exec.post_check (fun _ => hq) fun _ => he _
  | none => exact Exec.post_check (fun _ => hq) fun _ => he _

/-- A program that is one admission, whether it returns or raises. -/
def Admits (new : π → Prop) (x : RoomM π α) (r : Room π) : Prop :=
  x.Post r (fun _ t => Admission new r t) fun _ t => Admission new r t

theorem Admits.effect {x : RoomM π α} (h : Admits new x r) : Admission new r (Exec.run x r).2 := by
  rcases h.cases with ⟨_, _, hrun, ht⟩ | ⟨_, _, hrun, ht⟩
  · rw [hrun]
    exact ht
  · rw [hrun]
    exact ht

theorem admits_throw (e : Error) : Admits new (throw e : RoomM π α) r :=
  Exec.post_throw .same

/-- A stored identity is replayed and stores nothing. -/
theorem admits_replay {w : Writer} {q : AppendRequest}
    (hold : (r.db.message? q.messageId).isSome) :
    Admits new (Room.lift (w.append now q) : RoomM π Message) r := by
  refine post_append (fun _ _ => .same) ?_ fun _ => .same
  intro m db' h
  rw [h.absent] at hold
  cases hold

theorem admits_controlHead {action : Action} {head : Int} {reason : Option String}
    (haction : action ≠ .abandon) :
    Admits new (c.controlHead now messageId action head reason : RoomM π Message) r := by
  refine Exec.post_bind (Exec.post_liftExcept (fun body hbody => ?_) fun _ _ => .same)
  have hbody' : body.action = action := by
    obtain ⟨_, _, h⟩ := Except.bind_eq_ok.mp hbody
    cases h
    rfl
  refine post_append (fun _ _ => .same) ?_ fun _ => .same
  intro m db' h
  refine .store h (Or.inr rfl) ?_
  show (if body.action = .abandon then _ else _) = _
  rw [if_neg (hbody' ▸ haction)]

/-- A message of the Session is a message of the store. -/
theorem message?_of_get {db : Database} {sessionId id : String}
    (h : (db.get sessionId id).isSome) : (db.message? id).isSome := by
  rw [Database.get] at h
  cases hm : db.message? id with
  | none =>
      rw [hm] at h
      cases h
  | some m => rfl

/-! ## The operations -/

theorem accept_admits (body : Input) :
    Admits new (c.accept now messageId body : RoomM π Message) r := by
  refine Exec.post_bind (Exec.post_read ?_)
  split
  · refine Exec.post_bind (post_checkOpen ?_ fun _ => .same)
    refine Exec.post_bind (post_append (fun m _ => ?_) (fun m db' h => ?_) fun _ => .same)
    · exact Exec.post_bind (post_cancel (Exec.post_pure (.cancel .same _)))
    · exact Exec.post_bind (post_cancel
        (Exec.post_pure (.cancel (.store h (Or.inl rfl) rfl) _)))
  · refine Exec.post_bind (post_append (fun m _ => ?_) (fun m db' h => ?_) fun _ => .same)
    · exact Exec.post_pure .same
    · exact Exec.post_pure (.store h (Or.inl rfl) rfl)

/-- What `control` checks admits an abandon. -/
theorem admitted_of_closedFrom {log : List Message} {m : Message} {source : String}
    {body : Control} (hsource : m.source = source) (hbody : m.body = .control body)
    (h : body.action = .abandon → closedFrom log source body.throughSeq = false) :
    Admitted log m := by
  intro t ht
  rw [hbody] at ht
  change (if body.action = .abandon then some body.throughSeq else none) = some t at ht
  by_cases hact : body.action = .abandon
  · rw [if_pos hact] at ht
    cases ht
    have hall := List.any_eq_false.mp (h hact)
    constructor
    · intro x hx hsrc hfinish
      by_contra hle
      refine hall x hx ?_
      rw [decide_eq_true_eq]
      exact ⟨hsrc.trans hsource, Or.inl ⟨hfinish, by omega⟩⟩
    · intro x hx hsrc t' ht'
      by_contra hle
      refine hall x hx ?_
      rw [decide_eq_true_eq]
      exact ⟨hsrc.trans hsource, Or.inr (by simp [ht']; omega)⟩
  · rw [if_neg hact] at ht
    cases ht

theorem control_admits (body : Control) (expectedHead : Int) (handle : Option String) :
    Admits new (c.control now messageId body expectedHead handle : RoomM π Message) r := by
  refine Exec.post_bind (Exec.post_read ?_)
  show Exec.Post (if _ then _ else _) _ _ _
  split
  · next hold => exact admits_replay (message?_of_get hold)
  · refine Exec.post_bind (Exec.post_check (fun _ => ?_) fun _ => .same)
    refine Exec.post_bind (Exec.post_check (fun hopen => ?_) fun _ => .same)
    refine Exec.post_bind (post_checkHandle ?_ fun _ => .same)
    have hrest (m : Message) (db' : Database) (hacc : Admission new r { r with db := db' }) :
        Exec.Post (do
          if body.action ≠ .resume then c.cancel
          return m) { r with db := db' }
          (fun _ (t : Room π) => Admission new r t) fun _ t => Admission new r t := by
      split
      · exact Exec.post_bind (post_cancel (Exec.post_pure (hacc.cancel _)))
      · exact Exec.post_pure hacc
    refine Exec.post_bind (post_append (fun m _ => hrest m r.db .same) ?_ fun _ => .same)
    intro m db' h
    refine hrest m db' (.accept (.stored h (Or.inr (by rw [h.body]; rfl)) ?_))
    rw [h.sessionId, c.session_ok]
    exact admitted_of_closedFrom (h.source.trans c.source_ok) h.body hopen

theorem pause_admits : Admits new (c.pause now messageId : RoomM π Message) r := by
  refine Exec.post_bind (Exec.post_read ?_)
  cases hget : r.db.get c.sessionId messageId with
  | some existing =>
      cases hbody : existing.body with
      | control body =>
          dsimp only
          rw [hbody]
          refine Exec.post_bind (Exec.post_check (fun _ => ?_) fun _ => .same)
          have hsome : (r.db.get c.sessionId messageId).isSome := by
            rw [hget]
            rfl
          exact admits_replay (message?_of_get hsome)
      | _ =>
          dsimp only
          rw [hbody]
          exact admits_throw _
  | none =>
      refine Exec.post_bind (Exec.post_check (fun _ => ?_) fun _ => .same)
      refine Exec.post_bind ((admits_controlHead (by decide)).mono ?_ fun _ _ h => h)
      intro m t h
      exact Exec.post_bind (post_cancel (Exec.post_pure (h.cancel _)))

theorem resume_admits (inputId : String) :
    Admits new (c.resume now messageId inputId : RoomM π Message) r := by
  refine Exec.post_bind (Exec.post_read ?_)
  cases r.db.get c.sessionId inputId with
  | none => exact admits_throw _
  | some target =>
      refine Exec.post_bind (Exec.post_check (fun _ => ?_) fun _ => .same)
      cases hget : r.db.get c.sessionId messageId with
      | some existing =>
          cases hbody : existing.body with
          | control body =>
              dsimp only
              rw [hbody]
              refine Exec.post_bind (Exec.post_check (fun _ => ?_) fun _ => .same)
              refine Exec.post_bind (Exec.post_check (fun _ => ?_) fun _ => .same)
              have hsome : (r.db.get c.sessionId messageId).isSome := by
                rw [hget]
                rfl
              exact admits_replay (message?_of_get hsome)
          | _ =>
              dsimp only
              rw [hbody]
              exact admits_throw _
      | none =>
          refine Exec.post_bind (Exec.post_check (fun _ => ?_) fun _ => .same)
          refine Exec.post_bind (Exec.post_check (fun _ => ?_) fun _ => .same)
          refine Exec.post_bind (Exec.post_check (fun _ => ?_) fun _ => .same)
          refine Exec.post_bind (Exec.post_read ?_)
          refine Exec.post_bind (Exec.post_check (fun _ => ?_) fun _ => .same)
          exact Exec.post_bind (post_checkOpen (admits_controlHead (by decide)) fun _ => .same)

theorem failed_admits (handle text : String) :
    Admits new (c.failed now handle messageId text : RoomM π (Option Message)) r := by
  refine Exec.post_bind (Exec.post_read ?_)
  split
  · refine Exec.post_bind (Exec.post_read ?_)
    refine Exec.post_bind ((admits_controlHead (by decide)).mono ?_ fun _ _ h => h)
    exact fun m t h => Exec.post_pure h
  · exact Exec.post_pure .same

theorem begin_admits (handle : String) {program : π} (hnew : new program) :
    Admits new (c.begin handle program : RoomM π (Task π)) r := by
  refine Exec.post_bind (Exec.post_modify (Exec.post_pure (.replace .same fun x hx => ?_)))
  cases hx
  exact Or.inr hnew

theorem start_admits (handle : String) {program : π} (hnew : new program) :
    Admits new (c.start handle program : RoomM π (Option (Task π))) r := by
  refine Exec.post_bind (Exec.post_read ?_)
  dsimp only [id]
  split
  · exact Exec.post_pure .same
  · split
    · refine Exec.post_bind ((begin_admits handle hnew).mono ?_ fun _ _ h => h)
      exact fun _ _ h => Exec.post_pure h
    · exact Exec.post_pure .same

theorem complete_admits (handle : String) {program : π} (hnew : new program) :
    Admits new (c.complete handle program : RoomM π (Option (Task π) × Bool)) r := by
  refine Exec.post_bind (Exec.post_read ?_)
  dsimp only [id]
  split
  · exact Exec.post_pure .same
  · split
    · exact Exec.post_pure .same
    · refine Exec.post_bind ((begin_admits handle hnew).mono ?_ fun _ _ h => h)
      exact fun _ _ h => Exec.post_pure h

theorem release_admits : Admits new (c.release : RoomM π Unit) r :=
  Exec.post_modify (.replace .same fun x hx => by cases hx)

end Admissions

/-! ## Operations -/

/-- One admission of a conversation. -/
inductive Operation (π : Type) where
  | accept (now : Instant) (messageId : String) (body : Input)
  | control (now : Instant) (messageId : String) (body : Control) (expectedHead : Int)
      (handle : Option String)
  | pause (now : Instant) (messageId : String)
  | resume (now : Instant) (messageId inputId : String)
  | start (handle : String) (program : π)
  | complete (handle : String) (program : π)
  | failed (now : Instant) (handle messageId text : String)
  /-- The task of the source is done. -/
  | release

/-- The room after an admission, whether it returned or raised. -/
def Operation.run {π : Type} (c : Conversation) (r : Room π) : Operation π → Room π
  | .accept now messageId body => (Exec.run (c.accept now messageId body) r).2
  | .control now messageId body expectedHead handle =>
      (Exec.run (c.control now messageId body expectedHead handle) r).2
  | .pause now messageId => (Exec.run (c.pause now messageId) r).2
  | .resume now messageId inputId => (Exec.run (c.resume now messageId inputId) r).2
  | .start handle program => (Exec.run (c.start handle program) r).2
  | .complete handle program => (Exec.run (c.complete handle program) r).2
  | .failed now handle messageId text => (Exec.run (c.failed now handle messageId text) r).2
  | .release => (Exec.run c.release r).2

/-- The program an operation may start. -/
def Operation.program? {π : Type} : Operation π → Option π
  | .start _ program => some program
  | .complete _ program => some program
  | _ => none

/-- Every operation is one admission. -/
theorem Operation.run_admission {π : Type} {new : π → Prop} (c : Conversation) (r : Room π)
    (op : Operation π) (hnew : ∀ program, op.program? = some program → new program) :
    Admission new r (op.run c r) := by
  cases op with
  | accept now messageId body => exact (accept_admits body).effect
  | control now messageId body expectedHead handle =>
      exact (control_admits body expectedHead handle).effect
  | pause now messageId => exact pause_admits.effect
  | resume now messageId inputId => exact (resume_admits inputId).effect
  | start handle program => exact (start_admits handle (hnew program rfl)).effect
  | complete handle program => exact (complete_admits handle (hnew program rfl)).effect
  | failed now handle messageId text => exact (failed_admits handle text).effect
  | release => exact release_admits.effect

end MonoAgent.Conversation
