import MonoAgent.Conversation.Admission
import MonoAgent.TurnProjection.Partition

/-!
# Conversations keep logs projectable

In a process whose Controls are written by conversations, every abandon of a log
was admitted.  So `project` partitions the log of every Session of every room it
reaches, and never changes the turns it has closed.
-/

namespace MonoAgent.Conversation

open MonoAgent.Lib MonoAgent.Session MonoAgent.TurnProjection

/-! ## The machine of rooms -/

/-- A step of a process: an admission, a write past the conversations, a change of
the restart gate, or a crash. -/
inductive RoomAction (π : Type) where
  | admission (c : Conversation) (op : Operation π)
  | log (a : LogAction)
  | gate (accepting : Bool)
  | crash

/-- A process over a store that starts empty.  A crash keeps the store alone. -/
def roomMachine (π : Type) : Machine (Room π) (RoomAction π) where
  start r := logMachine.start r.db ∧ ∀ key, r.tasks key = none
  next r
    | .admission c op => some (op.run c r)
    | .log a => (logMachine.next r.db a).map fun db => { r with db := db }
    | .gate accepting => some { r with accepting := accepting }
    | .crash => some { db := r.db }

/-- Controls are written by conversations only. -/
def NoControl (w : Writer) : Prop := .control ∉ w.bodyTypes

def OnlyConversations {π : Type} (_ : Room π) : RoomAction π → Prop
  | .log a => a.Uses NoControl
  | _ => True

section Machine

variable {π : Type} {r r' : Room π} {a : RoomAction π}

/-- A step keeps what writers without Controls and admissions keep. -/
theorem roomMachine_step {I : Database → Prop} (hI : Preserved NoControl I)
    (haccepted : ∀ db db', Accepted db db' → I db → I db') (hok : OnlyConversations r a)
    (hn : (roomMachine π).next r a = some r') (h : I r.db) : I r'.db := by
  cases a with
  | admission c op =>
      cases hn
      exact haccepted _ _ (op.run_admission c r fun _ _ => trivial).accepted h
  | log a =>
      change (logMachine.next r.db a).map (fun db => { r with db := db }) = some r' at hn
      obtain ⟨db, hdb, rfl⟩ := Option.map_eq_some_iff.mp hn
      exact logMachine_step hI hok h hdb
  | gate accepting =>
      cases hn
      exact h
  | crash =>
      cases hn
      exact h

/-! ## Logs of a room -/

/-- The store represents its logs, and every abandon in them was admitted. -/
structure Projectable (db : Database) : Prop where
  log : LogInvariant db
  admitted : ∀ sessionId, AllAdmitted (db.snapshot sessionId)

theorem Projectable.stored {w : Writer} {now : Instant} {q : AppendRequest} {db db' : Database}
    {m : Message} (h : Projectable db) (hs : Stored w now q db m db')
    (hadm : Admitted (db.snapshot m.sessionId) m) : Projectable db' := by
  refine ⟨hs.invariant h.log, fun sessionId => ?_⟩
  by_cases hsid : sessionId = m.sessionId
  · rw [hsid, hs.snapshot_same]
    exact (h.admitted _).snoc hadm
  · rw [hs.snapshot_other hsid]
    exact h.admitted sessionId

/-- The rows of messages are all that `Projectable` adds. -/
theorem Projectable.congr {db db' : Database} (h : Projectable db) (hlog : LogInvariant db')
    (hmessages : db'.messages = db.messages) : Projectable db' := by
  refine ⟨hlog, fun sessionId => ?_⟩
  rw [Database.snapshot, hmessages]
  exact h.admitted sessionId

theorem projectable_preserved : Preserved NoControl Projectable where
  stored := by
    intro w now q db m db' hw h hs
    refine h.stored hs (admitted_of_type fun htype => ?_)
    have hgranted := (checkRequest_eq_ok.mp hs.granted).bodyType
    rw [← hs.body, htype] at hgranted
    exact hw hgranted
  saved := fun _ _ _ h => h.congr (h.log.congr rfl rfl rfl) rfl
  touched := by
    intro db db' h ht
    cases ht with
    | session row hrow => exact h.congr (h.log.withSession hrow) rfl
    | bindings bindings => exact h.congr (h.log.congr rfl rfl rfl) rfl
  published := fun _ h => h.congr (h.log.congr rfl rfl rfl) rfl

theorem projectable_accepted {db db' : Database} (h : Accepted db db') (hdb : Projectable db) :
    Projectable db' := by
  cases h with
  | same => exact hdb
  | stored hs _ hadm => exact hdb.stored hs hadm

theorem projectable_of_reach (h : (roomMachine π).Reach OnlyConversations r) :
    Projectable r.db := by
  refine h.invariant ?_ fun _ _ _ hs hok hn =>
    roomMachine_step projectable_preserved (fun _ _ => projectable_accepted) hok hn hs
  intro r hstart
  have hlog : LogInvariant r.db := logInvariant_of_reachable (.start hstart.1)
  refine ⟨hlog, fun sessionId => ?_⟩
  have hnil : r.db.snapshot sessionId = [] := by
    rw [Database.snapshot, hstart.1.2.1]
    rfl
  rw [hnil]
  exact allAdmitted_nil

/-- The logs of `db'` continue those of `db`. -/
def Continues (db db' : Database) : Prop :=
  ∀ sessionId, db.snapshot sessionId <+: db'.snapshot sessionId

theorem Continues.stored {w : Writer} {now : Instant} {q : AppendRequest}
    {db₀ db db' : Database} {m : Message} (h : Continues db₀ db)
    (hs : Stored w now q db m db') : Continues db₀ db' := by
  intro sessionId
  by_cases hsid : sessionId = m.sessionId
  · rw [hsid, hs.snapshot_same]
    exact (h _).trans (List.prefix_append _ _)
  · rw [hs.snapshot_other hsid]
    exact h sessionId

theorem continues_preserved (ok : Writer → Prop) (db : Database) :
    Preserved ok (Continues db) where
  stored := fun _ h hs => h.stored hs
  saved := fun _ _ _ h => h
  touched := by
    intro db₁ db' h ht
    cases ht with
    | session => exact h
    | bindings => exact h
  published := fun _ h => h

theorem continues_of_path (h : (roomMachine π).Path OnlyConversations r r') :
    Continues r.db r'.db := by
  refine h.invariant (I := fun r' => Continues r.db r'.db) ?_ fun _ => List.prefix_rfl
  intro s a t hs hok hn
  refine roomMachine_step (continues_preserved _ r.db) (fun db db' hacc hdb => ?_) hok hn hs
  cases hacc with
  | same => exact hdb
  | stored h => exact hdb.stored h

/-- The turns of any source of any Session of a room: `project` accepts the log,
its turns are a partition, and what comes later extends the closed ones. -/
theorem reachable_turns (h : (roomMachine π).Reach OnlyConversations r)
    (sessionId source : String) :
    ∃ turns, project (r.db.snapshot sessionId) source = .ok turns ∧
      Partition (r.db.snapshot sessionId) source turns ∧
      (∀ log, log <+: r.db.snapshot sessionId → ∃ before, project log source = .ok before ∧
        closedTurns before <+: closedTurns turns) ∧
      ∀ r', (roomMachine π).Path OnlyConversations r r' →
        ∃ after, project (r'.db.snapshot sessionId) source = .ok after ∧
          closedTurns turns <+: closedTurns after := by
  have hr := projectable_of_reach h
  have hwf := hr.log.wellFormed sessionId
  have hadm := hr.admitted sessionId
  obtain ⟨turns, hturns, hpartition⟩ := project_spec source hwf hadm
  refine ⟨turns, hturns, hpartition, fun log hlog => ?_, fun r' hpath => ?_⟩
  · obtain ⟨before, hbefore, _⟩ := project_spec source (hwf.of_prefix hlog) (hadm.of_prefix hlog)
    exact ⟨before, hbefore, project_closed_prefix hwf hadm hlog hbefore hturns⟩
  · have hr' := projectable_of_reach (h.path hpath)
    obtain ⟨after, hafter, _⟩ :=
      project_spec source (hr'.log.wellFormed sessionId) (hr'.admitted sessionId)
    exact ⟨after, hafter, project_closed_prefix (hr'.log.wellFormed sessionId)
      (hr'.admitted sessionId) (continues_of_path hpath sessionId) hturns hafter⟩

end Machine

/-- The conversation of source `user`. -/
def exampleConversation : Conversation where
  inputs := exampleInputs
  controls := { exampleInputs with author := "app", bodyTypes := [.control], callRef_ok := by decide }

def exampleAnswer : LogAction :=
  .append exampleOutputs 1 ⟨"o", .output ⟨[], .continue, by decide⟩, none, []⟩

def exampleAccepted : Room Unit := (Operation.accept 0 "m" ⟨[]⟩).run exampleConversation {}

def exampleAnswered : Room Unit :=
  { exampleAccepted with
    db := committed (exampleOutputs.append 1
      ⟨"o", .output ⟨[], .continue, by decide⟩, none, []⟩) exampleAccepted.db }

/-- An Input, an Output that continues, and an abandon of both. -/
def exampleRoom : Room Unit :=
  (Operation.control 2 "c" ⟨.abandon, 1, none⟩ 1 none).run exampleConversation exampleAnswered

theorem exampleRoom_reach : (roomMachine Unit).Reach OnlyConversations exampleRoom := by
  have hstart : (roomMachine Unit).Reach OnlyConversations {} :=
    .start ⟨⟨rfl, rfl, rfl⟩, fun _ => rfl⟩
  have haccepted : (roomMachine Unit).Reach OnlyConversations exampleAccepted :=
    hstart.step (a := .admission exampleConversation (.accept 0 "m" ⟨[]⟩)) trivial rfl
  have hanswered : (roomMachine Unit).Reach OnlyConversations exampleAnswered := by
    refine haccepted.step (a := .log exampleAnswer) ?_ rfl
    show BodyType.control ∉ [BodyType.output]
    decide
  exact hanswered.step
    (a := .admission exampleConversation (.control 2 "c" ⟨.abandon, 1, none⟩ 1 none)) trivial rfl

theorem reachable_turns_example :
    ∃ turns, project (exampleRoom.db.snapshot "s") "user" = .ok turns ∧
      Partition (exampleRoom.db.snapshot "s") "user" turns :=
  let ⟨turns, hturns, hpartition, _⟩ := reachable_turns exampleRoom_reach "s" "user"
  ⟨turns, hturns, hpartition⟩

end MonoAgent.Conversation
