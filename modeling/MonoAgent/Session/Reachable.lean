import MonoAgent.Lib.Machine
import MonoAgent.Session.Transaction

/-!
# Reachable stores

A run of the store is any sequence of writes by any writers: Sessions, messages,
bindings and owner transactions with arbitrary callbacks, each committed or
rolled back.  Artifacts are published by another owner of the same database.

Inside an owner transaction the contents may be half written after an error.
`Txn.Sound` says when: only once the transaction is marked as failed, and then
nothing commits it.
-/

namespace MonoAgent.Session

open MonoAgent.Lib

/-! ## Invariants of the contents -/

/-- A property of the contents that every finished write by the writers of `ok` keeps. -/
structure Preserved (ok : Writer → Prop) (I : Database → Prop) : Prop where
  stored : ∀ {w now request db m db'}, ok w → I db → Stored w now request db m db' → I db'
  saved : ∀ {db} owner key record, I db → I { db with
    ownerRecords := db.ownerRecords.set (owner, key) record
    writes := db.writes ++ [.save owner key record] }
  touched : ∀ {db db'}, I db → Touched db db' → I db'
  published : ∀ {db} attachments, I db → I { db with attachments := attachments }

/-- What is committed is sound, and so is the open transaction unless it failed. -/
structure Txn.Sound (I : Database → Prop) (t : Txn) : Prop where
  durable : I t.conn.durable
  current : t.failed = false → I t.conn.current

section Sound

variable {ok : Writer → Prop} {I : Database → Prop} {t : Txn} {owner : String}

/-- One call keeps the transaction sound. -/
theorem CallStep.sound (hI : Preserved ok I) {c : Call} {r : Except Error Response} {u : Txn}
    (hok : ∀ w, c.writer? = some w → ok w) (h : CallStep owner c t r u) (ht : t.Sound I) :
    u.Sound I := by
  cases h with
  | quiet => exact ht
  | broken hc hf h =>
      refine ⟨?_, fun hfalse => by cases hfalse⟩
      rcases h with rfl | ⟨d, rfl, _⟩
      · exact ht.durable
      · exact ht.durable
  | saved hc hf => exact ⟨ht.durable, fun _ => hI.saved _ _ _ (ht.current hf)⟩
  | stored hc hf hw h => exact ⟨ht.durable, fun _ => hI.stored (hok _ hw) (ht.current hf) h⟩
  | rolledBack hc h => exact ⟨ht.durable, fun _ => ht.durable⟩
  | appended _ h hw hs =>
      have hdurable := hI.stored (hok _ hw) ht.durable hs
      exact ⟨hdurable, fun _ => hdurable⟩
  | settled h htouched =>
      exact ⟨hI.touched ht.durable htouched, fun _ => hI.touched ht.durable htouched⟩

theorem Txn.Sound.open (ht : t.Sound I) : t.open.Sound I :=
  ⟨ht.durable, fun _ => ht.durable⟩

/-- The end of a transaction leaves none open, on a sound store. -/
theorem Txn.Sound.close (ht : t.Sound I) (r : Except Error Json) :
    (Txn.close r t).2.conn = (Txn.close r t).2.conn.durable.idle ∧
      I (Txn.close r t).2.conn.durable := by
  cases r with
  | error e => exact ⟨rfl, ht.durable⟩
  | ok v =>
      cases hf : t.failed with
      | true =>
          simp only [Txn.close, hf, if_true]
          exact ⟨rfl, ht.durable⟩
      | false =>
          simp only [Txn.close, hf, Bool.false_eq_true, if_false]
          exact ⟨rfl, ht.current hf⟩

/-- A callback keeps the transaction sound, by induction on its calls. -/
theorem Script.run_sound (hI : Preserved ok I) (s : Script) : ∀ {owner : String} {t : Txn},
    s.Uses ok → t.Sound I → (s.run owner t).2.Sound I := by
  induction s with
  | ret v => exact fun _ ht => ht
  | raise e => exact fun _ ht => ht
  | call c k ih =>
      intro owner t huses ht
      exact ih _ (huses.2 _) ((c.run_step owner t).sound hI huses.1 ht)
  | transact inner body k ihBody ih =>
      intro owner t huses ht
      rw [Script.run]
      split
      · exact ih _ (huses.2 _) ht
      · obtain ⟨hidle, hinv⟩ :=
          (@ihBody inner _ huses.1 ht.open).close (body.run inner t.open).1
        refine ih _ (huses.2 _) ⟨hinv, fun _ => ?_⟩
        show I (Txn.close _ _).2.conn.current
        rw [hidle]
        exact hinv

/-- A transaction keeps what finished writes keep. -/
theorem transact_sound (hI : Preserved ok I) (owner : String) {callback : Script}
    (huses : callback.Uses ok) {db : Database} (h : I db) : I (transact owner callback db).2.conn.durable := by
  have ht : db.outer.Sound I := ⟨h, fun _ => h⟩
  exact ((Script.run_sound hI callback huses ht.open).close _).2

end Sound

theorem Script.uses_all (s : Script) : s.Uses fun _ => True := by
  induction s with
  | ret v => trivial
  | raise e => trivial
  | call c k ih => exact ⟨fun _ _ => trivial, ih⟩
  | transact inner body k ihBody ih => exact ⟨ihBody, ih⟩

theorem logInvariant_preserved (ok : Writer → Prop) : Preserved ok LogInvariant where
  stored := fun _ h hs => hs.invariant h
  saved := fun _ _ _ h => h.congr rfl rfl rfl
  touched := by
    intro db db' h ht
    cases ht with
    | session row hrow => exact h.withSession hrow
    | bindings bindings => exact h.congr rfl rfl rfl
  published := fun _ h => h.congr rfl rfl rfl

/-! ## The machine of committed stores -/

/-- A write to the store, or an artifact published next to it. -/
inductive LogAction where
  | ensureSession (sessionId : String) (attributes : SessionAttributes) (now : Instant)
  | append (w : Writer) (now : Instant) (request : AppendRequest)
  | saveBinding (bindingId : String) (descriptor : Fields)
  | transact (owner : String) (callback : Script)
  | publish (artifactId state : String)

/-- What is committed after a program has run. -/
def committed {α : Type} (x : SessionM α) (db : Database) : Database :=
  (Exec.run x db.idle).2.durable

/-- A store that starts without Sessions and messages. -/
def logMachine : Machine Database LogAction where
  start db := db.sessions = [] ∧ db.messages = [] ∧ db.messageAttachments = []
  next db a := some (match a with
    | .ensureSession id attributes now => committed (ensureSession id attributes now) db
    | .append w now request => committed (w.append now request) db
    | .saveBinding id descriptor => committed (saveBinding id descriptor) db
    | .transact owner callback => (transact owner callback db).2.conn.durable
    | .publish artifactId state => { db with attachments := db.attachments.set artifactId state })

theorem committed_eq {α : Type} {db : Database} (f : α → Response) (x : SessionM α) (c : Call)
    (hexec : c.exec "" db.outer = db.outer.outside (f <$> x)) :
    committed x db = (c.run "" db.outer).2.conn.durable := by
  rw [Call.run, hexec, Txn.outside, Exec.run_map]
  show (Exec.run x db.idle).2.durable = _
  cases hx : Exec.run x db.idle with
  | mk r c =>
      have hx' : Exec.run x db.outer.conn = (r, c) := hx
      rw [hx']
      cases r <;> rfl

/-- Every writer an action appends with is one of `ok`. -/
def LogAction.Uses (ok : Writer → Prop) : LogAction → Prop
  | .append w _ _ => ok w
  | .transact _ callback => callback.Uses ok
  | _ => True

section Step

variable {ok : Writer → Prop} {I : Database → Prop}

/-- A call made outside a transaction commits a sound store. -/
theorem call_sound (hI : Preserved ok I) {c : Call} (hok : ∀ w, c.writer? = some w → ok w)
    {db : Database} (h : I db) : I (c.run "" db.outer).2.conn.durable :=
  ((c.run_step "" db.outer).sound hI hok ⟨h, fun _ => h⟩).durable

/-- Every action keeps what the writes of its writers keep. -/
theorem logMachine_step (hI : Preserved ok I) {db db' : Database} {a : LogAction}
    (huses : a.Uses ok) (h : I db) (hn : logMachine.next db a = some db') : I db' := by
  cases hn
  cases a with
  | ensureSession id attributes now =>
      show I (committed (ensureSession id attributes now) db)
      rw [committed_eq .attributes _ (.ensureSession id attributes now) rfl]
      exact call_sound hI (fun _ hw => by cases hw) h
  | append w now request =>
      show I (committed (w.append now request) db)
      rw [committed_eq .message (w.append now request) (.writerAppend w now request) rfl]
      exact call_sound hI (fun _ hw => by cases hw; exact huses) h
  | saveBinding id descriptor =>
      show I (committed (saveBinding id descriptor) db)
      rw [committed_eq (fun _ => .unit) _ (.saveBinding id descriptor) rfl]
      exact call_sound hI (fun _ hw => by cases hw) h
  | transact owner callback => exact transact_sound hI owner huses h
  | publish artifactId state => exact hI.published _ h

end Step

theorem LogAction.uses_all (a : LogAction) : a.Uses fun _ => True := by
  cases a with
  | transact owner callback => exact callback.uses_all
  | _ => trivial

theorem logInvariant_start {db : Database} (h : logMachine.start db) : LogInvariant db := by
  obtain ⟨hsessions, hmessages, hlinks⟩ := h
  exact (@logInvariant_empty [] [] [] []).congr hsessions hmessages hlinks

/-- Every action keeps the representation invariant. -/
theorem logInvariant_next {db db' : Database} {a : LogAction} (h : LogInvariant db)
    (hn : logMachine.next db a = some db') : LogInvariant db' :=
  logMachine_step (logInvariant_preserved _) a.uses_all h hn

/-- Every message has an identity. -/
def Identified (db : Database) : Prop := ∀ m ∈ db.messages, m.messageId ≠ ""

theorem Stored.identifies {w : Writer} {now : Instant} {request : AppendRequest}
    {db db' : Database} {m : Message} (hs : Stored w now request db m db') (h : Identified db) :
    Identified db' := by
  intro x hx
  rw [hs.messages] at hx
  rcases List.mem_append.mp hx with hx | hx
  · exact h x hx
  · rw [List.mem_singleton.mp hx]
    exact hs.identified

theorem identified_preserved (ok : Writer → Prop) : Preserved ok Identified where
  stored := fun _ h hs => hs.identifies h
  saved := fun _ _ _ h => h
  touched := by
    intro db db' h ht
    cases ht with
    | session => exact h
    | bindings => exact h
  published := fun _ h => h

/-- The log of a Session only grows. -/
theorem snapshot_grows {db db' : Database} {a : LogAction}
    (hn : logMachine.next db a = some db') (sessionId : String) :
    db.snapshot sessionId <+: db'.snapshot sessionId := by
  have hI : Preserved (fun _ => True) fun db' => db.snapshot sessionId <+: db'.snapshot sessionId :=
    { stored := by
        intro w now request db₁ m db₂ _ h hs
        refine h.trans ?_
        by_cases heq : sessionId = m.sessionId
        · rw [heq, hs.snapshot_same]
          exact List.prefix_append _ _
        · rw [hs.snapshot_other heq]
      saved := fun _ _ _ h => h
      touched := by
        intro db₁ db₂ h ht
        cases ht with
        | session => exact h
        | bindings => exact h
      published := fun _ h => h }
  exact logMachine_step hI a.uses_all List.prefix_rfl hn

/-- The store of every run satisfies the representation invariant. -/
theorem logInvariant_of_reachable {db : Database} (h : logMachine.Reachable db) :
    LogInvariant db := by
  refine h.invariant (fun _ hstart => logInvariant_start hstart) fun _ _ _ hs _ hn =>
    logInvariant_next hs hn

/-! ## The representation of a reachable store -/

/-- What the tables represent, in terms of their rows. -/
structure Representation (db : Database) : Prop where
  /-- The seqs of a Session are `0..next_seq-1`, in order. -/
  seqs : ∀ s ∈ db.sessions, (db.snapshot s.key).map (·.seq) = List.range s.nextSeq
  sessions : ∀ m ∈ db.messages, ∃ s ∈ db.sessions, s.key = m.sessionId
  ids : (db.messages.map (·.messageId)).Nodup
  /-- A result refers to a tool call of an earlier Output of its Session and source. -/
  calls : ∀ r ∈ db.messages, ∀ b, r.body = .toolResult b → ∃ q ∈ db.messages, ∃ o c,
    q.messageId = b.callRef.messageId ∧ q.body = .output o ∧
      o.parts[b.callRef.partIndex]? = some (.call c) ∧ q.seq < r.seq ∧
      q.sessionId = r.sessionId ∧ q.source = r.source
  results : ∀ r ∈ db.messages, ∀ r' ∈ db.messages, ∀ b b', r.body = .toolResult b →
    r'.body = .toolResult b' → b.callRef = b'.callRef → r = r'
  controls : ∀ m ∈ db.messages, ∀ c, m.body = .control c → c.throughSeq < m.seq
  ordinals : ∀ m ∈ db.messages, ∃ k,
    (db.messageAttachments.filter (·.messageId = m.messageId)).map (·.ordinal) = List.range k

theorem LogInvariant.representation {db : Database} (h : LogInvariant db) :
    Representation db where
  seqs := by
    intro s hs
    rw [(h.wellFormed s.key).map_seq, h.nextSeq s hs]
  sessions := by
    intro m hm
    obtain ⟨s, hs, hkey⟩ := List.mem_map.mp (h.known m hm)
    exact ⟨s, hs, hkey⟩
  ids := h.ids
  calls := by
    intro r hr b hb
    have hset : r.body.settles = some b.callRef := by rw [hb]; rfl
    obtain ⟨q, hq, hsid, hsrc, hlt, hcall⟩ := h.call_of_result hr hset
    obtain ⟨hid, o, c, ho, hc⟩ := Message.mem_calls.mp hcall
    exact ⟨q, hq, o, c, hid.symm, ho, hc, hlt, hsid, hsrc⟩
  results := by
    intro r hr r' hr' b b' hb hb' href
    have hset : r.body.settles = some b.callRef := by rw [hb]; rfl
    have hset' : r'.body.settles = some b.callRef := by rw [hb', href]; rfl
    exact h.result_unique hr hr' hset hset'
  controls := fun m _ => m.control_before
  ordinals := fun m _ => h.ordinals m.messageId

/-! ## Replays -/

/-- The stored message is the one the request writes, as far as rows tell. -/
def SameMessage (w : Writer) (request : AppendRequest) (old : Message) : Prop :=
  old.sessionId = w.sessionId ∧ old.author = w.author ∧ old.source = w.source ∧
    bodyText old.body = bodyText request.body ∧
    (Json.obj old.metadata).dumps = (Json.obj request.metadata).dumps

/-- The writer was granted the body type, the call and the metadata namespaces. -/
structure Granted (w : Writer) (request : AppendRequest) : Prop where
  bodyType : request.body.type ∈ w.bodyTypes
  callRef : request.body.settles.isSome → request.body.settles = w.callRef
  metadata : freezeMetadata request.metadata = .ok request.metadata
  namespaces : w.checkMetadata.isNone → request.metadata.all (·.1 ∈ w.messageMetadataKeys)

section Replay

variable {w : Writer} {now : Instant} {request : AppendRequest} {db : Database}

theorem checkRequest_eq_ok : w.checkRequest request = .ok () ↔ Granted w request := by
  rw [Writer.checkRequest, Except.bind_eq_ok]
  constructor
  · rintro ⟨_, hgrant, h⟩
    obtain ⟨metadata, hfrozen, h⟩ := Except.bind_eq_ok.mp h
    obtain ⟨_, htype, hcall⟩ := Except.bind_eq_ok.mp hgrant
    cases freezeMetadata_eq hfrozen
    exact ⟨ensure_eq_ok.mp htype, ensure_eq_ok.mp hcall, hfrozen, ensure_eq_ok.mp h⟩
  · rintro ⟨htype, hcall, hfrozen, hkeys⟩
    refine ⟨(), Except.bind_eq_ok.mpr ⟨(), ensure_eq_ok.mpr htype, ensure_eq_ok.mpr hcall⟩, ?_⟩
    exact Except.bind_eq_ok.mpr ⟨_, hfrozen, ensure_eq_ok.mpr hkeys⟩

theorem checkReplay_eq_ok {old : Message} :
    w.checkReplay request old = .ok () ↔ SameMessage w request old := by
  rw [Writer.checkReplay, Except.bind_eq_ok]
  constructor
  · rintro ⟨_, h, h'⟩
    obtain ⟨hsid, hauthor, hsrc, hbody⟩ := ensure_eq_ok.mp h
    exact ⟨hsid, hauthor, hsrc, hbody, ensure_eq_ok.mp h'⟩
  · rintro ⟨hsid, hauthor, hsrc, hbody, hmeta⟩
    exact ⟨(), ensure_eq_ok.mpr ⟨hsid, hauthor, hsrc, hbody⟩, ensure_eq_ok.mpr hmeta⟩

theorem checkAppend_of_stored {old : Message} (hold : db.message? request.messageId = some old)
    (hsame : SameMessage w request old) (hgrant : Granted w request) :
    w.checkAppend request db = .ok (.replay old) := by
  rw [Writer.checkAppend, checkRequest_eq_ok.mpr hgrant]
  dsimp only [bind, Except.bind]
  rw [hold]
  exact Except.bind_eq_ok.mpr ⟨(), checkReplay_eq_ok.mpr hsame, rfl⟩

/-- What the checks of an append refuse changes nothing. -/
theorem appendIn_refused {e : Error} {c : Connection Database}
    (h : w.checkAppend request c.current = .error e) :
    Exec.run (w.appendIn now request) c = (.error e, c) := by
  rw [Writer.appendIn, Exec.run_bind]
  show Exec.run (Exec.liftExcept (w.checkAppend request c.current) >>= _) c = _
  rw [h, Exec.run_bind]
  rfl

/-- A replay returns the stored message, in any transaction. -/
theorem appendIn_replay {old : Message} {c : Connection Database}
    (h : w.checkAppend request c.current = .ok (.replay old)) :
    Exec.run (w.appendIn now request) c = (.ok old, c) := by
  rw [Writer.appendIn, Exec.run_bind]
  show Exec.run (Exec.liftExcept (w.checkAppend request c.current) >>= _) c = _
  rw [h, Exec.run_bind]
  rfl

/-- Appending a stored identity changes nothing: it returns the stored message
when this is the one requested and the writer may write it, and raises otherwise. -/
theorem appendIn_stored (w : Writer) (now : Instant) {old : Message} {c : Connection Database}
    (hold : c.current.message? request.messageId = some old) :
    (SameMessage w request old ∧ Granted w request →
      Exec.run (w.appendIn now request) c = (.ok old, c)) ∧
    (¬ (SameMessage w request old ∧ Granted w request) →
      ∃ e, Exec.run (w.appendIn now request) c = (.error e, c)) := by
  constructor
  · intro h
    exact appendIn_replay (checkAppend_of_stored hold h.1 h.2)
  · intro hnot
    cases hcheck : w.checkAppend request c.current with
    | error e => exact ⟨e, appendIn_refused hcheck⟩
    | ok a =>
        obtain ⟨_, hsame, hgrant⟩ := checkAppend_replay hold hcheck
        exact absurd ⟨checkReplay_eq_ok.mp hsame, checkRequest_eq_ok.mp hgrant⟩ hnot

theorem append_stored (w : Writer) (now : Instant) {old : Message}
    (hold : db.message? request.messageId = some old) :
    (SameMessage w request old ∧ Granted w request →
      Exec.run (w.append now request) db.idle = (.ok old, db.idle)) ∧
    (¬ (SameMessage w request old ∧ Granted w request) →
      ∃ e, Exec.run (w.append now request) db.idle = (.error e, db.idle)) := by
  have hopen : (db.idle.opened db).current.message? request.messageId = some old := hold
  obtain ⟨hsame, hother⟩ := appendIn_stored w now hopen
  constructor
  · intro h
    rw [Writer.append, write_run, hsame h]
    rfl
  · intro h
    obtain ⟨e, he⟩ := hother h
    refine ⟨e, ?_⟩
    rw [Writer.append, write_run, he]
    rfl

end Replay

/-- Reachable stores represent their logs, and appending a stored identity, by
any writer and in any transaction, changes nothing. -/
theorem reachable_log {db : Database} (h : logMachine.Reachable db) :
    Representation db ∧
    ∀ (w : Writer) (now : Instant) (request : AppendRequest), ∀ old ∈ db.messages,
      old.messageId = request.messageId →
      (SameMessage w request old ∧ Granted w request →
        Exec.run (w.append now request) db.idle = (.ok old, db.idle) ∧
        Exec.run (w.appendIn now request) (db.idle.opened db) = (.ok old, db.idle.opened db)) ∧
      (¬ (SameMessage w request old ∧ Granted w request) →
        ∃ e, Exec.run (w.append now request) db.idle = (.error e, db.idle) ∧
          Exec.run (w.appendIn now request) (db.idle.opened db) =
            (.error e, db.idle.opened db)) := by
  have hinv := logInvariant_of_reachable h
  refine ⟨hinv.representation, fun w now request old hmem hid => ?_⟩
  have hold : db.message? request.messageId = some old := hinv.message?_eq_some.mpr ⟨hmem, hid⟩
  obtain ⟨hsame, hother⟩ :=
    appendIn_stored w now (show (db.idle.opened db).current.message? _ = _ from hold)
  constructor
  · intro hboth
    exact ⟨(append_stored w now hold).1 hboth, hsame hboth⟩
  · intro hnot
    obtain ⟨e, he⟩ := hother hnot
    refine ⟨e, ?_, he⟩
    rw [Writer.append, write_run, he]
    rfl

/-! ## A store with one message -/

/-- The writer of the Inputs of source `user`, and one of its Outputs. -/
def exampleInputs : Writer where
  sessionId := "s"
  author := "user"
  source := "user"
  bodyTypes := [.input]

def exampleOutputs : Writer where
  sessionId := "s"
  author := "user"
  source := "user"
  bodyTypes := [.output]

def exampleRequest : AppendRequest where
  messageId := "m"
  body := .input ⟨[]⟩

def exampleStore : Database := committed (exampleInputs.append 0 exampleRequest) {}

def exampleMessage : Message :=
  ⟨"m", "s", 0, 0, "user", "user", .input ⟨[]⟩, [], fun _ h => by cases h⟩

theorem exampleStore_reachable : logMachine.Reachable exampleStore :=
  Machine.Reach.step (a := .append exampleInputs 0 exampleRequest)
    (.start ⟨rfl, rfl, rfl⟩) trivial rfl

theorem exampleMessage_mem : exampleMessage ∈ exampleStore.messages := by decide

/-- A writer that was not granted the body type is refused before the store looks
for the message, also when the message is stored. -/
theorem replay_needs_grant : logMachine.Reachable exampleStore ∧
    exampleMessage ∈ exampleStore.messages ∧ exampleMessage.messageId = exampleRequest.messageId ∧
    SameMessage exampleOutputs exampleRequest exampleMessage ∧
    Exec.run (exampleOutputs.append 1 exampleRequest) exampleStore.idle =
      (.error ⟨.permissionError, "writer 未获授该消息类型"⟩, exampleStore.idle) := by
  refine ⟨exampleStore_reachable, exampleMessage_mem, rfl, ⟨rfl, rfl, rfl, rfl, rfl⟩, ?_⟩
  rfl

/-! ## A store with calls and Controls -/

def exampleRef : CallRef := ⟨"o", 0⟩

theorem exampleRef_some : BodyType.toolResult ∈ [BodyType.input, .output, .toolResult, .control] →
    (some exampleRef).isSome := fun _ => rfl

/-- A writer of all that is said in the source `user`. -/
def exampleWriter : Writer where
  sessionId := "s"
  author := "user"
  source := "user"
  bodyTypes := [.input, .output, .toolResult, .control]
  callRef := some exampleRef
  checkCall := some fun _ => .ok ()
  callRef_ok := exampleRef_some

theorem exampleCall_named : "tool" ≠ "" := by decide

def exampleCall : Part := .call ⟨"tool", [], exampleCall_named⟩

theorem exampleOutput_continues : Finish.continue ≠ .continue →
    ∀ p ∈ [exampleCall, exampleCall], p.isCall = false := fun h => absurd rfl h

/-- An answer with two calls. -/
def exampleOutput : Output := ⟨[exampleCall, exampleCall], .continue, exampleOutput_continues⟩

def exampleResult : AppendRequest where
  messageId := "r"
  body := .toolResult ⟨exampleRef, .success, [], false⟩

/-- The first call has its result and the second is abandoned.  Behind the next Input stand a failure,
its end and a pause, and then comes the last Input. -/
def exampleTalk : List AppendRequest :=
  [exampleRequest,
    { messageId := "o", body := .output exampleOutput },
    exampleResult,
    { messageId := "a", body := .control ⟨.abandon, 1, none⟩ },
    { messageId := "n", body := .input ⟨[]⟩ },
    { messageId := "f", body := .control ⟨.failure, 4, none⟩ },
    { messageId := "e", body := .control ⟨.resume, 4, none⟩ },
    { messageId := "p", body := .control ⟨.pause, 4, none⟩ },
    { messageId := "l", body := .input ⟨[]⟩ }]

/-- The store after the first `n` messages. -/
def exampleTalked (n : Nat) : Database :=
  (logMachine.run {} (.saveBinding "tool" [] ::
    (exampleTalk.take n).map (.append exampleWriter 0))).getD {}

theorem logMachine_isSome (db : Database) (actions : List LogAction) : (logMachine.run db actions).isSome := by
  induction actions generalizing db with
  | nil => rfl
  | cons a rest ih => exact ih _

theorem exampleTalked_reachable (n : Nat) : logMachine.Reachable (exampleTalked n) :=
  Machine.reach_getD ⟨rfl, rfl, rfl⟩ (fun _ _ _ => trivial) (logMachine_isSome _ _)

theorem exampleStored_before : ∀ c, exampleResult.body = .control c → c.throughSeq < 2 := by
  intro c h
  cases h

/-- The result, as it is stored. -/
def exampleStored : Message :=
  ⟨"r", "s", 2, 0, "user", "user", exampleResult.body, [], exampleStored_before⟩

/-- The same result again, by an expired writer, and another result under its identity. -/
theorem reachable_log_example :
    let w : Writer := { exampleWriter with active := false }
    Representation (exampleTalked 9) ∧
      Exec.run (w.append 1 exampleResult) (exampleTalked 9).idle = (.ok exampleStored, (exampleTalked 9).idle) ∧
      ∃ e, Exec.run (w.append 1 { exampleResult with body := .toolResult ⟨exampleRef, .error, [], false⟩ })
        (exampleTalked 9).idle = (.error e, (exampleTalked 9).idle) := by
  intro w
  obtain ⟨hrep, hreplay⟩ := reachable_log (exampleTalked_reachable 9)
  have hmem : exampleStored ∈ (exampleTalked 9).messages := by decide +kernel
  have hgrant : Granted w exampleResult := checkRequest_eq_ok.mp (by decide +kernel)
  obtain ⟨hsame, _⟩ := hreplay w 1 exampleResult exampleStored hmem rfl
  obtain ⟨_, hother⟩ := hreplay w 1 { exampleResult with body := .toolResult ⟨exampleRef, .error, [], false⟩ }
    exampleStored hmem rfl
  obtain ⟨e, hrefused, _⟩ := hother fun hboth => absurd hboth.1.2.2.2.1 (by decide +kernel)
  exact ⟨hrep, (hsame ⟨⟨rfl, rfl, rfl, rfl, rfl⟩, hgrant⟩).1, e, hrefused⟩

end MonoAgent.Session
