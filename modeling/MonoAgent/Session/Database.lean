import MonoAgent.Lib.Dict
import MonoAgent.Session.MessageCodec
import MonoAgent.Session.Prefix

/-!
# The tables of the message store

A `Database` is the contents of the tables the message log owns, in insertion
order.  Each statement that changes a table is a function that raises
`IntegrityError` when a constraint of the schema is violated.

`LogInvariant` says that the rows of every Session are a well-formed log, that
`next_seq` counts it, that identities are unique across Sessions and that the
attachments of a message are numbered without gaps.
-/

namespace MonoAgent.Session

open MonoAgent.Lib

/-! ## Parameters -/

/-- What SQLite takes as a parameter, and stores, as an `INTEGER`. -/
def Bindable (n : Int) : Prop := -2 ^ 63 ≤ n ∧ n < 2 ^ 63

instance (n : Int) : Decidable (Bindable n) := inferInstanceAs (Decidable (_ ∧ _))

/-- The refusal of a parameter by `sqlite3`. -/
def overflow : Error := ⟨.overflowError, "Python int too large to convert to SQLite INTEGER"⟩

/-! ## Rows -/

inductive Visibility where
  | listed | internal
deriving DecidableEq, Repr

inductive Learning where
  | eligible | excluded
deriving DecidableEq, Repr

/-- Facts fixed when a Session is accepted. -/
structure SessionAttributes where
  visibility : Visibility := .listed
  learning : Learning := .eligible
deriving DecidableEq, Repr

structure SessionRow where
  key : String
  createdAt : Instant
  updatedAt : Instant
  metadata : Option Fields := none
  nextSeq : Nat := 0
  attributes : SessionAttributes := {}
deriving DecidableEq

/-- A row of `message_attachments`. -/
structure AttachmentLink where
  messageId : String
  ordinal : Nat
  artifactId : String
deriving DecidableEq

/-- A row of `owner_records`. -/
structure OwnerRecord where
  version : Nat
  value : Fields
deriving DecidableEq

/-- A write of a message or of an owner record. -/
inductive Write where
  | append (message : Message)
  | save (owner key : String) (record : OwnerRecord)
deriving DecidableEq

structure Database where
  sessions : List SessionRow := []
  messages : List Message := []
  messageAttachments : List AttachmentLink := []
  messageBindings : List (String × String) := []
  /-- The state of each published artifact. -/
  attachments : Dict String String := []
  bindings : Dict String String := []
  ownerRecords : Dict (String × String) OwnerRecord := []
  /-- The writes that made these contents, in order.  No query reads it. -/
  writes : List Write := []
deriving DecidableEq

namespace Database

/-! ## Queries -/

/-- `SELECT * FROM messages WHERE id=?`. -/
def message? (db : Database) (messageId : String) : Option Message :=
  db.messages.find? (·.messageId = messageId)

/-- `SELECT * FROM sessions WHERE key=?`. -/
def session? (db : Database) (key : String) : Option SessionRow :=
  db.sessions.find? (·.key = key)

/-- The messages of a Session.  Rows are inserted in the order of their seq. -/
def snapshot (db : Database) (sessionId : String) : List Message :=
  db.messages.filter (·.sessionId = sessionId)

/-- `MessageReader.head`: the largest seq, `-1` when there is none. -/
def head (db : Database) (sessionId : String) (source : Option String := none) : Int :=
  (db.snapshot sessionId).foldl
    (fun h m => if source.all (· = m.source) then max h m.seq else h) (-1)

/-- `MessageReader.get`. -/
def get (db : Database) (sessionId messageId : String) : Option Message :=
  (db.message? messageId).filter (·.sessionId = sessionId)

/-- The result that settles a call. -/
def resultOf (db : Database) (ref : CallRef) : Option Message :=
  db.messages.find? (·.body.settles = some ref)

/-- Whether an artifact is published. -/
def ready (db : Database) (artifactId : String) : Bool :=
  db.attachments.get? artifactId = some "ready"

/-! ## Statements -/

/-- The statement is refused unless the constraint holds. -/
def constrained (c : Prop) [Decidable c] (text : String) (db : Database) : Except Error Database :=
  if c then .ok db else .error ⟨.integrityError, text⟩

/-- `INSERT OR IGNORE INTO sessions`. -/
def insertSession (row : SessionRow) (db : Database) : Except Error Database :=
  .ok (if row.key ∈ db.sessions.map (·.key) then db
    else { db with sessions := db.sessions ++ [row] })

/-- `UPDATE sessions … WHERE key=?`. -/
def updateSession (key : String) (f : SessionRow → SessionRow) (db : Database) :
    Except Error Database :=
  .ok { db with sessions := db.sessions.map fun s => if s.key = key then f s else s }

/-- `INSERT INTO messages`: the identity, the seq of the Session and the settled
call are unique. -/
def insertMessage (m : Message) (db : Database) : Except Error Database :=
  constrained
    ((∀ x ∈ db.messages, x.messageId ≠ m.messageId) ∧
      (∀ x ∈ db.messages, ¬ (x.sessionId = m.sessionId ∧ x.seq = m.seq)) ∧
      (m.body.settles.isSome → ∀ x ∈ db.messages, x.body.settles ≠ m.body.settles))
    "UNIQUE constraint failed: messages" { db with messages := db.messages ++ [m] }

/-- `INSERT INTO message_attachments`. -/
def insertAttachmentLink (link : AttachmentLink) (db : Database) : Except Error Database :=
  constrained
    ((∀ x ∈ db.messageAttachments, ¬ (x.messageId = link.messageId ∧ x.ordinal = link.ordinal)) ∧
      (∃ m ∈ db.messages, m.messageId = link.messageId) ∧ link.artifactId ∈ db.attachments.keys)
    "constraint failed: message_attachments"
    { db with messageAttachments := db.messageAttachments ++ [link] }

local instance lawfulLink : LawfulBEq (String × String) := inferInstance

/-- `INSERT INTO message_bindings`. -/
def insertBindingLink (link : String × String) (db : Database) : Except Error Database :=
  constrained
    (link ∉ db.messageBindings ∧ (∃ m ∈ db.messages, m.messageId = link.1) ∧
      link.2 ∈ db.bindings.keys)
    "constraint failed: message_bindings"
    { db with messageBindings := db.messageBindings ++ [link] }

/-- `INSERT INTO bindings`. -/
def insertBinding (bindingId payload : String) (db : Database) : Except Error Database :=
  constrained (bindingId ∉ db.bindings.keys) "UNIQUE constraint failed: bindings.binding_id"
    { db with bindings := db.bindings ++ [(bindingId, payload)] }

/-- `INSERT INTO owner_records … ON CONFLICT(owner,key) DO UPDATE`. -/
def saveRecord (owner key : String) (record : OwnerRecord) (db : Database) :
    Except Error Database :=
  .ok { db with ownerRecords := db.ownerRecords.set (owner, key) record }

/-- Note a finished write. -/
def recordWrite (w : Write) (db : Database) : Except Error Database :=
  .ok { db with writes := db.writes ++ [w] }

end Database

/-! ## The representation invariant -/

/-- What holds of the tables between writes. -/
structure LogInvariant (db : Database) : Prop where
  /-- The rows of a Session are a log built by appends. -/
  wellFormed : ∀ sessionId, WellFormed (db.snapshot sessionId)
  nextSeq : ∀ s ∈ db.sessions, s.nextSeq = (db.snapshot s.key).length
  known : ∀ m ∈ db.messages, m.sessionId ∈ db.sessions.map (·.key)
  keys : (db.sessions.map (·.key)).Nodup
  ids : (db.messages.map (·.messageId)).Nodup
  /-- Ordinals count the attachments of a message. -/
  ordinals : ∀ id, ∃ k, (db.messageAttachments.filter (·.messageId = id)).map (·.ordinal) =
    List.range k
  attached : ∀ a ∈ db.messageAttachments, a.messageId ∈ db.messages.map (·.messageId)

/-- The empty store. -/
theorem logInvariant_empty {attachments bindings : Dict String String}
    {ownerRecords : Dict (String × String) OwnerRecord} {writes : List Write} :
    LogInvariant { attachments, bindings, ownerRecords, writes } where
  wellFormed := fun _ => .nil
  nextSeq := fun _ h => by cases h
  known := fun _ h => by cases h
  keys := .nil
  ids := .nil
  ordinals := fun _ => ⟨0, rfl⟩
  attached := fun _ h => by cases h

namespace LogInvariant

variable {db : Database}

theorem mem_snapshot {m : Message} {sessionId : String} :
    m ∈ db.snapshot sessionId ↔ m ∈ db.messages ∧ m.sessionId = sessionId := by
  simp [Database.snapshot]

theorem eq_of_id (h : LogInvariant db) {m m' : Message} (hm : m ∈ db.messages)
    (hm' : m' ∈ db.messages) (heq : m.messageId = m'.messageId) : m = m' :=
  List.inj_on_of_nodup_map h.ids hm hm' heq

theorem message?_eq_some (h : LogInvariant db) {messageId : String} {m : Message} :
    db.message? messageId = some m ↔ m ∈ db.messages ∧ m.messageId = messageId := by
  unfold Database.message?
  constructor
  · intro hf
    exact ⟨List.mem_of_find?_eq_some hf, by simpa using List.find?_some hf⟩
  · rintro ⟨hm, hid⟩
    cases hf : db.messages.find? (·.messageId = messageId) with
    | none =>
        have := List.find?_eq_none.mp hf m hm
        simp [hid] at this
    | some m' =>
        have hid' : m'.messageId = messageId := by simpa using List.find?_some hf
        rw [h.eq_of_id (List.mem_of_find?_eq_some hf) hm (hid'.trans hid.symm)]

/-- Every result answers a call with a smaller seq of its Session and source. -/
theorem call_of_result (h : LogInvariant db) {r : Message} {ref : CallRef}
    (hr : r ∈ db.messages) (hs : r.body.settles = some ref) :
    ∃ q ∈ db.messages, q.sessionId = r.sessionId ∧ q.source = r.source ∧ q.seq < r.seq ∧
      ref ∈ q.calls := by
  obtain ⟨q, hq, hlt, hsrc, hc⟩ :=
    (h.wellFormed r.sessionId).call_of_result (mem_snapshot.mpr ⟨hr, rfl⟩) hs
  obtain ⟨hqm, hqs⟩ := mem_snapshot.mp hq
  exact ⟨q, hqm, hqs, hsrc, hlt, hc⟩

/-- A call has at most one result in the whole store. -/
theorem result_unique (h : LogInvariant db) {r r' : Message} {ref : CallRef}
    (hr : r ∈ db.messages) (hr' : r' ∈ db.messages) (hs : r.body.settles = some ref)
    (hs' : r'.body.settles = some ref) : r = r' := by
  obtain ⟨q, hq, hqs, _, _, hc⟩ := h.call_of_result hr hs
  obtain ⟨q', hq', hqs', _, _, hc'⟩ := h.call_of_result hr' hs'
  have hqq : q = q' := h.eq_of_id hq hq'
    ((Message.mem_calls.mp hc).1.symm.trans (Message.mem_calls.mp hc').1)
  subst hqq
  exact (h.wellFormed r.sessionId).result_unique (mem_snapshot.mpr ⟨hr, rfl⟩)
    (mem_snapshot.mpr ⟨hr', hqs'.symm.trans hqs⟩) hs hs'

end LogInvariant

end MonoAgent.Session
