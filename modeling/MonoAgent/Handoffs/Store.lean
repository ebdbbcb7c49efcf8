import Mathlib
import MonoAgent.Lib.Machine

/-!
# Inbound handoffs

`InboundHandoffStore` keeps one row for every handoff that is not completed yet.  Any
number of connections run `reserve_inbound_handoff` and `complete_inbound_handoff` on
one file; a step of the machine is one SQL statement, with what the code does before
the next one.  Reads outside a transaction see the committed table; the `INSERT` and
the `DELETE` open a transaction and wait while another connection has written in one.

A statement that needs a lock waits for a time only, and is then refused: other
connections and other users of the file may have the lock for longer.  A refused `INSERT`
or `DELETE` has begun its transaction, which stays open, as does the one whose commit is
refused in `complete_inbound_handoff`.  What reads in a transaction that was left open
keeps its lock, and no other connection commits until it ends.

`throughout` and `during` are not in the code: they are the rows that have been in the
table all the time since a call began, and those that have been in it at some time.
-/

namespace MonoAgent.Handoffs

open Lib

/-- A row, and the arguments of a reservation. -/
structure Handoff where
  handoffId : String
  dedupeKey : Option String
  channel : String
  sender : String
  chatId : String
  sessionKey : String
  content : String
  timestamp : String
  mediaJson : String
  metadataJson : String
  createdAt : String
deriving DecidableEq

namespace Handoff

/-- `fields`. -/
def fields (h : Handoff) : List (Option String) :=
  [h.handoffId, h.dedupeKey, h.channel, h.sender, h.chatId, h.sessionKey, h.content, h.timestamp,
    h.mediaJson, h.metadataJson, h.createdAt]

/-- No field that is there is empty. -/
def Valid (h : Handoff) : Prop := ∀ value ∈ h.fields, value ≠ some ""

instance (h : Handoff) : Decidable h.Valid := inferInstanceAs (Decidable (∀ value ∈ _, _))

/-- `identity`. -/
def identity (h : Handoff) : List (String × Option String) :=
  [("dedupe_key", h.dedupeKey), ("channel", h.channel), ("sender", h.sender),
    ("chat_id", h.chatId), ("session_key", h.sessionKey), ("content", h.content),
    ("timestamp", h.timestamp), ("media_json", h.mediaJson), ("metadata_json", h.metadataJson)]

/-- `stable_identity`. -/
def stableIdentity (h : Handoff) : List (String × Option String) :=
  h.identity.filter fun entry => entry.1 ≠ "timestamp"

/-- `expected_identity`. -/
def expectedIdentity (h : Handoff) (includeTimestamp : Bool) : List (String × Option String) :=
  if includeTimestamp then h.identity else h.stableIdentity

/-- `row[column]` of a column of the identity. -/
def column (row : Handoff) (name : String) : Option String :=
  (row.identity.lookup name).getD none

end Handoff

/-- `validate_existing`. -/
def validateExisting (h row : Handoff) (includeTimestamp : Bool) : Except String Unit :=
  match (h.expectedIdentity includeTimestamp).find? fun entry => row.column entry.1 ≠ entry.2 with
  | some entry =>
      .error ("inbound handoff identity conflict: handoff_id=" ++ h.handoffId ++ " field=" ++ entry.1)
  | none => .ok ()

/-- `SELECT * FROM inbound_handoffs WHERE handoff_id = ?`. -/
def byId (table : List Handoff) (handoffId : String) : Option Handoff :=
  table.find? fun row => row.handoffId = handoffId

/-- `SELECT * FROM inbound_handoffs WHERE dedupe_key = ?`, with a key. -/
def byDedupe (table : List Handoff) (dedupeKey : Option String) : Option Handoff :=
  table.find? fun row => row.dedupeKey = dedupeKey

/-- The row has the id of the request, or its dedupe key. -/
def Touches (h row : Handoff) : Prop :=
  row.handoffId = h.handoffId ∨ h.dedupeKey ≠ none ∧ row.dedupeKey = h.dedupeKey

instance (h row : Handoff) : Decidable (Touches h row) := inferInstanceAs (Decidable (_ ∨ _))

inductive Call where
  | reserve (h : Handoff)
  | complete (handoffId : String)
deriving DecidableEq

inductive Failure where
  | error (message : String)
  /-- `sqlite3.OperationalError`: the database is locked. -/
  | locked
deriving DecidableEq

inductive Result where
  /-- The returned id and `created`. -/
  | reserved (handoffId : String) (created : Bool)
  | completed
  | raised (failure : Failure)
deriving DecidableEq

/-- The statement that a call runs next. -/
inductive Place where
  | idle
  | readById (h : Handoff)
  /-- With `existing_by_id`. -/
  | readByDedupe (h : Handoff) (existingById : Option Handoff)
  | insert (h : Handoff)
  /-- With `cursor.rowcount == 1`. -/
  | rereadById (h : Handoff) (created : Bool)
  | rereadByDedupe (h : Handoff) (created : Bool)
  /-- The commit of a reservation that found `row`. -/
  | commitReserve (h row : Handoff) (created : Bool)
  | delete (handoffId : String)
  | commitComplete (handoffId : String)
  /-- The rollback before a raise. -/
  | rollback (call : Call) (failure : Failure)
deriving DecidableEq

/-- A finished call with the rows it ran beside. -/
structure Event where
  connection : ℕ
  call : Call
  result : Result
  throughout : List Handoff
  during : List Handoff

structure Connection where
  place : Place := .idle
  /-- `in_transaction`. -/
  inTransaction : Bool := false
  /-- What the open transaction has made of the table. -/
  working : Option (List Handoff) := none
  throughout : List Handoff := []
  during : List Handoff := []

structure State where
  /-- What is committed. -/
  table : List Handoff
  connections : ℕ → Connection
  /-- The connection that has written in its transaction. -/
  writer : Option ℕ := none
  /-- The connections that have read in a transaction which was left open. -/
  readers : List ℕ := []
  log : List Event := []

/-- What a statement makes its call do. -/
inductive Move where
  | goto (place : Place)
  /-- The statement wrote `rows` into the open transaction. -/
  | write (place : Place) (rows : List Handoff)
  | commit (call : Call) (result : Result)
  | rollback (call : Call) (result : Result)
  /-- The call ends, and a transaction that is open stays open.  With `begun`, it has opened one. -/
  | leave (call : Call) (result : Result) (begun : Bool)

/-! ## Statements -/

/-- From the two reads to the `INSERT`, or to the end of the call. -/
def precheck (h : Handoff) (existingById existingByDedupe : Option Handoff) : Move :=
  match existingById, existingByDedupe with
  | some row, other =>
      if (other.any fun o => row.handoffId ≠ o.handoffId) = true then
        .leave (.reserve h)
          (.raised (.error "inbound handoff identity conflict: handoff_id and dedupe_key differ")) false
      else
        match validateExisting h row true with
        | .error message => .leave (.reserve h) (.raised (.error message)) false
        | .ok () => .leave (.reserve h) (.reserved row.handoffId false) false
  | none, some row =>
      match validateExisting h row false with
      | .error message => .leave (.reserve h) (.raised (.error message)) false
      | .ok () => .leave (.reserve h) (.reserved row.handoffId false) false
  | none, none => .goto (.insert h)

/-- From the row that was read back to the commit or the rollback. -/
def settle (h row : Handoff) (created : Bool) : Move :=
  match validateExisting h row (row.handoffId = h.handoffId) with
  | .error message => .goto (.rollback (.reserve h) (.error message))
  | .ok () => .goto (.commitReserve h row created)

/-- The row that was inserted, or the one it met, is not there. -/
def disappeared (h : Handoff) : Move :=
  .goto (.rollback (.reserve h) (.error ("inbound handoff disappeared: " ++ h.handoffId)))

/-- One statement on the table it sees; `free` says that no other connection has written
in its transaction, and `alone` that none has read in one that was left open. -/
def statement (view : List Handoff) (free alone : Bool) : Place → Option Move
  | .idle => none
  | .readById h =>
      match h.dedupeKey with
      | some _ => some (.goto (.readByDedupe h (byId view h.handoffId)))
      | none => some (precheck h (byId view h.handoffId) none)
  | .readByDedupe h existingById => some (precheck h existingById (byDedupe view h.dedupeKey))
  | .insert h =>
      if free then
        if ∃ row ∈ view, Touches h row then some (.write (.rereadById h false) view)
        else some (.write (.rereadById h true) (view ++ [h]))
      else none
  | .rereadById h created =>
      match byId view h.handoffId, h.dedupeKey with
      | some row, _ => some (settle h row created)
      | none, some _ => some (.goto (.rereadByDedupe h created))
      | none, none => some (disappeared h)
  | .rereadByDedupe h created =>
      match byDedupe view h.dedupeKey with
      | some row => some (settle h row created)
      | none => some (disappeared h)
  | .commitReserve h row created =>
      if alone then some (.commit (.reserve h) (.reserved row.handoffId created)) else none
  | .delete handoffId =>
      if free then
        let rows := view.filter fun row => row.handoffId ≠ handoffId
        if view.length - rows.length = 1 then some (.write (.commitComplete handoffId) rows)
        else
          some (.write (.rollback (.complete handoffId)
            (.error ("inbound handoff not found: " ++ handoffId))) rows)
      else none
  | .commitComplete handoffId => if alone then some (.commit (.complete handoffId) .completed) else none
  | .rollback call failure => some (.rollback call (.raised failure))

/-- A statement that is refused.  Only the commit of a reservation is followed by a rollback. -/
def refused : Place → Option Move
  | .readById h => some (.leave (.reserve h) (.raised .locked) false)
  | .readByDedupe h _ => some (.leave (.reserve h) (.raised .locked) false)
  | .insert h => some (.leave (.reserve h) (.raised .locked) true)
  | .commitReserve h _ _ => some (.goto (.rollback (.reserve h) .locked))
  | .delete handoffId => some (.leave (.complete handoffId) (.raised .locked) true)
  | .commitComplete handoffId => some (.leave (.complete handoffId) (.raised .locked) false)
  | _ => none

/-- What a call does before its first statement. -/
def enter : Call → Move
  | .reserve h =>
      if h.Valid then .goto (.readById h)
      else .leave (.reserve h) (.raised (.error "inbound handoff fields must be non-empty strings")) false
  | .complete handoffId =>
      if handoffId = "" then
        .leave (.complete handoffId) (.raised (.error "handoff_id must be a non-empty string")) false
      else .goto (.delete handoffId)

/-! ## The machine -/

/-- The connection once a commit has made `table` the committed one. -/
def Connection.observe (table : List Handoff) (c : Connection) : Connection :=
  { c with
    throughout := c.throughout.filter (· ∈ table)
    during := c.during ++ table }

/-- The call of connection `i` ends, and the transaction with it. -/
def State.finish (s : State) (i : ℕ) (call : Call) (result : Result) : State :=
  let c := s.connections i
  { s with
    connections := Function.update s.connections i
      { c with place := .idle, inTransaction := false, working := none }
    writer := if s.writer = some i then none else s.writer
    readers := s.readers.filter (· ≠ i)
    log := s.log ++ [⟨i, call, result, c.throughout, c.during⟩] }

/-- The call of connection `i` ends, whether a transaction is open or not. -/
def State.quit (s : State) (i : ℕ) (call : Call) (result : Result) (begun : Bool) : State :=
  let c := s.connections i
  { s with
    connections := Function.update s.connections i
      { c with place := .idle, inTransaction := c.inTransaction || begun }
    log := s.log ++ [⟨i, call, result, c.throughout, c.during⟩] }

/-- The committed table becomes `table`, before the eyes of all connections. -/
def State.publish (s : State) (table : List Handoff) : State :=
  { s with table, connections := fun i => (s.connections i).observe table }

def State.set (s : State) (i : ℕ) (c : Connection) : State :=
  { s with connections := Function.update s.connections i c }

def State.move (s : State) (i : ℕ) : Move → State
  | .goto place => s.set i { s.connections i with place }
  | .write place rows =>
      { s.set i { s.connections i with place, inTransaction := true, working := some rows } with
        writer := some i }
  | .commit call result =>
      (s.publish ((s.connections i).working.getD s.table)).finish i call result
  | .rollback call result => s.finish i call result
  | .leave call result begun => s.quit i call result begun

inductive Action where
  /-- A caller enters a call, behind the lock of the connection's store. -/
  | call (i : ℕ) (call : Call)
  /-- The call runs its next statement. -/
  | run (i : ℕ)
  /-- The next statement of the call is refused. -/
  | refuse (i : ℕ)

/-- No other connection has written in its transaction. -/
def State.free (s : State) (i : ℕ) : Bool :=
  s.writer.all (· = i)

/-- No other connection has read in a transaction that was left open. -/
def State.alone (s : State) (i : ℕ) : Bool :=
  s.readers.all (· = i)

/-- What connection `i` sees. -/
def State.view (s : State) (i : ℕ) : List Handoff :=
  (s.connections i).working.getD s.table

/-- The call has not written yet. -/
def Place.reads : Place → Bool
  | .readById _ => true
  | .readByDedupe _ _ => true
  | _ => false

/-- A read in a transaction that was left open keeps its lock. -/
def State.lock (s : State) (i : ℕ) : State :=
  let c := s.connections i
  if c.inTransaction ∧ c.place.reads ∧ i ∉ s.readers then { s with readers := s.readers ++ [i] } else s

def State.next (s : State) : Action → Option State
  | .call i call =>
      if (s.connections i).place = .idle then
        some ((s.set i { s.connections i with throughout := s.table, during := s.table }).move i
          (enter call))
      else none
  | .run i =>
      (statement (s.view i) (s.free i) (s.alone i) (s.connections i).place).map ((s.lock i).move i)
  | .refuse i => (refused (s.connections i).place).map (s.move i)

/-- All stores on one file, which starts with an empty table. -/
def machine : Machine State Action where
  start s := s = { table := [], connections := fun _ => {} }
  next := State.next

/-- The step refuses no statement whose transaction then stays open. -/
def Served (s : State) : Action → Prop
  | .refuse i =>
      match (s.connections i).place with
      | .insert _ => False
      | .delete _ => False
      | .commitComplete _ => False
      | _ => True
  | _ => True

end MonoAgent.Handoffs
