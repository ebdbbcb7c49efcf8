import Mathlib
import MonoAgent.Deliveries.Consumption
import MonoAgent.Lib.JsonText
import MonoAgent.Lib.Timestamps

/-!
# Reading what was delivered

The rows of the owner lie in one table under text keys, and `scan` reads a range of them
backwards.  The first confirmation of a message has a row whose key is its time and the
identity of the message, so a range of times is a range of keys.

`recent` scans page after page, each up to the last key of the one before, and filters the
messages before it counts them.  An `Instant` counts the microseconds since the year one.
-/

namespace MonoAgent.Deliveries

open MonoAgent.Lib MonoAgent.Session

/-! ## Keys -/

/-- `time_key`. -/
def timeKey (time : DateTime) : Text := text "confirmed-time:" ++ (time.isoMicroseconds ++ [58])

/-- The key of an instant, which is one of the calendar. -/
def instantKey (time : Instant) : Text :=
  match DateTime.ofInstant time.toNat with
  | some t => timeKey t
  | none => []

/-- A character of a JSON string that is reduced to ASCII. -/
def asciiEscape (c : Nat) : Text :=
  let unit (u : Nat) : Text := [92, 117, JsonText.hexDigit (u / 4096), JsonText.hexDigit (u / 256 % 16),
    JsonText.hexDigit (u / 16 % 16), JsonText.hexDigit (u % 16)]
  if c < 127 then JsonText.escape c
  else if c < 0x10000 then unit c
  else unit (0xD800 + (c - 0x10000) / 0x400) ++ unit (0xDC00 + (c - 0x10000) % 0x400)

/-- The key of a row in the table. -/
def Key.text : Key → Text
  | .selection messageId => Lib.text "selection:" ++ Lib.text messageId
  | .delivery messageId sink => Lib.text "delivery:" ++ 91 ::
      (JsonText.quoteText (Lib.text messageId) ++ 44 :: (JsonText.quoteText (Lib.text sink) ++ [93]))
  | .cursor recoveryOwner sessionId => Lib.text "cursor:" ++ 91 ::
      (34 :: (Lib.text recoveryOwner).flatMap asciiEscape ++ 34 :: 44 ::
        (34 :: (Lib.text sessionId).flatMap asciiEscape ++ [34, 93]))
  | .confirmedMessage messageId => Lib.text "confirmed-message:" ++ Lib.text messageId
  | .confirmedTime time messageId => instantKey time ++ Lib.text messageId

/-! ## Scanning -/

/-- The keys that have a row, in some order. -/
def Listing (o : Outbox) (listed : List Key) : Prop :=
  listed.Nodup ∧ ∀ key, key ∈ listed ↔ o.rows key ≠ none

/-- The rows of the owner. -/
def table (o : Outbox) (listed : List Key) : List (Text × Row) :=
  listed.filterMap fun key => (o.rows key).map fun row => (key.text, row)

/-- `ORDER BY key DESC`. -/
def later (x y : Text × Row) : Prop := y.1 ≤ x.1

instance : DecidableRel later := fun x y => inferInstanceAs (Decidable (y.1 ≤ x.1))

/-- `WHERE key>=? AND key<? ORDER BY key DESC`. -/
def between (start stop : Text) (rows : List (Text × Row)) : List (Text × Row) :=
  (rows.filter fun r => start ≤ r.1 ∧ r.1 < stop).insertionSort later

/-- `OwnerStore.scan`. -/
def scan (rows : List (Text × Row)) (start stop : Text) (limit : Nat) :
    Except Error (List (Text × Row)) := do
  ensure (start < stop) ⟨.valueError, "状态扫描需要递增的 key 区间"⟩
  ensure (1 ≤ limit ∧ limit ≤ 1000) ⟨.valueError, "状态扫描 limit 必须介于 1 和 1000"⟩
  return (between start stop rows).take limit

/-! ## The query -/

/-- `DeliveredMessage`. -/
structure DeliveredMessage where
  message : Message
  confirmedAt : Instant
deriving DecidableEq

/-- The filters of a query. -/
structure Query where
  excludedSources : List String := []
  visibility : Option Visibility := none

/-- `MessageCatalog.attributes`. -/
def attributes (db : Database) (sessionId : String) : Except Error SessionAttributes :=
  match db.session? sessionId with
  | some row => .ok row.attributes
  | none => .error ⟨.valueError, "Session 尚未接纳"⟩

/-- Whether the visibility of its Session keeps a message out. -/
def hidden (db : Database) (query : Query) (message : Message) : Except Error Bool :=
  match query.visibility with
  | none => .ok false
  | some visibility => (attributes db message.sessionId).map fun a => a.visibility ≠ visibility

/-- One row of a page: the message, unless a filter keeps it out. -/
def readConfirmation (db : Database) (query : Query) (key : Text) (row : Row) :
    Except Error (Option DeliveredMessage) :=
  match row.value with
  | .confirmation fact => do
      ensure (row.version = 0 ∧ key = instantKey fact.confirmedAt ++ text fact.messageId)
        ⟨.valueError, "送达历史索引身份损坏"⟩
      match db.get fact.sessionId fact.messageId with
      | none => throw ⟨.valueError, "送达历史引用的原消息缺失"⟩
      | some message =>
          if message.source ∈ query.excludedSources then return none
          else return if ← hidden db query message then none else some ⟨message, fact.confirmedAt⟩
  | _ => .error malformed

/-- A page: what was found, and whether the limit is reached. -/
def readPage (db : Database) (query : Query) (limit : Nat) :
    List (Text × Row) → List DeliveredMessage → Except Error (List DeliveredMessage × Bool)
  | [], result => .ok (result, false)
  | (key, row) :: rows, result => do
      match ← readConfirmation db query key row with
      | none => readPage db query limit rows result
      | some delivered =>
          let result := result ++ [delivered]
          if result.length = limit then return (result, true)
          else readPage db query limit rows result

section Recent

variable (db : Database) (rows : List (Text × Row)) (query : Query)

/-- `_recent`: at most `n` pages. -/
def recentPages (start : Text) (limit : Nat) :
    Nat → Text → List DeliveredMessage → Except Error (Option (List DeliveredMessage))
  | 0, _, _ => .ok none
  | n + 1, stop, result => do
      let page ← scan rows start stop 128
      match page.getLast? with
      | none => return some result
      | some last =>
          let read ← readPage db query limit page result
          if read.2 then return some read.1
          else recentPages start limit n last.1 read.1

/-- `recent`, with pages enough for all the rows. -/
def recent (since before : DateTime) (limit : Nat) :
    Except Error (Option (List DeliveredMessage)) := do
  ensure (timeKey since < timeKey before ∧ 1 ≤ limit ∧ limit ≤ 1000)
    ⟨.valueError, "送达查询需要递增时间范围和 1 到 1000 的 limit"⟩
  recentPages db rows query (timeKey since) limit (rows.length + 1) (timeKey before) []

end Recent

/-! ## First confirmations -/

/-- The records, and the time with which each committed save left a delivery delivered. -/
structure History where
  ledger : Ledger := {}
  confirmed : List (String × Instant) := []

/-- The time in a row that was written. -/
def Row.confirmedAt (row : Row) : Option Instant :=
  match row.value with
  | .delivery delivery => delivery.confirmedAt
  | _ => none

/-- What an action adds to the confirmations. -/
def confirmations (o : Outbox) : RecordsAction → List (String × Instant)
  | .save r messageId previous delivery now =>
      match r.save o messageId previous delivery now with
      | .ok (_, row) => (Row.confirmedAt row).toList.map fun time => (messageId, time)
      | .error _ => []
  | _ => []

def historyMachine : Machine History RecordsAction where
  start s := recordsMachine.start s.ledger ∧ s.confirmed = []
  next s a := (recordsMachine.next s.ledger a).map fun ledger =>
    { ledger, confirmed := s.confirmed ++ confirmations s.ledger.outbox a }

/-- The time of the first confirmation of a message. -/
def History.first (s : History) (messageId : String) : Option Instant := s.confirmed.lookup messageId

/-- A time of the calendar. -/
def IsTime (time : Instant) : Prop := ∃ t : DateTime, time = t.instant

/-- The times an action is given are times of the calendar. -/
def Timely : History → RecordsAction → Prop
  | _, .save _ _ _ delivery now => IsTime now ∧ ∀ time ∈ delivery.confirmedAt, IsTime time
  | _, _ => True

end MonoAgent.Deliveries
