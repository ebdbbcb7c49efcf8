import MonoAgent.Lib.Machine
import MonoAgent.Lib.Paging
import MonoAgent.Lib.Sorted
import MonoAgent.Session.Append

/-!
# The incremental reader

`plain` is `MessageReader.snapshot`: pages of rows from a cursor up to a bound that is
fixed first, each row decoded as it is read.  `Reader.snapshot` is the same method of
`_IncrementalMessageReader`, which keeps the messages it has decoded as long as no other
connection has committed, reads only what follows them, and cuts what was asked for out
of what it keeps.

The machine interleaves appends of the log's own connection, in transactions that may be
rolled back, commits of other connections that leave any rows behind, and calls.  What is
kept always is the decoded front of the Session's rows (`Inv.kept`).  A call then agrees
with the plain reader but for three differences: the plain reader refuses a cursor below
`-1` that it has to read from and a bound that SQLite does not take, and the incremental one
decodes the rows before the cursor.
-/

namespace MonoAgent.Session.Incremental

open MonoAgent.Lib

/-! ## Rows -/

/-- A row of `messages`, the texts not yet decoded. -/
structure StoredMessage where
  id : String
  sessionKey : String
  seq : Int
  ts : String
  author : String
  source : String
  body : String
  /-- Missing where the table has no such column. -/
  metadata : Option String
deriving DecidableEq

/-- The decoders of the columns of a row. -/
structure RowCodec where
  /-- `datetime.fromisoformat`, `none` for a time without a zone. -/
  fromisoformat : String → Except Error (Option Instant)
  decodeBody : String → Except Error Body
  jsonObject : String → Except Error Fields

/-- The text that locates damaged metadata. -/
def StoredMessage.damaged (row : StoredMessage) (text : String) : String :=
  "Session " ++ row.sessionKey ++ " Message " ++ row.id ++ " metadata 损坏: " ++ text

/-- `_message_metadata`, and no metadata without the column. -/
def messageMetadata (codec : RowCodec) (row : StoredMessage) : Except Error Fields :=
  match row.metadata with
  | none => .ok []
  | some raw => (codec.jsonObject raw).mapError fun e => ⟨.valueError, row.damaged e.text⟩

/-- `_message`: the columns are decoded first, then the constructor checks them. -/
def message (codec : RowCodec) (row : StoredMessage) : Except Error Message := do
  let recordedAt ← codec.fromisoformat row.ts
  let body ← codec.decodeBody row.body
  let raw ← messageMetadata codec row
  let metadata ← (freezeMetadata raw).mapError fun e => ⟨e.kind, row.damaged e.text⟩
  ensure (row.id ≠ "" ∧ row.sessionKey ≠ "" ∧ row.author ≠ "" ∧ row.source ≠ "")
    ⟨.valueError, "消息身份、Session、作者和来源不能为空"⟩
  ensure (0 ≤ row.seq) ⟨.valueError, "消息 seq 必须非负"⟩
  match recordedAt with
  | none => .error ⟨.valueError, "消息接纳时间必须包含时区"⟩
  | some recordedAt =>
      Message.make row.id row.sessionKey row.seq.toNat recordedAt row.author row.source body
        metadata

/-- The rows of one Session in the order of their seq, which no two of them share. -/
structure Rows where
  rows : List StoredMessage
  sorted : rows.Pairwise fun x y => x.seq < y.seq
  stored : ∀ x ∈ rows, Bindable x.seq

theorem Rows.stored_nil : ∀ x ∈ ([] : List StoredMessage), Bindable x.seq := by simp

/-- A further row behind all the others. -/
def Rows.push (r : Rows) (row : StoredMessage)
    (h : (∀ x ∈ r.rows, x.seq < row.seq) ∧ Bindable row.seq) : Rows where
  rows := r.rows ++ [row]
  stored := by
    intro x hx
    rcases List.mem_append.mp hx with hx | hx
    · exact r.stored x hx
    · rw [List.mem_singleton.mp hx]
      exact h.2
  sorted := by
    refine List.pairwise_append.mpr ⟨r.sorted, List.pairwise_singleton _ _, ?_⟩
    intro x hx y hy
    rw [List.mem_singleton.mp hy]
    exact h.1 x hx

/-- The rows with a seq above `a` and up to `b`. -/
def Rows.range (r : Rows) (a b : Int) : List StoredMessage := window StoredMessage.seq a (b + 1) r.rows

/-- `MessageReader.head`: `COALESCE(MAX(seq), -1)`. -/
def Rows.head (r : Rows) : Int := (r.rows.map (·.seq)).max?.getD (-1)

/-! ## The plain reader -/

/-- `MessageReader.read`. -/
def read (codec : RowCodec) (r : Rows) (afterSeq : Int) (throughSeq : Option Int)
    (limit : Int := 1000) : Except Error (List Message) := do
  ensure (1 ≤ limit ∧ -1 ≤ afterSeq) ⟨.valueError, "读取需要正 limit 和不小于 -1 的 after_seq"⟩
  ensure (Bindable afterSeq ∧ (∀ t, throughSeq = some t → Bindable t) ∧ Bindable limit) overflow
  let found := r.rows.filter fun x => afterSeq < x.seq ∧ ∀ t, throughSeq = some t → x.seq ≤ t
  (found.take limit.toNat).mapM (message codec)

/-- The loop of `snapshot`.  Each page moves the cursor past rows, so as many rounds as
there are rows are enough. -/
def pages (codec : RowCodec) (r : Rows) (head : Int) : Nat → Int → Except Error (List Message)
  | 0, _ => .ok []
  | n + 1, cursor =>
      if cursor < head then do
        let page ← read codec r cursor (some head)
        match page.getLast? with
        | none => return []
        | some last => return page ++ (← pages codec r head n last.seq)
      else .ok []

/-- `MessageReader.snapshot`. -/
def plain (codec : RowCodec) (r : Rows) (afterSeq : Int) (throughSeq : Option Int) :
    Except Error (List Message) :=
  pages codec r (throughSeq.getD r.head) (r.rows.length + 1) afterSeq

/-! ## The incremental reader -/

/-- A transaction of the log's own connection and the rows it sees. -/
structure Transaction where
  /-- `BEGIN IMMEDIATE`: it may write, and no other connection commits meanwhile. -/
  immediate : Bool
  view : Rows

/-- The database as the log's connection sees it. -/
structure Log where
  committed : Rows
  /-- `PRAGMA data_version`: another connection's commit changes it. -/
  dataVersion : Nat
  transaction : Option Transaction := none

/-- What a query reads. -/
def Log.view (log : Log) : Rows := log.transaction.elim log.committed (·.view)

/-- `_IncrementalMessageReader`: the decoded front and the version it was read at. -/
structure Reader where
  messages : List Message := []
  dataVersion : Option Nat := none

/-- The seq of the last message, `-1` when there is none. -/
def lastSeq (messages : List Message) : Int := messages.getLast?.elim (-1) fun m => m.seq

/-- `messages[bisect_right(messages, after):bisect_right(messages, through)]`. -/
def slice (messages : List Message) (afterSeq through : Int) : List Message :=
  (messages.take (bisectRight (fun m => (m.seq : Int)) through messages)).drop
    (bisectRight (fun m => (m.seq : Int)) afterSeq messages)

/-- `_IncrementalMessageReader.snapshot`. -/
def Reader.snapshot (codec : RowCodec) (log : Log) (reader : Reader) (afterSeq : Int)
    (throughSeq : Option Int) : Except Error (List Message) × Reader :=
  -- The caller's transaction may be rolled back: what it sees is not kept.
  if log.transaction.isSome then (plain codec log.view afterSeq throughSeq, reader)
  else
    let r := log.committed
    let kept := if reader.dataVersion = some log.dataVersion then reader.messages else []
    let previous := lastSeq kept
    let through := throughSeq.elim r.head (min r.head)
    match if previous < through then plain codec r previous (some through) else .ok [] with
    | .error e => (.error e, reader)
    | .ok added =>
        let messages := kept ++ added
        (.ok (slice messages afterSeq through), ⟨messages, some log.dataVersion⟩)

/-! ## The machine -/

structure State where
  log : Log
  reader : Reader := {}

inductive Action where
  | «begin» (immediate : Bool)
  /-- A row the log appends in its transaction. -/
  | append (row : StoredMessage)
  | commit
  | rollback
  /-- The commit of another connection, which leaves these rows behind. -/
  | foreign (rows : Rows)
  | snapshot (afterSeq : Int) (throughSeq : Option Int)

/-- The log's own connection opens a transaction, appends in it and ends it. -/
def Log.next (log : Log) : Action → Option Log
  | .begin immediate =>
      match log.transaction with
      | none => some { log with transaction := some ⟨immediate, log.committed⟩ }
      | some _ => none
  | .append row =>
      match log.transaction with
      | some ⟨true, view⟩ =>
          if h : (∀ x ∈ view.rows, x.seq < row.seq) ∧ Bindable row.seq then
            some { log with transaction := some ⟨true, view.push row h⟩ }
          else none
      | _ => none
  | .commit =>
      match log.transaction with
      | some ⟨true, view⟩ => some { log with committed := view, transaction := none }
      | some ⟨false, _⟩ => some { log with transaction := none }
      | none => none
  | .rollback => if log.transaction.isSome then some { log with transaction := none } else none
  | .foreign rows =>
      match log.transaction with
      | some ⟨true, _⟩ => none
      | _ => some { log with committed := rows, dataVersion := log.dataVersion + 1 }
  | .snapshot _ _ => some log

/-- A step of the log, and the reader's own change in a call. -/
def next (codec : RowCodec) (s : State) (a : Action) : Option State := do
  let log ← s.log.next a
  match a with
  | .snapshot afterSeq throughSeq =>
      return ⟨log, (s.reader.snapshot codec s.log afterSeq throughSeq).2⟩
  | _ => return ⟨log, s.reader⟩

/-- A reader of any log: nothing is decoded yet, no transaction is open. -/
def machine (codec : RowCodec) : Machine State Action where
  start s := s.log.transaction = none ∧ s.reader = {}
  next := next codec

/-! ## Rows and the messages they decode to -/

section Decoding

variable {codec : RowCodec} {r : Rows} {a b c : Int}

theorem message_seq {row : StoredMessage} {m : Message} (h : message codec row = .ok m) :
    (m.seq : Int) = row.seq := by
  obtain ⟨recordedAt, -, h⟩ := Except.bind_eq_ok.mp h
  obtain ⟨body, -, h⟩ := Except.bind_eq_ok.mp h
  obtain ⟨raw, -, h⟩ := Except.bind_eq_ok.mp h
  obtain ⟨metadata, -, h⟩ := Except.bind_eq_ok.mp h
  obtain ⟨_, -, h⟩ := Except.bind_eq_ok.mp h
  obtain ⟨_, hseq, h⟩ := Except.bind_eq_ok.mp h
  have hseq : 0 ≤ row.seq := ensure_eq_ok.mp hseq
  cases recordedAt with
  | none => cases h
  | some at_ =>
      have hfields := (Message.make_fields h).2.2.1
      omega

/-- Decoded rows stand at the seqs of their rows. -/
theorem mapM_seqs {rows : List StoredMessage} {messages : List Message}
    (h : rows.mapM (message codec) = .ok messages) :
    messages.map (fun m => (m.seq : Int)) = rows.map (·.seq) := by
  induction rows generalizing messages with
  | nil =>
      cases h
      rfl
  | cons row rows ih =>
      rw [List.mapM_cons] at h
      obtain ⟨m, hm, h⟩ := Except.bind_eq_ok.mp h
      obtain ⟨ms, hms, h⟩ := Except.bind_eq_ok.mp h
      cases h
      rw [List.map_cons, List.map_cons, ih hms, message_seq hm]

theorem decoded_sorted {messages : List Message}
    (h : (r.range a b).mapM (message codec) = .ok messages) :
    messages.Pairwise fun x y => (x.seq : Int) < y.seq := by
  have hrows : ((r.range a b).map (·.seq)).Pairwise (· < ·) :=
    List.pairwise_map.mpr (window_sorted r.sorted)
  rw [← mapM_seqs h] at hrows
  exact List.pairwise_map.mp hrows

/-- The last decoded message stands where the last row does. -/
theorem last_decoded {rows : List StoredMessage} {messages : List Message} {row : StoredMessage}
    (h : rows.mapM (message codec) = .ok messages) (hlast : rows.getLast? = some row) :
    ∃ m, messages.getLast? = some m ∧ (m.seq : Int) = row.seq := by
  have hseqs := congrArg List.getLast? (mapM_seqs h)
  rw [List.getLast?_map, List.getLast?_map, hlast, Option.map_some] at hseqs
  exact Option.map_eq_some_iff.mp hseqs

/-- Decoding goes along with a choice by seq. -/
theorem mapM_filter {rows : List StoredMessage} {messages : List Message}
    (h : rows.mapM (message codec) = .ok messages) (p : Int → Bool) :
    (rows.filter fun x => p x.seq).mapM (message codec) =
      .ok (messages.filter fun m => p m.seq) := by
  induction rows generalizing messages with
  | nil =>
      cases h
      rfl
  | cons row rows ih =>
      rw [List.mapM_cons] at h
      obtain ⟨m, hm, h⟩ := Except.bind_eq_ok.mp h
      obtain ⟨ms, hms, h⟩ := Except.bind_eq_ok.mp h
      cases h
      rw [List.filter_cons, List.filter_cons, message_seq hm]
      cases p row.seq with
      | false => exact ih hms
      | true =>
          rw [if_pos rfl, if_pos rfl, List.mapM_cons, hm, ih hms]
          rfl

theorem mem_range {row : StoredMessage} :
    row ∈ r.range a b ↔ row ∈ r.rows ∧ a < row.seq ∧ row.seq ≤ b := by
  rw [Rows.range, mem_window, Int.lt_add_one_iff]

theorem range_empty (h : b ≤ a) : r.range a b = [] := by
  refine List.eq_nil_iff_forall_not_mem.mpr fun row hrow => ?_
  have hmem := mem_range.mp hrow
  omega

theorem range_append (hab : a ≤ b) (hbc : b ≤ c) :
    r.range a b ++ r.range b c = r.range a c := by
  have hsplit := filter_append_filter_of_sorted r.sorted
    (fun x => decide (a < x.seq ∧ x.seq < c + 1)) b
  have hleft : (r.rows.filter fun x => decide (a < x.seq ∧ x.seq < c + 1) && decide (x.seq ≤ b)) =
      r.range a b := by
    refine List.filter_congr fun x _ => ?_
    rw [← Bool.decide_and]
    exact decide_eq_decide.mpr (by omega)
  have hright : (r.rows.filter fun x => decide (a < x.seq ∧ x.seq < c + 1) && decide (b < x.seq)) =
      r.range b c := by
    refine List.filter_congr fun x _ => ?_
    rw [← Bool.decide_and]
    exact decide_eq_decide.mpr (by omega)
  rw [hleft, hright] at hsplit
  exact hsplit

/-- No row of the Session is past its head. -/
theorem seq_le_head {row : StoredMessage} (h : row ∈ r.rows) : row.seq ≤ r.head := by
  have hmem : row.seq ∈ r.rows.map (·.seq) := List.mem_map_of_mem h
  cases hmax : (r.rows.map (·.seq)).max? with
  | none =>
      rw [List.max?_eq_none_iff] at hmax
      rw [hmax] at hmem
      cases hmem
  | some m =>
      rw [Rows.head, hmax]
      exact (List.max?_eq_some_iff.mp hmax).2 _ hmem

theorem head_lt (r : Rows) : r.head < 2 ^ 63 := by
  cases hmax : (r.rows.map (·.seq)).max? with
  | none =>
      rw [Rows.head, hmax]
      decide
  | some m =>
      rw [Rows.head, hmax]
      obtain ⟨row, hrow, rfl⟩ := List.mem_map.mp (List.max?_eq_some_iff.mp hmax).1
      exact (r.stored row hrow).2

theorem range_min (a b : Int) : r.range a (min r.head b) = r.range a b := by
  refine List.filter_congr fun x hx => ?_
  have hle := seq_le_head hx
  exact decide_eq_decide.mpr (by omega)

/-- What was decoded before rows are appended behind it. -/
theorem range_push {row : StoredMessage} (h : (∀ x ∈ r.rows, x.seq < row.seq) ∧ Bindable row.seq) (hb : b < row.seq) :
    (r.push row h).range a b = r.range a b := by
  refine window_append fun x hx => ?_
  rw [List.mem_singleton.mp hx]
  omega

end Decoding

/-! ## What the plain reader returns -/

section Plain

variable {codec : RowCodec} {r : Rows} {a b : Int}

/-- The refusal of `read`. -/
def badRange : Error := ⟨.valueError, "读取需要正 limit 和不小于 -1 的 after_seq"⟩

theorem read_eq (ha : -1 ≤ a) (hab : a < b) (hb : b < 2 ^ 63) :
    read codec r a (some b) = ((r.range a b).take 1000).mapM (message codec) := by
  have hfound : (r.rows.filter fun x => decide (a < x.seq ∧ ∀ t, some b = some t → x.seq ≤ t)) =
      r.range a b := by
    refine List.filter_congr fun x _ => decide_eq_decide.mpr ?_
    simp
  have hbound : Bindable a ∧ (∀ t, some b = some t → Bindable t) ∧ Bindable 1000 := by
    refine ⟨⟨by omega, by omega⟩, fun t ht => ?_, by decide⟩
    cases ht
    exact ⟨by omega, hb⟩
  unfold read
  simp only [hfound]
  rw [ensure, if_pos ⟨by decide, ha⟩, ensure, if_pos hbound]
  rfl

theorem read_refused (ha : a < -1) : read codec r a (some b) = .error badRange := by
  unfold read
  rw [ensure, if_neg (by omega)]
  rfl

theorem read_overflow (ha : -1 ≤ a) (hb : 2 ^ 63 ≤ b) : read codec r a (some b) = .error overflow := by
  have hbound : ¬ (Bindable a ∧ (∀ t, some b = some t → Bindable t) ∧ Bindable 1000) :=
    fun h => absurd (h.2.1 b rfl).2 (not_lt.mpr hb)
  unfold read
  rw [ensure, if_pos ⟨by decide, ha⟩, ensure, if_neg hbound]
  rfl

/-- The loop reads the whole range, one page after the other. -/
theorem pages_eq (ha : -1 ≤ a) (hb : b < 2 ^ 63) {n : Nat} (hn : (r.range a b).length < n) :
    pages codec r b n a = (r.range a b).mapM (message codec) := by
  induction n generalizing a with
  | zero => omega
  | succ n ih =>
      rw [pages]
      by_cases hab : a < b
      · rw [if_pos hab, read_eq ha hab hb]
        by_cases hnone : r.range a b = []
        · rw [hnone]
          rfl
        · have hlong : 0 < (r.range a b).length := List.length_pos_iff.mpr hnone
          have hfront : (r.range a b).take 1000 ≠ [] := by simpa using hnone
          obtain ⟨x, hx, hlast, hrest⟩ :=
            window_front r.sorted hfront (List.take_append_drop 1000 _).symm
          have hbehind : r.range x.seq b = (r.range a b).drop 1000 := hrest
          have hshort : (r.range x.seq b).length < n := by
            rw [hbehind, List.length_drop]
            omega
          have hnext := ih (le_trans ha (mem_range.mp hx).2.1.le) hshort
          conv_rhs => rw [← List.take_append_drop 1000 (r.range a b), List.mapM_append, ← hbehind]
          cases hpage : ((r.range a b).take 1000).mapM (message codec) with
          | error e => rfl
          | ok page =>
              obtain ⟨m, hm, hseq⟩ := last_decoded hpage hlast
              simp only [bind, Except.bind, hm, hseq, hnext]
      · rw [if_neg hab, range_empty (not_lt.mp hab)]
        rfl

/-- The plain reader refuses a cursor that it has to read from, or a bound that it has to read up to, and
decodes the range otherwise. -/
theorem plain_eq (codec : RowCodec) (r : Rows) (afterSeq : Int) (throughSeq : Option Int) :
    plain codec r afterSeq throughSeq =
      if afterSeq < throughSeq.getD r.head ∧ afterSeq < -1 then .error badRange
      else if afterSeq < throughSeq.getD r.head ∧ 2 ^ 63 ≤ throughSeq.getD r.head then .error overflow
      else (r.range afterSeq (throughSeq.getD r.head)).mapM (message codec) := by
  generalize hb : throughSeq.getD r.head = b
  have hlen : (r.range afterSeq b).length < r.rows.length + 1 :=
    Nat.lt_succ_of_le (List.length_filter_le _ _)
  rw [plain, hb]
  by_cases hlt : afterSeq < b
  · by_cases hlow : afterSeq < -1
    · rw [if_pos ⟨hlt, hlow⟩, pages, if_pos hlt, read_refused hlow]
      rfl
    · rw [if_neg fun h => hlow h.2]
      by_cases hhigh : 2 ^ 63 ≤ b
      · rw [if_pos ⟨hlt, hhigh⟩, pages, if_pos hlt, read_overflow (not_lt.mp hlow) hhigh]
        rfl
      · rw [if_neg fun h => hhigh h.2]
        exact pages_eq (not_lt.mp hlow) (not_le.mp hhigh) hlen
  · rw [if_neg fun h => hlt h.1, if_neg fun h => hlt h.1, pages, if_neg hlt, range_empty (not_lt.mp hlt)]
    rfl

end Plain

/-! ## What is kept -/

section Kept

variable {codec : RowCodec} {r : Rows} {a b c : Int} {messages kept added : List Message}

/-- The messages are the decoded front of the Session, up to the last of them. -/
def Kept (codec : RowCodec) (r : Rows) (messages : List Message) : Prop :=
  (r.range (-1) (lastSeq messages)).mapM (message codec) = .ok messages

theorem neg_one_le_lastSeq (messages : List Message) : -1 ≤ lastSeq messages := by
  unfold lastSeq
  cases messages.getLast? <;> simp

theorem kept_nil (codec : RowCodec) (r : Rows) : Kept codec r [] := by
  have hnone : r.range (-1) (lastSeq []) = [] := range_empty (le_refl _)
  rw [Kept, hnone]
  rfl

/-- A front that was read up to any bound. -/
theorem kept_of_range (h : (r.range (-1) b).mapM (message codec) = .ok messages) :
    Kept codec r messages := by
  by_cases hnone : r.range (-1) b = []
  · rw [hnone] at h
    cases h
    exact kept_nil codec r
  · obtain ⟨x, hx, hlast, hrest⟩ := window_front r.sorted hnone (List.append_nil _).symm
    obtain ⟨m, hm, hseq⟩ := last_decoded h hlast
    have hbehind : r.range x.seq b = [] := hrest
    have hlastSeq : lastSeq messages = x.seq := by simp [lastSeq, hm, hseq]
    have hall := range_append (mem_range.mp hx).2.1.le (mem_range.mp hx).2.2 (r := r)
    rw [hbehind, List.append_nil] at hall
    rw [Kept, hlastSeq, hall]
    exact h

/-- What is kept and the rows behind it up to `b` are a front. -/
theorem Kept.append (hkept : Kept codec r kept)
    (hadded : (r.range (lastSeq kept) b).mapM (message codec) = .ok added) :
    (r.range (-1) (max (lastSeq kept) b)).mapM (message codec) = .ok (kept ++ added) := by
  rcases le_total (lastSeq kept) b with hle | hle
  · rw [max_eq_right hle, ← range_append (neg_one_le_lastSeq kept) hle, List.mapM_append, hkept,
      hadded]
    rfl
  · rw [range_empty hle] at hadded
    have hnil : added = [] := (Except.ok.inj hadded).symm
    rw [max_eq_left hle, hnil, List.append_nil]
    exact hkept

/-- An append leaves the front as it is. -/
theorem Kept.push (hkept : Kept codec r kept) {row : StoredMessage}
    (h : (∀ x ∈ r.rows, x.seq < row.seq) ∧ Bindable row.seq) : Kept codec (r.push row h) kept := by
  by_cases hnone : kept = []
  · subst hnone
    exact kept_nil codec _
  · obtain ⟨m, hm⟩ := Option.ne_none_iff_exists'.mp fun hlast =>
      hnone (List.getLast?_eq_none_iff.mp hlast)
    have hmem : (m.seq : Int) ∈ kept.map fun m => (m.seq : Int) :=
      List.mem_map_of_mem (List.mem_of_getLast? hm)
    rw [mapM_seqs hkept] at hmem
    obtain ⟨x, hx, hseq⟩ := List.mem_map.mp hmem
    have hlt : lastSeq kept < row.seq := by
      have hx' := h.1 x (mem_range.mp hx).1
      simpa [lastSeq, hm, ← hseq] using hx'
    rw [Kept, range_push h hlt]
    exact hkept

theorem Kept.decodes (hkept : Kept codec r kept) {row : StoredMessage} (hrow : row ∈ r.rows)
    (hlow : -1 < row.seq) (hle : row.seq ≤ lastSeq kept) : ∃ m, message codec row = .ok m :=
  Except.ok_of_mapM hkept (mem_range.mpr ⟨hrow, hlow, hle⟩)

/-- The slice of a front that was read up to `c`. -/
theorem slice_eq (h : (r.range (-1) c).mapM (message codec) = .ok messages) (ha : -1 ≤ a)
    (hb : b ≤ c) : (r.range a b).mapM (message codec) = .ok (slice messages a b) := by
  have hinner : (r.range (-1) c).filter (fun x => decide (a < x.seq ∧ x.seq ≤ b)) =
      r.range a b := by
    have hwindow : window StoredMessage.seq a (b + 1) (r.range (-1) c) = r.range a b :=
      window_window ha (by omega)
    rw [← hwindow]
    exact List.filter_congr fun x _ => decide_eq_decide.mpr (by rw [Int.lt_add_one_iff])
  rw [slice, slice_bisectRight (decoded_sorted h), ← hinner]
  exact mapM_filter h fun n => decide (a < n ∧ n ≤ b)

theorem slice_empty (h : (r.range (-1) c).mapM (message codec) = .ok messages) (hba : b ≤ a) :
    slice messages a b = [] := by
  rw [slice, slice_bisectRight (decoded_sorted h)]
  refine List.filter_eq_nil_iff.mpr fun m _ => ?_
  simp only [decide_eq_true_eq]
  omega

/-- Where the rows of a range decode, reading on past it raises what is raised behind
it. -/
theorem mapM_behind (hab : a ≤ b) (hbc : b ≤ c)
    (hok : ∀ row ∈ r.range a b, ∃ m, message codec row = .ok m) {e : Error} :
    (r.range a c).mapM (message codec) = .error e ↔
      (r.range b c).mapM (message codec) = .error e := by
  obtain ⟨out, hout⟩ := Except.mapM_ok hok
  rw [← range_append hab hbc, List.mapM_append, hout]
  cases (r.range b c).mapM (message codec) with
  | error e' => exact Iff.rfl
  | ok _ => exact iff_of_false (fun h => by cases h) (fun h => by cases h)

end Kept

/-! ## A call -/

section Call

variable {codec : RowCodec} {log : Log} {reader : Reader} {afterSeq : Int}
  {throughSeq : Option Int}

/-- The bound of a call, as the plain reader fixes it. -/
def Log.bound (log : Log) (throughSeq : Option Int) : Int := throughSeq.getD log.view.head

/-- The messages a call may build on. -/
def Reader.kept (reader : Reader) (log : Log) : List Message :=
  if reader.dataVersion = some log.dataVersion then reader.messages else []

/-- A call the two readers agree on: inside a transaction every call, and outside one a
call whose cursor and bound the plain reader takes and before whose cursor every row decodes. -/
def Alike (codec : RowCodec) (log : Log) (afterSeq : Int) (throughSeq : Option Int) : Prop :=
  log.transaction.isSome ∨
    ((-1 ≤ afterSeq ∧ log.bound throughSeq < 2 ^ 63 ∨ log.bound throughSeq ≤ afterSeq) ∧
      ∀ row ∈ log.committed.rows, -1 < row.seq → row.seq ≤ afterSeq →
        row.seq ≤ log.bound throughSeq → ∃ m, message codec row = .ok m)

/-- What a call outside a transaction does, given the front that is kept: it decodes the
rows behind the front up to the bound and cuts the range out of both. -/
theorem snapshot_eq (htx : log.transaction = none) :
    reader.snapshot codec log afterSeq throughSeq =
      match (log.committed.range (lastSeq (reader.kept log)) (log.bound throughSeq)).mapM
          (message codec) with
      | .error e => (.error e, reader)
      | .ok added => (.ok (slice (reader.kept log ++ added) afterSeq
          (min log.committed.head (log.bound throughSeq))),
          ⟨reader.kept log ++ added, some log.dataVersion⟩) := by
  have hview : log.view = log.committed := by rw [Log.view, htx]; rfl
  have hthrough : throughSeq.elim log.committed.head (min log.committed.head) =
      min log.committed.head (log.bound throughSeq) := by
    cases throughSeq with
    | none => simp [Log.bound, hview]
    | some t => rfl
  have hprevious := neg_one_le_lastSeq (reader.kept log)
  have hhead := head_lt log.committed
  rw [Reader.snapshot, htx]
  simp only [Option.isSome_none, Bool.false_eq_true, if_false, hthrough]
  rw [← Reader.kept]
  by_cases hlt : lastSeq (reader.kept log) < min log.committed.head (log.bound throughSeq)
  · rw [if_pos hlt, plain_eq, Option.getD_some, if_neg (by omega), if_neg (by omega), range_min]
  · rw [if_neg hlt, ← range_min, range_empty (not_lt.mp hlt)]
    rfl

/-- The front is kept, and with it a front of the version it was read at. -/
theorem kept_snapshot (htx : log.transaction = none)
    (hkept : Kept codec log.committed (reader.kept log)) :
    (reader.snapshot codec log afterSeq throughSeq).2 = reader ∨
      ∃ messages, Kept codec log.committed messages ∧
        (reader.snapshot codec log afterSeq throughSeq).2 = ⟨messages, some log.dataVersion⟩ := by
  rw [snapshot_eq htx]
  cases hadded : (log.committed.range (lastSeq (reader.kept log)) (log.bound throughSeq)).mapM
      (message codec) with
  | error e => exact Or.inl rfl
  | ok added =>
      exact Or.inr ⟨_, kept_of_range (hkept.append hadded), rfl⟩

/-- A call that is alike returns, or raises, what the plain reader does. -/
theorem snapshot_of_alike (hkept : Kept codec log.committed (reader.kept log))
    (halike : Alike codec log afterSeq throughSeq) :
    (reader.snapshot codec log afterSeq throughSeq).1 =
      plain codec log.view afterSeq throughSeq := by
  cases htx : log.transaction with
  | some t => simp [Reader.snapshot, htx]
  | none =>
      have hview : log.view = log.committed := by rw [Log.view, htx]; rfl
      obtain ⟨hcursor, hbefore⟩ := halike.resolve_left (by simp [htx])
      have hplain := plain_eq codec log.view afterSeq throughSeq
      rw [← Log.bound, if_neg (by omega), if_neg (by omega), hview] at hplain
      rw [snapshot_eq htx, hview, hplain]
      generalize log.bound throughSeq = bound at hcursor hbefore
      have hprevious := neg_one_le_lastSeq (reader.kept log)
      cases hadded : (log.committed.range (lastSeq (reader.kept log)) bound).mapM
          (message codec) with
      | error e =>
          have hlt : lastSeq (reader.kept log) < bound := by
            by_contra hle
            rw [range_empty (not_lt.mp hle)] at hadded
            cases hadded
          have hafter : -1 ≤ afterSeq := by omega
          symm
          rcases le_total afterSeq (lastSeq (reader.kept log)) with hle | hle
          · refine (mapM_behind hle hlt.le fun row hrow => ?_).mpr hadded
            obtain ⟨hmem, hlow, hup⟩ := mem_range.mp hrow
            exact hkept.decodes hmem (by omega) hup
          · rcases le_total afterSeq bound with hle' | hle'
            · refine (mapM_behind hle hle' fun row hrow => ?_).mp hadded
              obtain ⟨hmem, hlow, hup⟩ := mem_range.mp hrow
              exact hbefore row hmem (by omega) hup (by omega)
            · obtain ⟨out, hout⟩ := Except.mapM_ok (f := message codec)
                (l := log.committed.range (lastSeq (reader.kept log)) bound) fun row hrow => by
                  obtain ⟨hmem, hlow, hup⟩ := mem_range.mp hrow
                  exact hbefore row hmem (by omega) (by omega) hup
              rw [hout] at hadded
              cases hadded
      | ok added =>
          have hfront := hkept.append hadded
          symm
          rcases hcursor with ⟨hafter, _⟩ | hle
          · rw [← range_min]
            exact slice_eq hfront hafter (by omega)
          · have hnone : slice (reader.kept log ++ added) afterSeq
                (min log.committed.head bound) = [] := slice_empty hfront (by omega)
            simp only [hnone, range_empty hle]
            rfl

/-- Where the rows behind the cursor decode, the calls that agree are alike. -/
theorem alike_of_snapshot (hkept : Kept codec log.committed (reader.kept log))
    (hbehind : ∀ row ∈ log.view.rows, max afterSeq (-1) < row.seq →
      row.seq ≤ log.bound throughSeq → ∃ m, message codec row = .ok m)
    (hcodec : 2 ^ 63 ≤ log.bound throughSeq → ∀ row ∈ log.view.rows, message codec row ≠ .error overflow)
    (heq : (reader.snapshot codec log afterSeq throughSeq).1 =
      plain codec log.view afterSeq throughSeq) :
    Alike codec log afterSeq throughSeq := by
  cases htx : log.transaction with
  | some t => exact Or.inl (by simp [htx])
  | none =>
      have hview : log.view = log.committed := by rw [Log.view, htx]; rfl
      have hprevious := neg_one_le_lastSeq (reader.kept log)
      rw [snapshot_eq htx, plain_eq, ← Log.bound, hview] at heq
      rw [hview] at hbehind hcodec
      generalize hb : log.bound throughSeq = bound at heq hbehind hcodec
      right
      rw [hb]
      by_cases hcursor : -1 ≤ afterSeq ∧ bound < 2 ^ 63 ∨ bound ≤ afterSeq
      · refine ⟨hcursor, fun row hrow hlow hafter hup => ?_⟩
        rw [if_neg (by omega), if_neg (by omega)] at heq
        obtain ⟨out, hout⟩ := Except.mapM_ok (f := message codec)
          (l := log.committed.range afterSeq bound) fun row hrow => by
            obtain ⟨hmem, hlow, hup⟩ := mem_range.mp hrow
            exact hbehind row hmem (by omega) hup
        rw [hout] at heq
        cases hadded : (log.committed.range (lastSeq (reader.kept log)) bound).mapM
            (message codec) with
        | error e =>
            rw [hadded] at heq
            cases heq
        | ok added =>
            exact Except.ok_of_mapM (hkept.append hadded)
              (mem_range.mpr ⟨hrow, hlow, le_max_of_le_right hup⟩)
      · exfalso
        by_cases hlow : afterSeq < -1
        · rw [if_pos (by omega)] at heq
          obtain ⟨added, hadded⟩ := Except.mapM_ok (f := message codec)
            (l := log.committed.range (lastSeq (reader.kept log)) bound) fun row hrow => by
              obtain ⟨hmem, hlow, hup⟩ := mem_range.mp hrow
              exact hbehind row hmem (by omega) hup
          rw [hadded] at heq
          cases heq
        · -- What the incremental reader raises is raised by a row.
          rw [if_neg (by omega), if_pos (by omega)] at heq
          cases hadded : (log.committed.range (lastSeq (reader.kept log)) bound).mapM
              (message codec) with
          | error e =>
              rw [hadded] at heq
              cases heq
              obtain ⟨row, hrow, hraises⟩ := Except.raised_of_mapM hadded
              exact hcodec (by omega) row (mem_range.mp hrow).1 hraises
          | ok added =>
              rw [hadded] at heq
              cases heq

end Call

/-! ## Runs -/

/-- The messages are a front of the committed rows and of those a writing transaction
sees. -/
structure Front (codec : RowCodec) (log : Log) (messages : List Message) : Prop where
  committed : Kept codec log.committed messages
  view : ∀ r, log.transaction = some ⟨true, r⟩ → Kept codec r messages

/-- What every step keeps. -/
structure Inv (codec : RowCodec) (s : State) : Prop where
  front : Front codec s.log (s.reader.kept s.log)
  version_le : ∀ v, s.reader.dataVersion = some v → v ≤ s.log.dataVersion

section Runs

variable {codec : RowCodec} {s t : State} {a : Action} {log log' : Log} {messages : List Message}

theorem front_nil (codec : RowCodec) (log : Log) : Front codec log [] :=
  ⟨kept_nil _ _, fun _ _ => kept_nil _ _⟩

/-- The log's own connection only appends: it leaves every front, and the version. -/
theorem front_next (h : Front codec log messages) (hn : log.next a = some log')
    (ha : ∀ rows, a ≠ .foreign rows) :
    Front codec log' messages ∧ log'.dataVersion = log.dataVersion := by
  cases a with
  | «begin» immediate =>
      cases htx : log.transaction with
      | some tx => simp [Log.next, htx] at hn
      | none =>
          simp only [Log.next, htx, Option.some.injEq] at hn
          subst hn
          refine ⟨⟨h.committed, fun r hr => ?_⟩, rfl⟩
          cases hr
          exact h.committed
  | append row =>
      cases htx : log.transaction with
      | none => simp [Log.next, htx] at hn
      | some tx =>
          obtain ⟨immediate, view⟩ := tx
          cases immediate with
          | false => simp [Log.next, htx] at hn
          | true =>
              simp only [Log.next, htx, Option.dite_none_right_eq_some, Option.some.injEq] at hn
              obtain ⟨hrow, hn⟩ := hn
              subst hn
              refine ⟨⟨h.committed, fun r hr => ?_⟩, rfl⟩
              cases hr
              exact (h.view view htx).push hrow
  | commit =>
      cases htx : log.transaction with
      | none => simp [Log.next, htx] at hn
      | some tx =>
          obtain ⟨immediate, view⟩ := tx
          cases immediate with
          | false =>
              simp only [Log.next, htx, Option.some.injEq] at hn
              subst hn
              exact ⟨⟨h.committed, fun r hr => by cases hr⟩, rfl⟩
          | true =>
              simp only [Log.next, htx, Option.some.injEq] at hn
              subst hn
              exact ⟨⟨h.view view htx, fun r hr => by cases hr⟩, rfl⟩
  | rollback =>
      simp only [Log.next, Option.ite_none_right_eq_some, Option.some.injEq] at hn
      obtain ⟨-, hn⟩ := hn
      subst hn
      exact ⟨⟨h.committed, fun r hr => by cases hr⟩, rfl⟩
  | foreign rows => exact absurd rfl (ha rows)
  | snapshot afterSeq throughSeq =>
      cases hn
      exact ⟨h, rfl⟩

/-- Another connection's commit moves the version. -/
theorem foreign_next {rows : Rows} (hn : log.next (.foreign rows) = some log') :
    log'.dataVersion = log.dataVersion + 1 := by
  simp only [Log.next] at hn
  split at hn
  · cases hn
  · cases hn
    rfl

theorem inv_start (h : (machine codec).start s) : Inv codec s := by
  obtain ⟨-, hreader⟩ := h
  have hnone : s.reader.kept s.log = [] := by simp [hreader, Reader.kept]
  refine ⟨?_, ?_⟩
  · rw [hnone]
    exact front_nil _ _
  · intro v hv
    simp [hreader] at hv

/-- A step that leaves the reader alone. -/
theorem inv_log (h : Inv codec s) (hn : s.log.next a = some log') :
    Inv codec ⟨log', s.reader⟩ := by
  by_cases ha : ∃ rows, a = .foreign rows
  · obtain ⟨rows, rfl⟩ := ha
    have hversion := foreign_next hn
    -- The version has moved past the one the messages were read at.
    have hnone : s.reader.kept log' = [] := by
      refine if_neg fun hv => ?_
      have hle := h.version_le _ hv
      omega
    refine ⟨?_, fun v hv => ?_⟩
    · show Front codec log' (s.reader.kept log')
      rw [hnone]
      exact front_nil _ _
    · have hle := h.version_le v hv
      show v ≤ log'.dataVersion
      omega
  · obtain ⟨hfront, hversion⟩ := front_next h.front hn fun rows hrows => ha ⟨rows, hrows⟩
    have hkept : s.reader.kept log' = s.reader.kept s.log := by
      rw [Reader.kept, Reader.kept, hversion]
    refine ⟨?_, fun v hv => ?_⟩
    · show Front codec log' (s.reader.kept log')
      rw [hkept]
      exact hfront
    · show v ≤ log'.dataVersion
      rw [hversion]
      exact h.version_le v hv

/-- A call. -/
theorem inv_snapshot (h : Inv codec s) (afterSeq : Int) (throughSeq : Option Int) :
    Inv codec ⟨s.log, (s.reader.snapshot codec s.log afterSeq throughSeq).2⟩ := by
  cases htx : s.log.transaction with
  | some tx =>
      have hsame : (s.reader.snapshot codec s.log afterSeq throughSeq).2 = s.reader := by
        simp [Reader.snapshot, htx]
      rw [hsame]
      exact h
  | none =>
      rcases @kept_snapshot _ _ _ afterSeq throughSeq htx h.front.committed with hsame | ⟨messages, hkept, hread⟩
      · rw [hsame]
        exact h
      · rw [hread]
        refine ⟨⟨?_, ?_⟩, ?_⟩
        · simpa [Reader.kept] using hkept
        · intro r hr
          simp [htx] at hr
        · intro v hv
          cases hv
          exact le_rfl

theorem inv_next (h : Inv codec s) (hn : (machine codec).next s a = some t) : Inv codec t := by
  obtain ⟨log', hlog, ht⟩ := Option.bind_eq_some_iff.mp hn
  have hkeep := inv_log h hlog
  cases a with
  | snapshot afterSeq throughSeq =>
      cases ht
      cases hlog
      exact inv_snapshot h afterSeq throughSeq
  | «begin» _ => cases ht; exact hkeep
  | append _ => cases ht; exact hkeep
  | commit => cases ht; exact hkeep
  | rollback => cases ht; exact hkeep
  | foreign _ => cases ht; exact hkeep

theorem inv_reachable (hs : (machine codec).Reachable s) : Inv codec s :=
  hs.invariant (fun _ h => inv_start h) fun _ _ _ h _ hn => inv_next h hn

/-- In every state of every run, a call that is alike returns what the plain reader
returns, and where the rows behind the cursor decode, and none raises what SQLite does, no other
call does. -/
theorem snapshot_agrees (hs : (machine codec).Reachable s) (afterSeq : Int)
    (throughSeq : Option Int) :
    (Alike codec s.log afterSeq throughSeq →
      (s.reader.snapshot codec s.log afterSeq throughSeq).1 =
        plain codec s.log.view afterSeq throughSeq) ∧
    ((∀ row ∈ s.log.view.rows, max afterSeq (-1) < row.seq →
        row.seq ≤ s.log.bound throughSeq → ∃ m, message codec row = .ok m) →
      (2 ^ 63 ≤ s.log.bound throughSeq → ∀ row ∈ s.log.view.rows, message codec row ≠ .error overflow) →
      (s.reader.snapshot codec s.log afterSeq throughSeq).1 =
        plain codec s.log.view afterSeq throughSeq →
      Alike codec s.log afterSeq throughSeq) :=
  ⟨snapshot_of_alike (inv_reachable hs).front.committed,
    alike_of_snapshot (inv_reachable hs).front.committed⟩

end Runs

/-! ## Two calls the readers do not agree on -/

/-- The decoders on the columns of the rows below. -/
def exampleCodec : RowCodec where
  fromisoformat ts :=
    if ts = "1970-01-01T00:00:00+00:00" then .ok (some 0)
    else .error ⟨.valueError, "Invalid isoformat string: " ++ ts⟩
  decodeBody body :=
    if body = "\x7b\"kind\":\"input\",\"parts\":[]\x7d" then .ok (.input ⟨[]⟩)
    else .error ⟨.valueError, "消息 body 必须是对象"⟩
  jsonObject raw :=
    if raw = "\x7b\x7d" then .ok [] else .error ⟨.valueError, "metadata 必须是 JSON 对象"⟩

def exampleRow (id : String) (seq : Int) (body : String) : StoredMessage :=
  ⟨id, "s", seq, "1970-01-01T00:00:00+00:00", "user", "chat", body, some "\x7b\x7d"⟩

def exampleInput (id : String) : StoredMessage :=
  exampleRow id 1 "\x7b\"kind\":\"input\",\"parts\":[]\x7d"

/-- An input, and before it a row another connection has overwritten. -/
def exampleRows : Rows where
  rows := [exampleRow "a" 0 "[]", exampleInput "b"]
  sorted := by decide
  stored := by decide

def exampleState : State := ⟨⟨exampleRows, 0, none⟩, {}⟩

theorem exampleInput_stored (id : String) : ∀ x ∈ [exampleInput id], Bindable x.seq := by
  have hone : Bindable 1 := by decide
  intro x hx
  rw [List.mem_singleton.mp hx]
  exact hone

/-- One input. -/
def exampleOne (id : String) : Rows := ⟨[exampleInput id], List.pairwise_singleton _ _, exampleInput_stored id⟩

def exampleMessage (id : String) : Message :=
  ⟨id, "s", 1, 0, "user", "chat", .input ⟨[]⟩, [], by simp⟩

/-- A reader that has decoded a row which another connection has replaced since. -/
def exampleReplaced : State :=
  ⟨⟨exampleOne "c", 1, none⟩, ⟨[exampleMessage "b"], some 0⟩⟩

theorem exampleReplaced_reachable : (machine exampleCodec).Reachable exampleReplaced :=
  ⟨⟨⟨exampleOne "b", 0, none⟩, {}⟩, ⟨rfl, rfl⟩,
    .step (.foreign (exampleOne "c"))
      (.step (.snapshot (-1) none) .refl trivial rfl) trivial rfl⟩

theorem snapshot_agrees_example :
    (exampleReplaced.reader.snapshot exampleCodec exampleReplaced.log 0 (some 5)).1 =
        plain exampleCodec exampleReplaced.log.view 0 (some 5) ∧
      Alike exampleCodec exampleReplaced.log 0 (some 5) := by
  have hagrees := snapshot_agrees exampleReplaced_reachable 0 (some 5)
  have hsame : (exampleReplaced.reader.snapshot exampleCodec exampleReplaced.log 0 (some 5)).1 =
      plain exampleCodec exampleReplaced.log.view 0 (some 5) := by
    refine hagrees.1 (Or.inr ⟨Or.inl ⟨by decide, by decide⟩, fun row hrow hlow hup _ => ?_⟩)
    rw [List.mem_singleton.mp hrow] at hup
    exact absurd hup (by decide)
  have hbehind : ∀ row ∈ exampleReplaced.log.view.rows, max 0 (-1) < row.seq →
      row.seq ≤ exampleReplaced.log.bound (some 5) → ∃ m, message exampleCodec row = .ok m := by
    intro row hrow _ _
    rw [List.mem_singleton.mp hrow]
    exact ⟨exampleMessage "c", by decide⟩
  exact ⟨hsame, hagrees.2 hbehind (fun hhigh => absurd hhigh (by decide)) hsame⟩

def exampleEmpty : State := ⟨⟨⟨[], .nil, Rows.stored_nil⟩, 0, none⟩, {}⟩

/-- Over no rows at all the plain reader refuses the cursor `-2`, and the bound `2 ^ 63`; and behind
the overwritten row it returns the input, where the incremental one raises. -/
theorem snapshot_differs :
    ((machine exampleCodec).Reachable exampleEmpty ∧
      plain exampleCodec exampleEmpty.log.view (-2) none = .error badRange ∧
      (exampleEmpty.reader.snapshot exampleCodec exampleEmpty.log (-2) none).1 = .ok [] ∧
      plain exampleCodec exampleEmpty.log.view (-1) (some (2 ^ 63)) = .error overflow ∧
      (exampleEmpty.reader.snapshot exampleCodec exampleEmpty.log (-1) (some (2 ^ 63))).1 = .ok []) ∧
    (machine exampleCodec).Reachable exampleState ∧
      plain exampleCodec exampleState.log.view 0 none = .ok [exampleMessage "b"] ∧
      (exampleState.reader.snapshot exampleCodec exampleState.log 0 none).1 =
        .error ⟨.valueError, "消息 body 必须是对象"⟩ := by
  refine ⟨⟨⟨exampleEmpty, ⟨rfl, rfl⟩, .refl⟩, ?_, ?_, ?_, ?_⟩, ⟨exampleState, ⟨rfl, rfl⟩, .refl⟩, ?_, ?_⟩
  all_goals decide

end MonoAgent.Session.Incremental
