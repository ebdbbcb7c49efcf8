import Mathlib
import MonoAgent.Lib.Json
import MonoAgent.Session.Message

/-!
# Message frames

`messageChunks` cuts the rows of a page into frames of at most
`maxMessagePayloadBytes`.  A row of more than 64 KiB is replaced by a reference to
its text.  A frame is full when its payload with the next row would pass the
limit; the payload has cursor fields that change with the cut.

A frame is tried with the `has_more` that its last row would give it, and the
last frame is sent with the `has_more` of the page.  `cut_spec` and `cut_limit`
say what comes of it: the frames are `Chained` and hold the rows in order if and
only if the last group of rows is not `AtLimit`, at the limit to the byte.
-/

namespace MonoAgent.Mobile

open MonoAgent.Lib MonoAgent.Session

/-! ## Rows -/

/-- The bytes of `message_json`. -/
def messageBytes (value : Json) : Nat := value.dumps.utf8ByteSize

/-- `MAX_MESSAGE_PAYLOAD_BYTES`. -/
def maxMessagePayloadBytes : Nat := 240 * 1024

/-- A displayed message. -/
structure MessageRow where
  id : String
  sessionId : String
  seq : Nat
  /-- The other fields. -/
  fields : Fields
deriving DecidableEq

namespace MessageRow

def json (r : MessageRow) : Json :=
  .obj ([("id", .str r.id), ("session_id", .str r.sessionId), ("seq", .int r.seq)] ++ r.fields)

/-- The row that stands for a text that is downloaded. -/
def reference (sha256 : String → String) (displayOnly : Bool) (r : MessageRow) : MessageRow :=
  { r with fields := [("message_ref", .obj (
      [("version", .int 2), ("encoding", .str "utf-8"), ("media_type", .str "application/json"),
        ("byte_length", .int (messageBytes r.json)), ("sha256", .str (sha256 r.json.dumps))] ++
      if displayOnly then [("display_only", .bool true)] else []))] }

/-- The row in the form it is sent. -/
def sent (sha256 : String → String) (displayOnly : Bool) (r : MessageRow) : MessageRow :=
  if 64 * 1024 < messageBytes r.json then r.reference sha256 displayOnly else r

end MessageRow

/-! ## Payloads -/

/-- The payload of a frame of messages. -/
structure MessagesPayload where
  items : List MessageRow
  afterSeq : Int
  throughSeq : Int
  nextAfterSeq : Int
  hasMore : Bool
  /-- The fields that no cut changes. -/
  others : Fields
deriving DecidableEq

/-- The position of the last row, or the one before the rows. -/
def lastSeq (after : Int) (items : List MessageRow) : Int :=
  (items.getLast?.map fun r => (r.seq : Int)).getD after

/-- What `message_chunks` raises. -/
def manifestTooLarge : Error := ⟨.valueError, "单条消息引用超过同步帧上限"⟩

namespace MessagesPayload

def json (p : MessagesPayload) : Json :=
  .obj ([("items", .arr (p.items.map (·.json))), ("after_seq", .int p.afterSeq),
    ("through_seq", .int p.throughSeq), ("next_after_seq", .int p.nextAfterSeq),
    ("has_more", .bool p.hasMore)] ++ p.others)

/-- The bytes of the payload. -/
def bytes (p : MessagesPayload) : Nat := messageBytes p.json

/-- The payload with some of its rows. -/
def part (p : MessagesPayload) (after : Int) (items : List MessageRow) (more : Bool) :
    MessagesPayload :=
  { p with items, afterSeq := after, nextAfterSeq := lastSeq after items, hasMore := more }

/-- The loop of `message_chunks`: what it yields, and what it raises after that.
`items` is the group that is being filled. -/
def cut (p : MessagesPayload) : List MessageRow → List MessageRow → Int →
    List MessagesPayload × Option Error
  | [], items, after =>
      let result := p.part after items p.hasMore
      if maxMessagePayloadBytes < result.bytes then ([], some manifestTooLarge)
      else ([result], none)
  | row :: rest, items, after =>
      let candidate := p.part after (items ++ [row]) ((row.seq : Int) ≠ p.throughSeq)
      if maxMessagePayloadBytes < candidate.bytes then
        match items.getLast? with
        | none => ([], some manifestTooLarge)
        | some last =>
            let later := p.cut rest [row] last.seq
            (p.part after items true :: later.1, later.2)
      else p.cut rest (items ++ [row]) after

end MessagesPayload

/-- `message_chunks`. -/
def messageChunks (sha256 : String → String) (displayOnly : Bool) (p : MessagesPayload) :
    List MessagesPayload × Option Error :=
  p.cut (p.items.map (·.sent sha256 displayOnly)) [] p.afterSeq

/-! ## Sizes -/

/-- The bytes of a field and of the comma or bracket behind it. -/
def fieldBytes (f : String × Json) : Nat := (quote f.1).utf8ByteSize + 2 + messageBytes f.2

theorem dumpsFields_eq (fields : Fields) :
    Json.dumpsFields fields = fields.map fun f => (f.1, f.2.dumps) := by
  induction fields with
  | nil => rfl
  | cons f rest ih =>
      obtain ⟨k, v⟩ := f
      rw [Json.dumpsFields, ih, List.map_cons]

/-- The text of an object is as long as its fields, in whatever order they stand. -/
theorem messageBytes_obj {fields : Fields} (h : fields ≠ []) :
    messageBytes (.obj fields) = 1 + (fields.map fieldBytes).sum := by
  let texts := (sortKeys (Json.dumpsFields fields)).map fun f => quote f.1 ++ ":" ++ f.2
  have hbraces : "\x7b".utf8ByteSize = 1 ∧ "\x7d".utf8ByteSize = 1 := ⟨rfl, rfl⟩
  have hcolon : ":".utf8ByteSize = 1 := rfl
  have hperm : (sortKeys (Json.dumpsFields fields)).Perm (fields.map fun f => (f.1, f.2.dumps)) := by
    rw [← dumpsFields_eq]
    exact List.perm_insertionSort _ _
  have hsum : (texts.map fun t => t.utf8ByteSize + 1).sum = (fields.map fieldBytes).sum := by
    rw [List.map_map, (hperm.map _).sum_eq, List.map_map]
    refine congrArg List.sum (List.map_congr_left fun f _ => ?_)
    show (quote f.1 ++ ":" ++ f.2.dumps).utf8ByteSize + 1 = _
    rw [String.utf8ByteSize_append, String.utf8ByteSize_append, hcolon, fieldBytes, messageBytes]
    omega
  obtain ⟨t, rest, htexts⟩ : ∃ t rest, texts = t :: rest := by
    refine List.exists_cons_of_ne_nil fun hnil => h ?_
    have hlen := congrArg List.length hnil
    rw [List.length_map, hperm.length_eq, List.length_map] at hlen
    exact List.length_eq_zero_iff.mp hlen
  have hinner := utf8ByteSize_intercalate (t := t) (l := rest)
  rw [← htexts, hsum] at hinner
  show ("\x7b" ++ String.intercalate "," texts ++ "\x7d").utf8ByteSize = _
  rw [String.utf8ByteSize_append, String.utf8ByteSize_append]
  omega

theorem dumpsItems_eq (items : List Json) : Json.dumpsItems items = items.map Json.dumps := by
  induction items with
  | nil => rfl
  | cons x rest ih => rw [Json.dumpsItems, ih, List.map_cons]

/-- The text of an array is as long as its items. -/
theorem messageBytes_arr {items : List Json} (h : items ≠ []) :
    messageBytes (.arr items) = 1 + (items.map fun x => messageBytes x + 1).sum := by
  obtain ⟨x, rest, rfl⟩ := List.exists_cons_of_ne_nil h
  have hbrackets : "[".utf8ByteSize = 1 ∧ "]".utf8ByteSize = 1 := ⟨rfl, rfl⟩
  have hinner := utf8ByteSize_intercalate (t := x.dumps) (l := rest.map Json.dumps)
  have hsum : ((x.dumps :: rest.map Json.dumps).map fun t => t.utf8ByteSize + 1) =
      (x :: rest).map fun x => messageBytes x + 1 := by
    rw [← List.map_cons, List.map_map]
    rfl
  rw [hsum] at hinner
  show ("[" ++ String.intercalate "," (Json.dumpsItems (x :: rest)) ++ "]").utf8ByteSize = _
  rw [dumpsItems_eq, List.map_cons, String.utf8ByteSize_append, String.utf8ByteSize_append]
  omega

/-- A row is at least as long as its identity. -/
theorem id_le_bytes (r : MessageRow) : messageBytes (.str r.id) ≤ messageBytes r.json := by
  rw [MessageRow.json, messageBytes_obj (by simp)]
  simp only [List.cons_append, List.map_cons, List.sum_cons, fieldBytes]
  omega

/-- The rows of a frame and the commas between them. -/
def rowBytes (items : List MessageRow) : Nat := (items.map fun r => messageBytes r.json + 1).sum

theorem rowBytes_arr {items : List MessageRow} (h : items ≠ []) :
    messageBytes (.arr (items.map (·.json))) = 1 + rowBytes items := by
  rw [messageBytes_arr (by simpa using h), List.map_map]
  rfl

/-- A frame is at least as long as its rows. -/
theorem rowBytes_le (p : MessagesPayload) (after : Int) (items : List MessageRow) (more : Bool) :
    rowBytes items ≤ (p.part after items more).bytes := by
  cases items with
  | nil => exact Nat.zero_le _
  | cons r rest =>
      have harr := rowBytes_arr (List.cons_ne_nil r rest)
      rw [MessagesPayload.bytes, MessagesPayload.json, messageBytes_obj (by simp)]
      simp only [MessagesPayload.part, List.cons_append, List.map_cons, List.sum_cons, fieldBytes] at harr ⊢
      omega

theorem row_lt_rowBytes {r : MessageRow} {items : List MessageRow} (h : r ∈ items) :
    messageBytes r.json < rowBytes items :=
  Nat.lt_of_succ_le (List.le_sum_of_mem (List.mem_map.mpr ⟨r, h, rfl⟩))

/-- Saying that there is more saves a byte. -/
theorem bytes_more (p : MessagesPayload) (after : Int) (items : List MessageRow) :
    (p.part after items false).bytes = (p.part after items true).bytes + 1 := by
  have hfalse : messageBytes (.bool false) = 5 := rfl
  have htrue : messageBytes (.bool true) = 4 := rfl
  simp only [MessagesPayload.bytes, MessagesPayload.json, MessagesPayload.part]
  rw [messageBytes_obj (by simp), messageBytes_obj (by simp)]
  simp only [List.cons_append, List.map_cons, List.sum_cons, fieldBytes, hfalse, htrue]
  omega

theorem bytes_le_flag {p : MessagesPayload} {after : Int} {items : List MessageRow} (more : Bool)
    {n : Nat} (h : (p.part after items false).bytes ≤ n) : (p.part after items more).bytes ≤ n := by
  cases more with
  | false => exact h
  | true =>
      rw [bytes_more] at h
      omega

theorem bytes_le_more {p : MessagesPayload} {after : Int} {items : List MessageRow} (more : Bool)
    {n : Nat} (h : (p.part after items more).bytes ≤ n) : (p.part after items true).bytes ≤ n := by
  cases more with
  | true => exact h
  | false =>
      rw [bytes_more] at h
      omega

/-! ## Chains of frames -/

/-- Frames that follow each other from a position on.  Each is within the limit and
names the position of its last row, and the last carries the `has_more` of the
page. -/
inductive Chained (p : MessagesPayload) : Int → List MessagesPayload → Prop where
  | last {after : Int} {items : List MessageRow}
      (hbytes : (p.part after items p.hasMore).bytes ≤ maxMessagePayloadBytes) :
      Chained p after [p.part after items p.hasMore]
  | more {after : Int} {items : List MessageRow} {rest : List MessagesPayload}
      (hitems : items ≠ [])
      (hbytes : (p.part after items true).bytes ≤ maxMessagePayloadBytes)
      (hleft : rest.flatMap (·.items) ≠ []) (hrest : Chained p (lastSeq after items) rest) :
      Chained p after (p.part after items true :: rest)

/-- A chain is one frame, or it has rows in the last frame and in those before. -/
theorem Chained.split {p : MessagesPayload} {after : Int} {frames : List MessagesPayload}
    (h : Chained p after frames) : ∃ front last, frames = front ++ [last] ∧
      (front = [] ∧ last = p.part after last.items p.hasMore ∨
        front ≠ [] ∧ front.flatMap (·.items) ≠ [] ∧ last.items ≠ []) := by
  induction h with
  | @last after items hbytes => exact ⟨[], _, rfl, Or.inl ⟨rfl, rfl⟩⟩
  | @more after items rest hitems hbytes hleft hrest ih =>
      obtain ⟨front, last, rfl, hcases⟩ := ih
      refine ⟨_ :: front, last, rfl, Or.inr ⟨by simp, ?_, ?_⟩⟩
      · simp [MessagesPayload.part, hitems]
      · rcases hcases with ⟨rfl, _⟩ | ⟨_, _, hlast⟩
        · simpa using hleft
        · exact hlast

theorem Chained.part_of_mem {p frame : MessagesPayload} {after : Int} {frames : List MessagesPayload}
    (h : Chained p after frames) (hframe : frame ∈ frames) : ∃ start items more,
      frame = p.part start items more ∧ (p.part start items more).bytes ≤ maxMessagePayloadBytes := by
  induction h with
  | @last after items hbytes =>
      rw [List.mem_singleton.mp hframe]
      exact ⟨after, items, p.hasMore, rfl, hbytes⟩
  | @more after items rest hitems hbytes hleft hrest ih =>
      rcases List.mem_cons.mp hframe with rfl | hframe
      · exact ⟨after, items, true, rfl, hbytes⟩
      · exact ih hframe

/-- The first frame of a chain has the front of the rows. -/
theorem Chained.head {p : MessagesPayload} {after : Int} {frames : List MessagesPayload}
    (h : Chained p after frames) : ∃ first rest, frames = first :: rest ∧
      first = p.part after first.items first.hasMore ∧
      (rest = [] ∧ first.hasMore = p.hasMore ∨
        first.hasMore = true ∧ first.items ≠ [] ∧ rest.flatMap (·.items) ≠ []) := by
  cases h with
  | last hbytes => exact ⟨_, [], rfl, rfl, Or.inl ⟨rfl, rfl⟩⟩
  | more hitems hbytes hleft hrest => exact ⟨_, _, rfl, rfl, Or.inr ⟨rfl, hitems, hleft⟩⟩

/-- Each row would fit a frame of its own behind the row before it. -/
def RowsFit (p : MessagesPayload) : Int → List MessageRow → Prop
  | _, [] => True
  | after, row :: rest =>
      (p.part after [row] false).bytes ≤ maxMessagePayloadBytes ∧ RowsFit p row.seq rest

/-- A payload without rows, and with any one of them, fits a frame. -/
structure Fits (p : MessagesPayload) (rows : List MessageRow) : Prop where
  empty : (p.part p.afterSeq [] false).bytes ≤ maxMessagePayloadBytes
  rows : RowsFit p p.afterSeq rows

/-- Each row of a group was tried behind those before it, and fitted. -/
def Joins (p : MessagesPayload) (after : Int) (items : List MessageRow) : Prop :=
  ∀ front row back, items = front ++ row :: back →
    (p.part after (front ++ [row]) ((row.seq : Int) ≠ p.throughSeq)).bytes ≤ maxMessagePayloadBytes

/-- The last group of rows that fill one frame after another, and the position before
it.  A frame is full at the first row that does not fit it. -/
inductive LastGroup (p : MessagesPayload) : Int → List MessageRow → Int → List MessageRow → Prop where
  | last {after : Int} {group : List MessageRow} (hne : group ≠ []) (hjoins : Joins p after group) :
      LastGroup p after group after group
  | more {after start : Int} {items rest group : List MessageRow} {row : MessageRow} (hne : items ≠ [])
      (hjoins : Joins p after items)
      (hover : maxMessagePayloadBytes <
        (p.part after (items ++ [row]) ((row.seq : Int) ≠ p.throughSeq)).bytes)
      (hrest : LastGroup p (lastSeq after items) (row :: rest) start group) :
      LastGroup p after (items ++ row :: rest) start group

/-- The last group of a page that has no more is at the limit, so that the frame that
says so is a byte over it. -/
structure AtLimit (p : MessagesPayload) (rows : List MessageRow) : Prop where
  noMore : p.hasMore = false
  group : ∃ start group, LastGroup p p.afterSeq rows start group ∧
    (p.part start group true).bytes = maxMessagePayloadBytes

/-- The fields of a payload besides its rows are small. -/
structure SmallFields (p : MessagesPayload) : Prop where
  others : (p.others.map fieldBytes).sum ≤ 4096
  after : messageBytes (.int p.afterSeq) ≤ 20
  through : messageBytes (.int p.throughSeq) ≤ 20

/-- A frame of 128 KiB of rows fits. -/
theorem SmallFields.part_lt {p : MessagesPayload} (h : SmallFields p) {after : Int} {items : List MessageRow}
    (more : Bool) (hafter : messageBytes (.int after) ≤ 20) (hseq : ∀ r ∈ items, messageBytes (.int r.seq) ≤ 20)
    (hrows : rowBytes items ≤ 128 * 1024) : (p.part after items more).bytes < maxMessagePayloadBytes := by
  have hkeys : (quote "items").utf8ByteSize = 7 ∧ (quote "after_seq").utf8ByteSize = 11 ∧
      (quote "through_seq").utf8ByteSize = 13 ∧ (quote "next_after_seq").utf8ByteSize = 16 ∧
      (quote "has_more").utf8ByteSize = 10 ∧ messageBytes (.arr []) = 2 := by decide
  obtain ⟨hitemsKey, hafterKey, hthroughKey, hnextKey, hmoreKey, hnil⟩ := hkeys
  have hlimit : maxMessagePayloadBytes = 245760 := rfl
  have hflag : messageBytes (.bool more) ≤ 5 := by
    cases more with
    | false => decide
    | true => decide
  have hlast : messageBytes (.int (lastSeq after items)) ≤ 20 := by
    rcases List.eq_nil_or_concat' items with rfl | ⟨init, row, rfl⟩
    · exact hafter
    · simpa [lastSeq] using hseq row (by simp)
  have harr : messageBytes (.arr (items.map (·.json))) ≤ 2 + rowBytes items := by
    rcases List.eq_nil_or_concat' items with rfl | ⟨init, row, rfl⟩
    · simp [hnil]
    · rw [rowBytes_arr (by simp)]
      omega
  have hothers := h.others
  have hthrough := h.through
  rw [MessagesPayload.bytes, MessagesPayload.json, messageBytes_obj (by simp)]
  simp only [MessagesPayload.part, List.cons_append, List.nil_append, List.map_cons,
    List.sum_cons, fieldBytes, hitemsKey, hafterKey, hthroughKey, hnextKey, hmoreKey]
  omega

/-- Rows of up to 64 KiB fit, when the other fields are small. -/
theorem fits_of_small {p : MessagesPayload} {rows : List MessageRow} (h : SmallFields p)
    (hrows : ∀ r ∈ rows, messageBytes (.int r.seq) ≤ 20 ∧ messageBytes r.json ≤ 64 * 1024) :
    Fits p rows := by
  refine ⟨(h.part_lt false h.after (fun r hr => absurd hr List.not_mem_nil) (Nat.zero_le _)).le, ?_⟩
  have hall : ∀ after : Int, messageBytes (.int after) ≤ 20 → RowsFit p after rows := by
    induction rows with
    | nil => exact fun _ _ => trivial
    | cons row rest ih =>
        intro after ha
        obtain ⟨hseq, hjson⟩ := hrows row List.mem_cons_self
        have hone : rowBytes [row] ≤ 128 * 1024 := by
          simp only [rowBytes, List.map_cons, List.map_nil, List.sum_cons, List.sum_nil]
          omega
        refine ⟨(h.part_lt false ha (fun r hr => by rw [List.mem_singleton.mp hr]; exact hseq) hone).le, ?_⟩
        exact ih (fun r hr => hrows r (List.mem_cons_of_mem _ hr)) row.seq hseq
  exact hall _ h.after

@[simp] theorem lastSeq_nil (after : Int) : lastSeq after [] = after := rfl

@[simp] theorem lastSeq_concat (after : Int) (items : List MessageRow) (row : MessageRow) :
    lastSeq after (items ++ [row]) = row.seq := by
  simp [lastSeq]

@[simp] theorem joins_nil (p : MessagesPayload) (after : Int) : Joins p after [] :=
  fun _ _ _ h => by simp at h

theorem Joins.concat {p : MessagesPayload} {after : Int} {items : List MessageRow} {row : MessageRow}
    (h : Joins p after items) (hrow : (p.part after (items ++ [row])
      ((row.seq : Int) ≠ p.throughSeq)).bytes ≤ maxMessagePayloadBytes) : Joins p after (items ++ [row]) := by
  intro front x back heq
  rcases List.eq_nil_or_concat' back with rfl | ⟨init, y, rfl⟩
  · obtain ⟨rfl, hx⟩ := List.append_inj' heq rfl
    cases hx
    exact hrow
  · refine h front x init ?_
    have hsplit : items ++ [row] = (front ++ x :: init) ++ [y] := by simpa using heq
    exact (List.append_inj' hsplit rfl).1

/-- A group that was tried with its last row. -/
theorem Joins.last {p : MessagesPayload} {after : Int} {items : List MessageRow} (h : Joins p after items)
    (hne : items ≠ []) :
    (p.part after items (lastSeq after items ≠ p.throughSeq)).bytes ≤ maxMessagePayloadBytes := by
  obtain ⟨init, row, rfl⟩ := (List.eq_nil_or_concat' items).resolve_left hne
  have hrow := h init row [] (by simp)
  simpa [lastSeq] using hrow

/-- A group at the limit ends before `through_seq`. -/
theorem Joins.before {p : MessagesPayload} {after : Int} {items : List MessageRow} (h : Joins p after items)
    (hne : items ≠ []) (hbytes : (p.part after items true).bytes = maxMessagePayloadBytes) :
    lastSeq after items ≠ p.throughSeq := by
  intro heq
  have hlast := h.last hne
  rw [decide_eq_false (not_not.mpr heq), bytes_more] at hlast
  omega

theorem LastGroup.joins {p : MessagesPayload} {after start : Int} {rows group : List MessageRow}
    (h : LastGroup p after rows start group) : group ≠ [] ∧ Joins p start group ∧ ∃ front, rows = front ++ group := by
  induction h with
  | last hne hjoins => exact ⟨hne, hjoins, [], rfl⟩
  | @more after start items rest group row _ _ _ _ ih =>
      obtain ⟨hne, hjoins, front, heq⟩ := ih
      exact ⟨hne, hjoins, items ++ front, by rw [heq, List.append_assoc]⟩

/-- A group begins at the position of the page, or behind a row. -/
theorem LastGroup.start {p : MessagesPayload} {after start : Int} {rows group : List MessageRow}
    (h : LastGroup p after rows start group) : start = after ∨ ∃ r ∈ rows, start = r.seq := by
  induction h with
  | last hne hjoins => exact Or.inl rfl
  | @more after start items rest group row hne hjoins hover hrest ih =>
      rcases ih with rfl | ⟨r, hr, rfl⟩
      · obtain ⟨init, x, rfl⟩ := (List.eq_nil_or_concat' items).resolve_left hne
        exact Or.inr ⟨x, by simp, by simp [lastSeq]⟩
      · exact Or.inr ⟨r, List.mem_append_right _ hr, rfl⟩

/-- The first row of a group was tried alone. -/
theorem LastGroup.first {p : MessagesPayload} {after start : Int} {row : MessageRow} {rest group : List MessageRow}
    (h : LastGroup p after (row :: rest) start group) :
    (p.part after [row] ((row.seq : Int) ≠ p.throughSeq)).bytes ≤ maxMessagePayloadBytes := by
  generalize hrows : row :: rest = rows at h
  cases h with
  | last hne hjoins => exact hjoins [] row rest hrows.symm
  | @more _ _ items rest' _ row' hne hjoins hover hrest =>
      obtain ⟨x, back, rfl⟩ := List.exists_cons_of_ne_nil hne
      cases hrows
      exact hjoins [] row back rfl

/-- A row that fits joins the group. -/
theorem cut_fits {p : MessagesPayload} {row : MessageRow} {rest items : List MessageRow}
    {after : Int} (h : (p.part after (items ++ [row]) ((row.seq : Int) ≠ p.throughSeq)).bytes ≤
      maxMessagePayloadBytes) : p.cut (row :: rest) items after = p.cut rest (items ++ [row]) after := by
  simp only [MessagesPayload.cut]
  rw [if_neg (Nat.not_lt.mpr h)]

/-- The last group is a byte over the limit. -/
theorem cut_over {p : MessagesPayload} {items : List MessageRow} {after : Int}
    (h : maxMessagePayloadBytes < (p.part after items p.hasMore).bytes) :
    p.cut [] items after = ([], some manifestTooLarge) := by
  simp only [MessagesPayload.cut]
  rw [if_pos h]

/-- A row that does not fit an empty frame is refused. -/
theorem cut_refused {p : MessagesPayload} {row : MessageRow} {rest : List MessageRow} {after : Int}
    (h : maxMessagePayloadBytes <
      (p.part after [row] ((row.seq : Int) ≠ p.throughSeq)).bytes) :
    p.cut (row :: rest) [] after = ([], some manifestTooLarge) := by
  simp only [MessagesPayload.cut, List.nil_append]
  rw [if_pos h]
  rfl

/-- Every frame is a part of the page. -/
theorem cut_through {p : MessagesPayload} {rest items : List MessageRow} {after : Int} :
    ∀ frame ∈ (p.cut rest items after).1, frame.throughSeq = p.throughSeq := by
  induction rest generalizing items after with
  | nil =>
      intro frame hframe
      simp only [MessagesPayload.cut] at hframe
      split at hframe
      · cases hframe
      · rw [List.mem_singleton.mp hframe]
        rfl
  | cons row rest ih =>
      intro frame hframe
      simp only [MessagesPayload.cut] at hframe
      split at hframe
      · split at hframe
        · cases hframe
        · rcases List.mem_cons.mp hframe with rfl | hframe
          · rfl
          · exact ih frame hframe
      · exact ih frame hframe

/-- The rows that join the group. -/
theorem cut_joins {p : MessagesPayload} {more items : List MessageRow} {after : Int}
    (rest : List MessageRow) (h : Joins p after (items ++ more)) : p.cut (more ++ rest) items after = p.cut rest (items ++ more) after := by
  induction more generalizing items with
  | nil => rw [List.append_nil, List.nil_append]
  | cons row more ih =>
      have hsplit : items ++ row :: more = items ++ [row] ++ more := by simp
      calc p.cut (row :: (more ++ rest)) items after = p.cut (more ++ rest) (items ++ [row]) after :=
            cut_fits (h items row more rfl)
        _ = p.cut rest (items ++ [row] ++ more) after := ih (hsplit ▸ h)
        _ = p.cut rest (items ++ row :: more) after := by rw [hsplit]

/-- A row that does not join the group begins the next one. -/
theorem cut_next {p : MessagesPayload} {row : MessageRow} {rest items : List MessageRow} {after : Int}
    (hne : items ≠ []) (hover : maxMessagePayloadBytes <
      (p.part after (items ++ [row]) ((row.seq : Int) ≠ p.throughSeq)).bytes) :
    p.cut (row :: rest) items after = (p.part after items true :: (p.cut rest [row] (lastSeq after items)).1,
      (p.cut rest [row] (lastSeq after items)).2) := by
  obtain ⟨init, last, rfl⟩ := (List.eq_nil_or_concat' items).resolve_left hne
  have hseq : lastSeq after (init ++ [last]) = last.seq := lastSeq_concat ..
  have hlast : (init ++ [last]).getLast? = some last := by simp
  rw [hseq]
  simp only [MessagesPayload.cut, hlast]
  rw [if_pos hover]

/-- The loop yields a chain of frames with all the rows, unless it stops at a last
group at the limit.  By induction on the rows that are left. -/
theorem cut_spec {p : MessagesPayload} {rest items : List MessageRow} {after : Int}
    (hfit : RowsFit p (lastSeq after items) rest) (hjoins : Joins p after items)
    (hempty : items = [] → (p.part after [] false).bytes ≤ maxMessagePayloadBytes) :
    let out := p.cut rest items after
    (out.2 = none ∧ Chained p after out.1 ∧ out.1.flatMap (·.items) = items ++ rest) ∨
      p.hasMore = false ∧ ∃ start group, LastGroup p after (items ++ rest) start group ∧
        (p.part start group true).bytes = maxMessagePayloadBytes := by
  induction rest generalizing items after with
  | nil =>
      intro out
      by_cases hbig : maxMessagePayloadBytes < (p.part after items p.hasMore).bytes
      · -- Only a group that was tried with `has_more` can be a byte over the limit.
        have hne : items ≠ [] := by
          rintro rfl
          have hsmall := bytes_le_flag p.hasMore (hempty rfl)
          omega
        have htrue := bytes_le_more _ (hjoins.last hne)
        have hmore : p.hasMore = false := by
          cases hm : p.hasMore with
          | false => rfl
          | true =>
              rw [hm] at hbig
              omega
        rw [hmore, bytes_more] at hbig
        exact Or.inr ⟨hmore, after, items, by rw [List.append_nil]; exact .last hne hjoins, by omega⟩
      · have hout : out = ([p.part after items p.hasMore], none) := by
          simp only [out, MessagesPayload.cut]
          rw [if_neg hbig]
        rw [hout]
        exact Or.inl ⟨rfl, .last (by omega), by simp [MessagesPayload.part]⟩
  | cons row rest ih =>
      intro out
      obtain ⟨halone, hrest⟩ := hfit
      by_cases hbig : maxMessagePayloadBytes <
          (p.part after (items ++ [row]) ((row.seq : Int) ≠ p.throughSeq)).bytes
      · have hne : items ≠ [] := by
          -- A row that does not fit an empty group does not fit alone.
          rintro rfl
          have hsmall := bytes_le_flag ((row.seq : Int) ≠ p.throughSeq) halone
          exact absurd hbig (Nat.not_lt.mpr hsmall)
        have hout : out = _ := cut_next hne hbig
        have hone : Joins p (lastSeq after items) [row] :=
          (joins_nil p _).concat (bytes_le_flag _ halone)
        have hfit : RowsFit p (lastSeq (lastSeq after items) [row]) rest := hrest
        rcases ih hfit hone nofun with ⟨hnone, hchain, hflat⟩ | ⟨hmore, start, group, hgroup, hbytes⟩
        · refine Or.inl ⟨by rw [hout]; exact hnone, ?_, ?_⟩
          · rw [hout]
            exact .more hne (bytes_le_more _ (hjoins.last hne)) (by simp [hflat]) hchain
          · rw [hout]
            simp [hflat, MessagesPayload.part]
        · exact Or.inr ⟨hmore, start, group, .more hne hjoins hbig hgroup, hbytes⟩
      · have hout : out = p.cut rest (items ++ [row]) after := cut_fits (Nat.not_lt.mp hbig)
        have hfit : RowsFit p (lastSeq after (items ++ [row])) rest := by
          rw [lastSeq_concat]
          exact hrest
        rw [hout]
        simpa [List.append_assoc] using ih hfit (hjoins.concat (Nat.not_lt.mp hbig)) (by simp)

/-- A page whose last group is at the limit is refused.  By induction on the frames. -/
theorem cut_limit {p : MessagesPayload} {rows group : List MessageRow} {after start : Int}
    (h : LastGroup p after rows start group) (hmore : p.hasMore = false)
    (hbytes : (p.part start group true).bytes = maxMessagePayloadBytes) :
    (p.cut rows [] after).2 = some manifestTooLarge := by
  induction h with
  | @last after group hne hjoins =>
      have hover : maxMessagePayloadBytes < (p.part after group p.hasMore).bytes := by
        rw [hmore, bytes_more]
        omega
      have hrun := cut_joins [] ((List.nil_append group).symm ▸ hjoins)
      rw [List.append_nil, List.nil_append] at hrun
      rw [hrun, cut_over hover]
  | @more after start items rest group row hne hjoins hover hrest ih =>
      have hrun := cut_joins (row :: rest) ((List.nil_append items).symm ▸ hjoins)
      rw [List.nil_append] at hrun
      have hfirst : p.cut (row :: rest) [] (lastSeq after items) = p.cut rest [row] (lastSeq after items) :=
        cut_fits hrest.first
      rw [hrun, cut_next hne hover, ← hfirst]
      exact ih hbytes

/-! ## What a page is cut into -/

/-- The frames are a chain, and hold the rows in order, each once. -/
def Delivered (p : MessagesPayload) (rows : List MessageRow)
    (out : List MessagesPayload × Option Error) : Prop :=
  out.2 = none ∧ Chained p p.afterSeq out.1 ∧ out.1.flatMap (·.items) = rows

/-- The rows of a page that fit, in the form they are sent, are delivered if and only
if the last group is not at the limit. -/
theorem messageChunks_iff {sha256 : String → String} {displayOnly : Bool} {p : MessagesPayload}
    (h : Fits p (p.items.map (·.sent sha256 displayOnly))) :
    Delivered p (p.items.map (·.sent sha256 displayOnly)) (messageChunks sha256 displayOnly p) ↔
      ¬ AtLimit p (p.items.map (·.sent sha256 displayOnly)) := by
  constructor
  · rintro ⟨hnone, _⟩ ⟨hmore, start, group, hgroup, hbytes⟩
    have hsome := cut_limit hgroup hmore hbytes
    exact absurd (hsome.symm.trans hnone) (by simp)
  · intro hnot
    rcases cut_spec h.rows (joins_nil _ _) fun _ => h.empty with hdelivered | ⟨hmore, start, group, hgroup, hbytes⟩
    · exact hdelivered
    · exact absurd ⟨hmore, start, group, hgroup, hbytes⟩ hnot

theorem messageChunks_limit {sha256 : String → String} {displayOnly : Bool} {p : MessagesPayload}
    (h : AtLimit p (p.items.map (·.sent sha256 displayOnly))) :
    (messageChunks sha256 displayOnly p).2 = some manifestTooLarge := by
  obtain ⟨hmore, start, group, hgroup, hbytes⟩ := h
  exact cut_limit hgroup hmore hbytes

/-- A row that is longer than a frame is not delivered. -/
theorem Delivered.row_le {p : MessagesPayload} {rows : List MessageRow}
    {out : List MessagesPayload × Option Error} (h : Delivered p rows out) {r : MessageRow} (hr : r ∈ rows) :
    messageBytes r.json ≤ maxMessagePayloadBytes := by
  obtain ⟨_, hchain, hflat⟩ := h
  obtain ⟨frame, hframe, hin⟩ := List.mem_flatMap.mp (hflat ▸ hr)
  obtain ⟨after, items, more, rfl, hbytes⟩ := hchain.part_of_mem hframe
  exact (row_lt_rowBytes hin).le.trans ((rowBytes_le p after items more).trans hbytes)

/-- A page of small rows is not at the limit. -/
theorem not_atLimit_of_small {p : MessagesPayload} {rows : List MessageRow} (h : SmallFields p)
    (hseq : ∀ r ∈ rows, messageBytes (.int r.seq) ≤ 20) (hrows : rowBytes rows ≤ 128 * 1024) :
    ¬ AtLimit p rows := by
  rintro ⟨_, start, group, hgroup, hbytes⟩
  obtain ⟨_, _, front, heq⟩ := hgroup.joins
  have hsplit : rowBytes rows = rowBytes front + rowBytes group := by
    rw [heq, rowBytes, List.map_append, List.sum_append]
    rfl
  have hstart : messageBytes (.int start) ≤ 20 := by
    rcases hgroup.start with rfl | ⟨r, hr, rfl⟩
    · exact h.after
    · exact hseq r hr
  have hsmall := h.part_lt true hstart (fun r hr => hseq r (heq ▸ List.mem_append_right front hr))
    (show rowBytes group ≤ 128 * 1024 by omega)
  omega

end MonoAgent.Mobile
