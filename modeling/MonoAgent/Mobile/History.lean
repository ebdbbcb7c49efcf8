import MonoAgent.Mobile.Messages
import MonoAgent.Session.Pages

/-!
# History

`getHistory` answers `history.get`: it checks the request, reads a page of the log
and cuts it into frames.  A forward page keeps the first frame.  A backward page
keeps the last one, so that the budget narrows a page on its older side, and
rewrites the cursors.

`historyForward` and `historyBackward` are the walks of a client: each request
names the position that the reply before it ended at and the bound of the first
reply.
-/

namespace MonoAgent.Mobile

open MonoAgent.Lib MonoAgent.Session

/-! ## Requests -/

/-- A `history.get` command.  A field that is absent is `none`. -/
structure HistoryRequest where
  id : String
  sessionId : String
  messageLogVersion : Option Int := some 2
  pageSize : Int := 50
  direction : String := "forward"
  afterSeq : Option Int := none
  throughSeq : Option Int := none
  beforeSeq : Option Int := none
  aroundId : Option String := none
  displayOnly : Bool := false
deriving DecidableEq

inductive HistoryError where
  /-- `MobileCommandError`. -/
  | command (code message : String)
  /-- What is not caught. -/
  | raised (e : Error)
deriving DecidableEq

/-- What the channel displays messages with. -/
structure HistoryView where
  /-- `str(UUID(raw))` and `UUID(raw).hex`. -/
  uuid : String → Option (String × String)
  sha256 : String → String
  /-- The fields of a row besides `id`, `session_id` and `seq`. -/
  fields : Bool → MessagePage → Message → Fields

def invalidPagination (message : String) : HistoryError := .command "invalid_pagination" message

/-- `_normalize_session_id`. -/
def HistoryView.normalizeSessionId (v : HistoryView) (value : String) :
    Except HistoryError String := do
  ensure (value.startsWith "akashic:") (.command "invalid_session" "session_id 必须属于 akashic 渠道")
  let raw := (value.drop 8).toString
  match v.uuid raw with
  | none => .error (.command "invalid_session" "akashic session_id 必须包含 UUID")
  | some (text, hex) => do
      ensure (raw = text ∨ raw = hex)
        (.command "invalid_session" "akashic session_id 必须使用规范小写 UUID")
      return value

/-- `_message_cursor`. -/
def messageCursor (value : Option Int) (field : String) : Except HistoryError Unit :=
  ensure (∀ n, value = some n → -1 ≤ n) (invalidPagination (field ++ " 必须是大于等于 -1 的整数"))

/-- What is checked of a request before the log is read. -/
def HistoryRequest.check (v : HistoryView) (r : HistoryRequest) : Except HistoryError String := do
  ensure (r.messageLogVersion = some 2)
    (.command "unsupported_message_log_version" "需要支持 Message 日志 v2 的客户端")
  let sessionId ← v.normalizeSessionId r.sessionId
  ensure (1 ≤ r.pageSize ∧ r.pageSize ≤ 200) (invalidPagination "page_size 必须在 1..200")
  ensure (r.direction = "forward" ∨ r.direction = "backward")
    (invalidPagination "direction 必须是 forward 或 backward")
  ensure (if r.direction = "backward" then r.afterSeq = none
      else r.beforeSeq = none ∧ r.aroundId = none) (invalidPagination "分页方向与 cursor 不一致")
  ensure (r.aroundId = none ∨ r.beforeSeq = none)
    (invalidPagination "around_id 与 before_seq 不能同时使用")
  messageCursor r.afterSeq "after_seq"
  messageCursor r.throughSeq "through_seq"
  messageCursor r.beforeSeq "before_seq"
  return sessionId

/-! ## Replies -/

/-- `message_rows`. -/
def HistoryView.rows (v : HistoryView) (displayOnly : Bool) (page : MessagePage) :
    List MessageRow :=
  page.messages.map fun m => ⟨m.messageId, m.sessionId, m.seq, v.fields displayOnly page m⟩

/-- The payload of a forward page before it is cut. -/
def forwardPayload (v : HistoryView) (r : HistoryRequest) (page : MessagePage) : MessagesPayload :=
  let after := r.afterSeq.getD (-1)
  let items := v.rows r.displayOnly page
  { items, afterSeq := after, throughSeq := page.throughSeq, nextAfterSeq := lastSeq after items
    hasMore := page.hasMore, others := [("version", .int 2)] }

/-- The fields of a backward page that are not those of a forward one. -/
def backwardFields (r : HistoryRequest) (before next : Int) : Fields :=
  [("version", .int 2), ("direction", .str "backward"), ("before_seq", .int before),
    ("next_before_seq", .int next), ("request_id", .str r.id)] ++
  (r.aroundId.map fun id => ("around_id", Json.str id)).toList

/-- The payload of a backward page before it is cut. -/
def backwardPayload (v : HistoryView) (r : HistoryRequest) (before : Int) (page : MessagePage) :
    MessagesPayload :=
  { items := v.rows r.displayOnly page, afterSeq := page.throughSeq, throughSeq := page.throughSeq
    nextAfterSeq := page.throughSeq, hasMore := page.hasMore
    others := backwardFields r before before }

/-- The cursors of the last frame of a backward page. -/
def finishBackward (r : HistoryRequest) (before : Int) (hasMore : Bool) (p : MessagesPayload) :
    MessagesPayload :=
  let start := (p.items.head?.map fun row => (row.seq : Int)).getD before
  { p with others := backwardFields r before start, afterSeq := if hasMore then start - 1 else -1
           nextAfterSeq := before - 1, hasMore }

/-- `MobileCommandError` for what a page refuses. -/
def pageError (sessionId : String) (e : Error) : HistoryError :=
  match e.kind with
  | .keyError => .command "session_not_found" ("会话不存在: " ++ sessionId)
  | .invalidPage => invalidPagination e.text
  | _ => .raised e

/-- The position before which a backward page ends. -/
def HistoryRequest.before (db : Database) (sessionId : String) (r : HistoryRequest) :
    Except HistoryError (Option Int) :=
  match r.aroundId with
  | none => .ok r.beforeSeq
  | some messageId => do
      ensure (messageId ≠ "" ∧ messageId.length ≤ 512)
        (invalidPagination "around_id 必须是消息 ID")
      match db.get sessionId messageId with
      | none => .error (.command "message_not_found" "目标消息不存在")
      | some target => .ok (some (target.seq + 1))

/-- `next(chunks)`. -/
def firstChunk : List MessagesPayload × Option Error → Except HistoryError MessagesPayload
  | (payload :: _, _) => .ok payload
  | ([], some e) => .error (.command "message_manifest_too_large" e.text)
  | ([], none) => .error (.raised ⟨.runtimeError, "coroutine raised StopIteration"⟩)

/-- `list(chunks)` and its last element. -/
def lastChunk (r : HistoryRequest) (before : Int) (more : Bool) :
    List MessagesPayload × Option Error → Except HistoryError MessagesPayload
  | (_, some e) => .error (.command "message_manifest_too_large" e.text)
  | (payloads, none) =>
      match payloads.getLast? with
      | none => .error (.raised ⟨.indexError, "list index out of range"⟩)
      | some payload => .ok (finishBackward r before (more || decide (1 < payloads.length)) payload)

/-- `_get_history`: the payload of the page that is published. -/
def getHistory (v : HistoryView) (db : Database) (r : HistoryRequest) :
    Except HistoryError MessagesPayload := do
  let sessionId ← r.check v
  let beforeSeq ← r.before db sessionId
  if r.direction = "backward" then
    let page ← (db.readTail sessionId beforeSeq r.throughSeq r.pageSize).mapError (pageError sessionId)
    let before := beforeSeq.getD (page.throughSeq + 1)
    lastChunk r before page.hasMore
      (messageChunks v.sha256 r.displayOnly (backwardPayload v r before page))
  else
    let page ← (db.readPage sessionId (r.afterSeq.getD (-1)) r.throughSeq r.pageSize).mapError
      (pageError sessionId)
    firstChunk (messageChunks v.sha256 r.displayOnly (forwardPayload v r page))

/-! ## Accepted requests -/

/-- What every request of a walk has in common. -/
structure Accepted (v : HistoryView) (r : HistoryRequest) : Prop where
  version : r.messageLogVersion = some 2
  session : v.normalizeSessionId r.sessionId = .ok r.sessionId
  pageSize : 1 ≤ r.pageSize ∧ r.pageSize ≤ 200

section Check

variable {v : HistoryView} {r : HistoryRequest}

theorem normalizeSessionId_eq {value sessionId : String}
    (h : v.normalizeSessionId value = .ok sessionId) : sessionId = value := by
  unfold HistoryView.normalizeSessionId at h
  obtain ⟨_, _, h⟩ := Except.bind_eq_ok.mp h
  dsimp only at h
  split at h
  · cases h
  · obtain ⟨_, _, h⟩ := Except.bind_eq_ok.mp h
    exact (Except.ok.inj h).symm

/-- Whatever request was checked, its common part is accepted. -/
theorem accepted_of_check {sessionId : String} (h : r.check v = .ok sessionId) :
    Accepted v r ∧ sessionId = r.sessionId := by
  unfold HistoryRequest.check at h
  obtain ⟨_, hversion, h⟩ := Except.bind_eq_ok.mp h
  obtain ⟨found, hsession, h⟩ := Except.bind_eq_ok.mp h
  obtain ⟨_, hsize, h⟩ := Except.bind_eq_ok.mp h
  obtain ⟨_, _, h⟩ := Except.bind_eq_ok.mp h
  obtain ⟨_, _, h⟩ := Except.bind_eq_ok.mp h
  obtain ⟨_, _, h⟩ := Except.bind_eq_ok.mp h
  obtain ⟨_, _, h⟩ := Except.bind_eq_ok.mp h
  obtain ⟨_, _, h⟩ := Except.bind_eq_ok.mp h
  obtain ⟨_, _, h⟩ := Except.bind_eq_ok.mp h
  have hid := normalizeSessionId_eq hsession
  rw [hid] at hsession h
  exact ⟨⟨ensure_eq_ok.mp hversion, hsession, ensure_eq_ok.mp hsize⟩, (Except.ok.inj h).symm⟩

theorem check_ok (h : Accepted v r)
    (hdirection : r.direction = "forward" ∧ r.beforeSeq = none ∨
      r.direction = "backward" ∧ r.afterSeq = none) (haround : r.aroundId = none)
    (hafter : ∀ n, r.afterSeq = some n → -1 ≤ n) (hthrough : ∀ n, r.throughSeq = some n → -1 ≤ n)
    (hbefore : ∀ n, r.beforeSeq = some n → -1 ≤ n) : r.check v = .ok r.sessionId := by
  have hknown : r.direction = "forward" ∨ r.direction = "backward" := by
    rcases hdirection with ⟨h, _⟩ | ⟨h, _⟩
    · exact Or.inl h
    · exact Or.inr h
  have hcursor : if r.direction = "backward" then r.afterSeq = none
      else r.beforeSeq = none ∧ r.aroundId = none := by
    rcases hdirection with ⟨h, hnone⟩ | ⟨h, hnone⟩
    · rw [if_neg (by rw [h]; decide)]
      exact ⟨hnone, haround⟩
    · rw [if_pos h]
      exact hnone
  unfold HistoryRequest.check
  refine Except.bind_eq_ok.mpr ⟨(), ensure_eq_ok.mpr h.version, ?_⟩
  refine Except.bind_eq_ok.mpr ⟨_, h.session, ?_⟩
  refine Except.bind_eq_ok.mpr ⟨(), ensure_eq_ok.mpr h.pageSize, ?_⟩
  refine Except.bind_eq_ok.mpr ⟨(), ensure_eq_ok.mpr hknown, ?_⟩
  refine Except.bind_eq_ok.mpr ⟨(), ensure_eq_ok.mpr hcursor, ?_⟩
  refine Except.bind_eq_ok.mpr ⟨(), ensure_eq_ok.mpr (Or.inl haround), ?_⟩
  refine Except.bind_eq_ok.mpr ⟨(), ensure_eq_ok.mpr hafter, ?_⟩
  refine Except.bind_eq_ok.mpr ⟨(), ensure_eq_ok.mpr hthrough, ?_⟩
  exact Except.bind_eq_ok.mpr ⟨(), ensure_eq_ok.mpr hbefore, rfl⟩

end Check

/-! ## Walks -/

section Walks

variable (v : HistoryView) (base : HistoryRequest)

/-- A request forward, with an identity of its own. -/
def HistoryRequest.forward (id : String) (after : Int) (throughSeq : Option Int) : HistoryRequest :=
  { base with id, direction := "forward", afterSeq := some after, throughSeq
              beforeSeq := none, aroundId := none }

/-- A request back. -/
def HistoryRequest.backward (id : String) (beforeSeq throughSeq : Option Int) : HistoryRequest :=
  { base with id, direction := "backward", afterSeq := none, throughSeq, beforeSeq
              aroundId := none }

/-- The position a backward reply ended at. -/
def nextBeforeSeq (p : MessagesPayload) : Option Int :=
  match p.others.lookup "next_before_seq" with
  | some (.int n) => some n
  | _ => none

/-- Walk forward with `after_seq := next_after_seq`.  A moment is a store and the
identity of the request. -/
def historyForward : Pager (Database × String) (Int × Option Int) HistoryError MessagesPayload where
  read t c := getHistory v t.1 (base.forward t.2 c.1 c.2)
  more p := p.hasMore
  next p := (p.nextAfterSeq, some p.throughSeq)

/-- Walk back with `before_seq := next_before_seq`. -/
def historyBackward :
    Pager (Database × String) (Option Int × Option Int) HistoryError MessagesPayload where
  read t c := getHistory v t.1 (base.backward t.2 c.1 c.2)
  more p := p.hasMore
  next p := (nextBeforeSeq p, some p.throughSeq)

end Walks

/-- What a row tells of its message. -/
def MessageRow.key (r : MessageRow) : String × String × Nat := (r.id, r.sessionId, r.seq)

def messageKey (m : Message) : String × String × Nat := (m.messageId, m.sessionId, m.seq)

/-- The messages of a frame. -/
def MessagesPayload.keys (p : MessagesPayload) : List (String × String × Nat) :=
  p.items.map (·.key)

theorem sent_key (sha256 : String → String) (displayOnly : Bool) (r : MessageRow) :
    (r.sent sha256 displayOnly).key = r.key := by
  unfold MessageRow.sent
  split <;> rfl

theorem rows_keys (v : HistoryView) (displayOnly : Bool) (page : MessagePage) :
    ((v.rows displayOnly page).map (·.sent v.sha256 displayOnly)).map (·.key) =
      page.messages.map messageKey := by
  rw [List.map_map, HistoryView.rows, List.map_map]
  refine List.map_congr_left fun m _ => ?_
  exact sent_key _ _ _

/-- Rows that are in the order of messages split as those do. -/
theorem split_keys {rows : List MessageRow} {messages : List Message}
    (h : rows.map (·.key) = messages.map messageKey) {pre post : List MessageRow}
    (hsplit : pre ++ post = rows) :
    ∃ left right, messages = left ++ right ∧ pre.map (·.key) = left.map messageKey ∧
      post.map (·.key) = right.map messageKey := by
  subst hsplit
  rw [List.map_append] at h
  obtain ⟨left, right, hmessages, hleft, hright⟩ := List.map_eq_append_iff.mp h.symm
  exact ⟨left, right, hmessages, hleft.symm, hright.symm⟩

theorem getLast_key {items : List MessageRow} {messages : List Message}
    (h : items.map (·.key) = messages.map messageKey) {m : Message}
    (hm : messages.getLast? = some m) (after : Int) : lastSeq after items = m.position := by
  have hlast := congrArg List.getLast? h
  rw [List.getLast?_map, List.getLast?_map, hm] at hlast
  obtain ⟨row, hrow, hkey⟩ := Option.map_eq_some_iff.mp hlast
  have hseq : row.seq = m.seq := congrArg (·.2.2) hkey
  simp [lastSeq, hrow, hseq, Message.position]

theorem head_key {items : List MessageRow} {messages : List Message}
    (h : items.map (·.key) = messages.map messageKey) {m : Message}
    (hm : messages.head? = some m) :
    items.head?.map (fun row => (row.seq : Int)) = some m.position := by
  have hfirst := congrArg List.head? h
  rw [List.head?_map, List.head?_map, hm] at hfirst
  obtain ⟨row, hrow, hkey⟩ := Option.map_eq_some_iff.mp hfirst
  have hseq : row.seq = m.seq := congrArg (·.2.2) hkey
  simp [hrow, hseq, Message.position]

theorem keys_ne_nil {items : List MessageRow} {messages : List Message}
    (h : items.map (·.key) = messages.map messageKey) : items ≠ [] ↔ messages ≠ [] := by
  have hlen := congrArg List.length h
  rw [List.length_map, List.length_map] at hlen
  rw [← List.length_pos_iff, ← List.length_pos_iff, hlen]

/-- The last message up to a bound within the log is the one at the bound. -/
theorem last_position {log : List Message} (h : WellFormed log) {after through : Int}
    (hthrough : through < log.length) {x : Message}
    (hx : (window Message.position after (through + 1) log).getLast? = some x) :
    x.position = through := by
  have hmem := List.mem_of_getLast? hx
  have hne : window Message.position after (through + 1) log ≠ [] := List.ne_nil_of_mem hmem
  obtain ⟨hlog, hlow, hhigh⟩ := mem_window.mp hmem
  by_contra hother
  have hpos : (x.seq : Int) = x.position := rfl
  have hlt : through.toNat < log.length := by omega
  obtain ⟨y, _, hy, hrest⟩ := window_front h.positions hne (List.append_nil _).symm
  have hxy : y = x := Option.some.inj (hy.symm.trans hx)
  have hat : (log[through.toNat]).position = through := by
    have hseq := h.seq_getElem? (List.getElem?_eq_getElem hlt)
    show ((log[through.toNat]).seq : Int) = through
    omega
  have hin : log[through.toNat] ∈ window Message.position y.position (through + 1) log := by
    refine mem_window.mpr ⟨List.getElem_mem hlt, ?_, ?_⟩
    · rw [hat, hxy]
      omega
    · rw [hat]
      omega
  rw [hrest] at hin
  exact List.not_mem_nil hin

/-! ## Frames of a walk -/

section Frames

variable {v : HistoryView} {base : HistoryRequest} {db : Database} {id : String}

theorem getHistory_forward (h : Accepted v base) {after : Int} {throughSeq : Option Int}
    (hafter : -1 ≤ after) (hthrough : ∀ n, throughSeq = some n → -1 ≤ n) {page : MessagePage}
    (hpage : db.readPage base.sessionId after throughSeq base.pageSize = .ok page) :
    getHistory v db (base.forward id after throughSeq) =
      firstChunk (messageChunks v.sha256 base.displayOnly
        (forwardPayload v (base.forward id after throughSeq) page)) := by
  have haccepted : Accepted v (base.forward id after throughSeq) :=
    ⟨h.version, h.session, h.pageSize⟩
  have hcheck : (base.forward id after throughSeq).check v = .ok base.sessionId :=
    check_ok haccepted (Or.inl ⟨rfl, rfl⟩) rfl
      (fun n hn => by cases hn; exact hafter) hthrough (fun n hn => by cases hn)
  have hread : db.readPage base.sessionId ((base.forward id after throughSeq).afterSeq.getD (-1))
      (base.forward id after throughSeq).throughSeq (base.forward id after throughSeq).pageSize =
      .ok page := hpage
  have hdirection : (base.forward id after throughSeq).direction ≠ "backward" := by
    show "forward" ≠ "backward"
    decide
  have hbefore : (base.forward id after throughSeq).before db base.sessionId = .ok none := rfl
  simp only [getHistory, hcheck, hbefore, bind, Except.bind, if_neg hdirection, hread]
  rfl

theorem getHistory_backward (h : Accepted v base) {beforeSeq throughSeq : Option Int}
    (hbefore : ∀ n, beforeSeq = some n → -1 ≤ n) (hthrough : ∀ n, throughSeq = some n → -1 ≤ n)
    {page : MessagePage}
    (hpage : db.readTail base.sessionId beforeSeq throughSeq base.pageSize = .ok page) :
    getHistory v db (base.backward id beforeSeq throughSeq) =
      lastChunk (base.backward id beforeSeq throughSeq) (beforeSeq.getD (page.throughSeq + 1))
        page.hasMore (messageChunks v.sha256 base.displayOnly
          (backwardPayload v (base.backward id beforeSeq throughSeq)
            (beforeSeq.getD (page.throughSeq + 1)) page)) := by
  have haccepted : Accepted v (base.backward id beforeSeq throughSeq) :=
    ⟨h.version, h.session, h.pageSize⟩
  have hcheck : (base.backward id beforeSeq throughSeq).check v = .ok base.sessionId :=
    check_ok haccepted (Or.inr ⟨rfl, rfl⟩) rfl (fun n hn => by cases hn) hthrough hbefore
  have hread : db.readTail base.sessionId beforeSeq
      (base.backward id beforeSeq throughSeq).throughSeq
      (base.backward id beforeSeq throughSeq).pageSize = .ok page := hpage
  have hdirection : (base.backward id beforeSeq throughSeq).direction = "backward" := rfl
  have hseq : (base.backward id beforeSeq throughSeq).before db base.sessionId = .ok beforeSeq := rfl
  simp only [getHistory, hcheck, hseq, bind, Except.bind, if_pos hdirection, hread]
  rfl

/-- Every row of a forward page fits a frame. -/
def ForwardFits (v : HistoryView) (base : HistoryRequest) (t : Database × String)
    (c : Int × Option Int) : Prop :=
  ∀ page, t.1.readPage base.sessionId c.1 c.2 base.pageSize = .ok page →
    let p := forwardPayload v (base.forward t.2 c.1 c.2) page
    Fits p (p.items.map (·.sent v.sha256 base.displayOnly))

/-- The payload of a backward page before it is cut. -/
def tailPayload (v : HistoryView) (base : HistoryRequest) (t : Database × String)
    (c : Option Int × Option Int) (page : MessagePage) : MessagesPayload :=
  backwardPayload v (base.backward t.2 c.1 c.2) (c.1.getD (page.throughSeq + 1)) page

/-- Every row of a backward page fits a frame. -/
def BackwardFits (v : HistoryView) (base : HistoryRequest) (t : Database × String)
    (c : Option Int × Option Int) : Prop :=
  ∀ page, t.1.readTail base.sessionId c.1 c.2 base.pageSize = .ok page →
    let p := tailPayload v base t c page
    Fits p (p.items.map (·.sent v.sha256 base.displayOnly))

/-- The page of a request back has no more, and its last group is at the limit. -/
def TailAtLimit (v : HistoryView) (base : HistoryRequest) (t : Database × String)
    (c : Option Int × Option Int) : Prop :=
  ∃ page, t.1.readTail base.sessionId c.1 c.2 base.pageSize = .ok page ∧
    AtLimit (tailPayload v base t c page)
      ((tailPayload v base t c page).items.map (·.sent v.sha256 base.displayOnly))

variable {log : List Message} {through : Int}

/-- A bound within the log that the store has grown from is not above the head. -/
theorem through_le_head (hinv : LogInvariant db) (hgrow : log <+: db.snapshot base.sessionId)
    (hthrough : through < log.length) : through ≤ db.head base.sessionId := by
  have hlen := hgrow.length_le
  rw [hinv.head_eq]
  omega

/-- A forward page without more ends at its bound, so that it is never at the limit. -/
theorem forward_not_atLimit (hwf : WellFormed log) (hthrough : through < log.length) {after : Int}
    {page : MessagePage} (hbound : page.throughSeq = through)
    (hmessages : page.messages = (window Message.position after (through + 1) log).take base.pageSize.toNat)
    (hmore : page.hasMore = true ↔ base.pageSize.toNat < (window Message.position after (through + 1) log).length) :
    let p := forwardPayload v (base.forward id after (some through)) page
    ¬ AtLimit p (p.items.map (·.sent v.sha256 base.displayOnly)) := by
  rintro p ⟨hnoMore, start, group, hgroup, hbytes⟩
  obtain ⟨hgroupNe, hjoins, front, hflat⟩ := hgroup.joins
  obtain ⟨left, right, hsplit, _, hright⟩ := split_keys (rows_keys v base.displayOnly page) hflat.symm
  have hne : right ≠ [] := (keys_ne_nil hright).mp hgroupNe
  obtain ⟨init, x, rfl⟩ := (List.eq_nil_or_concat right).resolve_left hne
  have hnot : ¬ page.hasMore = true := Bool.eq_false_iff.mp hnoMore
  rw [hmore] at hnot
  have hall : page.messages = window Message.position after (through + 1) log := by
    rw [hmessages, List.take_of_length_le (by omega)]
  have hlast : (window Message.position after (through + 1) log).getLast? = some x := by
    rw [← hall, hsplit]
    simp
  refine hjoins.before hgroupNe hbytes ?_
  rw [getLast_key hright (m := x) (by simp)]
  exact (last_position hwf hthrough hlast).trans hbound.symm

/-- A forward reply covers the front of what remains behind its cursor. -/
theorem forward_reply (hinv : LogInvariant db) (href : Referenced db)
    (hknown : base.sessionId ∈ db.sessions.map (·.key)) (haccepted : Accepted v base)
    (hgrow : log <+: db.snapshot base.sessionId) (hthrough : -1 ≤ through ∧ through < log.length)
    (c : Int × Option Int) (hc : (-1 ≤ c.1 ∧ c.1 ≤ through) ∧ c.2 = some through)
    (hfits : ForwardFits v base (db, id) c) :
    ∃ p, (historyForward v base).read (db, id) c = .ok p ∧
      (historyForward v base).Covers MessagesPayload.keys
        (fun c => (window Message.position c.1 (through + 1) log).map messageKey)
        (fun c => (-1 ≤ c.1 ∧ c.1 ≤ through) ∧ c.2 = some through) c p := by
  obtain ⟨after, bound⟩ := c
  obtain ⟨hafter, rfl⟩ : (-1 ≤ after ∧ after ≤ through) ∧ bound = some through := hc
  have hwf := hinv.wellFormed base.sessionId
  have hlogwf := hwf.of_prefix hgrow
  have hle := through_le_head hinv hgrow hthrough.2
  have hsucc : through + 1 ≤ log.length := by omega
  have hpageSize := haccepted.pageSize
  obtain ⟨page, hpage, hbound, hmessages, hmore⟩ :=
    page_forward hinv href hknown haccepted.pageSize hafter hle
  rw [window_grown hwf hgrow hsucc] at hmessages hmore
  have hread : (historyForward v base).read (db, id) (after, some through) = _ :=
    @getHistory_forward v base db id haccepted after (some through) hafter.1
      (fun n hn => by cases hn; exact hthrough.1) page hpage
  let p := forwardPayload v (base.forward id after (some through)) page
  have hrows := rows_keys v base.displayOnly page
  have hw : window Message.position after (through + 1) log =
      page.messages ++ (window Message.position after (through + 1) log).drop
        base.pageSize.toNat := by
    rw [hmessages, List.take_append_drop]
  have hnever : ¬ AtLimit p (p.items.map (·.sent v.sha256 base.displayOnly)) :=
    forward_not_atLimit hlogwf hthrough.2 hbound hmessages hmore
  obtain ⟨hnone, hchain, hflat⟩ := (messageChunks_iff (hfits page hpage)).mpr hnever
  obtain ⟨first, rest, hframes, hfirst, hcases⟩ := hchain.head
  have hok : (historyForward v base).read (db, id) (after, some through) = .ok first := by
    rw [hread]
    show firstChunk (messageChunks v.sha256 base.displayOnly p) = .ok first
    have hpair : messageChunks v.sha256 base.displayOnly p = (first :: rest, none) :=
      Prod.ext hframes hnone
    rw [hpair]
    rfl
  rw [hframes, List.flatMap_cons] at hflat
  obtain ⟨left, right, hsplit, hleft, hright⟩ := split_keys hrows hflat
  have hwindow : window Message.position after (through + 1) log =
      left ++ (right ++ (window Message.position after (through + 1) log).drop
        base.pageSize.toNat) := by
    rw [← List.append_assoc, ← hsplit]
    exact hw
  refine ⟨first, hok, fun hlast => ?_, fun hnext => ?_⟩
  · -- The only frame of a page that has no more.
    rcases hcases with ⟨hnil, hflag⟩ | ⟨hflag, _⟩
    case inr => exact absurd (hflag.symm.trans hlast) (by simp)
    have hnot : ¬ page.hasMore = true := Bool.eq_false_iff.mp (hflag.symm.trans hlast)
    rw [hmore] at hnot
    have hrightNil : right = [] := by
      rw [hnil] at hright
      exact List.map_eq_nil_iff.mp hright.symm
    show List.map _ (window _ after _ _) = first.items.map (·.key)
    rw [hleft, hwindow, hrightNil, List.drop_of_length_le (by omega)]
    simp
  · have hleftNe : left ≠ [] := by
      rcases hcases with ⟨hnil, hflag⟩ | ⟨_, hitems, _⟩
      · have hrightNil : right = [] := by
          rw [hnil] at hright
          exact List.map_eq_nil_iff.mp hright.symm
        have hlt := hmore.mp (hflag.symm.trans hnext)
        intro hnil
        have hlen := congrArg List.length hsplit
        rw [hrightNil, hnil, hmessages, List.length_take] at hlen
        simp only [List.append_nil, List.length_nil] at hlen
        omega
      · exact (keys_ne_nil hleft).mp hitems
    have hleftover : right ++ (window Message.position after (through + 1) log).drop
        base.pageSize.toNat ≠ [] := by
      rcases hcases with ⟨_, hflag⟩ | ⟨_, _, hrest⟩
      · have hlt := hmore.mp (hflag.symm.trans hnext)
        simp only [ne_eq, List.append_eq_nil_iff, List.drop_eq_nil_iff, not_and]
        omega
      · have hrightNe : right ≠ [] := (keys_ne_nil hright).mp hrest
        simp [hrightNe]
    obtain ⟨x, hx, hlastMessage, hbehind⟩ := window_front hlogwf.positions hleftNe hwindow
    have hcursor : (historyForward v base).next first = (x.position, some through) := by
      have hnextSeq : first.nextAfterSeq = lastSeq p.afterSeq first.items :=
        congrArg MessagesPayload.nextAfterSeq hfirst
      have hthroughSeq : first.throughSeq = page.throughSeq :=
        congrArg MessagesPayload.throughSeq hfirst
      show (first.nextAfterSeq, some first.throughSeq) = _
      rw [hnextSeq, getLast_key hleft hlastMessage, hthroughSeq, hbound]
    obtain ⟨_, hlow, hhigh⟩ := mem_window.mp hx
    rw [hcursor]
    refine ⟨⟨⟨?_, ?_⟩, rfl⟩, ?_, ?_, ?_⟩
    · show -1 ≤ (x.seq : Int)
      omega
    · show x.position ≤ through
      omega
    · show first.items.map (·.key) ≠ []
      rw [hleft]
      simpa using hleftNe
    · show List.map _ (window _ x.position _ _) ≠ []
      rw [hbehind]
      simpa using hleftover
    · show List.map _ (window _ after _ _) = first.items.map (·.key) ++
        List.map _ (window _ x.position _ _)
      rw [hbehind, hleft, hwindow, List.map_append, ← hwindow]

/-- A page whose payload is at the limit is refused. -/
theorem lastChunk_refused {sha256 : String → String} {displayOnly more : Bool} {p : MessagesPayload}
    {r : HistoryRequest} {before : Int} (h : AtLimit p (p.items.map (·.sent sha256 displayOnly))) :
    lastChunk r before more (messageChunks sha256 displayOnly p) =
      .error (.command "message_manifest_too_large" manifestTooLarge.text) := by
  have hpair : messageChunks sha256 displayOnly p = (_, some manifestTooLarge) :=
    Prod.ext rfl (messageChunks_limit h)
  rw [hpair]
  rfl

/-- A backward reply covers the back of what remains before its cursor, unless its
page is at the limit: then it is refused. -/
theorem backward_reply (hinv : LogInvariant db) (href : Referenced db)
    (hknown : base.sessionId ∈ db.sessions.map (·.key)) (haccepted : Accepted v base)
    (hgrow : log <+: db.snapshot base.sessionId) (hthrough : -1 ≤ through ∧ through < log.length)
    (c : Option Int × Option Int)
    (hc : (∀ b, c.1 = some b → 0 ≤ b ∧ b ≤ through + 1) ∧ c.2 = some through)
    (hfits : BackwardFits v base (db, id) c) :
    (∃ p, (historyBackward v base).read (db, id) c = .ok p ∧
      (historyBackward v base).Covers (fun p => p.keys.reverse)
        (fun c => ((window Message.position (-1) (c.1.getD (through + 1)) log).map
          messageKey).reverse)
        (fun c => (∀ b, c.1 = some b → 0 ≤ b ∧ b ≤ through + 1) ∧ c.2 = some through) c p) ∧
      ¬ TailAtLimit v base (db, id) c ∨
    ∃ e, (historyBackward v base).read (db, id) c = .error e ∧ TailAtLimit v base (db, id) c := by
  obtain ⟨beforeSeq, bound⟩ := c
  obtain ⟨hbefore, rfl⟩ :
    (∀ b, beforeSeq = some b → 0 ≤ b ∧ b ≤ through + 1) ∧ bound = some through := hc
  have hwf := hinv.wellFormed base.sessionId
  have hlogwf := hwf.of_prefix hgrow
  have hle := through_le_head hinv hgrow hthrough.2
  have hbeforeLe : beforeSeq.getD (through + 1) ≤ through + 1 := by
    cases beforeSeq with
    | none => exact le_refl _
    | some b => exact (hbefore b rfl).2
  have hsucc : beforeSeq.getD (through + 1) ≤ log.length := by omega
  have hpageSize := haccepted.pageSize
  obtain ⟨page, hpage, hbound, hmessages, hmore⟩ :=
    page_tail hinv href hknown haccepted.pageSize ⟨hthrough.1, hle⟩ hbefore
  rw [window_grown hwf hgrow hsucc] at hmessages hmore
  have hread : (historyBackward v base).read (db, id) (beforeSeq, some through) = _ :=
    @getHistory_backward v base db id haccepted beforeSeq (some through)
      (fun n hn => by have := (hbefore n hn).1; omega)
      (fun n hn => by cases hn; exact hthrough.1) page hpage
  let r := base.backward id beforeSeq (some through)
  let p := tailPayload v base (db, id) (beforeSeq, some through) page
  have hrows := rows_keys v base.displayOnly page
  let found := window Message.position (-1) (beforeSeq.getD (through + 1)) log
  have hw : found = found.take (found.length - base.pageSize.toNat) ++ page.messages := by
    rw [hmessages, List.take_append_drop]
  by_cases hlimit : AtLimit p (p.items.map (·.sent v.sha256 base.displayOnly))
  case pos =>
    exact Or.inr ⟨_, hread.trans (lastChunk_refused hlimit), page, hpage, hlimit⟩
  obtain ⟨hnone, hchain, hflat⟩ := (messageChunks_iff (hfits page hpage)).mpr hlimit
  have hfree : ¬ TailAtLimit v base (db, id) (beforeSeq, some through) := by
    rintro ⟨page', hpage', hlimit'⟩
    cases hpage.symm.trans hpage'
    exact hlimit hlimit'
  obtain ⟨front, last, hframes, hcases⟩ := hchain.split
  let more := page.hasMore || decide (1 < (front ++ [last]).length)
  let reply := finishBackward r (beforeSeq.getD (page.throughSeq + 1)) more last
  have hok : (historyBackward v base).read (db, id) (beforeSeq, some through) = .ok reply := by
    rw [hread]
    show lastChunk r _ _ (messageChunks v.sha256 base.displayOnly p) = .ok reply
    have hpair : messageChunks v.sha256 base.displayOnly p = (front ++ [last], none) :=
      Prod.ext hframes hnone
    rw [hpair]
    simp only [lastChunk, List.getLast?_concat]
    rfl
  rw [hframes, List.flatMap_append, List.flatMap_singleton] at hflat
  obtain ⟨left, right, hsplit, hleft, hright⟩ := split_keys hrows hflat
  have hwindow : found = (found.take (found.length - base.pageSize.toNat) ++ left) ++ right := by
    rw [List.append_assoc, ← hsplit]
    exact hw
  refine Or.inl ⟨⟨reply, hok, fun hlast => ?_, fun hnext => ?_⟩, hfree⟩
  · -- The only frame of a page that has no more.
    obtain ⟨hpageMore, hfront⟩ : page.hasMore = false ∧ front = [] := by
      have hboth : (page.hasMore || decide (1 < (front ++ [last]).length)) = false := hlast
      rw [Bool.or_eq_false_iff, decide_eq_false_iff_not] at hboth
      refine ⟨hboth.1, List.length_eq_zero_iff.mp ?_⟩
      have hlen := hboth.2
      rw [List.length_append, List.length_singleton] at hlen
      omega
    have hleftNil : left = [] := by
      rw [hfront] at hleft
      exact List.map_eq_nil_iff.mp hleft.symm
    have hnot : ¬ page.hasMore = true := Bool.eq_false_iff.mp hpageMore
    rw [hmore] at hnot
    have hzero : found.length - base.pageSize.toNat = 0 := by
      show (window _ _ _ _).length - _ = 0
      omega
    show (List.map _ found).reverse = (last.items.map (·.key)).reverse
    rw [hright, hwindow, hleftNil, hzero]
    rfl
  · have hrightNe : right ≠ [] := by
      rcases hcases with ⟨hfront, _⟩ | ⟨_, _, hitems⟩
      · have hpageMore : page.hasMore = true := by
          have hboth : (page.hasMore || decide (1 < (front ++ [last]).length)) = true := hnext
          simpa [hfront] using hboth
        have hleftNil : left = [] := by
          rw [hfront] at hleft
          exact List.map_eq_nil_iff.mp hleft.symm
        have hlt := hmore.mp hpageMore
        intro hnil
        have hlen := congrArg List.length hsplit
        rw [hleftNil, hnil, hmessages, List.length_drop] at hlen
        simp only [List.append_nil, List.length_nil] at hlen
        omega
      · exact (keys_ne_nil hright).mp hitems
    have hleftover : found.take (found.length - base.pageSize.toNat) ++ left ≠ [] := by
      cases hpageMore : page.hasMore with
      | true =>
          have hlt : base.pageSize.toNat < found.length := hmore.mp hpageMore
          intro hnil
          have hlen := congrArg List.length hnil
          rw [List.length_append, List.length_take, List.length_nil] at hlen
          omega
      | false =>
          have hboth : (page.hasMore || decide (1 < (front ++ [last]).length)) = true := hnext
          rcases hcases with ⟨hfront, _⟩ | ⟨_, hitems, _⟩
          · simp [hpageMore, hfront] at hboth
          · have hleftNe : left ≠ [] := (keys_ne_nil hleft).mp hitems
            simp [hleftNe]
    obtain ⟨x, hx, hfirst, hahead⟩ := window_back hlogwf.positions hrightNe hwindow
    have hcursor : (historyBackward v base).next reply = (some x.position, some through) := by
      have hthroughSeq : last.throughSeq = page.throughSeq := by
        rcases hcases with ⟨_, hlast⟩ | ⟨_, _, _⟩
        · exact congrArg MessagesPayload.throughSeq hlast
        · exact cut_through last (by
            rw [← messageChunks, hframes]
            simp)
      show (some (((last.items.head?.map fun row => (row.seq : Int))).getD _), some last.throughSeq) = _
      rw [head_key hright hfirst, hthroughSeq, hbound]
      rfl
    obtain ⟨_, hlow, hhigh⟩ := mem_window.mp hx
    rw [hcursor]
    refine ⟨⟨fun b hb => ?_, rfl⟩, ?_, ?_, ?_⟩
    · obtain rfl := Option.some.inj hb
      show 0 ≤ (x.seq : Int) ∧ x.position ≤ through + 1
      omega
    · show (last.items.map (·.key)).reverse ≠ []
      rw [hright]
      simpa using hrightNe
    · show (List.map _ (window _ _ x.position _)).reverse ≠ []
      rw [hahead]
      exact fun hnil => hleftover (List.map_eq_nil_iff.mp (List.reverse_eq_nil_iff.mp hnil))
    · show (List.map _ found).reverse = (last.items.map (·.key)).reverse ++
        (List.map _ (window _ _ x.position _)).reverse
      rw [hahead, hright, ← List.reverse_append, ← List.map_append, ← hwindow]

theorem mapError_eq_ok {ε ε' α : Type} {x : Except ε α} {f : ε → ε'} {a : α} :
    x.mapError f = .ok a ↔ x = .ok a := by
  cases x with
  | ok b => simp [Except.mapError]
  | error e => simp [Except.mapError]

theorem firstChunk_mem {out : List MessagesPayload × Option Error} {payload : MessagesPayload}
    (h : firstChunk out = .ok payload) : payload ∈ out.1 := by
  match out with
  | (_ :: _, _) =>
      cases h
      exact List.mem_cons_self
  | ([], some _) => cases h
  | ([], none) => cases h

/-- What the first reply of a walk says about its request. -/
theorem first_reply {after : Int} {throughSeq : Option Int} {reply : MessagesPayload}
    (h : getHistory v db (base.forward id after throughSeq) = .ok reply) :
    Accepted v base ∧ (∀ n, throughSeq = some n → -1 ≤ n) ∧
      ∃ page, db.readPage base.sessionId after throughSeq base.pageSize = .ok page ∧
        reply.throughSeq = page.throughSeq := by
  unfold getHistory at h
  obtain ⟨sessionId, hcheck, h⟩ := Except.bind_eq_ok.mp h
  obtain ⟨haccepted, hid⟩ := accepted_of_check hcheck
  obtain ⟨beforeSeq, _, h⟩ := Except.bind_eq_ok.mp h
  have hdirection : (base.forward id after throughSeq).direction ≠ "backward" := by
    show "forward" ≠ "backward"
    decide
  have hid : sessionId = base.sessionId := hid
  rw [if_neg hdirection, hid] at h
  obtain ⟨page, hpage, h⟩ := Except.bind_eq_ok.mp h
  have hpage : db.readPage base.sessionId after throughSeq base.pageSize = .ok page :=
    mapError_eq_ok.mp hpage
  obtain ⟨_, _, hbound, hlow, _⟩ := page_accepted hpage
  refine ⟨⟨haccepted.version, haccepted.session, haccepted.pageSize⟩, ?_, page, hpage, ?_⟩
  · intro n hn
    rw [hn] at hbound
    rwa [hbound] at hlow
  · let out := messageChunks v.sha256 base.displayOnly
      (forwardPayload v (base.forward id after throughSeq) page)
    have hfirst : firstChunk out = .ok reply := h
    have hmem : reply ∈ out.1 := firstChunk_mem hfirst
    exact cut_through reply hmem

end Frames

/-! ## Lossless walks -/

/-- **History walks are lossless.**

The frames of a payload whose rows fit are a chain with all the rows if and only if
the last group of the payload is not at the limit, and no frames deliver a row that
is longer than a frame.

Let the first request of a walk be answered, let every later one be read from a
store that the one before has grown into, and let the rows of the pages fit.  The
walk forward ends and receives the messages up to the bound of the first reply,
each once and in order.  The walk back receives the same messages reply by reply
from the end, if and only if no request of it reads a page at the limit. -/
theorem history_walks {v : HistoryView} {base : HistoryRequest}
    {moments : List (Database × String)} {t₀ : Database × String}
    (hstore : ∀ t ∈ moments, messageStore.Reachable t.1)
    (hgrow : moments.Pairwise fun t u => messageStore.Path Machine.always t.1 u.1)
    (hfirst : moments.head? = some t₀) {throughSeq : Option Int} {reply : MessagesPayload}
    (hreply : (historyForward v base).read t₀ (-1, throughSeq) = .ok reply)
    (hforward : ∀ t ∈ moments, ∀ c, ForwardFits v base t c)
    (hbackward : ∀ t ∈ moments, ∀ c, BackwardFits v base t c)
    (henough : (t₀.1.snapshot base.sessionId).length < moments.length) :
    (∀ (sha256 : String → String) (displayOnly : Bool) (p : MessagesPayload),
      let rows := p.items.map (·.sent sha256 displayOnly)
      (Fits p rows → (Delivered p rows (messageChunks sha256 displayOnly p) ↔ ¬ AtLimit p rows)) ∧
        (Delivered p rows (messageChunks sha256 displayOnly p) →
          ∀ r ∈ rows, messageBytes r.json ≤ maxMessagePayloadBytes)) ∧
    (∃ pages, (historyForward v base).walk (-1, throughSeq) moments = .ok pages ∧
      pages.flatMap (·.keys) = ((t₀.1.snapshot base.sessionId).filter fun m =>
        decide ((m.seq : Int) ≤ reply.throughSeq)).map messageKey ∧
      (historyForward v base).Exact (·.keys) pages ∧
      ∃ last ∈ pages.getLast?, last.hasMore = false) ∧
    ((∃ pages, (historyBackward v base).walk (none, throughSeq) moments = .ok pages ∧
      pages.reverse.flatMap (·.keys) = ((t₀.1.snapshot base.sessionId).filter fun m =>
        decide ((m.seq : Int) ≤ reply.throughSeq)).map messageKey ∧
      (historyBackward v base).Exact (·.keys) pages ∧
      ∃ last ∈ pages.getLast?, last.hasMore = false) ↔
    ∀ t c, (historyBackward v base).Asks (none, throughSeq) moments t c → ¬ TailAtLimit v base t c) := by
  refine ⟨fun _ _ _ => ⟨messageChunks_iff, fun h _ hr => h.row_le hr⟩, ?_⟩
  obtain ⟨db, id⟩ := t₀
  have hanswer : getHistory v db (base.forward id (-1) throughSeq) = .ok reply := hreply
  obtain ⟨haccepted, hcursor, page, hpage, hbound⟩ := first_reply hanswer
  obtain ⟨_, hknown, hthroughSeq, hlow, hhigh⟩ := page_accepted hpage
  rw [← hbound] at hlow hhigh hthroughSeq
  obtain ⟨later, rfl⟩ : ∃ later, moments = (db, id) :: later := by
    cases moments with
    | nil => cases hfirst
    | cons t later =>
        cases hfirst
        exact ⟨later, rfl⟩
  have hinv : ∀ t ∈ (db, id) :: later, LogInvariant t.1 := fun t ht =>
    logInvariant_of_reachable (messageStore_reachable (hstore t ht))
  have hpath : ∀ t ∈ (db, id) :: later, messageStore.Path Machine.always db t.1 := by
    intro t ht
    rcases List.mem_cons.mp ht with rfl | ht
    · exact .refl
    · exact (List.pairwise_cons.mp hgrow).1 t ht
  have hthrough : -1 ≤ reply.throughSeq ∧
      reply.throughSeq < (db.snapshot base.sessionId).length := by
    have hhead : db.head base.sessionId = ((db.snapshot base.sessionId).length : Int) - 1 :=
      (hinv _ List.mem_cons_self).head_eq base.sessionId
    omega
  have hlen {a b : Int} : ((window Message.position a b (db.snapshot base.sessionId)).map
      messageKey).length < ((db, id) :: later).length := by
    rw [List.length_map]
    exact lt_of_le_of_lt (List.length_filter_le _ _) henough
  constructor
  · obtain ⟨pages, hwalk, hflat, hexact, hlast⟩ := Pager.walk_covers
      (fun t ht c hc => forward_reply (hinv t ht) (referenced_of_reachable (hstore t ht))
        (session_path (hpath t ht) hknown) haccepted (snapshot_path (hpath t ht) base.sessionId)
        hthrough c hc (hforward t ht c))
      (c := (-1, some reply.throughSeq)) ⟨⟨le_refl _, hthrough.1⟩, rfl⟩ hlen
    refine ⟨pages, ?_, ?_, hexact, hlast⟩
    · rw [← hwalk]
      refine Pager.walk_first _ ?_ later
      have hsame : db.readPage base.sessionId (-1) (some reply.throughSeq) base.pageSize =
          .ok page := by
        rw [← hpage, hthroughSeq]
        exact (page_bound _ _ _ _).symm
      exact (getHistory_forward haccepted (le_refl _) hcursor hpage).trans
        (getHistory_forward haccepted (le_refl _) (fun n hn => by cases hn; exact hthrough.1)
          hsame).symm
    · rw [hflat, prefix_eq]
  · have htail : db.readTail base.sessionId none throughSeq base.pageSize =
        db.readTail base.sessionId none (some reply.throughSeq) base.pageSize := by
      rw [hthroughSeq]
      exact page_bound _ _ _ _
    have hread : (historyBackward v base).read (db, id) (none, throughSeq) =
        (historyBackward v base).read (db, id) (none, some reply.throughSeq) := by
      obtain ⟨tail, hok, _⟩ := page_tail (hinv _ List.mem_cons_self)
        (referenced_of_reachable (hstore _ List.mem_cons_self)) hknown haccepted.pageSize
        ⟨hthrough.1, hhigh⟩ (fun b (hb : (none : Option Int) = some b) => by cases hb)
      exact (getHistory_backward haccepted (fun n hn => by cases hn) hcursor
        (htail.trans hok)).trans (getHistory_backward haccepted (fun n hn => by cases hn)
          (fun n hn => by cases hn; exact hthrough.1) hok).symm
    have hlimit : TailAtLimit v base (db, id) (none, throughSeq) ↔
        TailAtLimit v base (db, id) (none, some reply.throughSeq) := by
      simp only [TailAtLimit, htail]
      exact Iff.rfl
    rw [Pager.walk_first _ hread later, Pager.asks_first hread hlimit]
    rw [← Pager.walk_covers_iff (TailAtLimit v base)
      (fun t ht c hc => backward_reply (hinv t ht) (referenced_of_reachable (hstore t ht))
        (session_path (hpath t ht) hknown) haccepted (snapshot_path (hpath t ht) base.sessionId)
        hthrough c hc (hbackward t ht c))
      (c := (none, some reply.throughSeq)) ⟨fun b hb => (by cases hb), rfl⟩ (by simpa using hlen)]
    have hpages (pages : List MessagesPayload) : pages.flatMap (fun p => p.keys.reverse) =
        ((window Message.position (-1) (reply.throughSeq + 1) (db.snapshot base.sessionId)).map
          messageKey).reverse ↔
        pages.reverse.flatMap (·.keys) = ((db.snapshot base.sessionId).filter fun m =>
          decide ((m.seq : Int) ≤ reply.throughSeq)).map messageKey := by
      rw [← prefix_eq, ← List.reverse_inj, List.reverse_reverse, List.reverse_flatMap]
      simp [Function.comp_def]
    have hexact (pages : List MessagesPayload) :
        (historyBackward v base).Exact (fun p => p.keys.reverse) pages ↔
          (historyBackward v base).Exact (·.keys) pages := by
      simp only [Pager.Exact, List.flatMap_eq_nil_iff, List.reverse_eq_nil_iff, ne_eq]
    exact exists_congr fun pages => and_congr_right fun _ =>
      and_congr (hpages pages).symm (and_congr_left fun _ => (hexact pages).symm)

/-! ## A log that grows -/

def plainView : HistoryView where
  uuid := fun raw => some (raw, raw)
  sha256 := id
  fields := fun _ _ _ => []

def plainRequest : HistoryRequest := { id := "r", sessionId := "akashic:s", pageSize := 2 }

def plainInputs : Writer := { exampleInputs with sessionId := "akashic:s" }

/-- The store with one more message. -/
def plainGrown (messageId : String) (db : Database) : Database :=
  committed (plainInputs.append 0 { exampleRequest with messageId }) db

/-- A log of three messages, and what it grows into. -/
def plainStores : List Database :=
  let three := plainGrown "o" (plainGrown "n" (plainGrown "m" {}))
  let four := plainGrown "p" three
  [three, four, plainGrown "q" four, plainGrown "q" four]

def plainMoments : List (Database × String) := plainStores.map fun db => (db, "r")

theorem plainGrown_path (messageId : String) (db : Database) :
    messageStore.Path Machine.always db (plainGrown messageId db) :=
  .step (.append plainInputs 0 { exampleRequest with messageId }) .refl trivial rfl

theorem plainStores_reachable : ∀ db ∈ plainStores, messageStore.Reachable db := by
  have hempty : messageStore.Reachable {} := .start ⟨⟨rfl, rfl, rfl⟩, rfl, by simp⟩
  have hthree := ((hempty.path (plainGrown_path "m" _)).path (plainGrown_path "n" _)).path (plainGrown_path "o" _)
  have hfour := hthree.path (plainGrown_path "p" _)
  have hfive := hfour.path (plainGrown_path "q" _)
  intro db hdb
  simp only [plainStores, List.mem_cons, List.not_mem_nil, or_false] at hdb
  rcases hdb with rfl | rfl | rfl | rfl
  · exact hthree
  · exact hfour
  · exact hfive
  · exact hfive

theorem plainStores_grow : plainStores.Pairwise (messageStore.Path Machine.always) := by
  let three := plainGrown "o" (plainGrown "n" (plainGrown "m" {}))
  have hfour : messageStore.Path Machine.always three (plainGrown "p" three) := plainGrown_path "p" _
  have hfive := plainGrown_path "q" (plainGrown "p" three)
  simp only [plainStores, List.pairwise_cons, List.mem_cons, List.not_mem_nil, or_false]
  refine ⟨?_, ?_, ?_, fun db hdb => hdb.elim, .nil⟩
  · rintro db (rfl | rfl | rfl)
    · exact hfour
    · exact hfour.trans hfive
    · exact hfour.trans hfive
  · rintro db (rfl | rfl)
    · exact hfive
    · exact hfive
  · rintro db rfl
    exact .refl

/-- The positions of the log have one or two characters. -/
theorem small_bytes {n : Int} (h : -1 ≤ n ∧ n ≤ 5) : messageBytes (.int n) ≤ 20 := by
  obtain rfl | rfl | rfl | rfl | rfl | rfl | rfl :
    n = -1 ∨ n = 0 ∨ n = 1 ∨ n = 2 ∨ n = 3 ∨ n = 4 ∨ n = 5 := by omega
  all_goals decide

theorem plainStores_rows : ∀ db ∈ plainStores, db.head "akashic:s" ≤ 4 ∧ ∀ m ∈ db.snapshot "akashic:s",
    m.sessionId = "akashic:s" ∧ m.seq ≤ 4 ∧ m.messageId ∈ ["m", "n", "o", "p", "q"] := by
  decide

/-- The rows of the pages of the stores are short. -/
theorem plainRows_small {db : Database} (hdb : db ∈ plainStores) {page : MessagePage}
    (h : ∀ m ∈ page.messages, m ∈ db.snapshot "akashic:s") :
    ∀ r ∈ (plainView.rows false page).map (·.sent plainView.sha256 false),
      messageBytes (.int r.seq) ≤ 20 ∧ messageBytes r.json ≤ 60 := by
  intro r hr
  obtain ⟨row, hrow, rfl⟩ := List.mem_map.mp hr
  obtain ⟨m, hm, rfl⟩ := List.mem_map.mp hrow
  obtain ⟨hsession, hseq, hid⟩ := (plainStores_rows db hdb).2 m (h m hm)
  have hall : ∀ id ∈ ["m", "n", "o", "p", "q"], ∀ seq < 5,
      messageBytes (.int ((⟨id, "akashic:s", seq, []⟩ : MessageRow).sent plainView.sha256 false).seq) ≤ 20 ∧
        messageBytes ((⟨id, "akashic:s", seq, []⟩ : MessageRow).sent plainView.sha256 false).json ≤ 60 := by
    decide
  rw [hsession]
  exact hall m.messageId hid m.seq (by omega)

/-- The fields of the pages of the stores are short. -/
theorem plainTail_small {db : Database} (hdb : db ∈ plainStores) {c : Option Int × Option Int} {page : MessagePage}
    (hpage : db.readTail "akashic:s" c.1 c.2 2 = .ok page) :
    SmallFields (tailPayload plainView plainRequest (db, "r") c page) := by
  obtain ⟨_, _, _, hlow, hhigh⟩ := page_accepted hpage
  obtain ⟨_, hbefore, _⟩ := page_cursors hpage
  have hhead := (plainStores_rows db hdb).1
  have hrange : 0 ≤ c.1.getD (page.throughSeq + 1) ∧ c.1.getD (page.throughSeq + 1) ≤ 5 := by
    cases hc : c.1 with
    | none =>
        show 0 ≤ page.throughSeq + 1 ∧ page.throughSeq + 1 ≤ 5
        omega
    | some b =>
        have hb := hbefore b hc
        show 0 ≤ b ∧ b ≤ 5
        omega
  refine ⟨?_, small_bytes ⟨?_, ?_⟩, small_bytes ⟨?_, ?_⟩⟩
  · show ((backwardFields plainRequest (c.1.getD (page.throughSeq + 1))
      (c.1.getD (page.throughSeq + 1))).map fieldBytes).sum ≤ 4096
    generalize c.1.getD (page.throughSeq + 1) = before at hrange ⊢
    have hbytes := small_bytes (n := before) (by omega)
    have hkeys : ((backwardFields plainRequest 0 0).map fieldBytes).sum ≤ 200 := by decide
    simp only [backwardFields, List.map_append, List.map_cons, List.sum_append, List.sum_cons, fieldBytes] at hkeys ⊢
    omega
  · show -1 ≤ page.throughSeq
    omega
  · show page.throughSeq ≤ 5
    omega
  · show -1 ≤ page.throughSeq
    omega
  · show page.throughSeq ≤ 5
    omega

theorem plain_forward {db : Database} (hdb : db ∈ plainStores) (c : Int × Option Int) :
    ForwardFits plainView plainRequest (db, "r") c := by
  intro page hpage
  obtain ⟨_, _, _, hlow, hhigh⟩ := page_accepted hpage
  obtain ⟨hafter, _, hmem⟩ := page_cursors hpage
  have hhead := (plainStores_rows db hdb).1
  have hthrough : page.throughSeq ≤ 4 := le_trans hhigh hhead
  have hothers : (([("version", .int 2)] : Fields).map fieldBytes).sum ≤ 4096 := by decide
  refine fits_of_small ⟨hothers, small_bytes ⟨hafter.1, ?_⟩, small_bytes ⟨hlow, ?_⟩⟩ fun r hr => ?_
  · show c.1 ≤ 5
    omega
  · show page.throughSeq ≤ 5
    omega
  · obtain ⟨hseq, hjson⟩ := plainRows_small hdb hmem r hr
    exact ⟨hseq, hjson.trans (by decide)⟩

theorem plain_backward {db : Database} (hdb : db ∈ plainStores) (c : Option Int × Option Int) :
    BackwardFits plainView plainRequest (db, "r") c ∧ ¬ TailAtLimit plainView plainRequest (db, "r") c := by
  have hrows {page : MessagePage} (hpage : db.readTail "akashic:s" c.1 c.2 2 = .ok page) :=
    plainRows_small hdb (page_cursors hpage).2.2
  refine ⟨fun page hpage => fits_of_small (plainTail_small hdb hpage) fun r hr => ?_, ?_⟩
  · obtain ⟨hseq, hjson⟩ := hrows hpage r hr
    exact ⟨hseq, hjson.trans (by decide)⟩
  · rintro ⟨page, hpage, hlimit⟩
    refine not_atLimit_of_small (plainTail_small hdb hpage) (fun r hr => (hrows hpage r hr).1) ?_ hlimit
    have hsum := List.sum_le_card_nsmul _ 61 fun n hn => by
      obtain ⟨r, hr, rfl⟩ := List.mem_map.mp hn
      exact Nat.succ_le_succ (hrows hpage r hr).2
    have hlength : page.messages.length ≤ 2 := page_length hpage
    refine hsum.trans ?_
    simp only [List.length_map, smul_eq_mul, HistoryView.rows]
    omega

/-- Both walks of the three messages, two to a page, while the log grows. -/
theorem history_walks_example :
    (∃ pages, (historyForward plainView plainRequest).walk (-1, none) plainMoments = .ok pages ∧
      pages.flatMap (·.keys) = [("m", "akashic:s", 0), ("n", "akashic:s", 1), ("o", "akashic:s", 2)]) ∧
    ∃ pages, (historyBackward plainView plainRequest).walk (none, none) plainMoments = .ok pages ∧
      pages.reverse.flatMap (·.keys) =
        [("m", "akashic:s", 0), ("n", "akashic:s", 1), ("o", "akashic:s", 2)] := by
  let three := plainGrown "o" (plainGrown "n" (plainGrown "m" {}))
  have haccepted : Accepted plainView plainRequest := ⟨rfl, by decide +kernel, by decide⟩
  have hthree : three ∈ plainStores := List.mem_cons_self
  have hstore := plainStores_reachable three hthree
  have hinv := logInvariant_of_reachable (messageStore_reachable hstore)
  have href := referenced_of_reachable hstore
  have hknown : "akashic:s" ∈ three.sessions.map (·.key) := by decide
  have hlength : (2 : Int) < (three.snapshot "akashic:s").length := by decide
  have hhead : three.head "akashic:s" = 2 := by decide
  -- The head is the bound, so the request without a bound is the same.
  obtain ⟨page, hpage, hbound, _⟩ := page_forward hinv href hknown
    (show (1 : Int) ≤ 2 ∧ (2 : Int) ≤ 200 by decide) (show (-1 : Int) ≤ -1 ∧ (-1 : Int) ≤ 2 by decide) hhead.ge
  have hnone : three.readPage "akashic:s" (-1) none 2 = .ok page := by
    rw [Database.readPage, page_bound, Option.getD_none, hhead]
    exact hpage
  obtain ⟨reply, hread, _⟩ := forward_reply hinv href hknown haccepted List.prefix_rfl
    ⟨by decide, hlength⟩ (-1, some 2) ⟨by decide, rfl⟩ (plain_forward hthree (-1, some 2))
  have hreply : (historyForward plainView plainRequest).read (three, "r") (-1, none) = .ok reply := by
    rw [← hread]
    exact (getHistory_forward haccepted (le_refl _) (fun n hn => by cases hn) hnone).trans
      (getHistory_forward haccepted (le_refl _) (fun n hn => by cases hn; decide) hpage).symm
  have hthrough : reply.throughSeq = 2 := by
    obtain ⟨_, _, page', hpage', heq⟩ := first_reply hreply
    cases hnone.symm.trans hpage'
    exact heq.trans hbound
  have hmoments (t : Database × String) (ht : t ∈ plainMoments) : t.1 ∈ plainStores ∧ t = (t.1, "r") := by
    obtain ⟨db, hdb, rfl⟩ := List.mem_map.mp ht
    exact ⟨hdb, rfl⟩
  obtain ⟨_, ⟨pages, hwalk, hflat, _⟩, hiff⟩ := history_walks
    (fun t (ht : t ∈ plainMoments) => plainStores_reachable t.1 (hmoments t ht).1)
    (List.pairwise_map.mpr plainStores_grow) rfl hreply
    (fun t ht c => (hmoments t ht).2 ▸ plain_forward (hmoments t ht).1 c)
    (fun t ht c => (hmoments t ht).2 ▸ (plain_backward (hmoments t ht).1 c).1) (by decide)
  obtain ⟨back, hback, hbackFlat, _⟩ := hiff.mpr fun t c hasks =>
    (hmoments t hasks.mem).2 ▸ (plain_backward (hmoments t hasks.mem).1 c).2
  have hkeys : ((three.snapshot "akashic:s").filter fun m => decide ((m.seq : Int) ≤ 2)).map messageKey =
      [("m", "akashic:s", 0), ("n", "akashic:s", 1), ("o", "akashic:s", 2)] := by decide
  rw [hthrough] at hflat hbackFlat
  exact ⟨⟨pages, hwalk, hflat.trans hkeys⟩, back, hback, hbackFlat.trans hkeys⟩

/-! ## Two pages that are refused -/

/-- A row with a text of `n` bytes. -/
def exampleRow (id : String) (seq n : Nat) : MessageRow :=
  ⟨id, "akashic:s", seq, [("source", .str (String.ofList (List.replicate n 'a')))]⟩

theorem quote_replicate (n : Nat) :
    (quote (String.ofList (List.replicate n 'a'))).utf8ByteSize = n + 2 := by
  have hescape : escapeChar 'a' = "a" := by decide
  have hone : "a".utf8ByteSize = 1 := rfl
  have hquote : "\"".utf8ByteSize = 1 := rfl
  have hjoin : (String.join (List.replicate n "a")).utf8ByteSize = n := by
    induction n with
    | zero => rfl
    | succ n ih =>
        rw [List.replicate_succ, String.join_cons, String.utf8ByteSize_append, ih, hone,
          Nat.add_comm]
  rw [quote, String.toList_ofList, List.map_replicate, hescape, String.utf8ByteSize_append,
    String.utf8ByteSize_append, hjoin, hquote]
  omega

theorem exampleRow_bytes {id : String} {seq : Nat} (n : Nat)
    (hid : messageBytes (.str id) = 4) (hseq : messageBytes (.int seq) = 1) :
    messageBytes (exampleRow id seq n).json = n + 56 := by
  have hkeys : (quote "id").utf8ByteSize = 4 ∧ (quote "session_id").utf8ByteSize = 12 ∧
      (quote "seq").utf8ByteSize = 5 ∧ (quote "source").utf8ByteSize = 8 ∧
      messageBytes (.str "akashic:s") = 11 := by decide
  obtain ⟨hidKey, hsessionKey, hseqKey, hsourceKey, hsession⟩ := hkeys
  have htext : messageBytes (.str (String.ofList (List.replicate n 'a'))) = n + 2 :=
    quote_replicate n
  rw [MessageRow.json, messageBytes_obj (by simp)]
  simp only [exampleRow, List.cons_append, List.nil_append, List.map_cons, List.map_nil,
    List.sum_cons, List.sum_nil, fieldBytes, hidKey, hsessionKey, hseqKey, hsourceKey, hid, hseq,
    hsession, htext]
  omega

/-- Four messages before the others of a log. -/
def exampleTail : MessagePage where
  messages := [("m0", 0), ("m1", 1), ("m2", 2), ("m3", 3)].map fun (m : String × Nat) =>
    ⟨m.1, "akashic:s", m.2, 0, "user", "user", .input ⟨[]⟩, [], fun _ h => by cases h⟩
  attachments := []
  bindings := []
  throughSeq := 10
  hasMore := false

def exampleView : HistoryView where
  uuid := fun raw => some (raw, raw)
  sha256 := id
  fields := fun _ _ m => [("source",
    .str (String.ofList (List.replicate (if m.seq = 3 then 65367 else 60000) 'a')))]

/-- The request for what is before position 4. -/
def exampleRequestTail : HistoryRequest :=
  { id := "r", sessionId := "akashic:s", direction := "backward", throughSeq := some 10
    beforeSeq := some 4 }

theorem exampleTail_bytes {items : List MessageRow} (hitems : items ≠ []) {n : Int}
    (hlast : lastSeq 10 items = n) (hn : messageBytes (.int n) = 1) :
    ((backwardPayload exampleView exampleRequestTail 4 exampleTail).part 10 items true).bytes =
      165 + (items.map fun r => messageBytes r.json + 1).sum := by
  have hkeys : (quote "items").utf8ByteSize = 7 ∧ (quote "after_seq").utf8ByteSize = 11 ∧
      (quote "through_seq").utf8ByteSize = 13 ∧ (quote "next_after_seq").utf8ByteSize = 16 ∧
      (quote "has_more").utf8ByteSize = 10 ∧ messageBytes (.bool true) = 4 ∧
      messageBytes (.int 10) = 2 := by decide
  obtain ⟨hitemsKey, hafterKey, hthroughKey, hnextKey, hmoreKey, htrue, hten⟩ := hkeys
  have hothers : ((backwardFields exampleRequestTail 4 4).map fieldBytes).sum = 87 := by
    decide
  have harr : messageBytes (.arr (items.map (·.json))) =
      1 + (items.map fun r => messageBytes r.json + 1).sum := by
    rw [messageBytes_arr (by simpa using hitems), List.map_map]
    rfl
  rw [MessagesPayload.bytes, MessagesPayload.json, messageBytes_obj (by simp)]
  simp only [MessagesPayload.part, backwardPayload, exampleTail, List.cons_append, List.nil_append,
    List.map_cons, List.sum_cons, fieldBytes, hitemsKey, hafterKey, hthroughKey, hnextKey, hmoreKey,
    htrue, hten, hlast, hn, hothers, harr]
  omega

/-- The four rows fill a frame to the byte, and the frame that says that there is no
more is a byte too long. -/
theorem exampleTail_refused : messageChunks exampleView.sha256 false
    (backwardPayload exampleView exampleRequestTail 4 exampleTail) = ([], some manifestTooLarge) := by
  let p := backwardPayload exampleView exampleRequestTail 4 exampleTail
  have h0 : messageBytes (exampleRow "m0" 0 60000).json = 60000 + 56 :=
    exampleRow_bytes 60000 (by decide) (by decide)
  have h1 : messageBytes (exampleRow "m1" 1 60000).json = 60000 + 56 :=
    exampleRow_bytes 60000 (by decide) (by decide)
  have h2 : messageBytes (exampleRow "m2" 2 60000).json = 60000 + 56 :=
    exampleRow_bytes 60000 (by decide) (by decide)
  have h3 : messageBytes (exampleRow "m3" 3 65367).json = 65367 + 56 :=
    exampleRow_bytes 65367 (by decide) (by decide)
  let r0 := exampleRow "m0" 0 60000
  let r1 := exampleRow "m1" 1 60000
  let r2 := exampleRow "m2" 2 60000
  let r3 := exampleRow "m3" 3 65367
  have hrows : p.items = [r0, r1, r2, r3] := rfl
  have hsent : p.items.map (·.sent exampleView.sha256 false) = [r0, r1, r2, r3] := by
    have h (r : MessageRow) (n : Nat) (hr : messageBytes r.json = n) (hn : n ≤ 64 * 1024) :
        r.sent exampleView.sha256 false = r := by
      rw [MessageRow.sent, if_neg (by omega)]
    rw [hrows]
    simp only [List.map_cons, List.map_nil, h r0 _ h0 (by omega), h r1 _ h1 (by omega),
      h r2 _ h2 (by omega), h r3 _ h3 (by omega)]
  have hlimit : maxMessagePayloadBytes = 245760 := rfl
  have hb0 : (p.part 10 [r0] true).bytes ≤ maxMessagePayloadBytes := by
    rw [exampleTail_bytes (by simp) rfl (by decide)]
    simp only [List.map_cons, List.map_nil, List.sum_cons, List.sum_nil, h0, r0]
    omega
  have hb1 : (p.part 10 [r0, r1] true).bytes ≤ maxMessagePayloadBytes := by
    rw [exampleTail_bytes (by simp) rfl (by decide)]
    simp only [List.map_cons, List.map_nil, List.sum_cons, List.sum_nil, h0, h1, r0, r1]
    omega
  have hb2 : (p.part 10 [r0, r1, r2] true).bytes ≤ maxMessagePayloadBytes := by
    rw [exampleTail_bytes (by simp) rfl (by decide)]
    simp only [List.map_cons, List.map_nil, List.sum_cons, List.sum_nil, h0, h1, h2, r0, r1, r2]
    omega
  have hb3 : (p.part 10 [r0, r1, r2, r3] true).bytes = maxMessagePayloadBytes := by
    rw [exampleTail_bytes (by simp) rfl (by decide)]
    simp only [List.map_cons, List.map_nil, List.sum_cons, List.sum_nil, h0, h1, h2, h3, r0, r1,
      r2, r3]
    omega
  have hover : maxMessagePayloadBytes < (p.part 10 [r0, r1, r2, r3] false).bytes := by
    rw [bytes_more, hb3]
    omega
  rw [messageChunks, hsent]
  calc p.cut [r0, r1, r2, r3] [] 10 = p.cut [r1, r2, r3] [r0] 10 := cut_fits hb0
    _ = p.cut [r2, r3] [r0, r1] 10 := cut_fits hb1
    _ = p.cut [r3] [r0, r1, r2] 10 := cut_fits hb2
    _ = p.cut [] [r0, r1, r2, r3] 10 := cut_fits hb3.le
    _ = ([], some manifestTooLarge) := cut_over hover

theorem exampleOne_control (c : Control) (h : Body.input ⟨[]⟩ = .control c) : c.throughSeq < 0 := by cases h

/-- A message, and the page of it alone. -/
def exampleOne (messageId : String) : Message :=
  ⟨messageId, "akashic:s", 0, 0, "user", "user", .input ⟨[]⟩, [], exampleOne_control⟩

def examplePage (messageId : String) : MessagePage where
  messages := [exampleOne messageId]
  attachments := []
  bindings := []
  throughSeq := 0
  hasMore := false

/-- A message whose identity is longer than a frame has no reference that fits. -/
theorem examplePage_refused {messageId : String}
    (h : maxMessagePayloadBytes < messageBytes (.str messageId)) (v : HistoryView)
    (r : HistoryRequest) :
    messageChunks v.sha256 r.displayOnly (forwardPayload v r (examplePage messageId)) =
      ([], some manifestTooLarge) := by
  let p := forwardPayload v r (examplePage messageId)
  let row : MessageRow := ⟨messageId, "akashic:s", 0,
    v.fields r.displayOnly (examplePage messageId) (exampleOne messageId)⟩
  let sent := row.sent v.sha256 r.displayOnly
  have hsent : p.items.map (·.sent v.sha256 r.displayOnly) = [sent] := rfl
  have hid : sent.id = messageId := congrArg (·.1) (sent_key v.sha256 r.displayOnly row)
  have hlong := (id_le_bytes sent).trans ((row_lt_rowBytes (List.mem_singleton_self sent)).le.trans
    (rowBytes_le p p.afterSeq [sent] (decide ((sent.seq : Int) ≠ p.throughSeq))))
  rw [hid] at hlong
  rw [messageChunks, hsent]
  exact cut_refused (lt_of_lt_of_le h hlong)

/-- A page whose only message has an identity longer than a frame is refused, by
design; and a page of four small rows is refused for the byte that `false` is longer
than `true`. -/
theorem history_refused :
    messageChunks exampleView.sha256 false (forwardPayload exampleView { exampleRequestTail with
        direction := "forward" } (examplePage (String.ofList (List.replicate 250000 'a')))) =
      ([], some manifestTooLarge) ∧
    messageChunks exampleView.sha256 false
        (backwardPayload exampleView exampleRequestTail 4 exampleTail) =
      ([], some manifestTooLarge) := by
  have hlong (n : Nat) (hn : maxMessagePayloadBytes < n + 2) :
      maxMessagePayloadBytes < messageBytes (.str (String.ofList (List.replicate n 'a'))) :=
    lt_of_lt_of_eq hn (quote_replicate n).symm
  exact ⟨examplePage_refused (hlong 250000 (by decide)) exampleView _, exampleTail_refused⟩

end MonoAgent.Mobile
