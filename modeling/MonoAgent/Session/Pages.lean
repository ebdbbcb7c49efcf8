import Mathlib
import MonoAgent.Lib.Paging
import MonoAgent.Session.References

/-!
# Pages of the log

`Database.page` is `MessageReader._page`: one bounds computation for pages that
run forward behind `after_seq` and for pages that run back before `before_seq`.
A page holds its messages, their references and the upper bound it was read
under, and says whether there is more.

`page_forward` and `page_tail` say what an accepted page is, as a piece of a
window of the log.  The two walks are `Pager`s over them: each request names the
position the page before it ended at and the bound of the first page, and is read
from the store of its own moment.
-/

namespace MonoAgent.Session

open MonoAgent.Lib

/-! ## Pages -/

/-- A page of one Session. -/
structure MessagePage where
  messages : List Message
  /-- The artifacts of each message, by the identity of the message. -/
  attachments : Dict String (List String)
  bindings : Dict String String
  throughSeq : Int
  hasMore : Bool
deriving DecidableEq

namespace Database

/-- One row of an attachment: it must be the next ordinal of its message and
name a published artifact. -/
def attachmentRef (db : Database) (refs : List String) (a : AttachmentLink) :
    Except Error (List String) := do
  ensure (a.ordinal = refs.length ∧ a.artifactId ∈ db.attachments.keys)
    ⟨.valueError, "Message " ++ a.messageId ++ " 附件引用损坏"⟩
  ensure (db.ready a.artifactId) ⟨.valueError, "附件尚未发布"⟩
  return refs ++ [a.artifactId]

/-- The artifacts of a message, by ordinal. -/
def attachmentRefs (db : Database) (messageId : String) : Except Error (List String) :=
  ((db.messageAttachments.filter (·.messageId = messageId)).insertionSort
    fun a b => a.ordinal ≤ b.ordinal).foldlM db.attachmentRef []

/-- `_page_references`.  Rows come ordered by message, so the first corrupt one is
the one that is named. -/
def pageReferences (db : Database) (messages : List Message) :
    Except Error (Dict String (List String) × Dict String String) := do
  let ids := (messages.map (·.messageId)).mergeSort
  let attachments ← ids.mapM fun id => do return (id, ← db.attachmentRefs id)
  let linked := ((db.messageBindings.filter (·.1 ∈ ids)).map (·.2)).dedup.mergeSort
  let bindings ← linked.mapM fun id =>
    match db.bindings.get? id with
    | none => .error ⟨.valueError, "binding " ++ id ++ " 损坏: JSON 原文必须是文本"⟩
    | some descriptor => .ok (id, descriptor)
  return (attachments, bindings)

/-- `MessageReader._page`. -/
def page (db : Database) (sessionId : String) (afterSeq : Int) (beforeSeq throughSeq : Option Int)
    (limit : Int) (tail : Bool) : Except Error MessagePage := do
  ensure ((1 ≤ limit ∧ limit ≤ 200) ∧ -1 ≤ afterSeq ∧ ∀ b, beforeSeq = some b → 0 ≤ b)
    ⟨.invalidPage, "消息页范围或 limit 无效"⟩
  ensure (sessionId ∈ db.sessions.map (·.key)) ⟨.keyError, sessionId⟩
  let head := db.head sessionId
  let through := throughSeq.getD head
  ensure ((-1 ≤ through ∧ through ≤ head) ∧ afterSeq ≤ through)
    ⟨.invalidPage, "消息页上界或 cursor 超过已接纳前缀"⟩
  let before := beforeSeq.getD (through + 1)
  ensure (before ≤ through + 1) ⟨.invalidPage, "消息页 before_seq 超过快照上界"⟩
  let found := (db.snapshot sessionId).filter fun m =>
    afterSeq < m.seq ∧ m.seq ≤ through ∧ m.seq < before
  -- One row more than asked for tells whether there is another page.
  let rows := (if tail then found.reverse else found).take (limit + 1).toNat
  let selected := rows.take limit.toNat
  let messages := if tail then selected.reverse else selected
  let references ← db.pageReferences messages
  return ⟨messages, references.1, references.2, through, limit < rows.length⟩

/-- `MessageReader.read_page`. -/
def readPage (db : Database) (sessionId : String) (afterSeq : Int) (throughSeq : Option Int)
    (limit : Int) : Except Error MessagePage :=
  db.page sessionId afterSeq none throughSeq limit false

/-- `MessageReader.read_tail`. -/
def readTail (db : Database) (sessionId : String) (beforeSeq throughSeq : Option Int)
    (limit : Int) : Except Error MessagePage :=
  db.page sessionId (-1) beforeSeq throughSeq limit true

end Database

/-! ## References -/

section References

variable {db : Database}

theorem attachmentRef_eq_ok {refs refs' : List String} {a : AttachmentLink} :
    db.attachmentRef refs a = .ok refs' ↔
      (a.ordinal = refs.length ∧ a.artifactId ∈ db.attachments.keys) ∧
        db.ready a.artifactId = true ∧ refs' = refs ++ [a.artifactId] := by
  rw [Database.attachmentRef]
  constructor
  · intro h
    obtain ⟨_, h₁, h⟩ := Except.bind_eq_ok.mp h
    obtain ⟨_, h₂, h⟩ := Except.bind_eq_ok.mp h
    cases h
    exact ⟨ensure_eq_ok.mp h₁, ensure_eq_ok.mp h₂, rfl⟩
  · rintro ⟨h₁, h₂, rfl⟩
    exact Except.bind_eq_ok.mpr ⟨(), ensure_eq_ok.mpr h₁,
      Except.bind_eq_ok.mpr ⟨(), ensure_eq_ok.mpr h₂, rfl⟩⟩

/-- Rows that count on from the references read so far are all read. -/
theorem attachmentRefs_fold (href : Referenced db) {links : List AttachmentLink} {refs : List String}
    (hmem : ∀ a ∈ links, a ∈ db.messageAttachments)
    (hord : links.map (·.ordinal) = List.range' refs.length links.length) :
    links.foldlM db.attachmentRef refs = .ok (refs ++ links.map (·.artifactId)) := by
  induction links generalizing refs with
  | nil => simp [pure, Except.pure]
  | cons a links ih =>
      have ha : a ∈ db.messageAttachments := hmem a List.mem_cons_self
      simp only [List.map_cons, List.length_cons, List.range'_succ, List.cons.injEq] at hord
      have hstep : db.attachmentRef refs a = .ok (refs ++ [a.artifactId]) :=
        attachmentRef_eq_ok.mpr ⟨⟨hord.1, href.attachments a ha⟩, href.ready ha, rfl⟩
      have hrest : links.foldlM db.attachmentRef (refs ++ [a.artifactId]) =
          .ok (refs ++ [a.artifactId] ++ links.map (·.artifactId)) :=
        ih (fun b hb => hmem b (List.mem_cons_of_mem _ hb)) (by simpa using hord.2)
      rw [List.foldlM_cons, hstep]
      refine hrest.trans ?_
      simp

theorem attachmentRefs_ok (hinv : LogInvariant db) (href : Referenced db) (messageId : String) :
    ∃ refs, db.attachmentRefs messageId = .ok refs := by
  let links := db.messageAttachments.filter (·.messageId = messageId)
  obtain ⟨k, hk⟩ := hinv.ordinals messageId
  have hlen : links.length = k := by simpa using congrArg List.length hk
  have hsorted : links.Pairwise fun a b => a.ordinal ≤ b.ordinal := by
    have hrange : (links.map (·.ordinal)).Pairwise (· ≤ ·) := by
      rw [hk]
      exact List.pairwise_le_range
    exact List.pairwise_map.mp hrange
  have hmem : ∀ a ∈ links, a ∈ db.messageAttachments := fun a ha => List.mem_of_mem_filter ha
  have hord : links.map (·.ordinal) = List.range' ([] : List String).length links.length := by
    rw [hk, hlen, List.range_eq_range']
    rfl
  refine ⟨[] ++ links.map (·.artifactId), ?_⟩
  rw [Database.attachmentRefs, List.Pairwise.insertionSort_eq hsorted]
  exact attachmentRefs_fold href hmem hord

/-- The references of a stored message can always be read. -/
theorem pageReferences_ok (hinv : LogInvariant db) (href : Referenced db)
    (messages : List Message) : ∃ references, db.pageReferences messages = .ok references := by
  let ids := (messages.map (·.messageId)).mergeSort
  obtain ⟨attachments, hattachments⟩ : ∃ out, (ids.mapM fun id => do
      return (id, ← db.attachmentRefs id)) = (.ok out : Except Error _) := by
    refine Except.mapM_ok fun id _ => ?_
    obtain ⟨refs, hrefs⟩ := attachmentRefs_ok hinv href id
    exact ⟨(id, refs), by rw [hrefs]; rfl⟩
  obtain ⟨bindings, hbindings⟩ : ∃ out, ((((db.messageBindings.filter (·.1 ∈ ids)).map
      (·.2)).dedup.mergeSort).mapM fun id => match db.bindings.get? id with
        | none => .error ⟨.valueError, "binding " ++ id ++ " 损坏: JSON 原文必须是文本"⟩
        | some descriptor => .ok (id, descriptor)) = (.ok out : Except Error _) := by
    refine Except.mapM_ok fun id hid => ?_
    rw [List.mem_mergeSort, List.mem_dedup] at hid
    obtain ⟨link, hlink, rfl⟩ := List.mem_map.mp hid
    have hkey := href.bindings link (List.mem_of_mem_filter hlink)
    cases hget : db.bindings.get? link.2 with
    | none => exact absurd hkey (Dict.get?_eq_none.mp hget)
    | some descriptor => exact ⟨(link.2, descriptor), rfl⟩
  refine ⟨(attachments, bindings), ?_⟩
  rw [Database.pageReferences]
  exact Except.bind_eq_ok.mpr ⟨attachments, hattachments,
    Except.bind_eq_ok.mpr ⟨bindings, hbindings, rfl⟩⟩

end References

/-! ## The head -/

theorem foldl_head {log : List Message} (hlog : WellFormed log) :
    log.foldl (fun h m => if (none : Option String).all (· = m.source) then max h (m.seq : Int)
      else h) (-1) = (log.length : Int) - 1 := by
  induction hlog with
  | nil => rfl
  | @snoc log m _ ha ih =>
      rw [List.foldl_append, ih]
      simp only [Option.all_none, if_true, List.foldl_cons, List.foldl_nil, ha.seq,
        List.length_append, List.length_singleton]
      omega

/-- The head is the last position of the log. -/
theorem LogInvariant.head_eq {db : Database} (hinv : LogInvariant db) (sessionId : String) :
    db.head sessionId = ((db.snapshot sessionId).length : Int) - 1 :=
  foldl_head (hinv.wellFormed sessionId)

/-! ## What a page holds -/

section Spec

variable {db : Database} {sessionId : String} {afterSeq through before limit : Int}

/-- The position of a message. -/
def Message.position (m : Message) : Int := m.seq

theorem WellFormed.positions {log : List Message} (h : WellFormed log) :
    log.Pairwise fun x y => x.position < y.position :=
  h.pairwise_seq.imp fun hlt => Int.ofNat_lt.mpr hlt

/-- What is appended later lies past the log. -/
theorem window_grown {log log' : List Message} (h : WellFormed log') (hgrow : log <+: log')
    {a b : Int} (hb : b ≤ log.length) :
    window Message.position a b log' = window Message.position a b log := by
  obtain ⟨more, rfl⟩ := hgrow
  refine window_append fun m hm => ?_
  have hseq : more.map (·.seq) = (List.range more.length).map (log.length + ·) := by
    have hmap := h.map_seq
    rw [List.map_append, List.length_append, List.range_add] at hmap
    exact (List.append_inj hmap (by simp)).2
  obtain ⟨i, _, hi⟩ := List.mem_map.mp (hseq ▸ List.mem_map_of_mem hm)
  show b ≤ (m.seq : Int)
  omega

/-- The rows a page selects from are a window of the log. -/
theorem found_eq (hbefore : before ≤ through + 1) :
    (db.snapshot sessionId).filter (fun m =>
      decide (afterSeq < m.seq ∧ (m.seq : Int) ≤ through ∧ (m.seq : Int) < before)) =
      window Message.position afterSeq before (db.snapshot sessionId) := by
  refine List.filter_congr fun m _ => ?_
  have hiff : (afterSeq < (m.seq : Int) ∧ (m.seq : Int) ≤ through ∧ (m.seq : Int) < before) ↔
      afterSeq < m.position ∧ m.position < before := by
    show _ ↔ afterSeq < (m.seq : Int) ∧ (m.seq : Int) < before
    omega
  simp only [hiff]

/-- A page that no check refuses. -/
theorem page_ok (hinv : LogInvariant db) (href : Referenced db)
    (hknown : sessionId ∈ db.sessions.map (·.key)) (hlimit : 1 ≤ limit ∧ limit ≤ 200)
    (hafter : -1 ≤ afterSeq ∧ afterSeq ≤ through) (hthrough : through ≤ db.head sessionId)
    (beforeSeq : Option Int) (hbefore : ∀ b, beforeSeq = some b → 0 ≤ b ∧ b ≤ through + 1)
    (tail : Bool) :
    ∃ page, db.page sessionId afterSeq beforeSeq (some through) limit tail = .ok page ∧
      page.throughSeq = through ∧
      let found := window Message.position afterSeq (beforeSeq.getD (through + 1))
        (db.snapshot sessionId)
      let rows := (if tail then found.reverse else found).take (limit + 1).toNat
      page.messages = (if tail then (rows.take limit.toNat).reverse else rows.take limit.toNat) ∧
        page.hasMore = decide (limit < rows.length) := by
  have hle : beforeSeq.getD (through + 1) ≤ through + 1 := by
    cases beforeSeq with
    | none => exact le_refl _
    | some b => exact (hbefore b rfl).2
  let rows := (if tail then (window Message.position afterSeq (beforeSeq.getD (through + 1))
    (db.snapshot sessionId)).reverse else window Message.position afterSeq
    (beforeSeq.getD (through + 1)) (db.snapshot sessionId)).take (limit + 1).toNat
  obtain ⟨references, hreferences⟩ := pageReferences_ok hinv href
    (if tail then (rows.take limit.toNat).reverse else rows.take limit.toNat)
  refine ⟨⟨_, references.1, references.2, through, limit < rows.length⟩, ?_, rfl, rfl, rfl⟩
  rw [Database.page]
  refine Except.bind_eq_ok.mpr ⟨(), ensure_eq_ok.mpr ⟨hlimit, hafter.1, fun b hb => (hbefore b hb).1⟩, ?_⟩
  refine Except.bind_eq_ok.mpr ⟨(), ensure_eq_ok.mpr hknown, ?_⟩
  refine Except.bind_eq_ok.mpr ⟨(), ensure_eq_ok.mpr
    ⟨⟨le_trans hafter.1 hafter.2, hthrough⟩, hafter.2⟩, ?_⟩
  refine Except.bind_eq_ok.mpr ⟨(), ensure_eq_ok.mpr hle, ?_⟩
  refine Except.bind_eq_ok.mpr ⟨references, ?_, ?_⟩
  · show db.pageReferences _ = _
    simp only [Option.getD_some, found_eq hle]
    exact hreferences
  · simp only [Option.getD_some, found_eq hle]
    rfl

/-- A page behind `after_seq` is the front of the window. -/
theorem page_forward (hinv : LogInvariant db) (href : Referenced db)
    (hknown : sessionId ∈ db.sessions.map (·.key)) (hlimit : 1 ≤ limit ∧ limit ≤ 200)
    (hafter : -1 ≤ afterSeq ∧ afterSeq ≤ through) (hthrough : through ≤ db.head sessionId) :
    ∃ page, db.readPage sessionId afterSeq (some through) limit = .ok page ∧
      page.throughSeq = through ∧
      page.messages = (window Message.position afterSeq (through + 1)
        (db.snapshot sessionId)).take limit.toNat ∧
      (page.hasMore = true ↔ limit.toNat < (window Message.position afterSeq (through + 1)
        (db.snapshot sessionId)).length) := by
  obtain ⟨page, hpage, hthrough, hmessages, hmore⟩ := page_ok hinv href hknown
    hlimit hafter hthrough none (fun b hb => by cases hb) false
  have hsucc : (limit + 1).toNat = limit.toNat + 1 := by omega
  refine ⟨page, hpage, hthrough, ?_, ?_⟩
  · rw [hmessages, hsucc]
    simp [List.take_take]
  · rw [hmore, hsucc]
    simp only [Bool.false_eq_true, if_false, Option.getD_none, List.length_take, decide_eq_true_eq]
    omega

/-- A page before `before_seq` is the back of the window. -/
theorem page_tail (hinv : LogInvariant db) (href : Referenced db)
    (hknown : sessionId ∈ db.sessions.map (·.key)) (hlimit : 1 ≤ limit ∧ limit ≤ 200)
    (hthrough : -1 ≤ through ∧ through ≤ db.head sessionId) {beforeSeq : Option Int}
    (hbefore : ∀ b, beforeSeq = some b → 0 ≤ b ∧ b ≤ through + 1) :
    ∃ page, db.readTail sessionId beforeSeq (some through) limit = .ok page ∧
      page.throughSeq = through ∧
      let found := window Message.position (-1) (beforeSeq.getD (through + 1))
        (db.snapshot sessionId)
      page.messages = found.drop (found.length - limit.toNat) ∧
        (page.hasMore = true ↔ limit.toNat < found.length) := by
  have hafter : (-1 : Int) ≤ -1 ∧ -1 ≤ through := ⟨le_refl _, hthrough.1⟩
  obtain ⟨page, hpage, hthrough, hmessages, hmore⟩ := page_ok hinv href hknown
    hlimit hafter hthrough.2 beforeSeq hbefore true
  have hsucc : (limit + 1).toNat = limit.toNat + 1 := by omega
  refine ⟨page, hpage, hthrough, ?_, ?_⟩
  · have hmin : min limit.toNat (limit.toNat + 1) = limit.toNat := by omega
    simp only [hmessages, hsucc, if_true]
    rw [List.take_take, hmin, List.take_reverse, List.reverse_reverse]
  · rw [hmore, hsucc]
    simp only [if_true, List.length_take, List.length_reverse, decide_eq_true_eq]
    omega

end Spec

/-! ## Walks -/

section Walks

variable (sessionId : String) (limit : Int)

/-- Follow `read_page` with `after_seq` set to the last seq of the page before.  A
request names a position and the bound of the first page. -/
def forward : Pager Database (Int × Option Int) Error MessagePage where
  read db c := db.readPage sessionId c.1 c.2 limit
  more page := page.hasMore
  next page := ((page.messages.getLast?.map Message.position).getD (-1), some page.throughSeq)

/-- Follow `read_tail` with `before_seq` set to the first seq of the page before. -/
def backward : Pager Database (Option Int × Option Int) Error MessagePage where
  read db c := db.readTail sessionId c.1 c.2 limit
  more page := page.hasMore
  next page := (page.messages.head?.map Message.position, some page.throughSeq)

variable {sessionId limit} {log : List Message} {db : Database} {through : Int}

/-- The page `read_page` returns covers the front of what remains behind the
cursor, in every store that extends the log. -/
theorem forward_covers (hinv : LogInvariant db) (href : Referenced db)
    (hknown : sessionId ∈ db.sessions.map (·.key)) (hlimit : 1 ≤ limit ∧ limit ≤ 200)
    (hgrow : log <+: db.snapshot sessionId) (hthrough : through < log.length)
    (c : Int × Option Int) (hc : (-1 ≤ c.1 ∧ c.1 ≤ through) ∧ c.2 = some through) :
    ∃ page, (forward sessionId limit).read db c = .ok page ∧
      (forward sessionId limit).Covers MessagePage.messages
        (fun c => window Message.position c.1 (through + 1) log)
        (fun c => (-1 ≤ c.1 ∧ c.1 ≤ through) ∧ c.2 = some through) c page := by
  obtain ⟨after, bound⟩ := c
  obtain ⟨hafter, rfl⟩ : (-1 ≤ after ∧ after ≤ through) ∧ bound = some through := hc
  have hwf := hinv.wellFormed sessionId
  have hsorted := (hwf.of_prefix hgrow).positions
  have hle : through ≤ db.head sessionId := by
    have hlen := hgrow.length_le
    rw [hinv.head_eq]
    omega
  obtain ⟨page, hpage, hbound, hmessages, hmore⟩ :=
    page_forward hinv href hknown hlimit hafter hle
  have hsucc : through + 1 ≤ log.length := by omega
  rw [window_grown hwf hgrow hsucc] at hmessages hmore
  refine ⟨page, hpage, fun hlast => ?_, fun hnext => ?_⟩
  · have hall : (window Message.position after (through + 1) log).length ≤ limit.toNat := by
      have hnot : ¬ page.hasMore = true := Bool.eq_false_iff.mp hlast
      rw [hmore] at hnot
      omega
    rw [hmessages, List.take_of_length_le hall]
  · have hlt := hmore.mp hnext
    have hpos : 0 < limit.toNat := by omega
    obtain ⟨x, hx, hmem, hrest⟩ := window_take hsorted hpos hlt
    have hcursor : (forward sessionId limit).next page = (x.position, some through) := by
      simp [forward, hmessages, hx, hbound]
    obtain ⟨_, hleft, hright⟩ := mem_window.mp hmem
    rw [hcursor]
    refine ⟨⟨⟨?_, ?_⟩, rfl⟩, ?_, ?_, ?_⟩
    · show -1 ≤ (x.seq : Int)
      omega
    · show x.position ≤ through
      omega
    · rw [hmessages]
      intro hnil
      rw [hnil] at hx
      cases hx
    · show window _ x.position _ _ ≠ []
      rw [hrest]
      simpa using hlt
    · show window _ after _ _ = page.messages ++ window _ x.position _ _
      rw [hrest, hmessages, List.take_append_drop]

/-- The page `read_tail` returns covers the back of what remains before the
cursor. -/
theorem backward_covers (hinv : LogInvariant db) (href : Referenced db)
    (hknown : sessionId ∈ db.sessions.map (·.key)) (hlimit : 1 ≤ limit ∧ limit ≤ 200)
    (hgrow : log <+: db.snapshot sessionId) (hthrough : -1 ≤ through ∧ through < log.length)
    (c : Option Int × Option Int)
    (hc : (∀ b, c.1 = some b → 0 ≤ b ∧ b ≤ through + 1) ∧ c.2 = some through) :
    ∃ page, (backward sessionId limit).read db c = .ok page ∧
      (backward sessionId limit).Covers (fun page => page.messages.reverse)
        (fun c => (window Message.position (-1) (c.1.getD (through + 1)) log).reverse)
        (fun c => (∀ b, c.1 = some b → 0 ≤ b ∧ b ≤ through + 1) ∧ c.2 = some through) c page := by
  obtain ⟨beforeSeq, bound⟩ := c
  obtain ⟨hbefore, rfl⟩ := hc
  have hwf := hinv.wellFormed sessionId
  have hsorted := (hwf.of_prefix hgrow).positions
  have hle : through ≤ db.head sessionId := by
    have hlen := hgrow.length_le
    rw [hinv.head_eq]
    omega
  have hbeforeLe : beforeSeq.getD (through + 1) ≤ through + 1 := by
    cases beforeSeq with
    | none => exact le_refl _
    | some b => exact (hbefore b rfl).2
  obtain ⟨page, hpage, hbound, hmessages, hmore⟩ :=
    page_tail hinv href hknown hlimit ⟨hthrough.1, hle⟩ hbefore
  have hsucc : beforeSeq.getD (through + 1) ≤ log.length := by omega
  rw [window_grown hwf hgrow hsucc] at hmessages hmore
  refine ⟨page, hpage, fun hlast => ?_, fun hnext => ?_⟩
  · have hnone : (window Message.position (-1) (beforeSeq.getD (through + 1)) log).length -
        limit.toNat = 0 := by
      have hnot : ¬ page.hasMore = true := Bool.eq_false_iff.mp hlast
      rw [hmore] at hnot
      omega
    rw [hmessages, hnone, List.drop_zero]
  · have hlt := hmore.mp hnext
    have hpos : 0 < limit.toNat := by omega
    obtain ⟨x, hx, hmem, hrest⟩ := window_drop (f := Message.position) (a := -1)
      (b := beforeSeq.getD (through + 1)) hsorted
      (k := (window Message.position (-1) (beforeSeq.getD (through + 1)) log).length - limit.toNat)
      (by omega)
    have hcursor : (backward sessionId limit).next page = (some x.position, some through) := by
      simp only [backward, hmessages, hx, hbound, Option.map_some]
    obtain ⟨_, hleft, hright⟩ := mem_window.mp hmem
    rw [hcursor]
    refine ⟨⟨fun b hb => ?_, rfl⟩, ?_, ?_, ?_⟩
    · obtain rfl := Option.some.inj hb
      show 0 ≤ (x.seq : Int) ∧ x.position ≤ through + 1
      omega
    · rw [hmessages]
      intro hnil
      rw [List.reverse_eq_nil_iff.mp hnil] at hx
      cases hx
    · show (window _ _ x.position _).reverse ≠ []
      rw [hrest]
      intro hnil
      have hlen := congrArg List.length hnil
      simp only [List.length_reverse, List.length_take, List.length_nil] at hlen
      omega
    · show (window _ _ (beforeSeq.getD (through + 1)) _).reverse =
        page.messages.reverse ++ (window _ _ x.position _).reverse
      rw [hrest, hmessages, ← List.reverse_append, List.take_append_drop]

/-- What is read of the log up to a bound. -/
theorem prefix_eq (log : List Message) :
    window Message.position (-1) (through + 1) log =
      log.filter fun m => decide ((m.seq : Int) ≤ through) := by
  refine List.filter_congr fun m _ => ?_
  have hiff : (-1 < m.position ∧ m.position < through + 1) ↔ (m.seq : Int) ≤ through := by
    show -1 < (m.seq : Int) ∧ (m.seq : Int) < through + 1 ↔ _
    omega
  simp only [hiff]

/-- What the checks of a page say about a request it answers. -/
theorem page_accepted {afterSeq : Int} {beforeSeq throughSeq : Option Int} {tail : Bool}
    {page : MessagePage}
    (h : db.page sessionId afterSeq beforeSeq throughSeq limit tail = .ok page) :
    (1 ≤ limit ∧ limit ≤ 200) ∧ sessionId ∈ db.sessions.map (·.key) ∧
      page.throughSeq = throughSeq.getD (db.head sessionId) ∧ -1 ≤ page.throughSeq ∧
      page.throughSeq ≤ db.head sessionId := by
  rw [Database.page] at h
  obtain ⟨_, hrange, h⟩ := Except.bind_eq_ok.mp h
  obtain ⟨_, hknown, h⟩ := Except.bind_eq_ok.mp h
  obtain ⟨_, hthrough, h⟩ := Except.bind_eq_ok.mp h
  obtain ⟨_, _, h⟩ := Except.bind_eq_ok.mp h
  obtain ⟨references, _, h⟩ := Except.bind_eq_ok.mp h
  cases h
  have hbounds := (ensure_eq_ok.mp hthrough).1
  exact ⟨(ensure_eq_ok.mp hrange).1, ensure_eq_ok.mp hknown, rfl, hbounds⟩

/-- The cursors of a request that is answered lie within its bound, and the page
has messages of the Session. -/
theorem page_cursors {afterSeq : Int} {beforeSeq throughSeq : Option Int} {tail : Bool}
    {page : MessagePage}
    (h : db.page sessionId afterSeq beforeSeq throughSeq limit tail = .ok page) :
    (-1 ≤ afterSeq ∧ afterSeq ≤ page.throughSeq) ∧
      (∀ b, beforeSeq = some b → 0 ≤ b ∧ b ≤ page.throughSeq + 1) ∧
      ∀ m ∈ page.messages, m ∈ db.snapshot sessionId := by
  rw [Database.page] at h
  obtain ⟨_, hrange, h⟩ := Except.bind_eq_ok.mp h
  obtain ⟨_, _, h⟩ := Except.bind_eq_ok.mp h
  obtain ⟨_, hthrough, h⟩ := Except.bind_eq_ok.mp h
  obtain ⟨_, hbefore, h⟩ := Except.bind_eq_ok.mp h
  obtain ⟨references, _, h⟩ := Except.bind_eq_ok.mp h
  cases h
  obtain ⟨_, hafter, hpositive⟩ := ensure_eq_ok.mp hrange
  refine ⟨⟨hafter, (ensure_eq_ok.mp hthrough).2⟩, fun b hb => ?_, fun m hm => ?_⟩
  · have hle := ensure_eq_ok.mp hbefore
    rw [hb] at hle
    exact ⟨hpositive b hb, hle⟩
  · have hrows : ∀ rows : List Message, m ∈ (if tail = true then (rows.take limit.toNat).reverse
        else rows.take limit.toNat) → m ∈ rows := by
      intro rows hin
      split at hin
      · exact List.mem_of_mem_take (List.mem_reverse.mp hin)
      · exact List.mem_of_mem_take hin
    have hfound := List.mem_of_mem_take (hrows _ hm)
    split at hfound
    · exact List.mem_of_mem_filter (List.mem_reverse.mp hfound)
    · exact List.mem_of_mem_filter hfound

theorem page_length {afterSeq : Int} {beforeSeq throughSeq : Option Int} {tail : Bool}
    {page : MessagePage}
    (h : db.page sessionId afterSeq beforeSeq throughSeq limit tail = .ok page) :
    page.messages.length ≤ limit.toNat := by
  rw [Database.page] at h
  obtain ⟨_, _, h⟩ := Except.bind_eq_ok.mp h
  obtain ⟨_, _, h⟩ := Except.bind_eq_ok.mp h
  obtain ⟨_, _, h⟩ := Except.bind_eq_ok.mp h
  obtain ⟨_, _, h⟩ := Except.bind_eq_ok.mp h
  obtain ⟨references, _, h⟩ := Except.bind_eq_ok.mp h
  cases h
  cases tail with
  | true => simp
  | false => simp

/-- A first page without a bound is read under the head. -/
theorem page_bound (afterSeq : Int) (beforeSeq throughSeq : Option Int) (tail : Bool) :
    db.page sessionId afterSeq beforeSeq throughSeq limit tail =
      db.page sessionId afterSeq beforeSeq (some (throughSeq.getD (db.head sessionId))) limit
        tail := by
  cases throughSeq <;> rfl

/-- **Pages partition the prefix.**  Let the first page of a walk be answered.  Each
later page is read from a store the one before has grown into.  Following
`read_page` until there is no more yields the messages up to the bound of the
first page, each once and in order; following `read_tail` yields the same
messages page by page from the end; and each page says rightly whether the walk
has messages left. -/
theorem pages_partition {stores : List Database} (hstore : ∀ db ∈ stores, messageStore.Reachable db)
    (hgrow : stores.Pairwise (messageStore.Path Machine.always)) (hfirst : stores.head? = some db)
    {throughSeq : Option Int} {first : MessagePage}
    (hpage : db.readPage sessionId (-1) throughSeq limit = .ok first)
    (henough : (db.snapshot sessionId).length < stores.length) :
    (∃ pages, (forward sessionId limit).walk (-1, throughSeq) stores = .ok pages ∧
      pages.flatMap (·.messages) =
        (db.snapshot sessionId).filter (fun m => decide ((m.seq : Int) ≤ first.throughSeq)) ∧
      (forward sessionId limit).Exact (·.messages) pages ∧
      ∃ last ∈ pages.getLast?, last.hasMore = false) ∧
    ∃ pages, (backward sessionId limit).walk (none, throughSeq) stores = .ok pages ∧
      pages.reverse.flatMap (·.messages) =
        (db.snapshot sessionId).filter (fun m => decide ((m.seq : Int) ≤ first.throughSeq)) ∧
      (backward sessionId limit).Exact (·.messages) pages ∧
      ∃ last ∈ pages.getLast?, last.hasMore = false := by
  obtain ⟨hlimit, hknown, hbound, hlow, hhigh⟩ := page_accepted hpage
  obtain ⟨later, rfl⟩ : ∃ later, stores = db :: later := by
    cases stores with
    | nil => cases hfirst
    | cons t later =>
        cases hfirst
        exact ⟨later, rfl⟩
  have hinv : ∀ t ∈ db :: later, LogInvariant t := fun t ht =>
    logInvariant_of_reachable (messageStore_reachable (hstore t ht))
  have hpath : ∀ t ∈ db :: later, messageStore.Path Machine.always db t := by
    intro t ht
    rcases List.mem_cons.mp ht with rfl | ht
    · exact .refl
    · exact (List.pairwise_cons.mp hgrow).1 t ht
  have hthrough : first.throughSeq < (db.snapshot sessionId).length := by
    rw [(hinv db List.mem_cons_self).head_eq] at hhigh
    omega
  have hlen {a b : Int} : (window Message.position a b (db.snapshot sessionId)).length <
      (db :: later).length :=
    lt_of_le_of_lt (List.length_filter_le _ _) henough
  constructor
  · obtain ⟨pages, hwalk, hflat, hexact, hlast⟩ := Pager.walk_covers
      (fun t ht c hc => forward_covers (hinv t ht) (referenced_of_reachable (hstore t ht))
        (session_path (hpath t ht) hknown) hlimit (snapshot_path (hpath t ht) sessionId)
        hthrough c hc)
      (c := (-1, some first.throughSeq)) ⟨⟨le_refl _, hlow⟩, rfl⟩ hlen
    refine ⟨pages, ?_, ?_, hexact, hlast⟩
    · rw [← hwalk]
      refine Pager.walk_first _ ?_ later
      show db.readPage _ _ _ _ = db.readPage _ _ _ _
      rw [Database.readPage, page_bound, ← hbound]
      rfl
    · rw [hflat, prefix_eq]
  · obtain ⟨pages, hwalk, hflat, hexact, hlast⟩ := Pager.walk_covers
      (fun t ht c hc => backward_covers (hinv t ht) (referenced_of_reachable (hstore t ht))
        (session_path (hpath t ht) hknown) hlimit (snapshot_path (hpath t ht) sessionId)
        ⟨hlow, hthrough⟩ c hc)
      (c := (none, some first.throughSeq)) ⟨fun b hb => (by cases hb), rfl⟩ (by simpa using hlen)
    refine ⟨pages, ?_, ?_, ?_, hlast⟩
    · rw [← hwalk]
      refine Pager.walk_first _ ?_ later
      show db.readTail _ _ _ _ = db.readTail _ _ _ _
      rw [Database.readTail, page_bound, ← hbound]
      rfl
    · have hrev := congrArg List.reverse hflat
      rw [List.reverse_flatMap, List.reverse_reverse] at hrev
      rw [← prefix_eq]
      simpa [Function.comp_def] using hrev
    · intro before page after heq
      rw [hexact before page after heq]
      simp

end Walks

/-! ## Three stores -/

/-- The store with a second and with a third message. -/
def exampleGrown (messageId : String) (db : Database) : Database :=
  committed (exampleInputs.append 0 { exampleRequest with messageId }) db

def exampleStores : List Database :=
  let two := exampleGrown "n" exampleStore
  let three := exampleGrown "o" two
  [two, three, three]

theorem exampleGrown_path (messageId : String) (db : Database) :
    messageStore.Path Machine.always db (exampleGrown messageId db) :=
  .step (.append exampleInputs 0 { exampleRequest with messageId }) .refl trivial rfl

theorem exampleStore_messageStore : messageStore.Reachable exampleStore :=
  Machine.Reach.step (a := .append exampleInputs 0 exampleRequest)
    (.start ⟨⟨rfl, rfl, rfl⟩, rfl, by simp⟩) trivial rfl

theorem exampleStores_reachable : ∀ db ∈ exampleStores, messageStore.Reachable db := by
  have htwo := exampleStore_messageStore.path (exampleGrown_path "n" _)
  have hthree := htwo.path (exampleGrown_path "o" _)
  intro db hdb
  simp only [exampleStores, List.mem_cons, List.not_mem_nil, or_false] at hdb
  rcases hdb with rfl | rfl | rfl
  · exact htwo
  · exact hthree
  · exact hthree

theorem exampleStores_grow : exampleStores.Pairwise (messageStore.Path Machine.always) := by
  have hpath := exampleGrown_path "o" (exampleGrown "n" exampleStore)
  simp only [exampleStores, List.pairwise_cons, List.mem_cons, List.not_mem_nil, or_false]
  refine ⟨?_, ?_, fun db hdb => hdb.elim, .nil⟩
  · rintro db (rfl | rfl)
    · exact hpath
    · exact hpath
  · rintro db rfl
    exact .refl

/-- One message a page: the message appended after the first page is not read. -/
theorem pages_partition_example :
    ∃ pages, (forward "s" 1).walk (-1, none) exampleStores = .ok pages ∧
      (pages.flatMap (·.messages)).map (·.messageId) = ["m", "n"] ∧
      ∃ last ∈ pages.getLast?, last.hasMore = false := by
  have hstore := exampleStores_reachable (exampleGrown "n" exampleStore) List.mem_cons_self
  have hknown : "s" ∈ (exampleGrown "n" exampleStore).sessions.map (·.key) := by decide
  have hlimit : (1 : Int) ≤ 1 ∧ (1 : Int) ≤ 200 := by decide
  have hafter : (-1 : Int) ≤ -1 ∧ (-1 : Int) ≤ 1 := by decide
  have hhead : (1 : Int) ≤ (exampleGrown "n" exampleStore).head "s" := by decide
  obtain ⟨first, hpage, hbound, _⟩ := page_forward
    (logInvariant_of_reachable (messageStore_reachable hstore)) (referenced_of_reachable hstore)
    hknown hlimit hafter hhead
  -- The head is the bound, so the request without a bound is the same.
  have hpage : (exampleGrown "n" exampleStore).readPage "s" (-1) none 1 = .ok first := hpage
  obtain ⟨⟨pages, hwalk, hflat, _, hlast⟩, _⟩ :=
    pages_partition exampleStores_reachable exampleStores_grow rfl hpage (by decide)
  refine ⟨pages, hwalk, ?_, hlast⟩
  rw [hflat, hbound]
  decide

end MonoAgent.Session
