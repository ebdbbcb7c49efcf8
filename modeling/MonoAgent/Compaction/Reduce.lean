import MonoAgent.Compaction.Chain
import MonoAgent.Compaction.Cuts
import MonoAgent.Context.Builder

/-!
# Reducing a log

`reduce` publishes a summary of the oldest closed groups of a snapshot.  Without
a parent it begins at a window, with one it goes on behind what the parent
covers.  The model, the builder's limits and the answers of the summary model are
arguments.

The range a reduction names is covered in the snapshot it was made on, hence in
every longer log.  So the builder, which looks at the range again on every later
snapshot, accepts every published summary.
-/

namespace MonoAgent.Compaction

open MonoAgent.Lib MonoAgent.Session MonoAgent.Context

/-! ## Reductions -/

/-- The configuration of the plugin, and what it takes from others. -/
structure Compactor where
  keepRecentTokens : Nat
  /-- `int(window * 0.74)`. -/
  softMark : Nat → Nat
  /-- The binding of a record, by reference and Session. -/
  bind : String → String → String
  bind_ne : ∀ reference sessionId, bind reference sessionId ≠ ""

/-- One call of `reduce`. -/
structure ReduceCall where
  snapshot : List Message
  materials : Materials
  request : ModelRequest
  model : ContextModel
  force : Bool
  /-- The text and the calls of `summarize`. -/
  summarize : List (List Message) → String → Except Error (String × List String)
  /-- A fresh identity. -/
  reference : String

/-- The local variables of a call that is about to publish. -/
structure Reduction where
  snapshot : List Message
  origin : Nat
  start : Nat
  groups : List (List Message)
  selected : List (List Message)
  record : SummaryRecord

/-- The position behind the selected groups. -/
def Reduction.count (r : Reduction) : Nat := r.start + (r.selected.map List.length).sum

/-- `material`. -/
def Compactor.material (c : Compactor) (record : StoredSummary) : Summary where
  reference := c.bind record.reference record.sessionId
  sourceMessageIds := record.sourceMessageIds
  content := record.content
  reference_ne := c.bind_ne _ _
  sources_ne := record.identity.sources_ne
  nodup_sources := record.identity.nodup_sources
  content_ne := record.identity.content_ne

namespace ReduceCall

/-- The request that begins at a message. -/
def candidate (call : ReduceCall) (index : Nat) : Except BuildError ModelRequest :=
  match call.snapshot[index]? with
  | some m => build call.snapshot call.materials call.model call.request.tools
      call.request.maxOutputTokens (some m.messageId)
  | none => .error (.raised ⟨.indexError, "tuple index out of range"⟩)

/-- The loop over the window starts, latest first: the last that still fits. -/
def windowOrigin (c : Compactor) (call : ReduceCall) (window : Nat) :
    List Nat → Option Nat → Except Error (Option Nat)
  | [], origin => .ok origin
  | index :: rest, origin =>
      match call.candidate index with
      | .error (.overflow ..) => .ok origin
      | .error (.raised e) => .error e
      | .ok request =>
          if c.softMark window < call.model.estimate request then .ok origin
          else windowOrigin c call window rest (some index)

/-- Where the summary begins, and where it goes on. -/
def origin (c : Compactor) (call : ReduceCall) (window : Nat) (parent : Option StoredSummary) :
    Except Error Span :=
  match parent with
  | some p => summaryRange call.snapshot p.sourceMessageIds
  | none => do
      let starts ← windowStarts call.snapshot
      match ← windowOrigin c call window starts.reverse none with
      | some index => return ⟨index, index⟩
      | none => throw ⟨.valueError, "当前完整工作与固定材料超过首次窗口容量"⟩

/-- The loop over the sizes, largest first: what is left must be recent enough. -/
def select (c : Compactor) (call : ReduceCall) (groups : List (List Message)) :
    Nat → Except Error (List (List Message))
  | 0 => .ok []
  | size + 1 =>
      match (groups[size]?).bind (·.getLast?) with
      | none => .error ⟨.indexError, "tuple index out of range"⟩
      | some last => do
          let tail ← call.model.render call.snapshot last.seq none true
          if c.keepRecentTokens ≤ call.model.estimate tail then return groups.take (size + 1)
          else select c call groups size

/-- The size of the request with the new summary. -/
def tokensAfter (call : ReduceCall) (summary : Summary) : Except Error Nat :=
  match build call.snapshot { call.materials with summary := some summary } call.model
      call.request.tools call.request.maxOutputTokens none with
  | .ok request => .ok (call.model.estimate request)
  | .error (.overflow _ _ _ request) => .ok (call.model.estimate request)
  | .error (.raised e) => .error e

/-- The record of some selected groups. -/
def makeRecord (c : Compactor) (call : ReduceCall) (sessionId : String) (window : Nat)
    (parent : Option StoredSummary) (covered : Span) (selected : List (List Message)) :
    Except Error SummaryRecord := do
  let inputs := summaryGroups selected call.snapshot
  ensure (inputs ≠ []) ⟨.valueError, "可选范围没有可用于摘要的资料"⟩
  let answer ← call.summarize inputs (parent.elim "" (·.content))
  let count := covered.stop + (selected.map List.length).sum
  let record ← SummaryRecord.make call.reference sessionId ((parent.map (·.generation + 1)).getD 1)
    (parent.map (·.reference)) (identities (slice call.snapshot covered.start count)) answer.1
    answer.2 (if call.force then .contextOverflow else .softLimit) window
    call.request.maxOutputTokens c.keepRecentTokens (call.model.estimate call.request)
  let after ← call.tokensAfter (c.material (.native record))
  ensure (after < call.model.estimate call.request)
    ⟨.valueError, "摘要没有降低本次完整请求容量"⟩
  ensure (after ≤ c.softMark window ∧ after + call.request.maxOutputTokens ≤ window)
    ⟨.valueError, "摘要后的完整请求仍超过模型软水位或硬边界"⟩
  return { record with tokensAfter := after }

/-- `reduce` up to the publication: `none` keeps the summary there is. -/
def plan (c : Compactor) (call : ReduceCall) (parent : Option StoredSummary) :
    Except Error (Option Reduction) :=
  match call.model.contextWindow, call.snapshot.head? with
  | some window, some first =>
      if call.force = false ∧ call.model.estimate call.request < c.softMark window then .ok none
      else do
        ensure (parent.map c.material = call.materials.summary)
          ⟨.valueError, "本次已取得摘要与当前 Session head 不一致"⟩
        let covered ← call.origin c window parent
        let groups ← closedGroups call.snapshot covered.stop
        let selected ← call.select c groups groups.length
        ensure (selected ≠ []) ⟨.valueError, "近期原文保留量内没有合法摘要切点"⟩
        let record ← call.makeRecord c first.sessionId window parent covered selected
        return some ⟨call.snapshot, covered.start, covered.stop, groups, selected, record⟩
  | _, _ => .ok none

end ReduceCall

/-- `reduce`: the head was read when the call began, and the publication checks
that it still is the head. -/
def Archive.reduce (c : Compactor) (s : Archive) (call : ReduceCall)
    (parent : Option StoredSummary) : Archive :=
  match call.plan c parent with
  | .ok (some r) => s.publish r.record ⟨r.record.sessionId, true⟩ parent
  | _ => s

/-! ## What a reduction covers -/

section Plan

variable {c : Compactor} {call : ReduceCall} {parent : Option StoredSummary} {window : Nat}

/-- What a call that is about to publish has found. -/
structure Planned (call : ReduceCall) (parent : Option StoredSummary) (r : Reduction) : Prop where
  snapshot : r.snapshot = call.snapshot
  session : ∃ first, call.snapshot.head? = some first ∧ r.record.sessionId = first.sessionId
  /-- A first summary begins at a window. -/
  window : parent = none → r.origin = r.start ∧ Cut call.snapshot r.origin ∧
    r.origin < call.snapshot.length
  /-- A later one goes on behind its parent. -/
  after : ∀ p, parent = some p → summaryRange call.snapshot p.sourceMessageIds = .ok ⟨r.origin, r.start⟩
  groups : closedGroups call.snapshot r.start = .ok r.groups
  selected : r.selected ≠ [] ∧ ∃ size, r.selected = r.groups.take size
  sources : r.record.sourceMessageIds = identities (slice call.snapshot r.origin r.count)

theorem make_sources {reference sessionId : String} {generation : Nat} {parent : Option String}
    {ids : List String} {content : String} {calls : List String} {trigger : Trigger}
    {window output keep before : Nat} {record : SummaryRecord}
    (h : SummaryRecord.make reference sessionId generation parent ids content calls trigger window
      output keep before = .ok record) :
    record.sessionId = sessionId ∧ record.sourceMessageIds = ids := by
  rw [SummaryRecord.make] at h
  split at h
  · cases h
    exact ⟨rfl, rfl⟩
  · cases h

/-- The origin is one of the window starts. -/
theorem windowOrigin_mem {starts : List Nat} {origin : Option Nat} {index : Nat}
    (h : call.windowOrigin c window starts origin = .ok (some index)) :
    index ∈ starts ∨ origin = some index := by
  induction starts generalizing origin with
  | nil =>
      cases h
      exact Or.inr rfl
  | cons i rest ih =>
      rw [ReduceCall.windowOrigin] at h
      split at h
      · cases h
        exact Or.inr rfl
      · cases h
      · split at h
        · cases h
          exact Or.inr rfl
        · rcases ih h with hmem | heq
          · exact Or.inl (List.mem_cons_of_mem _ hmem)
          · cases heq
            exact Or.inl (List.mem_cons_self ..)

theorem select_take {groups selected : List (List Message)} {size : Nat}
    (h : call.select c groups size = .ok selected) : ∃ n, selected = groups.take n := by
  induction size with
  | zero =>
      cases h
      exact ⟨0, List.take_zero.symm⟩
  | succ size ih =>
      rw [ReduceCall.select] at h
      split at h
      · cases h
      · obtain ⟨tail, _, h⟩ := Except.bind_eq_ok.mp h
        split at h
        · cases h
          exact ⟨size + 1, rfl⟩
        · exact ih h

theorem makeRecord_sources {sessionId : String} {covered : Span} {selected : List (List Message)}
    {record : SummaryRecord}
    (h : call.makeRecord c sessionId window parent covered selected = .ok record) :
    record.sessionId = sessionId ∧ record.sourceMessageIds =
      identities (slice call.snapshot covered.start
        (covered.stop + (selected.map List.length).sum)) := by
  obtain ⟨_, _, h⟩ := Except.bind_eq_ok.mp h
  obtain ⟨answer, _, h⟩ := Except.bind_eq_ok.mp h
  obtain ⟨made, hmade, h⟩ := Except.bind_eq_ok.mp h
  obtain ⟨after, _, h⟩ := Except.bind_eq_ok.mp h
  obtain ⟨_, _, h⟩ := Except.bind_eq_ok.mp h
  obtain ⟨_, _, h⟩ := Except.bind_eq_ok.mp h
  cases h
  have hsame := make_sources hmade
  exact hsame

theorem plan_spec {r : Reduction} (h : call.plan c parent = .ok (some r)) :
    Planned call parent r := by
  rw [ReduceCall.plan] at h
  split at h
  · next window first hwindow hfirst =>
      split at h
      · cases h
      · obtain ⟨_, _, h⟩ := Except.bind_eq_ok.mp h
        obtain ⟨covered, horigin, h⟩ := Except.bind_eq_ok.mp h
        obtain ⟨groups, hgroups, h⟩ := Except.bind_eq_ok.mp h
        obtain ⟨selected, hselect, h⟩ := Except.bind_eq_ok.mp h
        obtain ⟨_, hne, h⟩ := Except.bind_eq_ok.mp h
        obtain ⟨record, hrecord, h⟩ := Except.bind_eq_ok.mp h
        cases h
        obtain ⟨hsession, hsources⟩ := makeRecord_sources hrecord
        refine ⟨rfl, ⟨first, hfirst, hsession⟩, ?_, ?_, hgroups,
          ⟨ensure_eq_ok.mp hne, select_take hselect⟩, hsources⟩
        · intro hnone
          subst hnone
          obtain ⟨starts, hstarts, horigin⟩ := Except.bind_eq_ok.mp horigin
          obtain ⟨index, hindex, horigin⟩ := Except.bind_eq_ok.mp horigin
          cases index with
          | none => cases horigin
          | some index =>
              cases horigin
              have hmem := (windowOrigin_mem hindex).resolve_right (fun hf => by cases hf)
              exact ⟨rfl, cut_of_windowStarts hstarts (List.mem_reverse.mp hmem)⟩
        · intro p hp
          subst hp
          exact horigin
  · cases h

/-- The groups of a reduction make up the snapshot behind its start. -/
theorem Planned.partition {r : Reduction} (h : Planned call parent r) :
    ∃ stop, Groups r.snapshot r.start r.groups stop ∧
      r.groups.flatten = slice r.snapshot r.start stop ∧ ∀ group ∈ r.groups, group ≠ [] := by
  rw [h.snapshot]
  obtain ⟨stop, hstop⟩ := groups_closedGroups h.groups
  exact ⟨stop, hstop, hstop.flatten, hstop.ne_nil⟩

/-- The sources of a planned record are covered in the log. -/
theorem Planned.covers {r : Reduction} (h : Planned call parent r) {log : List Message}
    (hwf : WellFormed log) (hp : call.snapshot <+: log)
    (hparent : ∀ p, parent = some p → ∃ a b, Covers log p.sourceMessageIds a b) :
    Covers log r.record.sourceMessageIds r.origin r.count := by
  have hstart : r.origin ≤ r.start ∧ Cut call.snapshot r.origin ∧
      r.start ≤ call.snapshot.length := by
    cases parent with
    | none =>
        obtain ⟨heq, hcut, hlt⟩ := h.window rfl
        exact ⟨heq.le, hcut, heq ▸ hlt.le⟩
    | some p =>
        obtain ⟨a, b, hcov⟩ := hparent p rfl
        have hspan := (summaryRange_eq_ok (hwf.of_prefix hp)).mp (h.after p rfl)
        obtain ⟨rfl, rfl⟩ := (hspan.mono hp).unique hwf hcov.toSpans
        have hle := hspan.lt.le
        exact ⟨hle, hcov.origin.of_prefix hp (hle.trans hspan.le), hspan.le⟩
  obtain ⟨hle, hcut, hlen⟩ := hstart
  obtain ⟨stop, hstop⟩ := groups_closedGroups h.groups
  obtain ⟨hne, size, hselected⟩ := h.selected
  obtain ⟨mid, hmid⟩ := hstop.take size
  rw [← hselected] at hmid
  obtain ⟨hlt, hsettled⟩ := hmid.settled hne
  have hcount : r.count = mid := (hmid.stop_eq hlen).symm
  rw [hcount]
  refine Covers.mono hp ⟨⟨hle.trans_lt hlt, hmid.stop_le hlen, ?_⟩, hcut, hsettled⟩
  rw [h.sources, hcount]

end Plan

/-! ## Runs -/

/-- A write to the log, or a reduction. -/
inductive CompactionAction where
  | log (a : LogAction)
  | reduce (call : ReduceCall) (parent : Option StoredSummary)

/-- An archive without summaries that only reductions publish in. -/
def compactionMachine (c : Compactor) : Machine Archive CompactionAction where
  start s := logMachine.start s.db ∧ s.rows = (fun _ => none) ∧ s.published = []
  next s a := match a with
    | .log a => (logMachine.next s.db a).map fun db => { s with db := db }
    | .reduce call parent => some (s.reduce c call parent)

/-- The snapshot of a reduction was read from the log at some time. -/
def Snapshots (s : Archive) : CompactionAction → Prop
  | .log _ => True
  | .reduce call _ => ∀ first, call.snapshot.head? = some first →
      call.snapshot <+: s.db.snapshot first.sessionId

/-- Every stored record was published, and covers its range of the log. -/
structure CompactionInvariant (s : Archive) : Prop where
  log : LogInvariant s.db
  stored : ∀ reference r, s.read reference = .ok (some r) → ∃ record ∈ s.published, r = .native record
  covered : ∀ record ∈ s.published, ∃ start stop,
    Covers (s.db.snapshot record.sessionId) record.sourceMessageIds start stop

section Runs

variable {c : Compactor} {s t : Archive}

theorem reduce_cases (s : Archive) (call : ReduceCall) (parent : Option StoredSummary) :
    s.reduce c call parent = s ∨ ∃ r, call.plan c parent = .ok (some r) ∧
      s.reduce c call parent = s.accept r.record ∧ Accepted s r.record parent := by
  rw [Archive.reduce]
  split
  · next r hr =>
      rcases publish_cases s r.record ⟨r.record.sessionId, true⟩ parent with h | ⟨h, hacc⟩
      · exact Or.inl h
      · exact Or.inr ⟨r, hr, h, hacc⟩
  · exact Or.inl rfl

theorem stored_accept {record : SummaryRecord}
    (h : ∀ reference r, s.read reference = .ok (some r) → ∃ record ∈ s.published, r = .native record)
    {reference : String} {r : StoredSummary}
    (hr : (s.accept record).read reference = .ok (some r)) :
    ∃ x ∈ (s.accept record).published, r = .native x := by
  obtain ⟨hrow, href⟩ := read_eq_some.mp hr
  rw [rows_accept, if_neg (by simp)] at hrow
  split at hrow
  · have hvalue := (Row.mk.inj (Option.some.inj hrow)).2
    exact ⟨record, List.mem_append_right _ (List.mem_singleton.mpr rfl),
      (Value.summary.inj hvalue).symm⟩
  · obtain ⟨x, hx, heq⟩ := h reference r (read_eq_some.mpr ⟨hrow, href⟩)
    exact ⟨x, List.mem_append_left _ hx, heq⟩

theorem compactionInvariant_next {a : CompactionAction} (hs : CompactionInvariant s)
    (hok : Snapshots s a) (hn : (compactionMachine c).next s a = some t) :
    CompactionInvariant t := by
  cases a with
  | log a =>
      have hn : (logMachine.next s.db a).map (fun db => { s with db := db }) = some t := hn
      obtain ⟨db, hdb, rfl⟩ := Option.map_eq_some_iff.mp hn
      refine ⟨logInvariant_next hs.log hdb, hs.stored, fun record hr => ?_⟩
      obtain ⟨start, stop, hcov⟩ := hs.covered record hr
      exact ⟨start, stop, hcov.mono (snapshot_grows hdb record.sessionId)⟩
  | reduce call parent =>
      cases hn
      rcases reduce_cases (c := c) s call parent with heq | ⟨r, hplan, heq, hacc⟩
      · rw [heq]
        exact hs
      · have hplanned := plan_spec hplan
        obtain ⟨first, hfirst, hsession⟩ := hplanned.session
        have hprefix := hok first hfirst
        rw [← hsession] at hprefix
        have hcov := hplanned.covers (hs.log.wellFormed _) hprefix fun p hp => ?_
        · rw [heq]
          refine ⟨hs.log, fun _ _ => stored_accept hs.stored, fun record hr => ?_⟩
          rcases List.mem_append.mp hr with hr | hr
          · exact hs.covered record hr
          · rw [List.mem_singleton.mp hr]
            exact ⟨_, _, hcov⟩
        · have hhead := hacc.current
          rw [hp] at hhead
          obtain ⟨_, hread, hid⟩ := head_eq_some.mp hhead
          obtain ⟨record, hmem, rfl⟩ := hs.stored _ _ hread
          have hcov := hs.covered record hmem
          rw [show record.sessionId = r.record.sessionId from hid] at hcov
          exact hcov

theorem compaction_invariant (h : (compactionMachine c).Reach Snapshots s) :
    CompactionInvariant s := by
  refine h.invariant ?_ fun _ _ _ hs hok hn => compactionInvariant_next hs hok hn
  intro s hstart
  obtain ⟨hdb, hrows, hpublished⟩ := hstart
  refine ⟨logInvariant_start hdb, fun reference r hr => ?_, fun record hr => ?_⟩
  · have hrow := (read_eq_some.mp hr).1
    rw [hrows] at hrow
    cases hrow
  · rw [hpublished] at hr
    cases hr

/-- Every reduction cuts its snapshot into groups and names a contiguous range of it.
Every record published so far is accepted by the builder on the log there is now,
with the cut behind its last message.  It covers a call together with its result,
unless the call had been abandoned before that cut. -/
theorem compaction_accepted (h : (compactionMachine c).Reach Snapshots t) :
    (∀ call parent r, ReduceCall.plan c call parent = .ok (some r) →
      r.snapshot = call.snapshot ∧
      (∃ stop, Groups r.snapshot r.start r.groups stop ∧
        r.groups.flatten = slice r.snapshot r.start stop ∧ ∀ group ∈ r.groups, group ≠ []) ∧
      r.record.sourceMessageIds = identities (slice r.snapshot r.origin r.count)) ∧
    (∀ record ∈ t.published,
      let log := t.db.snapshot record.sessionId
      ∃ last ∈ log, record.sourceMessageIds.getLast? = some last.messageId ∧
        summaryCutoff log (some (c.material (.native record))) = .ok last.seq ∧
        ∀ q ∈ log, ∀ r ∈ log, ∀ ref ∈ q.calls, r.body.settles = some ref →
          (q.messageId ∈ record.sourceMessageIds ↔ r.messageId ∈ record.sourceMessageIds) ∨
            Withdrawn (log.take (last.seq + 1)) q) := by
  have ht := compaction_invariant h
  constructor
  · intro call parent r hplan
    have hplanned := plan_spec hplan
    refine ⟨hplanned.snapshot, hplanned.partition, ?_⟩
    rw [hplanned.snapshot]
    exact hplanned.sources
  · intro record hr log
    have hwf : WellFormed log := ht.log.wellFormed _
    obtain ⟨start, stop, hcov⟩ := ht.covered record hr
    obtain ⟨last, hlast, hid, hseq, hcut⟩ :=
      Covers.last hwf (show Covers log (c.material (.native record)).sourceMessageIds start stop
        from hcov)
    refine ⟨last, hlast, hid, hcut, fun q hq x hx ref hc hs => ?_⟩
    rw [hseq]
    exact hcov.together hwf hq hx hc hs

end Runs

/-! ## A late result -/

/-- A compactor that keeps one row. -/
def exampleCompactor : Compactor where
  keepRecentTokens := 1
  softMark window := window * 74 / 100
  bind reference _ := if reference = "" then "binding" else reference
  bind_ne reference _ := by
    split
    · decide
    · next h => exact h

/-- A model that counts the rows of a request. -/
def rowModel : ContextModel where
  contextWindow := some 100
  render messages afterSeq _ _ :=
    .ok { messages := (messages.filter (afterSeq < ·.seq)).map fun m => textRow "user" m.messageId }
  estimate request := request.messages.length

def lateCall : CallRef := ⟨"o", 0⟩

def lateWriter (author : String) (bodyTypes : List BodyType) (h : .toolResult ∉ bodyTypes) :
    Writer where
  sessionId := "s"
  author := author
  source := "user"
  bodyTypes := bodyTypes
  checkCall := some fun _ => .ok ()
  callRef_ok hmem := absurd hmem h

def lateResultWriter : Writer where
  sessionId := "s"
  author := "tool"
  source := "user"
  bodyTypes := [.toolResult]
  callRef := some lateCall
  callRef_ok := by decide

theorem tool_named : "tool" ≠ "" := by decide

/-- An Input, a call, an abandon of both, and the next Input. -/
def abandonedLog : List CompactionAction :=
  [.log (.append (lateWriter "user" [.input] (by decide)) 0
      { messageId := "i", body := .input ⟨[]⟩ }),
    .log (.append (lateWriter "assistant" [.output] (by decide)) 1
      { messageId := "o", body := .output ⟨[.call ⟨"tool", [], tool_named⟩], .continue, by decide⟩ }),
    .log (.append (lateWriter "app" [.control] (by decide)) 2
      { messageId := "c", body := .control ⟨.abandon, 1, none⟩ }),
    .log (.append (lateWriter "user" [.input] (by decide)) 3
      { messageId := "j", body := .input ⟨[]⟩ })]

def exampleArchive : Archive := { db := { bindings := [("tool", "")] } }

def abandonedArchive : Archive :=
  ((compactionMachine exampleCompactor).run exampleArchive abandonedLog).getD {}

/-- A reduction of that log. -/
def exampleCall : ReduceCall where
  snapshot := abandonedArchive.db.snapshot "s"
  materials := { systemPrompt := "" }
  request := { messages := List.replicate 4 .null, maxOutputTokens := 10 }
  model := rowModel
  force := true
  summarize _ _ := .ok ("summary", ["call"])
  reference := "r"

/-- The result of the abandoned call arrives after the reduction. -/
def lateResult : CompactionAction :=
  .log (.append lateResultWriter 4
    { messageId := "r", body := .toolResult ⟨lateCall, .success, [], false⟩ })

def lateArchive : Archive :=
  ((compactionMachine exampleCompactor).next
    (abandonedArchive.reduce exampleCompactor exampleCall none) lateResult).getD {}

theorem lateArchive_reach : (compactionMachine exampleCompactor).Reach Snapshots lateArchive := by
  have hlog : (compactionMachine exampleCompactor).Reach Snapshots abandonedArchive := by
    refine Machine.reach_getD (s := exampleArchive) ⟨⟨rfl, rfl, rfl⟩, rfl, rfl⟩ (fun a ha s => ?_)
      (by decide)
    simp only [abandonedLog, List.mem_cons, List.not_mem_nil, or_false] at ha
    rcases ha with rfl | rfl | rfl | rfl <;> trivial
  have hsnapshot : Snapshots abandonedArchive (.reduce exampleCall none) := by
    intro first hfirst
    have hmem := List.mem_of_mem_head? hfirst
    rw [(LogInvariant.mem_snapshot.mp hmem).2]
    exact List.prefix_rfl
  have hreduced : (compactionMachine exampleCompactor).Reach Snapshots
      (abandonedArchive.reduce exampleCompactor exampleCall none) := hlog.step hsnapshot rfl
  exact hreduced.step (a := lateResult) trivial rfl

/-- The published summary is accepted on the log with the late result. -/
theorem compaction_accepted_example : ∃ record ∈ lateArchive.published,
    record.sourceMessageIds = ["i", "o", "c"] ∧
      summaryCutoff (lateArchive.db.snapshot "s")
        (some (exampleCompactor.material (.native record))) = .ok 2 := by
  have hpublished : ∃ record ∈ lateArchive.published, record.sessionId = "s" ∧
      record.sourceMessageIds = ["i", "o", "c"] := by decide
  obtain ⟨record, hr, hsession, hids⟩ := hpublished
  obtain ⟨_, haccepted⟩ := compaction_accepted lateArchive_reach
  obtain ⟨last, hlast, hid, hcut, _⟩ := haccepted record hr
  rw [hsession] at hlast hcut
  rw [hids] at hid
  refine ⟨record, hr, hids, ?_⟩
  rw [hcut]
  have hseq : ∀ m ∈ lateArchive.db.snapshot "s", "c" = m.messageId → m.seq = 2 := by
    decide
  rw [hseq last hlast (Option.some.inj hid)]
  rfl

/-- The summary covers the abandoned call and not its late result. -/
theorem lateResult_split : (compactionMachine exampleCompactor).Reach Snapshots lateArchive ∧
    ∃ record ∈ lateArchive.published, ∃ q ∈ lateArchive.db.snapshot "s",
      ∃ r ∈ lateArchive.db.snapshot "s", ∃ ref ∈ q.calls, r.body.settles = some ref ∧
        q.messageId ∈ record.sourceMessageIds ∧ r.messageId ∉ record.sourceMessageIds :=
  ⟨lateArchive_reach, by decide⟩

end MonoAgent.Compaction
