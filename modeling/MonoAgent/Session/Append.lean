import MonoAgent.Session.Log

/-!
# What an append does

`Stored` is the effect of an append that stores a new message, and
`Writer.append_post` says that an append replays a stored message and changes
nothing, or stores a new one, or raises and leaves the connection as it was.
The checks are read off `Writer.checkAppend` once, here.
-/

namespace MonoAgent.Session

open MonoAgent.Lib Database

/-! ## The checks -/

section Checks

variable {w : Writer} {db : Database} {request : AppendRequest}

theorem checkCallResult_ok {ref : CallRef} (h : w.checkCallResult db ref = .ok ()) :
    (∃ q ∈ db.messages, q.sessionId = w.sessionId ∧ q.source = w.source ∧ ref ∈ q.calls) ∧
      ∀ r ∈ db.messages, r.body.settles ≠ some ref := by
  unfold Writer.checkCallResult at h
  cases hq : db.message? ref.messageId with
  | none =>
      rw [hq] at h
      cases h
  | some q =>
      rw [hq] at h
      obtain ⟨_, hsame, h⟩ := Except.bind_eq_ok.mp h
      obtain ⟨_, hcall, hnone⟩ := Except.bind_eq_ok.mp h
      rw [ensure_eq_ok] at hsame hcall hnone
      refine ⟨⟨q, List.mem_of_find?_eq_some hq, hsame.1, hsame.2, hcall⟩, fun r hr => ?_⟩
      have := List.find?_eq_none.mp hnone r hr
      simpa using this

theorem checkFresh_ok {a : Admission} (h : w.checkFresh db request = .ok a) :
    ∃ bindings artifacts sessionMetadata, a = .fresh bindings artifacts sessionMetadata ∧
      w.active = true ∧
      (∀ e, request.expectedSourceHead = some e → db.head w.sessionId w.source = e) ∧
      request.body.legacyUnknown = false ∧
      ∀ ref, request.body.settles = some ref → w.checkCallResult db ref = .ok () := by
  unfold Writer.checkFresh at h
  obtain ⟨_, hencode, h⟩ := Except.bind_eq_ok.mp h
  obtain ⟨_, hactive, h⟩ := Except.bind_eq_ok.mp h
  obtain ⟨_, _, h⟩ := Except.bind_eq_ok.mp h
  obtain ⟨_, hhead, h⟩ := Except.bind_eq_ok.mp h
  obtain ⟨references, _, h⟩ := Except.bind_eq_ok.mp h
  have hlegacy : request.body.legacyUnknown = false := by
    unfold encodeBody at hencode
    split at hencode
    · cases hencode
    · next hl => simpa using hl
  rw [ensure_eq_ok] at hactive
  have hhead' := ensure_eq_ok.mp hhead
  obtain ⟨_, hcall, h⟩ := Except.bind_eq_ok.mp h
  obtain ⟨sessionMetadata, _, h⟩ := Except.bind_eq_ok.mp h
  cases h
  refine ⟨references.1, references.2, sessionMetadata, rfl, hactive, hhead', hlegacy, ?_⟩
  intro ref hs
  unfold Writer.checkResult at hcall
  rw [hs] at hcall
  exact hcall

/-- A stored identity is only replayed. -/
theorem checkAppend_replay {old : Message} {a : Admission}
    (hold : db.message? request.messageId = some old) (h : w.checkAppend request db = .ok a) :
    a = .replay old ∧ w.checkReplay request old = .ok () ∧ w.checkRequest request = .ok () := by
  rw [Writer.checkAppend] at h
  obtain ⟨_, hrequest, h⟩ := Except.bind_eq_ok.mp h
  rw [hold] at h
  obtain ⟨_, hreplay, h⟩ := Except.bind_eq_ok.mp h
  cases h
  exact ⟨rfl, hreplay, hrequest⟩

theorem checkAppend_fresh {a : Admission} (hold : db.message? request.messageId = none)
    (h : w.checkAppend request db = .ok a) :
    w.checkRequest request = .ok () ∧ w.checkFresh db request = .ok a := by
  rw [Writer.checkAppend] at h
  obtain ⟨_, hrequest, h⟩ := Except.bind_eq_ok.mp h
  rw [hold] at h
  exact ⟨hrequest, h⟩

end Checks

/-! ## The effect of an append -/

/-- A new message `m` was stored for a request. -/
structure Stored (w : Writer) (now : Instant) (request : AppendRequest) (db : Database)
    (m : Message) (db' : Database) : Prop where
  messageId : m.messageId = request.messageId
  identified : m.messageId ≠ ""
  sessionId : m.sessionId = w.sessionId
  seq : m.seq = ((db.session? w.sessionId).map (·.nextSeq)).getD 0
  recordedAt : m.recordedAt = now
  author : m.author = w.author
  source : m.source = w.source
  body : m.body = request.body
  metadata : m.metadata = request.metadata
  active : w.active = true
  granted : w.checkRequest request = .ok ()
  head : ∀ e, request.expectedSourceHead = some e → db.head w.sessionId w.source = e
  fresh : ∀ x ∈ db.messages, x.messageId ≠ m.messageId
  result : ∀ ref, m.body.settles = some ref →
    (∃ q ∈ db.messages, q.sessionId = m.sessionId ∧ q.source = m.source ∧ ref ∈ q.calls) ∧
      ∀ r ∈ db.messages, r.body.settles ≠ some ref
  messages : db'.messages = db.messages ++ [m]
  /-- Other Sessions keep their row, this one counts the message. -/
  sessions : ∀ s ∈ db'.sessions, if s.key = m.sessionId then s.nextSeq = m.seq + 1
    else s ∈ db.sessions
  keys : db'.sessions.map (·.key) = if m.sessionId ∈ db.sessions.map (·.key) then
    db.sessions.map (·.key) else db.sessions.map (·.key) ++ [m.sessionId]
  attachments : ∃ artifacts : List String, db'.messageAttachments =
    db.messageAttachments ++ artifacts.zipIdx.map fun a => ⟨m.messageId, a.2, a.1⟩
  records : db'.ownerRecords = db.ownerRecords
  writes : db'.writes = db.writes ++ [.append m]

/-- The identity of a new message was free. -/
theorem Stored.absent {w : Writer} {now : Instant} {request : AppendRequest} {db db' : Database}
    {m : Message} (h : Stored w now request db m db') : db.message? request.messageId = none := by
  refine List.find?_eq_none.mpr fun x hx => ?_
  rw [← h.messageId, decide_eq_true_eq]
  exact h.fresh x hx

/-- An append returned `m`: a stored message, or a new one. -/
inductive Appended (w : Writer) (now : Instant) (request : AppendRequest)
    (c : Connection Database) (m : Message) : Connection Database → Prop where
  | replay (hold : c.current.message? request.messageId = some m)
      (hsame : w.checkReplay request m = .ok ()) (hgrant : w.checkRequest request = .ok ()) :
      Appended w now request c m c
  | stored {db' : Database} (h : Stored w now request c.current m db') :
      Appended w now request c m (c.opened db')

/-- A statement raised: a transaction may have been opened, but no write is noted. -/
def Failed (c : Connection Database) (_ : Error) (t : Connection Database) : Prop :=
  t = c ∨ ∃ d, t = c.opened d ∧ d.writes = c.current.writes

/-! ## Statements of an append -/

section Statements

variable {c : Connection Database} {Q : Unit → Connection Database → Prop} {d : Database}

/-- A statement inside a transaction. -/
theorem post_statement {f : Database → Except Error Database}
    (hq : ∀ d', f d = .ok d' → Q () (c.opened d')) (hw : d.writes = c.current.writes) :
    (Sql.execute f).Post (c.opened d) Q (Failed c) :=
  Sql.post_execute (fun d' h => hq d' h) fun _ _ => Or.inr ⟨d, rfl, hw⟩

theorem constrained_eq_ok {p : Prop} [Decidable p] {text : String} {d' : Database} :
    constrained p text d = .ok d' ↔ p ∧ d = d' := by
  rw [constrained]
  split
  · next h => simp [h]
  · next h => simp [h]

/-- The rows of the attachments of a message, inserted one by one. -/
theorem post_attachments {messageId : String} {artifacts : List (String × Nat)}
    (hq : Q () (c.opened { d with messageAttachments :=
      d.messageAttachments ++ artifacts.map fun a => ⟨messageId, a.2, a.1⟩ }))
    (hw : d.writes = c.current.writes) :
    (artifacts.forM fun a =>
      (Sql.execute (insertAttachmentLink ⟨messageId, a.2, a.1⟩) : SessionM Unit)).Post
      (c.opened d) Q (Failed c) := by
  induction artifacts generalizing d with
  | nil => exact Exec.post_pure (by simpa using hq)
  | cons a rest ih =>
      refine Exec.post_bind (post_statement (fun d' hd' => ?_) hw)
      obtain ⟨_, rfl⟩ := constrained_eq_ok.mp hd'
      exact ih (by simpa using hq) hw

theorem post_bindings {messageId : String} {bindings : List String}
    (hq : Q () (c.opened { d with messageBindings :=
      d.messageBindings ++ bindings.map fun b => (messageId, b) }))
    (hw : d.writes = c.current.writes) :
    (bindings.forM fun b =>
      (Sql.execute (insertBindingLink (messageId, b)) : SessionM Unit)).Post
      (c.opened d) Q (Failed c) := by
  induction bindings generalizing d with
  | nil => exact Exec.post_pure (by simpa using hq)
  | cons b rest ih =>
      refine Exec.post_bind (post_statement (fun d' hd' => ?_) hw)
      obtain ⟨_, rfl⟩ := constrained_eq_ok.mp hd'
      exact ih (by simpa using hq) hw

/-- Only the metadata of the writer's Session may change. -/
theorem post_saveMetadata {w : Writer} {sessionMetadata : List (String × Option Json)}
    (hq : Q () (c.opened d))
    (hq' : ∀ metadata, Q () (c.opened { d with sessions := d.sessions.map fun s =>
      if s.key = w.sessionId then { s with metadata := metadata } else s }))
    (hw : d.writes = c.current.writes) :
    (w.saveMetadata sessionMetadata).Post (c.opened d) Q (Failed c) := by
  rw [Writer.saveMetadata]
  split
  · refine Exec.post_bind (Sql.post_query ?_)
    show Exec.Post (if _ then _ else _) _ _ _
    split
    · refine post_statement (fun d' hd' => ?_) hw
      cases hd'
      exact hq' _
    · exact Exec.post_pure hq
  · exact Exec.post_pure hq

end Statements

/-! ## Sessions of an append -/

section Sessions

variable {db : Database} {row : SessionRow}

/-- The sessions with one that was just accepted. -/
def withSession (db : Database) (row : SessionRow) : List SessionRow :=
  if row.key ∈ db.sessions.map (·.key) then db.sessions else db.sessions ++ [row]

theorem insertSession_eq : insertSession row db = .ok { db with sessions := withSession db row } := by
  rw [insertSession, withSession]
  split <;> rfl

theorem withSession_keys : (withSession db row).map (·.key) =
    if row.key ∈ db.sessions.map (·.key) then db.sessions.map (·.key)
    else db.sessions.map (·.key) ++ [row.key] := by
  rw [withSession]
  split
  · rfl
  · exact List.map_append

theorem mem_withSession {s : SessionRow} (h : s ∈ withSession db row) (hne : s.key ≠ row.key) :
    s ∈ db.sessions := by
  rw [withSession] at h
  split at h
  · exact h
  · rcases List.mem_append.mp h with h | h
    · exact h
    · exact absurd (congrArg SessionRow.key (List.mem_singleton.mp h)) hne

/-- A Session that was just accepted has no message yet. -/
theorem nextSeq_withSession (db : Database) (row : SessionRow) (hrow : row.nextSeq = 0) :
    (((withSession db row).find? (·.key = row.key)).map (·.nextSeq)).getD 0 =
      ((db.session? row.key).map (·.nextSeq)).getD 0 := by
  rw [withSession, session?]
  split
  · rfl
  · next h =>
      have hnone : db.sessions.find? (·.key = row.key) = none := by
        refine List.find?_eq_none.mpr fun s hs => ?_
        simpa using fun heq => h (List.mem_map.mpr ⟨s, hs, heq⟩)
      rw [List.find?_append, hnone]
      simp [hrow]

end Sessions

/-! ## The append -/

section Append

variable {w : Writer} {now : Instant} {request : AppendRequest}

/-- An append inside a transaction, or one that opens it. -/
theorem appendIn_post (c : Connection Database) : (w.appendIn now request).Post c
    (fun m t => Appended w now request c m t) (Failed c) := by
  rw [Writer.appendIn]
  refine Exec.post_bind (Sql.post_query ?_)
  refine Exec.post_bind (Exec.post_liftExcept (fun a ha => ?_) fun e _ => Or.inl rfl)
  cases hold : c.current.message? request.messageId with
  | some old =>
      obtain ⟨rfl, hsame, hgrant⟩ := checkAppend_replay hold ha
      exact Exec.post_pure (.replay hold hsame hgrant)
  | none =>
      obtain ⟨hgrant, hfresh⟩ := checkAppend_fresh hold ha
      obtain ⟨bindings, artifacts, sessionMetadata, rfl, hactive, hhead, _, hcall⟩ :=
        checkFresh_ok hfresh
      have hfresh : ∀ x ∈ c.current.messages, x.messageId ≠ request.messageId := by
        intro x hx
        simpa using List.find?_eq_none.mp hold x hx
      let row : SessionRow := ⟨w.sessionId, now, now, none, 0, {}⟩
      let d₁ : Database := { c.current with sessions := withSession c.current row }
      refine Exec.post_bind (Sql.post_execute (fun d hd => ?_) fun e he => ?_)
      case refine_2 =>
        rw [insertSession_eq] at he
        cases he
      rw [insertSession_eq] at hd
      cases hd
      refine Exec.post_bind (Sql.post_query ?_)
      refine Exec.post_bind (Exec.post_liftExcept (fun m hm => ?_)
        fun e _ => Or.inr ⟨d₁, rfl, rfl⟩)
      obtain ⟨hid, hsid, hseq, hat, hauthor, hsrc, hbody, hmeta⟩ := Message.make_fields hm
      refine Exec.post_bind (post_statement (fun d hd => ?_) rfl)
      obtain ⟨_, rfl⟩ := constrained_eq_ok.mp hd
      refine Exec.post_bind (post_attachments ?_ rfl)
      refine Exec.post_bind (post_bindings ?_ rfl)
      refine Exec.post_bind (post_statement (fun d hd => ?_) rfl)
      cases hd
      have hseq' : m.seq = ((c.current.session? w.sessionId).map (·.nextSeq)).getD 0 :=
        hseq.trans (nextSeq_withSession c.current row rfl)
      -- The rows of the Sessions, whatever is stored as metadata.
      have hstored (sessions : List SessionRow)
          (hkeys : sessions.map (·.key) = (withSession c.current row).map (·.key))
          (hsessions : ∀ s ∈ sessions, if s.key = w.sessionId then s.nextSeq = m.seq + 1
            else s ∈ withSession c.current row) :
          Stored w now request c.current m { d₁ with
            messages := c.current.messages ++ [m]
            messageAttachments := c.current.messageAttachments ++
              artifacts.zipIdx.map fun a => ⟨request.messageId, a.2, a.1⟩
            messageBindings := c.current.messageBindings ++
              bindings.map fun b => (request.messageId, b)
            sessions := sessions
            writes := c.current.writes ++ [.append m] } := {
        messageId := hid, identified := Message.make_identity hm, sessionId := hsid, seq := hseq', recordedAt := hat, author := hauthor
        source := hsrc, body := hbody, metadata := hmeta, active := hactive, granted := hgrant
        head := hhead
        fresh := by rw [hid]; exact hfresh
        result := by
          intro ref href
          rw [hbody] at href
          rw [hsid, hsrc]
          exact checkCallResult_ok (hcall ref href)
        messages := rfl
        sessions := by
          intro s hs
          have h := hsessions s hs
          rw [hsid]
          split
          · next heq => rwa [if_pos heq] at h
          · next hne =>
              rw [if_neg hne] at h
              exact mem_withSession h hne
        keys := by
          rw [hsid]
          exact hkeys.trans withSession_keys
        attachments := ⟨artifacts, by rw [hid]⟩
        records := rfl
        writes := rfl }
      have hupdated : ∀ s ∈ (withSession c.current row).map (fun s =>
          if s.key = w.sessionId then { s with nextSeq := m.seq + 1, updatedAt := now } else s),
          if s.key = w.sessionId then s.nextSeq = m.seq + 1
            else s ∈ withSession c.current row := by
        intro s hs
        obtain ⟨s₀, hs₀, rfl⟩ := List.mem_map.mp hs
        by_cases h : s₀.key = w.sessionId
        · simp [h]
        · simpa [h] using hs₀
      have hkeys : ((withSession c.current row).map (fun s => if s.key = w.sessionId then
          { s with nextSeq := m.seq + 1, updatedAt := now } else s)).map (·.key) =
          (withSession c.current row).map (·.key) := by
        rw [List.map_map]
        refine List.map_congr_left fun s _ => ?_
        by_cases h : s.key = w.sessionId <;> simp [h]
      rw [← hseq]
      refine Exec.post_bind (post_saveMetadata ?_ (fun metadata => ?_) rfl)
      · refine Exec.post_bind (post_statement (fun d hd => ?_) rfl)
        cases hd
        exact Exec.post_pure (.stored (hstored _ hkeys hupdated))
      · refine Exec.post_bind (post_statement (fun d hd => ?_) rfl)
        cases hd
        refine Exec.post_pure (.stored (hstored _ ?_ ?_))
        · rw [List.map_map, ← hkeys]
          refine List.map_congr_left fun s _ => ?_
          by_cases h : s.key = w.sessionId <;> simp [h]
        · intro s hs
          obtain ⟨s₀, hs₀, rfl⟩ := List.mem_map.mp hs
          have h := hupdated s₀ hs₀
          by_cases heq : s₀.key = w.sessionId
          · simpa [heq] using h
          · simpa [heq] using h

/-- A whole write commits what its callback did, or changes nothing. -/
theorem write_post {α : Type} {x : SessionM α} {db : Database}
    {Q : α → Connection Database → Prop} {E : Error → Connection Database → Prop}
    (h : x.Post (db.idle.opened db) (fun a t => Q a t.commit) fun e t => E e t.rollback) :
    (write x).Post db.idle Q E := by
  rw [write]
  refine Exec.post_bind (Exec.post_read ?_)
  refine Exec.post_bind (Exec.post_check (fun _ => ?_) fun hbusy => absurd rfl hbusy)
  exact Sql.post_withConnection (Exec.post_bind (Sql.post_begin rfl h))

theorem write_run {α : Type} (x : SessionM α) (db : Database) : Exec.run (write x) db.idle =
    match Exec.run x (db.idle.opened db) with
      | (.ok a, c) => ((.ok a : Except Error α), c.commit)
      | (.error e, c) => (.error e, c.rollback) := by
  rw [write, Exec.run_bind, Exec.run_read]
  show Exec.run (Exec.check (false = false) nestedWrite >>= _) db.idle = _
  rw [Exec.check, if_pos rfl, Exec.run_bind, Exec.run_pure]
  show Exec.run (Sql.withConnection (Sql.begin nestedBegin >>= fun _ => x)) db.idle = _
  have hbegin : Exec.run (Sql.begin nestedBegin) db.idle = (.ok (), db.idle.opened db) := rfl
  rw [Sql.run_withConnection, Exec.run_bind, hbegin]
  dsimp only
  cases Exec.run x (db.idle.opened db) with
  | mk r c => cases r <;> rfl

/-- `MessageWriter.append` returns a stored message and changes nothing, or stores
a new one, or raises and changes nothing. -/
theorem append_post (db : Database) : (w.append now request).Post db.idle
    (fun m t => (t = db.idle ∧ db.message? request.messageId = some m ∧
        w.checkReplay request m = .ok () ∧ w.checkRequest request = .ok ()) ∨
      ∃ db', t = db'.idle ∧ Stored w now request db m db')
    (fun _ t => t = db.idle) := by
  refine write_post ((appendIn_post _).mono ?_ ?_)
  · intro m t h
    cases h with
    | replay hold hsame hgrant => exact Or.inl ⟨rfl, hold, hsame, hgrant⟩
    | stored h => exact Or.inr ⟨_, rfl, h⟩
  · intro e t h
    rcases h with rfl | ⟨d, rfl, _⟩
    · rfl
    · rfl

end Append

end MonoAgent.Session
