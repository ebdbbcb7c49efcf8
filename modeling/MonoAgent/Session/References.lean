import MonoAgent.Lib.Statements
import MonoAgent.Session.Reachable

/-!
# The references of stored messages

The foreign keys of the schema: every attachment of a message is an artifact that
was published, and every binding of a message is stored.  Each statement checks
them, so every program over the log keeps them; `Database.ConstraintKept` is that
rule for any constraint of the tables.

`messageStore` is the store under its schema: it starts without links, and an
artifact is published in the only state its table admits.
-/

namespace MonoAgent.Session

open MonoAgent.Lib Database

/-! ## Constraints of the tables -/

/-- A property of the tables that no statement breaks. -/
structure Database.ConstraintKept (I : Database → Prop) : Prop where
  insertSession : ∀ row db db', I db → Database.insertSession row db = .ok db' → I db'
  updateSession : ∀ key f db db', I db → Database.updateSession key f db = .ok db' → I db'
  insertMessage : ∀ m db db', I db → Database.insertMessage m db = .ok db' → I db'
  insertAttachmentLink : ∀ link db db', I db →
    Database.insertAttachmentLink link db = .ok db' → I db'
  insertBindingLink : ∀ link db db', I db → Database.insertBindingLink link db = .ok db' → I db'
  insertBinding : ∀ id payload db db', I db →
    Database.insertBinding id payload db = .ok db' → I db'
  saveRecord : ∀ owner key record db db', I db →
    Database.saveRecord owner key record db = .ok db' → I db'
  recordWrite : ∀ w db db', I db → Database.recordWrite w db = .ok db' → I db'

section Keeps

variable {I : Database → Prop}

theorem keeps_write {α : Type} {x : SessionM α} (hx : Sql.Keeps I x) : Sql.Keeps I (write x) := by
  refine Sql.keeps_bind (Sql.keeps_read _) fun _ => Sql.keeps_bind (Sql.keeps_check _ _) fun _ => ?_
  exact Sql.keeps_withConnection (Sql.keeps_bind (Sql.keeps_begin _) fun _ => hx)

theorem keeps_readBinding (id : String) : Sql.Keeps I (readBinding id) := by
  rw [readBinding]
  refine Sql.keeps_bind (Sql.keeps_query _) fun found => ?_
  cases found with
  | none => exact Sql.keeps_throw _
  | some payload => exact Sql.keeps_pure _

theorem keeps_validate : Sql.Keeps I validateAttachmentBindings := by
  refine Sql.keeps_withConnection (Sql.keeps_bind (Sql.keeps_begin _) fun _ => ?_)
  refine Sql.keeps_bind (Sql.keeps_query _) fun db => ?_
  exact Sql.keeps_bind (Sql.keeps_check _ _) fun _ => Sql.keeps_check _ _

theorem keeps_readSnapshot : Sql.Keeps I readSnapshot := by
  rw [readSnapshot]
  refine Sql.keeps_bind (Sql.keeps_read _) fun busy => ?_
  split
  · exact Sql.keeps_query _
  · exact Sql.keeps_withConnection (Sql.keeps_bind (Sql.keeps_begin _) fun _ => Sql.keeps_query _)

theorem perform_meets {t : Txn} {x : SessionM Response} (hx : Sql.Keeps I x)
    (ht : t.conn.Meets I) : (t.perform x).2.conn.Meets I := by
  have h := hx.run ht
  rw [Txn.perform]
  split
  · exact ht
  · split
    · next heq => rwa [heq] at h
    · next heq => rwa [heq] at h

theorem outside_meets {t : Txn} {x : SessionM Response} (hx : Sql.Keeps I x)
    (ht : t.conn.Meets I) : (t.outside x).2.conn.Meets I := hx.run ht

theorem close_meets (r : Except Error Json) {t : Txn} (ht : t.conn.Meets I) :
    (Txn.close r t).2.conn.Meets I := by
  cases r with
  | error e => exact ht.rollback
  | ok v =>
      rw [Txn.close]
      split
      · exact ht.rollback
      · exact ht.commit

theorem committed_meets {α : Type} {x : SessionM α} (hx : Sql.Keeps I x) {db : Database}
    (h : I db) : I (committed x db) := by
  have hidle : db.idle.Meets I := ⟨h, h⟩
  exact (hx.run hidle).durable

variable (hI : ConstraintKept I)
include hI

theorem keeps_saveMetadata (w : Writer) (update : List (String × Option Json)) :
    Sql.Keeps I (w.saveMetadata update) := by
  rw [Writer.saveMetadata]
  split
  · refine Sql.keeps_bind (Sql.keeps_query _) fun _ => ?_
    dsimp only
    split
    · exact Sql.keeps_execute (hI.updateSession _ _)
    · exact Sql.keeps_pure _
  · exact Sql.keeps_pure _

theorem keeps_appendIn (w : Writer) (now : Instant) (request : AppendRequest) :
    Sql.Keeps I (w.appendIn now request) := by
  rw [Writer.appendIn]
  refine Sql.keeps_bind (Sql.keeps_query _) fun _ => ?_
  refine Sql.keeps_bind (Sql.keeps_liftExcept _) fun admission => ?_
  cases admission with
  | replay stored => exact Sql.keeps_pure _
  | fresh bindings artifacts sessionMetadata =>
      refine Sql.keeps_bind (Sql.keeps_execute (hI.insertSession _)) fun _ => ?_
      refine Sql.keeps_bind (Sql.keeps_query _) fun _ => ?_
      refine Sql.keeps_bind (Sql.keeps_liftExcept _) fun message => ?_
      refine Sql.keeps_bind (Sql.keeps_execute (hI.insertMessage _)) fun _ => ?_
      refine Sql.keeps_bind (Sql.keeps_forM fun _ =>
        Sql.keeps_execute (hI.insertAttachmentLink _)) fun _ => ?_
      refine Sql.keeps_bind (Sql.keeps_forM fun _ =>
        Sql.keeps_execute (hI.insertBindingLink _)) fun _ => ?_
      refine Sql.keeps_bind (Sql.keeps_execute (hI.updateSession _ _)) fun _ => ?_
      refine Sql.keeps_bind (keeps_saveMetadata hI w sessionMetadata) fun _ => ?_
      refine Sql.keeps_bind (Sql.keeps_execute (hI.recordWrite _)) fun _ => ?_
      exact Sql.keeps_pure _

theorem keeps_ensureSession (id : String) (attributes : SessionAttributes) (now : Instant) :
    Sql.Keeps I (ensureSession id attributes now) := by
  rw [ensureSession]
  refine Sql.keeps_bind (Sql.keeps_check _ _) fun _ => keeps_write ?_
  refine Sql.keeps_bind (Sql.keeps_execute (hI.insertSession _)) fun _ => ?_
  refine Sql.keeps_bind (Sql.keeps_query _) fun row => ?_
  cases row with
  | none => exact Sql.keeps_throw _
  | some s => exact Sql.keeps_bind (Sql.keeps_check _ _) fun _ => Sql.keeps_pure _

theorem keeps_saveBinding (id : String) (descriptor : Fields) :
    Sql.Keeps I (saveBinding id descriptor) := by
  rw [saveBinding]
  refine Sql.keeps_bind (Sql.keeps_check _ _) fun _ => Sql.keeps_withConnection ?_
  refine Sql.keeps_bind (Sql.keeps_begin _) fun _ => Sql.keeps_bind (Sql.keeps_query _) fun found => ?_
  cases found with
  | none => exact Sql.keeps_execute (hI.insertBinding _ _)
  | some stored => exact Sql.keeps_check _ _

theorem keeps_saveIn (owner key : String) (value : Fields) (expected : Option Nat) :
    Sql.Keeps I (saveIn owner key value expected) := by
  rw [saveIn]
  refine Sql.keeps_bind (Sql.keeps_check _ _) fun _ => ?_
  refine Sql.keeps_bind (Sql.keeps_query _) fun current => ?_
  refine Sql.keeps_bind (Sql.keeps_check _ _) fun _ => ?_
  refine Sql.keeps_bind (Sql.keeps_execute (hI.saveRecord _ _ _)) fun _ => ?_
  exact Sql.keeps_bind (Sql.keeps_execute (hI.recordWrite _)) fun _ => Sql.keeps_pure _

/-! ## Transactions -/

/-- One call of a callback. -/
theorem run_meets (owner : String) (c : Call) {t : Txn} (ht : t.conn.Meets I) :
    (c.run owner t).2.conn.Meets I := by
  have hexec : (c.exec owner t).2.conn.Meets I := by
    cases c with
    | read key =>
        rw [Call.exec]
        split <;> exact ht
    | save key value expected =>
        exact perform_meets (Sql.keeps_map (keeps_saveIn hI owner key value expected)) ht
    | append w now request =>
        exact perform_meets (Sql.keeps_map (keeps_appendIn hI w now request)) ht
    | writerAppend w now request =>
        exact outside_meets (Sql.keeps_map (keeps_write (keeps_appendIn hI w now request))) ht
    | ensureSession id attributes now =>
        exact outside_meets (Sql.keeps_map (keeps_ensureSession hI id attributes now)) ht
    | saveBinding id descriptor =>
        exact outside_meets (Sql.keeps_map (keeps_saveBinding hI id descriptor)) ht
    | readBinding id => exact outside_meets (Sql.keeps_map (keeps_readBinding id)) ht
    | validateAttachmentBindings =>
        exact outside_meets (Sql.keeps_map keeps_validate) ht
    | readSnapshot => exact outside_meets (Sql.keeps_map keeps_readSnapshot) ht
    | view => exact ht
  rw [Call.run]
  split
  · next heq => rwa [heq] at hexec
  · next heq => rwa [heq] at hexec

/-- A callback keeps a constraint, by induction on its calls. -/
theorem script_meets (s : Script) : ∀ {owner : String} {t : Txn}, t.conn.Meets I →
    (s.run owner t).2.conn.Meets I := by
  induction s with
  | ret v => exact fun ht => ht
  | raise e => exact fun ht => ht
  | call c k ih =>
      intro owner t ht
      exact ih _ (run_meets hI owner c ht)
  | transact inner body k ihBody ih =>
      intro owner t ht
      rw [Script.run]
      split
      · exact ih _ ht
      · have hopen : t.open.conn.Meets I := ht.opened ht.durable
        exact ih _ (close_meets _ (ihBody hopen))

theorem transact_meets (owner : String) (callback : Script) {db : Database} (h : I db) :
    I (transact owner callback db).2.conn.durable := by
  have hopen : db.outer.open.conn.Meets I := ⟨h, h⟩
  exact (close_meets _ (script_meets hI callback hopen)).durable

/-- The writes of the machine that are programs over the log. -/
theorem next_meets {db db' : Database} {a : LogAction} (h : I db)
    (hpublish : ∀ artifactId state, a = .publish artifactId state →
      I { db with attachments := db.attachments.set artifactId state })
    (hn : logMachine.next db a = some db') : I db' := by
  cases hn
  cases a with
  | ensureSession id attributes now =>
      exact committed_meets (keeps_ensureSession hI id attributes now) h
  | append w now request => exact committed_meets (keeps_write (keeps_appendIn hI w now request)) h
  | saveBinding id descriptor => exact committed_meets (keeps_saveBinding hI id descriptor) h
  | transact owner callback => exact transact_meets hI owner callback h
  | publish artifactId state => exact hpublish artifactId state rfl

end Keeps

/-! ## Foreign keys -/

/-- The references of the stored messages resolve. -/
structure Referenced (db : Database) : Prop where
  attachments : ∀ a ∈ db.messageAttachments, a.artifactId ∈ db.attachments.keys
  bindings : ∀ b ∈ db.messageBindings, b.2 ∈ db.bindings.keys
  /-- `CHECK (state = 'ready')`. -/
  published : ∀ a ∈ db.attachments, a.2 = "ready"

theorem Referenced.ready {db : Database} (h : Referenced db) {a : AttachmentLink}
    (ha : a ∈ db.messageAttachments) : db.ready a.artifactId = true := by
  cases hget : db.attachments.get? a.artifactId with
  | none => exact absurd (h.attachments a ha) (Dict.get?_eq_none.mp hget)
  | some state =>
      have hready : state = "ready" := h.published _ (Dict.mem_of_get? hget)
      simp [Database.ready, hget, hready]

theorem referenced_kept : ConstraintKept Referenced where
  insertSession := by
    intro row db db' h hd
    rw [insertSession_eq] at hd
    cases hd
    exact ⟨h.attachments, h.bindings, h.published⟩
  updateSession := by
    intro key f db db' h hd
    cases hd
    exact ⟨h.attachments, h.bindings, h.published⟩
  insertMessage := by
    intro m db db' h hd
    obtain ⟨_, rfl⟩ := constrained_eq_ok.mp hd
    exact ⟨h.attachments, h.bindings, h.published⟩
  insertAttachmentLink := by
    intro link db db' h hd
    obtain ⟨⟨_, _, hlink⟩, rfl⟩ := constrained_eq_ok.mp hd
    refine ⟨fun a ha => ?_, h.bindings, h.published⟩
    rcases List.mem_append.mp ha with ha | ha
    · exact h.attachments a ha
    · rw [List.mem_singleton.mp ha]
      exact hlink
  insertBindingLink := by
    intro link db db' h hd
    obtain ⟨⟨_, _, hlink⟩, rfl⟩ := constrained_eq_ok.mp hd
    refine ⟨h.attachments, fun b hb => ?_, h.published⟩
    rcases List.mem_append.mp hb with hb | hb
    · exact h.bindings b hb
    · rw [List.mem_singleton.mp hb]
      exact hlink
  insertBinding := by
    intro id payload db db' h hd
    obtain ⟨_, rfl⟩ := constrained_eq_ok.mp hd
    refine ⟨h.attachments, fun b hb => ?_, h.published⟩
    have hb := h.bindings b hb
    simp only [Dict.keys, List.map_append, List.mem_append] at hb ⊢
    exact Or.inl hb
  saveRecord := by
    intro owner key record db db' h hd
    cases hd
    exact ⟨h.attachments, h.bindings, h.published⟩
  recordWrite := by
    intro w db db' h hd
    cases hd
    exact ⟨h.attachments, h.bindings, h.published⟩

/-! ## The store under its schema -/

/-- What the table of artifacts admits. -/
def LogAction.Admitted : LogAction → Prop
  | .publish _ state => state = "ready"
  | _ => True

instance : DecidablePred LogAction.Admitted := fun a => by
  cases a <;> unfold LogAction.Admitted <;> infer_instance

/-- The store of the message log with the constraints of its schema. -/
def messageStore : Machine Database LogAction where
  start db := logMachine.start db ∧ db.messageBindings = [] ∧ ∀ a ∈ db.attachments, a.2 = "ready"
  next db a := if a.Admitted then logMachine.next db a else none

theorem messageStore_next {db db' : Database} {a : LogAction}
    (hn : messageStore.next db a = some db') : a.Admitted ∧ logMachine.next db a = some db' := by
  have hn' : (if a.Admitted then logMachine.next db a else none) = some db' := hn
  by_cases ha : a.Admitted
  · rw [if_pos ha] at hn'
    exact ⟨ha, hn'⟩
  · rw [if_neg ha] at hn'
    cases hn'

theorem messageStore_path {db db' : Database} (h : messageStore.Path Machine.always db db') :
    logMachine.Path Machine.always db db' := by
  induction h with
  | refl => exact .refl
  | step a _ _ hn ih => exact .step a ih trivial (messageStore_next hn).2

theorem messageStore_reachable {db : Database} (h : messageStore.Reachable db) :
    logMachine.Reachable db := by
  obtain ⟨s, hs, hp⟩ := h
  exact ⟨s, hs.1, messageStore_path hp⟩

theorem referenced_next {db db' : Database} {a : LogAction} (h : Referenced db)
    (hn : messageStore.next db a = some db') : Referenced db' := by
  obtain ⟨hadmitted, hn⟩ := messageStore_next hn
  refine next_meets referenced_kept h (fun artifactId state ha => ?_) hn
  subst ha
  have hkeys : ∀ k ∈ db.attachments.keys, k ∈ (db.attachments.set artifactId state).keys := by
    intro k hk
    rw [Dict.keys_set]
    split
    · exact hk
    · exact List.mem_append_left _ hk
  refine ⟨fun x hx => hkeys _ (h.attachments x hx), h.bindings, fun x hx => ?_⟩
  rcases Dict.mem_set.mp hx with rfl | ⟨_, hx⟩
  · exact hadmitted
  · exact h.published x hx

/-- The references of every stored message resolve, in every run of the store. -/
theorem referenced_of_reachable {db : Database} (h : messageStore.Reachable db) :
    Referenced db := by
  refine h.invariant (fun s hs => ?_) fun _ _ _ hI _ hn => referenced_next hI hn
  obtain ⟨⟨_, _, hlinks⟩, hbindings, hpublished⟩ := hs
  exact ⟨by simp [hlinks], by simp [hbindings], hpublished⟩

/-! ## Growth -/

section Growth

variable {db db' : Database}

theorem snapshot_path (h : messageStore.Path Machine.always db db') (sessionId : String) :
    db.snapshot sessionId <+: db'.snapshot sessionId := by
  induction h with
  | refl => exact List.prefix_rfl
  | step a _ _ hn ih => exact ih.trans (snapshot_grows (messageStore_next hn).2 sessionId)

/-- A Session that was accepted stays. -/
theorem session_kept (ok : Writer → Prop) (sessionId : String) :
    Preserved ok fun db => sessionId ∈ db.sessions.map (·.key) where
  stored := by
    intro w now request db m db' _ h hs
    rw [hs.keys]
    split
    · exact h
    · exact List.mem_append_left _ h
  saved := fun _ _ _ h => h
  touched := by
    intro db db' h ht
    cases ht with
    | session row hrow =>
        show sessionId ∈ (withSession db row).map (·.key)
        rw [withSession_keys]
        split
        · exact h
        · exact List.mem_append_left _ h
    | bindings => exact h
  published := fun _ h => h

theorem session_path (h : messageStore.Path Machine.always db db') {sessionId : String}
    (hs : sessionId ∈ db.sessions.map (·.key)) : sessionId ∈ db'.sessions.map (·.key) := by
  induction h with
  | refl => exact hs
  | step a _ _ hn ih =>
      exact logMachine_step (session_kept _ sessionId) a.uses_all ih (messageStore_next hn).2

end Growth

end MonoAgent.Session
