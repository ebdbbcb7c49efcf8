import MonoAgent.Session.Invariant

/-!
# Owner transactions

`OwnerStore.transact` runs a callback inside one transaction of the shared
connection.  A callback is a `Script`: it makes one call after another on the
same message log, sees the response or the error of each, decides what comes
next, and at last returns or raises.  It may swallow every error.

The state of a running callback is the connection, the `_failed` flag of its
`OwnerTransaction`, and the writes its calls have reported as done.  The latter
is what the callback believes; what is committed is read off the connection.
-/

namespace MonoAgent.Session

open MonoAgent.Lib

/-! ## Calls -/

/-- A call a callback may make on the message log. -/
inductive Call where
  /-- `OwnerTransaction.read`. -/
  | read (key : String)
  /-- `OwnerTransaction.save`. -/
  | save (key : String) (value : Fields) (expectedVersion : Option Nat)
  /-- `OwnerTransaction.append`. -/
  | append (w : Writer) (now : Instant) (request : AppendRequest)
  /-- `MessageWriter.append`. -/
  | writerAppend (w : Writer) (now : Instant) (request : AppendRequest)
  | ensureSession (sessionId : String) (attributes : SessionAttributes) (now : Instant)
  | saveBinding (bindingId : String) (descriptor : Fields)
  | readBinding (bindingId : String)
  | validateAttachmentBindings
  /-- A read of the catalog or of a page, or the reads of an `OwnerStore.snapshot`, in a
  snapshot of its own. -/
  | readSnapshot
  /-- A single query of a reader, the catalog or an owner store. -/
  | view

/-- What a call returns. -/
inductive Response where
  | unit
  | record (record : Option OwnerRecord)
  | saved (record : OwnerRecord)
  | message (message : Message)
  | attributes (attributes : SessionAttributes)
  | descriptor (payload : String)
  | view (db : Database)

/-- A callback. -/
inductive Script where
  | ret (value : Json)
  | raise (e : Error)
  | call (c : Call) (k : Except Error Response → Script)
  /-- A nested `transact` of some owner. -/
  | transact (owner : String) (body : Script) (k : Except Error Json → Script)

/-- The writer a call appends with. -/
def Call.writer? : Call → Option Writer
  | .append w _ _ => some w
  | .writerAppend w _ _ => some w
  | _ => none

/-- Every writer a callback appends with is one of `ok`. -/
def Script.Uses (ok : Writer → Prop) : Script → Prop
  | .ret _ => True
  | .raise _ => True
  | .call c k => (∀ w, c.writer? = some w → ok w) ∧ ∀ r, (k r).Uses ok
  | .transact _ body k => body.Uses ok ∧ ∀ r, (k r).Uses ok

/-- The state of a running callback. -/
structure Txn where
  conn : Connection Database
  failed : Bool := false
  written : List Write := []

/-- What `_check_active` raises after a failure. -/
def transactionFailed : Error := ⟨.runtimeError, "存储 transaction 已失败，必须回滚"⟩

/-- `_perform`: an error marks the transaction. -/
def Txn.perform (t : Txn) (x : SessionM Response) : Except Error Response × Txn :=
  if t.failed then (.error transactionFailed, t)
  else match Exec.run x t.conn with
    | (.ok r, c) => (.ok r, { t with conn := c })
    | (.error e, c) => (.error e, { t with conn := c, failed := true })

/-- A call that does not go through the transaction object. -/
def Txn.outside (t : Txn) (x : SessionM Response) : Except Error Response × Txn :=
  match Exec.run x t.conn with
  | (r, c) => (r, { t with conn := c })

/-- One call. -/
def Call.exec (owner : String) (c : Call) (t : Txn) : Except Error Response × Txn :=
  match c with
  | .read key =>
      if t.failed then (.error transactionFailed, t)
      else (.ok (.record (t.conn.current.ownerRecords.get? (owner, key))), t)
  | .save key value expected => t.perform (.saved <$> saveIn owner key value expected)
  | .append w now request => t.perform (.message <$> w.appendIn now request)
  | .writerAppend w now request => t.outside (.message <$> w.append now request)
  | .ensureSession id attributes now =>
      t.outside (.attributes <$> MonoAgent.Session.ensureSession id attributes now)
  | .saveBinding id descriptor =>
      t.outside ((fun _ => .unit) <$> MonoAgent.Session.saveBinding id descriptor)
  | .readBinding id => t.outside (.descriptor <$> MonoAgent.Session.readBinding id)
  | .validateAttachmentBindings =>
      t.outside ((fun _ => .unit) <$> MonoAgent.Session.validateAttachmentBindings)
  | .readSnapshot => t.outside (.view <$> MonoAgent.Session.readSnapshot)
  | .view => (.ok (.view t.conn.current), t)

/-- The writes a call has made when it returns.  A replayed message is none. -/
def Call.made (owner : String) (db : Database) : Call → Response → List Write
  | .save key _ _, .saved record => [.save owner key record]
  | .append _ _ request, .message m =>
      if db.message? request.messageId = none then [.append m] else []
  | .writerAppend _ _ request, .message m =>
      if db.message? request.messageId = none then [.append m] else []
  | _, _ => []

/-- One call, with what it reports as written. -/
def Call.run (owner : String) (c : Call) (t : Txn) : Except Error Response × Txn :=
  match c.exec owner t with
  | (.ok r, u) => (.ok r, { u with written := t.written ++ c.made owner t.conn.current r })
  | (.error e, u) => (.error e, u)

/-! ## Transactions -/

/-- The state a callback starts in. -/
def Txn.open (t : Txn) : Txn := ⟨t.conn.opened t.conn.durable, false, t.written⟩

/-- The end of `transact`: the flag is checked, then all is committed or rolled
back. -/
def Txn.close (r : Except Error Json) (t : Txn) : Except Error Json × Txn :=
  match r with
  | .ok v =>
      if t.failed then (.error transactionFailed, { t with conn := t.conn.rollback })
      else (.ok v, { t with conn := t.conn.commit })
  | .error e => (.error e, { t with conn := t.conn.rollback })

/-- A callback runs.  Its nested transactions are refused by `_write` while a
transaction is open. -/
def Script.run : Script → String → Txn → Except Error Json × Txn
  | .ret v, _, t => (.ok v, t)
  | .raise e, _, t => (.error e, t)
  | .call c k, owner, t => (k (c.run owner t).1).run owner (c.run owner t).2
  | .transact inner body k, owner, t =>
      if t.conn.inTransaction then (k (.error nestedWrite)).run owner t
      else
        let b := body.run inner t.open
        let e := Txn.close b.1 b.2
        (k e.1).run owner { e.2 with failed := t.failed }

/-- The state before a call outside any transaction. -/
def Database.outer (db : Database) : Txn := ⟨db.idle, false, []⟩

/-- `OwnerStore.transact` on a store with no open transaction. -/
def transact (owner : String) (callback : Script) (db : Database) : Except Error Json × Txn :=
  let b := callback.run owner db.outer.open
  Txn.close b.1 b.2

/-! ## What one call does -/

/-- Calls that open a transaction of their own without asking first. -/
def Call.begins : Call → Bool
  | .saveBinding id _ => id ≠ ""
  | .validateAttachmentBindings => true
  | _ => false

/-- Calls of the transaction object. -/
def Call.own : Call → Bool
  | .read _ | .save .. | .append .. => true
  | _ => false

theorem Call.begins_of_own {c : Call} (h : c.own = true) : c.begins = false := by
  cases c with
  | read | save | append => rfl
  | _ => cases h

theorem Call.begins_of_writer {c : Call} {w : Writer} (h : c.writer? = some w) : c.begins = false := by
  cases c with
  | append | writerAppend => rfl
  | _ => cases h

/-- A committed change that is no write of a message or a record. -/
inductive Touched (db : Database) : Database → Prop where
  | session (row : SessionRow) (hrow : row.nextSeq = 0) :
      Touched db { db with sessions := withSession db row }
  | bindings (bindings : Dict String String) : Touched db { db with bindings := bindings }

/-- The effect of one call. -/
inductive CallStep (owner : String) (c : Call) (t : Txn) : Except Error Response → Txn → Prop where
  | quiet (r : Except Error Response) (h : c.begins = false ∨ t.conn.inTransaction = false) :
      CallStep owner c t r t
  | broken {e : Error} {conn : Connection Database} (hc : c.own = true)
      (hf : t.failed = false) (h : Failed t.conn e conn) :
      CallStep owner c t (.error e) { t with conn := conn, failed := true }
  | saved {key : String} {record : OwnerRecord} (hc : c.own = true) (hf : t.failed = false) :
      CallStep owner c t (.ok (.saved record))
        { conn := t.conn.opened { t.conn.current with
            ownerRecords := t.conn.current.ownerRecords.set (owner, key) record
            writes := t.conn.current.writes ++ [.save owner key record] }
          failed := t.failed
          written := t.written ++ [.save owner key record] }
  | stored {w : Writer} {now : Instant} {request : AppendRequest} {m : Message} {db' : Database}
      (hc : c.own = true) (hf : t.failed = false) (hw : c.writer? = some w)
      (h : Stored w now request t.conn.current m db') :
      CallStep owner c t (.ok (.message m))
        ⟨t.conn.opened db', t.failed, t.written ++ [.append m]⟩
  /-- `BEGIN` raised inside the open transaction, and `with` rolled it back. -/
  | rolledBack (hc : c.begins = true) (h : t.conn.inTransaction = true) :
      CallStep owner c t (.error nestedBegin) { t with conn := t.conn.rollback }
  /-- A write of its own was committed. -/
  | appended {w : Writer} {now : Instant} {request : AppendRequest} {m : Message}
      {db' : Database} (hc : c.own = false) (h : t.conn.inTransaction = false) (hw : c.writer? = some w)
      (hs : Stored w now request t.conn.durable m db') :
      CallStep owner c t (.ok (.message m)) ⟨db'.idle, t.failed, t.written ++ [.append m]⟩
  | settled {r : Except Error Response} {db' : Database} (h : t.conn.inTransaction = false)
      (ht : Touched t.conn.durable db') : CallStep owner c t r { t with conn := db'.idle }

section Calls

variable {owner : String} {c : Call} {t : Txn}

theorem saveIn_post (owner key : String) (value : Fields) (expected : Option Nat)
    (c : Connection Database) : (saveIn owner key value expected).Post c
      (fun record u => u = c.opened { c.current with
        ownerRecords := c.current.ownerRecords.set (owner, key) record
        writes := c.current.writes ++ [.save owner key record] })
      (Failed c) := by
  refine Exec.post_bind (Exec.post_check (fun _ => ?_) fun _ => Or.inl rfl)
  refine Exec.post_bind (Sql.post_query ?_)
  refine Exec.post_bind (Exec.post_check (fun _ => ?_) fun _ => Or.inl rfl)
  refine Exec.post_bind (Sql.post_execute (fun d hd => ?_) fun e he => by cases he)
  cases hd
  refine Exec.post_bind (Sql.post_execute (fun d hd => ?_) fun e he => by cases he)
  cases hd
  exact Exec.post_pure rfl

/-- A connection without a transaction is what it has committed. -/
theorem eq_idle {c : Connection Database} (h : c.inTransaction = false) : c = c.durable.idle := by
  cases c with
  | mk durable working =>
      cases working with
      | none => rfl
      | some d => cases h

theorem write_busy {α : Type} {x : SessionM α} {conn : Connection Database}
    {Q : α → Connection Database → Prop} {E : Error → Connection Database → Prop}
    (hbusy : conn.inTransaction = true) (he : E nestedWrite conn) : (write x).Post conn Q E := by
  refine Exec.post_bind (Exec.post_read ?_)
  rw [hbusy]
  exact Exec.post_bind (Exec.post_check (fun h => by cases h) fun _ => he)

/-- A call past the transaction object. -/
theorem Call.run_outside {x : SessionM Response} (hexec : c.exec owner t = t.outside x)
    (h : x.Post t.conn
      (fun r u => CallStep owner c t (.ok r)
        ⟨u, t.failed, t.written ++ c.made owner t.conn.current r⟩)
      (fun e u => CallStep owner c t (.error e) ⟨u, t.failed, t.written⟩)) :
    CallStep owner c t (c.run owner t).1 (c.run owner t).2 := by
  rw [Call.run, hexec, Txn.outside]
  rcases h.cases with ⟨r, u, hrun, hstep⟩ | ⟨e, u, hrun, hstep⟩
  · rw [hrun]
    exact hstep
  · rw [hrun]
    exact hstep

/-- A call through the transaction object. -/
theorem Call.run_perform {x : SessionM Response} (hexec : c.exec owner t = t.perform x)
    (hc : c.own = true)
    (h : t.failed = false → x.Post t.conn
      (fun r u => CallStep owner c t (.ok r)
        ⟨u, t.failed, t.written ++ c.made owner t.conn.current r⟩)
      (fun e u => Failed t.conn e u)) :
    CallStep owner c t (c.run owner t).1 (c.run owner t).2 := by
  rw [Call.run, hexec, Txn.perform]
  cases hf : t.failed with
  | true => exact .quiet _ (Or.inl (Call.begins_of_own hc))
  | false =>
      rcases (h hf).cases with ⟨r, u, hrun, hstep⟩ | ⟨e, u, hrun, hstep⟩
      · rw [if_neg (by simp), hrun]
        exact hf ▸ hstep
      · rw [if_neg (by simp), hrun]
        exact .broken hc hf hstep

/-- A call that leaves everything as it was. -/
theorem CallStep.kept (r : Except Error Response)
    (h : c.begins = false ∨ t.conn.inTransaction = false) {conn : Connection Database}
    (hconn : conn = t.conn) : CallStep owner c t r ⟨conn, t.failed, t.written⟩ := by
  rw [hconn]
  exact .quiet r h

theorem CallStep.same (r : Except Error Response)
    (h : c.begins = false ∨ t.conn.inTransaction = false) {conn : Connection Database}
    (hconn : conn = t.conn) {written : List Write} (hw : written = []) :
    CallStep owner c t r ⟨conn, t.failed, t.written ++ written⟩ := by
  rw [hw, List.append_nil]
  exact .kept r h hconn

theorem CallStep.touched (r : Except Error Response) (h : t.conn.inTransaction = false)
    {db' : Database} (ht : Touched t.conn.durable db') {written : List Write}
    (hw : written = []) : CallStep owner c t r ⟨db'.idle, t.failed, t.written ++ written⟩ := by
  rw [hw, List.append_nil]
  exact .settled h ht

/-! ## Every call is one of the steps -/

theorem Call.run_read (key : String) :
    CallStep owner (.read key) t ((Call.read key).run owner t).1 ((Call.read key).run owner t).2 := by
  rw [Call.run, Call.exec]
  cases t.failed with
  | true => exact .quiet _ (Or.inl rfl)
  | false => exact .same _ (Or.inl rfl) rfl rfl

theorem Call.run_save (key : String) (value : Fields) (expected : Option Nat) :
    let c : Call := .save key value expected
    CallStep owner c t (c.run owner t).1 (c.run owner t).2 := by
  refine Call.run_perform rfl rfl fun hf => Exec.post_map ?_
  refine (saveIn_post owner key value expected t.conn).mono ?_ fun _ _ h => h
  intro record u hu
  rw [hu]
  exact .saved rfl hf

theorem Call.run_append (w : Writer) (now : Instant) (request : AppendRequest) :
    let c : Call := .append w now request
    CallStep owner c t (c.run owner t).1 (c.run owner t).2 := by
  refine Call.run_perform rfl rfl fun hf => Exec.post_map ?_
  refine (appendIn_post t.conn).mono ?_ fun _ _ h => h
  intro m u hu
  cases hu with
  | replay hold => exact .same _ (Or.inl rfl) rfl (by simp [Call.made, hold])
  | stored h =>
      rw [Call.made, if_pos h.absent]
      exact .stored rfl hf rfl h

theorem Call.run_writerAppend (w : Writer) (now : Instant) (request : AppendRequest) :
    let c : Call := .writerAppend w now request
    CallStep owner c t (c.run owner t).1 (c.run owner t).2 := by
  refine Call.run_outside (x := .message <$> w.append now request) rfl (Exec.post_map ?_)
  cases hbusy : t.conn.inTransaction with
  | true => exact write_busy hbusy (.quiet _ (Or.inl rfl))
  | false =>
      have hidle := eq_idle hbusy
      rw [hidle]
      refine (append_post t.conn.durable).mono ?_ ?_
      · rintro m u (⟨rfl, hold, _⟩ | ⟨db', rfl, h⟩)
        · refine .same _ (Or.inl rfl) hidle.symm ?_
          rw [Call.made, if_neg]
          intro hnone
          cases hold.symm.trans hnone
        · have habsent : t.conn.durable.idle.current.message? request.messageId = none := h.absent
          rw [Call.made, if_pos habsent]
          exact .appended rfl hbusy rfl h
      · rintro e u rfl
        exact .kept _ (Or.inl rfl) hidle.symm

theorem Call.run_ensureSession (id : String) (attributes : SessionAttributes) (now : Instant) :
    let c : Call := .ensureSession id attributes now
    CallStep owner c t (c.run owner t).1 (c.run owner t).2 := by
  refine Call.run_outside (x := .attributes <$> MonoAgent.Session.ensureSession id attributes now)
    rfl (Exec.post_map ?_)
  refine Exec.post_bind (Exec.post_check (fun _ => ?_) fun _ => .quiet _ (Or.inl rfl))
  cases hbusy : t.conn.inTransaction with
  | true => exact write_busy hbusy (.quiet _ (Or.inl rfl))
  | false =>
      have hidle := eq_idle hbusy
      have herr (e : Error) : CallStep owner (.ensureSession id attributes now) t (.error e)
          ⟨t.conn.durable.idle, t.failed, t.written⟩ := .kept _ (Or.inl rfl) hidle.symm
      rw [hidle]
      refine write_post ?_
      refine Exec.post_bind (Sql.post_execute (fun d hd => ?_) fun e _ => herr e)
      rw [insertSession_eq] at hd
      cases hd
      refine Exec.post_bind (Sql.post_query ?_)
      split
      · exact Exec.post_throw (herr _)
      · refine Exec.post_bind (Exec.post_check (fun _ => ?_) fun _ => herr _)
        exact Exec.post_pure (.touched _ hbusy
          (.session ⟨id, now, now, none, 0, attributes⟩ rfl) rfl)

/-- A block that begins a transaction: inside one it is refused and rolls it back. -/
theorem post_block {y : SessionM Unit} (hc : c.begins = true)
    (h : t.conn.inTransaction = false → y.Post (t.conn.opened t.conn.durable)
      (fun _ u => CallStep owner c t (.ok .unit) ⟨u.commit, t.failed, t.written⟩)
      (fun e u => CallStep owner c t (.error e) ⟨u.rollback, t.failed, t.written⟩)) :
    (Sql.withConnection (Sql.begin nestedBegin >>= fun _ => y)).Post t.conn
      (fun _ u => CallStep owner c t (.ok .unit) ⟨u, t.failed, t.written⟩)
      (fun e u => CallStep owner c t (.error e) ⟨u, t.failed, t.written⟩) := by
  refine Sql.post_withConnection (Exec.post_bind ?_)
  cases hbusy : t.conn.inTransaction with
  | true => exact Sql.post_begin_busy hbusy (.rolledBack hc hbusy)
  | false =>
      have hnone : t.conn.working = none := by simpa [Connection.inTransaction] using hbusy
      exact Sql.post_begin hnone (h hbusy)

/-- A transaction that changed nothing. -/
theorem CallStep.unchanged (r : Except Error Response) (h : t.conn.inTransaction = false) :
    CallStep owner c t r ⟨t.conn.durable.idle, t.failed, t.written⟩ :=
  .kept r (Or.inr h) (eq_idle h).symm

theorem Call.run_saveBinding (id : String) (descriptor : Fields) :
    let c : Call := .saveBinding id descriptor
    CallStep owner c t (c.run owner t).1 (c.run owner t).2 := by
  refine Call.run_outside (x := (fun _ => .unit) <$> MonoAgent.Session.saveBinding id descriptor)
    rfl (Exec.post_map ?_)
  simp only [Call.made, List.append_nil]
  refine Exec.post_bind (Exec.post_check (fun hid => ?_) fun hid => ?_)
  · refine post_block (by simpa [Call.begins] using hid) fun hidle => ?_
    refine Exec.post_bind (Sql.post_query ?_)
    split
    · exact Exec.post_check (fun _ => .unchanged _ hidle) fun _ => .unchanged _ hidle
    · refine Sql.post_execute (fun d hd => ?_) fun e _ => .unchanged _ hidle
      obtain ⟨_, rfl⟩ := constrained_eq_ok.mp hd
      exact .settled hidle (.bindings _)
  · exact .quiet _ (Or.inl (by simpa [Call.begins] using hid))

theorem Call.run_readBinding (id : String) :
    let c : Call := .readBinding id
    CallStep owner c t (c.run owner t).1 (c.run owner t).2 := by
  refine Call.run_outside (x := .descriptor <$> MonoAgent.Session.readBinding id) rfl
    (Exec.post_map ?_)
  refine Exec.post_bind (Sql.post_query ?_)
  split
  · exact Exec.post_pure (.same _ (Or.inl rfl) rfl rfl)
  · exact Exec.post_throw (.quiet _ (Or.inl rfl))

theorem Call.run_validate : CallStep owner .validateAttachmentBindings t
    ((Call.validateAttachmentBindings).run owner t).1
    ((Call.validateAttachmentBindings).run owner t).2 := by
  refine Call.run_outside
    (x := (fun _ => .unit) <$> MonoAgent.Session.validateAttachmentBindings) rfl (Exec.post_map ?_)
  simp only [Call.made, List.append_nil]
  refine post_block rfl fun hidle => ?_
  refine Exec.post_bind (Sql.post_query ?_)
  refine Exec.post_bind (Exec.post_check (fun _ => ?_) fun _ => .unchanged _ hidle)
  exact Exec.post_check (fun _ => .unchanged _ hidle) fun _ => .unchanged _ hidle

theorem Call.run_readSnapshot : CallStep owner .readSnapshot t
    ((Call.readSnapshot).run owner t).1 ((Call.readSnapshot).run owner t).2 := by
  refine Call.run_outside (x := .view <$> MonoAgent.Session.readSnapshot) rfl (Exec.post_map ?_)
  refine Exec.post_bind (Exec.post_read ?_)
  cases hbusy : t.conn.inTransaction with
  | true => exact Sql.post_query (.same _ (Or.inl rfl) rfl rfl)
  | false =>
      have hnone : t.conn.working = none := by simpa [Connection.inTransaction] using hbusy
      refine Sql.post_withConnection (Exec.post_bind (Sql.post_begin hnone (Sql.post_query ?_)))
      exact .same _ (Or.inl rfl) (eq_idle hbusy).symm rfl

/-- Every call is one of the steps. -/
theorem Call.run_step (owner : String) (c : Call) (t : Txn) :
    CallStep owner c t (c.run owner t).1 (c.run owner t).2 := by
  cases c with
  | read key => exact Call.run_read key
  | save key value expected => exact Call.run_save key value expected
  | append w now request => exact Call.run_append w now request
  | writerAppend w now request => exact Call.run_writerAppend w now request
  | ensureSession id attributes now => exact Call.run_ensureSession id attributes now
  | saveBinding id descriptor => exact Call.run_saveBinding id descriptor
  | readBinding id => exact Call.run_readBinding id
  | validateAttachmentBindings => exact Call.run_validate
  | readSnapshot => exact Call.run_readSnapshot
  | view => exact .same _ (Or.inl rfl) rfl rfl

end Calls

end MonoAgent.Session
