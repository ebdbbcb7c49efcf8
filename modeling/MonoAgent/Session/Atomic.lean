import MonoAgent.Session.Reachable

/-!
# When an owner transaction is atomic

`AllOrNothing` compares what a callback was told with what is committed: after a
return every write its calls reported is committed, after a raise none is.

A callback can break it in one way.  A call that begins a transaction of its own
inside the open one is refused, and its `with` block rolls back the open one; the
callback may swallow the error.  The writes before that call are gone, and later
calls may commit on their own.  Nothing else can go wrong (`transact_of_account`),
and whether this does is read off the calls alone: which of them wrote, which began
a transaction, and what was written before those.
-/

namespace MonoAgent.Session

open MonoAgent.Lib

/-! ## What a transaction owes its callback -/

/-- The messages among some writes. -/
def appendedMessages (ws : List Write) : List Message :=
  ws.filterMap fun w => match w with
    | .append m => some m
    | .save .. => none

/-- The records after some writes. -/
def savedRecords (records : Dict (String × String) OwnerRecord) (ws : List Write) :
    Dict (String × String) OwnerRecord :=
  ws.foldl (fun d w => match w with
    | .append _ => d
    | .save owner key record => d.set (owner, key) record) records

/-- `db'` is `db` after exactly the writes `ws`. -/
structure Committed (db : Database) (ws : List Write) (db' : Database) : Prop where
  writes : db'.writes = db.writes ++ ws
  messages : db'.messages = db.messages ++ appendedMessages ws
  records : db'.ownerRecords = savedRecords db.ownerRecords ws

/-- After a return everything reported is committed, after a raise nothing is. -/
def AllOrNothing (db : Database) (r : Except Error Json) (t : Txn) : Prop :=
  match r with
  | .ok _ => Committed db t.written t.conn.durable
  | .error _ => Committed db [] t.conn.durable

/-! ## What a callback does -/

/-- What matters of the calls of a callback. -/
inductive Event where
  /-- A call of the transaction object has saved a record or appended a message. -/
  | wrote
  /-- `MessageWriter.append` has appended a message. -/
  | sent
  /-- A call was made that begins a transaction without asking. -/
  | began
  /-- A nested transaction was let in, and has returned. -/
  | returned
  /-- A nested transaction was let in, and has raised. -/
  | raised
deriving DecidableEq, Repr

/-- The writes that a call reports. -/
def Call.reports (owner : String) (c : Call) (t : Txn) : List Write :=
  match (c.run owner t).1 with
  | .ok r => c.made owner t.conn.current r
  | .error _ => []

def Call.events (owner : String) (c : Call) (t : Txn) : List Event :=
  if c.begins then [.began]
  else (c.reports owner t).map fun _ => if c.own then .wrote else .sent

/-- The transaction object raises. -/
def Call.refused (owner : String) (c : Call) (t : Txn) : Bool :=
  c.own && (c.run owner t).1.toOption.isNone

/-- The callback returns, and its transaction object has not raised. -/
def Script.returns : Script → String → Txn → Bool
  | .ret _, _, _ => true
  | .raise _, _, _ => false
  | .call c k, owner, t =>
      !c.refused owner t && (k (c.run owner t).1).returns owner (c.run owner t).2
  | .transact inner body k, owner, t =>
      if t.conn.inTransaction then (k (.error nestedWrite)).returns owner t
      else
        let b := body.run inner t.open
        let e := Txn.close b.1 b.2
        (k e.1).returns owner { e.2 with failed := t.failed }

/-- The events of a callback, those of the nested transactions that are let in among them. -/
def Script.events : Script → String → Txn → List Event
  | .ret _, _, _ => []
  | .raise _, _, _ => []
  | .call c k, owner, t =>
      c.events owner t ++ (k (c.run owner t).1).events owner (c.run owner t).2
  | .transact inner body k, owner, t =>
      if t.conn.inTransaction then (k (.error nestedWrite)).events owner t
      else
        let b := body.run inner t.open
        let e := Txn.close b.1 b.2
        body.events inner t.open ++ [if body.returns inner t.open then .returned else .raised] ++
          (k e.1).events owner { e.2 with failed := t.failed }

/-! ## What a callback must not do -/

/-- Whether something was written that neither was committed nor rolled back. -/
def Event.staged (staged : Bool) : Event → Bool
  | .wrote => true
  | .sent => staged
  | .began | .returned | .raised => false

/-- What was written is rolled back. -/
def Event.loses (staged : Bool) : Event → Bool
  | .began | .raised => staged
  | .wrote | .sent | .returned => false

/-- Something is committed. -/
def Event.commits (staged : Bool) : Event → Bool
  | .sent => true
  | .returned => staged
  | .wrote | .began | .raised => false

/-- Some event is bad, after what was written before it. -/
def Occurs (bad : Bool → Event → Bool) : Bool → List Event → Bool
  | _, [] => false
  | staged, e :: es => bad staged e || Occurs bad (e.staged staged) es

theorem occurs_append (bad : Bool → Event → Bool) (d : Bool) (es es' : List Event) :
    Occurs bad d (es ++ es') = (Occurs bad d es || Occurs bad (es.foldl Event.staged d) es') := by
  induction es generalizing d with
  | nil => rfl
  | cons e es ih =>
      rw [List.cons_append, Occurs, Occurs, ih, Bool.or_assoc]
      rfl

/-- A call that begins a transaction, or a nested transaction that raises, comes after a
write that is not committed. -/
def Script.Loses (callback : Script) (owner : String) (t : Txn) : Prop :=
  Occurs Event.loses false (callback.events owner t) = true

/-- `MessageWriter.append` appends a message, or a nested transaction returns after a write. -/
def Script.Commits (callback : Script) (owner : String) (t : Txn) : Prop :=
  Occurs Event.commits false (callback.events owner t) = true

/-- The open transaction holds no write yet. -/
def Txn.Clean (t : Txn) : Prop := t.conn.current.writes = t.conn.durable.writes

/-! ## Accounts of writes -/

/-- What has become of the writes between two states of a callback.  `keeps` and
`contained` are exactly the conditions under which none was lost and none was
committed. -/
structure Account (keeps contained : Prop) (t u : Txn) : Prop where
  ordered : u.conn.durable.writes <+: u.conn.current.writes
  durable : t.conn.durable.writes <+: u.conn.durable.writes
  contained_iff : u.conn.durable.writes = t.conn.durable.writes ↔ contained
  bound : u.conn.current.writes.length + t.written.length ≤
    t.conn.current.writes.length + u.written.length
  keeps_iff : keeps ↔ u.conn.current.writes.length + t.written.length =
    t.conn.current.writes.length + u.written.length
  kept : keeps → ∃ ws, u.written = t.written ++ ws ∧
    u.conn.current.writes = t.conn.current.writes ++ ws

section Account

variable {keeps keeps' contained contained' : Prop} {t u v : Txn} {owner : String}

theorem Account.refl (h : t.conn.durable.writes <+: t.conn.current.writes) :
    Account True True t t where
  ordered := h
  durable := List.prefix_rfl
  contained_iff := iff_of_true rfl trivial
  bound := by omega
  keeps_iff := iff_of_true trivial (by omega)
  kept := fun _ => ⟨[], by simp, by simp⟩

theorem Account.trans (h : Account keeps contained t u) (h' : Account keeps' contained' u v) :
    Account (keeps ∧ keeps') (contained ∧ contained') t v where
  ordered := h'.ordered
  durable := h.durable.trans h'.durable
  contained_iff := by
    rw [← h.contained_iff, ← h'.contained_iff]
    constructor
    · intro heq
      have hle : u.conn.durable.writes <+: t.conn.durable.writes := heq ▸ h'.durable
      have htu : u.conn.durable.writes = t.conn.durable.writes :=
        hle.eq_of_length (le_antisymm hle.length_le h.durable.length_le)
      exact ⟨htu, heq.trans htu.symm⟩
    · rintro ⟨h₁, h₂⟩
      exact h₂.trans h₁
  bound := by
    have h₁ := h.bound
    have h₂ := h'.bound
    omega
  keeps_iff := by
    rw [h.keeps_iff, h'.keeps_iff]
    have h₁ := h.bound
    have h₂ := h'.bound
    omega
  kept := by
    rintro ⟨hk, hk'⟩
    obtain ⟨ws, hw, hj⟩ := h.kept hk
    obtain ⟨ws', hw', hj'⟩ := h'.kept hk'
    exact ⟨ws ++ ws', by rw [hw', hw, List.append_assoc], by rw [hj', hj, List.append_assoc]⟩

theorem Account.congr (h : Account keeps contained t u) (hk : keeps ↔ keeps')
    (hc : contained ↔ contained') : Account keeps' contained' t u where
  ordered := h.ordered
  durable := h.durable
  contained_iff := h.contained_iff.trans hc
  bound := h.bound
  keeps_iff := hk.symm.trans h.keeps_iff
  kept := fun hk' => h.kept (hk.mpr hk')

/-- A write inside the open transaction. -/
theorem Account.push (h : t.conn.durable.writes <+: t.conn.current.writes) {w : Write}
    (hdurable : u.conn.durable = t.conn.durable)
    (hcurrent : u.conn.current.writes = t.conn.current.writes ++ [w])
    (hwritten : u.written = t.written ++ [w]) : Account True True t u where
  ordered := by
    rw [hdurable, hcurrent]
    exact h.trans (List.prefix_append _ _)
  durable := by rw [hdurable]
  contained_iff := iff_of_true (by rw [hdurable]) trivial
  bound := by
    rw [hcurrent, hwritten, List.length_append, List.length_append]
    omega
  keeps_iff := iff_of_true trivial (by
    rw [hcurrent, hwritten, List.length_append, List.length_append]
    omega)
  kept := fun _ => ⟨[w], hwritten, hcurrent⟩

/-- Neither the contents nor the report changed. -/
theorem Account.still (h : t.conn.durable.writes <+: t.conn.current.writes)
    (hdurable : u.conn.durable.writes = t.conn.durable.writes)
    (hcurrent : u.conn.current.writes = t.conn.current.writes)
    (hwritten : u.written = t.written) : Account True True t u where
  ordered := by rwa [hdurable, hcurrent]
  durable := by rw [hdurable]
  contained_iff := iff_of_true hdurable trivial
  bound := by rw [hcurrent, hwritten]
  keeps_iff := iff_of_true trivial (by rw [hcurrent, hwritten])
  kept := fun _ => ⟨[], by rw [hwritten]; simp, by rw [hcurrent]; simp⟩

/-- The open transaction was rolled back. -/
theorem Account.undo (h : t.conn.durable.writes <+: t.conn.current.writes)
    (hdurable : u.conn.durable.writes = t.conn.durable.writes)
    (hcurrent : u.conn.current.writes = t.conn.durable.writes)
    (hwritten : u.written = t.written) : Account t.Clean True t u where
  ordered := by rw [hdurable, hcurrent]
  durable := by rw [hdurable]
  contained_iff := iff_of_true hdurable trivial
  bound := by
    have hle := h.length_le
    rw [hcurrent, hwritten]
    omega
  keeps_iff := by
    rw [hcurrent, hwritten, Txn.Clean]
    constructor
    · intro heq
      rw [heq]
    · intro hlen
      exact (h.eq_of_length (by omega)).symm
  kept := fun hclean => ⟨[], by rw [hwritten]; simp, by rw [hcurrent, List.append_nil, hclean]⟩

theorem current_of_idle {c : Connection Database} (h : c.inTransaction = false) :
    c.current = c.durable := by
  rw [eq_idle h]
  rfl

/-- A write committed outside a transaction. -/
theorem Account.commit (hidle : t.conn.inTransaction = false) {w : Write} {db' : Database}
    (hconn : u.conn = db'.idle) (hwrites : db'.writes = t.conn.durable.writes ++ [w])
    (hwritten : u.written = t.written ++ [w]) :
    Account True (u.conn.durable.writes = t.conn.durable.writes) t u := by
  have hdurable : u.conn.durable.writes = t.conn.durable.writes ++ [w] := by rw [hconn]; exact hwrites
  have hcurrent : u.conn.current.writes = t.conn.current.writes ++ [w] := by
    rw [hconn, current_of_idle hidle]
    exact hwrites
  refine ⟨?_, ?_, Iff.rfl, ?_, ?_, fun _ => ⟨[w], hwritten, hcurrent⟩⟩
  · rw [hdurable, hcurrent, current_of_idle hidle]
  · rw [hdurable]
    exact List.prefix_append _ _
  · rw [hcurrent, hwritten, List.length_append, List.length_append]
    omega
  · refine iff_of_true trivial ?_
    rw [hcurrent, hwritten, List.length_append, List.length_append]
    omega

theorem clean_of_idle (h : t.conn.inTransaction = false) : t.Clean := by
  rw [Txn.Clean, current_of_idle h]

/-- A transaction with a write more is not clean. -/
theorem not_clean_of_push (h : t.conn.durable.writes <+: t.conn.current.writes) {w : Write}
    (hdurable : u.conn.durable = t.conn.durable)
    (hcurrent : u.conn.current.writes = t.conn.current.writes ++ [w]) : ¬ u.Clean := by
  intro hclean
  have hlen := congrArg List.length hclean
  have hle := h.length_le
  rw [hcurrent, hdurable, List.length_append, List.length_singleton] at hlen
  omega

theorem Call.run_written (owner : String) (c : Call) (t : Txn) :
    (c.run owner t).2.written = t.written ++ c.reports owner t := by
  have hexec : (c.exec owner t).2.written = t.written := by
    have hperform (x : SessionM Response) : (t.perform x).2.written = t.written := by
      rw [Txn.perform]
      split
      · rfl
      · split <;> rfl
    have houtside (x : SessionM Response) : (t.outside x).2.written = t.written := rfl
    cases c with
    | read key =>
        rw [Call.exec]
        split <;> rfl
    | save | append => exact hperform _
    | view => rfl
    | _ => exact houtside _
  rw [Call.reports, Call.run]
  generalize c.exec owner t = b at hexec ⊢
  obtain ⟨r, u⟩ := b
  cases r with
  | ok r => rfl
  | error e => exact hexec.trans (List.append_nil _).symm

/-- A call that reports no write, unless it begins a transaction. -/
theorem Call.events_of_same (owner : String) (c : Call) (t : Txn) (h : (c.run owner t).2.written = t.written) :
    c.events owner t = if c.begins then [.began] else [] := by
  have hnil : c.reports owner t = [] := by
    rw [Call.run_written] at h
    exact List.append_right_eq_self.mp h
  rw [Call.events, hnil]
  rfl

theorem Call.events_of_push (owner : String) (c : Call) (t : Txn) (w : Write) (hc : c.begins = false)
    (h : (c.run owner t).2.written = t.written ++ [w]) :
    c.events owner t = [if c.own then .wrote else .sent] := by
  have hone : c.reports owner t = [w] := by
    rw [Call.run_written] at h
    exact List.append_cancel_left h
  rw [Call.events, hone, hc]
  rfl

/-- The account of some events. -/
structure Told (es : List Event) (d : Bool) (t u : Txn) : Prop where
  account : Account (Occurs Event.loses d es = false) (Occurs Event.commits d es = false) t u
  clean : es.foldl Event.staged d = false ↔ u.Clean

theorem Told.trans {es es' : List Event} {d : Bool} (h : Told es d t u)
    (h' : Told es' (es.foldl Event.staged d) u v) : Told (es ++ es') d t v where
  account := by
    refine (h.account.trans h'.account).congr ?_ ?_
    · rw [occurs_append, Bool.or_eq_false_iff]
    · rw [occurs_append, Bool.or_eq_false_iff]
  clean := by
    rw [List.foldl_append]
    exact h'.clean

/-- No event. -/
theorem Told.nil {d : Bool} (hd : d = false ↔ t.Clean) (h : Account True True t u)
    (hclean : u.Clean ↔ t.Clean) : Told [] d t u where
  account := h.congr (iff_of_true trivial rfl) (iff_of_true trivial rfl)
  clean := hd.trans hclean.symm

/-- A call that begins a transaction while none is open. -/
theorem Told.free {d : Bool} (hd : d = false ↔ t.Clean) (h : Account True True t u) (ht : t.Clean)
    (hu : u.Clean) (c : Call) : Told (if c.begins then [.began] else []) d t u := by
  split
  · exact ⟨h.congr (iff_of_true trivial (by simp [Occurs, Event.loses, hd.mpr ht]))
      (iff_of_true trivial rfl), iff_of_true rfl hu⟩
  · exact .nil hd h (iff_of_true hu ht)

/-- The account of one call. -/
theorem Call.told (owner : String) (c : Call) {t : Txn} {d : Bool}
    (hord : t.conn.durable.writes <+: t.conn.current.writes) (hd : d = false ↔ t.Clean) :
    Told (c.events owner t) d t (c.run owner t).2 := by
  have hstep := c.run_step owner t
  have hsame := c.events_of_same owner t
  have hpush := c.events_of_push owner t
  generalize c.run owner t = b at hstep hsame hpush ⊢
  obtain ⟨r, u⟩ := b
  cases hstep with
  | quiet r h =>
      rw [hsame rfl]
      rcases h with h | h
      · rw [h]
        exact .nil hd (.refl hord) Iff.rfl
      · exact .free hd (.refl hord) (clean_of_idle h) (clean_of_idle h) c
  | broken hc hf h =>
      rw [hsame rfl, Call.begins_of_own hc]
      rcases h with rfl | ⟨conn, rfl, hconn⟩
      · exact .nil hd (.still hord rfl rfl rfl) Iff.rfl
      · refine .nil hd (.still hord rfl hconn rfl) ?_
        show _ = _ ↔ _ = _
        rw [show (t.conn.opened conn).current.writes = t.conn.current.writes from hconn]
        rfl
  | saved hc hf =>
      rw [hpush _ (Call.begins_of_own hc) rfl, hc]
      refine ⟨Account.congr (Account.push hord rfl rfl rfl) (iff_of_true trivial rfl)
        (iff_of_true trivial rfl), iff_of_false (by simp [Event.staged]) ?_⟩
      exact not_clean_of_push hord rfl rfl
  | stored hc hf _ h =>
      rw [hpush _ (Call.begins_of_own hc) rfl, hc]
      refine ⟨Account.congr (Account.push hord rfl h.writes rfl) (iff_of_true trivial rfl)
        (iff_of_true trivial rfl), iff_of_false (by simp [Event.staged]) ?_⟩
      exact not_clean_of_push hord rfl h.writes
  | rolledBack hc h =>
      rw [hsame rfl, hc]
      refine ⟨Account.congr (Account.undo hord rfl rfl rfl) ?_ (iff_of_true trivial rfl),
        iff_of_true rfl rfl⟩
      rw [← hd]
      simp [Occurs, Event.loses]
  | appended hc h hw hs =>
      have hclean := hd.mpr (clean_of_idle h)
      subst hclean
      rw [hpush _ (Call.begins_of_writer hw) rfl, hc]
      refine ⟨Account.congr (Account.commit h rfl hs.writes rfl) (iff_of_true trivial rfl)
        (iff_of_false (fun heq => ?_) (by simp [Occurs, Event.commits])), iff_of_true rfl rfl⟩
      have hlen := congrArg List.length (hs.writes.symm.trans heq)
      simp at hlen
  | settled h ht =>
      rw [hsame rfl]
      rename_i db'
      have hwrites : db'.writes = t.conn.durable.writes := by
        cases ht <;> rfl
      have hcurrent : db'.writes = t.conn.current.writes := by
        rw [current_of_idle h]
        exact hwrites
      have haccount : Account True True t { t with conn := db'.idle } := .still hord hwrites hcurrent rfl
      exact .free hd haccount (clean_of_idle h) rfl c

/-- The account of a nested transaction that committed. -/
theorem Account.nested_commit (h : Account keeps contained t.open u)
    (hidle : t.conn.inTransaction = false) (failed : Bool) :
    Account keeps (u.conn.current.writes = t.conn.durable.writes) t
      ⟨u.conn.commit, failed, u.written⟩ := by
  have hcurrent : t.open.conn.current.writes = t.conn.current.writes := by
    rw [current_of_idle hidle]
    rfl
  refine ⟨List.prefix_rfl, h.durable.trans h.ordered, Iff.rfl, ?_, ?_, ?_⟩
  · rw [← hcurrent]
    exact h.bound
  · rw [← hcurrent]
    exact h.keeps_iff
  · rw [← hcurrent]
    exact h.kept

/-- The account of a nested transaction that raised. -/
theorem Account.nested_rollback (h : Account keeps contained t.open u)
    (hidle : t.conn.inTransaction = false) (failed : Bool) :
    Account (keeps ∧ u.Clean) (u.conn.durable.writes = t.conn.durable.writes) t
      ⟨u.conn.rollback, failed, u.written⟩ := by
  have hcurrent : t.open.conn.current.writes = t.conn.current.writes := by
    rw [current_of_idle hidle]
    rfl
  have hbound : u.conn.current.writes.length + t.written.length ≤
      t.conn.current.writes.length + u.written.length := hcurrent ▸ h.bound
  have hle := h.ordered.length_le
  refine ⟨List.prefix_rfl, h.durable, Iff.rfl, ?_, ?_, ?_⟩
  · show u.conn.durable.writes.length + _ ≤ _
    exact (Nat.add_le_add_right hle _).trans hbound
  · show _ ↔ u.conn.durable.writes.length + t.written.length =
      t.conn.current.writes.length + u.written.length
    have hiff : keeps ↔ u.conn.current.writes.length + t.written.length =
        t.conn.current.writes.length + u.written.length := hcurrent ▸ h.keeps_iff
    rw [hiff, Txn.Clean]
    constructor
    · rintro ⟨hlen, hclean⟩
      rw [← hclean]
      exact hlen
    · intro hlen
      exact ⟨by omega, (h.ordered.eq_of_length (by omega)).symm⟩
  · rintro ⟨hk, hclean⟩
    obtain ⟨ws, hw, hj⟩ := h.kept hk
    refine ⟨ws, hw, ?_⟩
    show u.conn.durable.writes = _
    rw [← hclean, hj, hcurrent]

end Account

/-! ## The account of a callback -/

/-- The transaction object is marked when it raises. -/
theorem Call.run_failed (owner : String) (c : Call) (t : Txn) :
    (c.run owner t).2.failed = (t.failed || c.refused owner t) := by
  have hrun : (c.run owner t).2.failed = (c.exec owner t).2.failed ∧
      (c.run owner t).1.toOption.isNone = (c.exec owner t).1.toOption.isNone := by
    rw [Call.run]
    generalize c.exec owner t = b
    obtain ⟨r, u⟩ := b
    cases r <;> exact ⟨rfl, rfl⟩
  rw [Call.refused, hrun.1, hrun.2]
  have hperform (x : SessionM Response) :
      (t.perform x).2.failed = (t.failed || (t.perform x).1.toOption.isNone) := by
    rw [Txn.perform]
    cases hf : t.failed with
    | true => exact hf
    | false =>
        rw [if_neg (by simp)]
        generalize Exec.run x t.conn = b
        obtain ⟨r, u⟩ := b
        cases r with
        | ok r => rfl
        | error e => rfl
  have houtside (x : SessionM Response) : (t.outside x).2.failed = (t.failed || false) :=
    (Bool.or_false _).symm
  cases c with
  | read key =>
      rw [Call.exec]
      cases hf : t.failed with
      | true => exact hf
      | false => exact hf
  | save | append => exact hperform _
  | view => exact (Bool.or_false _).symm
  | _ => exact houtside _

/-- How the callback ends is how its transaction ends. -/
theorem Script.returns_iff (s : Script) : ∀ (owner : String) (t : Txn), t.failed = false →
    (s.returns owner t = true ↔
      (s.run owner t).1.toOption.isSome = true ∧ (s.run owner t).2.failed = false) := by
  suffices h : ∀ (owner : String) (t : Txn), (t.failed = false ∧ s.returns owner t = true ↔
      (s.run owner t).1.toOption.isSome = true ∧ (s.run owner t).2.failed = false) by
    intro owner t hf
    rw [← h, and_iff_right hf]
  induction s with
  | ret v => exact fun _ t => and_comm
  | raise e => exact fun _ _ => by simp [Script.returns, Script.run, Except.toOption]
  | call c k ih =>
      intro owner t
      rw [Script.run, ← ih, c.run_failed, Script.returns]
      simp [and_assoc]
  | transact inner body k _ ih =>
      intro owner t
      rw [Script.returns, Script.run]
      split
      · exact ih _ owner t
      · exact ih _ owner
          { (Txn.close (body.run inner t.open).1 (body.run inner t.open).2).2 with failed := t.failed }

/-- A nested transaction ends as its callback does. -/
theorem Told.nested {es : List Event} {v : Txn} (h : Told es false t.open u)
    (hidle : t.conn.inTransaction = false) (r : Except Error Json) {returned : Bool}
    (hr : returned = true ↔ r.toOption.isSome = true ∧ u.failed = false)
    (hv : v = { (Txn.close r u).2 with failed := t.failed }) :
    Told (es ++ [if returned then .returned else .raised]) false t v := by
  cases returned with
  | true =>
      obtain ⟨hok, hf⟩ := hr.mp rfl
      obtain ⟨value, rfl⟩ : ∃ value, r = .ok value := by
        cases r with
        | ok value => exact ⟨value, rfl⟩
        | error e => cases hok
      have hclose : Txn.close (.ok value) u = (.ok value, { u with conn := u.conn.commit }) := by
        simp [Txn.close, hf]
      rw [hclose] at hv
      subst hv
      refine ⟨(h.account.nested_commit hidle t.failed).congr ?_ ?_, ?_⟩
      · simp [occurs_append, Occurs, Event.loses]
      · -- Nothing is committed when nothing was before, and nothing is left to commit.
        rw [occurs_append, Bool.or_eq_false_iff, ← h.account.contained_iff]
        show _ ↔ _ ∧ (es.foldl Event.staged false || false) = false
        rw [Bool.or_false, h.clean]
        constructor
        · intro heq
          have hle : u.conn.current.writes.length ≤ u.conn.durable.writes.length := by
            rw [heq]
            exact h.account.durable.length_le
          have hclean : u.Clean :=
            (h.account.ordered.eq_of_length (le_antisymm h.account.ordered.length_le hle)).symm
          exact ⟨hclean.symm.trans heq, hclean⟩
        · rintro ⟨hsame, hclean⟩
          exact hclean.trans hsame
      · rw [List.foldl_append]
        exact iff_of_true rfl rfl
  | false =>
      have hclose : (Txn.close r u).2 = { u with conn := u.conn.rollback } := by
        cases r with
        | error e => rfl
        | ok value =>
            cases hf : u.failed with
            | true => simp [Txn.close, hf]
            | false => cases hr.mpr ⟨rfl, hf⟩
      rw [hclose] at hv
      subst hv
      refine ⟨(h.account.nested_rollback hidle t.failed).congr ?_ ?_, ?_⟩
      · rw [occurs_append, Bool.or_eq_false_iff]
        show _ ↔ _ ∧ (es.foldl Event.staged false || false) = false
        rw [Bool.or_false, h.clean]
      · rw [occurs_append, Bool.or_eq_false_iff, ← h.account.contained_iff]
        exact ⟨fun heq => ⟨heq, rfl⟩, fun heq => heq.1⟩
      · rw [List.foldl_append]
        exact iff_of_true rfl rfl

/-- The account of a callback, by induction on its calls. -/
theorem Script.told (s : Script) : ∀ (owner : String) {t : Txn} {d : Bool},
    t.conn.durable.writes <+: t.conn.current.writes → (d = false ↔ t.Clean) →
    Told (s.events owner t) d t (s.run owner t).2 := by
  induction s with
  | ret v => exact fun _ _ _ hord hd => .nil hd (.refl hord) Iff.rfl
  | raise e => exact fun _ _ _ hord hd => .nil hd (.refl hord) Iff.rfl
  | call c k ih =>
      intro owner t d hord hd
      have hcall := c.told owner hord hd
      exact hcall.trans (ih _ owner hcall.account.ordered hcall.clean)
  | transact inner body k ihBody ih =>
      intro owner t d hord hd
      rw [Script.events, Script.run]
      cases hin : t.conn.inTransaction with
      | true => exact ih _ owner hord hd
      | false =>
          obtain rfl := hd.mpr (clean_of_idle hin)
          have hbody := ihBody inner (List.prefix_rfl : t.open.conn.durable.writes <+: _) (iff_of_true rfl rfl)
          have hnested := hbody.nested hin (body.run inner t.open).1
            (body.returns_iff inner t.open rfl) rfl
          exact hnested.trans (ih _ owner hnested.account.ordered hnested.clean)

/-! ## The account of a transaction -/

theorem Committed.unique {db db' : Database} {ws ws' : List Write} (h : Committed db ws db')
    (h' : db'.writes = db.writes ++ ws') : ws' = ws :=
  (List.append_cancel_left (h'.symm.trans h.writes))

/-- Messages and records are what the noted writes make of them. -/
theorem committed_preserved (db : Database) :
    Preserved (fun _ => True) fun db' => ∃ ws, Committed db ws db' where
  stored := by
    rintro w now request db₁ m db' _ ⟨ws, hw, hm, hr⟩ hs
    refine ⟨ws ++ [.append m], ?_, ?_, ?_⟩
    · rw [hs.writes, hw, List.append_assoc]
    · rw [hs.messages, hm, appendedMessages, appendedMessages, List.filterMap_append]
      simp
    · rw [hs.records, hr, savedRecords, savedRecords, List.foldl_append]
      rfl
  saved := by
    rintro db₁ owner key record ⟨ws, hw, hm, hr⟩
    refine ⟨ws ++ [.save owner key record], ?_, ?_, ?_⟩
    · show db₁.writes ++ _ = _
      rw [hw, List.append_assoc]
    · show db₁.messages = _
      rw [hm, appendedMessages, appendedMessages, List.filterMap_append]
      simp
    · show db₁.ownerRecords.set _ _ = _
      rw [hr, savedRecords, savedRecords, List.foldl_append]
      rfl
  touched := by
    rintro db₁ db' ⟨ws, hw, hm, hr⟩ ht
    refine ⟨ws, ?_⟩
    cases ht <;> exact ⟨hw, hm, hr⟩
  published := fun _ ⟨ws, hw, hm, hr⟩ => ⟨ws, hw, hm, hr⟩

/-- What a transaction owes its callback, by an account of the callback's writes. -/
theorem transact_of_account {keeps contained : Prop} (owner : String) (callback : Script) (db : Database)
    (hacc : Account keeps contained db.outer.open (callback.run owner db.outer.open).2) :
    AllOrNothing db (transact owner callback db).1 (transact owner callback db).2 ↔
      if callback.returns owner db.outer.open then keeps else contained := by
  have hends := callback.returns_iff owner db.outer.open rfl
  obtain ⟨ws, hws⟩ := transact_sound (committed_preserved db) owner callback.uses_all
    ⟨[], by simp, by simp [appendedMessages], rfl⟩
  have hstart : db.outer.open.written = [] := rfl
  have hcurrent : db.outer.open.conn.current = db := rfl
  have hdurable : db.outer.open.conn.durable = db := rfl
  obtain ⟨r, u, hrun⟩ : ∃ r u, callback.run owner db.outer.open = (r, u) := ⟨_, _, rfl⟩
  have htransact : transact owner callback db = Txn.close r u := by rw [transact, hrun]
  rw [hrun] at hacc hends
  rw [htransact] at hws ⊢
  -- After a raise the committed writes decide.
  have hraise (hws : Committed db ws u.conn.durable) : Committed db [] u.conn.durable ↔ contained := by
    rw [← hacc.contained_iff, hdurable]
    constructor
    · intro h
      rw [h.writes, List.append_nil]
    · intro h
      have hnil : [] = ws := hws.unique (by rw [h, List.append_nil])
      rwa [hnil]
  cases r with
  | error e =>
      rw [if_neg fun hret => by cases (hends.mp hret).1]
      exact hraise hws
  | ok v =>
      cases hf : u.failed with
      | true =>
          have hclose : Txn.close (.ok v) u = (.error transactionFailed,
              { u with conn := u.conn.rollback }) := by simp [Txn.close, hf]
          rw [hclose] at hws ⊢
          rw [if_neg fun hret => by cases hf.symm.trans (hends.mp hret).2]
          exact hraise hws
      | false =>
          have hclose : Txn.close (.ok v) u = (.ok v, { u with conn := u.conn.commit }) := by
            simp [Txn.close, hf]
          rw [hclose] at hws ⊢
          rw [if_pos (hends.mpr ⟨rfl, hf⟩)]
          show Committed db u.written u.conn.current ↔ _
          constructor
          · intro h
            rw [hacc.keeps_iff, hstart, hcurrent, h.writes, List.length_append]
            rfl
          · intro h
            obtain ⟨ws', hw, hj⟩ := hacc.kept h
            rw [hstart, List.nil_append] at hw
            rw [hcurrent] at hj
            rw [hw, hws.unique hj]
            exact hws

/-- The account of a transaction's callback, by its events. -/
theorem Script.account (owner : String) (callback : Script) (db : Database) :
    Account (¬ callback.Loses owner db.outer.open) (¬ callback.Commits owner db.outer.open)
      db.outer.open (callback.run owner db.outer.open).2 := by
  have hordered : db.outer.open.conn.durable.writes <+: db.outer.open.conn.current.writes := List.prefix_rfl
  refine (callback.told owner hordered (iff_of_true rfl rfl)).account.congr ?_ ?_
  · rw [Script.Loses, Bool.not_eq_true]
  · rw [Script.Commits, Bool.not_eq_true]

/-- An owner transaction is all-or-nothing exactly when no call of its callback begins a
transaction after a write, if the callback returns, and none commits, if it does not. -/
theorem transact_atomic_iff (owner : String) (callback : Script) (db : Database) :
    AllOrNothing db (transact owner callback db).1 (transact owner callback db).2 ↔
      if callback.returns owner db.outer.open then ¬ callback.Loses owner db.outer.open
      else ¬ callback.Commits owner db.outer.open :=
  transact_of_account owner callback db (callback.account owner db)

/-! ## Callbacks that begin no transaction of their own -/

/-- No call of the callback begins a transaction without asking first. -/
def Script.NoBegin : Script → Prop
  | .ret _ => True
  | .raise _ => True
  | .call c k => c.begins = false ∧ ∀ r, (k r).NoBegin
  | .transact _ _ k => ∀ r, (k r).NoBegin

/-- Such a callback stays inside its transaction, and only writes there. -/
theorem Script.noBegin_spec (s : Script) : ∀ (owner : String) (t : Txn), s.NoBegin →
    t.conn.inTransaction = true → ∀ e ∈ s.events owner t, e = .wrote := by
  induction s with
  | ret v => exact fun _ _ _ _ _ he => by cases he
  | raise e => exact fun _ _ _ _ _ he => by cases he
  | call c k ih =>
      intro owner t hs hin e he
      obtain ⟨hc, hk⟩ := hs
      have hstep : (c.run owner t).2.conn.inTransaction = true ∧ ∀ e ∈ c.events owner t, e = .wrote := by
        have h := c.run_step owner t
        have hsame := c.events_of_same owner t
        have hpush (w : Write) := c.events_of_push owner t w hc
        generalize c.run owner t = b at h hsame hpush ⊢
        obtain ⟨r, u⟩ := b
        cases h with
        | quiet =>
            rw [hsame rfl, hc]
            exact ⟨hin, fun _ he => by cases he⟩
        | broken _ _ h =>
            rw [hsame rfl, hc]
            rcases h with rfl | ⟨d, rfl, _⟩
            · exact ⟨hin, fun _ he => by cases he⟩
            · exact ⟨rfl, fun _ he => by cases he⟩
        | saved hown =>
            rw [hpush _ rfl, hown]
            exact ⟨rfl, fun _ he => List.mem_singleton.mp he⟩
        | stored hown =>
            rw [hpush _ rfl, hown]
            exact ⟨rfl, fun _ he => List.mem_singleton.mp he⟩
        | rolledBack hb => cases hc.symm.trans hb
        | appended _ h => cases hin.symm.trans h
        | settled h => cases hin.symm.trans h
      rcases List.mem_append.mp he with he | he
      · exact hstep.2 e he
      · exact ih _ owner _ (hk _) hstep.1 e he
  | transact inner body k _ ih =>
      intro owner t hs hin e he
      rw [Script.events, if_pos hin] at he
      exact ih _ owner t (hs _) hin e he

/-- Writes alone neither lose nor commit anything. -/
theorem occurs_wrote {bad : Bool → Event → Bool} (hbad : ∀ d, bad d .wrote = false) {es : List Event}
    (h : ∀ e ∈ es, e = .wrote) (d : Bool) : Occurs bad d es = false := by
  induction es generalizing d with
  | nil => rfl
  | cons e es ih =>
      obtain rfl := h e (List.mem_cons_self ..)
      rw [Occurs, hbad, Bool.false_or]
      exact ih (fun e he => h e (List.mem_cons_of_mem _ he)) _

/-- A callback that never calls `saveBinding` or `validateAttachmentBindings` is
all-or-nothing, whatever errors it swallows. -/
theorem transact_atomic_of_noBegin (owner : String) {callback : Script} (h : callback.NoBegin)
    (db : Database) :
    AllOrNothing db (transact owner callback db).1 (transact owner callback db).2 := by
  have hwrote := callback.noBegin_spec owner db.outer.open h rfl
  refine (transact_of_account owner callback db (callback.account owner db)).mpr ?_
  rw [Script.Loses, Script.Commits, occurs_wrote (fun _ => rfl) hwrote, occurs_wrote (fun _ => rfl) hwrote]
  split <;> exact Bool.false_ne_true

/-- Save a record, swallow the refusal of a second save of it, and save another record. -/
def refusedSave : Script :=
  .call (.save "a" [] none) fun _ => .call (.save "a" [] none) fun _ =>
    .call (.save "c" [] none) fun _ => .ret .null

/-- The refusal is raised in the end, and nothing is committed. -/
theorem refusedSave_atomic : (transact "o" refusedSave {}).1 = .error transactionFailed ∧
    AllOrNothing {} (transact "o" refusedSave {}).1 (transact "o" refusedSave {}).2 := by
  have hcalls : refusedSave.NoBegin := ⟨rfl, fun _ => ⟨rfl, fun _ => ⟨rfl, fun _ => trivial⟩⟩⟩
  exact ⟨rfl, transact_atomic_of_noBegin "o" hcalls {}⟩

/-- Save a record, save a binding and swallow its error, save another record. -/
def lostSave : Script :=
  .call (.save "a" [] none) fun _ => .call (.saveBinding "b" []) fun _ =>
    .call (.save "c" [] none) fun _ => .ret .null

example : lostSave.events "o" (Database.outer {}).open = [.wrote, .began, .wrote] := rfl

/-- The transaction returns, both saves have returned, and only the second is
committed. -/
theorem lostSave_not_atomic : (transact "o" lostSave {}).1 = .ok .null ∧
    (transact "o" lostSave {}).2.written = [.save "o" "a" ⟨0, []⟩, .save "o" "c" ⟨0, []⟩] ∧
    (transact "o" lostSave {}).2.conn.durable.ownerRecords = [(("o", "c"), ⟨0, []⟩)] ∧
    ¬ AllOrNothing {} (transact "o" lostSave {}).1 (transact "o" lostSave {}).2 := by
  refine ⟨rfl, rfl, rfl, fun h => ?_⟩
  have hrecords : [(("o", "c"), (⟨0, []⟩ : OwnerRecord))] =
      [(("o", "a"), ⟨0, []⟩), (("o", "c"), ⟨0, []⟩)] := h.records
  exact absurd hrecords (by decide)

end MonoAgent.Session
