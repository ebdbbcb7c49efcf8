import MonoAgent.Receipts.Calls

/-!
# Receipts over runs

What holds of the table after any calls of any devices at any times.
-/

namespace MonoAgent.Receipts

open MonoAgent.Lib

variable {db db' : Database} {r : Row}

/-- A call, or a device that is paired. -/
inductive Action where
  | registerDevice (deviceId : Text)
  | reserve (deviceId commandId commandType requestHash : Text) (createdAt : DateTime)
  | complete (deviceId commandId : Text) (c : Completion)
  | settle (deviceId commandId : Text)
  | cleanup (deviceId : Text) (now : DateTime)

/-- What the call answers, as far as it returns or raises, and the tables after it. -/
def Action.call (a : Action) (db : Database) : Except Failure Unit × Database :=
  match a with
  | .registerDevice deviceId => (.ok (), { db with devices := db.devices ++ [deviceId] })
  | .reserve deviceId commandId commandType requestHash createdAt =>
      (reserveCommand deviceId commandId commandType requestHash createdAt db).map (·.map fun _ => ()) id
  | .complete deviceId commandId c => (completeCommand deviceId commandId c db).map (·.map fun _ => ()) id
  | .settle deviceId commandId => completeRejectedMessageHandoff deviceId commandId db
  | .cleanup deviceId now => (cleanupCommandReceipts deviceId now db).map (·.map fun _ => ()) id

/-- The device whose receipts a call collects, and the time it gives. -/
def Action.collects : Action → Option (Text × DateTime)
  | .reserve deviceId _ _ _ createdAt => some (deviceId, createdAt)
  | .complete deviceId _ c => some (deviceId, c.completedAt)
  | .cleanup deviceId now => some (deviceId, now)
  | _ => none

def receiptMachine : Machine Database Action where
  start db := db = {}
  next db a := some (a.call db).2

/-! ## One step -/

/-- What a call leaves of a row: the row, its completion, or the row with its handoff settled. -/
inductive Follows (a : Action) (r : Row) : Row → Prop where
  | same : Follows a r r
  | complete (c : Completion) : a = .complete r.deviceId r.commandId c → r.status = .processing → Follows a r (r.finish c)
  | settle : a = .settle r.deviceId r.commandId → r.status = .completed → Follows a r { r with handoffPending := false }

/-- A row goes when it is outdated at the time of a call, and no other way. -/
def Kept (a : Action) (db' : Database) (r : Row) : Prop :=
  (∃ r' ∈ db'.rows, Follows a r r') ∨ ∃ now, a.collects = some (r.deviceId, now) ∧ r.Outdated r.deviceId now

theorem kept_collect {a : Action} {deviceId cut : Text} {now : DateTime} (hinv : db.Inv) (hr : r ∈ db.rows)
    (hcut : Database.cutoff now = .ok cut) (ha : a.collects = some (deviceId, now)) :
    r ∈ (db.collect deviceId cut).rows ∨ ∃ now, a.collects = some (r.deviceId, now) ∧ r.Outdated r.deviceId now := by
  cases hexpired : r.expired deviceId cut with
  | false => exact Or.inl (Database.mem_collect.mpr ⟨hr, hexpired⟩)
  | true =>
      have hold := ((hinv.stored r hr).1.expired_iff hcut).mp hexpired
      obtain rfl := hold.device
      exact Or.inr ⟨now, ha, hold⟩

/-- What one call does to the invariant and to each row. -/
structure Stepped (a : Action) (db : Database) (out : Except Failure Unit) (db' : Database) : Prop where
  inv : db'.Inv
  kept : ∀ r ∈ db.rows, Kept a db' r
  raised : ∀ e, out = .error e → db' = db

theorem Stepped.unchanged {a : Action} {out : Except Failure Unit} (hinv : db.Inv) : Stepped a db out db where
  inv := hinv
  kept r hr := Or.inl ⟨r, hr, .same⟩
  raised _ _ := rfl

theorem call_stepped {a : Action} {out : Except Failure Unit} (hinv : db.Inv) (h : a.call db = (out, db')) :
    Stepped a db out db' := by
  cases a with
  | registerDevice deviceId =>
      cases h
      exact {
        inv := {
          keys := hinv.keys
          stored := fun r hr => ⟨(hinv.stored r hr).1, List.mem_append_left _ (hinv.stored r hr).2⟩
          count := hinv.count
          bytes := hinv.bytes }
        kept := fun r hr => Or.inl ⟨r, hr, .same⟩
        raised := fun _ he => nomatch he }
  | reserve deviceId commandId commandType requestHash createdAt =>
      cases hrun : reserveCommand deviceId commandId commandType requestHash createdAt db with
      | mk reply next =>
          simp only [Action.call, hrun, Prod.map] at h
          cases h
          cases reply with
          | error e =>
              rcases transaction_cases hrun with ⟨_, -, hout⟩ | ⟨_, -, hsame⟩
              · cases hout
              · rw [id, hsame]
                exact .unchanged hinv
          | ok reply =>
              obtain ⟨cut, hcut, hcases⟩ := reserveCommand_ok hinv hrun
              rcases hcases with ⟨-, hnext, -⟩ | ⟨-, -, hocc, -⟩
              · rw [id, hnext]
                exact {
                  inv := hinv.collect
                  kept := fun r hr => (kept_collect hinv hr hcut rfl).imp_left fun hmem => ⟨r, hmem, .same⟩
                  raised := fun _ he => nomatch he }
              · refine { inv := hinv.collect.occupies hocc, kept := fun r hr => ?_, raised := fun _ he => nomatch he }
                refine (kept_collect hinv hr hcut rfl).imp_left fun hmem => ⟨r, ?_, .same⟩
                rw [id, hocc.next]
                exact List.mem_append_left _ hmem
  | complete deviceId commandId c =>
      cases hrun : completeCommand deviceId commandId c db with
      | mk reply next =>
          simp only [Action.call, hrun, Prod.map] at h
          cases h
          rcases completeCommand_cases hinv hrun with ⟨e, -, hsame⟩ | ⟨receipt, r, cut, rfl, rfl, rfl, -, hdone⟩
          · rw [id, hsame]
            exact .unchanged hinv
          · refine { inv := hdone.inv hinv, kept := fun x hx => ?_, raised := fun _ he => nomatch he }
            refine (kept_collect hinv hx hdone.cutoff rfl).imp_left fun hmem => ?_
            by_cases hxr : x = r
            · subst hxr
              exact ⟨x.finish c, hdone.replaces.mem_rows.mpr (Or.inl rfl), .complete c rfl hdone.processing⟩
            · exact ⟨x, hdone.replaces.mem_rows.mpr (Or.inr ⟨hmem, hxr⟩), .same⟩
  | settle deviceId commandId =>
      rcases handoff_cases hinv h with ⟨e, -, hsame⟩ | ⟨rfl, r, hstatus, hreplaces⟩
      · rw [hsame]
        exact .unchanged hinv
      · obtain ⟨hstored, -⟩ := hinv.stored r hreplaces.mem
        have hnamed := of_decide_eq_true ((hreplaces.one r hreplaces.mem).mpr rfl)
        obtain ⟨rfl, rfl⟩ := Row.named_iff.mp hnamed.1
        refine {
          inv := hreplaces.inv hinv ?_ ?_
          kept := fun x hx => Or.inl ?_
          raised := fun _ he => nomatch he }
        · exact {
            named := hstored.named
            encodes := hstored.encodes
            created := hstored.created
            processing := fun hs => nomatch hstatus.symm.trans hs
            completed := hstored.completed }
        · have hbytes := hreplaces.bytes hinv
          have hsame : Row.bytes { r with handoffPending := false } = r.bytes := rfl
          have hlimit := hinv.bytes r.deviceId
          omega
        · by_cases hxr : x = r
          · subst hxr
            exact ⟨_, hreplaces.mem_rows.mpr (Or.inl rfl), .settle rfl hstatus⟩
          · exact ⟨x, hreplaces.mem_rows.mpr (Or.inr ⟨hx, hxr⟩), .same⟩
  | cleanup deviceId now =>
      cases hrun : cleanupCommandReceipts deviceId now db with
      | mk reply next =>
          simp only [Action.call, hrun, Prod.map] at h
          cases h
          rcases cleanupCommandReceipts_cases hrun with ⟨e, -, hsame⟩ | ⟨n, cut, rfl, hcut, hnext⟩
          · rw [id, hsame]
            exact .unchanged hinv
          · rw [id, hnext]
            exact {
              inv := hinv.collect
              kept := fun r hr => (kept_collect hinv hr hcut rfl).imp_left fun hmem => ⟨r, hmem, .same⟩
              raised := fun _ he => nomatch he }

/-! ## Runs -/

theorem inv_reach (h : receiptMachine.Reachable db) : db.Inv := by
  refine h.invariant ?_ ?_
  · rintro s rfl
    exact {
      keys := List.nodup_nil
      stored := fun _ hr => absurd hr List.not_mem_nil
      count := fun _ => Nat.zero_le _
      bytes := fun _ => Nat.zero_le _ }
  · intro s a t hs _ hn
    cases Option.some.inj hn
    exact (call_stepped hs rfl).inv

/-- What holds of the table between two calls. -/
structure Database.Holds (db : Database) : Prop where
  one : ∀ r ∈ db.rows, ∀ s ∈ db.rows, r.deviceId = s.deviceId → r.commandId = s.commandId → r = s
  count : ∀ d, (db.commandReceiptUsage d).1 ≤ commandReceiptMaxCount
  bytes : ∀ d, (db.commandReceiptUsage d).2 ≤ commandReceiptMaxBytes
  /-- A receipt that the call does not collect is given back, to the same request only. -/
  reused : ∀ r ∈ db.rows, ∀ commandType requestHash now cut, Database.cutoff now = .ok cut → ¬ r.Outdated r.deviceId now →
    (r.commandType = commandType ∧ r.requestHash = requestHash → ∃ receipt : CommandReceipt, receipt.Of r ∧
      reserveCommand r.deviceId r.commandId commandType requestHash now db =
        (.ok (receipt, false), db.collect r.deviceId cut)) ∧
    (¬ (r.commandType = commandType ∧ r.requestHash = requestHash) →
      ∃ e, reserveCommand r.deviceId r.commandId commandType requestHash now db = (.error e, db))
  /-- An insert: the size that was projected is the size after it. -/
  inserted : ∀ deviceId commandId commandType requestHash now receipt db',
    reserveCommand deviceId commandId commandType requestHash now db = (.ok (receipt, true), db') →
      ∃ cut size, Database.cutoff now = .ok cut ∧
        receiptRowBytes (processingRow deviceId commandId commandType requestHash now).columns = .ok size ∧
        receipt.Of (processingRow deviceId commandId commandType requestHash now) ∧
        (∀ r ∈ (db.collect deviceId cut).rows, ¬ (r.deviceId = deviceId ∧ r.commandId = commandId)) ∧
        (db'.commandReceiptUsage deviceId).2 = ((db.collect deviceId cut).commandReceiptUsage deviceId).2 + size
  /-- A completion: the size that was projected is the size after it. -/
  completed : ∀ deviceId commandId c receipt db', completeCommand deviceId commandId c db = (.ok receipt, db') →
    ∃ r cut current projected, Database.cutoff c.completedAt = .ok cut ∧
      db.read deviceId commandId = some r ∧ receipt.Of (r.finish c) ∧
      receiptRowBytes r.columns = .ok current ∧ receiptRowBytes (r.finish c).columns = .ok projected ∧
      (db'.commandReceiptUsage deviceId).2 =
        ((db.collect deviceId cut).commandReceiptUsage deviceId).2 - current + projected
  /-- What a call leaves of each row, and that one that raises leaves all. -/
  kept : ∀ a, ∀ r ∈ db.rows, Kept a (a.call db).2 r
  raised : ∀ (a : Action) e, (a.call db).1 = .error e → (a.call db).2 = db

theorem receipts_hold (h : receiptMachine.Reachable db) : db.Holds := by
  have hinv := inv_reach h
  exact {
    one := fun r hr s hs hd hc => hinv.eq_of_key hr hs hd hc
    count := hinv.count
    bytes := hinv.bytes
    reused := fun r hr commandType requestHash now cut hcut hlive => by
      refine reserveCommand_stored hinv hr hcut ?_
      rw [← Bool.not_eq_true, (hinv.stored r hr).1.expired_iff hcut]
      exact hlive
    inserted := fun deviceId commandId commandType requestHash now receipt db' hrun => by
      obtain ⟨cut, hcut, hcases⟩ := reserveCommand_ok hinv hrun
      rcases hcases with ⟨hno, -⟩ | ⟨-, hof, hocc, hsize⟩
      · cases hno
      · have habsent : (db.collect deviceId cut).read deviceId commandId = none := hocc.absent
        have husage : db'.commandReceiptUsage deviceId = _ := hocc.usage
        refine ⟨cut, (processingRow deviceId commandId commandType requestHash now).bytes, hcut, hsize, hof,
          fun r hr hsame => ?_, ?_⟩
        · exact List.find?_eq_none.mp habsent r hr (Row.named_iff.mpr hsame)
        · rw [husage]
          rfl
    completed := fun deviceId commandId c receipt db' hrun => by
      rcases completeCommand_cases hinv hrun with ⟨e, he, -⟩ | ⟨_, r, cut, hok, rfl, rfl, hof, hdone⟩
      · cases he
      · cases hok
        refine ⟨r, cut, _, _, hdone.cutoff, hinv.read hdone.mem, hof, hdone.sizes.1, hdone.sizes.2, ?_⟩
        have hbytes := hdone.replaces.bytes hinv.collect
        have hmem : r ∈ (db.collect r.deviceId cut).ofDevice r.deviceId :=
          List.mem_filter.mpr ⟨hdone.replaces.mem, decide_eq_true rfl⟩
        have hle : r.bytes ≤ ((db.collect r.deviceId cut).commandReceiptUsage r.deviceId).2 :=
          List.le_sum_of_mem (List.mem_map_of_mem hmem)
        omega
    kept := fun a r hr => (call_stepped hinv rfl).kept r hr
    raised := fun a e he => (call_stepped hinv rfl).raised e he }

/-! ## A receipt that is replaced -/

def firstOf (day : Nat) (h : 1 ≤ day ∧ day ≤ 31) : DateTime where
  year := 2026
  month := 7
  day := day
  hour := 12
  minute := 0
  second := 0
  microsecond := 0
  valid := by
    have hdays : daysInMonth 2026 7 = 31 := rfl
    omega

def answered (completedAt : DateTime) : Completion where
  replyType := text "ping.ok"
  replyPayloadJson := text "\x7b\x7d"
  sessionId := none
  turnId := none
  completedAt

/-- A command is taken up and completed. -/
def pingRun : List Action :=
  [.registerDevice (text "device-1"),
    .reserve (text "device-1") (text "command-2") (text "ping") (text "hash-2") (firstOf 1 (by decide)),
    .complete (text "device-1") (text "command-2") (answered (firstOf 1 (by decide)))]

def pinged : Database := (receiptMachine.run {} pingRun).getD {}

theorem pinged_reach : receiptMachine.Reachable pinged :=
  Machine.reach_getD rfl (fun _ _ _ => trivial) rfl

theorem receipts_hold_example : pinged.rows.length = 1 ∧ pinged.Holds :=
  ⟨by decide, receipts_hold pinged_reach⟩

/-- The same request nine days later: the receipt is collected first, and the command is taken up again. -/
theorem receipt_replaced : ∃ db r, receiptMachine.Reachable db ∧ db.rows = [r] ∧ r.status = .completed ∧
    ∃ receipt db', reserveCommand r.deviceId r.commandId r.commandType r.requestHash (firstOf 10 (by decide)) db =
      (.ok (receipt, true), db') ∧ receipt.status = .processing := by
  have hrows : pinged.rows = [Row.finish (answered (firstOf 1 (by decide)))
      (processingRow (text "device-1") (text "command-2") (text "ping") (text "hash-2") (firstOf 1 (by decide)))] := by
    decide
  refine ⟨pinged, _, pinged_reach, hrows, rfl, ?_⟩
  exact ⟨_, _, rfl, rfl⟩

end MonoAgent.Receipts
