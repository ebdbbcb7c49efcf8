import MonoAgent.Lib.Machine
import MonoAgent.Receipts.Changes

/-!
# One call

What a call that returns has done to the table, read off its body.
-/

namespace MonoAgent.Receipts

open MonoAgent.Lib

variable {db db' : Database} {r : Row} {deviceId commandId commandType requestHash : Text} {now : DateTime}

theorem transaction_cases {α : Type} {body : Except Failure (α × Database)} {out : Except Failure α}
    (h : transaction body db = (out, db')) :
    (∃ a, body = .ok (a, db') ∧ out = .ok a) ∨ ∃ e, out = .error e ∧ db' = db := by
  cases body with
  | ok a =>
      cases h
      exact Or.inl ⟨a.1, rfl, rfl⟩
  | error e =>
      cases h
      exact Or.inr ⟨e, rfl, rfl⟩

/-- What comes after a text that is required. -/
theorem requireText_bind {β : Type} {t field : Text} {f : Text → Except Failure β} {b : β}
    (h : requireText t field >>= f = .ok b) : t ≠ [] ∧ f t = .ok b := by
  unfold requireText at h
  split at h
  · cases h
  · next hne => exact ⟨hne, h⟩

theorem requireText_eq {t field : Text} (h : t ≠ []) : requireText t field = .ok t := if_neg h

theorem bindTexts_ok {ts : List Text} : bindTexts ts = .ok () ↔ ∀ t ∈ ts, Encodes t := ensure_eq_ok

theorem cleanup_ok {n : Nat} (h : db.cleanupExpiredCommandReceipts deviceId now = .ok (n, db')) :
    ∃ cut, Database.cutoff now = .ok cut ∧ db' = db.collect deviceId cut := by
  obtain ⟨cut, hcut, hrest⟩ := Except.bind_eq_ok.mp h
  obtain ⟨_, _, hok⟩ := Except.bind_eq_ok.mp hrest
  cases hok
  exact ⟨cut, hcut, rfl⟩

theorem cutoff_ok {cut : Text} (h : Database.cutoff now = .ok cut) :
    ∃ t : DateTime, cut = t.isoformat ∧ t.instant + commandReceiptRetentionDays * DateTime.dayLength = now.instant := by
  unfold Database.cutoff at h
  split at h
  · next t ht =>
      cases h
      exact ⟨t, rfl, DateTime.daysEarlier_instant ht⟩
  · cases h

theorem encodes_isoformat (t : DateTime) : Encodes t.isoformat := by
  refine List.any_eq_false.mpr fun c hc => ?_
  have hlt := DateTime.isoformat_ascii hc
  simp only [isSurrogate, decide_eq_true_iff]
  omega

theorem cleanup_eq {cut : Text} (hcut : Database.cutoff now = .ok cut) (hencodes : Encodes deviceId) :
    ∃ n, db.cleanupExpiredCommandReceipts deviceId now = .ok (n, db.collect deviceId cut) := by
  obtain ⟨t, rfl, -⟩ := cutoff_ok hcut
  rw [Database.cleanupExpiredCommandReceipts, hcut]
  show ∃ n, (bindTexts _ >>= _) = _
  rw [bindTexts_ok.mpr (List.forall_mem_cons.mpr ⟨hencodes, List.forall_mem_singleton.mpr (encodes_isoformat t)⟩)]
  exact ⟨_, rfl⟩

/-- A row that was completed more than the retention before, with nothing left to settle. -/
structure Row.Outdated (r : Row) (deviceId : Text) (now : DateTime) : Prop where
  device : r.deviceId = deviceId
  completed : r.status = .completed
  settled : r.handoffPending = false
  old : ∃ t : DateTime, r.completedAt = some t.isoformat ∧
    t.instant + commandReceiptRetentionDays * DateTime.dayLength < now.instant

/-- The texts are compared, and the times are what is meant. -/
theorem Row.Stored.expired_iff {cut : Text} (h : r.Stored) (hcut : Database.cutoff now = .ok cut) :
    r.expired deviceId cut = true ↔ r.Outdated deviceId now := by
  obtain ⟨t, rfl, ht⟩ := cutoff_ok hcut
  rw [Row.expired, decide_eq_true_iff]
  constructor
  · rintro ⟨hd, hs, hh, ho⟩
    obtain ⟨_, _, c, -, -, -, -, hc⟩ := h.completed hs
    rw [hc, Option.any_some, decide_eq_true_iff, DateTime.isoformat_lt_iff] at ho
    exact ⟨hd, hs, hh, c, hc, by omega⟩
  · rintro ⟨hd, hs, hh, c, hc, hold⟩
    rw [hc, Option.any_some, decide_eq_true_iff, DateTime.isoformat_lt_iff]
    exact ⟨hd, hs, hh, by omega⟩

/-! ## Reserving -/

/-- The row of a command that was taken up. -/
def processingRow (deviceId commandId commandType requestHash : Text) (now : DateTime) : Row :=
  { deviceId, commandId, commandType, requestHash
    status := .processing
    replyType := none
    replyPayloadJson := none
    handoffPending := false
    sessionId := none
    turnId := none
    createdAt := now.isoformat
    completedAt := none }

theorem encodes_of_columns (h : ∀ t ∈ r.columns.reduceOption, Encodes t) : Encodes r.deviceId ∧ Encodes r.commandId :=
  ⟨h _ (List.mem_cons_self ..), h _ (List.mem_cons_of_mem _ (List.mem_cons_self ..))⟩

theorem occupy_ok {out : CommandReceipt × Bool} (h : occupy deviceId commandId commandType requestHash now db = .ok (out, db'))
    (hne : deviceId ≠ [] ∧ commandId ≠ [] ∧ commandType ≠ [] ∧ requestHash ≠ []) :
    out.2 = true ∧ out.1.Of (processingRow deviceId commandId commandType requestHash now) ∧
      db.Occupies db' (processingRow deviceId commandId commandType requestHash now) ∧
      receiptRowBytes (processingRow deviceId commandId commandType requestHash now).columns =
        .ok (processingRow deviceId commandId commandType requestHash now).bytes := by
  obtain ⟨size, hsize, h⟩ := Except.bind_eq_ok.mp h
  obtain ⟨_, hroom, h⟩ := Except.bind_eq_ok.mp h
  obtain ⟨next, hinsert, h⟩ := Except.bind_eq_ok.mp h
  cases h
  obtain ⟨_, hbind, hinsert⟩ := Except.bind_eq_ok.mp hinsert
  obtain ⟨_, hkey, hinsert⟩ := Except.bind_eq_ok.mp hinsert
  cases hinsert
  have hbytes : size = (processingRow deviceId commandId commandType requestHash now).bytes := receiptRowBytes_ok hsize
  obtain ⟨hcount, hlimit⟩ := not_or.mp (ensure_eq_ok.mp hroom)
  obtain ⟨habsent, hknown⟩ := ensure_eq_ok.mp hkey
  have hencodes := encodes_of_columns (bindTexts_ok.mp hbind)
  rw [hbytes] at hlimit hsize
  have hstored : (processingRow deviceId commandId commandType requestHash now).Stored := {
    named := hne
    encodes := hencodes
    created := ⟨now, rfl⟩
    processing := fun _ => ⟨rfl, rfl, rfl, rfl, rfl, rfl⟩
    completed := fun hs => nomatch hs }
  refine ⟨rfl, ⟨⟨rfl, rfl, rfl, rfl⟩, ⟨rfl, rfl, rfl, rfl, rfl⟩, rfl, rfl⟩, ?_, hsize⟩
  exact {
    absent := habsent
    known := hknown
    stored := hstored
    count := not_le.mp hcount
    bytes := not_lt.mp hlimit
    next := rfl }

/-- A reserve that returns gives a stored receipt of the same request, or a new one. -/
theorem reserveCommand_ok {receipt : CommandReceipt} {created : Bool} (hinv : db.Inv)
    (h : reserveCommand deviceId commandId commandType requestHash now db = (.ok (receipt, created), db')) :
    ∃ cut, Database.cutoff now = .ok cut ∧
      ((created = false ∧ db' = db.collect deviceId cut ∧ ∃ r ∈ db'.rows, r.deviceId = deviceId ∧ r.commandId = commandId ∧
          r.commandType = commandType ∧ r.requestHash = requestHash ∧ receipt.Of r) ∨
        (created = true ∧ receipt.Of (processingRow deviceId commandId commandType requestHash now) ∧
          (db.collect deviceId cut).Occupies db' (processingRow deviceId commandId commandType requestHash now) ∧
          receiptRowBytes (processingRow deviceId commandId commandType requestHash now).columns =
            .ok (processingRow deviceId commandId commandType requestHash now).bytes)) := by
  rcases transaction_cases h with ⟨out, hbody, hout⟩ | ⟨e, he, -⟩
  · cases hout
    obtain ⟨hd, hbody⟩ := requireText_bind hbody
    obtain ⟨hc, hbody⟩ := requireText_bind hbody
    obtain ⟨ht, hbody⟩ := requireText_bind hbody
    obtain ⟨hh, hbody⟩ := requireText_bind hbody
    obtain ⟨_, _, hbody⟩ := Except.bind_eq_ok.mp hbody
    obtain ⟨⟨n, cleaned⟩, hclean, hbody⟩ := Except.bind_eq_ok.mp hbody
    obtain ⟨_, _, hbody⟩ := Except.bind_eq_ok.mp hbody
    obtain ⟨cut, hcut, rfl⟩ := cleanup_ok hclean
    refine ⟨cut, hcut, ?_⟩
    cases hread : (db.collect deviceId cut).read deviceId commandId with
    | none =>
        simp only [hread] at hbody
        obtain ⟨hnew, hrest⟩ := occupy_ok hbody ⟨hd, hc, ht, hh⟩
        exact Or.inr ⟨hnew, hrest⟩
    | some r =>
        simp only [hread] at hbody
        obtain ⟨hmem, hrd, hrc⟩ := Database.mem_of_read hread
        obtain ⟨receipt', hrow, hbody⟩ := Except.bind_eq_ok.mp hbody
        obtain ⟨_, hsame, hbody⟩ := Except.bind_eq_ok.mp hbody
        cases hbody
        obtain ⟨receipt'', hrow', hof⟩ := commandReceiptFromRow_stored (hinv.collect.stored r hmem).1
        cases hrow.symm.trans hrow'
        obtain ⟨htype, hhash⟩ := ensure_eq_ok.mp hsame
        exact Or.inl ⟨rfl, rfl, r, hmem, hrd, hrc, hof.request.2.2.1.symm.trans htype,
          hof.request.2.2.2.symm.trans hhash, hof⟩
  · cases he

/-- A command that has a receipt, which the reserve does not collect, gives that receipt or raises. -/
theorem reserveCommand_stored {cut : Text} (hinv : db.Inv) (hr : r ∈ db.rows) (hcut : Database.cutoff now = .ok cut)
    (hlive : r.expired r.deviceId cut = false) :
    (r.commandType = commandType ∧ r.requestHash = requestHash → ∃ receipt : CommandReceipt, receipt.Of r ∧
      reserveCommand r.deviceId r.commandId commandType requestHash now db =
        (.ok (receipt, false), db.collect r.deviceId cut)) ∧
    (¬ (r.commandType = commandType ∧ r.requestHash = requestHash) →
      ∃ e, reserveCommand r.deviceId r.commandId commandType requestHash now db = (.error e, db)) := by
  obtain ⟨hstored, hknown⟩ := hinv.stored r hr
  obtain ⟨receipt, hrow, hof⟩ := commandReceiptFromRow_stored hstored
  obtain ⟨hd, hc, ht, hh⟩ := hstored.named
  have hmem : r ∈ (db.collect r.deviceId cut).rows := Database.mem_collect.mpr ⟨hr, hlive⟩
  have hread := hinv.collect.read hmem
  constructor
  · rintro ⟨rfl, rfl⟩
    refine ⟨receipt, hof, ?_⟩
    have hdevice : db.readDeviceRow r.deviceId = .ok () := by
      rw [Database.readDeviceRow, bindTexts_ok.mpr (List.forall_mem_singleton.mpr hstored.encodes.1)]
      exact ensure_eq_ok.mpr hknown
    obtain ⟨n, hclean⟩ := cleanup_eq hcut hstored.encodes.1
    have hbind : bindTexts [r.deviceId, r.commandId] = .ok () :=
      bindTexts_ok.mpr (List.forall_mem_cons.mpr ⟨hstored.encodes.1, List.forall_mem_singleton.mpr hstored.encodes.2⟩)
    have hreuse : reuse r r.deviceId r.commandId r.commandType r.requestHash (db.collect r.deviceId cut) =
        .ok ((receipt, false), db.collect r.deviceId cut) := by
      rw [reuse, hrow]
      show (ensure _ _ >>= _) = _
      rw [ensure_eq_ok.mpr ⟨hof.request.2.2.1, hof.request.2.2.2⟩]
      rfl
    have hbody : reserveBody r.deviceId r.commandId r.commandType r.requestHash now db =
        .ok ((receipt, false), db.collect r.deviceId cut) := by
      rw [reserveBody, hdevice, hclean]
      show (bindTexts _ >>= _) = _
      rw [hbind]
      dsimp only [bind, Except.bind]
      rw [hread]
      exact hreuse
    rw [reserveCommand, requireText_eq hd, requireText_eq hc, requireText_eq ht, requireText_eq hh]
    show transaction (reserveBody r.deviceId r.commandId r.commandType r.requestHash now db) db = _
    rw [hbody]
    rfl
  · intro hno
    cases hrun : reserveCommand r.deviceId r.commandId commandType requestHash now db with
    | mk out db' =>
        cases out with
        | error e =>
            rcases transaction_cases hrun with ⟨_, -, hout⟩ | ⟨e', he', hsame⟩
            · cases hout
            · exact ⟨e, by rw [hsame]⟩
        | ok out =>
            obtain ⟨cut', hcut', hcases⟩ := reserveCommand_ok hinv hrun
            cases hcut.symm.trans hcut'
            rcases hcases with ⟨-, rfl, s, hs, hsd, hsc, hst, hsh, -⟩ | ⟨-, -, hocc, -⟩
            · cases hinv.eq_of_key (Database.mem_collect.mp hs).1 hr hsd hsc
              exact absurd ⟨hst, hsh⟩ hno
            · have habsent : (db.collect r.deviceId cut).read r.deviceId r.commandId = none := hocc.absent
              rw [habsent] at hread
              cases hread

/-! ## Completing -/

/-- The row that a completion leaves. -/
def Row.finish (c : Completion) (r : Row) : Row :=
  if c.replyType = messageSendError then { r.complete c with handoffPending := true } else r.complete c

theorem Row.finish_columns (c : Completion) (r : Row) : (r.finish c).columns = (r.complete c).columns := by
  unfold Row.finish
  split <;> rfl

theorem Row.finish_key (c : Completion) (r : Row) : (r.finish c).key = r.key := by
  unfold Row.finish
  split <;> rfl

theorem Row.Stored.finish {c : Completion} (h : r.Stored) (hreply : c.replyType ≠ []) (hpayload : c.replyPayloadJson ≠ []) :
    (r.finish c).Stored := by
  have hdone : (r.complete c).Stored := {
    named := h.named
    encodes := h.encodes
    created := h.created
    processing := fun hs => nomatch hs
    completed := fun _ => ⟨c.replyType, c.replyPayloadJson, c.completedAt, rfl, hreply, rfl, hpayload, rfl⟩ }
  unfold Row.finish
  split
  · exact {
      named := hdone.named
      encodes := hdone.encodes
      created := hdone.created
      processing := fun hs => nomatch hs
      completed := hdone.completed }
  · exact hdone

/-- The two updates of a completion, on the one row they match. -/
theorem complete_rows {c : Completion} (hone : ∀ x ∈ db.rows, x.named deviceId commandId = true → x = r)
    (hprocessing : r.status = .processing) :
    (db.rows.map fun x => if decide (x.named deviceId commandId ∧ x.status = .processing) then x.complete c else x) =
      db.rows.map fun x => if x.named deviceId commandId then x.complete c else x := by
  refine List.map_congr_left fun x hx => ?_
  by_cases hn : x.named deviceId commandId = true
  · have hs : x.status = .processing := by rw [hone x hx hn, hprocessing]
    rw [if_pos (decide_eq_true ⟨hn, hs⟩), if_pos hn]
  · rw [if_neg (fun hd => hn (of_decide_eq_true hd).1), if_neg hn]

theorem pend_rows {c : Completion} (hsend : c.replyType = messageSendError) :
    ((db.rows.map fun x => if x.named deviceId commandId then x.complete c else x).map fun x =>
        if x.named deviceId commandId then { x with handoffPending := true } else x) =
      db.rows.map fun x => if x.named deviceId commandId then x.finish c else x := by
  rw [List.map_map]
  refine List.map_congr_left fun x _ => ?_
  have hnamed : (x.complete c).named deviceId commandId = x.named deviceId commandId := rfl
  cases hn : x.named deviceId commandId <;> simp [hn, hnamed, Row.finish, hsend]

/-- What a completion that commits does: it collects, and completes the one row. -/
structure Database.Completes (db db' : Database) (cut : Text) (c : Completion) (r : Row) : Prop where
  mem : r ∈ db.rows
  processing : r.status = .processing
  cutoff : Database.cutoff c.completedAt = .ok cut
  answer : c.replyType ≠ [] ∧ c.replyPayloadJson ≠ []
  replaces : (db.collect r.deviceId cut).Replaces db' (Row.named r.deviceId r.commandId) (Row.finish c) r
  /-- The sizes computed from the receipt are those of the rows. -/
  sizes : receiptRowBytes r.columns = .ok r.bytes ∧ receiptRowBytes (r.finish c).columns = .ok (r.finish c).bytes
  room : ((db.collect r.deviceId cut).commandReceiptUsage r.deviceId).2 - r.bytes + (r.finish c).bytes ≤
    commandReceiptMaxBytes

theorem receiptRowBytes_eq {values : List (Option Text)} {n : Nat} (h : receiptRowBytes values = .ok n) :
    receiptRowBytes values = .ok (values.map fun column => (column.map blobLength).getD 0).sum := by
  rw [h, receiptRowBytes_ok h]

theorem completeBody_ok {c : Completion} {row : Option Row} (hinv : db.Inv) (hreply : c.replyType ≠ [])
    (hpayload : c.replyPayloadJson ≠ []) (h : completeBody deviceId commandId c db = .ok (row, db')) :
    ∃ r cut, r.deviceId = deviceId ∧ r.commandId = commandId ∧ row = some (r.finish c) ∧ db.Completes db' cut c r := by
  obtain ⟨_, _, h⟩ := Except.bind_eq_ok.mp h
  cases hread : db.read deviceId commandId with
  | none =>
      simp only [hread] at h
      cases h
  | some r =>
      simp only [hread] at h
      obtain ⟨hmem, rfl, rfl⟩ := Database.mem_of_read hread
      obtain ⟨current, hcurrent, h⟩ := Except.bind_eq_ok.mp h
      obtain ⟨receipt, hreceipt, hof⟩ := commandReceiptFromRow_stored (hinv.stored r hmem).1
      cases hcurrent.symm.trans hreceipt
      obtain ⟨_, hprocessing, h⟩ := Except.bind_eq_ok.mp h
      have hstatus : r.status = .processing := hof.reply.1.symm.trans (ensure_eq_ok.mp hprocessing)
      obtain ⟨⟨n, cleaned⟩, hclean, h⟩ := Except.bind_eq_ok.mp h
      obtain ⟨cut, hcut, rfl⟩ := cleanup_ok hclean
      obtain ⟨currentSize, hcurrentSize, h⟩ := Except.bind_eq_ok.mp h
      obtain ⟨projectedSize, hprojected, h⟩ := Except.bind_eq_ok.mp h
      obtain ⟨_, hroom, h⟩ := Except.bind_eq_ok.mp h
      obtain ⟨_, _, h⟩ := Except.bind_eq_ok.mp h
      obtain ⟨updated, hupdate, h⟩ := Except.bind_eq_ok.mp h
      obtain ⟨_, _, hupdate⟩ := Except.bind_eq_ok.mp hupdate
      cases hupdate
      have hlive : r.expired r.deviceId cut = false := by
        rw [Row.expired, decide_eq_false_iff_not]
        exact fun hno => nomatch hstatus.symm.trans hno.2.1
      have hkept : r ∈ (db.collect r.deviceId cut).rows := Database.mem_collect.mpr ⟨hmem, hlive⟩
      have hone : ∀ x ∈ (db.collect r.deviceId cut).rows, x.named r.deviceId r.commandId = true → x = r := fun x hx hn =>
        hinv.collect.one _ _ x hx r hkept hn Row.named_self
      have hnext : db' = { db.collect r.deviceId cut with
          rows := (db.collect r.deviceId cut).rows.map fun x => if x.named r.deviceId r.commandId then x.finish c else x } := by
        rw [complete_rows hone hstatus] at h
        split at h
        · next hsend =>
            cases h
            rw [pend_rows hsend]
        · next hsend =>
            cases h
            simp only [Row.finish, if_neg hsend]
      have hreplaces : (db.collect r.deviceId cut).Replaces db' (Row.named r.deviceId r.commandId) (Row.finish c) r := {
        mem := hkept
        one := fun x hx => ⟨hone x hx, fun heq => heq ▸ Row.named_self⟩
        key := Row.finish_key c r
        next := hnext }
      have hrow : row = db'.read r.deviceId r.commandId := by
        cases h
        rfl
      have hcompletedAt := (hinv.stored r hmem).1.processing hstatus
      have hbefore : r.columns = [some current.deviceId, some current.commandId, some current.commandType,
          some current.requestHash, some current.status.text, current.replyType, current.replyPayloadJson,
          current.sessionId, current.turnId, some current.createdAt.isoformat, none] := by
        rw [Row.columns, hcompletedAt.2.2.2.2.1, hof.times.1, hof.request.1, hof.request.2.1, hof.request.2.2.1,
          hof.request.2.2.2, hof.reply.1, hof.reply.2.1, hof.reply.2.2.1, hof.reply.2.2.2.1, hof.reply.2.2.2.2]
      have hafter : (r.finish c).columns = [some current.deviceId, some current.commandId, some current.commandType,
          some current.requestHash, some (text "completed"), some c.replyType, some c.replyPayloadJson, c.sessionId,
          c.turnId, some current.createdAt.isoformat, some c.completedAt.isoformat] := by
        rw [Row.finish_columns, ← hof.times.1, hof.request.1, hof.request.2.1, hof.request.2.2.1, hof.request.2.2.2]
        rfl
      rw [← hbefore] at hcurrentSize
      rw [← hafter] at hprojected
      have hroom' := ensure_eq_ok.mp hroom
      rw [receiptRowBytes_ok hcurrentSize, receiptRowBytes_ok hprojected] at hroom'
      refine ⟨r, cut, rfl, rfl, ?_, {
        mem := hmem
        processing := hstatus
        cutoff := hcut
        answer := ⟨hreply, hpayload⟩
        replaces := hreplaces
        sizes := ⟨receiptRowBytes_eq hcurrentSize, receiptRowBytes_eq hprojected⟩
        room := hroom' }⟩
      rw [hrow]
      exact hreplaces.read hinv.collect.keys

theorem Database.Completes.inv {cut : Text} {c : Completion} (hinv : db.Inv) (h : db.Completes db' cut c r) : db'.Inv := by
  refine h.replaces.inv hinv.collect ((hinv.stored r h.mem).1.finish h.answer.1 h.answer.2) ?_
  have hbytes := h.replaces.bytes hinv.collect
  have hroom := h.room
  omega

/-- A completion that returns gives the completed row, and one that raises changes nothing: the parse after the
commit cannot fail. -/
theorem completeCommand_cases {c : Completion} {out : Except Failure CommandReceipt} (hinv : db.Inv)
    (h : completeCommand deviceId commandId c db = (out, db')) :
    (∃ e, out = .error e ∧ db' = db) ∨ ∃ receipt r cut, out = .ok receipt ∧ r.deviceId = deviceId ∧
      r.commandId = commandId ∧ receipt.Of (r.finish c) ∧ db.Completes db' cut c r := by
  unfold completeCommand at h
  generalize hbody : transaction _ db = p at h
  obtain ⟨body, next⟩ := p
  cases h
  rcases transaction_cases hbody with ⟨row, hok, rfl⟩ | ⟨e, rfl, rfl⟩
  · obtain ⟨_, hok⟩ := requireText_bind hok
    obtain ⟨_, hok⟩ := requireText_bind hok
    obtain ⟨hreply, hok⟩ := requireText_bind hok
    obtain ⟨hpayload, hok⟩ := requireText_bind hok
    obtain ⟨r, cut, hd, hc, rfl, hcompletes⟩ := completeBody_ok hinv hreply hpayload hok
    obtain ⟨receipt, hrow, hof⟩ := commandReceiptFromRow_stored
      ((hinv.stored r hcompletes.mem).1.finish (c := c) hreply hpayload)
    exact Or.inr ⟨receipt, r, cut, hrow, hd, hc, hof, hcompletes⟩
  · exact Or.inl ⟨e, rfl, rfl⟩

/-! ## Settling -/

theorem handoff_cases {out : Except Failure Unit} (hinv : db.Inv)
    (h : completeRejectedMessageHandoff deviceId commandId db = (out, db')) :
    (∃ e, out = .error e ∧ db' = db) ∨ out = .ok () ∧ ∃ r, r.status = .completed ∧
      db.Replaces db' (fun x => x.named deviceId commandId ∧ x.status = .completed ∧ x.replyType = some messageSendError)
        (fun x => { x with handoffPending := false }) r := by
  rcases transaction_cases h with ⟨_, hbody, rfl⟩ | ⟨e, rfl, rfl⟩
  · obtain ⟨_, _, hbody⟩ := Except.bind_eq_ok.mp hbody
    obtain ⟨next, hupdate, hbody⟩ := Except.bind_eq_ok.mp hbody
    cases hbody
    obtain ⟨_, hone, hupdate⟩ := Except.bind_eq_ok.mp hupdate
    cases hupdate
    obtain ⟨r, hr⟩ := List.length_eq_one_iff.mp (ensure_eq_ok.mp hone)
    obtain ⟨hmem, hp⟩ := List.mem_filter.mp (hr ▸ List.mem_singleton_self r)
    have hmatch := of_decide_eq_true hp
    refine Or.inr ⟨rfl, r, hmatch.2.1, {
      mem := hmem
      one := fun x hx => ⟨fun hpx => ?_, fun heq => heq ▸ hp⟩
      key := rfl
      next := rfl }⟩
    exact hinv.one _ _ x hx r hmem (of_decide_eq_true hpx).1 hmatch.1
  · exact Or.inl ⟨e, rfl, rfl⟩

theorem cleanupCommandReceipts_cases {out : Except Failure Nat} (h : cleanupCommandReceipts deviceId now db = (out, db')) :
    (∃ e, out = .error e ∧ db' = db) ∨ ∃ n cut, out = .ok n ∧ Database.cutoff now = .ok cut ∧ db' = db.collect deviceId cut := by
  rcases transaction_cases h with ⟨n, hbody, rfl⟩ | ⟨e, rfl, rfl⟩
  · obtain ⟨_, hbody⟩ := requireText_bind hbody
    obtain ⟨_, _, hbody⟩ := Except.bind_eq_ok.mp hbody
    obtain ⟨cut, hcut, rfl⟩ := cleanup_ok hbody
    exact Or.inr ⟨n, cut, rfl, hcut, rfl⟩
  · exact Or.inl ⟨e, rfl, rfl⟩

end MonoAgent.Receipts
