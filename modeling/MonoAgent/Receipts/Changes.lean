import Mathlib
import MonoAgent.Receipts.Table

/-!
# What the calls change

The rows a reachable table holds, and for each call the one thing it does to them: take what
has expired, append a row within the limits, complete one row, settle one handoff.
-/

namespace MonoAgent.Receipts

open MonoAgent.Lib

variable {db db' : Database} {r : Row} {deviceId commandId : Text}

/-! ## Lists with one row of a kind -/

section One

variable {α : Type} {p : α → Bool} {l : List α} {x : α}

/-- No two elements are of the kind. -/
def AtMostOne (p : α → Bool) (l : List α) : Prop := ∀ x ∈ l, ∀ y ∈ l, p x = true → p y = true → x = y

theorem find_of_mem (h : AtMostOne p l) (hx : x ∈ l) (hp : p x = true) : l.find? p = some x := by
  cases hf : l.find? p with
  | none => exact absurd hp (List.find?_eq_none.mp hf x hx)
  | some y => rw [h y (List.mem_of_find?_eq_some hf) x hx (List.find?_some hf) hp]

theorem sum_replace {f : α → α} {g : α → Nat} (hnd : (l.filter p).length ≤ 1) (hx : x ∈ l) (hp : p x = true) :
    ((l.map fun y => if p y then f y else y).map g).sum + g x = (l.map g).sum + g (f x) := by
  induction l with
  | nil => cases hx
  | cons y l ih =>
      simp only [List.map_cons, List.sum_cons]
      by_cases hy : p y = true
      · rw [List.filter_cons_of_pos hy, List.length_cons] at hnd
        have hnone : l.filter p = [] := List.length_eq_zero_iff.mp (by omega)
        have hrest : ∀ z ∈ l, ¬ p z = true := List.filter_eq_nil_iff.mp hnone
        have hyx : y = x := by
          rcases List.mem_cons.mp hx with rfl | hmem
          · rfl
          · exact absurd hp (hrest x hmem)
        have hmap : (l.map fun z => if p z then f z else z) = l := by
          conv_rhs => rw [← List.map_id l]
          exact List.map_congr_left fun z hz => if_neg (hrest z hz)
        rw [hmap, if_pos hy, hyx]
        omega
      · rw [List.filter_cons_of_neg hy] at hnd
        have hmem : x ∈ l := by
          rcases List.mem_cons.mp hx with rfl | hmem
          · exact absurd hp hy
          · exact hmem
        have hrest := ih hnd hmem
        rw [if_neg hy]
        omega

theorem atMostOne_length (hnd : l.Nodup) (h : AtMostOne p l) : (l.filter p).length ≤ 1 := by
  match hf : l.filter p with
  | [] => exact Nat.zero_le _
  | [_] => exact le_rfl
  | x :: y :: rest =>
      have hx : x ∈ l.filter p := by rw [hf]; simp
      have hy : y ∈ l.filter p := by rw [hf]; simp
      have hxy := h x (List.mem_of_mem_filter hx) y (List.mem_of_mem_filter hy) (List.mem_filter.mp hx).2
        (List.mem_filter.mp hy).2
      have hnodup := hnd.filter p
      rw [hf] at hnodup
      exact absurd (hxy ▸ List.mem_cons_self ..) (List.nodup_cons.mp hnodup).1

end One

/-! ## Sizes -/

theorem mapM_encodedLength {ts : List Text} {ns : List Nat} (h : ts.mapM encodedLength = .ok ns) :
    ns = ts.map blobLength ∧ ∀ t ∈ ts, Encodes t := by
  induction ts generalizing ns with
  | nil =>
      cases h
      exact ⟨rfl, fun _ ht => absurd ht List.not_mem_nil⟩
  | cons t ts ih =>
      rw [List.mapM_cons] at h
      obtain ⟨n, hn, hrest⟩ := Except.bind_eq_ok.mp h
      obtain ⟨ms, hms, hcons⟩ := Except.bind_eq_ok.mp hrest
      cases hcons
      obtain ⟨rfl, hall⟩ := ih hms
      unfold encodedLength at hn
      split at hn
      · next ht =>
          cases hn
          exact ⟨rfl, List.forall_mem_cons.mpr ⟨ht, hall⟩⟩
      · cases hn

/-- The projected size of a row is what the query counts. -/
theorem receiptRowBytes_ok {values : List (Option Text)} {n : Nat} (h : receiptRowBytes values = .ok n) :
    n = (values.map fun column => (column.map blobLength).getD 0).sum := by
  obtain ⟨ns, hns, rfl⟩ := Except.map_eq_ok.mp h
  rw [(mapM_encodedLength hns).1]
  clear h hns
  induction values with
  | nil => rfl
  | cons v values ih =>
      cases v with
      | none =>
          rw [List.reduceOption_cons_of_none, ih, List.map_cons, List.sum_cons]
          exact (Nat.zero_add _).symm
      | some t =>
          rw [List.reduceOption_cons_of_some, List.map_cons, List.sum_cons, ih, List.map_cons, List.sum_cons]
          rfl

/-! ## Rows that are stored -/

/-- A row as the calls write it. -/
structure Row.Stored (r : Row) : Prop where
  named : r.deviceId ≠ [] ∧ r.commandId ≠ [] ∧ r.commandType ≠ [] ∧ r.requestHash ≠ []
  encodes : Encodes r.deviceId ∧ Encodes r.commandId
  created : ∃ t : DateTime, r.createdAt = t.isoformat
  processing : r.status = .processing → r.replyType = none ∧ r.replyPayloadJson = none ∧ r.sessionId = none ∧
    r.turnId = none ∧ r.completedAt = none ∧ r.handoffPending = false
  completed : r.status = .completed → ∃ reply payload, ∃ t : DateTime, r.replyType = some reply ∧ reply ≠ [] ∧
    r.replyPayloadJson = some payload ∧ payload ≠ [] ∧ r.completedAt = some t.isoformat

/-- The receipt says what is in the row. -/
structure CommandReceipt.Of (receipt : CommandReceipt) (r : Row) : Prop where
  request : receipt.deviceId = r.deviceId ∧ receipt.commandId = r.commandId ∧ receipt.commandType = r.commandType ∧
    receipt.requestHash = r.requestHash
  reply : receipt.status = r.status ∧ receipt.replyType = r.replyType ∧ receipt.replyPayloadJson = r.replyPayloadJson ∧
    receipt.sessionId = r.sessionId ∧ receipt.turnId = r.turnId
  times : r.createdAt = receipt.createdAt.isoformat ∧ r.completedAt = receipt.completedAt.map DateTime.isoformat

theorem isoformat_ne_nil (t : DateTime) : t.isoformat ≠ [] := by
  intro h
  have hlen := congrArg List.length h
  simp [DateTime.isoformat, pad_length] at hlen

theorem parseDatetime_isoformat (t : DateTime) : parseDatetime t.isoformat = .ok t := by
  rw [parseDatetime, DateTime.fromisoformat_isoformat]

theorem rowText_ok {t field : Text} (h : t ≠ []) : rowText t field = .ok t := if_neg h

theorem commandReceiptFromRow_stored (h : r.Stored) : ∃ receipt, commandReceiptFromRow r = .ok receipt ∧ receipt.Of r := by
  obtain ⟨hdevice, hcommand, htype, hhash⟩ := h.named
  obtain ⟨created, hcreated⟩ := h.created
  have hreply : ¬ (r.status = .processing ∧ (r.replyType ≠ none ∨ r.replyPayloadJson ≠ none)) := by
    rintro ⟨hs, hno⟩
    obtain ⟨hr, hp, -⟩ := h.processing hs
    exact hno.elim (· hr) (· hp)
  have hanswer : ¬ (r.status = .completed ∧ (r.replyType.getD [] = [] ∨ r.replyPayloadJson.getD [] = [])) := by
    rintro ⟨hs, hno⟩
    obtain ⟨reply, payload, t, hr, hne, hp, hne', -⟩ := h.completed hs
    rw [hr, hp] at hno
    exact hno.elim hne hne'
  obtain ⟨completed, hcompleted⟩ : ∃ completed : Option DateTime, r.completedAt = completed.map DateTime.isoformat := by
    cases hs : r.status with
    | processing => exact ⟨none, (h.processing hs).2.2.2.2.1⟩
    | completed =>
        obtain ⟨_, _, t, -, -, -, -, ht⟩ := h.completed hs
        exact ⟨some t, ht⟩
  have hoptional : optionalRowDatetime r.completedAt = .ok completed := by
    rw [hcompleted]
    cases completed with
    | none => rfl
    | some t =>
        rw [Option.map_some, optionalRowDatetime, rowText_ok (isoformat_ne_nil t)]
        show (parseDatetime t.isoformat).map some = _
        rw [parseDatetime_isoformat]
        rfl
  refine ⟨{
    deviceId := r.deviceId
    commandId := r.commandId
    commandType := r.commandType
    requestHash := r.requestHash
    status := r.status
    replyType := r.replyType
    replyPayloadJson := r.replyPayloadJson
    sessionId := r.sessionId
    turnId := r.turnId
    createdAt := created
    completedAt := completed }, ?_, ⟨rfl, rfl, rfl, rfl⟩, ⟨rfl, rfl, rfl, rfl, rfl⟩, hcreated, hcompleted⟩
  have hcreated' : rowText r.createdAt (text "created_at") = .ok created.isoformat := by
    rw [hcreated, rowText_ok (isoformat_ne_nil created)]
  rw [commandReceiptFromRow, ensure_eq_ok.mpr hreply, ensure_eq_ok.mpr hanswer, rowText_ok hdevice, rowText_ok hcommand,
    rowText_ok htype, rowText_ok hhash, hcreated', hoptional]
  show (parseDatetime created.isoformat).bind _ = _
  rw [parseDatetime_isoformat]
  rfl

/-! ## The invariant -/

def Row.key (r : Row) : Text × Text := (r.deviceId, r.commandId)

structure Database.Inv (db : Database) : Prop where
  /-- One receipt per device and command. -/
  keys : (db.rows.map Row.key).Nodup
  stored : ∀ r ∈ db.rows, r.Stored ∧ r.deviceId ∈ db.devices
  count : ∀ d, (db.commandReceiptUsage d).1 ≤ commandReceiptMaxCount
  bytes : ∀ d, (db.commandReceiptUsage d).2 ≤ commandReceiptMaxBytes

theorem Row.named_iff {d c : Text} : r.named d c = true ↔ r.deviceId = d ∧ r.commandId = c := decide_eq_true_iff

theorem Row.named_self : r.named r.deviceId r.commandId = true := Row.named_iff.mpr ⟨rfl, rfl⟩

theorem Database.mem_of_read (h : db.read deviceId commandId = some r) :
    r ∈ db.rows ∧ r.deviceId = deviceId ∧ r.commandId = commandId := by
  have hnamed : r.named deviceId commandId = true := List.find?_some h
  exact ⟨List.mem_of_find?_eq_some h, Row.named_iff.mp hnamed⟩

theorem Database.Inv.eq_of_key {x y : Row} (h : db.Inv) (hx : x ∈ db.rows) (hy : y ∈ db.rows)
    (hd : x.deviceId = y.deviceId) (hc : x.commandId = y.commandId) : x = y :=
  List.inj_on_of_nodup_map h.keys hx hy (Prod.ext hd hc)

theorem Database.Inv.one (h : db.Inv) (d c : Text) : AtMostOne (Row.named d c) db.rows := by
  intro x hx y hy hpx hpy
  obtain ⟨hxd, hxc⟩ := Row.named_iff.mp hpx
  obtain ⟨hyd, hyc⟩ := Row.named_iff.mp hpy
  exact h.eq_of_key hx hy (hxd.trans hyd.symm) (hxc.trans hyc.symm)

theorem Database.Inv.read (h : db.Inv) (hr : r ∈ db.rows) : db.read r.deviceId r.commandId = some r :=
  find_of_mem (h.one _ _) hr Row.named_self

/-! ## Rows that go -/

/-- The rows a collection leaves. -/
def Database.collect (db : Database) (deviceId cutoff : Text) : Database :=
  { db with rows := db.rows.filter fun r => ¬ r.expired deviceId cutoff }

theorem Database.mem_collect {cutoff : Text} :
    r ∈ (db.collect deviceId cutoff).rows ↔ r ∈ db.rows ∧ r.expired deviceId cutoff = false := by
  simp [Database.collect, List.mem_filter]

theorem Database.Inv.collect {cutoff : Text} (h : db.Inv) : (db.collect deviceId cutoff).Inv where
  keys := h.keys.sublist (List.filter_sublist.map _)
  stored x hx := h.stored x (List.mem_of_mem_filter hx)
  count d := (List.filter_sublist.filter _).length_le.trans (h.count d)
  bytes d := (((List.filter_sublist.filter _).map _).sum_le_sum fun _ _ => Nat.zero_le _).trans (h.bytes d)

/-! ## A row that comes -/

/-- A new row, within the limits of its device. -/
structure Database.Occupies (db db' : Database) (r : Row) : Prop where
  absent : db.read r.deviceId r.commandId = none
  known : r.deviceId ∈ db.devices
  stored : r.Stored
  count : (db.commandReceiptUsage r.deviceId).1 < commandReceiptMaxCount
  bytes : (db.commandReceiptUsage r.deviceId).2 + r.bytes ≤ commandReceiptMaxBytes
  next : db' = { db with rows := db.rows ++ [r] }

theorem Database.Occupies.usage (h : db.Occupies db' r) : db'.commandReceiptUsage r.deviceId =
    ((db.commandReceiptUsage r.deviceId).1 + 1, (db.commandReceiptUsage r.deviceId).2 + r.bytes) := by
  rw [h.next]
  simp [Database.commandReceiptUsage, Database.ofDevice, List.filter_append]

theorem Database.Occupies.other (h : db.Occupies db' r) {d : Text} (hd : d ≠ r.deviceId) :
    db'.commandReceiptUsage d = db.commandReceiptUsage d := by
  rw [h.next]
  simp [Database.commandReceiptUsage, Database.ofDevice, List.filter_append, hd.symm]

theorem Database.Inv.occupies (h : db.Inv) (ho : db.Occupies db' r) : db'.Inv where
  keys := by
    rw [ho.next, List.map_append, List.nodup_append]
    refine ⟨h.keys, List.nodup_singleton _, fun k hk k' hk' heq => ?_⟩
    obtain ⟨x, hx, rfl⟩ := List.mem_map.mp hk
    have hnot := List.find?_eq_none.mp ho.absent x hx
    have hkey : x.key = r.key := heq.trans (List.mem_singleton.mp hk')
    exact hnot (Row.named_iff.mpr ⟨congrArg Prod.fst hkey, congrArg Prod.snd hkey⟩)
  stored := by
    rw [ho.next]
    intro x hx
    rcases List.mem_append.mp hx with hx | hx
    · exact h.stored x hx
    · cases List.mem_singleton.mp hx
      exact ⟨ho.stored, ho.known⟩
  count d := by
    by_cases hd : d = r.deviceId
    · rw [hd, ho.usage]
      exact ho.count
    · rw [ho.other hd]
      exact h.count d
  bytes d := by
    by_cases hd : d = r.deviceId
    · rw [hd, ho.usage]
      exact ho.bytes
    · rw [ho.other hd]
      exact h.bytes d

/-! ## A row that changes -/

/-- One row is replaced by another of the same command. -/
structure Database.Replaces (db db' : Database) (p : Row → Bool) (f : Row → Row) (r : Row) : Prop where
  mem : r ∈ db.rows
  one : ∀ x ∈ db.rows, p x = true ↔ x = r
  key : (f r).key = r.key
  next : db' = { db with rows := db.rows.map fun x => if p x then f x else x }

namespace Database.Replaces

variable {p : Row → Bool} {f : Row → Row} {d : Text}

theorem rows (h : db.Replaces db' p f r) : db'.rows = db.rows.map fun x => if x = r then f r else x := by
  rw [h.next]
  refine List.map_congr_left fun x hx => ?_
  by_cases hp : p x = true
  · rw [if_pos hp, if_pos ((h.one x hx).mp hp), (h.one x hx).mp hp]
  · rw [if_neg hp, if_neg (mt (h.one x hx).mpr hp)]

/-- The replaced row and every other row. -/
theorem mem_rows (h : db.Replaces db' p f r) {x : Row} : x ∈ db'.rows ↔ x = f r ∨ x ∈ db.rows ∧ x ≠ r := by
  rw [h.rows, List.mem_map]
  constructor
  · rintro ⟨y, hy, rfl⟩
    by_cases hyr : y = r
    · exact Or.inl (if_pos hyr)
    · rw [if_neg hyr]
      exact Or.inr ⟨hy, hyr⟩
  · rintro (rfl | ⟨hx, hne⟩)
    · exact ⟨r, h.mem, if_pos rfl⟩
    · exact ⟨x, hx, if_neg hne⟩

theorem keys (h : db.Replaces db' p f r) : db'.rows.map Row.key = db.rows.map Row.key := by
  rw [h.rows, List.map_map]
  refine List.map_congr_left fun x _ => ?_
  show Row.key (if x = r then f r else x) = x.key
  by_cases hx : x = r
  · rw [if_pos hx, hx, h.key]
  · rw [if_neg hx]

/-- The replaced row is the one that is read. -/
theorem read (h : db.Replaces db' p f r) (hkeys : (db.rows.map Row.key).Nodup) :
    db'.read r.deviceId r.commandId = some (f r) := by
  have hnodup : (db'.rows.map Row.key).Nodup := by
    rw [h.keys]
    exact hkeys
  have hnamed : (f r).named r.deviceId r.commandId = true :=
    Row.named_iff.mpr ⟨congrArg Prod.fst h.key, congrArg Prod.snd h.key⟩
  refine find_of_mem (fun x hx y hy hpx hpy => ?_) (h.mem_rows.mpr (Or.inl rfl)) hnamed
  obtain ⟨hxd, hxc⟩ := Row.named_iff.mp hpx
  obtain ⟨hyd, hyc⟩ := Row.named_iff.mp hpy
  exact List.inj_on_of_nodup_map hnodup hx hy (Prod.ext (hxd.trans hyd.symm) (hxc.trans hyc.symm))

theorem ofDevice (h : db.Replaces db' p f r) :
    db'.ofDevice d = (db.ofDevice d).map fun x => if decide (x = r) then f x else x := by
  rw [Database.ofDevice, h.rows, List.filter_map]
  have hdevice : ∀ x : Row, (if x = r then f r else x).deviceId = x.deviceId := by
    intro x
    by_cases hx : x = r
    · rw [if_pos hx, hx]
      exact congrArg Prod.fst h.key
    · rw [if_neg hx]
  have hfilter : ((fun y : Row => decide (y.deviceId = d)) ∘ fun x => if x = r then f r else x) =
      fun x => decide (x.deviceId = d) := by
    funext x
    show decide ((if x = r then f r else x).deviceId = d) = _
    rw [hdevice]
  rw [hfilter]
  refine List.map_congr_left fun x _ => ?_
  by_cases hx : x = r
  · rw [if_pos hx, if_pos (decide_eq_true hx), hx]
  · rw [if_neg hx, if_neg (by simpa using hx)]

theorem count (h : db.Replaces db' p f r) : (db'.commandReceiptUsage d).1 = (db.commandReceiptUsage d).1 := by
  rw [Database.commandReceiptUsage, h.ofDevice]
  exact List.length_map ..

/-- The bytes of the device change by the difference of the two rows. -/
theorem bytes (hinv : db.Inv) (h : db.Replaces db' p f r) :
    (db'.commandReceiptUsage r.deviceId).2 + r.bytes = (db.commandReceiptUsage r.deviceId).2 + (f r).bytes := by
  have hmem : r ∈ db.ofDevice r.deviceId := List.mem_filter.mpr ⟨h.mem, decide_eq_true rfl⟩
  have hlen : ((db.ofDevice r.deviceId).filter fun x => decide (x = r)).length ≤ 1 :=
    atMostOne_length ((List.Nodup.of_map _ hinv.keys).filter _) fun x _ y _ hx hy =>
      (of_decide_eq_true hx).trans (of_decide_eq_true hy).symm
  rw [Database.commandReceiptUsage, h.ofDevice]
  exact sum_replace hlen hmem (decide_eq_true rfl)

theorem other (h : db.Replaces db' p f r) (hd : d ≠ r.deviceId) :
    db'.commandReceiptUsage d = db.commandReceiptUsage d := by
  have hsame : db'.ofDevice d = db.ofDevice d := by
    rw [h.ofDevice]
    conv_rhs => rw [← List.map_id (db.ofDevice d)]
    refine List.map_congr_left fun x hx => if_neg fun hxr => ?_
    have hdevice := of_decide_eq_true (List.mem_filter.mp hx).2
    rw [of_decide_eq_true hxr] at hdevice
    exact hd hdevice.symm
  rw [Database.commandReceiptUsage, Database.commandReceiptUsage, hsame]

theorem inv (hinv : db.Inv) (h : db.Replaces db' p f r) (hstored : (f r).Stored)
    (hbytes : (db'.commandReceiptUsage r.deviceId).2 ≤ commandReceiptMaxBytes) : db'.Inv where
  keys := by
    rw [h.keys]
    exact hinv.keys
  stored := by
    intro x hx
    have hdevices : db'.devices = db.devices := by rw [h.next]
    rw [hdevices]
    rcases h.mem_rows.mp hx with rfl | ⟨hx, -⟩
    · have hdevice : (f r).deviceId = r.deviceId := congrArg Prod.fst h.key
      exact ⟨hstored, hdevice ▸ (hinv.stored r h.mem).2⟩
    · exact hinv.stored x hx
  count d := by
    rw [h.count]
    exact hinv.count d
  bytes d := by
    by_cases hd : d = r.deviceId
    · rw [hd]
      exact hbytes
    · rw [h.other hd]
      exact hinv.bytes d

end Database.Replaces

end MonoAgent.Receipts
