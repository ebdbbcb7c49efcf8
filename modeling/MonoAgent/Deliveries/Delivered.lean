import MonoAgent.Deliveries.Confirmed

/-!
# The query returns the latest confirmations

Between two times lie the rows of the first confirmations with a time in between, each under a
key of its own, and the keys are ordered as times and identities are.  So the pages are the
pieces of one descending list (`between_behind`), and `recent` reads it from the front up to
its limit.
-/

namespace MonoAgent.Deliveries

open MonoAgent.Lib MonoAgent.Session

/-! ## Keys in order -/

theorem instantKey_instant (t : DateTime) : instantKey t.instant = timeKey t := by
  rw [instantKey, Int.toNat_natCast, DateTime.ofInstant_instant]

/-- Keys are ordered by their times first. -/
theorem timeKey_lt {s t : DateTime} {r u : Text} :
    timeKey s ++ r < timeKey t ++ u ↔ s.instant < t.instant ∨ s = t ∧ r < u := by
  simp only [timeKey, List.append_assoc]
  rw [append_lt_append rfl, DateTime.isoMicroseconds_lt]
  simp

theorem instant_inj {s t : DateTime} (h : s.instant = t.instant) : s = t := by
  have hs := DateTime.ofInstant_instant s
  rw [h, DateTime.ofInstant_instant] at hs
  exact (Option.some.inj hs).symm

/-- A key is of one time and one identity. -/
theorem timeKey_inj {t u : DateTime} {a b : Text} (h : timeKey t ++ a = timeKey u ++ b) : t = u ∧ a = b := by
  have hlt : ¬ t.instant < u.instant := fun hlt => (timeKey_lt.mpr (Or.inl hlt)).ne h
  have hgt : ¬ u.instant < t.instant := fun hgt => (timeKey_lt.mpr (Or.inl hgt)).ne h.symm
  have htime : t = u := instant_inj (by omega)
  subst htime
  exact ⟨rfl, List.append_cancel_left h⟩

/-- The key of a confirmation lies between two times as its own time does. -/
theorem timeKey_between {since before t : DateTime} {r : Text} :
    timeKey since ≤ timeKey t ++ r ∧ timeKey t ++ r < timeKey before ↔
      since.instant ≤ t.instant ∧ t.instant < before.instant := by
  have hbefore : timeKey t ++ r < timeKey before ++ [] ↔ _ := timeKey_lt
  have hsince : timeKey t ++ r < timeKey since ++ [] ↔ _ := timeKey_lt
  rw [List.append_nil] at hbefore hsince
  rw [← not_lt, hsince, hbefore]
  simp

/-- Only confirmations have a key between two times. -/
theorem time_of_between {since before : DateTime} {key : Key} (hsince : timeKey since ≤ key.text)
    (hbefore : key.text < timeKey before) : ∃ time m, key = .confirmedTime time m := by
  have hprefix : Lib.text "confirmed-time:" = [99, 111, 110, 102, 105, 114, 109, 101, 100, 45, 116, 105, 109, 101, 58] := by
    decide
  rw [timeKey, hprefix] at hsince hbefore
  cases key with
  | selection m =>
      have htext : Lib.text "selection:" = 115 :: Lib.text "election:" := by decide
      rw [Key.text, htext] at hbefore
      simp [List.cons_lt_cons_iff] at hbefore
  | delivery m sink =>
      have htext : Lib.text "delivery:" = 100 :: Lib.text "elivery:" := by decide
      rw [Key.text, htext] at hbefore
      simp [List.cons_lt_cons_iff] at hbefore
  | cursor owner sid =>
      have htext : Lib.text "cursor:" = 99 :: 117 :: Lib.text "rsor:" := by decide
      rw [Key.text, htext] at hbefore
      simp [List.cons_lt_cons_iff] at hbefore
  | confirmedMessage m =>
      have htext : Lib.text "confirmed-message:" =
          [99, 111, 110, 102, 105, 114, 109, 101, 100, 45, 109] ++ Lib.text "essage:" := by decide
      rw [Key.text, htext, ← not_lt] at hsince
      simp [List.cons_lt_cons_iff] at hsince
  | confirmedTime time m => exact ⟨time, m, rfl⟩

/-! ## Pages -/

/-- Rows from the largest key to the smallest, each key once. -/
def Descending (rows : List (Text × Row)) : Prop := rows.Pairwise fun x y => y.1 < x.1

variable {rows : List (Text × Row)} {start stop : Text}

instance : Std.Total later := ⟨fun x y => (le_total y.1 x.1)⟩

instance : IsTrans (Text × Row) later := ⟨fun _ _ _ h h' => le_trans h' h⟩

theorem mem_between {r : Text × Row} : r ∈ between start stop rows ↔ r ∈ rows ∧ start ≤ r.1 ∧ r.1 < stop := by
  rw [between, List.mem_insertionSort, List.mem_filter, decide_eq_true_eq]

/-- Keys that differ are put in descending order. -/
theorem between_descending (h : (between start stop rows).Pairwise fun x y => x.1 ≠ y.1) :
    Descending (between start stop rows) := by
  have hsorted : (between start stop rows).Pairwise later := List.pairwise_insertionSort later _
  exact (hsorted.and h).imp fun ⟨hle, hne⟩ => lt_of_le_of_ne hle hne.symm

/-- What is left below a row of the list. -/
theorem between_behind {front rest : List (Text × Row)} {last : Text × Row} (h : Descending (between start stop rows))
    (hsplit : between start stop rows = front ++ last :: rest) : between start last.1 rows = rest := by
  have hstop : last.1 < stop := (mem_between.mp (hsplit ▸ List.mem_append_right _ (List.mem_cons_self ..))).2.2
  have hparts := h
  rw [hsplit, Descending] at hparts
  obtain ⟨-, hright, hcross⟩ := List.pairwise_append.mp hparts
  obtain ⟨hbelow, hrest⟩ := List.pairwise_cons.mp hright
  -- the rows below `last` are those behind it
  have hfilter : (between start stop rows).filter (fun r => r.1 < last.1) = rest := by
    rw [hsplit, List.filter_append, List.filter_cons, if_neg (by simp), List.filter_eq_nil_iff.mpr fun r hr => ?_,
      List.filter_eq_self.mpr fun r hr => ?_, List.nil_append]
    · exact decide_eq_true (hbelow r hr)
    · have hgt := hcross r hr last (List.mem_cons_self ..)
      simp [hgt.le]
  have hperm : (between start last.1 rows).Perm rest := by
    rw [← hfilter]
    refine (List.perm_insertionSort later _).trans ?_
    have hsame : rows.filter (fun r => start ≤ r.1 ∧ r.1 < last.1) =
        (rows.filter fun r => start ≤ r.1 ∧ r.1 < stop).filter fun r => r.1 < last.1 := by
      rw [List.filter_filter]
      refine List.filter_congr fun r _ => ?_
      have hlt : r.1 < last.1 → r.1 < stop := fun hr => hr.trans hstop
      by_cases hr : r.1 < last.1
      · simp [hr, hlt hr]
      · simp [hr]
    rw [hsame]
    exact ((List.perm_insertionSort later _).symm.filter _)
  have hdistinct : Descending (between start last.1 rows) :=
    between_descending (hperm.symm.pairwise (hrest.imp fun hlt => hlt.ne') fun hne => hne.symm)
  exact List.Perm.eq_of_pairwise (fun _ _ _ _ hxy hyx => absurd hxy hyx.not_gt) hdistinct hrest hperm

/-! ## Reading the pages -/

section Read

variable {db : Database} {query : Query} {limit : Nat} {decode : Text × Row → Option DeliveredMessage}

/-- A page adds what it is read as, up to the limit. -/
theorem readPage_eq {page : List (Text × Row)} {result : List DeliveredMessage}
    (hread : ∀ r ∈ page, readConfirmation db query r.1 r.2 = .ok (decode r)) (hlen : result.length < limit) :
    readPage db query limit page result =
      .ok ((result ++ page.filterMap decode).take limit, limit ≤ (result ++ page.filterMap decode).length) := by
  induction page generalizing result with
  | nil =>
      rw [List.filterMap_nil, List.append_nil, List.take_of_length_le hlen.le, decide_eq_false (by omega)]
      rfl
  | cons r rest ih =>
      obtain ⟨key, row⟩ := r
      have hrest : ∀ r ∈ rest, readConfirmation db query r.1 r.2 = .ok (decode r) :=
        fun r hr => hread r (List.mem_cons_of_mem _ hr)
      have hone := hread (key, row) (List.mem_cons_self ..)
      rw [readPage]
      dsimp only at hone
      rw [hone, List.filterMap_cons]
      cases decode (key, row) with
      | none => exact ih hrest hlen
      | some delivered =>
          dsimp only [Except.bind, Bind.bind]
          have happend : result ++ delivered :: rest.filterMap decode = (result ++ [delivered]) ++ rest.filterMap decode := by
            simp
          rw [happend]
          split
          · next hfull =>
              rw [List.take_append_of_le_length hfull.ge, List.take_of_length_le hfull.le, decide_eq_true (by
                rw [List.length_append, hfull]
                omega)]
              rfl
          · next hnot =>
              refine ih hrest ?_
              rw [List.length_append, List.length_singleton] at hnot ⊢
              omega

/-- The pages from a key on, by induction on how many there may be. -/
theorem recentPages_eq {n : Nat} {rest : List (Text × Row)} {result : List DeliveredMessage}
    (hrest : between start stop rows = rest) (hdesc : Descending rest)
    (hread : ∀ r ∈ rest, readConfirmation db query r.1 r.2 = .ok (decode r)) (hstart : ∀ r ∈ rest, start < r.1)
    (hstop : start < stop) (hlen : result.length < limit) (hn : rest.length < n) :
    recentPages db rows query start limit n stop result =
      .ok (some ((result ++ rest.filterMap decode).take limit)) := by
  induction n generalizing stop rest result with
  | zero => omega
  | succ n ih =>
      have hscan : scan rows start stop 128 = .ok (rest.take 128) := by
        rw [scan, ensure, if_pos hstop, ensure, if_pos (by omega), hrest]
        rfl
      rw [recentPages, hscan]
      dsimp only [Except.bind, Bind.bind]
      cases hlast : (rest.take 128).getLast? with
      | none =>
          rw [List.getLast?_eq_none_iff, List.take_eq_nil_iff] at hlast
          have hnil : rest = [] := hlast.resolve_left (by omega)
          rw [hnil, List.filterMap_nil, List.append_nil, List.take_of_length_le hlen.le]
          rfl
      | some last =>
          obtain ⟨front, hpage⟩ := List.getLast?_eq_some_iff.mp hlast
          have hsplit : rest = front ++ last :: rest.drop 128 := by
            conv_lhs => rw [← List.take_append_drop 128 rest, hpage]
            simp
          have hmem {r : Text × Row} (hr : r ∈ rest.take 128) : r ∈ rest := List.mem_of_mem_take hr
          have hall : result ++ rest.filterMap decode =
              (result ++ (rest.take 128).filterMap decode) ++ (rest.drop 128).filterMap decode := by
            rw [List.append_assoc, ← List.filterMap_append, List.take_append_drop]
          dsimp only
          rw [readPage_eq (fun r hr => hread r (hmem hr)) hlen]
          dsimp only [Except.bind]
          by_cases hfull : limit ≤ (result ++ (rest.take 128).filterMap decode).length
          · rw [decide_eq_true hfull, if_pos rfl, hall, List.take_append_of_le_length hfull]
            rfl
          · rw [decide_eq_false hfull, if_neg Bool.false_ne_true, List.take_of_length_le (by omega)]
            have hlength := congrArg List.length hsplit
            rw [List.length_append, List.length_cons] at hlength
            have hbehind := between_behind (hrest.symm ▸ hdesc) (hrest.trans hsplit)
            rw [ih hbehind (hdesc.sublist (List.drop_sublist _ _)) (fun r hr => hread r (List.mem_of_mem_drop hr))
              (fun r hr => hstart r (List.mem_of_mem_drop hr)) (hstart last (hmem (List.mem_of_getLast? hlast)))
              (by omega) (by omega), ← hall]

end Read

/-! ## The rows between two times -/

/-- The row of a first confirmation. -/
def confirmationRow (x : Message) (t : DateTime) : Text × Row :=
  (timeKey t ++ text x.messageId, ⟨0, .confirmation ⟨x.messageId, x.sessionId, t.instant⟩⟩)

variable {s : History} {listed : List Key} {since before : DateTime}

/-- The confirmation that a row between two times is for. -/
theorem HistoryInv.confirmation (h : HistoryInv s) {key : Key} {row : Row}
    (hrow : s.ledger.outbox.rows key = some row) (hsince : timeKey since ≤ key.text) (hbefore : key.text < timeKey before) :
    ∃ x ∈ s.ledger.outbox.db.messages, ∃ t : DateTime, s.first x.messageId = some (t.instant : Instant) ∧
      key = .confirmedTime t.instant x.messageId ∧ since.instant ≤ t.instant ∧ t.instant < before.instant ∧
      (key.text, row) = confirmationRow x t := by
  obtain ⟨time, m, rfl⟩ := time_of_between hsince hbefore
  have hfirst := h.only time m (by simp [hrow])
  obtain ⟨⟨t, rfl⟩, x, hx, rfl, hwritten⟩ := h.written m time hfirst
  cases hrow.symm.trans hwritten
  have htext : Key.text (.confirmedTime t.instant x.messageId) = timeKey t ++ text x.messageId := by
    rw [Key.text, instantKey_instant]
  rw [htext] at hsince hbefore
  obtain ⟨hle, hlt⟩ := timeKey_between.mp ⟨hsince, hbefore⟩
  exact ⟨x, hx, t, hfirst, rfl, hle, hlt, by rw [htext, confirmationRow]⟩

theorem HistoryInv.mem_between (h : HistoryInv s) (hl : Listing s.ledger.outbox listed) {r : Text × Row} :
    r ∈ between (timeKey since) (timeKey before) (table s.ledger.outbox listed) ↔
      ∃ x ∈ s.ledger.outbox.db.messages, ∃ t : DateTime, s.first x.messageId = some (t.instant : Instant) ∧
        since.instant ≤ t.instant ∧ t.instant < before.instant ∧ r = confirmationRow x t := by
  rw [Deliveries.mem_between]
  constructor
  · rintro ⟨hr, hsince, hbefore⟩
    obtain ⟨key, -, hkey⟩ := List.mem_filterMap.mp hr
    obtain ⟨row, hrow, rfl⟩ := Option.map_eq_some_iff.mp hkey
    obtain ⟨x, hx, t, hfirst, -, hle, hlt, heq⟩ := h.confirmation hrow hsince hbefore
    exact ⟨x, hx, t, hfirst, hle, hlt, heq⟩
  · rintro ⟨x, hx, t, hfirst, hle, hlt, rfl⟩
    obtain ⟨-, y, hy, hid, hrow⟩ := h.written x.messageId t.instant hfirst
    have hsame := h.ledger.rows.log.eq_of_id hy hx hid
    subst hsame
    refine ⟨List.mem_filterMap.mpr ⟨.confirmedTime t.instant y.messageId, (hl.2 _).mpr (by simp [hrow]), ?_⟩, ?_⟩
    · rw [hrow, Option.map_some, Key.text, instantKey_instant, confirmationRow]
    · exact timeKey_between.mpr ⟨hle, hlt⟩

/-- Confirmations have keys of their own. -/
theorem HistoryInv.between_distinct (h : HistoryInv s) (hl : Listing s.ledger.outbox listed) :
    (between (timeKey since) (timeKey before) (table s.ledger.outbox listed)).Pairwise fun x y => x.1 ≠ y.1 := by
  refine (List.perm_insertionSort later _).symm.pairwise ?_ fun hne => hne.symm
  rw [List.pairwise_filter, table, List.pairwise_filterMap]
  refine hl.1.imp fun {key key'} hne r hr r' hr' hin hin' heq => hne ?_
  obtain ⟨row, hrow, rfl⟩ := Option.map_eq_some_iff.mp hr
  obtain ⟨row', hrow', rfl⟩ := Option.map_eq_some_iff.mp hr'
  rw [decide_eq_true_eq] at hin hin'
  obtain ⟨x, -, t, -, hkey, -, -, hx⟩ := h.confirmation hrow hin.1 hin.2
  obtain ⟨y, -, u, -, hkey', -, -, hy⟩ := h.confirmation hrow' hin'.1 hin'.2
  have htext : timeKey t ++ text x.messageId = timeKey u ++ text y.messageId :=
    (congrArg Prod.fst hx).symm.trans (heq.trans (congrArg Prod.fst hy))
  obtain ⟨rfl, hid⟩ := timeKey_inj htext
  rw [hkey, hkey', text_injective hid]

/-! ## The query -/

/-- The filters let a message through. -/
def Query.Admits (query : Query) (db : Database) (x : Message) : Prop :=
  x.source ∉ query.excludedSources ∧
    ∀ visibility, query.visibility = some visibility →
      ∃ row, db.session? x.sessionId = some row ∧ row.attributes.visibility = visibility

/-- A message that was confirmed in a range of times and that the filters let through. -/
structure Matches (s : History) (query : Query) (since before : DateTime) (d : DeliveredMessage) : Prop where
  stored : d.message ∈ s.ledger.outbox.db.messages
  first : s.first d.message.messageId = some d.confirmedAt
  from_since : (since.instant : Instant) ≤ d.confirmedAt
  up_to : d.confirmedAt < (before.instant : Instant)
  admitted : query.Admits s.ledger.outbox.db d.message

/-- The later confirmation comes first; of those at one time, the larger identity. -/
def Precedes (d e : DeliveredMessage) : Prop :=
  e.confirmedAt < d.confirmedAt ∨
    e.confirmedAt = d.confirmedAt ∧ text e.message.messageId < text d.message.messageId

/-- What a row between two times is read as. -/
def decodeRow (db : Database) (query : Query) (r : Text × Row) : Option DeliveredMessage :=
  match readConfirmation db query r.1 r.2 with
  | .ok found => found
  | .error _ => none

/-- The row of a stored message is read as the message, unless a filter keeps it out. -/
theorem read_confirmationRow {db : Database} (hdb : LogInvariant db) {x : Message} (hx : x ∈ db.messages) (t : DateTime)
    (query : Query) : ∃ found, readConfirmation db query (confirmationRow x t).1 (confirmationRow x t).2 = .ok found ∧
      ∀ d, found = some d ↔ d = ⟨x, t.instant⟩ ∧ query.Admits db x := by
  have hget : db.get x.sessionId x.messageId = some x := by
    rw [Database.get, hdb.message?_eq_some.mpr ⟨hx, rfl⟩]
    simp
  obtain ⟨session, hsession⟩ : ∃ session, db.session? x.sessionId = some session := by
    obtain ⟨session, hmem, hkey⟩ := List.mem_map.mp (hdb.known x hx)
    cases hfind : db.session? x.sessionId with
    | some session => exact ⟨session, rfl⟩
    | none =>
        have hnot := List.find?_eq_none.mp hfind session hmem
        simp [hkey] at hnot
  rw [confirmationRow, readConfirmation]
  dsimp only
  rw [ensure, if_pos ⟨rfl, by rw [instantKey_instant]⟩, hget]
  dsimp only [Except.bind, Bind.bind]
  by_cases hsource : x.source ∈ query.excludedSources
  · rw [if_pos hsource]
    exact ⟨none, rfl, fun d => iff_of_false (by simp) fun h => h.2.1 hsource⟩
  · rw [if_neg hsource, hidden]
    cases hvisibility : query.visibility with
    | none =>
        refine ⟨some ⟨x, t.instant⟩, rfl, fun d => ?_⟩
        rw [Option.some.injEq, eq_comm]
        exact (and_iff_left ⟨hsource, fun v hv => by rw [hvisibility] at hv; cases hv⟩).symm
    | some visibility =>
        rw [attributes, hsession]
        dsimp only [Except.map]
        by_cases hsame : session.attributes.visibility = visibility
        · refine ⟨some ⟨x, t.instant⟩, by simp [hsame, pure, Except.pure], fun d => ?_⟩
          rw [Option.some.injEq, eq_comm]
          refine (and_iff_left ⟨hsource, fun v hv => ⟨session, hsession, ?_⟩⟩).symm
          rw [hvisibility] at hv
          exact hsame.trans (Option.some.inj hv)
        · refine ⟨none, by simp [hsame, pure, Except.pure], fun d => iff_of_false (by simp) fun h => hsame ?_⟩
          obtain ⟨row, hrow, hshown⟩ := h.2.2 visibility hvisibility
          rw [hsession] at hrow
          cases hrow
          exact hshown

theorem decode_confirmationRow {db : Database} (hdb : LogInvariant db) {x : Message} (hx : x ∈ db.messages) (t : DateTime)
    (query : Query) : readConfirmation db query (confirmationRow x t).1 (confirmationRow x t).2 =
      .ok (decodeRow db query (confirmationRow x t)) ∧
    ∀ d, decodeRow db query (confirmationRow x t) = some d ↔ d = ⟨x, t.instant⟩ ∧ query.Admits db x := by
  obtain ⟨found, hfound, hiff⟩ := read_confirmationRow hdb hx t query
  rw [decodeRow, hfound]
  exact ⟨rfl, hiff⟩

/-- `recent` returns the first messages, up to the limit, of all that were first confirmed in the range and
that the filters let through, the latest first. -/
theorem recent_exact (h : historyMachine.Reach Timely s) (hl : Listing s.ledger.outbox listed) (query : Query)
    (since before : DateTime) (hrange : since.instant < before.instant) (limit : Nat) (hlimit : 1 ≤ limit ∧ limit ≤ 1000) :
    ∃ found : List DeliveredMessage, found.Pairwise Precedes ∧
      (∀ d, d ∈ found ↔ Matches s query since before d) ∧
      recent s.ledger.outbox.db (table s.ledger.outbox listed) query since before limit =
        .ok (some (found.take limit)) := by
  have hs := reachable_historyInv h
  have hlog := hs.ledger.rows.log
  have hdesc : Descending (between (timeKey since) (timeKey before) (table s.ledger.outbox listed)) :=
    between_descending (hs.between_distinct hl)
  have hstart : timeKey since < timeKey before := by
    have hlt := timeKey_lt (s := since) (t := before) (r := []) (u := [])
    rw [List.append_nil, List.append_nil] at hlt
    exact hlt.mpr (Or.inl hrange)
  refine ⟨(between (timeKey since) (timeKey before) (table s.ledger.outbox listed)).filterMap
    (decodeRow s.ledger.outbox.db query), ?_, fun d => ?_, ?_⟩
  · refine List.pairwise_filterMap.mpr (hdesc.imp_of_mem fun {r r'} hr hr' hlt d hd e he => ?_)
    obtain ⟨x, hx, t, -, -, -, rfl⟩ := (hs.mem_between hl).mp hr
    obtain ⟨y, hy, u, -, -, -, rfl⟩ := (hs.mem_between hl).mp hr'
    obtain ⟨rfl, -⟩ := ((decode_confirmationRow hlog hx t query).2 d).mp hd
    obtain ⟨rfl, -⟩ := ((decode_confirmationRow hlog hy u query).2 e).mp he
    rcases timeKey_lt.mp hlt with hearlier | ⟨rfl, hid⟩
    · exact Or.inl (Int.ofNat_lt.mpr hearlier)
    · exact Or.inr ⟨rfl, hid⟩
  · rw [List.mem_filterMap]
    constructor
    · rintro ⟨r, hr, hd⟩
      obtain ⟨x, hx, t, hfirst, hle, hlt, rfl⟩ := (hs.mem_between hl).mp hr
      obtain ⟨rfl, hadmits⟩ := ((decode_confirmationRow hlog hx t query).2 d).mp hd
      exact ⟨hx, hfirst, Int.ofNat_le.mpr hle, Int.ofNat_lt.mpr hlt, hadmits⟩
    · intro hd
      obtain ⟨⟨t, htime⟩, -⟩ := hs.written _ _ hd.first
      obtain ⟨x, time⟩ := d
      dsimp only at htime
      subst htime
      refine ⟨confirmationRow x t, (hs.mem_between hl).mpr ⟨x, hd.stored, t, hd.first, Int.ofNat_le.mp hd.from_since,
        Int.ofNat_lt.mp hd.up_to, rfl⟩, ?_⟩
      exact ((decode_confirmationRow hlog hd.stored t query).2 _).mpr ⟨rfl, hd.admitted⟩
  · rw [recent, ensure, if_pos ⟨hstart, hlimit⟩]
    refine recentPages_eq rfl hdesc (fun r hr => ?_) (fun r hr => ?_) hstart hlimit.1 ?_
    · obtain ⟨x, hx, t, -, -, -, rfl⟩ := (hs.mem_between hl).mp hr
      exact (decode_confirmationRow hlog hx t query).1
    · obtain ⟨x, hx, t, -, hle, -, rfl⟩ := (hs.mem_between hl).mp hr
      have hid : [] < text x.messageId := by
        cases htext : text x.messageId with
        | nil => exact absurd (text_injective (b := "") htext) (hs.ledger.rows.identified x hx)
        | cons c rest => exact List.nil_lt_cons c rest
      have hkey := timeKey_lt (s := since) (t := t) (r := []) (u := text x.messageId)
      rw [List.append_nil] at hkey
      refine hkey.mpr ?_
      rcases Nat.lt_or_eq_of_le hle with hlt | heq
      · exact Or.inl hlt
      · exact Or.inr ⟨instant_inj heq, hid⟩
    · have hlength := (List.perm_insertionSort later ((table s.ledger.outbox listed).filter fun r =>
        timeKey since ≤ r.1 ∧ r.1 < timeKey before)).length_eq
      rw [between, hlength]
      exact Nat.lt_succ_of_le (List.length_filter_le _ _)

theorem exampleTime_valid (day : Fin 31) (hour : Fin 24) : (1 ≤ 1 ∧ 1 ≤ 9999) ∧ (1 ≤ 1 ∧ 1 ≤ 12) ∧
    (1 ≤ day.val + 1 ∧ day.val + 1 ≤ daysInMonth 1 1) ∧ hour.val < 24 ∧ 0 < 60 ∧ 0 < 60 ∧ 0 < 1000000 :=
  ⟨by decide, by decide, ⟨Nat.le_add_left 1 _, day.isLt⟩, hour.isLt, by decide⟩

/-- An hour of the first month of the calendar, whose days are counted from 0. -/
def exampleTime (day : Fin 31) (hour : Fin 24) : DateTime where
  year := 1
  month := 1
  day := day + 1
  hour := hour
  minute := 0
  second := 0
  microsecond := 0
  valid := exampleTime_valid day hour

def exampleOutputs : Writer where
  sessionId := "s"
  author := "model"
  source := "user"
  bodyTypes := [.output]
  callRef_ok := Writer.output_unbound

def deliveredSink : Sink := { name := "chat", bindingId := "b", address := "1", nonempty := chat_named }

/-- A message that is published, and then delivered. -/
def exampleDelivery (messageId : String) (time : DateTime) : List RecordsAction :=
  [.publish ⟨"reply"⟩ exampleOutputs 0
      { messageId, body := .output ⟨[], .complete, Output.finish_nil⟩ } [deliveredSink] false,
    .save ⟨"reply"⟩ messageId ⟨0, .delivery (.prepared deliveredSink)⟩
      (.settled deliveredSink { status := .delivered }) time.instant]

/-- Two messages of the first day, and one of the second. -/
def exampleDelivered : History :=
  (historyMachine.run {} (exampleDelivery "l" (exampleTime 0 8) ++
    exampleDelivery "m" (exampleTime 0 9) ++
    exampleDelivery "n" (exampleTime 1 0))).getD {}

theorem exampleDelivered_reach : historyMachine.Reach Timely exampleDelivered := by
  refine Machine.reach_getD ⟨⟨⟨rfl, rfl, rfl⟩, rfl, rfl⟩, rfl⟩ (fun a ha s => ?_) (by decide +kernel)
  have hsave (time : DateTime) : IsTime time.instant := ⟨time, rfl⟩
  simp only [exampleDelivery, List.cons_append, List.nil_append, List.mem_cons, List.not_mem_nil,
    or_false] at ha
  rcases ha with rfl | rfl | rfl | rfl | rfl | rfl
  all_goals first
    | trivial
    | exact ⟨hsave _, fun _ h => by cases h⟩

/-- The rows can be listed. -/
theorem exists_listing {o : Outbox} (h : RowsInv o) : ∃ listed, Listing o listed := by
  obtain ⟨keys, hkeys⟩ := h.finite
  refine ⟨(keys.filter fun key => o.rows key ≠ none).dedup, List.nodup_dedup _, fun key => ?_⟩
  rw [List.mem_dedup, List.mem_filter, decide_eq_true_eq]
  exact and_iff_right_of_imp (hkeys key)

/-- The order of the answer is strict. -/
theorem precedes_asymm {d e : DeliveredMessage} (h : Precedes d e) : ¬ Precedes e d := by
  rintro (hlt | ⟨heq, hid⟩)
  · rcases h with hlt' | ⟨heq', -⟩
    · exact lt_asymm hlt hlt'
    · exact absurd heq' hlt.ne'
  · rcases h with hlt' | ⟨-, hid'⟩
    · exact absurd heq hlt'.ne'
    · exact lt_asymm hid hid'

theorem recent_exact_delivered : ∃ listed found, Listing exampleDelivered.ledger.outbox listed ∧
    found.map (·.message.messageId) = ["m", "l"] ∧
    recent exampleDelivered.ledger.outbox.db (table exampleDelivered.ledger.outbox listed) {}
      (exampleTime 0 0) (exampleTime 1 0) 5 = .ok (some found) := by
  obtain ⟨listed, hl⟩ := exists_listing (reachable_historyInv exampleDelivered_reach).ledger.rows
  obtain ⟨found, hsorted, hmem, hrecent⟩ := recent_exact exampleDelivered_reach hl {}
    (exampleTime 0 0) (exampleTime 1 0) (by decide) 5 (by decide)
  have hids : exampleDelivered.ledger.outbox.db.messages.map (·.messageId) = ["l", "m", "n"] := by
    decide +kernel
  obtain ⟨x, rest, hmessages, hx, hrest⟩ := List.map_eq_cons_iff.mp hids
  obtain ⟨y, rest, rfl, hy, hrest⟩ := List.map_eq_cons_iff.mp hrest
  obtain ⟨z, rest, rfl, hz, hrest⟩ := List.map_eq_cons_iff.mp hrest
  obtain rfl := List.map_eq_nil_iff.mp hrest
  have htimes : exampleDelivered.first "l" = some (exampleTime 0 8).instant ∧
      exampleDelivered.first "m" = some (exampleTime 0 9).instant ∧
      exampleDelivered.first "n" = some (exampleTime 1 0).instant := by
    decide +kernel
  obtain ⟨hxt, hyt, hzt⟩ := htimes
  have horder : ((exampleTime 0 0).instant : Instant) ≤ (exampleTime 0 8).instant ∧
      ((exampleTime 0 8).instant : Instant) < (exampleTime 0 9).instant ∧
      ((exampleTime 0 9).instant : Instant) < (exampleTime 1 0).instant := by
    decide
  obtain ⟨hsince, hlt, hbefore⟩ := horder
  have hfound (d : DeliveredMessage) :
      d ∈ found ↔ d ∈ [(⟨y, (exampleTime 0 9).instant⟩ : DeliveredMessage), ⟨x, (exampleTime 0 8).instant⟩] := by
    obtain ⟨message, time⟩ := d
    simp only [hmem, List.mem_cons, List.not_mem_nil, or_false, DeliveredMessage.mk.injEq]
    constructor
    · rintro ⟨hstored, hfirst, -, hin, -⟩
      simp only [hmessages, List.mem_cons, List.not_mem_nil, or_false] at hstored
      dsimp only at hfirst
      rcases hstored with rfl | rfl | rfl
      · rw [hx, hxt] at hfirst
        exact Or.inr ⟨rfl, (Option.some.inj hfirst).symm⟩
      · rw [hy, hyt] at hfirst
        exact Or.inl ⟨rfl, (Option.some.inj hfirst).symm⟩
      · rw [hz, hzt] at hfirst
        obtain rfl := Option.some.inj hfirst
        exact absurd hin (lt_irrefl _)
    · have hadmits (m : Message) : Query.Admits {} exampleDelivered.ledger.outbox.db m :=
        ⟨List.not_mem_nil, fun _ h => by cases h⟩
      rintro (⟨rfl, rfl⟩ | ⟨rfl, rfl⟩)
      · exact ⟨by simp [hmessages], hy.symm ▸ hyt, hsince.trans hlt.le, hbefore, hadmits _⟩
      · exact ⟨by simp [hmessages], hx.symm ▸ hxt, hsince, hlt.trans hbefore, hadmits _⟩
  have hpair : List.Pairwise Precedes [⟨y, (exampleTime 0 9).instant⟩, ⟨x, (exampleTime 0 8).instant⟩] :=
    List.pairwise_pair.mpr (Or.inl hlt)
  have hdistinct {l : List DeliveredMessage} (h : l.Pairwise Precedes) : l.Nodup := by
    refine h.imp fun {d e} hp => ?_
    rintro rfl
    exact precedes_asymm hp hp
  have heq := List.Perm.eq_of_pairwise (fun d e _ _ hde hed => absurd hed (precedes_asymm hde)) hsorted hpair
    ((List.perm_ext_iff_of_nodup (hdistinct hsorted) (hdistinct hpair)).mpr hfound)
  refine ⟨listed, found, hl, ?_, ?_⟩
  · rw [heq, List.map_cons, List.map_singleton, hx, hy]
  · have hlength : found.length ≤ 5 := by simp [heq]
    rw [hrecent, List.take_of_length_le hlength]

end MonoAgent.Deliveries
