import MonoAgent.EventMail.Alerts
import MonoAgent.Lib.Timestamps

/-!
# Times of the mail store as texts

A time with a zone is a time on a clock and the offset of that clock.  `awareUtc` writes it
in UTC, with the microseconds only when there are any, and the queries compare these texts.
They are ordered like the instants (`utc_texts_ordered`), so that the alert which a query over
the table finds is due, and the earliest that is (`peekAlert_earliest`).
-/

namespace MonoAgent.EventMail

open MonoAgent.Lib

/-- A time on a clock that runs ahead of UTC by `offset` microseconds, less than a day. -/
structure AwareTime where
  clock : DateTime
  offset : Int
  offset_ok : -(DateTime.dayLength : Int) < offset ∧ offset < DateTime.dayLength
deriving DecidableEq

/-- A `datetime`. -/
inductive PyDateTime where
  | aware (t : AwareTime)
  | naive (clock : DateTime)
deriving DecidableEq

inductive TimeError where
  | valueError (text : String)
  | overflowError (text : String)
deriving DecidableEq, Repr

/-- The microseconds since the year one, in UTC. -/
def AwareTime.instant (t : AwareTime) : Int := t.clock.instant - t.offset

/-- `value.astimezone(UTC)`. -/
def AwareTime.astimezone (t : AwareTime) : Except TimeError DateTime :=
  if 0 ≤ t.instant then
    match DateTime.ofInstant t.instant.toNat with
    | some utc => .ok utc
    | none => .error (.overflowError "date value out of range")
  else .error (.overflowError "date value out of range")

/-- `_aware_utc`. -/
def awareUtc : PyDateTime → Except TimeError Text
  | .naive _ => .error (.valueError "Content 时间必须带时区")
  | .aware t => t.astimezone.map DateTime.isoformat

/-- `_utc_now`, when the clock of UTC shows `now`. -/
def utcNow (now : DateTime) : Text := now.isoformat

/-- A pending row of `alert_projection` that `peek_alert` looks for:
`not_before<=? AND (expires_at IS NULL OR expires_at>?)`. -/
def alertDue (notBefore : Text) (expiresAt : Option Text) (now : Text) : Bool :=
  decide (notBefore ≤ now) && expiresAt.all fun expiry => decide (now < expiry)

section Texts

variable {a b c : AwareTime} {s t u : Text}

theorem astimezone_eq_ok {utc : DateTime} : a.astimezone = .ok utc ↔ (utc.instant : Int) = a.instant := by
  rw [AwareTime.astimezone]
  split
  · next hpos =>
      cases hutc : DateTime.ofInstant a.instant.toNat with
      | some found =>
          have hfound := DateTime.ofInstant_eq_some.mp hutc
          constructor
          · intro h
            cases h
            omega
          · intro h
            have hinstant : a.instant.toNat = utc.instant := by omega
            rw [hinstant, DateTime.ofInstant_instant] at hutc
            cases hutc
            rfl
      | none =>
          constructor
          · intro h
            cases h
          · intro h
            have hinstant : a.instant.toNat = utc.instant := by omega
            rw [hinstant, DateTime.ofInstant_instant] at hutc
            cases hutc
  · next hneg =>
      constructor
      · intro h
        cases h
      · intro h
        omega

theorem awareUtc_eq_ok :
    awareUtc (.aware a) = .ok s ↔ ∃ utc : DateTime, (utc.instant : Int) = a.instant ∧ s = utc.isoformat := by
  rw [awareUtc]
  cases h : a.astimezone with
  | ok utc =>
      have hutc := astimezone_eq_ok.mp h
      constructor
      · intro hs
        cases hs
        exact ⟨utc, hutc, rfl⟩
      · rintro ⟨utc', hutc', rfl⟩
        cases h.symm.trans (astimezone_eq_ok.mpr hutc')
        rfl
  | error e =>
      constructor
      · intro hs
        cases hs
      · rintro ⟨utc, hutc, -⟩
        cases h.symm.trans (astimezone_eq_ok.mpr hutc)

/-- Texts are ordered like the instants they encode. -/
theorem awareUtc_lt (ha : awareUtc (.aware a) = .ok s) (hb : awareUtc (.aware b) = .ok t) :
    s < t ↔ a.instant < b.instant := by
  obtain ⟨ua, hua, rfl⟩ := awareUtc_eq_ok.mp ha
  obtain ⟨ub, hub, rfl⟩ := awareUtc_eq_ok.mp hb
  rw [DateTime.isoformat_lt_iff]
  omega

theorem awareUtc_inj (ha : awareUtc (.aware a) = .ok s) (hb : awareUtc (.aware b) = .ok t) :
    s = t ↔ a.instant = b.instant := by
  have hlt := awareUtc_lt ha hb
  have hgt := awareUtc_lt hb ha
  constructor
  · rintro rfl
    have hnlt := mt hlt.mpr (lt_irrefl s)
    have hngt := mt hgt.mpr (lt_irrefl s)
    omega
  · intro heq
    refine le_antisymm (not_lt.mp fun h => ?_) (not_lt.mp fun h => ?_)
    · have hba := hgt.mp h
      omega
    · have hab := hlt.mp h
      omega

/-- What is found due is due at that instant. -/
theorem alertDue_iff (expiry : Option AwareTime) {e : Option Text}
    (ha : awareUtc (.aware a) = .ok s) (hb : awareUtc (.aware b) = .ok t)
    (he : ∀ x ∈ e, ∃ c ∈ expiry, awareUtc (.aware c) = .ok x) (hnone : e = none → expiry = none) :
    alertDue s e t = true ↔ a.instant ≤ b.instant ∧ ∀ c ∈ expiry, b.instant < c.instant := by
  have hdue : s ≤ t ↔ a.instant ≤ b.instant := by
    rw [← not_lt, ← not_lt, awareUtc_lt hb ha]
  rw [alertDue, Bool.and_eq_true, decide_eq_true_eq, hdue]
  cases e with
  | none => simp [hnone rfl]
  | some x =>
      obtain ⟨c, hc, hx⟩ := he x rfl
      cases hc
      simp [awareUtc_lt hb hx]

end Texts

/-- A time with a zone has a text exactly when UTC has a time for its instant, and two texts
are compared, and equal, like the instants. -/
theorem utc_texts_ordered :
    (∀ a : AwareTime, (∃ s, awareUtc (.aware a) = .ok s) ↔
      ∃ utc : DateTime, (utc.instant : Int) = a.instant) ∧
    (∀ (a b : AwareTime) (s t : Text), awareUtc (.aware a) = .ok s → awareUtc (.aware b) = .ok t →
      (s < t ↔ a.instant < b.instant) ∧ (s = t ↔ a.instant = b.instant)) ∧
    ∀ now : DateTime, awareUtc (.aware ⟨now, 0, by decide⟩) = .ok (utcNow now) := by
  refine ⟨fun a => ⟨?_, ?_⟩, fun a b s t ha hb => ⟨awareUtc_lt ha hb, awareUtc_inj ha hb⟩, fun now => ?_⟩
  · rintro ⟨s, hs⟩
    obtain ⟨utc, hutc, -⟩ := awareUtc_eq_ok.mp hs
    exact ⟨utc, hutc⟩
  · rintro ⟨utc, hutc⟩
    exact ⟨_, awareUtc_eq_ok.mpr ⟨utc, hutc, rfl⟩⟩
  · have hnow : (now.instant : Int) = now.instant - 0 := by omega
    exact awareUtc_eq_ok.mpr ⟨now, hnow, rfl⟩

/-- One o'clock of a clock that runs an hour ahead, and half a second past midnight in UTC. -/
theorem utc_texts_ordered_example :
    ∃ s t, awareUtc (.aware ⟨⟨2024, 2, 29, 1, 0, 0, 0, by decide⟩, 3600000000, by decide⟩) = .ok s ∧
      awareUtc (.aware ⟨⟨2024, 2, 29, 0, 0, 0, 500000, by decide⟩, 0, by decide⟩) = .ok t ∧ s < t := by
  have hs := (utc_texts_ordered.1 ⟨⟨2024, 2, 29, 1, 0, 0, 0, by decide⟩, 3600000000, by decide⟩).mpr
    ⟨⟨2024, 2, 29, 0, 0, 0, 0, by decide⟩, by decide⟩
  have ht := (utc_texts_ordered.1 ⟨⟨2024, 2, 29, 0, 0, 0, 500000, by decide⟩, 0, by decide⟩).mpr
    ⟨⟨2024, 2, 29, 0, 0, 0, 500000, by decide⟩, by decide⟩
  obtain ⟨s, hs⟩ := hs
  obtain ⟨t, ht⟩ := ht
  exact ⟨s, t, hs, ht, (utc_texts_ordered.2.1 _ _ s t hs ht).1.mpr (by decide)⟩

/-! ## The alert that is looked for -/

/-- A time in the database: the text, and the time it was written for, which no query reads. -/
structure UtcText where
  time : AwareTime
  text : Text
  written : awareUtc (.aware time) = .ok text

/-- A row of `alert_projection` with the `seq` of its envelope. -/
structure AlertRow where
  ref : AlertRef
  seq : ℕ
  status : AlertStatus
  notBefore : UtcText
  expiresAt : Option UtcText

/-- `WHERE status='pending' AND not_before<=? AND (expires_at IS NULL OR expires_at>?)`. -/
def AlertRow.found (now : UtcText) (r : AlertRow) : Bool :=
  decide (r.status = .pending) && alertDue r.notBefore.text (r.expiresAt.map UtcText.text) now.text

/-- `ORDER BY not_before, seq`. -/
def AlertRow.Before (r r' : AlertRow) : Prop :=
  r.notBefore.text < r'.notBefore.text ∨ r.notBefore.text = r'.notBefore.text ∧ r.seq ≤ r'.seq

instance : DecidableRel AlertRow.Before := fun _ _ => inferInstanceAs (Decidable (_ ∨ _ ∧ _))

/-- `peek_alert`. -/
def peekAlert (now : UtcText) (rows : List AlertRow) : Option AlertRef :=
  (((rows.filter (·.found now)).insertionSort AlertRow.Before).head?).map AlertRow.ref

/-- The alert is pending, its time has come and it has not expired. -/
def AlertRow.Due (now : AwareTime) (r : AlertRow) : Prop :=
  r.status = .pending ∧ r.notBefore.time.instant ≤ now.instant ∧
    ∀ expiry ∈ r.expiresAt, now.instant < expiry.time.instant

theorem AlertRow.found_iff {now : UtcText} {r : AlertRow} : r.found now = true ↔ r.Due now.time := by
  rw [AlertRow.found, Bool.and_eq_true, decide_eq_true_eq, AlertRow.Due]
  refine and_congr_right fun _ => ?_
  rw [alertDue_iff (r.expiresAt.map UtcText.time) r.notBefore.written now.written]
  · simp
  · intro x hx
    obtain ⟨expiry, he, rfl⟩ := Option.map_eq_some_iff.mp hx
    exact ⟨expiry.time, by simp [he], expiry.written⟩
  · intro hnone
    rw [Option.map_eq_none_iff.mp hnone]
    rfl

theorem AlertRow.before_iff {r r' : AlertRow} : r.Before r' ↔
    r.notBefore.time.instant < r'.notBefore.time.instant ∨
      r.notBefore.time.instant = r'.notBefore.time.instant ∧ r.seq ≤ r'.seq := by
  rw [AlertRow.Before, awareUtc_lt r.notBefore.written r'.notBefore.written,
    awareUtc_inj r.notBefore.written r'.notBefore.written]

theorem AlertRow.before_total (r r' : AlertRow) : r.Before r' ∨ r'.Before r := by
  rw [before_iff, before_iff]
  omega

theorem AlertRow.before_trans {r r' r'' : AlertRow} (h : r.Before r') (h' : r'.Before r'') : r.Before r'' := by
  rw [before_iff] at *
  omega

/-- The query finds nothing exactly when nothing is due, and what it finds is the earliest of what is due, by
the instants: neither the offsets of the clocks nor the lengths of the texts matter. -/
theorem peekAlert_earliest (now : UtcText) (rows : List AlertRow) :
    (peekAlert now rows = none ↔ ∀ r ∈ rows, ¬ r.Due now.time) ∧
    ∀ ref, peekAlert now rows = some ref → ∃ r ∈ rows, r.ref = ref ∧ r.Due now.time ∧
      ∀ r' ∈ rows, r'.Due now.time → r.notBefore.time.instant < r'.notBefore.time.instant ∨
        r.notBefore.time.instant = r'.notBefore.time.instant ∧ r.seq ≤ r'.seq := by
  have : Std.Total AlertRow.Before := ⟨AlertRow.before_total⟩
  have : IsTrans AlertRow AlertRow.Before := ⟨fun _ _ _ => AlertRow.before_trans⟩
  have hperm := List.perm_insertionSort AlertRow.Before (rows.filter (·.found now))
  have hsorted := List.pairwise_insertionSort AlertRow.Before (rows.filter (·.found now))
  have hmem (r : AlertRow) : r ∈ (rows.filter (·.found now)).insertionSort AlertRow.Before ↔
      r ∈ rows ∧ r.Due now.time := by
    rw [hperm.mem_iff, List.mem_filter, AlertRow.found_iff]
  rw [peekAlert]
  cases hlist : (rows.filter (·.found now)).insertionSort AlertRow.Before with
  | nil =>
      rw [hlist] at hmem
      refine ⟨iff_of_true rfl fun r hr hdue => ?_, fun ref href => by cases href⟩
      exact List.not_mem_nil ((hmem r).mpr ⟨hr, hdue⟩)
  | cons r rest =>
      rw [hlist] at hmem hsorted
      obtain ⟨hr, hdue⟩ := (hmem r).mp (List.mem_cons_self ..)
      refine ⟨iff_of_false (fun hnone => by cases hnone) fun hno => hno r hr hdue, fun ref href => ?_⟩
      refine ⟨r, hr, Option.some.inj href, hdue, fun r' hr' hdue' => AlertRow.before_iff.mp ?_⟩
      rcases List.mem_cons.mp ((hmem r').mpr ⟨hr', hdue'⟩) with rfl | hrest
      · exact (AlertRow.before_total r' r').elim id id
      · exact List.rel_of_pairwise_cons hsorted hrest

/-- The text of a time, given the time of UTC. -/
def UtcText.of (time : AwareTime) (utc : DateTime) (h : (utc.instant : Int) = time.instant) : UtcText where
  time
  text := utc.isoformat
  written := awareUtc_eq_ok.mpr ⟨utc, h, rfl⟩

/-- One o'clock of a clock an hour ahead comes before half past midnight of UTC, unless it has expired. -/
example : ∃ one half now : UtcText,
    peekAlert now [⟨⟨"s", "half", "m"⟩, 1, .pending, half, none⟩, ⟨⟨"s", "one", "n"⟩, 2, .pending, one, none⟩] =
      some ⟨"s", "one", "n"⟩ ∧
    peekAlert now [⟨⟨"s", "half", "m"⟩, 1, .pending, half, none⟩, ⟨⟨"s", "one", "n"⟩, 2, .pending, one, some half⟩] =
      some ⟨"s", "half", "m"⟩ := by
  refine ⟨.of ⟨⟨2024, 2, 29, 1, 0, 0, 0, by decide⟩, 3600000000, by decide⟩ ⟨2024, 2, 29, 0, 0, 0, 0, by decide⟩ (by decide),
    .of ⟨⟨2024, 2, 29, 0, 30, 0, 0, by decide⟩, 0, by decide⟩ ⟨2024, 2, 29, 0, 30, 0, 0, by decide⟩ (by decide),
    .of ⟨⟨2024, 2, 29, 0, 45, 0, 0, by decide⟩, 0, by decide⟩ ⟨2024, 2, 29, 0, 45, 0, 0, by decide⟩ (by decide), ?_⟩
  decide

end MonoAgent.EventMail
