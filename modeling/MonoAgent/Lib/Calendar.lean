import Mathlib

/-!
# Dates, times and their text

A time of the Gregorian calendar in UTC, the microseconds it stands for, and its ISO text.
Times are ordered like their fields, like their instants and like their texts, so that a
comparison of texts is one of times; a text is read back as the time it was written from.
-/

namespace MonoAgent.Lib

/-- A text, as its code points. -/
abbrev Text := List Nat

/-- The code points of a string. -/
def text (s : String) : Text := s.toList.map Char.toNat

theorem text_injective {a b : String} (h : text a = text b) : a = b := by
  apply String.toList_inj.mp
  exact List.map_injective_iff.mpr (fun _ _ hc => Char.toNat_inj.mp hc) h

/-! ## Lists compared by blocks -/

theorem append_lt_append {p q r s : List Nat} (hlen : p.length = q.length) :
    p ++ r < q ++ s ↔ p < q ∨ p = q ∧ r < s := by
  induction p generalizing q with
  | nil =>
      cases q with
      | nil => simp
      | cons b q => cases hlen
  | cons a p ih =>
      cases q with
      | nil => cases hlen
      | cons b q =>
          rw [List.cons_append, List.cons_append, List.cons_lt_cons_iff, List.cons_lt_cons_iff,
            ih (Nat.succ.inj hlen), List.cons.injEq]
          tauto

/-- The last `w` digits of a number. -/
def pad : Nat → Nat → Text
  | 0, _ => []
  | w + 1, n => pad w (n / 10) ++ [48 + n % 10]

theorem pad_length (w n : Nat) : (pad w n).length = w := by
  induction w generalizing n with
  | zero => rfl
  | succ w ih => rw [pad, List.length_append, ih]; rfl

theorem pad_lt {w n m : Nat} (hn : n < 10 ^ w) (hm : m < 10 ^ w) : pad w n < pad w m ↔ n < m := by
  induction w generalizing n m with
  | zero =>
      have hn' : n = 0 := by simpa using hn
      have hm' : m = 0 := by simpa using hm
      subst hn' hm'
      simp [pad]
  | succ w ih =>
      have hn' : n / 10 < 10 ^ w := by rw [Nat.div_lt_iff_lt_mul (by norm_num)]; rwa [pow_succ] at hn
      have hm' : m / 10 < 10 ^ w := by rw [Nat.div_lt_iff_lt_mul (by norm_num)]; rwa [pow_succ] at hm
      have hdigits : pad w (n / 10) = pad w (m / 10) ↔ n / 10 = m / 10 := by
        refine ⟨fun heq => ?_, fun heq => by rw [heq]⟩
        have hle := (ih hn' hm').not.mp (heq ▸ lt_irrefl _)
        have hge := (ih hm' hn').not.mp (heq ▸ lt_irrefl _)
        omega
      rw [pad, pad, append_lt_append (by rw [pad_length, pad_length]), ih hn' hm', hdigits, List.cons_lt_cons_iff]
      simp only [List.not_lt_nil, and_false, or_false]
      omega

theorem pad_inj {w n m : Nat} (hn : n < 10 ^ w) (hm : m < 10 ^ w) : pad w n = pad w m ↔ n = m := by
  refine ⟨fun heq => ?_, fun heq => by rw [heq]⟩
  have hle := (pad_lt hn hm).not.mp (heq ▸ lt_irrefl _)
  have hge := (pad_lt hm hn).not.mp (heq ▸ lt_irrefl _)
  omega

/-- The number that digits spell. -/
def readNat (t : Text) : Nat := t.foldl (fun n c => 10 * n + (c - 48)) 0

theorem readNat_pad {w n : Nat} (hn : n < 10 ^ w) : readNat (pad w n) = n := by
  induction w generalizing n with
  | zero =>
      have hn' : n = 0 := by simpa using hn
      rw [hn']
      rfl
  | succ w ih =>
      have hn' : n / 10 < 10 ^ w := by rw [Nat.div_lt_iff_lt_mul (by norm_num)]; rwa [pow_succ] at hn
      have hstep : readNat (pad (w + 1) n) = 10 * readNat (pad w (n / 10)) + n % 10 := by
        rw [readNat, pad, List.foldl_append]
        show 10 * _ + (48 + n % 10 - 48) = _
        rw [Nat.add_sub_cancel_left]
        rfl
      rw [hstep, ih hn']
      omega

/-! ## The calendar -/

def isLeap (year : Nat) : Bool := year % 4 = 0 ∧ (year % 100 ≠ 0 ∨ year % 400 = 0)

def daysInMonth (year month : Nat) : Nat :=
  if month = 2 then if isLeap year then 29 else 28
  else if month = 4 ∨ month = 6 ∨ month = 9 ∨ month = 11 then 30
  else 31

/-- A time in UTC. -/
structure DateTime where
  year : Nat
  month : Nat
  day : Nat
  hour : Nat
  minute : Nat
  second : Nat
  microsecond : Nat
  valid : (1 ≤ year ∧ year ≤ 9999) ∧ (1 ≤ month ∧ month ≤ 12) ∧ (1 ≤ day ∧ day ≤ daysInMonth year month) ∧
    hour < 24 ∧ minute < 60 ∧ second < 60 ∧ microsecond < 1000000
deriving DecidableEq

namespace DateTime

def fields (t : DateTime) : List Nat := [t.year, t.month, t.day, t.hour, t.minute, t.second, t.microsecond]

def daysBeforeYear (year : Nat) : Nat :=
  (year - 1) * 365 + (year - 1) / 4 + (year - 1) / 400 - (year - 1) / 100

def daysBeforeMonth (year : Nat) : Nat → Nat
  | 0 => 0
  | 1 => 0
  | month + 2 => daysBeforeMonth year (month + 1) + daysInMonth year (month + 1)

/-- Days since the year one. -/
def ordinal (t : DateTime) : Nat := daysBeforeYear t.year + daysBeforeMonth t.year t.month + t.day

/-- Microseconds since the year one. -/
def instant (t : DateTime) : Nat :=
  (((t.ordinal * 24 + t.hour) * 60 + t.minute) * 60 + t.second) * 1000000 + t.microsecond

theorem daysBeforeYear_succ (year : Nat) (h : 1 ≤ year) :
    daysBeforeYear (year + 1) = daysBeforeYear year + if isLeap year then 366 else 365 := by
  obtain ⟨y, rfl⟩ := Nat.exists_eq_add_of_le' h
  have hle : y / 100 ≤ y * 365 := (Nat.div_le_self ..).trans (Nat.le_mul_of_pos_right _ (by norm_num))
  have hfour : 100 ∣ y + 1 → 4 ∣ y + 1 := dvd_trans (by decide)
  have hhundred : 400 ∣ y + 1 → 100 ∣ y + 1 := dvd_trans (by decide)
  have hleap : isLeap (y + 1) = true ↔ 4 ∣ y + 1 ∧ (¬ 100 ∣ y + 1 ∨ 400 ∣ y + 1) := by
    rw [isLeap, decide_eq_true_iff, Nat.dvd_iff_mod_eq_zero, Nat.dvd_iff_mod_eq_zero, Nat.dvd_iff_mod_eq_zero]
  simp only [daysBeforeYear, Nat.add_sub_cancel, Nat.succ_div, hleap]
  by_cases h4 : 4 ∣ y + 1
  · by_cases h100 : 100 ∣ y + 1
    · by_cases h400 : 400 ∣ y + 1
      · simp only [h4, h100, h400, if_true, and_true, or_true]
        omega
      · simp only [h4, h100, h400, if_true, if_false, and_false, not_true_eq_false, or_false]
        omega
    · have h400 := mt hhundred h100
      simp only [h4, h100, h400, if_true, if_false, and_true, not_false_eq_true, or_false]
      omega
  · have h100 := mt hfour h4
    have h400 := mt hhundred h100
    simp only [h4, h100, h400, if_false, false_and]
    generalize y / 100 = c at hle
    omega

theorem daysBeforeYear_mono {y z : Nat} (h : 1 ≤ y) (hle : y ≤ z) : daysBeforeYear y ≤ daysBeforeYear z := by
  induction z, hle using Nat.le_induction with
  | base => exact le_rfl
  | succ z hz ih =>
      rw [daysBeforeYear_succ _ (h.trans hz)]
      exact ih.trans (Nat.le_add_right ..)

theorem daysBeforeMonth_succ (year month : Nat) (h : 1 ≤ month) :
    daysBeforeMonth year (month + 1) = daysBeforeMonth year month + daysInMonth year month := by
  obtain ⟨m, rfl⟩ := Nat.exists_eq_add_of_le' h
  rfl

theorem daysBeforeMonth_mono (year : Nat) {m n : Nat} (h : 1 ≤ m) (hle : m ≤ n) :
    daysBeforeMonth year m ≤ daysBeforeMonth year n := by
  induction n, hle using Nat.le_induction with
  | base => exact le_rfl
  | succ n hn ih =>
      rw [daysBeforeMonth_succ _ _ (h.trans hn)]
      exact ih.trans (Nat.le_add_right ..)

theorem daysBeforeMonth_year (year : Nat) :
    daysBeforeMonth year 13 = if isLeap year then 366 else 365 := by
  cases h : isLeap year <;> simp [daysBeforeMonth, daysInMonth, h]

/-- The days of a date are those of its year, its months and its month. -/
theorem ordinal_bounds (t : DateTime) : daysBeforeYear t.year < t.ordinal ∧
    t.ordinal ≤ daysBeforeYear t.year + daysBeforeMonth t.year (t.month + 1) ∧
    t.ordinal ≤ daysBeforeYear (t.year + 1) := by
  obtain ⟨⟨hy, -⟩, ⟨hm, hm'⟩, ⟨hd, hd'⟩, -⟩ := t.valid
  have hyear := daysBeforeMonth_mono t.year (Nat.le_add_left 1 t.month) (Nat.succ_le_succ hm')
  rw [daysBeforeMonth_year] at hyear
  rw [daysBeforeYear_succ _ hy]
  have hmonth := daysBeforeMonth_succ t.year _ hm
  unfold ordinal
  omega

theorem ordinal_lt {s t : DateTime}
    (h : s.year < t.year ∨ s.year = t.year ∧ (s.month < t.month ∨ s.month = t.month ∧ s.day < t.day)) :
    s.ordinal < t.ordinal := by
  obtain ⟨-, hs, hs'⟩ := s.ordinal_bounds
  obtain ⟨ht, -, -⟩ := t.ordinal_bounds
  rcases h with hyear | ⟨hyear, hmonth | ⟨hmonth, hday⟩⟩
  · have hmono := daysBeforeYear_mono (y := s.year + 1) (z := t.year) (by omega) hyear
    omega
  · have hmono := daysBeforeMonth_mono t.year (Nat.le_add_left 1 s.month) hmonth
    obtain ⟨-, -, ⟨hd, -⟩, -⟩ := t.valid
    have hord : t.ordinal = daysBeforeYear t.year + daysBeforeMonth t.year t.month + t.day := rfl
    rw [hyear] at hs
    omega
  · unfold ordinal
    rw [hyear, hmonth]
    omega

theorem instant_lt_of_fields {s t : DateTime} (h : s.fields < t.fields) : s.instant < t.instant := by
  simp only [fields, List.cons_lt_cons_iff, List.not_lt_nil, and_false, or_false] at h
  obtain ⟨-, -, -, hs⟩ := s.valid
  obtain ⟨-, -, -, ht⟩ := t.valid
  have hdate : s.ordinal < t.ordinal ∨ s.ordinal = t.ordinal ∧ (s.hour < t.hour ∨ s.hour = t.hour ∧
      (s.minute < t.minute ∨ s.minute = t.minute ∧ (s.second < t.second ∨ s.second = t.second ∧
        s.microsecond < t.microsecond))) := by
    rcases h with h | ⟨hy, h | ⟨hm, h | ⟨hd, h⟩⟩⟩
    · exact Or.inl (ordinal_lt (Or.inl h))
    · exact Or.inl (ordinal_lt (Or.inr ⟨hy, Or.inl h⟩))
    · exact Or.inl (ordinal_lt (Or.inr ⟨hy, Or.inr ⟨hm, h⟩⟩))
    · exact Or.inr ⟨by unfold ordinal; rw [hy, hm, hd], h⟩
  unfold instant
  omega

theorem eq_of_fields {s t : DateTime} (h : s.fields = t.fields) : s = t := by
  cases s
  cases t
  simp only [fields, List.cons.injEq] at h
  obtain ⟨rfl, rfl, rfl, rfl, rfl, rfl, rfl, -⟩ := h
  rfl

theorem instant_lt_iff {s t : DateTime} : s.instant < t.instant ↔ s.fields < t.fields := by
  refine ⟨fun h => ?_, instant_lt_of_fields⟩
  rcases lt_trichotomy s.fields t.fields with hlt | heq | hgt
  · exact hlt
  · rw [eq_of_fields heq] at h
    exact absurd h (lt_irrefl _)
  · exact absurd (instant_lt_of_fields hgt) (not_lt.mpr h.le)

/-! ## Days back -/

/-- The microseconds of a day. -/
def dayLength : Nat := 24 * 60 * 60 * 1000000

/-- The day before, of which the first day of the calendar has none. -/
def previousDay (t : DateTime) : Option DateTime :=
  if hd : 1 < t.day then
    some { t with
      day := t.day - 1
      valid := by
        obtain ⟨hy, hm, hday, hrest⟩ := t.valid
        exact ⟨hy, hm, ⟨by omega, by omega⟩, hrest⟩ }
  else if hm : 1 < t.month then
    some { t with
      month := t.month - 1
      day := daysInMonth t.year (t.month - 1)
      valid := by
        obtain ⟨hy, hmonth, -, hrest⟩ := t.valid
        refine ⟨hy, ⟨by omega, by omega⟩, ⟨?_, le_rfl⟩, hrest⟩
        unfold daysInMonth
        split_ifs <;> omega }
  else if hy : 1 < t.year then
    some { t with
      year := t.year - 1
      month := 12
      day := 31
      valid := by
        obtain ⟨hyear, -, -, hrest⟩ := t.valid
        exact ⟨⟨by omega, by omega⟩, ⟨by omega, by omega⟩, ⟨by omega, by simp [daysInMonth]⟩, hrest⟩ }
  else none

theorem previousDay_instant {s t : DateTime} (h : t.previousDay = some s) :
    s.instant + dayLength = t.instant := by
  obtain ⟨⟨hy, -⟩, ⟨hm, -⟩, ⟨hd, -⟩, -⟩ := t.valid
  have hord : s.ordinal + 1 = t.ordinal ∧ s.hour = t.hour ∧ s.minute = t.minute ∧ s.second = t.second ∧
      s.microsecond = t.microsecond := by
    unfold previousDay at h
    split at h
    · cases Option.some.inj h
      refine ⟨?_, rfl, rfl, rfl, rfl⟩
      simp only [ordinal]
      omega
    · split at h
      · next hday hmonth =>
          cases Option.some.inj h
          refine ⟨?_, rfl, rfl, rfl, rfl⟩
          have hsucc := daysBeforeMonth_succ t.year (t.month - 1) (by omega)
          rw [Nat.sub_add_cancel hm] at hsucc
          simp only [ordinal]
          omega
      · split at h
        · next hday hmonth hyear =>
            cases Option.some.inj h
            refine ⟨?_, rfl, rfl, rfl, rfl⟩
            have hmonth' : t.month = 1 := by omega
            have hsucc := daysBeforeYear_succ (t.year - 1) (by omega)
            have hthirteen := daysBeforeMonth_year (t.year - 1)
            rw [Nat.sub_add_cancel hy] at hsucc
            rw [daysBeforeMonth_succ _ _ (by norm_num)] at hthirteen
            have hdec : daysInMonth (t.year - 1) 12 = 31 := by simp [daysInMonth]
            have hjan : daysBeforeMonth t.year 1 = 0 := rfl
            simp only [ordinal, hmonth', hjan]
            omega
        · cases h
  obtain ⟨h₁, h₂, h₃, h₄, h₅⟩ := hord
  unfold instant dayLength
  omega

/-- `days` days earlier, unless the calendar starts later. -/
def daysEarlier : Nat → DateTime → Option DateTime
  | 0, t => some t
  | n + 1, t => t.previousDay.bind (daysEarlier n)

theorem daysEarlier_instant {n : Nat} {s t : DateTime} (h : daysEarlier n t = some s) :
    s.instant + n * dayLength = t.instant := by
  induction n generalizing t with
  | zero =>
      cases Option.some.inj h
      omega
  | succ n ih =>
      obtain ⟨u, hu, hs⟩ := Option.bind_eq_some_iff.mp h
      have hday := previousDay_instant hu
      have hrest := ih hs
      rw [Nat.succ_mul]
      omega

/-! ## Text -/

/-- `YYYY-MM-DDTHH:MM:SS`, the microseconds when there are any, and the offset. -/
def isoformat (t : DateTime) : Text :=
  pad 4 t.year ++ 45 :: (pad 2 t.month ++ 45 :: (pad 2 t.day ++ 84 :: (pad 2 t.hour ++ 58 :: (pad 2 t.minute ++
    58 :: (pad 2 t.second ++ ((if t.microsecond = 0 then [] else 46 :: pad 6 t.microsecond) ++ [43, 48, 48, 58, 48, 48]))))))

theorem pad_ascii {w n c : Nat} (h : c ∈ pad w n) : c < 128 := by
  induction w generalizing n with
  | zero => exact absurd h List.not_mem_nil
  | succ w ih =>
      rcases List.mem_append.mp h with h | h
      · exact ih h
      · have hc := List.mem_singleton.mp h
        omega

theorem isoformat_ascii {t : DateTime} {c : Nat} (h : c ∈ t.isoformat) : c < 128 := by
  have hoffset : ∀ c ∈ ([43, 48, 48, 58, 48, 48] : Text), c < 128 := by decide
  have hfraction : ∀ c ∈ (if t.microsecond = 0 then ([] : Text) else 46 :: pad 6 t.microsecond), c < 128 := by
    split
    · exact fun c hc => absurd hc List.not_mem_nil
    · exact List.forall_mem_cons.mpr ⟨by norm_num, fun c hc => pad_ascii hc⟩
  simp only [isoformat, List.mem_append, List.mem_cons] at h
  rcases h with h | rfl | h | rfl | h | rfl | h | rfl | h | rfl | h | h | h
  · exact pad_ascii h
  · norm_num
  · exact pad_ascii h
  · norm_num
  · exact pad_ascii h
  · norm_num
  · exact pad_ascii h
  · norm_num
  · exact pad_ascii h
  · norm_num
  · exact pad_ascii h
  · exact hfraction c h
  · exact hoffset c (by simpa using h)

/-- One field and its separator before the rest of a text. -/
theorem field_lt {w n m c : Nat} {r s : Text} (hn : n < 10 ^ w) (hm : m < 10 ^ w) :
    pad w n ++ c :: r < pad w m ++ c :: s ↔ n < m ∨ n = m ∧ r < s := by
  rw [append_lt_append (by rw [pad_length, pad_length]), pad_lt hn hm, pad_inj hn hm, List.cons_lt_cons_iff]
  simp

theorem fraction_lt {n m : Nat} (hn : n < 10 ^ 6) (hm : m < 10 ^ 6) :
    (if n = 0 then ([] : Text) else 46 :: pad 6 n) ++ [43, 48, 48, 58, 48, 48] <
      (if m = 0 then ([] : Text) else 46 :: pad 6 m) ++ [43, 48, 48, 58, 48, 48] ↔ n < m := by
  rcases Nat.eq_zero_or_pos n with rfl | hn' <;> rcases Nat.eq_zero_or_pos m with rfl | hm'
  · simp
  · rw [if_pos rfl, if_neg hm'.ne', List.nil_append, List.cons_append, List.cons_lt_cons_iff]
    simp [hm']
  · rw [if_pos rfl, if_neg hn'.ne', List.nil_append, List.cons_append, List.cons_lt_cons_iff]
    simp
  · rw [if_neg hn'.ne', if_neg hm'.ne', List.cons_append, List.cons_append, List.cons_lt_cons_iff,
      append_lt_append (by rw [pad_length, pad_length]), pad_lt hn hm]
    simp

/-- Texts are ordered like the times they stand for. -/
theorem isoformat_lt_iff {s t : DateTime} : s.isoformat < t.isoformat ↔ s.instant < t.instant := by
  have hday (y m : Nat) : daysInMonth y m ≤ 31 := by
    unfold daysInMonth
    split_ifs <;> omega
  obtain ⟨⟨-, hsy⟩, ⟨-, hsm⟩, ⟨-, hsd⟩, hsh, hsi, hss, hsu⟩ := s.valid
  obtain ⟨⟨-, hty⟩, ⟨-, htm⟩, ⟨-, htd⟩, hth, hti, hts, htu⟩ := t.valid
  have hsd' := hsd.trans (hday ..)
  have htd' := htd.trans (hday ..)
  unfold isoformat
  rw [field_lt (by omega) (by omega), field_lt (by omega) (by omega), field_lt (by omega) (by omega),
    field_lt (by omega) (by omega), field_lt (by omega) (by omega),
    append_lt_append (by rw [pad_length, pad_length]), pad_lt (by omega) (by omega), pad_inj (by omega) (by omega),
    fraction_lt (by omega) (by omega), instant_lt_iff]
  simp only [fields, List.cons_lt_cons_iff, List.not_lt_nil, and_false, or_false]

/-- The number that the next `w` digits of a text spell, before a separator. -/
def takeField (w c : Nat) (t : Text) : Option (Nat × Text) :=
  if (t.drop w).head? = some c then some (readNat (t.take w), t.drop (w + 1)) else none

theorem takeField_pad {w n c : Nat} {r : Text} (hn : n < 10 ^ w) : takeField w c (pad w n ++ c :: r) = some (n, r) := by
  have hlen := pad_length w n
  have hdrop : (pad w n ++ c :: r).drop w = c :: r := by rw [List.drop_left' hlen]
  have htail : (pad w n ++ c :: r).drop (w + 1) = r := by
    rw [← List.drop_drop, hdrop]
    rfl
  rw [takeField, hdrop, htail, List.take_left' hlen, readNat_pad hn, List.head?_cons, if_pos rfl]

/-- The microseconds, if any, and the offset. -/
def fraction (t : Text) : Option Nat :=
  if t = [43, 48, 48, 58, 48, 48] then some 0
  else if t.head? = some 46 then (takeField 6 43 t.tail).map Prod.fst
  else none

/-- The time that a text of this form stands for. -/
def fromisoformat (t : Text) : Option DateTime := do
  let (year, t) ← takeField 4 45 t
  let (month, t) ← takeField 2 45 t
  let (day, t) ← takeField 2 84 t
  let (hour, t) ← takeField 2 58 t
  let (minute, t) ← takeField 2 58 t
  let second := readNat (t.take 2)
  let microsecond ← fraction (t.drop 2)
  if h : (1 ≤ year ∧ year ≤ 9999) ∧ (1 ≤ month ∧ month ≤ 12) ∧ (1 ≤ day ∧ day ≤ daysInMonth year month) ∧
      hour < 24 ∧ minute < 60 ∧ second < 60 ∧ microsecond < 1000000 then
    some ⟨year, month, day, hour, minute, second, microsecond, h⟩
  else none

theorem fraction_text {n : Nat} (hn : n < 10 ^ 6) :
    fraction ((if n = 0 then ([] : Text) else 46 :: pad 6 n) ++ [43, 48, 48, 58, 48, 48]) = some n := by
  rcases Nat.eq_zero_or_pos n with rfl | hn'
  · rfl
  · rw [if_neg hn'.ne', fraction, if_neg (by simp), List.cons_append, List.head?_cons, if_pos rfl]
    show (takeField 6 43 (pad 6 n ++ 43 :: _)).map Prod.fst = some n
    rw [takeField_pad hn]
    rfl

/-- A text is read back as the time it was written from. -/
theorem fromisoformat_isoformat (t : DateTime) : fromisoformat t.isoformat = some t := by
  have hday (y m : Nat) : daysInMonth y m ≤ 31 := by
    unfold daysInMonth
    split_ifs <;> omega
  obtain ⟨⟨-, hy⟩, ⟨-, hm⟩, ⟨-, hd⟩, hh, hi, hs, hu⟩ := t.valid
  have hd' := hd.trans (hday ..)
  have hlen := pad_length 2 t.second
  unfold fromisoformat isoformat
  simp only [Option.bind_eq_bind, takeField_pad (show t.year < 10 ^ 4 by omega), Option.bind_some,
    takeField_pad (show t.month < 10 ^ 2 by omega), takeField_pad (show t.day < 10 ^ 2 by omega),
    takeField_pad (show t.hour < 10 ^ 2 by omega), takeField_pad (show t.minute < 10 ^ 2 by omega),
    List.take_left' hlen, List.drop_left' hlen, readNat_pad (show t.second < 10 ^ 2 by omega),
    fraction_text (show t.microsecond < 10 ^ 6 by omega)]
  rw [dif_pos t.valid]

end DateTime

end MonoAgent.Lib
