import MonoAgent.Lib.Calendar

/-!
# Times from their microseconds, and texts of one length

`ofInstant` finds the time a number of microseconds stands for, if there is one: the year
and the month are the first ones that end late enough.  `isoMicroseconds` writes the microseconds of every
time, so all its texts are of one length and what stands behind two of them is compared
only when the times are equal.
-/

namespace MonoAgent.Lib.DateTime

/-! ## From microseconds -/

/-- The first year that does not end before a day. -/
def yearOf (day : Nat) : Option Nat :=
  (List.range' 1 9999).find? fun year => day ≤ daysBeforeYear (year + 1)

/-- The first month of a year that does not end before a day of it. -/
def monthOf (year day : Nat) : Option Nat :=
  (List.range' 1 12).find? fun month => day ≤ daysBeforeMonth year (month + 1)

/-- The time of a date and the microseconds within its day. -/
def ofDate (year month day n : Nat) : Option DateTime :=
  if h : (1 ≤ year ∧ year ≤ 9999) ∧ (1 ≤ month ∧ month ≤ 12) ∧ 1 ≤ day ∧ day ≤ daysInMonth year month then
    some
      { year, month, day
        hour := n / 3600000000 % 24
        minute := n / 60000000 % 60
        second := n / 1000000 % 60
        microsecond := n % 1000000
        valid := ⟨h.1, h.2.1, h.2.2, Nat.mod_lt _ (by decide), Nat.mod_lt _ (by decide),
          Nat.mod_lt _ (by decide), Nat.mod_lt _ (by decide)⟩ }
  else none

/-- The time of a number of microseconds since the year one. -/
def ofInstant (n : Nat) : Option DateTime :=
  let day := n / dayLength
  (yearOf day).bind fun year =>
    (monthOf year (day - daysBeforeYear year)).bind fun month =>
      ofDate year month (day - daysBeforeYear year - daysBeforeMonth year month) n

theorem yearOf_ordinal (t : DateTime) : yearOf t.ordinal = some t.year := by
  obtain ⟨⟨hy, hy'⟩, -⟩ := t.valid
  obtain ⟨hbefore, -, hend⟩ := t.ordinal_bounds
  rw [yearOf, List.find?_range'_eq_some]
  refine ⟨decide_eq_true hend, List.mem_range'_1.mpr ⟨hy, by omega⟩, fun year h hlt => ?_⟩
  have hmono := daysBeforeYear_mono (y := year + 1) (z := t.year) (by omega) hlt
  simp
  omega

theorem monthOf_ordinal (t : DateTime) :
    monthOf t.year (t.ordinal - daysBeforeYear t.year) = some t.month := by
  obtain ⟨-, ⟨hm, hm'⟩, ⟨hd, -⟩, -⟩ := t.valid
  obtain ⟨-, hend, -⟩ := t.ordinal_bounds
  have hord : t.ordinal = daysBeforeYear t.year + daysBeforeMonth t.year t.month + t.day := rfl
  rw [monthOf, List.find?_range'_eq_some]
  refine ⟨decide_eq_true (by omega), List.mem_range'_1.mpr ⟨hm, by omega⟩, fun month h hlt => ?_⟩
  have hmono := daysBeforeMonth_mono t.year (m := month + 1) (n := t.month) (by omega) hlt
  simp
  omega

/-- A time is found from its microseconds. -/
theorem ofInstant_instant (t : DateTime) : ofInstant t.instant = some t := by
  obtain ⟨hy, hm, hd, hhour, hminute, hsecond, hmicro⟩ := t.valid
  have hinstant : t.instant =
      (((t.ordinal * 24 + t.hour) * 60 + t.minute) * 60 + t.second) * 1000000 + t.microsecond := rfl
  have hday : t.instant / dayLength = t.ordinal := by
    rw [dayLength]
    omega
  have hrest : t.ordinal - daysBeforeYear t.year - daysBeforeMonth t.year t.month = t.day := by
    rw [ordinal]
    omega
  rw [ofInstant, hday, yearOf_ordinal, Option.bind_some, monthOf_ordinal, Option.bind_some, hrest,
    ofDate, dif_pos ⟨hy, hm, hd⟩]
  refine congrArg some (eq_of_fields ?_)
  simp only [fields, List.cons.injEq, and_true, true_and]
  omega

theorem yearOf_some {day year : Nat} (h : yearOf day = some year) :
    1 ≤ year ∧ (daysBeforeYear year < day ∨ year = 1) := by
  rw [yearOf, List.find?_range'_eq_some] at h
  obtain ⟨-, hmem, hfirst⟩ := h
  have hrange := List.mem_range'_1.mp hmem
  refine ⟨hrange.1, ?_⟩
  by_cases hone : year = 1
  · exact Or.inr hone
  · have hbefore := hfirst (year - 1) (by omega) (by omega)
    rw [Nat.sub_add_cancel hrange.1] at hbefore
    simp at hbefore
    exact Or.inl hbefore

theorem monthOf_some {year day month : Nat} (h : monthOf year day = some month) :
    1 ≤ month ∧ (daysBeforeMonth year month < day ∨ month = 1) := by
  rw [monthOf, List.find?_range'_eq_some] at h
  obtain ⟨-, hmem, hfirst⟩ := h
  have hrange := List.mem_range'_1.mp hmem
  refine ⟨hrange.1, ?_⟩
  by_cases hone : month = 1
  · exact Or.inr hone
  · have hbefore := hfirst (month - 1) (by omega) (by omega)
    rw [Nat.sub_add_cancel hrange.1] at hbefore
    simp at hbefore
    exact Or.inl hbefore

/-- A time is found from the microseconds it stands for and from no others. -/
theorem ofInstant_eq_some {n : Nat} {t : DateTime} : ofInstant n = some t ↔ t.instant = n := by
  constructor
  · intro h
    obtain ⟨year, hyear, h⟩ := Option.bind_eq_some_iff.mp h
    obtain ⟨month, hmonth, h⟩ := Option.bind_eq_some_iff.mp h
    obtain ⟨hy, hyear⟩ := yearOf_some hyear
    obtain ⟨hm, hmonth⟩ := monthOf_some hmonth
    rw [ofDate] at h
    split at h
    · next hvalid =>
        cases h
        obtain ⟨-, -, hd, -⟩ := hvalid
        have hfirst : daysBeforeYear 1 = 0 := rfl
        have hjanuary : daysBeforeMonth year 1 = 0 := rfl
        have hle : daysBeforeYear year + daysBeforeMonth year month ≤ n / dayLength := by
          rcases hyear with hyear | rfl
          · rcases hmonth with hmonth | rfl
            · omega
            · omega
          · rcases hmonth with hmonth | rfl
            · omega
            · omega
        rw [instant, ordinal]
        dsimp only
        rw [dayLength] at hle ⊢
        omega
    · cases h
  · rintro rfl
    exact ofInstant_instant t

/-! ## Text -/

/-- `isoformat(timespec="microseconds")`. -/
def isoMicroseconds (t : DateTime) : Text :=
  pad 4 t.year ++ 45 :: (pad 2 t.month ++ 45 :: (pad 2 t.day ++ 84 :: (pad 2 t.hour ++ 58 ::
    (pad 2 t.minute ++ 58 :: (pad 2 t.second ++ 46 ::
      (pad 6 t.microsecond ++ [43, 48, 48, 58, 48, 48]))))))

/-- Texts that start with a time are ordered by the times first. -/
theorem isoMicroseconds_lt {s t : DateTime} {r u : Text} :
    s.isoMicroseconds ++ r < t.isoMicroseconds ++ u ↔
      s.instant < t.instant ∨ s = t ∧ r < u := by
  have hday (y m : Nat) : daysInMonth y m ≤ 31 := by
    unfold daysInMonth
    split_ifs <;> omega
  obtain ⟨⟨-, hsy⟩, ⟨-, hsm⟩, ⟨-, hsd⟩, hsh, hsi, hss, hsu⟩ := s.valid
  obtain ⟨⟨-, hty⟩, ⟨-, htm⟩, ⟨-, htd⟩, hth, hti, hts, htu⟩ := t.valid
  have hsd' := hsd.trans (hday ..)
  have htd' := htd.trans (hday ..)
  have hequal : s = t ↔ s.year = t.year ∧ s.month = t.month ∧ s.day = t.day ∧ s.hour = t.hour ∧
      s.minute = t.minute ∧ s.second = t.second ∧ s.microsecond = t.microsecond := by
    constructor
    · rintro rfl
      simp
    · intro h
      exact eq_of_fields (by simp [fields, h])
  have hoffset : (43 :: 48 :: 48 :: 58 :: 48 :: 48 :: r : Text) < 43 :: 48 :: 48 :: 58 :: 48 :: 48 :: u ↔
      r < u := by
    simp
  unfold isoMicroseconds
  simp only [List.append_assoc, List.cons_append, List.nil_append]
  rw [field_lt (by omega) (by omega), field_lt (by omega) (by omega), field_lt (by omega) (by omega),
    field_lt (by omega) (by omega), field_lt (by omega) (by omega), field_lt (by omega) (by omega),
    append_lt_append (by rw [pad_length, pad_length]), pad_lt (by omega) (by omega),
    pad_inj (by omega) (by omega), instant_lt_iff, hequal, hoffset]
  simp only [fields, List.cons_lt_cons_iff, List.not_lt_nil, and_false, or_false,
    and_or_left, or_assoc, and_assoc]

end MonoAgent.Lib.DateTime
