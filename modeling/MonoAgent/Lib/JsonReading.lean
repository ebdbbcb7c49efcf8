import MonoAgent.Lib.JsonText

/-!
# What is written is read back

The scanners invert the writers of strings and numbers when what follows cannot go on with
them, and `value` inverts `JsonValue.text` with fuel for twice the length of the text.
-/

namespace MonoAgent.Lib.JsonText

/-! ## Digits -/

section Digits

variable {c n : Nat} {t r : Text}

/-- What may stand behind a value that was written. -/
def Stops (t : Text) : Prop := ∀ c ∈ t.head?, c = 44 ∨ c = 93 ∨ c = 125

theorem Stops.not_digit (h : Stops t) : ∀ c ∈ t.head?, isDigit c = false := by
  intro c hc
  rcases h c hc with rfl | rfl | rfl <;> rfl

theorem takeWhile_digits (ht : ∀ c ∈ t, isDigit c = true) (hr : ∀ c ∈ r.head?, isDigit c = false) :
    (t ++ r).takeWhile isDigit = t ∧ (t ++ r).dropWhile isDigit = r := by
  have hnone : r.takeWhile isDigit = [] ∧ r.dropWhile isDigit = r := by
    cases r with
    | nil => exact ⟨rfl, rfl⟩
    | cons c r =>
        have hc : isDigit c = false := hr c rfl
        simp [hc]
  constructor
  · rw [List.takeWhile_append_of_pos ht, hnone.1, List.append_nil]
  · rw [List.dropWhile_append_of_pos ht, hnone.2]

theorem decimal_digits (n : Nat) : ∀ c ∈ decimal n, isDigit c = true := by
  intro c hc
  rw [decimal] at hc
  split at hc
  · rw [List.mem_singleton.mp hc]
    rfl
  · obtain ⟨d, hd, rfl⟩ := List.mem_map.mp hc
    have hlt := Nat.digits_lt_base (by decide) (List.mem_reverse.mp hd)
    rw [isDigit, decide_eq_true_eq]
    omega

theorem readNat_decimal (n : Nat) : readNat (decimal n) = n := by
  rw [decimal]
  split
  · next h => rw [h]; rfl
  · rw [readNat, List.foldl_map, List.foldl_reverse]
    have hfold : (Nat.digits 10 n).foldr (fun x y => 10 * y + (48 + x - 48)) 0 =
        Nat.ofDigits 10 (Nat.digits 10 n) := by
      rw [Nat.ofDigits_eq_foldr]
      congr 1
      funext x y
      simp only [Nat.cast_id]
      omega
    rw [hfold, Nat.ofDigits_digits]

/-- The text of an integer: a zero, or digits that do not start with one. -/
def IsDigits (t : Text) : Prop :=
  t = [48] ∨ ∃ c r, t = c :: r ∧ c ≠ 48 ∧ isDigit c = true ∧ ∀ x ∈ r, isDigit x = true

theorem decimal_isDigits (n : Nat) : IsDigits (decimal n) := by
  by_cases hn : n = 0
  · exact Or.inl (by rw [decimal, if_pos hn])
  · refine Or.inr ?_
    have hne : Nat.digits 10 n ≠ [] := Nat.digits_ne_nil_iff_ne_zero.mpr hn
    have hall := decimal_digits n
    have hform : decimal n = (48 + (Nat.digits 10 n).getLast hne) ::
        ((Nat.digits 10 n).dropLast.reverse).map (48 + ·) := by
      rw [decimal, if_neg hn]
      conv_lhs => rw [← List.dropLast_append_getLast hne]
      simp
    rw [hform] at hall ⊢
    refine ⟨_, _, rfl, ?_, hall _ List.mem_cons_self, fun x hx => hall x (List.mem_cons_of_mem _ hx)⟩
    have hlast := Nat.getLast_digit_ne_zero 10 hn
    omega

theorem scanInt_digits (ht : IsDigits t) (hr : ∀ c ∈ r.head?, isDigit c = false) :
    scanInt (t ++ r) = some (t, r) := by
  rcases ht with rfl | ⟨c, ds, rfl, hc, hdigit, hds⟩
  · simp [scanInt]
  · obtain ⟨htake, hdrop⟩ := takeWhile_digits hds hr
    simp [scanInt, hc, hdigit, htake, hdrop]

end Digits

/-! ## Numbers -/

section Numbers

variable {t r e : Text}

def IsFraction (t : Text) : Prop :=
  t = [] ∨ ∃ d r, t = 46 :: d :: r ∧ isDigit d = true ∧ ∀ x ∈ r, isDigit x = true

def IsExponent (t : Text) : Prop :=
  t = [] ∨ ∃ m sign d r, t = m :: (sign ++ d :: r) ∧ (m = 101 ∨ m = 69) ∧
    (sign = [] ∨ sign = [43] ∨ sign = [45]) ∧ isDigit d = true ∧ ∀ x ∈ r, isDigit x = true

/-- The text of a number with a fraction or an exponent. -/
def IsFloatText (t : Text) : Prop :=
  ∃ sign digits fraction exponent, t = sign ++ digits ++ fraction ++ exponent ∧
    (sign = [] ∨ sign = [45]) ∧ IsDigits digits ∧ IsFraction fraction ∧ IsExponent exponent ∧
    (fraction ≠ [] ∨ exponent ≠ [])

theorem scanExponent_stops (hr : Stops r) : scanExponent r = ([], r) := by
  match r with
  | [] => rfl
  | [c] => rfl
  | c :: d :: r =>
      have hc : ¬ (c = 101 ∨ c = 69) := by
        rcases hr c rfl with rfl | rfl | rfl <;> decide
      simp [scanExponent, hc]

theorem scanExponent_append (ht : IsExponent t) (hr : Stops r) :
    scanExponent (t ++ r) = (t, r) := by
  rcases ht with rfl | ⟨m, sign, d, ds, rfl, hm, hsign, hd, hds⟩
  · exact scanExponent_stops hr
  · obtain ⟨htake, hdrop⟩ := takeWhile_digits hds hr.not_digit
    rcases hsign with rfl | rfl | rfl
    · simp [scanExponent, hm, hd, htake, hdrop]
    · have hplus : isDigit 43 = false := rfl
      simp [scanExponent, hm, hd, hplus, htake, hdrop]
    · have hminus : isDigit 45 = false := rfl
      simp [scanExponent, hm, hd, hminus, htake, hdrop]

/-- What starts with neither a point nor a digit. -/
theorem exponent_head (he : IsExponent e) (hr : Stops r) :
    ∀ c ∈ (e ++ r).head?, c ≠ 46 ∧ isDigit c = false := by
  intro c hc
  rcases he with rfl | ⟨m, sign, d, ds, rfl, hm, -⟩
  · rcases hr c hc with rfl | rfl | rfl <;> exact ⟨by decide, rfl⟩
  · have hmc : m = c := Option.some.inj hc
    rcases hm with rfl | rfl
    · subst hmc; exact ⟨by decide, rfl⟩
    · subst hmc; exact ⟨by decide, rfl⟩

theorem scanFraction_append (ht : IsFraction t) (hr : ∀ c ∈ r.head?, c ≠ 46 ∧ isDigit c = false) :
    scanFraction (t ++ r) = (t, r) := by
  rcases ht with rfl | ⟨d, ds, rfl, hd, hds⟩
  · match r, hr with
    | [], _ => rfl
    | [c], _ => rfl
    | c :: d :: r, hr =>
        have hc : ¬ (c = 46 ∧ isDigit d = true) := fun h => (hr c rfl).1 h.1
        rw [List.nil_append, scanFraction, if_neg hc]
  · obtain ⟨htake, hdrop⟩ := takeWhile_digits hds fun c hc => (hr c hc).2
    simp [scanFraction, hd, htake, hdrop]

theorem scanSign_append {sign : Text} (hsign : sign = [] ∨ sign = [45]) (ht : IsDigits t) :
    scanSign (sign ++ (t ++ r)) = (sign, t ++ r) := by
  rcases hsign with rfl | rfl
  · rcases ht with rfl | ⟨c, ds, rfl, -, hdigit, -⟩
    · rfl
    · have hc : c ≠ 45 := by
        rintro rfl
        exact absurd hdigit (by decide)
      simp [scanSign, hc]
  · rfl

variable {F : Type} {fl : FloatText F} {limit : Nat}

/-- An integer whose digits the conversions admit. -/
def fits (limit : Nat) (n : Int) : Bool := decide (limit = 0 ∨ (decimal n.natAbs).length ≤ limit)

theorem intText_eq (n : Int) : ∃ sign, (sign = [] ∨ sign = [45]) ∧
    intText n = sign ++ decimal n.natAbs ∧ readInt sign (decimal n.natAbs) = n := by
  cases n with
  | ofNat n => exact ⟨[], Or.inl rfl, rfl, by simp [readInt, readNat_decimal]⟩
  | negSucc n =>
      refine ⟨[45], Or.inr rfl, rfl, ?_⟩
      simp [readInt, readNat_decimal]
      omega

theorem number_int {n : Int} (hn : fits limit n = true) (hr : Stops r) :
    number fl limit (intText n ++ r) = some (.int n, r) := by
  obtain ⟨sign, hsign, htext, hread⟩ := intText_eq n
  have hfits : ¬ (limit ≠ 0 ∧ limit < (decimal n.natAbs).length) := by
    have h := of_decide_eq_true hn
    omega
  have hnone : IsExponent [] := Or.inl rfl
  have hfraction : scanFraction r = ([], r) :=
    scanFraction_append (Or.inl rfl) (exponent_head hnone hr)
  rw [htext, List.append_assoc, number, scanSign_append hsign (decimal_isDigits _)]
  simp [scanInt_digits (decimal_isDigits _) hr.not_digit, hfraction, scanExponent_stops hr, hfits,
    hread]

theorem number_float (ht : IsFloatText t) (hr : Stops r) :
    number fl limit (t ++ r) = some (.float (fl.ofText t), r) := by
  obtain ⟨sign, digits, fraction, exponent, rfl, hsign, hdigits, hfraction, hexponent, hsome⟩ := ht
  have hhead := exponent_head hexponent hr
  have hint : scanInt (digits ++ (fraction ++ (exponent ++ r))) =
      some (digits, fraction ++ (exponent ++ r)) := by
    refine scanInt_digits hdigits fun c hc => ?_
    rcases hfraction with rfl | ⟨d, ds, rfl, -⟩
    · exact (hhead c hc).2
    · cases hc
      rfl
  have hnot : ¬ (fraction = [] ∧ exponent = []) := fun h => hsome.elim (· h.1) (· h.2)
  rw [List.append_assoc, List.append_assoc, List.append_assoc, number,
    scanSign_append hsign hdigits]
  simp [hint, scanFraction_append hfraction hhead, scanExponent_append hexponent hr, hnot]

end Numbers

/-! ## Strings -/

section Strings

variable {c n : Nat} {r s : Text}

theorem hexValue_hexDigit (h : n < 16) : hexValue (hexDigit n) = some n := by
  rw [hexDigit, hexValue]
  split
  · next hn =>
      have hdigit : isDigit (48 + n) = true := decide_eq_true (by omega)
      rw [if_pos hdigit]
      congr 1
      omega
  · next hn =>
      have hdigit : isDigit (87 + n) = false := decide_eq_false (by omega)
      rw [hdigit, if_neg (by decide), if_pos (by omega)]
      congr 1
      omega

theorem scanString_plain (h34 : c ≠ 34) (h92 : c ≠ 92) (h32 : ¬ c < 32) :
    scanString (c :: r) = (scanString r).map fun p => (c :: p.1, p.2) := by
  rw [scanString.eq_def]
  simp [h34, h92, h32]

theorem scanString_simple {e x : Nat} (he : e ≠ 117) (hx : simpleEscape e = some x) :
    scanString (92 :: e :: r) = (scanString r).map fun p => (x :: p.1, p.2) := by
  rw [scanString.eq_def]
  simp [he, hx]

/-- An escape that is not the first half of a pair. -/
theorem scanString_unit {h₁ h₂ h₃ h₄ u : Nat} (hu : hex4 h₁ h₂ h₃ h₄ = some u)
    (hhigh : isHigh u = false) :
    scanString (92 :: 117 :: h₁ :: h₂ :: h₃ :: h₄ :: r) =
      (scanString r).map fun p => (u :: p.1, p.2) := by
  rw [scanString.eq_def]
  simp only [hu, hhigh, Nat.reduceEqDiff, if_true, if_false, Bool.false_eq_true, false_and]
  split
  · rfl
  · rfl

theorem hex4_control (h : c < 32) :
    hex4 48 48 (hexDigit (c / 16)) (hexDigit (c % 16)) = some c := by
  have hzero : hexValue 48 = some 0 := rfl
  rw [hex4, hzero, hexValue_hexDigit (by omega), hexValue_hexDigit (by omega)]
  simp
  omega

/-- A character is read back from its escape. -/
theorem scanString_escape (c : Nat) (r : Text) :
    scanString (escape c ++ r) = (scanString r).map fun p => (c :: p.1, p.2) := by
  have hshort : ∀ {e x : Nat}, e ≠ 117 → simpleEscape e = some x →
      scanString ([92, e] ++ r) = (scanString r).map fun p => (x :: p.1, p.2) :=
    fun he hx => scanString_simple he hx
  rw [escape]
  split
  · next h => subst h; exact hshort (by decide) rfl
  · split
    · next h => subst h; exact hshort (by decide) rfl
    · split
      · next h => subst h; exact hshort (by decide) rfl
      · split
        · next h => subst h; exact hshort (by decide) rfl
        · split
          · next h => subst h; exact hshort (by decide) rfl
          · split
            · next h => subst h; exact hshort (by decide) rfl
            · split
              · next h => subst h; exact hshort (by decide) rfl
              · split
                · next h => exact scanString_unit (hex4_control h) (decide_eq_false (by omega))
                · next h34 h92 _ _ _ _ _ h32 => exact scanString_plain h34 h92 h32

theorem scanString_quote (s r : Text) :
    scanString (s.flatMap escape ++ 34 :: r) = some (s, r) := by
  induction s with
  | nil =>
      rw [List.flatMap_nil, List.nil_append, scanString.eq_def]
      rfl
  | cons c s ih =>
      rw [List.flatMap_cons, List.append_assoc, scanString_escape, ih]
      rfl

end Strings

/-! ## Values -/

section Values

variable {F : Type} {fl : FloatText F} {limit : Nat} {r : Text}

/-- What the conversions of finite numbers promise. -/
structure Lawful (fl : FloatText F) : Prop where
  shape : ∀ x, fl.finite x = true → IsFloatText (fl.repr x)
  back : ∀ x, fl.finite x = true → fl.ofText (fl.repr x) = x

/-- What one value must be for its text to be read back. -/
def readable (fl : FloatText F) (limit : Nat) : JsonValue F → Bool
  | .int n => fits limit n
  | .float x => fl.finite x
  | .obj ms => decide (ms.map Prod.fst).Nodup
  | _ => true

theorem keyword_number {sign digits : Text} (hsign : sign = [] ∨ sign = [45])
    (hdigits : IsDigits digits) : keyword fl (sign ++ (digits ++ r)) = none := by
  have hhead : ∃ c ds, digits = c :: ds ∧ isDigit c = true := by
    rcases hdigits with rfl | ⟨c, ds, rfl, -, hc, -⟩
    · exact ⟨48, [], rfl, rfl⟩
    · exact ⟨c, ds, rfl, hc⟩
  obtain ⟨c, ds, rfl, hc⟩ := hhead
  have hlow : 48 ≤ c ∧ c ≤ 57 := of_decide_eq_true hc
  have hne : ∀ d, d < 48 ∨ 57 < d → ¬ d = c := by
    intro d hd
    omega
  rcases hsign with rfl | rfl
  · simp [keyword, keywords, after, text, hne]
  · simp [keyword, keywords, after, text, hne]

theorem value_keyword {n c : Nat} {t : Text} {p : JsonValue F × Text} (h34 : c ≠ 34)
    (h123 : c ≠ 123) (h91 : c ≠ 91) (hword : keyword fl (c :: t) = some p) :
    value fl limit (n + 1) (c :: t) = some p := by
  rw [value, if_neg h34, if_neg h123, if_neg h91, hword]

theorem value_number {n c : Nat} {t : Text} (h34 : c ≠ 34) (h123 : c ≠ 123) (h91 : c ≠ 91)
    (hword : keyword fl (c :: t) = none) :
    value fl limit (n + 1) (c :: t) = number fl limit (c :: t) := by
  rw [value, if_neg h34, if_neg h123, if_neg h91, hword]

/-- The first character of the text of a number. -/
theorem number_head {sign digits : Text} (hsign : sign = [] ∨ sign = [45])
    (hdigits : IsDigits digits) :
    ∃ c t, sign ++ digits = c :: t ∧ (c = 45 ∨ isDigit c = true) := by
  rcases hsign with rfl | rfl
  · rcases hdigits with rfl | ⟨c, ds, rfl, -, hc, -⟩
    · exact ⟨48, [], rfl, Or.inr rfl⟩
    · exact ⟨c, ds, rfl, Or.inr hc⟩
  · exact ⟨45, digits, rfl, Or.inl rfl⟩

/-- A number is read where a value is asked for. -/
theorem value_of_number {n : Nat} {sign digits t : Text} (hsign : sign = [] ∨ sign = [45])
    (hdigits : IsDigits digits) :
    value fl limit (n + 1) (sign ++ (digits ++ t)) = number fl limit (sign ++ (digits ++ t)) := by
  have hword : keyword fl (sign ++ (digits ++ t)) = none := keyword_number hsign hdigits
  obtain ⟨c, ds, hhead, hc⟩ := number_head hsign hdigits
  rw [← List.append_assoc, hhead, List.cons_append] at hword ⊢
  have hne : ∀ d, d ≠ 45 → isDigit d = false → c ≠ d := by
    intro d h45 hdigit heq
    rcases hc with hc | hc
    · exact h45 (heq ▸ hc)
    · rw [heq, hdigit] at hc
      cases hc
  exact value_number (hne 34 (by decide) rfl) (hne 123 (by decide) rfl) (hne 91 (by decide) rfl) hword

open JsonValue

/-- What may start the text of a value. -/
def Starts (t : Text) : Prop := ∃ c s, t = c :: s ∧ isWhite c = false ∧ c ≠ 93 ∧ c ≠ 125

theorem Starts.skip {t : Text} (h : Starts t) : skip (t ++ r) = t ++ r := by
  obtain ⟨c, s, rfl, hc, -⟩ := h
  rw [JsonText.skip, List.cons_append, List.dropWhile_cons, hc]
  rfl

theorem starts_number {sign digits t : Text} (hsign : sign = [] ∨ sign = [45])
    (hdigits : IsDigits digits) : Starts (sign ++ digits ++ t) := by
  obtain ⟨c, s, heq, hc⟩ := number_head hsign hdigits
  refine ⟨c, s ++ t, by rw [heq]; rfl, ?_⟩
  rcases hc with rfl | hc
  · exact ⟨rfl, by decide, by decide⟩
  · have hrange : 48 ≤ c ∧ c ≤ 57 := of_decide_eq_true hc
    refine ⟨?_, by omega, by omega⟩
    simp [isWhite]
    omega

theorem starts_text (hfl : Lawful fl) {v : JsonValue F} (hv : v.all (readable fl limit) = true) :
    Starts (v.text fl) := by
  cases v with
  | null => exact ⟨_, _, rfl, rfl, by decide, by decide⟩
  | bool b => cases b <;> exact ⟨_, _, rfl, rfl, by decide, by decide⟩
  | int n =>
      obtain ⟨sign, hsign, htext, -⟩ := intText_eq n
      have hstarts := starts_number (t := []) hsign (decimal_isDigits n.natAbs)
      rw [List.append_nil, ← htext] at hstarts
      exact hstarts
  | float x =>
      obtain ⟨sign, digits, fraction, exponent, htext, hsign, hdigits, -⟩ := hfl.shape x hv
      rw [JsonValue.text, htext, List.append_assoc _ fraction]
      exact starts_number hsign hdigits
  | str s => exact ⟨_, _, rfl, rfl, by decide, by decide⟩
  | arr vs => exact ⟨_, _, rfl, rfl, by decide, by decide⟩
  | obj ms => exact ⟨_, _, rfl, rfl, by decide, by decide⟩

theorem stops_comma : Stops (44 :: r) := fun _ hc => Or.inl (Option.some.inj hc).symm

theorem stops_bracket : Stops (93 :: r) := fun _ hc => Or.inr (Or.inl (Option.some.inj hc).symm)

theorem stops_brace : Stops (125 :: r) := fun _ hc => Or.inr (Or.inr (Option.some.inj hc).symm)

theorem memberKey_quote {t : Text} (k : Text) (ht : skip t = t) :
    memberKey (quoteText k ++ 58 :: t) = some (k, t) := by
  have hscan := scanString_quote k (58 :: t)
  have hcolon : skip (58 :: t) = 58 :: t := rfl
  simp [memberKey, quoteText, hscan, hcolon, ht]

theorem Starts.append {t u : Text} (h : Starts t) : Starts (t ++ u) := by
  obtain ⟨c, s, rfl, hc⟩ := h
  exact ⟨c, s ++ u, rfl, hc⟩

theorem starts_items (hfl : Lawful fl) {v : JsonValue F} {vs : List (JsonValue F)}
    (hv : v.all (readable fl limit) = true) : Starts (textItems fl (v :: vs)) := by
  cases vs with
  | nil => exact (starts_text hfl hv).append
  | cons w vs => exact (starts_text hfl hv).append

theorem starts_members (m : Text × JsonValue F) (ms : List (Text × JsonValue F)) :
    Starts (textMembers fl (m :: ms)) := by
  cases ms with
  | nil => exact ⟨34, _, rfl, rfl, by decide, by decide⟩
  | cons w ms => exact ⟨34, _, rfl, rfl, by decide, by decide⟩

theorem Starts.head_ne {t : Text} (h : Starts t) :
    (t ++ r).head? ≠ some 93 ∧ (t ++ r).head? ≠ some 125 := by
  obtain ⟨c, s, rfl, -, h93, h125⟩ := h
  exact ⟨fun heq => h93 (Option.some.inj heq), fun heq => h125 (Option.some.inj heq)⟩

/-- One value, when the calls it makes with less fuel are known. -/
theorem value_text_step (hfl : Lawful fl) {n : Nat} {v : JsonValue F} (hr : Stops r)
    (hitems : ∀ vs, v = .arr vs → vs ≠ [] →
      items fl limit n (textItems fl vs ++ r) = some (vs, r))
    (hmembers : ∀ ms, v = .obj ms → ms ≠ [] →
      members fl limit n (textMembers fl ms ++ r) = some (ms, r))
    (hv : v.all (readable fl limit) = true) :
    value fl limit (n + 1) (v.text fl ++ r) = some (v, r) := by
  cases v with
  | null => exact value_keyword (by decide) (by decide) (by decide) rfl
  | bool b =>
      cases b
      · exact value_keyword (by decide) (by decide) (by decide) rfl
      · exact value_keyword (by decide) (by decide) (by decide) rfl
  | int m =>
      obtain ⟨sign, hsign, htext, -⟩ := intText_eq m
      have hread : number fl limit (intText m ++ r) = some (.int m, r) := number_int hv hr
      rw [htext, List.append_assoc] at hread
      rw [JsonValue.text, htext, List.append_assoc, value_of_number hsign (decimal_isDigits _), hread]
  | float x =>
      have hread : number fl limit (fl.repr x ++ r) = some (.float (fl.ofText (fl.repr x)), r) :=
        number_float (hfl.shape x hv) hr
      rw [hfl.back x hv] at hread
      obtain ⟨sign, digits, fraction, exponent, htext, hsign, hdigits, -⟩ := hfl.shape x hv
      rw [JsonValue.text]
      rw [htext, List.append_assoc, List.append_assoc, List.append_assoc] at hread ⊢
      rw [value_of_number hsign hdigits, hread]
  | str s =>
      rw [JsonValue.text, quoteText, List.cons_append, List.append_assoc, value, if_pos rfl]
      rw [List.singleton_append, scanString_quote]
      rfl
  | arr vs =>
      cases vs with
      | nil => rfl
      | cons w vs =>
          rw [all, allItems, Bool.and_eq_true, Bool.and_eq_true] at hv
          have hstarts : Starts (textItems fl (w :: vs)) := starts_items hfl hv.2.1
          rw [JsonValue.text, List.cons_append, value, if_neg (by decide), if_neg (by decide),
            if_pos rfl, hstarts.skip, if_neg hstarts.head_ne.1, hitems _ rfl (List.cons_ne_nil w vs)]
  | obj ms =>
      cases ms with
      | nil => rfl
      | cons m ms =>
          rw [all, Bool.and_eq_true] at hv
          have hstarts : Starts (textMembers fl (m :: ms)) := starts_members m ms
          rw [JsonValue.text, List.cons_append, value, if_neg (by decide), if_pos rfl, hstarts.skip,
            if_neg hstarts.head_ne.2, hmembers _ rfl (List.cons_ne_nil m ms)]
          exact if_pos (of_decide_eq_true hv.1)

/-- Values, items and members are read back with as much fuel as twice their text is long. -/
theorem read_text (hfl : Lawful fl) (n : Nat) :
    (∀ (v : JsonValue F) (r : Text), v.all (readable fl limit) = true → Stops r →
      2 * (v.text fl).length ≤ n → value fl limit n (v.text fl ++ r) = some (v, r)) ∧
    (∀ (vs : List (JsonValue F)) (r : Text), vs ≠ [] → allItems (readable fl limit) vs = true →
      2 * (textItems fl vs).length ≤ n + 1 →
        items fl limit n (textItems fl vs ++ r) = some (vs, r)) ∧
    (∀ (ms : List (Text × JsonValue F)) (r : Text), ms ≠ [] →
      allMembers (readable fl limit) ms = true → 2 * (textMembers fl ms).length ≤ n + 1 →
        members fl limit n (textMembers fl ms ++ r) = some (ms, r)) := by
  induction n with
  | zero =>
      refine ⟨fun v r hv _ hn => ?_, fun vs r hne hvs hn => ?_, fun ms r hne _ hn => ?_⟩
      · obtain ⟨c, s, heq, -⟩ := starts_text hfl hv
        rw [heq, List.length_cons] at hn
        omega
      · cases vs with
        | nil => exact absurd rfl hne
        | cons v vs =>
            have hstarts : Starts (textItems fl (v :: vs)) :=
              starts_items hfl (Bool.and_eq_true_iff.mp hvs).1
            obtain ⟨c, s, heq, -⟩ := hstarts
            rw [heq, List.length_cons] at hn
            omega
      · cases ms with
        | nil => exact absurd rfl hne
        | cons m ms =>
            have hstarts : Starts (textMembers fl (m :: ms)) := starts_members m ms
            obtain ⟨c, s, heq, -⟩ := hstarts
            rw [heq, List.length_cons] at hn
            omega
  | succ n ih =>
      obtain ⟨ihvalue, ihitems, ihmembers⟩ := ih
      refine ⟨fun v r hv hr hn => ?_, fun vs r hne hvs hn => ?_, fun ms r hne hms hn => ?_⟩
      · refine value_text_step hfl hr (fun vs heq hne => ?_) (fun ms heq hne => ?_) hv
        · subst heq
          rw [all, Bool.and_eq_true] at hv
          rw [JsonValue.text, List.length_cons] at hn
          exact ihitems vs r hne hv.2 (by omega)
        · subst heq
          rw [all, Bool.and_eq_true] at hv
          rw [JsonValue.text, List.length_cons] at hn
          exact ihmembers ms r hne hv.2 (by omega)
      · cases vs with
        | nil => exact absurd rfl hne
        | cons v vs =>
            rw [allItems, Bool.and_eq_true] at hvs
            cases vs with
            | nil =>
                rw [textItems, List.length_append, List.length_singleton] at hn
                have hfirst := ihvalue v (93 :: r) hvs.1 stops_bracket (by omega)
                have hskip : skip (93 :: r) = 93 :: r := rfl
                rw [textItems, List.append_assoc, List.singleton_append, items, hfirst]
                simp [hskip]
            | cons w vs =>
                rw [textItems_cons, List.length_append, List.length_cons] at hn
                have hrest := ihitems (w :: vs) r (List.cons_ne_nil w vs) hvs.2 (by omega)
                have hfirst := ihvalue v (44 :: (textItems fl (w :: vs) ++ r)) hvs.1 stops_comma
                  (by omega)
                have hstarts : Starts (textItems fl (w :: vs)) :=
                  starts_items hfl (Bool.and_eq_true_iff.mp hvs.2).1
                have hskip : skip (44 :: (textItems fl (w :: vs) ++ r)) =
                    44 :: (textItems fl (w :: vs) ++ r) := rfl
                rw [textItems_cons, List.append_assoc, List.cons_append, items, hfirst]
                simp [hskip, hstarts.skip, hrest]
      · cases ms with
        | nil => exact absurd rfl hne
        | cons m ms =>
            obtain ⟨k, v⟩ := m
            rw [allMembers, Bool.and_eq_true] at hms
            have hv : Starts (v.text fl) := starts_text hfl hms.1
            cases ms with
            | nil =>
                rw [textMembers, List.length_append, List.length_cons, List.length_append,
                  List.length_singleton] at hn
                have hkey := memberKey_quote k (hv.skip (r := 125 :: r))
                have hvalue := ihvalue v (125 :: r) hms.1 stops_brace (by omega)
                have hskip : skip (125 :: r) = 125 :: r := rfl
                rw [textMembers, List.append_assoc, List.cons_append, List.append_assoc,
                  List.singleton_append, members, hkey]
                simp [hvalue, hskip]
            | cons m ms =>
                rw [textMembers_cons, List.length_append, List.length_cons, List.length_append,
                  List.length_cons] at hn
                have hrest := ihmembers (m :: ms) r (List.cons_ne_nil m ms) hms.2 (by omega)
                have hkey := memberKey_quote k
                  (hv.skip (r := 44 :: (textMembers fl (m :: ms) ++ r)))
                have hvalue := ihvalue v (44 :: (textMembers fl (m :: ms) ++ r)) hms.1 stops_comma
                  (by omega)
                have hstarts : Starts (textMembers fl (m :: ms)) := starts_members m ms
                have hskip : skip (44 :: (textMembers fl (m :: ms) ++ r)) =
                    44 :: (textMembers fl (m :: ms) ++ r) := rfl
                rw [textMembers_cons, List.append_assoc, List.cons_append, List.append_assoc,
                  List.cons_append, members, hkey]
                simp [hvalue, hskip, hstarts.skip, hrest]

/-- What was written is read back. -/
theorem loads_text (hfl : Lawful fl) {v : JsonValue F} (hv : v.all (readable fl limit) = true) :
    loads fl limit (v.text fl) = some v := by
  have hstops : Stops [] := fun c hc => by cases hc
  have hread := (read_text hfl (2 * (v.text fl).length + 1)).1 v [] hv hstops (Nat.le_succ _)
  have hskip := (starts_text hfl hv).skip (r := [])
  rw [List.append_nil] at hread hskip
  rw [loads, hskip, hread]
  rfl

end Values

end MonoAgent.Lib.JsonText
