import Mathlib
import MonoAgent.Lib.JsonReading

/-!
# What reading a text means

Each way a value is read is a case of `Reads`.  From these, reading ends (`value_fuel`: no
text asks for more fuel than `loads` has), and what it returns has no repeated key and no
integer beyond the limit (`loads_admitted`).
-/

namespace MonoAgent.Lib.JsonText

section Fuel

variable {F : Type} {fl : FloatText F} {limit : Nat}

open JsonValue

/-! ## Every scanner shortens its text -/

theorem dropWhile_length (p : Nat → Bool) (t : Text) : (t.dropWhile p).length ≤ t.length :=
  (List.dropWhile_suffix p).length_le

theorem shorter_map {o : Option (Text × Text)} {x n m : Nat} {p : Text × Text}
    (h : o.map (fun q => (x :: q.1, q.2)) = some p)
    (ih : ∀ {q : Text × Text}, o = some q → q.2.length < n) (hle : n ≤ m) : p.2.length < m := by
  obtain ⟨q, hq, rfl⟩ := Option.map_eq_some_iff.mp h
  have hlt : q.2.length < n := ih hq
  exact Nat.lt_of_lt_of_le hlt hle

theorem scanString_length {t : Text} {p : Text × Text} (h : scanString t = some p) :
    p.2.length < t.length := by
  fun_induction scanString t generalizing p
  all_goals first
    | exact shorter_map h (by assumption) (by simp only [List.length_cons]; omega)
    | cases h
  exact Nat.lt_succ_self _

theorem scanInt_length {t : Text} {p : Text × Text} (h : scanInt t = some p) :
    p.2.length ≤ t.length := by
  cases t with
  | nil => cases h
  | cons c r =>
      rw [scanInt] at h
      split at h
      · cases h
        exact Nat.le_succ _
      · split at h
        · cases h
          exact (dropWhile_length isDigit r).trans (Nat.le_succ _)
        · cases h

theorem scanFraction_length (t : Text) : (scanFraction t).2.length ≤ t.length := by
  fun_cases scanFraction t with
  | case1 c d r => exact (dropWhile_length isDigit r).trans (Nat.le_add_right _ 2)
  | case2 | case3 => exact le_rfl

theorem scanExponent_length (t : Text) : (scanExponent t).2.length ≤ t.length := by
  fun_cases scanExponent t with
  | case1 c d r => exact (dropWhile_length isDigit r).trans (Nat.le_add_right _ 2)
  | case2 c d x r => exact (dropWhile_length isDigit _).trans (Nat.le_add_right _ 3)
  | _ => exact le_rfl

theorem scanSign_length (t : Text) : (scanSign t).2.length ≤ t.length := by
  fun_cases scanSign t <;> grind

theorem number_length {t : Text} {p : JsonValue F × Text} (h : number fl limit t = some p) :
    p.2.length ≤ t.length := by
  have hsign := scanSign_length t
  rw [number] at h
  cases hint : scanInt (scanSign t).2 with
  | none =>
      simp [hint] at h
  | some q =>
      have hfraction := scanFraction_length q.2
      have hexponent := scanExponent_length (scanFraction q.2).2
      have hle := scanInt_length hint
      have hrest : p.2 = (scanExponent (scanFraction q.2).2).2 := by
        simp only [hint] at h
        grind
      rw [hrest]
      omega

theorem keyword_length {t : Text} {p : JsonValue F × Text} (h : keyword fl t = some p) :
    p.2.length ≤ t.length := by
  obtain ⟨k, _, hk⟩ := List.exists_of_findSome?_eq_some h
  obtain ⟨r, hr, rfl⟩ := Option.map_eq_some_iff.mp hk
  rw [after] at hr
  split at hr
  · cases hr
    exact (List.drop_suffix _ t).length_le
  · cases hr

theorem skip_length (t : Text) : (skip t).length ≤ t.length := dropWhile_length isWhite t

theorem skip_cons {t r : Text} {c : Nat} (h : skip t = c :: r) : r.length < t.length := by
  have hle := skip_length t
  rw [h, List.length_cons] at hle
  exact hle

theorem memberKey_ok {t k r : Text} (h : memberKey t = some (k, r)) :
    ∃ s u v, t = 34 :: s ∧ scanString s = some (k, u) ∧ skip u = 58 :: v ∧ r = skip v := by
  cases t with
  | nil => cases h
  | cons c s =>
      rw [memberKey] at h
      split at h
      · next hc =>
          subst hc
          split at h
          · cases h
          · next k' u hscan =>
              split at h
              · cases h
              · next c v hskip =>
                  split at h
                  · next hc =>
                      subst hc
                      cases h
                      exact ⟨s, u, v, rfl, hscan, hskip, rfl⟩
                  · cases h
      · cases h

/-! ## How values, items and members are read -/

/-- The ways a value is read. -/
inductive Reads (fl : FloatText F) (limit n : Nat) : Text → JsonValue F → Text → Prop where
  | str {t s r : Text} (hscan : scanString t = some (s, r)) : Reads fl limit n (34 :: t) (.str s) r
  | noMembers (t : Text) : Reads fl limit n (123 :: t) (.obj []) (skip t).tail
  | obj {t r : Text} {ms : List (Text × JsonValue F)}
      (hmembers : members fl limit n (skip t) = some (ms, r)) (hkeys : (ms.map Prod.fst).Nodup) :
      Reads fl limit n (123 :: t) (.obj ms) r
  | noItems (t : Text) : Reads fl limit n (91 :: t) (.arr []) (skip t).tail
  | arr {t r : Text} {vs : List (JsonValue F)} (hitems : items fl limit n (skip t) = some (vs, r)) :
      Reads fl limit n (91 :: t) (.arr vs) r
  | word {t r : Text} {v : JsonValue F} (hword : keyword fl t = some (v, r)) : Reads fl limit n t v r
  | number {t r : Text} {v : JsonValue F} (hnumber : number fl limit t = some (v, r)) :
      Reads fl limit n t v r

theorem reads_value {n : Nat} {t r : Text} {v : JsonValue F}
    (h : value fl limit (n + 1) t = some (v, r)) : Reads fl limit n t v r := by
  cases t with
  | nil => simp [value] at h
  | cons c t =>
      rw [value] at h
      split at h
      · next hc =>
          subst hc
          obtain ⟨p, hscan, heq⟩ := Option.map_eq_some_iff.mp h
          cases heq
          exact .str hscan
      · split at h
        · next hc =>
            subst hc
            split at h
            · cases h
              exact .noMembers t
            · split at h
              · cases h
              · next hmembers =>
                  split at h
                  · next hkeys =>
                      cases h
                      exact .obj hmembers hkeys
                  · cases h
        · split at h
          · next hc =>
              subst hc
              split at h
              · cases h
                exact .noItems t
              · split at h
                · cases h
                · next hitems =>
                    cases h
                    exact .arr hitems
          · split at h
            · next hword =>
                cases h
                exact .word hword
            · exact .number h

theorem items_ok {n : Nat} {t r : Text} {vs : List (JsonValue F)}
    (h : items fl limit (n + 1) t = some (vs, r)) :
    ∃ v u c s, value fl limit n t = some (v, u) ∧ skip u = c :: s ∧
      ((∃ ws, items fl limit n (skip s) = some (ws, r) ∧ vs = v :: ws) ∨ vs = [v] ∧ r = s) := by
  rw [items] at h
  split at h
  · cases h
  · next v u hvalue =>
      split at h
      · cases h
      · next c s hskip =>
          refine ⟨v, u, c, s, hvalue, hskip, ?_⟩
          split at h
          · obtain ⟨⟨ws, r'⟩, hitems, heq⟩ := Option.map_eq_some_iff.mp h
            cases heq
            exact Or.inl ⟨ws, hitems, rfl⟩
          · split at h
            · cases h
              exact Or.inr ⟨rfl, rfl⟩
            · cases h

theorem members_ok {n : Nat} {t r : Text} {ms : List (Text × JsonValue F)}
    (h : members fl limit (n + 1) t = some (ms, r)) :
    ∃ k w v u c s, memberKey t = some (k, w) ∧ value fl limit n w = some (v, u) ∧ skip u = c :: s ∧
      ((∃ ns, members fl limit n (skip s) = some (ns, r) ∧ ms = (k, v) :: ns) ∨
        ms = [(k, v)] ∧ r = s) := by
  rw [members] at h
  split at h
  · cases h
  · next k w hkey =>
      split at h
      · cases h
      · next v u hvalue =>
          split at h
          · cases h
          · next c s hskip =>
              refine ⟨k, w, v, u, c, s, hkey, hvalue, hskip, ?_⟩
              split at h
              · obtain ⟨⟨ns, r'⟩, hmembers, heq⟩ := Option.map_eq_some_iff.mp h
                cases heq
                exact Or.inl ⟨ns, hmembers, rfl⟩
              · split at h
                · cases h
                  exact Or.inr ⟨rfl, rfl⟩
                · cases h

theorem memberKey_length {t k r : Text} (h : memberKey t = some (k, r)) : r.length < t.length := by
  obtain ⟨s, u, v, rfl, hscan, hskip, rfl⟩ := memberKey_ok h
  have hstring : u.length < s.length := scanString_length hscan
  have hcolon := skip_cons hskip
  have hvalue := skip_length v
  rw [List.length_cons]
  omega

/-- What follows a value, items or members is no longer than the text they stand in. -/
theorem read_length (n : Nat) :
    (∀ {t r : Text} {v : JsonValue F}, value fl limit n t = some (v, r) → r.length ≤ t.length) ∧
    (∀ {t r : Text} {vs : List (JsonValue F)}, items fl limit n t = some (vs, r) →
      r.length ≤ t.length) ∧
    (∀ {t r : Text} {ms : List (Text × JsonValue F)}, members fl limit n t = some (ms, r) →
      r.length ≤ t.length) := by
  induction n with
  | zero =>
      refine ⟨fun h => ?_, fun h => ?_, fun h => ?_⟩
      · simp [value] at h
      · simp [items] at h
      · simp [members] at h
  | succ n ih =>
      obtain ⟨ihvalue, ihitems, ihmembers⟩ := ih
      refine ⟨fun {t r v} h => ?_, fun {t r vs} h => ?_, fun {t r ms} h => ?_⟩
      · have htail : ∀ t : Text, (skip t).tail.length ≤ t.length + 1 := by
          intro t
          have hle := skip_length t
          rw [List.length_tail]
          omega
        cases reads_value h with
        | str hscan => exact (scanString_length hscan).le.trans (Nat.le_succ _)
        | noMembers t => exact htail t
        | obj hmembers => exact (ihmembers hmembers).trans ((skip_length _).trans (Nat.le_succ _))
        | noItems t => exact htail t
        | arr hitems => exact (ihitems hitems).trans ((skip_length _).trans (Nat.le_succ _))
        | word hword => exact keyword_length hword
        | number hnumber => exact number_length hnumber
      · obtain ⟨v, u, c, s, hvalue, hskip, hrest⟩ := items_ok h
        have hfirst := ihvalue hvalue
        have hs := skip_cons hskip
        rcases hrest with ⟨ws, hitems, -⟩ | ⟨-, rfl⟩
        · have hlen := (ihitems hitems).trans (skip_length s)
          omega
        · omega
      · obtain ⟨k, w, v, u, c, s, hkey, hvalue, hskip, hrest⟩ := members_ok h
        have hw := memberKey_length hkey
        have hfirst := ihvalue hvalue
        have hs := skip_cons hskip
        rcases hrest with ⟨ns, hmembers, -⟩ | ⟨-, rfl⟩
        · have hlen := (ihmembers hmembers).trans (skip_length s)
          omega
        · omega

/-! ## Fuel -/

/-- More fuel than twice the length of the text changes nothing. -/
theorem value_enough (n : Nat) :
    (∀ t : Text, 2 * t.length ≤ n → value fl limit n t = value fl limit (n + 1) t) ∧
    (∀ t : Text, 2 * t.length + 1 ≤ n → items fl limit n t = items fl limit (n + 1) t) ∧
    (∀ t : Text, 2 * t.length + 1 ≤ n → members fl limit n t = members fl limit (n + 1) t) := by
  induction n with
  | zero =>
      refine ⟨fun t ht => ?_, fun t ht => absurd ht (by omega), fun t ht => absurd ht (by omega)⟩
      have hnil : t = [] := List.length_eq_zero_iff.mp (by omega)
      rw [hnil, value, value]
  | succ n ih =>
      obtain ⟨ihvalue, ihitems, ihmembers⟩ := ih
      have hstep : ∀ {u s : Text} {c : Nat}, skip u = c :: s → (skip s).length < u.length := by
        intro u s c hskip
        exact Nat.lt_of_le_of_lt (skip_length s) (skip_cons hskip)
      refine ⟨fun t ht => ?_, fun t ht => ?_, fun t ht => ?_⟩
      · cases t with
        | nil => rw [value, value]
        | cons c t =>
            have hlen := skip_length t
            rw [List.length_cons] at ht
            rw [value, value, ihitems (skip t) (by omega), ihmembers (skip t) (by omega)]
      · rw [items, items, ← ihvalue t (by omega)]
        cases hvalue : value fl limit n t with
        | none => rfl
        | some p =>
            obtain ⟨v, u⟩ := p
            have hu := (read_length n).1 hvalue
            dsimp only
            cases hskip : skip u with
            | nil => rfl
            | cons c s =>
                have hs := hstep hskip
                dsimp only
                rw [ihitems (skip s) (by omega)]
      · rw [members, members]
        cases hkey : memberKey t with
        | none => rfl
        | some q =>
            obtain ⟨k, w⟩ := q
            have hw := memberKey_length hkey
            dsimp only
            rw [← ihvalue w (by omega)]
            cases hvalue : value fl limit n w with
            | none => rfl
            | some p =>
                obtain ⟨v, u⟩ := p
                have hu := (read_length n).1 hvalue
                dsimp only
                cases hskip : skip u with
                | nil => rfl
                | cons c s =>
                    have hs := hstep hskip
                    dsimp only
                    rw [ihmembers (skip s) (by omega)]

/-- The fuel of `loads` is enough for any text. -/
theorem value_fuel {n : Nat} {t : Text} (hn : 2 * t.length + 1 ≤ n) :
    value fl limit n (skip t) = value fl limit (2 * t.length + 1) (skip t) := by
  induction n, hn using Nat.le_induction with
  | base => rfl
  | succ n hn ih =>
      have hlen := skip_length t
      rw [← ih]
      exact ((value_enough n).1 (skip t) (by omega)).symm

/-! ## What is read -/

theorem readNat_lt {t : Text} (ht : ∀ c ∈ t, isDigit c = true) : readNat t < 10 ^ t.length := by
  induction t using List.reverseRecOn with
  | nil => exact Nat.one_pos
  | append_singleton t c ih =>
      have hc : 48 ≤ c ∧ c ≤ 57 := of_decide_eq_true (ht c (by simp))
      have hlt := ih fun x hx => ht x (List.mem_append_left _ hx)
      rw [readNat, List.foldl_append, List.length_append, List.length_singleton, pow_succ]
      rw [readNat] at hlt
      simp only [List.foldl_cons, List.foldl_nil]
      omega

theorem decimal_length {t : Text} (ht : ∀ c ∈ t, isDigit c = true) (hne : t ≠ []) :
    (decimal (readNat t)).length ≤ t.length := by
  rw [decimal]
  split
  · exact List.length_pos_iff.mpr hne
  · rw [List.length_map, List.length_reverse]
    exact Nat.digits_length_le_iff (by decide) (readNat t) |>.mpr (readNat_lt ht)

theorem scanInt_ok {t d r : Text} (h : scanInt t = some (d, r)) :
    d ≠ [] ∧ ∀ c ∈ d, isDigit c = true := by
  cases t with
  | nil => cases h
  | cons c t =>
      rw [scanInt] at h
      split at h
      · cases h
        exact ⟨List.cons_ne_nil _ _, fun c hc => by rw [List.mem_singleton.mp hc]; rfl⟩
      · split at h
        · next hc =>
            cases h
            refine ⟨List.cons_ne_nil _ _, fun x hx => ?_⟩
            rcases List.mem_cons.mp hx with rfl | hx
            · exact hc
            · exact List.mem_takeWhile_imp hx
        · cases h

/-- What is known of a value that was read. -/
def admitted (limit : Nat) : JsonValue F → Bool
  | .int n => fits limit n
  | .obj ms => decide (ms.map Prod.fst).Nodup
  | _ => true

theorem number_admitted {t r : Text} {v : JsonValue F} (h : number fl limit t = some (v, r)) :
    v.all (admitted limit) = true := by
  rw [number] at h
  cases hint : scanInt (scanSign t).2 with
  | none => simp [hint] at h
  | some q =>
      obtain ⟨hne, hdigits⟩ := scanInt_ok (r := q.2) hint
      have hlen := decimal_length hdigits hne
      simp only [hint] at h
      split at h
      · split at h
        · cases h
        · next hfits =>
            cases h
            have habs : (readInt (scanSign t).1 q.1).natAbs = readNat q.1 := by
              rw [readInt]
              split
              · rfl
              · rw [Int.natAbs_neg]; rfl
            refine decide_eq_true ?_
            rw [habs]
            omega
      · cases h
        rfl

theorem keyword_admitted {t r : Text} {v : JsonValue F} (h : keyword fl t = some (v, r)) :
    v.all (admitted limit) = true := by
  obtain ⟨k, hk, hv⟩ := List.exists_of_findSome?_eq_some h
  obtain ⟨_, _, heq⟩ := Option.map_eq_some_iff.mp hv
  cases heq
  have hall : ∀ k ∈ keywords fl, k.2.all (admitted limit) = true := by
    simp [keywords, all, admitted]
  exact hall k hk

theorem read_admitted (n : Nat) :
    (∀ {t r : Text} {v : JsonValue F}, value fl limit n t = some (v, r) →
      v.all (admitted limit) = true) ∧
    (∀ {t r : Text} {vs : List (JsonValue F)}, items fl limit n t = some (vs, r) →
      allItems (admitted limit) vs = true) ∧
    (∀ {t r : Text} {ms : List (Text × JsonValue F)}, members fl limit n t = some (ms, r) →
      allMembers (admitted limit) ms = true) := by
  induction n with
  | zero =>
      refine ⟨fun h => ?_, fun h => ?_, fun h => ?_⟩
      · simp [value] at h
      · simp [items] at h
      · simp [members] at h
  | succ n ih =>
      obtain ⟨ihvalue, ihitems, ihmembers⟩ := ih
      refine ⟨fun {t r v} h => ?_, fun {t r vs} h => ?_, fun {t r ms} h => ?_⟩
      · cases reads_value h with
        | str hscan => rfl
        | noMembers t => rfl
        | obj hmembers hkeys =>
            rw [all, ihmembers hmembers, Bool.and_true]
            exact decide_eq_true hkeys
        | noItems t => rfl
        | arr hitems =>
            rw [all, ihitems hitems, Bool.and_true]
            rfl
        | word hword => exact keyword_admitted hword
        | number hnumber => exact number_admitted hnumber
      · obtain ⟨v, u, c, s, hvalue, hskip, hrest⟩ := items_ok h
        rcases hrest with ⟨ws, hitems, rfl⟩ | ⟨rfl, rfl⟩
        · rw [allItems, ihvalue hvalue, ihitems hitems]
          rfl
        · rw [allItems, ihvalue hvalue]
          rfl
      · obtain ⟨k, w, v, u, c, s, hkey, hvalue, hskip, hrest⟩ := members_ok h
        rcases hrest with ⟨ns, hmembers, rfl⟩ | ⟨rfl, rfl⟩
        · rw [allMembers, ihvalue hvalue, ihmembers hmembers]
          rfl
        · rw [allMembers, ihvalue hvalue]
          rfl

/-- What `loads` returns has no repeated key and no integer beyond the limit. -/
theorem loads_admitted {t : Text} {v : JsonValue F} (h : loads fl limit t = some v) :
    v.all (admitted limit) = true := by
  rw [loads] at h
  split at h
  · cases h
  · next hvalue =>
      split at h
      · cases h
        exact (read_admitted _).1 hvalue
      · cases h

end Fuel
end MonoAgent.Lib.JsonText
