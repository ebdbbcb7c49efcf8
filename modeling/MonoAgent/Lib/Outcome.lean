import MonoAgent.Lib.Exec

/-!
# Outcomes of fallible computations

`Lands E c x Q` says how `x` can end: in `Q`, or with an error of `E`, and in `Q`
when `c` holds.  So `c` is what a caller can do to have it succeed, and `E` is what
it risks otherwise.

`Agree Q x y` says that two computations end alike: with the same error, or with
results that `Q` relates.  There is one rule for each way to build a computation.
-/

namespace MonoAgent.Lib

variable {ε α β : Type} {E : ε → Prop} {c c' : Prop} {Q : α → Prop} {R : β → Prop}

/-- The computation ends in `Q`, unless `c` fails and it raises an error of `E`. -/
def Lands (E : ε → Prop) (c : Prop) (x : Except ε α) (Q : α → Prop) : Prop :=
  (∃ a, x = .ok a ∧ Q a) ∨ (¬ c ∧ ∃ e, x = .error e ∧ E e)

theorem lands_ok {a : α} (h : Q a) : Lands E c (.ok a) Q := Or.inl ⟨a, rfl, h⟩

theorem Lands.bind {x : Except ε α} {f : α → Except ε β} (h : Lands E c x Q)
    (hf : ∀ a, x = .ok a → Q a → Lands E c (f a) R) : Lands E c (x >>= f) R := by
  rcases h with ⟨a, rfl, ha⟩ | ⟨hc, e, rfl, he⟩
  · exact hf a rfl ha
  · exact Or.inr ⟨hc, e, rfl, he⟩

theorem lands_ensure {p : Prop} [Decidable p] {e : ε} (he : E e) (h : c → p) :
    Lands E c (ensure p e) fun _ => p := by
  by_cases hp : p
  · exact Or.inl ⟨(), ensure_eq_ok.mpr hp, hp⟩
  · refine Or.inr ⟨fun hc => hp (h hc), e, ?_, he⟩
    rw [ensure, if_neg hp]

/-- A check that holds. -/
theorem lands_pass {p : Prop} [Decidable p] {e : ε} (hp : p) : Lands E c (ensure p e) fun _ => p :=
  Or.inl ⟨(), ensure_eq_ok.mpr hp, hp⟩

theorem Lands.ok {x : Except ε α} (h : Lands E c x Q) (hc : c) : ∃ a, x = .ok a ∧ Q a :=
  h.elim id fun hno => absurd hc hno.1

theorem Lands.ne_error {x : Except ε α} {e : ε} (h : Lands E c x Q) (he : ¬ E e) : x ≠ .error e := by
  rintro rfl
  rcases h with ⟨a, ha, _⟩ | ⟨_, e', he', hE⟩
  · cases ha
  · cases he'
    exact he hE

/-! ## Two computations -/

section Agree

variable {α' β' : Type} {P : α → α' → Prop} {S : β → β' → Prop}

/-- The two fail with one error, or both return, with related results. -/
def Agree (P : α → α' → Prop) (x : Except ε α) (y : Except ε α') : Prop :=
  (∃ e, x = .error e ∧ y = .error e) ∨ ∃ a b, x = .ok a ∧ y = .ok b ∧ P a b

theorem agree_ok {a : α} {b : α'} (h : P a b) : Agree P (.ok a : Except ε α) (.ok b) :=
  Or.inr ⟨a, b, rfl, rfl, h⟩

theorem agree_error {e : ε} : Agree P (.error e) (.error e) := Or.inl ⟨e, rfl, rfl⟩

/-- A computation agrees with itself. -/
theorem agree_refl (x : Except ε α) : Agree Eq x x := by
  cases x with
  | ok a => exact agree_ok rfl
  | error e => exact agree_error

/-- Two checks of what is the same. -/
theorem agree_ensure {p q : Prop} [Decidable p] [Decidable q] (h : p ↔ q) (e : ε) :
    Agree (fun _ _ => p) (ensure p e) (ensure q e) := by
  by_cases hp : p
  · rw [ensure_eq_ok.mpr hp, ensure_eq_ok.mpr (h.mp hp)]
    exact agree_ok hp
  · rw [ensure, if_neg hp, ensure, if_neg (h.not.mp hp)]
    exact agree_error

theorem Agree.bind {x : Except ε α} {y : Except ε α'} {f : α → Except ε β} {g : α' → Except ε β'}
    (h : Agree P x y) (hf : ∀ a b, P a b → Agree S (f a) (g b)) : Agree S (x >>= f) (y >>= g) := by
  rcases h with ⟨e, rfl, rfl⟩ | ⟨a, b, rfl, rfl, hab⟩
  · exact agree_error
  · exact hf a b hab

theorem Agree.mono {P' : α → α' → Prop} {x : Except ε α} {y : Except ε α'} (h : Agree P x y)
    (hle : ∀ a b, P a b → P' a b) : Agree P' x y := by
  rcases h with h | ⟨a, b, ha, hb, hab⟩
  · exact Or.inl h
  · exact Or.inr ⟨a, b, ha, hb, hle a b hab⟩

/-- What the two return, together with how. -/
theorem Agree.runs {x : Except ε α} {y : Except ε α'} (h : Agree P x y) :
    Agree (fun a b => P a b ∧ x = .ok a ∧ y = .ok b) x y := by
  rcases h with h | ⟨a, b, rfl, rfl, hab⟩
  · exact Or.inl h
  · exact agree_ok ⟨hab, rfl, rfl⟩

/-- Two computations that agree on what is read of their results. -/
theorem Agree.map {γ : Type} {x : Except ε α} {y : Except ε α'} {f : α → γ} {g : α' → γ}
    (h : Agree P x y) (hf : ∀ a b, P a b → f a = g b) : x.map f = y.map g := by
  rcases h with ⟨e, rfl, rfl⟩ | ⟨a, b, rfl, rfl, hab⟩
  · rfl
  · exact congrArg Except.ok (hf a b hab)

end Agree

end MonoAgent.Lib
