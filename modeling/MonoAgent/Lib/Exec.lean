import Mathlib

/-!
# Programs that fail and keep their effects

`Exec ε σ α` is a program over a state `σ` that may raise an `ε`.  The state a
raised error leaves is the state at the raise: nothing is undone by itself, as
in a language with exceptions and mutable state.

`Post x s Q E` says that `x` run from `s` ends in `Q` when it returns and in `E`
when it raises.  There is one rule for each way to build a program.
-/

namespace MonoAgent.Lib

/-- Programs over `σ` that raise `ε`. -/
abbrev Exec (ε σ α : Type) := ExceptT ε (StateM σ) α

/-- Refuse with `e` unless `c` holds. -/
def ensure {ε : Type} (c : Prop) [Decidable c] (e : ε) : Except ε Unit :=
  if c then .ok () else .error e

theorem ensure_eq_ok {ε : Type} {c : Prop} [Decidable c] {e : ε} :
    ensure c e = .ok () ↔ c := by
  unfold ensure
  split
  · next h => exact iff_of_true rfl h
  · next h => exact iff_of_false (fun h => by cases h) h

theorem Except.bind_eq_ok {ε α β : Type} {x : Except ε α} {f : α → Except ε β} {b : β} :
    (x >>= f) = .ok b ↔ ∃ a, x = .ok a ∧ f a = .ok b := by
  cases x with
  | ok a =>
      constructor
      · intro h
        exact ⟨a, rfl, h⟩
      · rintro ⟨a', ha, h⟩
        cases ha
        exact h
  | error e =>
      constructor
      · intro h
        cases h
      · rintro ⟨_, h, _⟩
        cases h

theorem Except.mapM_ok {ε α β : Type} {f : α → Except ε β} {l : List α}
    (h : ∀ x ∈ l, ∃ y, f x = .ok y) : ∃ out, l.mapM f = .ok out := by
  induction l with
  | nil => exact ⟨[], rfl⟩
  | cons x xs ih =>
      obtain ⟨y, hy⟩ := h x List.mem_cons_self
      obtain ⟨out, hout⟩ := ih fun z hz => h z (List.mem_cons_of_mem _ hz)
      rw [List.mapM_cons, hy]
      exact ⟨y :: out, by simp [hout, bind, Except.bind, pure, Except.pure]⟩

theorem Except.ok_of_mapM {ε α β : Type} {f : α → Except ε β} {l : List α} {out : List β}
    (h : l.mapM f = .ok out) {x : α} (hx : x ∈ l) : ∃ y, f x = .ok y := by
  induction l generalizing out with
  | nil => cases hx
  | cons z zs ih =>
      rw [List.mapM_cons] at h
      obtain ⟨y, hy, h⟩ := Except.bind_eq_ok.mp h
      obtain ⟨ys, hys, -⟩ := Except.bind_eq_ok.mp h
      rcases List.mem_cons.mp hx with rfl | hx
      · exact ⟨y, hy⟩
      · exact ih hys hx

/-- What a traversal raises is raised by an element. -/
theorem Except.raised_of_mapM {ε α β : Type} {f : α → Except ε β} {l : List α} {e : ε}
    (h : l.mapM f = .error e) : ∃ a ∈ l, f a = .error e := by
  induction l with
  | nil => cases h
  | cons a l ih =>
      rw [List.mapM_cons] at h
      cases ha : f a with
      | error e' =>
          rw [ha] at h
          cases h
          exact ⟨a, List.mem_cons_self, ha⟩
      | ok b =>
          rw [ha] at h
          cases hrest : l.mapM f with
          | error e' =>
              rw [hrest] at h
              cases h
              obtain ⟨x, hx, hraised⟩ := ih hrest
              exact ⟨x, List.mem_cons_of_mem _ hx, hraised⟩
          | ok bs =>
              rw [hrest] at h
              cases h

theorem Except.map_eq_ok {ε α β : Type} {x : Except ε α} {f : α → β} {b : β} :
    x.map f = .ok b ↔ ∃ a, x = .ok a ∧ f a = b := by
  cases x with
  | ok a => simp [Except.map]
  | error e => simp [Except.map]

namespace Exec

variable {ε σ α β : Type} {s : σ} {Q : α → σ → Prop} {E : ε → σ → Prop}

/-- The outcome of a program and the state it leaves. -/
def run (x : Exec ε σ α) (s : σ) : Except ε α × σ := x s

/-- Raise what a pure computation raises. -/
def liftExcept (x : Except ε α) : Exec ε σ α := fun s => (x, s)

/-- Read the state. -/
def read (f : σ → α) : Exec ε σ α := fun s => (.ok (f s), s)

/-- Change the state. -/
def modify (f : σ → σ) : Exec ε σ Unit := fun s => (.ok (), f s)

/-- Refuse unless `c` holds. -/
def check (c : Prop) [Decidable c] (e : ε) : Exec ε σ Unit :=
  if c then pure () else throw e

/-- Postconditions for both ways a program can end. -/
def Post (x : Exec ε σ α) (s : σ) (Q : α → σ → Prop) (E : ε → σ → Prop) : Prop :=
  (∀ a t, x.run s = (.ok a, t) → Q a t) ∧ (∀ e t, x.run s = (.error e, t) → E e t)

/-! ## Runs -/

theorem run_pure (a : α) : (pure a : Exec ε σ α).run s = (.ok a, s) := rfl

theorem run_bind (x : Exec ε σ α) (f : α → Exec ε σ β) (s : σ) :
    (x >>= f).run s = match x.run s with
      | (.ok a, t) => (f a).run t
      | (.error e, t) => (.error e, t) := by
  show (ExceptT.bind x f) s = _
  unfold ExceptT.bind ExceptT.mk run
  show StateT.bind x _ s = _
  unfold StateT.bind
  show (match x s with | (a, s) => _) = _
  cases x s with
  | mk r t => cases r <;> rfl

theorem run_map (f : α → β) (x : Exec ε σ α) (s : σ) :
    (f <$> x).run s = match x.run s with
      | (.ok a, t) => (.ok (f a), t)
      | (.error e, t) => (.error e, t) := by
  show (ExceptT.map f x) s = _
  unfold ExceptT.map ExceptT.mk run
  show StateT.bind x _ s = _
  unfold StateT.bind
  show (match x s with | (a, s) => _) = _
  cases x s with
  | mk r t => cases r <;> rfl

theorem run_read (f : σ → α) : (read f : Exec ε σ α).run s = (.ok (f s), s) := rfl

/-! ## Rules -/

theorem Post.mono {Q' : α → σ → Prop} {E' : ε → σ → Prop} {x : Exec ε σ α} (h : Post x s Q E)
    (hq : ∀ a t, Q a t → Q' a t) (he : ∀ e t, E e t → E' e t) : Post x s Q' E' :=
  ⟨fun a t hr => hq a t (h.1 a t hr), fun e t hr => he e t (h.2 e t hr)⟩

/-- A program ends one way or the other. -/
theorem Post.cases {x : Exec ε σ α} (h : Post x s Q E) :
    (∃ a t, x.run s = (.ok a, t) ∧ Q a t) ∨ ∃ e t, x.run s = (.error e, t) ∧ E e t := by
  cases hx : x.run s with
  | mk r t =>
      cases r with
      | ok a => exact Or.inl ⟨a, t, rfl, h.1 a t hx⟩
      | error e => exact Or.inr ⟨e, t, rfl, h.2 e t hx⟩

theorem post_pure {a : α} (h : Q a s) : Post (pure a) s Q E := by
  constructor
  · intro a' t hr
    cases hr
    exact h
  · intro e t hr
    cases hr

theorem post_throw {e : ε} (h : E e s) : Post (throw e : Exec ε σ α) s Q E := by
  constructor
  · intro a t hr
    cases hr
  · intro e' t hr
    cases hr
    exact h

/-- The rule of sequence: an error of the first part is an error of the whole. -/
theorem post_bind {x : Exec ε σ β} {f : β → Exec ε σ α}
    (h : Post x s (fun b t => Post (f b) t Q E) E) : Post (x >>= f) s Q E := by
  constructor
  · intro a t hr
    rw [run_bind] at hr
    cases hx : x.run s with
    | mk r u =>
        rw [hx] at hr
        cases r with
        | ok b => exact (h.1 b u hx).1 a t hr
        | error e => cases hr
  · intro e t hr
    rw [run_bind] at hr
    cases hx : x.run s with
    | mk r u =>
        rw [hx] at hr
        cases r with
        | ok b => exact (h.1 b u hx).2 e t hr
        | error e' =>
            cases hr
            exact h.2 _ _ hx

theorem post_map {f : β → α} {x : Exec ε σ β} (h : Post x s (fun b t => Q (f b) t) E) :
    Post (f <$> x) s Q E := by
  constructor
  · intro a t hr
    rw [run_map] at hr
    cases hx : x.run s with
    | mk r u =>
        rw [hx] at hr
        cases r with
        | ok b =>
            cases hr
            exact h.1 _ _ hx
        | error e => cases hr
  · intro e t hr
    rw [run_map] at hr
    cases hx : x.run s with
    | mk r u =>
        rw [hx] at hr
        cases r with
        | ok b => cases hr
        | error e' =>
            cases hr
            exact h.2 _ _ hx

theorem post_liftExcept {x : Except ε α} (hq : ∀ a, x = .ok a → Q a s)
    (he : ∀ e, x = .error e → E e s) : Post (liftExcept x) s Q E := by
  constructor
  · intro a t hr
    cases hr
    exact hq a rfl
  · intro e t hr
    cases hr
    exact he e rfl

theorem post_read {f : σ → α} (h : Q (f s) s) : Post (read f : Exec ε σ α) s Q E := by
  constructor
  · intro a t hr
    cases hr
    exact h
  · intro e t hr
    cases hr

theorem post_modify {f : σ → σ} {Q : Unit → σ → Prop} (h : Q () (f s)) :
    Post (modify f : Exec ε σ Unit) s Q E := by
  constructor
  · intro a t hr
    cases hr
    exact h
  · intro e t hr
    cases hr

theorem post_check {c : Prop} [Decidable c] {e : ε} {Q : Unit → σ → Prop} (hq : c → Q () s)
    (he : ¬ c → E e s) : Post (check c e) s Q E := by
  unfold check
  by_cases hc : c
  · rw [if_pos hc]
    exact post_pure (hq hc)
  · rw [if_neg hc]
    exact post_throw (he hc)

/-- A loop keeps what each round keeps. -/
theorem post_forM {γ : Type} {l : List γ} {f : γ → Exec ε σ Unit} {I : List γ → σ → Prop}
    (hstart : I l s) (hstep : ∀ x rest t, x ∈ l → I (x :: rest) t →
      Post (f x) t (fun _ u => I rest u) E) :
    Post (l.forM f) s (fun _ t => I [] t) E := by
  induction l generalizing s with
  | nil => exact post_pure hstart
  | cons x rest ih =>
      show Post (f x >>= fun _ => rest.forM f) s _ _
      refine post_bind ((hstep x rest s (List.mem_cons_self ..) hstart).mono ?_ fun _ _ h => h)
      intro _ t ht
      exact ih ht fun y rest' u hy hu => hstep y rest' u (List.mem_cons_of_mem _ hy) hu

end Exec

end MonoAgent.Lib
