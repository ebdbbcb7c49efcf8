import Mathlib

/-!
# Machines, paths and invariants

A *machine* has a set of start states and a partial step function.  An action
carries everything a step does not read off the state: the caller's arguments,
the clock, a fresh identity, the answer of an outside party.  A step that is
refused or not enabled is `none`.

`Path ok s t` is a run from `s` to `t` whose every step meets the condition
`ok`, a predicate on the state before the step and the action.  `Reach ok s`
starts the path in a start state.  The rules below are the only inductions over
runs that a development needs: `Reach.invariant` for a property of every state,
`Path.invariant` for a property that, once true, stays true, and `Path.rel` for a
preorder that every step respects.
-/

namespace MonoAgent.Lib

/-- A machine over states `σ` and actions `α`. -/
structure Machine (σ : Type*) (α : Type*) where
  /-- The states a run may start in. -/
  start : σ → Prop
  /-- One step, `none` when the action is refused. -/
  next : σ → α → Option σ

namespace Machine

variable {σ α : Type*} {M : Machine σ α} {ok ok' : σ → α → Prop}

/-- `s` leads to `t` by steps that meet `ok`. -/
inductive Path (M : Machine σ α) (ok : σ → α → Prop) (s : σ) : σ → Prop where
  | refl : Path M ok s s
  | step {t u : σ} (a : α) : Path M ok s t → ok t a → M.next t a = some u → Path M ok s u

/-- A state some start state leads to by steps that meet `ok`. -/
def Reach (M : Machine σ α) (ok : σ → α → Prop) (t : σ) : Prop :=
  ∃ s, M.start s ∧ Path M ok s t

/-- The condition every step meets. -/
def always : σ → α → Prop := fun _ _ => True

/-- A state of some run, with no condition on its steps. -/
abbrev Reachable (M : Machine σ α) : σ → Prop := M.Reach always

/-! ## Paths -/

theorem Path.trans {s t u : σ} (h : M.Path ok s t) (h' : M.Path ok t u) : M.Path ok s u := by
  induction h' with
  | refl => exact h
  | step a _ hok hn ih => exact .step a ih hok hn

theorem Path.mono (hle : ∀ s a, ok s a → ok' s a) {s t : σ} (h : M.Path ok s t) :
    M.Path ok' s t := by
  induction h with
  | refl => exact .refl
  | step a _ hok hn ih => exact .step a ih (hle _ _ hok) hn

/-- A property that every step keeps holds at the end of a path it holds at the
start of. -/
theorem Path.invariant {I : σ → Prop}
    (hstep : ∀ s a t, I s → ok s a → M.next s a = some t → I t) {s t : σ}
    (h : M.Path ok s t) (hs : I s) : I t := by
  induction h with
  | refl => exact hs
  | step a _ hok hn ih => exact hstep _ a _ ih hok hn

/-- A preorder that every step respects relates the two ends of a path.  The
invariant `I` is available at each step. -/
theorem Path.rel {I : σ → Prop} {R : σ → σ → Prop} (hrefl : ∀ s, R s s)
    (htrans : ∀ s t u, R s t → R t u → R s u)
    (hinv : ∀ s a t, I s → ok s a → M.next s a = some t → I t)
    (hstep : ∀ s a t, I s → ok s a → M.next s a = some t → R s t) {s t : σ}
    (h : M.Path ok s t) (hs : I s) : R s t := by
  induction h with
  | refl => exact hrefl s
  | step a hp hok hn ih =>
      exact htrans _ _ _ ih (hstep _ a _ (hp.invariant hinv hs) hok hn)

/-! ## Reachable states -/

theorem Reach.start {s : σ} (h : M.start s) : M.Reach ok s := ⟨s, h, .refl⟩

theorem Reach.step {s t : σ} {a : α} (h : M.Reach ok s) (hok : ok s a)
    (hn : M.next s a = some t) : M.Reach ok t := by
  obtain ⟨s₀, h₀, hp⟩ := h
  exact ⟨s₀, h₀, .step a hp hok hn⟩

theorem Reach.path {s t : σ} (h : M.Reach ok s) (hp : M.Path ok s t) : M.Reach ok t := by
  obtain ⟨s₀, h₀, hp₀⟩ := h
  exact ⟨s₀, h₀, hp₀.trans hp⟩

theorem Reach.mono (hle : ∀ s a, ok s a → ok' s a) {s : σ} (h : M.Reach ok s) :
    M.Reach ok' s := by
  obtain ⟨s₀, h₀, hp⟩ := h
  exact ⟨s₀, h₀, hp.mono hle⟩

/-- The invariant rule: true at every start state and kept by every step. -/
theorem Reach.invariant {I : σ → Prop} (hstart : ∀ s, M.start s → I s)
    (hstep : ∀ s a t, I s → ok s a → M.next s a = some t → I t) {s : σ}
    (h : M.Reach ok s) : I s := by
  obtain ⟨s₀, h₀, hp⟩ := h
  exact hp.invariant hstep (hstart s₀ h₀)

/-! ## Runs on a list of actions -/

/-- Take the actions of a list in order. -/
def run (M : Machine σ α) : σ → List α → Option σ
  | s, [] => some s
  | s, a :: as => (M.next s a).bind fun t => M.run t as
termination_by structural _ as => as

theorem run_append {s u : σ} {as bs : List α} :
    M.run s (as ++ bs) = some u ↔ ∃ t, M.run s as = some t ∧ M.run t bs = some u := by
  induction as generalizing s with
  | nil => exact ⟨fun h => ⟨s, rfl, h⟩, fun ⟨_, ht, h⟩ => Option.some.inj ht ▸ h⟩
  | cons a as ih =>
      simp only [List.cons_append, run, Option.bind_eq_some_iff, ih]
      exact ⟨fun ⟨v, hv, t, ht, hu⟩ => ⟨t, ⟨v, hv, ht⟩, hu⟩, fun ⟨t, ⟨v, hv, ht⟩, hu⟩ => ⟨v, hv, t, ht, hu⟩⟩

/-- A run whose actions meet the condition in every state. -/
theorem path_of_run {s t : σ} {as : List α} (hok : ∀ a ∈ as, ∀ s, ok s a)
    (h : M.run s as = some t) : M.Path ok s t := by
  induction as generalizing s with
  | nil =>
      cases Option.some.inj h
      exact .refl
  | cons a as ih =>
      obtain ⟨u, hu, hrest⟩ := Option.bind_eq_some_iff.mp h
      have hstep : M.Path ok s u := .step a .refl (hok a (List.mem_cons_self ..) s) hu
      exact hstep.trans (ih (fun b hb => hok b (List.mem_cons_of_mem _ hb)) hrest)

/-- A run from a start state ends in a state that is reached. -/
theorem reach_of_run {s t : σ} {as : List α} (hs : M.start s) (hok : ∀ a ∈ as, ∀ s, ok s a)
    (h : M.run s as = some t) : M.Reach ok t :=
  ⟨s, hs, path_of_run hok h⟩

/-- The state a run ends in, when it does not get stuck. -/
theorem reach_getD {s d : σ} {as : List α} (hs : M.start s) (hok : ∀ a ∈ as, ∀ s, ok s a)
    (h : (M.run s as).isSome = true) : M.Reach ok ((M.run s as).getD d) := by
  obtain ⟨t, ht⟩ := Option.isSome_iff_exists.mp h
  rw [ht]
  exact reach_of_run hs hok ht

section Checked

variable [∀ s a, Decidable (ok s a)]

/-- Take the actions of a list in order, each in a state where it meets the condition. -/
def checked (M : Machine σ α) (ok : σ → α → Prop) [∀ s a, Decidable (ok s a)] : σ → List α → Option σ
  | s, [] => some s
  | s, a :: as => if ok s a then (M.next s a).bind fun t => M.checked ok t as else none
termination_by structural _ as => as

theorem path_of_checked {s t : σ} {as : List α} (h : M.checked ok s as = some t) : M.Path ok s t := by
  induction as generalizing s with
  | nil =>
      cases Option.some.inj h
      exact .refl
  | cons a as ih =>
      obtain ⟨hok, hrest⟩ := Option.ite_none_right_eq_some.mp h
      obtain ⟨u, hu, hrest⟩ := Option.bind_eq_some_iff.mp hrest
      have hstep : M.Path ok s u := .step a .refl hok hu
      exact hstep.trans (ih hrest)

end Checked

/-- What holds at the end of a run and not at its start has a cause: some step of the run is one of
those that bring it about. -/
theorem run_cause {I P : σ → Prop} {C : σ → α → σ → Prop} (hinv : ∀ s a t, I s → M.next s a = some t → I t)
    (hstep : ∀ s a t, I s → M.next s a = some t → P t → P s ∨ C s a t) {s t : σ} {as : List α} (hs : I s)
    (hnot : ¬ P s) (h : M.run s as = some t) (hp : P t) :
    ∃ before a rest u v, as = before ++ a :: rest ∧ M.run s before = some u ∧ M.next u a = some v ∧ C u a v := by
  induction as generalizing s with
  | nil =>
      cases Option.some.inj h
      exact absurd hp hnot
  | cons a as ih =>
      obtain ⟨u, hu, hrest⟩ := Option.bind_eq_some_iff.mp h
      by_cases hpu : P u
      · exact ⟨[], a, as, s, u, rfl, rfl, hu, (hstep s a u hs hu hpu).resolve_left hnot⟩
      · obtain ⟨before, b, rest, v, w, heq, hbefore, hnext, hc⟩ := ih (hinv s a u hs hu) hpu hrest
        refine ⟨a :: before, b, rest, v, w, congrArg (a :: ·) heq, ?_, hnext, hc⟩
        exact Option.bind_eq_some_iff.mpr ⟨u, hu, hbefore⟩

end Machine

end MonoAgent.Lib
