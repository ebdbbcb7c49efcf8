import MonoAgent.Composition.Effects

/-!
# Cleanups run once, in reverse

The cleanups still on the stack and those that were called make up what setup
collected, read backwards (`Inv.once`); where `start` and the close task are says which
of them may be in the loop (`Shape`).  All of it is kept by every step but one: a
cancellation at the second wait of a caller, while the close task still waits for
setup, ends the close task before it has run anything.  Runs without such a step are
`Patient`.
-/

namespace MonoAgent.Composition

open MonoAgent.Lib

variable {γ : Type} {s t : Effect γ}

/-! ## Statements -/

namespace Effect

/-- Everything was called, has ended, and the owner has let go of the effect. -/
def Released (s : Effect γ) : Prop :=
  s.removals = 1 ∧ s.cleanups = [] ∧ s.running = none

/-- Setup has settled or is rolled back, and it failed or `aclose` was called. -/
def Due (s : Effect γ) : Prop :=
  s.failed = true ∨ s.ready = true ∧ s.close ≠ .none

/-- What the loop has still to do. -/
def rank (s : Effect γ) : ℕ :=
  2 * s.cleanups.length + (if s.running.isSome then 1 else 0) +
    (if s.close = .none ∨ s.close = .waiting then 1 else 0) + (if s.removals = 0 then 1 else 0)

/-- A caller of the close task waits without the shield. -/
def Bare (s : Effect γ) (a : EffectAction γ) : Prop :=
  match a with
  | .cancel k => s.callers k = .waiting .bare
  | .cancelStart => match s.setup with | .settled c => c = .waiting .bare | _ => False
  | _ => False

/-- The step is no cancellation at a second wait while the close task waits for setup. -/
def Patient (s : Effect γ) (a : EffectAction γ) : Prop :=
  s.Bare a → s.close ≠ .waiting

end Effect

open Effect

/-- A step of `_run_cleanups`, of a cleanup, or of the close task. -/
def EffectAction.ofWorker : EffectAction γ → Prop
  | .clean => True
  | .settle _ => True
  | .proceed => True
  | _ => False

/-! ## The invariant -/

/-- Which coroutine may be in the loop, by where `start` and the close task are. -/
def Shape (s : Effect γ) : Prop :=
  match s.setup with
  | .unstarted | .collecting _ =>
      s.ready = false ∧ s.failed = false ∧ s.removals = 0 ∧ s.called = [] ∧ s.running = none ∧
        (s.close = .none ∨ s.close = .waiting)
  | .rollback =>
      s.ready = false ∧ s.failed = true ∧ s.removals = 0 ∧ (s.close = .none ∨ s.close = .waiting)
  | .settled _ =>
      s.ready = true ∧
        match s.close with
        | .none | .waiting =>
            s.failed = true ∧ s.Released ∨
              s.failed = false ∧ s.removals = 0 ∧ s.called = [] ∧ s.running = none
        | .cleaning => s.failed = false ∧ s.removals = 0
        | .done _ => s.Released
        | .cancelled => False

structure Inv (s : Effect γ) : Prop where
  shape : Shape s
  once : s.called ++ s.cleanups.reverse = s.collected.reverse
  finished : s.finished ++ s.running.toList = s.called
  closed : s.closed = true ↔ s.removals = 1
  returned : ∀ k, s.callers k = .returned → s.removals = 1

theorem Inv.start : Inv ({} : Effect γ) where
  shape := ⟨rfl, rfl, rfl, rfl, rfl, Or.inl rfl⟩
  once := rfl
  finished := rfl
  closed := by simp
  returned _ h := by cases h

/-- A waiting caller that goes on normally finds the close task done. -/
theorem outcome_returned {w : Wait} {c : Caller} (h : s.outcome w = some c)
    (hc : c = .returned) : ∃ raised, s.close = .done raised := by
  unfold Effect.outcome at h
  split at h
  · next raised hdone => exact ⟨raised, hdone⟩
  · cases h
    cases hc
  · cases h

theorem Shape.released (h : Shape s) {raised : Bool} (hclose : s.close = .done raised) :
    s.Released := by
  unfold Shape at h
  rw [hclose] at h
  split at h
  · obtain ⟨-, -, -, -, -, h | h⟩ := h <;> cases h
  · obtain ⟨-, -, -, -, -, h | h⟩ := h <;> cases h
  · obtain ⟨-, -, -, h | h⟩ := h <;> cases h
  · exact h.2

/-! ## Steps of setup -/

/-- What a step keeps: the invariant, and that the effect is due with no more to do. -/
structure Keeps (s t : Effect γ) : Prop where
  inv : Inv t
  due : s.Due → t.Due ∧ t.rank ≤ s.rank

/-- Setup that has not settled is not due. -/
theorem not_due (hready : s.ready = false) (hfailed : s.failed = false) : ¬ s.Due := by
  rintro (h | ⟨h, -⟩)
  · rw [hfailed] at h
    cases h
  · rw [hready] at h
    cases h

theorem Inv.begin (h : Inv s) (hsetup : s.setup = .unstarted) (rest : List (Beat γ)) :
    Keeps s { s with setup := .collecting rest } := by
  obtain ⟨hshape, honce, hfinished, hclosed, hreturned⟩ := h
  rw [Shape, hsetup] at hshape
  exact ⟨⟨hshape, honce, hfinished, hclosed, hreturned⟩,
    fun hdue => absurd hdue (not_due hshape.1 hshape.2.1)⟩

theorem Inv.collectNext (h : Inv s) {rest : List (Beat γ)} (hsetup : s.setup = .collecting rest) :
    Keeps s (s.collectNext rest) := by
  obtain ⟨hshape, honce, hfinished, hclosed, hreturned⟩ := h
  rw [Shape, hsetup] at hshape
  obtain ⟨hready, hfailed, hremovals, hcalled, hrunning, hclose⟩ := hshape
  refine ⟨?_, fun hdue => absurd hdue (not_due hready hfailed)⟩
  cases rest with
  | nil =>
      refine ⟨⟨rfl, ?_⟩, honce, hfinished, hclosed, hreturned⟩
      rcases hclose with hclose | hclose <;> simp only [Effect.collectNext, hclose] <;>
        exact Or.inr ⟨hfailed, hremovals, hcalled, hrunning⟩
  | cons beat rest =>
      cases beat with
      | append c =>
          refine ⟨⟨hready, hfailed, hremovals, hcalled, hrunning, hclose⟩, ?_, hfinished, hclosed,
            hreturned⟩
          simp only [Effect.collectNext, hcalled, List.nil_append] at honce ⊢
          rw [List.reverse_append, List.reverse_append, honce]
      | await =>
          exact ⟨⟨hready, hfailed, hremovals, hcalled, hrunning, hclose⟩, honce, hfinished,
            hclosed, hreturned⟩
      | raise => exact ⟨⟨hready, rfl, hremovals, hclose⟩, honce, hfinished, hclosed, hreturned⟩

/-- A cancellation that reaches `setup` at a wait. -/
theorem Inv.fail (h : Inv s) {rest : List (Beat γ)} (hsetup : s.setup = .collecting rest) :
    Keeps s { s with setup := .rollback, failed := true } := by
  obtain ⟨hshape, honce, hfinished, hclosed, hreturned⟩ := h
  rw [Shape, hsetup] at hshape
  obtain ⟨hready, hfailed, hremovals, -, -, hclose⟩ := hshape
  exact ⟨⟨⟨hready, rfl, hremovals, hclose⟩, honce, hfinished, hclosed, hreturned⟩,
    fun hdue => absurd hdue (not_due hready hfailed)⟩

/-! ## Steps of the loop -/

theorem Inv.settle (h : Inv s) {c : γ} (hrunning : s.running = some c) (raised : Bool) :
    Inv { s with
      running := none, finished := s.finished ++ [c], errors := s.errors || raised } := by
  obtain ⟨hshape, honce, hfinished, hclosed, hreturned⟩ := h
  refine ⟨?_, honce, ?_, hclosed, hreturned⟩
  · unfold Shape at hshape ⊢
    dsimp only
    split at hshape
    · next hsetup =>
        simp [hrunning] at hshape
    · next hsetup =>
        simp [hrunning] at hshape
    · next hsetup => simpa [hsetup] using hshape
    · next hsetup =>
        obtain ⟨hready, hshape⟩ := hshape
        rw [hsetup]
        refine ⟨hready, ?_⟩
        split at hshape
        · next hclose =>
            rcases hshape with ⟨-, hreleased⟩ | ⟨-, -, -, hnone⟩
            · simp [hreleased.2.2] at hrunning
            · simp [hnone] at hrunning
        · next hclose =>
            rcases hshape with ⟨-, hreleased⟩ | ⟨-, -, -, hnone⟩
            · simp [hreleased.2.2] at hrunning
            · simp [hnone] at hrunning
        · next hclose => simpa [hclose] using hshape
        · next hclose => simp [hshape.2.2] at hrunning
        · exact hshape.elim
  · rw [hrunning] at hfinished
    simpa using hfinished

theorem rank_settle {c : γ} (hrunning : s.running = some c) (raised : Bool) :
    Effect.rank { s with
      running := none, finished := s.finished ++ [c], errors := s.errors || raised } < s.rank := by
  simp only [Effect.rank, hrunning]
  simp

/-- The loop pops a cleanup. -/
theorem Inv.pop (h : Inv s) (hcleaning : s.Cleaning) (hidle : s.running = none) {c : γ}
    (hlast : s.cleanups.getLast? = some c) :
    Inv { s with
      cleanups := s.cleanups.dropLast, running := some c, called := s.called ++ [c] } := by
  obtain ⟨hshape, honce, hfinished, hclosed, hreturned⟩ := h
  obtain ⟨before, hbefore⟩ := List.getLast?_eq_some_iff.mp hlast
  have hnonempty : s.cleanups ≠ [] := by simp [hbefore]
  refine ⟨?_, ?_, ?_, hclosed, hreturned⟩
  · unfold Shape at hshape ⊢
    unfold Effect.Cleaning at hcleaning
    dsimp only
    split at hshape
    · next hsetup =>
        obtain ⟨-, -, -, -, -, hclose | hclose⟩ := hshape <;> simp [hsetup, hclose] at hcleaning
    · next hsetup =>
        obtain ⟨-, -, -, -, -, hclose | hclose⟩ := hshape <;> simp [hsetup, hclose] at hcleaning
    · next hsetup => simpa [hsetup] using hshape
    · next hsetup =>
        rw [hsetup] at hcleaning ⊢
        have hclose : s.close = .cleaning := by simpa using hcleaning
        simpa [hclose] using hshape
  · rw [← honce, hbefore]
    simp
  · rw [hidle] at hfinished
    simpa using hfinished

/-- The loop has nothing left. -/
theorem Inv.release (h : Inv s) (hcleaning : s.Cleaning) (hidle : s.running = none)
    (hempty : s.cleanups = []) : Inv s.release := by
  obtain ⟨hshape, honce, hfinished, hclosed, hreturned⟩ := h
  unfold Shape at hshape
  unfold Effect.Cleaning at hcleaning
  unfold Effect.release
  split at hshape
  · next hsetup =>
      obtain ⟨-, -, -, -, -, hclose | hclose⟩ := hshape <;> simp [hsetup, hclose] at hcleaning
  · next hsetup =>
      obtain ⟨-, -, -, -, -, hclose | hclose⟩ := hshape <;> simp [hsetup, hclose] at hcleaning
  · next hsetup =>
      obtain ⟨-, hfailed, hremovals, hclose⟩ := hshape
      rw [hsetup]
      refine ⟨⟨rfl, ?_⟩, honce, hfinished, by simp [hremovals], fun _ _ => by simp [hremovals]⟩
      rcases hclose with hclose | hclose <;> simp only [hclose] <;>
        exact Or.inl ⟨hfailed, by simp [hremovals], hempty, hidle⟩
  · next caller hsetup =>
      rw [hsetup] at hcleaning ⊢
      have hclose : s.close = .cleaning := by simpa using hcleaning
      simp only [hclose] at hshape
      obtain ⟨hready, -, hremovals⟩ := hshape
      refine ⟨?_, honce, hfinished, by simp [hremovals], fun _ _ => by simp [hremovals]⟩
      exact ⟨hready, by simp [hremovals], hempty, hidle⟩

theorem cleaning_not_released (h : Inv s) (hcleaning : s.Cleaning) : s.removals = 0 := by
  have hshape := h.shape
  unfold Shape at hshape
  unfold Effect.Cleaning at hcleaning
  split at hshape
  · exact hshape.2.2.1
  · exact hshape.2.2.1
  · exact hshape.2.2.1
  · next caller hsetup =>
      rw [hsetup] at hcleaning
      have hclose : s.close = .cleaning := by simpa using hcleaning
      simp only [hclose] at hshape
      exact hshape.2.2

/-- One turn of the loop keeps the invariant and brings the end nearer. -/
theorem Inv.clean (h : Inv s) (hcleaning : s.Cleaning) (hidle : s.running = none) :
    Inv s.clean ∧ s.clean.rank < s.rank ∧ (s.Due → s.clean.Due) := by
  have hremovals := cleaning_not_released h hcleaning
  cases hlast : s.cleanups.getLast? with
  | some c =>
      have hclean : s.clean = { s with
          cleanups := s.cleanups.dropLast, running := some c, called := s.called ++ [c] } := by
        simp only [Effect.clean, hlast]
      obtain ⟨before, hbefore⟩ := List.getLast?_eq_some_iff.mp hlast
      rw [hclean]
      refine ⟨h.pop hcleaning hidle hlast, ?_, fun hdue => hdue⟩
      simp only [Effect.rank, hbefore, hidle, List.dropLast_concat, List.length_append,
        List.length_singleton, Option.isSome_some, Option.isSome_none, if_true]
      simp
      omega
  | none =>
      have hempty := List.getLast?_eq_none_iff.mp hlast
      have hclean : s.clean = s.release := by simp only [Effect.clean, hlast]
      rw [hclean]
      refine ⟨h.release hcleaning hidle hempty, ?_, fun hdue => ?_⟩
      · unfold Effect.release
        split
        · simp [Effect.rank, hremovals]
        · have hdone : ¬ (Closing.done s.errors = Closing.none ∨ Closing.done s.errors = Closing.waiting) := by simp
          simp only [Effect.rank, hremovals]
          rw [if_neg hdone, if_neg (Nat.succ_ne_zero 0), if_pos trivial]
          omega
      · unfold Effect.release
        rcases hdue with hfailed | ⟨hready, -⟩
        · split <;> exact Or.inl hfailed
        · split
          · next hsetup =>
              have hshape := h.shape
              rw [Shape, hsetup] at hshape
              exact Or.inl hshape.2.1
          · exact Or.inr ⟨hready, by simp⟩

theorem Inv.proceed (h : Inv s) (hwaiting : s.close = .waiting) (hready : s.ready = true) :
    Inv (if s.closed then { s with close := .done false }
      else { s with close := .cleaning, errors := false }) := by
  obtain ⟨hshape, honce, hfinished, hclosed, hreturned⟩ := h
  unfold Shape at hshape
  split at hshape
  · simp [hready] at hshape
  · simp [hready] at hshape
  · simp [hready] at hshape
  · next caller hsetup =>
      simp only [hwaiting] at hshape
      obtain ⟨-, ⟨-, hreleased⟩ | ⟨hfailed, hremovals, -, -⟩⟩ := hshape
      · rw [if_pos (hclosed.mpr hreleased.1)]
        refine ⟨?_, honce, hfinished, hclosed, hreturned⟩
        unfold Shape
        rw [hsetup]
        exact ⟨hready, hreleased.1, hreleased.2.1, hreleased.2.2⟩
      · have hopen : ¬ s.closed = true := fun hyes => by simp [hclosed.mp hyes] at hremovals
        rw [if_neg hopen]
        refine ⟨?_, honce, hfinished, hclosed, hreturned⟩
        unfold Shape
        rw [hsetup]
        exact ⟨hready, hfailed, hremovals⟩

/-! ## Steps of callers -/

/-- A step in which only callers, and the creation of the close task, change. -/
theorem Inv.callers (h : Inv s) {callers : ℕ → Caller} {setup : Setup γ} {close : Closing}
    (hsetup : setup = s.setup ∨ ∃ c c', s.setup = .settled c ∧ setup = .settled c')
    (hclose : close = s.close ∨ s.close = .none ∧ s.closed = false ∧ close = .waiting)
    (hreturned : ∀ k, callers k = .returned → s.removals = 1) :
    Keeps s { s with callers, setup, close } := by
  obtain ⟨hshape, honce, hfinished, hclosed, -⟩ := h
  have hnone : close = .none ∨ close = .waiting → s.close = .none ∨ s.close = .waiting := by
    rintro hnew
    rcases hclose with hsame | ⟨hold, -, -⟩
    · rwa [hsame] at hnew
    · exact Or.inl hold
  refine ⟨⟨?_, honce, hfinished, hclosed, hreturned⟩, fun hdue => ⟨?_, ?_⟩⟩
  · have hafter : Shape { s with callers, close } := by
      unfold Shape at hshape ⊢
      dsimp only
      rcases hclose with rfl | ⟨hold, -, rfl⟩
      · exact hshape
      · simpa [hold, Released] using hshape
    rcases hsetup with rfl | ⟨c, c', hold, rfl⟩
    · exact hafter
    · unfold Shape at hafter ⊢
      rw [hold] at hafter
      exact hafter
  · rcases hdue with hfailed | ⟨hready, hne⟩
    · exact Or.inl hfailed
    · refine Or.inr ⟨hready, ?_⟩
      rcases hclose with rfl | ⟨hold, -, -⟩
      · exact hne
      · exact absurd hold hne
  · simp only [Effect.rank]
    rcases hclose with rfl | ⟨hold, -, rfl⟩
    · exact Nat.le_refl _
    · simp [hold]

theorem Inv.aclose (h : Inv s) (k : ℕ) (inSetup : Bool) : Keeps s (s.aclose k inSetup) := by
  unfold Effect.aclose
  have hwaiting (j : ℕ) (hj : Function.update s.callers k (.waiting .shielded) j = .returned) :
      s.removals = 1 := by
    rcases eq_or_ne j k with rfl | hne
    · simp at hj
    · exact h.returned j (by simpa [Function.update_of_ne hne] using hj)
  split_ifs with hclosed hreentrant hnone
  · refine h.callers (Or.inl rfl) (Or.inl rfl) fun j hj => ?_
    exact h.closed.mp hclosed
  · refine h.callers (Or.inl rfl) (Or.inl rfl) fun j hj => ?_
    rcases eq_or_ne j k with rfl | hne
    · simp at hj
    · exact h.returned j (by simpa [Function.update_of_ne hne] using hj)
  · exact h.callers (Or.inl rfl) (Or.inr ⟨hnone, by simpa using hclosed, rfl⟩) hwaiting
  · exact h.callers (Or.inl rfl) (Or.inl rfl) hwaiting

/-- A cancellation of a caller moves it to its second wait, and leaves the close task
alone unless it is there already. -/
theorem cancelled_eq {c c' : Caller} {close : Closing} (h : s.cancelled c = some (c', close))
    (hpatient : c = .waiting .bare → s.close ≠ .waiting) :
    close = s.close ∧ c' = .waiting .bare := by
  unfold Effect.cancelled at h
  split at h
  · cases h
    exact ⟨rfl, rfl⟩
  · cases h
    refine ⟨?_, rfl⟩
    have hne := hpatient rfl
    cases hclose : s.close with
    | waiting => exact absurd hclose hne
    | none => rfl
    | cleaning => rfl
    | done raised => rfl
    | cancelled => rfl
  · cases h

theorem Inv.cancel (h : Inv s) {k : ℕ} {c : Caller} {close : Closing}
    (hcancel : s.cancelled (s.callers k) = some (c, close))
    (hpatient : s.callers k = .waiting .bare → s.close ≠ .waiting) :
    Keeps s { s with callers := Function.update s.callers k c, close } := by
  obtain ⟨rfl, rfl⟩ := cancelled_eq hcancel hpatient
  refine h.callers (Or.inl rfl) (Or.inl rfl) fun j hj => ?_
  rcases eq_or_ne j k with rfl | hne
  · simp at hj
  · exact h.returned j (by simpa [Function.update_of_ne hne] using hj)

theorem Inv.cancelSettled (h : Inv s) {c c' : Caller} {close : Closing}
    (hsetup : s.setup = .settled c) (hcancel : s.cancelled c = some (c', close))
    (hpatient : c = .waiting .bare → s.close ≠ .waiting) :
    Keeps s { s with setup := .settled c', close } := by
  obtain ⟨rfl, rfl⟩ := cancelled_eq hcancel hpatient
  exact h.callers (Or.inr ⟨c, _, hsetup, rfl⟩) (Or.inl rfl) h.returned

theorem Inv.wake (h : Inv s) {k : ℕ} {w : Wait} {c : Caller} (hwake : s.outcome w = some c) :
    Keeps s { s with callers := Function.update s.callers k c } := by
  refine h.callers (Or.inl rfl) (Or.inl rfl) fun j hj => ?_
  rcases eq_or_ne j k with rfl | hne
  · have hc : c = .returned := by simpa using hj
    obtain ⟨raised, hdone⟩ := outcome_returned hwake hc
    exact (h.shape.released hdone).1
  · exact h.returned j (by simpa [Function.update_of_ne hne] using hj)

/-! ## Runs -/

/-- A step keeps the invariant, and once the effect is due it stays so with no more to
do; a step of the workers does some of it. -/
theorem Inv.next (h : Inv s) {a : EffectAction γ} (hok : s.Patient a) (hn : s.next a = some t) :
    Inv t ∧ (s.Due → t.Due ∧ t.rank ≤ s.rank ∧ (a.ofWorker → t.rank < s.rank)) := by
  have hof {t : Effect γ} (hkeeps : Keeps s t) (hnot : ¬ a.ofWorker) :
      Inv t ∧ (s.Due → t.Due ∧ t.rank ≤ s.rank ∧ (a.ofWorker → t.rank < s.rank)) :=
    ⟨hkeeps.inv, fun hdue => ⟨(hkeeps.due hdue).1, (hkeeps.due hdue).2,
      fun hwork => absurd hwork hnot⟩⟩
  cases a with
  | start output =>
      simp only [Effect.next] at hn
      split at hn
      · next hsetup =>
          cases hn
          exact hof (h.begin hsetup _) id
      · cases hn
  | setup =>
      simp only [Effect.next] at hn
      split at hn
      · next rest hsetup =>
          cases hn
          exact hof (h.collectNext hsetup) id
      · cases hn
  | cancelStart =>
      simp only [Effect.next] at hn
      split at hn
      · next rest hsetup =>
          cases hn
          exact hof (h.fail hsetup) id
      · next c hsetup =>
          obtain ⟨⟨c', close⟩, hcancel, rfl⟩ := Option.map_eq_some_iff.mp hn
          refine hof (h.cancelSettled hsetup hcancel fun hbare => hok ?_) id
          simpa [Effect.Bare, hsetup] using hbare
      · cases hn
  | clean =>
      simp only [Effect.next] at hn
      split at hn
      · next hcond =>
          cases hn
          obtain ⟨hinv, hrank, hdue⟩ := h.clean hcond.1 hcond.2
          exact ⟨hinv, fun hs => ⟨hdue hs, Nat.le_of_lt hrank, fun _ => hrank⟩⟩
      · cases hn
  | settle raised =>
      obtain ⟨c, hrunning, rfl⟩ := Option.map_eq_some_iff.mp hn
      have hrank := rank_settle hrunning raised
      exact ⟨h.settle hrunning raised, fun hs => ⟨hs, Nat.le_of_lt hrank, fun _ => hrank⟩⟩
  | proceed =>
      simp only [Effect.next] at hn
      split at hn
      · next hcond =>
          cases hn
          refine ⟨h.proceed hcond.1 hcond.2, fun hs => ?_⟩
          have hdue : Effect.Due (if s.closed then { s with close := .done false }
              else { s with close := .cleaning, errors := false }) := by
            split
            · exact Or.inr ⟨hcond.2, by simp⟩
            · exact Or.inr ⟨hcond.2, by simp⟩
          have hrank : Effect.rank (if s.closed then { s with close := .done false }
              else { s with close := .cleaning, errors := false }) < s.rank := by
            split <;> simp [Effect.rank, hcond.1]
          exact ⟨hdue, Nat.le_of_lt hrank, fun _ => hrank⟩
      · cases hn
  | aclose k inSetup =>
      simp only [Effect.next] at hn
      split at hn
      · cases hn
        exact hof (h.aclose k inSetup) id
      · cases hn
  | cancel k =>
      obtain ⟨⟨c, close⟩, hcancel, rfl⟩ := Option.map_eq_some_iff.mp hn
      exact hof (h.cancel hcancel fun hbare => hok hbare) id
  | wake k =>
      simp only [Effect.next] at hn
      split at hn
      · next w hwaiting =>
          obtain ⟨c, hwake, rfl⟩ := Option.map_eq_some_iff.mp hn
          exact hof (h.wake hwake) id
      · cases hn
  | wakeStart =>
      simp only [Effect.next] at hn
      split at hn
      · next w hsetup =>
          obtain ⟨c, hwake, rfl⟩ := Option.map_eq_some_iff.mp hn
          exact hof (h.callers (Or.inr ⟨_, c, hsetup, rfl⟩) (Or.inl rfl) h.returned) id
      · cases hn

/-- A due effect is released, or one of its workers can go on. -/
theorem Inv.progress (h : Inv s) (hdue : s.Due) :
    s.Released ∨ ∃ a : EffectAction γ, a.ofWorker ∧ (s.next a).isSome = true := by
  cases hrunning : s.running with
  | some c => exact Or.inr ⟨.settle false, trivial, by simp [Effect.next, hrunning]⟩
  | none =>
      by_cases hcleaning : s.Cleaning
      · exact Or.inr ⟨.clean, trivial, by simp [Effect.next, hrunning, hcleaning]⟩
      · have hshape := h.shape
        unfold Shape at hshape
        split at hshape
        · exact absurd hdue (not_due hshape.1 hshape.2.1)
        · exact absurd hdue (not_due hshape.1 hshape.2.1)
        · next hsetup => exact absurd (Or.inl (by simp [hsetup])) hcleaning
        · next caller hsetup =>
            obtain ⟨hready, hshape⟩ := hshape
            cases hclose : s.close with
            | waiting =>
                exact Or.inr ⟨.proceed, trivial, by simp [Effect.next, hclose, hready]⟩
            | none =>
                simp only [hclose] at hshape
                rcases hshape with ⟨-, hreleased⟩ | ⟨hfailed, -, -, -⟩
                · exact Or.inl hreleased
                · rcases hdue with hyes | ⟨-, hne⟩
                  · rw [hfailed] at hyes
                    cases hyes
                  · exact absurd hclose hne
            | cleaning => exact absurd (Or.inr hclose) hcleaning
            | done raised =>
                simp only [hclose] at hshape
                exact Or.inl hshape
            | cancelled =>
                simp only [hclose] at hshape

/-- The owner lets go of the effect only when everything has been called and has ended. -/
theorem Inv.released (h : Inv s) (hremoved : s.removals ≠ 0) :
    s.Released ∧ s.finished = s.collected.reverse := by
  have hreleased : s.Released := by
    have hshape := h.shape
    unfold Shape at hshape
    split at hshape
    · exact absurd hshape.2.2.1 hremoved
    · exact absurd hshape.2.2.1 hremoved
    · exact absurd hshape.2.2.1 hremoved
    · obtain ⟨-, hshape⟩ := hshape
      split at hshape
      · rcases hshape with ⟨-, hreleased⟩ | ⟨-, hzero, -, -⟩
        · exact hreleased
        · exact absurd hzero hremoved
      · rcases hshape with ⟨-, hreleased⟩ | ⟨-, hzero, -, -⟩
        · exact hreleased
        · exact absurd hzero hremoved
      · exact absurd hshape.2 hremoved
      · exact hshape
      · exact hshape.elim
  have honce := h.once
  have hfinished := h.finished
  rw [hreleased.2.1, List.reverse_nil, List.append_nil] at honce
  rw [hreleased.2.2, Option.toList_none, List.append_nil] at hfinished
  exact ⟨hreleased, hfinished.trans honce⟩

/-- The close task was cancelled before it ran anything, and setup has settled. -/
def Abandoned (s : Effect γ) : Prop :=
  s.close = .cancelled ∧ s.running = none ∧ s.called = [] ∧ ∃ c, s.setup = .settled c

theorem Abandoned.next (h : Abandoned s) {a : EffectAction γ} (hn : s.next a = some t) :
    Abandoned t := by
  obtain ⟨hclose, hrunning, hcalled, c, hsetup⟩ := h
  have hcancelled {c c' : Caller} {close : Closing} (h : s.cancelled c = some (c', close)) :
      close = .cancelled := by
    unfold Effect.cancelled at h
    split at h
    · cases h
      exact hclose
    · cases h
      rw [hclose]
      rfl
    · cases h
  cases a with
  | start output => simp [Effect.next, hsetup] at hn
  | setup => simp [Effect.next, hsetup] at hn
  | cancelStart =>
      simp only [Effect.next, hsetup] at hn
      obtain ⟨⟨c', close⟩, hcancel, rfl⟩ := Option.map_eq_some_iff.mp hn
      exact ⟨hcancelled hcancel, hrunning, hcalled, c', rfl⟩
  | clean => simp [Effect.next, Effect.Cleaning, hsetup, hclose] at hn
  | settle raised => simp [Effect.next, hrunning] at hn
  | proceed => simp [Effect.next, hclose] at hn
  | aclose k inSetup =>
      simp only [Effect.next] at hn
      split at hn
      · cases hn
        unfold Effect.aclose
        split_ifs with hclosed hreentrant hnone
        · exact ⟨hclose, hrunning, hcalled, c, hsetup⟩
        · exact ⟨hclose, hrunning, hcalled, c, hsetup⟩
        · rw [hclose] at hnone
          cases hnone
        · exact ⟨hclose, hrunning, hcalled, c, hsetup⟩
      · cases hn
  | cancel k =>
      obtain ⟨⟨c', close⟩, hcancel, rfl⟩ := Option.map_eq_some_iff.mp hn
      exact ⟨hcancelled hcancel, hrunning, hcalled, c, hsetup⟩
  | wake k =>
      simp only [Effect.next] at hn
      split at hn
      · obtain ⟨c', -, rfl⟩ := Option.map_eq_some_iff.mp hn
        exact ⟨hclose, hrunning, hcalled, c, hsetup⟩
      · cases hn
  | wakeStart =>
      simp only [Effect.next] at hn
      split at hn
      · obtain ⟨c', -, rfl⟩ := Option.map_eq_some_iff.mp hn
        exact ⟨hclose, hrunning, hcalled, c', rfl⟩
      · cases hn

end MonoAgent.Composition
