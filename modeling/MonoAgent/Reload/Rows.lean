import MonoAgent.Reload.Journal

/-!
# What a row keeps

`Sound` holds of every row and `Evident` of every row in a failure phase.  `Keeps` relates
a row to the rows it becomes.  A row has a recovery target from its first failure phase on,
and never loses it, so `recoveryTarget ≠ none` says that the row has been in one.
-/

namespace MonoAgent.Reload

open MonoAgent.Lib

variable {t t' u : Transaction} {phase : Phase} {a : Advance} {d : Details}

/-! ## Resources -/

theorem mem_mergeEffects {current additions : List String} {r : String} :
    r ∈ mergeEffects current additions ↔ r ∈ current ∨ r ∈ additions := by
  induction additions generalizing current with
  | nil => simp [mergeEffects]
  | cons x rest ih =>
      have hcons : mergeEffects current (x :: rest) =
          mergeEffects (if x ∈ current then current else current ++ [x]) rest := rfl
      rw [hcons, ih]
      split
      · next hx =>
          constructor
          · rintro (h | h)
            · exact Or.inl h
            · exact Or.inr (List.mem_cons_of_mem _ h)
          · rintro (h | h)
            · exact Or.inl h
            · rcases List.mem_cons.mp h with rfl | h
              · exact Or.inl hx
              · exact Or.inr h
      · simp only [List.mem_append, List.mem_cons]
        tauto

/-- A merged list names what both name. -/
theorem resources_merge (current additions : String) :
    resources (mergeResources current additions) = mergeEffects [] (resources current ++ resources additions) := by
  refine fields_intercalate fun x hx => ?_
  rcases List.mem_append.mp ((mem_mergeEffects.mp hx).resolve_left List.not_mem_nil) with h | h
  · exact isField_of_mem h
  · exact isField_of_mem h

theorem mem_merge {current additions : String} {r : String} (h : r ∈ resources current) :
    r ∈ resources (mergeResources current additions) := by
  rw [resources_merge]
  exact mem_mergeEffects.mpr (Or.inr (List.mem_append_left _ h))

/-! ## Rows -/

namespace Transaction

/-- A failure phase has a resource, an error and a target. -/
structure Evident (t : Transaction) : Prop where
  resource : t.failureResource ≠ none ∧ t.failureResource ≠ some ""
  error : t.error ≠ ""
  target : t.recoveryTarget ≠ none

structure Sound (t : Transaction) : Prop where
  attempts : 0 ≤ t.attemptCount
  /-- No other action than that of the phase. -/
  action : t.recoveryAction = none ∨ t.phase.action = none ∨ t.recoveryAction = t.phase.action
  retry : t.phase.failure = true → t.recoveryAction = t.phase.action
  target : t.recoveryTarget ≠ none → t.phase.failure = true ∨ t.phase.terminal = true

structure Keeps (t t' : Transaction) : Prop where
  phase : t.phase.terminal = true → t'.phase = t.phase
  attempts : t.attemptCount ≤ t'.attemptCount
  target : ∀ g, t.recoveryTarget = some g → t'.recoveryTarget = some g
  failed : t.recoveryTarget ≠ none → ∀ r ∈ t.failed, r ∈ t'.failed

theorem Keeps.refl (t : Transaction) : t.Keeps t := ⟨fun _ => rfl, le_refl _, fun _ => id, fun _ _ => id⟩

theorem Keeps.trans (h : t.Keeps t') (h' : t'.Keeps u) : t.Keeps u := by
  refine ⟨fun ht => ?_, h.attempts.trans h'.attempts, fun g hg => h'.target g (h.target g hg), fun ht r hr => ?_⟩
  · have hphase := h.phase ht
    exact (h'.phase (hphase ▸ ht)).trans hphase
  · obtain ⟨g, hg⟩ := Option.ne_none_iff_exists'.mp ht
    have ht' : t'.recoveryTarget ≠ none := by
      rw [h.target g hg]
      exact Option.some_ne_none g
    exact h'.failed ht' r (h.failed ht r hr)

/-- What `advance` does to a row. -/
structure Advanced (t : Transaction) (phase : Phase) (t' : Transaction) : Prop where
  transition : phase ∈ t.phase.transitions
  moved : t'.phase = phase
  action : phase.action = none ∨ t'.recoveryAction = phase.action
  attempts : t.attemptCount ≤ t'.attemptCount
  target : ∀ g, t.recoveryTarget = some g → t'.recoveryTarget = some g
  untargeted : phase.failure = false → t'.recoveryTarget = t.recoveryTarget
  evident : phase.failure = true → t'.Evident
  failed : t.phase.failure = true → ∀ r ∈ t.failed, r ∈ t'.failed

theorem nextAttemptCount_le {n : Int} (h : t.nextAttemptCount phase a = some n) : t.attemptCount ≤ n := by
  rw [nextAttemptCount] at h
  split at h
  · split at h
    · cases h
    · next hle =>
        cases h
        exact not_lt.mp hle
  · cases h
    split
    · omega
    · exact le_refl _

theorem nextAction_eq {x : Option RecoveryAction} (h : t.nextAction phase a = some x) :
    phase.action = none ∨ x = phase.action := by
  rw [nextAction] at h
  simp only [Option.bind_eq_bind, Option.bind_eq_some_iff, Option.guard_eq_some'] at h
  obtain ⟨_, _, _, hguard, h⟩ := h
  cases h
  exact hguard

/-- In a failure phase the failed resources are merged. -/
theorem mem_nextResource {x : Option String} (h : t.nextResource a = some x) (ht : t.phase.failure = true)
    {r : String} (hr : r ∈ t.failed) : r ∈ resources (x.getD "") := by
  obtain ⟨given, _, h⟩ := Option.map_eq_some_iff.mp h
  cases given with
  | none =>
      cases h
      exact hr
  | some given =>
      rw [failed] at hr
      dsimp only at h
      cases hcurrent : t.failureResource with
      | none =>
          rw [hcurrent] at hr
          cases hr
      | some current =>
          rw [hcurrent] at h hr
          dsimp only at h
          rw [if_pos ht] at h
          cases h
          exact mem_merge hr

theorem nextRecoveryTarget_target {resource : Option String} {error : String} {x : Option RecoveryTarget}
    (h : t.nextRecoveryTarget phase a resource error = some x) :
    (∀ g, t.recoveryTarget = some g → x = some g) ∧ (phase.failure = false → x = t.recoveryTarget) ∧
      (phase.failure = true → x ≠ none ∧ (resource ≠ none ∧ resource ≠ some "") ∧ error ≠ "") := by
  rw [nextRecoveryTarget] at h
  split at h
  · next hphase =>
      simp only [Option.bind_eq_bind, Option.bind_eq_some_iff, Option.guard_eq_some'] at h
      obtain ⟨_, hsame, target, htarget, _, hguard, h⟩ := h
      cases h
      refine ⟨fun g hg => ?_, fun hp => absurd (hphase.symm.trans hp) nofun,
        fun _ => ⟨Option.some_ne_none _, ⟨hguard.1, hguard.2.1⟩, hguard.2.2⟩⟩
      rw [hg] at hsame htarget
      rcases hsame with hsame | hsame | hsame
      · cases hsame
      · rw [hsame] at htarget
        exact htarget.symm
      · rw [hsame] at htarget
        exact htarget.symm
  · next hphase =>
      cases h
      exact ⟨fun g => id, fun _ => rfl, fun hp => absurd hp hphase⟩

theorem advance_advanced (h : t.advance phase a = some t') : t.Advanced phase t' := by
  rw [advance] at h
  simp only [Option.bind_eq_bind, Option.bind_eq_some_iff, Option.guard_eq_some'] at h
  obtain ⟨_, htransition, _, _, _, _, resource, hresource, _, _, action, haction, attempts, hattempts,
    error, _, target, htarget, h⟩ := h
  obtain ⟨hkeep, hsame, hfailure⟩ := nextRecoveryTarget_target htarget
  cases h
  refine ⟨htransition, rfl, nextAction_eq haction, nextAttemptCount_le hattempts, fun g hg => ?_, fun hp => ?_,
    fun hp => ?_, fun ht r hr => mem_nextResource hresource ht hr⟩
  · change target.or t.recoveryTarget = some g
    rw [hkeep g hg, Option.some_or]
  · change target.or t.recoveryTarget = t.recoveryTarget
    rw [hsame hp, Option.or_self]
  · obtain ⟨hne, hres, herr⟩ := hfailure hp
    refine ⟨hres, herr, fun hnone => hne ?_⟩
    exact (Option.or_eq_none_iff.mp hnone).1

/-- A phase that a row advances from is not terminal. -/
theorem terminal_of_transition (h : phase ∈ t.phase.transitions) : t.phase.terminal = false := by
  cases hphase : t.phase with
  | complete | aborted | recovered =>
      rw [hphase] at h
      cases h
  | _ => rfl

/-- A failure phase has no way back. -/
theorem failure_of_transition (h : phase ∈ t.phase.transitions) (ht : t.phase.failure = true) :
    phase.failure = true := by
  cases hphase : t.phase with
  | cleanupFailed =>
      rw [hphase] at h
      rcases List.mem_pair.mp h with rfl | rfl
      · rfl
      · rfl
  | degraded =>
      rw [hphase] at h
      rw [List.mem_singleton.mp h]
      rfl
  | _ =>
      rw [hphase] at ht
      cases ht

theorem Advanced.keeps (h : t.Advanced phase t') (ht : t.Sound) : t.Keeps t' := by
  have hterminal := terminal_of_transition h.transition
  refine ⟨fun hp => absurd (hterminal.symm.trans hp) nofun, h.attempts, h.target, fun hg => h.failed ?_⟩
  rcases ht.target hg with hf | hf
  · exact hf
  · exact absurd (hterminal.symm.trans hf) nofun

theorem action_of_failure (h : phase.failure = true) : phase.action ≠ none := by
  cases phase with
  | cleanupFailed | degraded => exact Option.some_ne_none _
  | _ => cases h

theorem Advanced.sound (h : t.Advanced phase t') (ht : t.Sound) : t'.Sound := by
  refine ⟨ht.attempts.trans h.attempts, ?_, fun hp => ?_, fun hg => ?_⟩
  · rw [h.moved]
    exact Or.inr h.action
  · rw [h.moved] at hp ⊢
    exact h.action.resolve_left (action_of_failure hp)
  · rw [h.moved]
    cases hp : phase.failure with
    | true => exact Or.inl rfl
    | false =>
        rw [h.untargeted hp] at hg
        rcases ht.target hg with hf | hf
        · rw [failure_of_transition h.transition hf] at hp
          cases hp
        · exact absurd ((terminal_of_transition h.transition).symm.trans hf) nofun

/-! ### Details that are noted -/

/-- The details that `annotate` writes over the row name every resource that failed, and no
evidence is empty. -/
structure KeepsEvidence (t : Transaction) (d : Details) : Prop where
  failed : ∀ r, detailString d ["resource", "failure_resource"] = some (some r) → t.recoveryTarget ≠ none →
    ∀ x ∈ t.failed, x ∈ resources r
  resource : t.phase.failure = true → detailString d ["resource", "failure_resource"] ≠ some (some "")
  error : t.phase.failure = true → detailString d ["error"] ≠ some (some "")

/-- What `annotate` and `mark_runtime_owner` do to a row. -/
structure Noted (t t' : Transaction) : Prop where
  phase : t'.phase = t.phase
  target : t'.recoveryTarget = t.recoveryTarget
  attempts : t.attemptCount ≤ t'.attemptCount
  action : t'.recoveryAction = t.recoveryAction ∨ t.phase.action = none ∨ t'.recoveryAction = t.phase.action

theorem detailAttemptCount_le {n : Int} (h : t.detailAttemptCount d = some n) : t.attemptCount ≤ n := by
  rw [detailAttemptCount] at h
  split at h
  · rw [validateAttemptCount.eq_def] at h
    split at h
    · split at h
      · cases h
      · next hle =>
          cases h
          omega
    · cases h
  · cases h
    exact le_refl _

/-- What `annotate` leaves of the evidence. -/
theorem annotate_noted (h : t.annotate d = some t') : t.Noted t' ∧
    ∃ resource error, detailString d ["resource", "failure_resource"] = some resource ∧
      detailString d ["error"] = some error ∧ t'.failureResource = resource.or t.failureResource ∧
      t'.error = error.getD t.error := by
  rw [annotate] at h
  simp only [Option.bind_eq_bind, Option.bind_eq_some_iff, Option.guard_eq_some'] at h
  obtain ⟨_, _, _, _, resource, hresource, _, _, given, _, _, hguard, attempts, hattempts, error, herror, h⟩ := h
  cases h
  refine ⟨⟨rfl, rfl, detailAttemptCount_le hattempts, ?_⟩, resource, error, hresource, herror, rfl, rfl⟩
  dsimp only
  rcases hguard with hnone | rfl | rfl
  · exact Or.inr (Or.inl hnone)
  · cases hphase : t.phase.action with
    | none => exact Or.inr (Or.inl rfl)
    | some x => exact Or.inr (Or.inr rfl)
  · cases hphase : t.phase.action with
    | none => exact Or.inr (Or.inl rfl)
    | some x => exact Or.inr (Or.inr rfl)

theorem Noted.sound (h : t.Noted t') (ht : t.Sound) : t'.Sound := by
  refine ⟨ht.attempts.trans h.attempts, ?_, fun hp => ?_, fun hg => ?_⟩
  · rw [h.phase]
    rcases h.action with heq | hnone | heq
    · rw [heq]
      exact ht.action
    · exact Or.inr (Or.inl hnone)
    · exact Or.inr (Or.inr heq)
  · rw [h.phase] at hp ⊢
    rcases h.action with heq | hnone | heq
    · exact heq.trans (ht.retry hp)
    · exact absurd hnone (action_of_failure hp)
    · exact heq
  · rw [h.phase]
    exact ht.target (h.target ▸ hg)

theorem annotate_keeps (h : t.annotate d = some t') (hd : t.KeepsEvidence d) : t.Keeps t' := by
  obtain ⟨hn, resource, error, hresource, _, hr, _⟩ := annotate_noted h
  refine ⟨fun _ => hn.phase, hn.attempts, fun g hg => hn.target.trans hg, fun hg x hx => ?_⟩
  rw [failed, hr]
  cases resource with
  | none => exact hx
  | some r => exact hd.failed r hresource hg x hx

theorem annotate_evident (h : t.annotate d = some t') (hd : t.KeepsEvidence d) (ht : t.Evident)
    (hp : t.phase.failure = true) : t'.Evident := by
  obtain ⟨hn, resource, error, hresource, herror, hr, he⟩ := annotate_noted h
  refine ⟨?_, ?_, hn.target ▸ ht.target⟩
  · rw [hr]
    cases resource with
    | none => exact ht.resource
    | some r =>
        refine ⟨Option.some_ne_none r, fun heq => hd.resource hp ?_⟩
        rw [hresource, Option.some.inj heq]
  · rw [he]
    cases error with
    | none => exact ht.error
    | some e =>
        intro heq
        apply hd.error hp
        rw [herror, ← heq]
        rfl

theorem markRuntimeOwner_noted {bootId : String} (h : t.markRuntimeOwner bootId = some t') :
    t.Noted t' ∧ t.Keeps t' ∧ (t.Evident → t'.Evident) := by
  rw [markRuntimeOwner] at h
  split at h
  · cases h
  · cases h
    exact ⟨⟨rfl, rfl, le_refl _, Or.inl rfl⟩, ⟨fun _ => rfl, le_refl _, fun _ => id, fun _ _ => id⟩, fun ht => ⟨ht.resource, ht.error, ht.target⟩⟩

/-- A new row is sound. -/
theorem sound_new (h : t.phase = .preparing) (hn : t.attemptCount = 0) (ha : t.recoveryAction = none)
    (hg : t.recoveryTarget = none) : t.Sound := by
  refine ⟨hn.ge, Or.inl ha, fun hp => ?_, fun hne => absurd hg hne⟩
  rw [h] at hp
  cases hp

/-- A terminal phase has no action and is no failure. -/
theorem terminal_phase (h : phase.terminal = true) : phase.action = none ∧ phase.failure = false := by
  cases phase with
  | complete | aborted | recovered => exact ⟨rfl, rfl⟩
  | _ => cases h

/-- What `_finish_host_retry` does to a row. -/
theorem Sound.retried (ht : t.Sound) (hp : phase.terminal = true) : Sound { t with phase } := by
  obtain ⟨haction, hfailure⟩ := terminal_phase hp
  exact ⟨ht.attempts, Or.inr (Or.inl haction), fun h => absurd (hfailure.symm.trans h) nofun, fun _ => Or.inr hp⟩

theorem keeps_retried (ht : t.phase.terminal = false) : t.Keeps { t with phase } :=
  ⟨fun h => absurd (ht.symm.trans h) nofun, le_refl _, fun _ => id, fun _ _ => id⟩

end Transaction

end MonoAgent.Reload
