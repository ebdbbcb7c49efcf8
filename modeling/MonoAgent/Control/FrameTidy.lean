import MonoAgent.Control.FrameStages

/-!
# The book leaves nothing behind

`Tidy` is what the book promises of every state.  It holds along every run in which no
failed stage is committed, no Input is settled while a stage has a route of it, and no last
claim of a settled Input ends before the Output has drained (`frames_tidy`); each of the three
steps breaks it (`frames_left_behind`).
-/

namespace MonoAgent.Control

open MonoAgent.Lib

/-! ## Bindings -/

/-- The final Outputs that routes and claims are bound to. -/
structure Bindings where
  expected : ℕ → Option String
  resolved : ℕ → Option String
  claimRoute : ℕ → ℕ
  ending : ℕ → Option String
  routeCount : ℕ
  claimCount : ℕ

def Book.bindings (s : Book) : Bindings where
  expected r := (s.route r).expected
  resolved r := (s.route r).resolved
  claimRoute c := (s.claim c).route
  ending c := (s.claim c).endingMessageId
  routeCount := s.routeCount
  claimCount := s.claimCount

/-- A claim has the ending of its route, a route the one that is expected. -/
structure Bindings.Agree (b : Bindings) : Prop where
  resolved : ∀ r m, b.resolved r = some m → b.expected r = some m
  ending : ∀ c < b.claimCount, ∀ m, b.ending c = some m → b.resolved (b.claimRoute c) = some m
  claimRoute : ∀ c < b.claimCount, b.claimRoute c < b.routeCount

/-- What a route expects stays. -/
def Bindings.Le (b b' : Bindings) : Prop :=
  b.routeCount ≤ b'.routeCount ∧
    ∀ r < b.routeCount, ∀ m, b.expected r = some m → b'.expected r = some m

theorem Bindings.le_refl (b : Bindings) : b.Le b := ⟨Nat.le_refl _, fun _ _ _ h => h⟩

theorem Bindings.Le.trans {b b' b'' : Bindings} (h : b.Le b') (h' : b'.Le b'') : b.Le b'' :=
  ⟨h.1.trans h'.1, fun r hr m hm => h'.2 r (Nat.lt_of_lt_of_le hr h.1) m (h.2 r hr m hm)⟩

section Unchanged

variable (s : Book)

theorem bindings_modify (r : ℕ) (f : Route → Route)
    (hf : ∀ route, (f route).expected = route.expected ∧ (f route).resolved = route.resolved) :
    (s.modify r f).bindings = s.bindings := by
  have hroute (x : ℕ) : ((s.modify r f).route x).expected = (s.route x).expected ∧
      ((s.modify r f).route x).resolved = (s.route x).resolved := by
    by_cases hx : x = r
    · subst hx
      simpa [Book.modify] using hf (s.route x)
    · simp [Book.modify, hx]
  unfold Book.bindings
  simp only [hroute]
  rfl

theorem bindings_resume (waiters : List ℕ) (outcome : Option Failure) :
    (s.resume waiters outcome).bindings = s.bindings := rfl

theorem bindings_releaseRoute (key : RouteKey) (exact : Option ℕ) :
    (s.releaseRoute key exact).bindings = s.bindings := by
  unfold Book.releaseRoute
  split
  · rfl
  · split_ifs
    · rfl
    · exact bindings_modify _ _ _ fun _ => ⟨rfl, rfl⟩

theorem bindings_failRoute (key : RouteKey) (error : Failure) (exact : Option ℕ) :
    (s.failRoute key error exact).bindings = s.bindings := by
  unfold Book.failRoute
  split
  · rfl
  · exact bindings_modify _ _ _ fun _ => ⟨rfl, rfl⟩

theorem bindings_maybeRelease (r : ℕ) : (s.maybeRelease r).bindings = s.bindings := by
  unfold Book.maybeRelease
  split_ifs
  · rfl
  · exact bindings_releaseRoute _ _ _

theorem bindings_frameDone (r : ℕ) (result : Except Failure Unit) :
    (s.frameDone r result).bindings = s.bindings := by
  cases result with
  | error error => exact bindings_failRoute s _ error (some r)
  | ok =>
      refine (bindings_maybeRelease _ _).trans ?_
      exact (bindings_resume _ _ _).trans (bindings_modify _ _ _ fun _ => ⟨rfl, rfl⟩)

theorem bindings_commit (st : ℕ) : (s.commit st).2.bindings = s.bindings := by
  unfold Book.commit
  split_ifs
  · rfl
  · refine (bindings_maybeRelease _ _).trans ?_
    have hreplaced : ((s.closeStage st).failReplaced (s.route (s.stage st).route).key).bindings =
        s.bindings := by
      unfold Book.failReplaced
      split
      · exact bindings_failRoute _ _ _ _
      · rfl
    exact (bindings_modify _ (s.stage st).route (fun route => { route with staged := false })
      fun _ => ⟨rfl, rfl⟩).trans hreplaced

theorem bindings_abort (st : ℕ) : (s.abort st).bindings = s.bindings := by
  unfold Book.abort
  split_ifs
  · rfl
  · exact bindings_failRoute _ _ _ _

theorem bindings_attachPage (tracked : List ℕ) (written : ℕ) :
    (s.attachPage tracked written).bindings = s.bindings := by
  unfold Book.attachPage
  induction tracked generalizing s with
  | nil => rfl
  | cons r rest ih =>
      rw [List.foldl_cons, ih]
      split_ifs
      · rfl
      · exact bindings_modify s r (fun route => { route with written := some written })
          fun _ => ⟨rfl, rfl⟩

theorem bindings_waitRoute (r : ℕ) (claim : Option ℕ) (w : ℕ) :
    (s.waitRoute r claim w).2.bindings = s.bindings := by
  unfold Book.waitRoute
  split
  · rfl
  · split_ifs
    · rfl
    · exact bindings_modify s r (fun route => { route with waiters := route.waiters ++ [w] })
        fun _ => ⟨rfl, rfl⟩

theorem bindings_claimLoop (r c w : ℕ) : (s.claimLoop r c w).2.bindings = s.bindings := by
  have hwait := bindings_waitRoute s r (some c) w
  unfold Book.claimLoop
  split_ifs
  · split
    · next heq =>
        rw [heq] at hwait
        exact hwait
    · next heq =>
        rw [heq] at hwait
        exact hwait
    · next heq =>
        rw [heq] at hwait
        exact hwait
  · rfl

theorem bindings_waitClaim (c w : ℕ) : (s.waitClaim c w).2.bindings = s.bindings := by
  unfold Book.waitClaim
  split_ifs
  · rfl
  · exact bindings_claimLoop _ _ _ _

theorem bindings_discard (w : ℕ) (call : Call) : (s.discard w call).bindings = s.bindings :=
  bindings_modify s call.route
    (fun route => { route with waiters := route.waiters.filter (· ≠ w) }) fun _ => ⟨rfl, rfl⟩

theorem bindings_wake (w : ℕ) (call : Call) (outcome : Option Failure) :
    (s.wake w call outcome).2.bindings = s.bindings := by
  have hdiscard := bindings_discard s w call
  have hrelease := (bindings_maybeRelease (s.discard w call) call.route).trans hdiscard
  unfold Book.wake
  cases outcome with
  | some error => exact hdiscard
  | none =>
      dsimp only
      split
      · exact hdiscard
      · split
        · exact hrelease
        · split
          · exact hrelease
          · exact (bindings_claimLoop _ _ _ _).trans hrelease

theorem bindings_endClaim (c : ℕ) : (s.endClaim c).bindings = s.bindings := by
  unfold Book.endClaim
  split_ifs with hclosed
  · rfl
  · refine (bindings_maybeRelease _ _).trans ?_
    have hclaim (x : ℕ) : (Function.update s.claim c { s.claim c with closed := true } x).route =
          (s.claim x).route ∧
        (Function.update s.claim c { s.claim c with closed := true } x).endingMessageId =
          (s.claim x).endingMessageId := by
      by_cases hx : x = c
      · subst hx
        simp
      · simp [hx]
    have hmodify := bindings_modify s (s.claim c).route
      (fun route => { route with claims := route.claims.filter (· ≠ c) }) fun _ => ⟨rfl, rfl⟩
    rw [← hmodify]
    simp only [Book.bindings, hclaim]
    rfl

theorem bindings_releaseInput (key : RouteKey) : (s.releaseInput key).bindings = s.bindings := by
  unfold Book.releaseInput
  split
  · rfl
  · split_ifs
    · exact bindings_releaseRoute _ _ _
    · rfl

theorem bindings_settleInput (key : RouteKey) (error : Option Failure) :
    (s.settleInput key error).bindings = s.bindings := by
  unfold Book.settleInput
  split
  · rfl
  · split_ifs
    · split
      · exact bindings_failRoute _ _ _ _
      · rfl
    · exact bindings_releaseRoute _ _ _

/-- A loop whose turns leave the bindings. -/
theorem bindings_foldl {β : Type*} {f : Book → β → Book} (hf : ∀ s x, (f s x).bindings = s.bindings)
    (l : List β) (s : Book) : (l.foldl f s).bindings = s.bindings := by
  induction l generalizing s with
  | nil => rfl
  | cons x l ih => rw [List.foldl_cons, ih, hf]

theorem bindings_failConnection (connectionId : String) (error : Failure) :
    (s.failConnection connectionId error).bindings = s.bindings := by
  refine (bindings_foldl (fun t st => ?_) _ _).trans (bindings_foldl (fun t e => ?_) _ _)
  · split_ifs
    · exact bindings_abort _ _
    · rfl
  · split_ifs
    · exact bindings_failRoute _ _ _ _
    · rfl

theorem bindings_close (error : Option Failure) : (s.close error).bindings = s.bindings := by
  refine (bindings_foldl (fun t st => bindings_abort t st) _ _).trans ?_
  exact bindings_foldl (fun t e => bindings_failRoute _ _ _ _) _ _

end Unchanged

section Bind

variable {settled : List ℕ} {closing : Bool} {s : Book} {r : ℕ}

/-- A new route is bound to nothing. -/
theorem make_agree (route : Route) (h : s.bindings.Agree) (hresolved : route.resolved = none) :
    let t : Book := { s with
      route := Function.update s.route s.routeCount route
      routeCount := s.routeCount + 1 }
    t.bindings.Agree ∧ s.bindings.Le t.bindings := by
  have hold {x : ℕ} (hx : x < s.routeCount) : Function.update s.route s.routeCount route x = s.route x :=
    Function.update_of_ne (Nat.ne_of_lt hx) ..
  refine ⟨⟨fun x m hm => ?_, fun c hc m hm => ?_, fun c hc => Nat.lt_succ_of_lt (h.claimRoute c hc)⟩,
    Nat.le_succ _, fun x hx m hm => ?_⟩
  · simp only [Book.bindings] at hm ⊢
    by_cases hx : x = s.routeCount
    · subst hx
      rw [Function.update_self, hresolved] at hm
      cases hm
    · rw [Function.update_of_ne hx] at hm ⊢
      exact h.resolved x m hm
  · have hroute := hold (h.claimRoute c hc)
    simp only [Book.bindings] at hm hroute ⊢
    rw [hroute]
    exact h.ending c hc m hm
  · simp only [Book.bindings] at hx hm ⊢
    rw [hold hx]
    exact hm

theorem routeInput_agree {key : RouteKey} {connectionId : String} (h : s.bindings.Agree) :
    (s.routeInput key connectionId).2.bindings.Agree ∧
      s.bindings.Le (s.routeInput key connectionId).2.bindings := by
  unfold Book.routeInput
  split
  · exact ⟨h, s.bindings.le_refl⟩
  · split
    · exact ⟨h, s.bindings.le_refl⟩
    · exact make_agree { key, connectionId } h rfl

theorem stageInput_agree {key : RouteKey} {connectionId : String} (h : s.bindings.Agree) :
    (s.stageInput key connectionId).2.bindings.Agree ∧
      s.bindings.Le (s.stageInput key connectionId).2.bindings := by
  unfold Book.stageInput
  split
  · exact ⟨h, s.bindings.le_refl⟩
  · exact make_agree { key, connectionId, staged := true } h rfl

/-- A claim takes over what its route has been resolved to. -/
theorem armClaim_agree {key : RouteKey} {callRef : Session.CallRef} (h : s.bindings.Agree)
    (hs : Core settled none closing s) :
    (s.armClaim key callRef).2.bindings.Agree ∧ s.bindings.Le (s.armClaim key callRef).2.bindings := by
  unfold Book.armClaim
  split
  · exact ⟨h, s.bindings.le_refl⟩
  · next r hget =>
      have hlt : r < s.routeCount := (hs.table _ (Dict.mem_of_get? hget)).1
      have hmodify := bindings_modify s r
        (fun route => { route with claims := route.claims ++ [s.claimCount] }) fun _ => ⟨rfl, rfl⟩
      let b : Bindings := { s.bindings with
        claimRoute := fun c => (Function.update s.claim s.claimCount
          { route := r, callRef, endingMessageId := (s.route r).resolved } c).route
        ending := fun c => (Function.update s.claim s.claimCount
          { route := r, callRef, endingMessageId := (s.route r).resolved } c).endingMessageId
        claimCount := s.claimCount + 1 }
      have hagree : b.Agree := by
        refine ⟨h.resolved, fun c hc m hm => ?_, fun c hc => ?_⟩
        · rcases Nat.lt_succ_iff_lt_or_eq.mp hc with hold | rfl
          · simp only [b, Function.update_of_ne (Nat.ne_of_lt hold)] at hm ⊢
            exact h.ending c hold m hm
          · simp only [b, Function.update_self] at hm ⊢
            exact hm
        · rcases Nat.lt_succ_iff_lt_or_eq.mp hc with hold | rfl
          · simp only [b, Function.update_of_ne (Nat.ne_of_lt hold)]
            exact h.claimRoute c hold
          · simp only [b, Function.update_self]
            exact hlt
      have hfresh : ({ s.modify r fun route => { route with claims := route.claims ++ [s.claimCount] } with
          claim := Function.update s.claim s.claimCount
            { route := r, callRef, endingMessageId := (s.route r).resolved }
          claimCount := s.claimCount + 1
          claims := s.claims.set (key.sessionId, callRef) s.claimCount } : Book).bindings = b := by
        have hexpected := congrArg Bindings.expected hmodify
        have hresolved := congrArg Bindings.resolved hmodify
        simp only [Book.bindings] at hexpected hresolved
        simp only [Book.bindings, b, hexpected, hresolved]
        rfl
      dsimp only
      split
      · split_ifs
        · rw [hfresh]
          exact ⟨hagree, Nat.le_refl _, fun _ _ _ hm => hm⟩
        · exact ⟨h, s.bindings.le_refl⟩
      · rw [hfresh]
        exact ⟨hagree, Nat.le_refl _, fun _ _ _ hm => hm⟩

/-- Binding a route that has no other ending. -/
theorem resolve_agree {ending : String} (h : s.bindings.Agree) (hs : Core settled none closing s)
    (hfree : (s.route r).expected = none ∨ (s.route r).expected = some ending) :
    (s.resolve r ending).bindings.Agree ∧ s.bindings.Le (s.resolve r ending).bindings := by
  have hself : (s.resolve r ending).route r =
      { s.route r with expected := some ending, resolved := some ending } := by
    simp [Book.resolve, Book.modify]
  have hother {x : ℕ} (hx : x ≠ r) : (s.resolve r ending).route x = s.route x := by
    simp [Book.resolve, Book.modify, hx]
  have hsite (c : ℕ) : ((s.resolve r ending).claim c).route = (s.claim c).route := by
    simp only [Book.resolve]
    split_ifs
    · rfl
    · rfl
  refine ⟨⟨fun x m hm => ?_, fun c hc m hm => ?_, fun c hc => ?_⟩, Nat.le_refl _, fun x _ m hm => ?_⟩
  · simp only [Book.bindings] at hm ⊢
    by_cases hx : x = r
    · subst hx
      rw [hself] at hm ⊢
      exact hm
    · rw [hother hx] at hm ⊢
      exact h.resolved x m hm
  · simp only [Book.bindings, hsite] at hm ⊢
    by_cases hx : (s.claim c).route = r
    · rw [hx, hself]
      by_cases hin : c ∈ (s.route r).claims
      · simpa [Book.resolve, hin] using hm
      · -- a claim that has ended knows the ending that its route has been resolved to
        have hm' : (s.claim c).endingMessageId = some m := by
          simpa [Book.resolve, hin] using hm
        have hresolved := h.ending c hc m hm'
        have hexpected := h.resolved _ m hresolved
        simp only [Book.bindings, hx] at hexpected
        rw [hexpected] at hfree
        simpa using hfree.resolve_left (Option.some_ne_none m) |>.symm
    · have hin : c ∉ (s.route r).claims := fun hin => hx (hs.claims r c hin).2.1
      rw [hother hx]
      have hm' : (s.claim c).endingMessageId = some m := by
        simpa [Book.resolve, hin] using hm
      exact h.ending c hc m hm'
  · simp only [Book.bindings, hsite]
    exact h.claimRoute c hc
  · simp only [Book.bindings] at hm ⊢
    by_cases hx : x = r
    · subst hx
      rw [hself]
      rcases hfree with hnone | hsome
      · rw [hnone] at hm
        cases hm
      · exact hsome.symm.trans hm
    · rw [hother hx]
      exact hm

theorem resolveRoutes_agree {connectionId : String} {complete : List (String × String)}
    {resolver : ℕ → Except Failure (Option String)} (routes : List ℕ) (h : s.bindings.Agree)
    (hs : Core settled none closing s) :
    (Book.resolveRoutes connectionId complete resolver routes s).2.bindings.Agree ∧
      s.bindings.Le (Book.resolveRoutes connectionId complete resolver routes s).2.bindings := by
  induction routes generalizing s with
  | nil => exact ⟨h, s.bindings.le_refl⟩
  | cons r rest ih =>
      rw [Book.resolveRoutes]
      split_ifs with hconnection
      · exact ih h hs
      · split
        · exact ⟨h, s.bindings.le_refl⟩
        · exact ih h hs
        · next ending _ =>
            split_ifs with hin hexpected
            · exact ⟨h, s.bindings.le_refl⟩
            · have hfree : (s.route r).expected = none ∨ (s.route r).expected = some ending := by
                tauto
              obtain ⟨hagree, hle⟩ := resolve_agree h hs hfree
              obtain ⟨hagree', hle'⟩ := ih hagree (resolve_core hs ending)
              exact ⟨hagree', hle.trans hle'⟩
            · exact ih h hs

/-- A wait for an Output binds the route when it is not bound yet. -/
theorem waitOutput_agree {messageId : String} {w : ℕ} (h : s.bindings.Agree) :
    (s.waitOutput r messageId w).2.bindings.Agree ∧
      s.bindings.Le (s.waitOutput r messageId w).2.bindings := by
  unfold Book.waitOutput
  split_ifs with hexpected
  · exact ⟨h, s.bindings.le_refl⟩
  · have hfree : (s.route r).expected = none ∨ (s.route r).expected = some messageId := by
      tauto
    rw [bindings_waitRoute]
    have hkeep {x : ℕ} {m : String} (hm : (s.route x).expected = some m) :
        ((s.modify r fun route => { route with expected := some messageId }).route x).expected = some m := by
      by_cases hx : x = r
      · subst hx
        simp only [Book.modify, Function.update_self]
        rcases hfree with hnone | hsome
        · rw [hnone] at hm
          cases hm
        · exact hsome.symm.trans hm
      · simpa [Book.modify, hx] using hm
    have hresolved (x : ℕ) : ((s.modify r fun route =>
        { route with expected := some messageId }).route x).resolved = (s.route x).resolved := by
      by_cases hx : x = r
      · subst hx
        simp [Book.modify]
      · simp [Book.modify, hx]
    refine ⟨⟨fun x m hm => ?_, fun c hc m hm => ?_, h.claimRoute⟩, Nat.le_refl _, fun x _ m hm => hkeep hm⟩
    · simp only [Book.bindings, hresolved] at hm ⊢
      exact hkeep (h.resolved x m hm)
    · simp only [Book.bindings, hresolved]
      exact h.ending c hc m hm

end Bind

/-! ## Runs -/

/-- What the book promises of a state. -/
structure Tidy (s : FrameState) : Prop where
  /-- An Input has at most one active route. -/
  unique : ∀ r r', Active s.book r → Active s.book r' →
    (s.book.route r).key = (s.book.route r').key → r = r'
  /-- A route and its claims have one final Output. -/
  bound : s.book.bindings.Agree
  placed : ∀ r w, Pending s.book r w → Active s.book r ∨ Live s.book r
  healthy : ∀ r, Active s.book r → (s.book.route r).error = none
  held : ∀ r, Active s.book r → (s.book.route r).drained = true →
    ∃ c < s.book.claimCount, (s.book.claim c).route = r ∧ (s.book.claim c).closed = false
  /-- A settled route without a claim is gone and nobody waits on it. -/
  gone : ∀ r ∈ s.settled,
    (∀ c < s.book.claimCount, (s.book.claim c).route = r → (s.book.claim c).closed = true) →
      ¬ Active s.book r ∧ ¬ Live s.book r ∧ ∀ w, ¬ Pending s.book r w
  shut : s.book.closed ≠ none →
    (∀ r, ¬ Active s.book r) ∧ s.book.stages = [] ∧ ∀ r w, ¬ Pending s.book r w

/-- No stage is committed whose route has failed, no Input is settled while a stage has a route of
it, and no last claim of a settled route in the table ends before the Output has drained. -/
def Sound (s : FrameState) : FrameAction → Prop
  | .commit st => (s.book.stage st).closed = false → (s.book.route (s.book.stage st).route).error = none
  | .endClaim c => (s.book.claim c).closed = false → (s.book.claim c).route ∈ s.settled →
      Active s.book (s.book.claim c).route →
      (s.book.route (s.book.claim c).route).claims.filter (· ≠ c) = [] →
      (s.book.route (s.book.claim c).route).drained = true
  | .settleInput key _ => s.book.stagedRoutes key = []
  | _ => True

instance (s : Book) (r : ℕ) : Decidable (Active s r) := inferInstanceAs (Decidable (_ ∈ _))

instance (s : FrameState) : (a : FrameAction) → Decidable (Sound s a)
  | .commit _ => inferInstanceAs (Decidable (_ = false → _ = none))
  | .endClaim _ => inferInstanceAs (Decidable (_ = false → _ ∈ s.settled → Active s.book _ → _ = [] → _ = true))
  | .settleInput .. => inferInstanceAs (Decidable (_ = []))
  | .routeInput .. | .stageInput .. | .abort .. | .resolvePage .. | .attachPage .. | .written .. | .frameDone ..
  | .waitOutput .. | .waitInput .. | .waitClaim .. | .wake .. | .cancel .. | .armClaim .. | .releaseInput ..
  | .failConnection .. | .close .. => isTrue trivial

structure FrameInv (s : FrameState) : Prop where
  core : Core s.settled none false s.book
  agree : s.book.bindings.Agree

theorem start_inv : FrameInv {} := by
  refine ⟨⟨List.nodup_nil, ?_, ?_, ?_, ?_, ?_, ?_, ?_, ?_, ?_, ?_, ?_, fun _ _ => ⟨rfl, rfl⟩⟩, ?_, ?_, ?_⟩
  · intro e he
    cases he
  · intro r hr
    cases hr
  · intro st hst
    cases hst
  · intro st hst
    cases hst
  · intro st hst
    cases hst
  · intro r hr
    cases hr
  · rintro r w ⟨call, hcall, -⟩
    cases hcall
  · intro w call hcall
    cases hcall
  · intro r c hc
    cases hc
  · intro c hc
    cases hc
  · intro r hr
    cases hr
  · intro r m hm
    cases hm
  · intro c hc
    cases hc
  · intro c hc
    cases hc

/-- One step: where the routes are, and what they are bound to. -/
theorem step_spec {s : FrameState} {a : FrameAction} {t : Book} (hs : FrameInv s) (hsound : Sound s a)
    (h : s.book.step a = some t) :
    Core (s.settled ++ s.book.settles a) none false t ∧ t.bindings.Agree ∧
      s.book.bindings.Le t.bindings := by
  obtain ⟨hcore, hagree⟩ := hs
  -- an action that settles nothing and binds nothing
  have hquiet {t : Book} (ht : Core s.settled none false t) (hb : t.bindings = s.book.bindings) :
      Core (s.settled ++ []) none false t ∧ t.bindings.Agree ∧ s.book.bindings.Le t.bindings := by
    rw [List.append_nil, hb]
    exact ⟨ht, hagree, Bindings.le_refl _⟩
  have hbound {t : Book} (ht : Core s.settled none false t)
      (hb : t.bindings.Agree ∧ s.book.bindings.Le t.bindings) :
      Core (s.settled ++ []) none false t ∧ t.bindings.Agree ∧ s.book.bindings.Le t.bindings := by
    rw [List.append_nil]
    exact ⟨ht, hb⟩
  cases a with
  | routeInput key connectionId =>
      cases h
      exact hbound (routeInput_core hcore) (routeInput_agree hagree)
  | stageInput key connectionId =>
      cases h
      exact hbound (stageInput_core hcore) (stageInput_agree hagree)
  | commit st =>
      obtain ⟨hst, h⟩ := Option.ite_none_right_eq_some.mp h
      cases h
      exact hquiet (commit_core hcore hst hsound) (bindings_commit _ _)
  | abort st =>
      obtain ⟨hst, h⟩ := Option.ite_none_right_eq_some.mp h
      cases h
      exact hquiet (abort_core hcore hst) (bindings_abort _ _)
  | resolvePage connectionId page resolver order =>
      obtain ⟨-, h⟩ := Option.ite_none_right_eq_some.mp h
      cases h
      refine hbound (resolvePage_core hcore) ?_
      unfold Book.resolvePage
      split
      · exact ⟨hagree, Bindings.le_refl _⟩
      · exact resolveRoutes_agree _ hagree hcore
  | attachPage tracked written =>
      obtain ⟨-, h⟩ := Option.ite_none_right_eq_some.mp h
      cases h
      exact hquiet (attachPage_core hcore) (bindings_attachPage _ _ _)
  | written f result =>
      obtain ⟨-, h⟩ := Option.ite_none_right_eq_some.mp h
      cases h
      exact hquiet ⟨hcore.nodup, hcore.table, hcore.held, hcore.stages, hcore.opened, hcore.apart,
        hcore.home, hcore.waits, hcore.sites, hcore.claims, hcore.claimed, hcore.ended, hcore.shut⟩ rfl
  | frameDone r f =>
      obtain ⟨-, h⟩ := Option.ite_none_right_eq_some.mp h
      obtain ⟨result, -, rfl⟩ := Option.map_eq_some_iff.mp h
      have hbefore : Core s.settled none false { s.book with callbacks := s.book.callbacks.erase (r, f) } :=
        ⟨hcore.nodup, hcore.table, hcore.held, hcore.stages, hcore.opened, hcore.apart,
          hcore.home, hcore.waits, hcore.sites, hcore.claims, hcore.claimed, hcore.ended, hcore.shut⟩
      exact hquiet (frameDone_core hbefore) (bindings_frameDone _ _ _)
  | waitOutput r messageId w =>
      obtain ⟨⟨hr, -⟩, h⟩ := Option.ite_none_right_eq_some.mp h
      cases h
      exact hbound (waitOutput_core hcore hr) (waitOutput_agree hagree)
  | waitInput key ending w =>
      obtain ⟨-, h⟩ := Option.ite_none_right_eq_some.mp h
      cases h
      refine hbound (waitInput_core hcore) ?_
      unfold Book.waitInput
      split
      · exact ⟨hagree, Bindings.le_refl _⟩
      · exact waitOutput_agree hagree
  | waitClaim c w =>
      obtain ⟨⟨hc, -⟩, h⟩ := Option.ite_none_right_eq_some.mp h
      cases h
      exact hquiet (waitClaim_core hcore hc) (bindings_waitClaim _ _ _)
  | wake w =>
      obtain ⟨call, hcall, h⟩ := Option.bind_eq_some_iff.mp h
      obtain ⟨outcome, -, rfl⟩ := Option.map_eq_some_iff.mp h
      exact hquiet (wake_core hcore hcall) (bindings_wake _ _ _ _)
  | cancel w =>
      obtain ⟨call, -, rfl⟩ := Option.map_eq_some_iff.mp h
      exact hquiet (discard_core hcore) (bindings_discard _ _ _)
  | armClaim key callRef =>
      cases h
      exact hbound (armClaim_core hcore) (armClaim_agree hagree hcore)
  | endClaim c =>
      obtain ⟨hc, h⟩ := Option.ite_none_right_eq_some.mp h
      cases h
      exact hquiet (endClaim_core hcore hc hsound) (bindings_endClaim _ _)
  | settleInput key error =>
      cases h
      have hstaged : s.book.stagedRoutes key = [] := hsound
      have hsettles : s.book.settles (.settleInput key error) = (s.book.routes.get? key).toList := by
        rw [Book.settles, hstaged, List.append_nil]
      rw [hsettles]
      refine ⟨settleInput_core hcore, ?_⟩
      rw [bindings_settleInput]
      exact ⟨hagree, Bindings.le_refl _⟩
  | releaseInput key =>
      cases h
      exact hquiet (releaseInput_core hcore) (bindings_releaseInput _ _)
  | failConnection connectionId error =>
      cases h
      exact hquiet (failConnection_core _ _ hcore).1 (bindings_failConnection _ _ _)
  | close error =>
      cases h
      exact hquiet (close_core hcore).1 (bindings_close _ _)

theorem next_spec {s t : FrameState} {a : FrameAction} (hs : FrameInv s) (hsound : Sound s a)
    (h : frameMachine.next s a = some t) : FrameInv t ∧ s.book.bindings.Le t.book.bindings := by
  obtain ⟨book, hstep, rfl⟩ := Option.map_eq_some_iff.mp h
  obtain ⟨hcore, hagree, hle⟩ := step_spec hs hsound hstep
  exact ⟨⟨hcore, hagree⟩, hle⟩

theorem FrameInv.tidy {s : FrameState} (h : FrameInv s) : Tidy s := by
  obtain ⟨hcore, hagree⟩ := h
  have hplaced (r w : ℕ) (hp : Pending s.book r w) : Active s.book r ∨ Live s.book r := by
    obtain ⟨hlt, -, herror, hdrained⟩ := hcore.waits r w hp
    exact hcore.home r hlt (Option.some_ne_none _) herror hdrained
  have hopen (r : ℕ) (h : (s.book.route r).claims ≠ []) :
      ∃ c < s.book.claimCount, (s.book.claim c).route = r ∧ (s.book.claim c).closed = false := by
    obtain ⟨c, hc⟩ := List.exists_mem_of_ne_nil _ h
    obtain ⟨hlt, hclaim⟩ := hcore.claims r c hc
    exact ⟨c, hlt, hclaim⟩
  refine ⟨fun r r' hr hr' hkey => ?_, hagree, hplaced, fun r hr => (hcore.table _ hr).2.2.1,
    fun r hr hdrained => hopen r (hcore.held r hr (Option.some_ne_none _) hdrained),
    fun r hr hclosed => ?_, fun hshut => ?_⟩
  · have hone := hcore.get?_eq.mpr ⟨hr, hkey⟩
    have htwo := hcore.get?_eq.mpr ⟨hr', rfl⟩
    exact Option.some.inj (hone.symm.trans htwo)
  · obtain ⟨-, hstaged, hclaims⟩ := hcore.ended r hr
    have hnot : ¬ Active s.book r := fun hactive => by
      obtain ⟨c, hlt, hroute, hfalse⟩ := hopen r (hclaims (Option.some_ne_none _) hactive)
      have htrue := hclosed c hlt hroute
      rw [hfalse] at htrue
      cases htrue
    exact ⟨hnot, hcore.not_live hstaged, fun w hp => (hplaced r w hp).elim hnot (hcore.not_live hstaged)⟩
  · obtain ⟨hroutes, hstages⟩ := hcore.shut rfl hshut
    have hnot (r : ℕ) : ¬ Active s.book r := by
      intro hactive
      rw [Active, hroutes] at hactive
      cases hactive
    refine ⟨hnot, hstages, fun r w hp => (hplaced r w hp).elim (hnot r) ?_⟩
    rintro ⟨st, hst, -⟩
    rw [hstages] at hst
    cases hst

/-- Along every sound run the book is tidy, `fail_connection` leaves nothing of its
connection, and a route stays bound to its Output. -/
theorem frames_tidy (s : FrameState) (h : frameMachine.Reach Sound s) :
    Tidy s ∧
    (∀ connectionId error, ∀ t, t = s.book.failConnection connectionId error →
      (∀ r, Active t r → (t.route r).connectionId ≠ connectionId) ∧
      ∀ st ∈ t.stages, (t.route (t.stage st).route).connectionId ≠ connectionId) ∧
    ∀ t, frameMachine.Path Sound s t → ∀ r < s.book.routeCount, ∀ m,
      (s.book.route r).expected = some m → (t.book.route r).expected = some m := by
  have hinv : FrameInv s := by
    refine h.invariant (fun s hs => ?_) fun s a t hs hok hn => (next_spec hs hok hn).1
    rw [hs]
    exact start_inv
  refine ⟨hinv.tidy, fun connectionId error t ht => ?_, fun t hpath => ?_⟩
  · obtain ⟨-, hroutes, hstages⟩ := failConnection_core connectionId error hinv.core
    subst ht
    exact ⟨fun r hr => hroutes _ hr, hstages⟩
  · have hle : s.book.bindings.Le t.book.bindings :=
      hpath.rel (R := fun s t => s.book.bindings.Le t.book.bindings) (fun s => Bindings.le_refl _)
        (fun s t u h h' => h.trans h') (fun s a t hs hok hn => (next_spec hs hok hn).1)
        (fun s a t hs hok hn => (next_spec hs hok hn).2) hinv
    exact hle.2

/-- A page with one complete Output. -/
def outputPage : Doc :=
  .obj [("items", .arr [.obj [("id", .str "output"), ("session_id", .str "programmatic:a"),
    ("body", .obj [("kind", .str "output"), ("finish", .str "complete"), ("parts", .arr [])])]])]

/-- A route with a waiter and a claim: its Input is settled, then the writer is done and the claim ends. -/
def resumed : List FrameAction :=
  [.stageInput ⟨"programmatic:a", "input"⟩ "connection", .commit 0,
    .armClaim ⟨"programmatic:a", "input"⟩ ⟨"call", 0⟩,
    .waitInput ⟨"programmatic:a", "input"⟩ "output" 0, .settleInput ⟨"programmatic:a", "input"⟩ none,
    .resolvePage "connection" outputPage (fun _ => .ok (some "output")) [], .attachPage [0] 0, .written 0 (.ok ()),
    .frameDone 0 0, .wake 0, .endClaim 0]

/-- Before its Input is settled the route is waited on; in the end it is gone. -/
theorem frames_tidy_resumed :
    (∃ s, frameMachine.checked Sound {} (resumed.take 4) = some s ∧ Tidy s ∧ Active s.book 0 ∧ Pending s.book 0 0) ∧
    ∃ s, frameMachine.checked Sound {} resumed = some s ∧ 0 ∈ s.settled ∧ s.book.claimCount = 1 ∧
      ¬ Active s.book 0 ∧ ¬ Live s.book 0 ∧ ∀ w, ¬ Pending s.book 0 w := by
  have hends : (frameMachine.checked Sound {} (resumed.take 4)).isSome = true ∧
      Active ((frameMachine.checked Sound {} (resumed.take 4)).getD {}).book 0 ∧
      (((frameMachine.checked Sound {} (resumed.take 4)).getD {}).book.call 0).map
        (fun call => (call.route, call.outcome)) = some (0, none) ∧
      (frameMachine.checked Sound {} resumed).isSome = true ∧
      0 ∈ ((frameMachine.checked Sound {} resumed).getD {}).settled ∧
      ((frameMachine.checked Sound {} resumed).getD {}).book.claimCount = 1 ∧
      (((frameMachine.checked Sound {} resumed).getD {}).book.claim 0).closed = true := by decide
  obtain ⟨hwaits, hactive, hcall, hsome, hsettled, hcount, hclosed⟩ := hends
  obtain ⟨u, hu⟩ := Option.isSome_iff_exists.mp hwaits
  obtain ⟨s, hs⟩ := Option.isSome_iff_exists.mp hsome
  rw [hu] at hactive hcall
  rw [hs] at hsettled hcount hclosed
  obtain ⟨call, hcall, hfields⟩ := Option.map_eq_some_iff.mp hcall
  rw [Prod.mk.injEq] at hfields
  have htidy := (frames_tidy s ⟨{}, rfl, Machine.path_of_checked hs⟩).1
  refine ⟨⟨u, hu, (frames_tidy u ⟨{}, rfl, Machine.path_of_checked hu⟩).1, hactive, call, hcall, hfields⟩, s, hs, hsettled,
    hcount, htidy.gone 0 hsettled fun c hc _ => ?_⟩
  have hzero : c = 0 := Nat.lt_one_iff.mp (hcount ▸ hc)
  rw [hzero]
  exact hclosed

/-! ## What is left behind -/

/-- The writer of a staged route fails, then its stage is committed. -/
def failedStage : List FrameAction :=
  [.stageInput ⟨"programmatic:a", "input"⟩ "connection",
    .resolvePage "connection" outputPage (fun _ => .ok (some "output")) [0], .attachPage [0] 0,
    .written 0 (.error (.given "connection lost")), .frameDone 0 0, .commit 0]

/-- An Input is settled while it is claimed, then the claim ends. -/
def settledClaim : List FrameAction :=
  [.routeInput ⟨"programmatic:a", "input"⟩ "connection",
    .armClaim ⟨"programmatic:a", "input"⟩ ⟨"call", 0⟩,
    .waitInput ⟨"programmatic:a", "input"⟩ "output" 0,
    .settleInput ⟨"programmatic:a", "input"⟩ none, .endClaim 0]

/-- An Input is settled while its route is staged, then the stage is committed. -/
def settledStage : List FrameAction :=
  [.stageInput ⟨"programmatic:a", "input"⟩ "connection",
    .settleInput ⟨"programmatic:a", "input"⟩ (some (.given "stopped")), .commit 0,
    .waitInput ⟨"programmatic:a", "input"⟩ "output" 0]

/-- Each run leaves a route in the table that should be gone: one with an error, and those of a
settled Input with a wait that nobody ends. -/
theorem frames_left_behind :
    ¬ (∀ s, frameMachine.Reachable s → ∀ r, Active s.book r → (s.book.route r).error = none) ∧
    ∀ as ∈ [settledClaim, settledStage], ∃ s, frameMachine.Reachable s ∧ frameMachine.run {} as = some s ∧
      0 ∈ s.settled ∧ (∀ c < s.book.claimCount, (s.book.claim c).closed = true) ∧ Active s.book 0 ∧
      Pending s.book 0 0 := by
  constructor
  · intro hall
    have hreach : frameMachine.Reachable ((frameMachine.run {} failedStage).getD {}) :=
      Machine.reach_getD rfl (fun _ _ _ => trivial) (by decide)
    have hactive : Active ((frameMachine.run {} failedStage).getD {}).book 0 := by decide
    have herror : (((frameMachine.run {} failedStage).getD {}).book.route 0).error ≠ none := by
      decide
    exact herror (hall _ hreach 0 hactive)
  · intro as has
    have hends : (frameMachine.run {} as).isSome = true ∧
        0 ∈ ((frameMachine.run {} as).getD {}).settled ∧
        (∀ c < ((frameMachine.run {} as).getD {}).book.claimCount,
          (((frameMachine.run {} as).getD {}).book.claim c).closed = true) ∧
        Active ((frameMachine.run {} as).getD {}).book 0 ∧
        (((frameMachine.run {} as).getD {}).book.call 0).map (fun call => (call.route, call.outcome)) =
          some (0, none) := by
      rcases List.mem_pair.mp has with rfl | rfl
      · decide
      · decide
    obtain ⟨hsome, hsettled, hclosed, hactive, hcall⟩ := hends
    obtain ⟨s, hs⟩ := Option.isSome_iff_exists.mp hsome
    rw [hs] at hsettled hclosed hactive hcall
    obtain ⟨call, hcall, hfields⟩ := Option.map_eq_some_iff.mp hcall
    rw [Prod.mk.injEq] at hfields
    exact ⟨s, Machine.reach_of_run rfl (fun _ _ _ => trivial) hs, hs, hsettled, hclosed, hactive, call, hcall, hfields⟩

end MonoAgent.Control
