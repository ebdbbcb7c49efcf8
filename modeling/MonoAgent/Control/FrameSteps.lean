import MonoAgent.Control.FrameRoutes

/-!
# Every operation keeps the routes in their places

One lemma for each operation of the book.  `Alike` collects what an operation leaves as it
is that only binds endings, attaches writers or adds and removes waits.
-/

namespace MonoAgent.Control

open MonoAgent.Lib

variable {settled : List ℕ} {free : Option ℕ} {closing : Bool} {s t : Book} {r : ℕ}

/-! ## Operations that do not move routes -/

/-- `t` differs from `s` in the bindings, the writers and the waits only. -/
structure Alike (s t : Book) : Prop where
  routes : t.routes = s.routes
  stages : t.stages = s.stages
  stage : t.stage = s.stage
  routeCount : t.routeCount = s.routeCount
  stageCount : t.stageCount = s.stageCount
  claimCount : t.claimCount = s.claimCount
  closed : t.closed = s.closed
  key : ∀ x, (t.route x).key = (s.route x).key
  error : ∀ x, (t.route x).error = (s.route x).error
  staged : ∀ x, (t.route x).staged = (s.route x).staged
  drained : ∀ x, (t.route x).drained = (s.route x).drained
  claims : ∀ x, (t.route x).claims = (s.route x).claims
  claimRoute : ∀ c, (t.claim c).route = (s.claim c).route
  claimClosed : ∀ c, (t.claim c).closed = (s.claim c).closed
  waits : ∀ x w, Pending t x w → w ∈ (t.route x).waiters ∧
    (Pending s x w ∨ x < s.routeCount ∧ (s.route x).error = none ∧ (s.route x).drained = false)
  sites : ∀ w call, t.call w = some call → s.call w = some call ∨ call.route < s.routeCount

theorem Alike.active (h : Alike s t) (x : ℕ) : Active t x ↔ Active s x := by
  rw [Active, Active, h.routes, h.key]

theorem Alike.live (h : Alike s t) (x : ℕ) : Live t x ↔ Live s x := by
  rw [Live, Live, h.stages, h.stage]

theorem Alike.core (h : Alike s t) (hs : Core settled free closing s) :
    Core settled free closing t where
  nodup := h.routes ▸ hs.nodup
  table e he := by
    rw [h.routeCount, h.key, h.error, h.staged]
    exact hs.table e (h.routes ▸ he)
  held x hx := by
    rw [h.drained, h.claims]
    exact hs.held x ((h.active x).mp hx)
  stages st hst := by
    rw [h.stageCount, h.stage, h.error]
    exact hs.stages st (h.stages ▸ hst)
  opened st hlt := by
    rw [h.stage, h.staged, h.claims, h.error, h.stages, h.routeCount]
    exact hs.opened st (h.stageCount ▸ hlt)
  apart := by
    rw [h.stage, h.stageCount]
    exact hs.apart
  home x hx := by
    rw [h.error, h.drained, h.active, h.live]
    exact hs.home x (h.routeCount ▸ hx)
  waits x w hp := by
    obtain ⟨hmem, hbefore⟩ := h.waits x w hp
    rw [h.routeCount, h.error, h.drained]
    rcases hbefore with hbefore | ⟨hlt, herror, hdrained⟩
    · obtain ⟨hlt, -, herror, hdrained⟩ := hs.waits x w hbefore
      exact ⟨hlt, hmem, herror, hdrained⟩
    · exact ⟨hlt, hmem, herror, hdrained⟩
  sites w call hcall := by
    rw [h.routeCount]
    exact (h.sites w call hcall).elim (hs.sites w call) id
  claims x c hc := by
    rw [h.claimCount, h.claimRoute, h.claimClosed]
    exact hs.claims x c (h.claims x ▸ hc)
  claimed c hlt := by
    rw [h.claimClosed, h.claimRoute, h.claims, h.routeCount]
    exact hs.claimed c (h.claimCount ▸ hlt)
  ended x hx := by
    rw [h.staged, h.active, h.claims, h.routeCount]
    exact hs.ended x hx
  shut hclosing := by
    rw [h.closed, h.routes, h.stages]
    exact hs.shut hclosing

/-- A change of what `Core` does not read of a route. -/
theorem alike_modify (hs : Core settled free closing s) {f : Route → Route}
    (hf : ∀ route, f route = { route with
      expected := (f route).expected, resolved := (f route).resolved, written := (f route).written }) :
    Alike s (s.modify r f) := by
  have hroute (x : ℕ) : (s.modify r f).route x = { s.route x with
      expected := ((s.modify r f).route x).expected
      resolved := ((s.modify r f).route x).resolved
      written := ((s.modify r f).route x).written } := by
    by_cases hx : x = r
    · subst hx
      simp only [Book.modify, Function.update_self]
      exact hf _
    · simp [Book.modify, hx]
  refine ⟨rfl, rfl, rfl, rfl, rfl, rfl, rfl, fun x => ?_, fun x => ?_, fun x => ?_, fun x => ?_,
    fun x => ?_, fun _ => rfl, fun _ => rfl, fun x w hp => ⟨?_, Or.inl hp⟩, fun w call hcall => Or.inl hcall⟩
  · rw [hroute]
  · rw [hroute]
  · rw [hroute]
  · rw [hroute]
  · rw [hroute]
  · rw [hroute]
    exact (hs.waits x w hp).2.1

theorem resolve_core (hs : Core settled free closing s) (ending : String) :
    Core settled free closing (s.resolve r ending) := by
  have hmodify := alike_modify (r := r) (f := fun route =>
    { route with expected := some ending, resolved := some ending }) hs fun _ => rfl
  have halike : Alike s (s.resolve r ending) := by
    refine ⟨rfl, rfl, rfl, rfl, rfl, rfl, rfl, hmodify.key, hmodify.error, hmodify.staged,
      hmodify.drained, hmodify.claims, fun c => ?_, fun c => ?_, hmodify.waits, hmodify.sites⟩
    · simp only [Book.resolve]
      split_ifs
      · rfl
      · rfl
    · simp only [Book.resolve]
      split_ifs
      · rfl
      · rfl
  exact halike.core hs

theorem resolveRoutes_core {connectionId : String} {complete : List (String × String)}
    {resolver : ℕ → Except Failure (Option String)} (routes : List ℕ)
    (hs : Core settled free closing s) :
    Core settled free closing (Book.resolveRoutes connectionId complete resolver routes s).2 := by
  induction routes generalizing s with
  | nil => exact hs
  | cons r rest ih =>
      rw [Book.resolveRoutes]
      split_ifs with hconnection
      · exact ih hs
      · split
        · exact hs
        · exact ih hs
        · next ending _ =>
            split_ifs with hin hexpected
            · exact hs
            · exact ih (resolve_core hs ending)
            · exact ih hs

theorem resolvePage_core {connectionId : String} {page : Doc}
    {resolver : ℕ → Except Failure (Option String)} {order : List ℕ}
    (hs : Core settled free closing s) :
    Core settled free closing (s.resolvePage connectionId page resolver order).2 := by
  unfold Book.resolvePage
  split
  · exact hs
  · exact resolveRoutes_core _ hs

theorem attachPage_core {tracked : List ℕ} {written : ℕ} (hs : Core settled free closing s) :
    Core settled free closing (s.attachPage tracked written) := by
  unfold Book.attachPage
  induction tracked generalizing s with
  | nil => exact hs
  | cons r rest ih =>
      rw [List.foldl_cons]
      split_ifs with hattached
      · exact ih hs
      · have hmodify := alike_modify (r := r) (f := fun route => { route with written := some written })
          hs fun _ => rfl
        have halike : Alike s { s.modify r fun route => { route with written := some written } with
            callbacks := s.callbacks ++ [(r, written)] } :=
          ⟨rfl, rfl, rfl, rfl, rfl, rfl, rfl, hmodify.key, hmodify.error, hmodify.staged,
            hmodify.drained, hmodify.claims, hmodify.claimRoute, hmodify.claimClosed, hmodify.waits,
            hmodify.sites⟩
        exact ih (halike.core hs)

/-! ## Waits -/

theorem discard_core {w : ℕ} {call : Call} (hs : Core settled free closing s) :
    Core settled free closing (s.discard w call) := by
  have hroute (x : ℕ) : (s.discard w call).route x =
      { s.route x with waiters := ((s.discard w call).route x).waiters } := by
    by_cases hx : x = call.route
    · subst hx
      simp [Book.discard, Book.modify]
    · simp [Book.discard, Book.modify, hx]
  refine Alike.core (s := s) ⟨rfl, rfl, rfl, rfl, rfl, rfl, rfl, fun x => ?_, fun x => ?_,
    fun x => ?_, fun x => ?_, fun x => ?_, fun _ => rfl, fun _ => rfl, fun x w' hp => ?_, fun w' other hcall => ?_⟩ hs
  · rw [hroute]
  · rw [hroute]
  · rw [hroute]
  · rw [hroute]
  · rw [hroute]
  · obtain ⟨other, hcall, hx, hnone⟩ := hp
    have hne : w' ≠ w := by
      rintro rfl
      simp [Book.discard] at hcall
    have hbefore : s.call w' = some other := by
      simpa [Book.discard, hne] using hcall
    have hp' : Pending s x w' := ⟨other, hbefore, hx, hnone⟩
    have hmem := (hs.waits x w' hp').2.1
    refine ⟨?_, Or.inl hp'⟩
    by_cases hxr : x = call.route
    · subst hxr
      simp [Book.discard, Book.modify, hmem, hne]
    · simpa [Book.discard, Book.modify, hxr] using hmem
  · have hne : w' ≠ w := by
      rintro rfl
      simp [Book.discard] at hcall
    exact Or.inl (by simpa [Book.discard, hne] using hcall)

theorem waitRoute_core {claim : Option ℕ} {w : ℕ} (hs : Core settled free closing s)
    (hr : r < s.routeCount) : Core settled free closing (s.waitRoute r claim w).2 := by
  unfold Book.waitRoute
  split
  · exact hs
  · next herror =>
      split_ifs with hdrained
      · exact hs
      · rw [Bool.not_eq_true] at hdrained
        let t : Book :=
          { s.modify r fun route => { route with waiters := route.waiters ++ [w] } with
            call := Function.update s.call w (some { route := r, claim }) }
        have hroute (x : ℕ) : t.route x = { s.route x with waiters := (t.route x).waiters } := by
          by_cases hx : x = r
          · subst hx
            simp [t, Book.modify]
          · simp [t, Book.modify, hx]
        refine Alike.core (s := s) (t := t) ⟨rfl, rfl, rfl, rfl, rfl, rfl, rfl, fun x => ?_, fun x => ?_,
          fun x => ?_, fun x => ?_, fun x => ?_, fun _ => rfl, fun _ => rfl, fun x w' hp => ?_,
          fun w' other hcall => ?_⟩ hs
        · rw [hroute]
        · rw [hroute]
        · rw [hroute]
        · rw [hroute]
        · rw [hroute]
        · obtain ⟨other, hcall, hx, hnone⟩ := hp
          by_cases hw : w' = w
          · have hother : { route := r, claim } = other := by
              simpa [t, hw] using hcall
            have hxr : x = r := by
              rw [← hx, ← hother]
            subst hxr
            exact ⟨by simp [t, Book.modify, hw], Or.inr ⟨hr, herror, hdrained⟩⟩
          · have hbefore : s.call w' = some other := by
              simpa [t, hw] using hcall
            have hp' : Pending s x w' := ⟨other, hbefore, hx, hnone⟩
            have hmem := (hs.waits x w' hp').2.1
            refine ⟨?_, Or.inl hp'⟩
            by_cases hxr : x = r
            · subst hxr
              simp [t, Book.modify, hmem]
            · simpa [t, Book.modify, hxr] using hmem
        · by_cases hw : w' = w
          · have hother : { route := r, claim } = other := by
              simpa [t, hw] using hcall
            exact Or.inr (hother ▸ hr)
          · exact Or.inl (by simpa [t, hw] using hcall)

theorem waitOutput_core {messageId : String} {w : ℕ} (hs : Core settled free closing s)
    (hr : r < s.routeCount) : Core settled free closing (s.waitOutput r messageId w).2 := by
  unfold Book.waitOutput
  split_ifs with hexpected
  · exact hs
  · exact waitRoute_core ((alike_modify hs fun _ => rfl).core hs) hr

theorem waitInput_core {key : RouteKey} {ending : String} {w : ℕ}
    (hs : Core settled free closing s) :
    Core settled free closing (s.waitInput key ending w).2 := by
  unfold Book.waitInput
  split
  · exact hs
  · next r hget => exact waitOutput_core hs (hs.table _ (Dict.mem_of_get? hget)).1

theorem claimLoop_core {c w : ℕ} (hs : Core settled free closing s) (hr : r < s.routeCount) :
    Core settled free closing (s.claimLoop r c w).2 := by
  have hwait : Core settled free closing (s.waitRoute r (some c) w).2 := waitRoute_core hs hr
  unfold Book.claimLoop
  split_ifs with hloop
  · split
    · next u heq =>
        rw [heq] at hwait
        exact hwait
    · next error u heq =>
        rw [heq] at hwait
        exact hwait
    · next u heq =>
        rw [heq] at hwait
        exact hwait
  · exact hs

theorem waitClaim_core {c w : ℕ} (hs : Core settled free closing s) (hc : c < s.claimCount) :
    Core settled free closing (s.waitClaim c w).2 := by
  unfold Book.waitClaim
  split_ifs with hclosed
  · exact hs
  · exact claimLoop_core hs (hs.claimed c hc (Bool.not_eq_true _ ▸ hclosed)).1

theorem routeCount_maybeRelease (s : Book) (r : ℕ) : (s.maybeRelease r).routeCount = s.routeCount := by
  unfold Book.maybeRelease Book.releaseRoute
  split_ifs
  · rfl
  · split
    · rfl
    · split_ifs
      · rfl
      · rfl

theorem maybeRelease_keeps (hs : Core settled none false s) (r : ℕ) :
    Core settled none false (s.maybeRelease r) := by
  refine maybeRelease_core (hs.weaken r) (fun hlt => hs.home r hlt (Option.some_ne_none _)) ?_
  intro hin hactive hnil
  exact absurd hnil ((hs.ended r hin).2.2 (Option.some_ne_none _) hactive)

theorem wake_core {w : ℕ} {call : Call} {outcome : Option Failure} (hs : Core settled none false s)
    (hcall : s.call w = some call) : Core settled none false (s.wake w call outcome).2 := by
  have hdiscard : Core settled none false (s.discard w call) := discard_core hs
  have hlt : call.route < ((s.discard w call).maybeRelease call.route).routeCount := by
    rw [routeCount_maybeRelease]
    exact hs.sites w call hcall
  have hrelease := maybeRelease_keeps hdiscard call.route
  unfold Book.wake
  cases outcome with
  | some error => exact hdiscard
  | none =>
      dsimp only
      split
      · exact hdiscard
      · split
        · exact hrelease
        · split
          · exact hrelease
          · exact claimLoop_core hrelease hlt

/-- A route that is drained is exempt until it is looked at. -/
theorem drain_core (hs : Core settled none false s) :
    Core settled (some r) false ((s.modify r fun route =>
      { route with written := none, drained := true }).resume (s.route r).waiters none) := by
  let t : Book := (s.modify r fun route =>
    { route with written := none, drained := true }).resume (s.route r).waiters none
  have hroute (x : ℕ) : t.route x =
      { s.route x with written := (t.route x).written, drained := (t.route x).drained } := by
    by_cases hx : x = r
    · subst hx
      simp [t, Book.modify, Book.resume]
    · simp [t, Book.modify, Book.resume, hx]
  have hother (x : ℕ) (hx : x ≠ r) : t.route x = s.route x := by
    simp [t, Book.modify, Book.resume, hx]
  have hactive (x : ℕ) : Active t x ↔ Active s x := by
    rw [Active, hroute]
    rfl
  have hne {x : ℕ} (hx : some x ≠ some r) : x ≠ r := by simpa using hx
  refine ⟨hs.nodup, fun e he => ?_, fun x hx hexempt => ?_, fun st hst => ?_, fun st hlt hclosed => ?_,
    hs.apart, fun x hx hexempt => ?_, fun x w hp => ?_, fun w call hcall => ?_, fun x c hc => ?_,
    fun c hlt hclosed => ?_, fun x hx => ?_, hs.shut⟩
  · rw [hroute]
    exact hs.table e he
  · rw [hother x (hne hexempt)]
    exact hs.held x ((hactive x).mp hx) (Option.some_ne_none _)
  · rw [hroute]
    exact hs.stages st hst
  · rw [hroute]
    exact hs.opened st hlt hclosed
  · rw [hother x (hne hexempt), hactive]
    exact hs.home x hx (Option.some_ne_none _)
  · obtain ⟨call, hcall, hx, hnone⟩ := hp
    obtain ⟨hbefore, hnot⟩ := resume_call hcall hnone
    obtain ⟨hlt, hmem, herror, hdrained⟩ := hs.waits x w ⟨call, hbefore, hx, hnone⟩
    have hxr : x ≠ r := by
      rintro rfl
      exact hnot hmem
    rw [hother x hxr]
    exact ⟨hlt, hmem, herror, hdrained⟩
  · obtain ⟨before, hbefore, hsite⟩ := resume_site hcall
    rw [← hsite]
    exact hs.sites w before hbefore
  · rw [hroute] at hc
    exact hs.claims x c hc
  · rw [hroute]
    exact hs.claimed c hlt hclosed
  · obtain ⟨hlt, hstaged, hclaims⟩ := hs.ended x hx
    rw [hroute, hactive]
    exact ⟨hlt, hstaged, fun _ => hclaims (Option.some_ne_none _)⟩

theorem frameDone_core {result : Except Failure Unit} (hs : Core settled none false s) :
    Core settled none false (s.frameDone r result) := by
  unfold Book.frameDone
  cases result with
  | error error => exact (fail_ends hs rfl rfl).core hs fun x _ _ => Option.some_ne_none x
  | ok =>
      have hwaiters : ((s.modify r fun route => { route with written := none, drained := true }).route
          r).waiters = (s.route r).waiters := by
        simp [Book.modify]
      have hdrained : (((s.modify r fun route => { route with written := none, drained := true }).resume
          (s.route r).waiters none).route r).drained = true := by
        simp [Book.modify, Book.resume]
      dsimp only
      rw [hwaiters]
      refine maybeRelease_core (drain_core hs) (fun _ _ hfalse => ?_) fun _ _ _ => hdrained
      rw [hdrained] at hfalse
      cases hfalse

/-! ## New routes and stages -/

/-- A route that is made is exempt until it has its place. -/
theorem make_core (route : Route) (hs : Core settled none closing s) (hclaims : route.claims = []) :
    Core settled (some s.routeCount) closing
      { s with
        route := Function.update s.route s.routeCount route
        routeCount := s.routeCount + 1 } := by
  let t : Book :=
    { s with
      route := Function.update s.route s.routeCount route
      routeCount := s.routeCount + 1 }
  have hold {x : ℕ} (hx : x < s.routeCount) : t.route x = s.route x := by
    simp [t, Nat.ne_of_lt hx]
  have hactive {x : ℕ} (hx : Active t x) : x < s.routeCount := (hs.table _ hx).1
  have hsame {x : ℕ} (hx : x < s.routeCount) : Active t x ↔ Active s x := by
    rw [Active, hold hx]
    rfl
  have hlt {x : ℕ} (hx : x < s.routeCount) : x < t.routeCount := Nat.lt_succ_of_lt hx
  refine ⟨hs.nodup, fun e he => ?_, fun x hx hexempt => ?_, fun st hst => ?_,
    fun st hst hclosed => ?_, hs.apart, fun x hx hexempt => ?_, fun x w hp => ?_,
    fun w call hcall => hlt (hs.sites w call hcall), fun x c hc => ?_, fun c hc hclosed => ?_,
    fun x hx => ?_, hs.shut⟩
  · obtain ⟨hcount, htable⟩ := hs.table e he
    rw [hold hcount]
    exact ⟨hlt hcount, htable⟩
  · have hcount := hactive hx
    rw [hold hcount]
    exact hs.held x ((hsame hcount).mp hx) (Option.some_ne_none _)
  · obtain ⟨hcount, hclosed, hstage⟩ := hs.stages st hst
    have hroute : t.route (s.stage st).route = s.route (s.stage st).route :=
      hold (hs.opened st hcount hclosed).1
    exact ⟨hcount, hclosed, hroute ▸ hstage⟩
  · obtain ⟨hcount, hopened⟩ := hs.opened st hst hclosed
    have hroute : t.route (s.stage st).route = s.route (s.stage st).route := hold hcount
    exact ⟨hlt hcount, hroute ▸ hopened⟩
  · have hne : x ≠ s.routeCount := by simpa using hexempt
    have hcount : x < s.routeCount := Nat.lt_of_le_of_ne (Nat.le_of_lt_succ hx) hne
    rw [hold hcount, hsame hcount]
    exact hs.home x hcount (Option.some_ne_none _)
  · obtain ⟨hcount, hwaits⟩ := hs.waits x w hp
    rw [hold hcount]
    exact ⟨hlt hcount, hwaits⟩
  · by_cases hx : x = s.routeCount
    · simp [hx, hclaims] at hc
    · have hroute : t.route x = s.route x := by simp [t, hx]
      exact hs.claims x c (hroute ▸ hc)
  · obtain ⟨hcount, hclaimed⟩ := hs.claimed c hc hclosed
    have hroute : t.route (s.claim c).route = s.route (s.claim c).route := hold hcount
    exact ⟨hlt hcount, hroute ▸ hclaimed⟩
  · obtain ⟨hcount, hstaged, hended⟩ := hs.ended x hx
    rw [hold hcount, hsame hcount]
    exact ⟨hlt hcount, hstaged, fun _ => hended (Option.some_ne_none _)⟩

/-- A route takes a free place in the table. -/
theorem enter_core (hs : Core settled (some r) closing s) (hr : r < s.routeCount)
    (herror : (s.route r).error = none) (hstaged : (s.route r).staged = false)
    (hnone : s.routes.get? (s.route r).key = none) (hnew : r ∉ settled)
    (hclosed : s.closed = none) :
    Core settled (some r) closing { s with routes := s.routes.set (s.route r).key r } := by
  let t : Book := { s with routes := s.routes.set (s.route r).key r }
  have hmem (e : RouteKey × ℕ) : e ∈ t.routes ↔ e = ((s.route r).key, r) ∨ e ∈ s.routes := by
    refine Dict.mem_set.trans (or_congr Iff.rfl (and_iff_right_of_imp fun he hkey => ?_))
    have hin : (s.route r).key ∈ s.routes.keys := hkey ▸ List.mem_map_of_mem he
    exact (Dict.get?_eq_none.mp hnone) hin
  have hactive {x : ℕ} (hx : x ≠ r) : Active t x ↔ Active s x := by
    refine (hmem _).trans (or_iff_right fun heq => ?_)
    exact hx (congrArg Prod.snd heq)
  have hne {x : ℕ} (hx : some x ≠ some r) : x ≠ r := by simpa using hx
  refine ⟨Dict.nodup_keys_set hs.nodup _ _, fun e he => ?_, fun x hx hexempt => ?_, hs.stages,
    hs.opened, hs.apart, fun x hx hexempt => ?_, hs.waits, hs.sites, hs.claims, hs.claimed,
    fun x hx => ?_, fun _ hopen => absurd hclosed hopen⟩
  · rcases (hmem e).mp he with rfl | he'
    · exact ⟨hr, rfl, herror, hstaged⟩
    · exact hs.table e he'
  · exact hs.held x ((hactive (hne hexempt)).mp hx) hexempt
  · intro hgood hundrained
    exact (hs.home x hx hexempt hgood hundrained).imp_left (hactive (hne hexempt)).mpr
  · obtain ⟨hlt, hunstaged, hclaims⟩ := hs.ended x hx
    have hxr : x ≠ r := fun heq => hnew (heq ▸ hx)
    refine ⟨hlt, hunstaged, fun hexempt hin => ?_⟩
    exact hclaims hexempt ((hactive hxr).mp hin)

theorem routeInput_core {key : RouteKey} {connectionId : String} (hs : Core settled none false s) :
    Core settled none false (s.routeInput key connectionId).2 := by
  unfold Book.routeInput
  split
  · exact hs
  · next hclosed =>
      split
      · exact hs
      · next hget =>
          have hnew : s.routeCount ∉ settled := fun hin => Nat.lt_irrefl _ (hs.ended _ hin).1
          have hmake := make_core { key, connectionId } hs rfl
          have henter := enter_core hmake (Nat.lt_succ_self _) (by simp) (by simp) (by simpa using hget)
            hnew hclosed
          simp only [Function.update_self] at henter
          -- the new route is neither drained nor settled, and now it has its place
          refine { henter with held := fun x hx _ hdrained => ?_, home := fun x hx _ => ?_,
                               ended := fun x hx => ?_ }
          · by_cases hxr : x = s.routeCount
            · simp [hxr] at hdrained
            · exact henter.held x hx (by simpa using hxr) hdrained
          · by_cases hxr : x = s.routeCount
            · intro _ _
              refine Or.inl (Dict.mem_set.mpr (Or.inl ?_))
              simp [hxr]
            · exact henter.home x hx (by simpa using hxr)
          · obtain ⟨hlt, hstaged, hclaims⟩ := henter.ended x hx
            have hxr : x ≠ s.routeCount := fun heq => hnew (heq ▸ hx)
            exact ⟨hlt, hstaged, fun _ => hclaims (by simpa using hxr)⟩

end MonoAgent.Control
