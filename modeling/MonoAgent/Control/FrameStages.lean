import MonoAgent.Control.FrameSteps

/-!
# Stages, claims and the ends of Inputs

Two steps keep `Core` on a condition only: a stage must not be committed whose route has
failed, and the last claim of a settled Input must not end before the Output has drained.
-/

namespace MonoAgent.Control

open MonoAgent.Lib

variable {settled : List ℕ} {free : Option ℕ} {closing : Bool} {s t : Book} {r : ℕ}

/-! ## Stages -/

theorem stageInput_core {key : RouteKey} {connectionId : String} (hs : Core settled none false s) :
    Core settled none false (s.stageInput key connectionId).2 := by
  unfold Book.stageInput
  split
  · exact hs
  · next hclosed =>
      have hmake := make_core { key, connectionId, staged := true } hs rfl
      have hroute (x : ℕ) (hx : x < s.routeCount) :
          Function.update s.route s.routeCount { key, connectionId, staged := true } x = s.route x :=
        Function.update_of_ne (Nat.ne_of_lt hx) ..
      have hstage (st : ℕ) (hst : st < s.stageCount) :
          Function.update s.stage s.stageCount { route := s.routeCount } st = s.stage st :=
        Function.update_of_ne (Nat.ne_of_lt hst) ..
      have hbefore (st : ℕ) (hst : st < s.stageCount) (hopen : (s.stage st).closed = false) :
          (s.stage st).route < s.routeCount := (hs.opened st hst hopen).1
      have hlive {x : ℕ} (h : Live s x) : ∃ st ∈ s.stages ++ [s.stageCount],
          (Function.update s.stage s.stageCount { route := s.routeCount } st).route = x := by
        obtain ⟨st, hst, rfl⟩ := h
        refine ⟨st, List.mem_append_left _ hst, ?_⟩
        rw [hstage st (hs.stages st hst).1]
      refine { hmake with
        held := fun x hx _ hdrained => ?_, stages := fun st hst => ?_,
        opened := fun st hst hopen => ?_, apart := fun st hst st' hst' hopen hopen' heq => ?_,
        home := fun x hx _ hgood hundrained => ?_, ended := fun x hx => ?_,
        shut := fun _ hshut => absurd hclosed hshut }
      · by_cases hxr : x = s.routeCount
        · simp [hxr] at hdrained
        · exact hmake.held x hx (by simpa using hxr) hdrained
      · dsimp only at hst ⊢
        rcases List.mem_append.mp hst with hold | hnew
        · obtain ⟨hlt, hopen, herror⟩ := hmake.stages st hold
          dsimp only at hlt hopen herror
          rw [hstage st hlt]
          exact ⟨Nat.lt_succ_of_lt hlt, hopen, herror⟩
        · rw [List.mem_singleton.mp hnew]
          simp
      · dsimp only at hst hopen ⊢
        rcases Nat.lt_succ_iff_lt_or_eq.mp hst with hlt | rfl
        · rw [hstage st hlt] at hopen ⊢
          obtain ⟨hroute', hstaged, hclaims, hmem⟩ := hmake.opened st hlt hopen
          exact ⟨hroute', hstaged, hclaims, fun herror => List.mem_append_left _ (hmem herror)⟩
        · simp
      · dsimp only at hst hst' hopen hopen' heq
        rcases Nat.lt_succ_iff_lt_or_eq.mp hst with hlt | rfl
        · rcases Nat.lt_succ_iff_lt_or_eq.mp hst' with hlt' | rfl
          · rw [hstage st hlt] at hopen heq
            rw [hstage st' hlt'] at hopen' heq
            exact hs.apart st hlt st' hlt' hopen hopen' heq
          · rw [hstage st hlt] at hopen heq
            rw [Function.update_self] at heq
            exact absurd heq (Nat.ne_of_lt (hbefore st hlt hopen))
        · rcases Nat.lt_succ_iff_lt_or_eq.mp hst' with hlt' | rfl
          · rw [hstage st' hlt'] at hopen' heq
            rw [Function.update_self] at heq
            exact absurd heq.symm (Nat.ne_of_lt (hbefore st' hlt' hopen'))
          · rfl
      · dsimp only at hx hgood hundrained
        rcases Nat.lt_succ_iff_lt_or_eq.mp hx with hlt | rfl
        · have hne : some x ≠ some s.routeCount := by simpa using Nat.ne_of_lt hlt
          exact (hmake.home x hx hne hgood hundrained).imp_right hlive
        · exact Or.inr ⟨s.stageCount, by simp, by simp⟩
      · obtain ⟨hlt, hstaged, hclaims⟩ := hmake.ended x hx
        have hxr : x ≠ s.routeCount := Nat.ne_of_lt (hs.ended x hx).1
        exact ⟨hlt, hstaged, fun _ => hclaims (by simpa using hxr)⟩

/-- The route of a stage that closes is exempt until it has its place or has ended. -/
theorem closeStage_core {st : ℕ} (hs : Core settled none closing s) (hst : st < s.stageCount)
    (hopen : (s.stage st).closed = false) :
    Core settled (some (s.stage st).route) closing (s.closeStage st) := by
  have hstage (x : ℕ) (hx : x ≠ st) : (s.closeStage st).stage x = s.stage x := by
    simp [Book.closeStage, hx]
  have hclosed : ((s.closeStage st).stage st).closed = true := by
    simp [Book.closeStage]
  have hother {x : ℕ} (hx : ((s.closeStage st).stage x).closed = false) : x ≠ st := by
    rintro rfl
    rw [hclosed] at hx
    cases hx
  have hmem (x : ℕ) : x ∈ (s.closeStage st).stages ↔ x ∈ s.stages ∧ x ≠ st := by
    simp [Book.closeStage]
  refine { hs.weaken (s.stage st).route with
    stages := fun x hx => ?_, opened := fun x hx hopen' => ?_,
    apart := fun x hx y hy hopenx hopeny heq => ?_, home := fun x hx hexempt hgood hundrained => ?_,
    shut := fun hclosing hshut => ?_ }
  · obtain ⟨hin, hne⟩ := (hmem x).mp hx
    rw [hstage x hne]
    exact hs.stages x hin
  · have hne := hother hopen'
    rw [hstage x hne] at hopen' ⊢
    obtain ⟨hroute, hstaged, hclaims, hin⟩ := hs.opened x hx hopen'
    exact ⟨hroute, hstaged, hclaims, fun herror => (hmem x).mpr ⟨hin herror, hne⟩⟩
  · have hnex := hother hopenx
    have hney := hother hopeny
    rw [hstage x hnex] at hopenx heq
    rw [hstage y hney] at hopeny heq
    exact hs.apart x hx y hy hopenx hopeny heq
  · refine (hs.home x hx (Option.some_ne_none _) hgood hundrained).imp_right ?_
    rintro ⟨st', hin, rfl⟩
    have hne : st' ≠ st := by
      rintro rfl
      exact hexempt rfl
    exact ⟨st', (hmem st').mpr ⟨hin, hne⟩, by rw [hstage st' hne]⟩
  · obtain ⟨hroutes, hstages⟩ := hs.shut hclosing hshut
    refine ⟨hroutes, ?_⟩
    rw [Book.closeStage, hstages]
    rfl

theorem abort_core {st : ℕ} (hs : Core settled none closing s) (hst : st < s.stageCount) :
    Core settled none closing (s.abort st) := by
  unfold Book.abort
  split_ifs with hclosed
  · exact hs
  · have hcore := closeStage_core hs hst (Bool.not_eq_true _ ▸ hclosed)
    exact (fail_ends hcore rfl rfl).core hcore fun x hx _ => by simpa using hx

/-- A route whose stage is closed is no longer staged. -/
theorem unstage_core (hs : Core settled (some r) closing s)
    (hfree : ∀ st < s.stageCount, (s.stage st).closed = false → (s.stage st).route ≠ r) :
    Core settled (some r) closing (s.modify r fun route => { route with staged := false }) := by
  let t : Book := s.modify r fun route => { route with staged := false }
  have hroute (x : ℕ) : t.route x = { s.route x with staged := (t.route x).staged } := by
    by_cases hx : x = r
    · subst hx
      simp [t, Book.modify]
    · simp [t, Book.modify, hx]
  have hother (x : ℕ) (hx : x ≠ r) : t.route x = s.route x := by
    simp [t, Book.modify, hx]
  have hstaged (x : ℕ) (h : (s.route x).staged = false) : (t.route x).staged = false := by
    by_cases hx : x = r
    · subst hx
      simp [t, Book.modify]
    · rw [hother x hx]
      exact h
  have hactive (x : ℕ) : Active t x ↔ Active s x := by
    rw [Active, hroute]
    rfl
  refine { hs with
    table := fun e he => ?_, held := fun x hx => ?_, stages := fun st hst => ?_,
    opened := fun st hst hopen => ?_, home := fun x hx => ?_, waits := fun x w hp => ?_,
    claims := fun x c hc => ?_, claimed := fun c hc hopen => ?_, ended := fun x hx => ?_ }
  · obtain ⟨hlt, hkey, herror, hunstaged⟩ := hs.table e he
    refine ⟨hlt, ?_, ?_, hstaged _ hunstaged⟩
    · rw [hroute]
      exact hkey
    · rw [hroute]
      exact herror
  · rw [hroute]
    exact hs.held x ((hactive x).mp hx)
  · rw [hroute]
    exact hs.stages st hst
  · have hne : (t.stage st).route ≠ r := hfree st hst hopen
    rw [hother _ hne]
    exact hs.opened st hst hopen
  · rw [hroute, hactive]
    exact hs.home x hx
  · rw [hroute]
    exact hs.waits x w hp
  · rw [hroute] at hc
    exact hs.claims x c hc
  · rw [hroute]
    exact hs.claimed c hc hopen
  · obtain ⟨hlt, hunstaged, hclaims⟩ := hs.ended x hx
    refine ⟨hlt, hstaged x hunstaged, ?_⟩
    rw [hroute, hactive]
    exact hclaims

/-- The replaced route has ended when the new one takes its place. -/
theorem replace_core (hs : Core settled (some r) closing s) (hstaged : (s.route r).staged = true) :
    Core settled (some r) closing (s.failReplaced (s.route r).key) ∧
      (s.failReplaced (s.route r).key).routes.get? (s.route r).key = none ∧
      (s.failReplaced (s.route r).key).route r = s.route r ∧
      (s.failReplaced (s.route r).key).stage = s.stage ∧
      (s.failReplaced (s.route r).key).stageCount = s.stageCount ∧
      (s.failReplaced (s.route r).key).routeCount = s.routeCount ∧
      (s.failReplaced (s.route r).key).closed = s.closed := by
  unfold Book.failReplaced
  split
  · next old hget =>
      obtain ⟨hactive, hkey⟩ := hs.get?_eq.mp hget
      have hends : Ends s (s.failRoute (s.route old).key (.released "resume replaced old route")
          (some old)) old := fail_ends hs rfl rfl
      have hne : r ≠ old := by
        rintro rfl
        have hunstaged := (hs.table _ hactive).2.2.2
        rw [hstaged] at hunstaged
        cases hunstaged
      refine ⟨hends.core hs fun x _ hx => hx, ?_, hends.other r hne, hends.stage, hends.stageCount,
        hends.routeCount, hends.closed⟩
      rw [Dict.get?_eq_none, Dict.mem_keys]
      rintro ⟨x, hx⟩
      obtain ⟨hin, hxold⟩ := (hends.routes _).mp hx
      have htwo := Dict.get?_of_mem hs.nodup hin
      rw [hget] at htwo
      exact hxold (Option.some.inj htwo).symm
  · next hget => exact ⟨hs, hget, rfl, rfl, rfl, rfl, rfl⟩

theorem commit_core {st : ℕ} (hs : Core settled none false s) (hst : st < s.stageCount)
    (hsound : (s.stage st).closed = false → (s.route (s.stage st).route).error = none) :
    Core settled none false (s.commit st).2 := by
  unfold Book.commit
  split_ifs with hclosed
  · exact hs
  · have hopen : (s.stage st).closed = false := Bool.not_eq_true _ ▸ hclosed
    obtain ⟨hlt, hstaged, hclaims, hmem⟩ := hs.opened st hst hopen
    have herror := hsound hopen
    have hnotshut : s.closed = none := by
      by_contra hshut
      have hin := hmem herror
      rw [(hs.shut rfl hshut).2] at hin
      cases hin
    have hnew : (s.stage st).route ∉ settled := by
      intro hin
      have hunstaged := (hs.ended _ hin).2.1
      rw [hstaged] at hunstaged
      cases hunstaged
    set r := (s.stage st).route with hr
    have hclose : Core settled (some r) false (s.closeStage st) := closeStage_core hs hst hopen
    have hfree (x : ℕ) (hx : x < s.stageCount) (hopen' : ((s.closeStage st).stage x).closed = false) :
        ((s.closeStage st).stage x).route ≠ r := by
      have hne : x ≠ st := by
        rintro rfl
        simp [Book.closeStage] at hopen'
      have hstage : (s.closeStage st).stage x = s.stage x := by simp [Book.closeStage, hne]
      rw [hstage] at hopen' ⊢
      exact fun heq => hne (hs.apart x hx st hst hopen' hopen heq)
    obtain ⟨hfail, hget, hroute, hstage, hstages, hroutes, hshut⟩ := replace_core hclose hstaged
    dsimp only
    have hkey : ((s.closeStage st).route r).key = (s.route r).key := rfl
    rw [hkey] at hfail hget hroute hstage hstages hroutes hshut
    set u := (s.closeStage st).failReplaced (s.route r).key with hu
    have hunstage : Core settled (some r) false (u.modify r fun route => { route with staged := false }) := by
      refine unstage_core hfail fun x hx hopen' => ?_
      rw [hstage] at hopen' ⊢
      exact hfree x (hstages ▸ hx) hopen'
    have hself : (u.modify r fun route => { route with staged := false }).route r =
        { s.route r with staged := false } := by
      simp only [Book.modify, Function.update_self, hroute]
      rfl
    have henter := enter_core hunstage (hroutes ▸ hlt) (by rw [hself]; exact herror) (by rw [hself])
      (by rw [hself]; exact hget) hnew (hshut.trans hnotshut)
    rw [hself] at henter
    refine maybeRelease_core henter (fun _ _ _ => Or.inl ?_) fun hin => absurd hin hnew
    refine Dict.mem_set.mpr (Or.inl ?_)
    dsimp only
    rw [hself]

/-! ## Claims -/

theorem armClaim_core {key : RouteKey} {callRef : Session.CallRef} (hs : Core settled none closing s) :
    Core settled none closing (s.armClaim key callRef).2 := by
  unfold Book.armClaim
  split
  · exact hs
  · next r hget =>
      obtain ⟨hactive, -⟩ := hs.get?_eq.mp hget
      have hunstaged := (hs.table _ hactive).2.2.2
      let t : Book :=
        { s.modify r fun route => { route with claims := route.claims ++ [s.claimCount] } with
          claim := Function.update s.claim s.claimCount
            { route := r, callRef, endingMessageId := (s.route r).resolved }
          claimCount := s.claimCount + 1
          claims := s.claims.set (key.sessionId, callRef) s.claimCount }
      have hfresh : Core settled none closing t := by
        have hroute (x : ℕ) : t.route x = { s.route x with claims := (t.route x).claims } := by
          by_cases hx : x = r
          · subst hx
            simp [t, Book.modify]
          · simp [t, Book.modify, hx]
        have hself : (t.route r).claims = (s.route r).claims ++ [s.claimCount] := by
          simp [t, Book.modify]
        have hother {x : ℕ} (hx : x ≠ r) : t.route x = s.route x := by
          simp [t, Book.modify, hx]
        have hold {c : ℕ} (hc : c < s.claimCount) : t.claim c = s.claim c := by
          simp [t, Nat.ne_of_lt hc]
        have hnew : t.claim s.claimCount =
            { route := r, callRef, endingMessageId := (s.route r).resolved } := by
          simp [t]
        have hsame (x : ℕ) : Active t x ↔ Active s x := by
          rw [Active, hroute]
          rfl
        have hclaims {x : ℕ} (h : (s.route x).claims ≠ []) : (t.route x).claims ≠ [] := by
          by_cases hx : x = r
          · subst hx
            rw [hself]
            simp
          · rw [hother hx]
            exact h
        refine { hs with
          table := fun e he => ?_, held := fun x hx hexempt => ?_, stages := fun st hst => ?_,
          opened := fun st hst hopen => ?_, home := fun x hx => ?_, waits := fun x w hp => ?_,
          claims := fun x c hc => ?_, claimed := fun c hc hopen => ?_, ended := fun x hx => ?_ }
        · rw [hroute]
          exact hs.table e he
        · rw [hroute]
          exact fun hdrained => hclaims (hs.held x ((hsame x).mp hx) hexempt hdrained)
        · rw [hroute]
          exact hs.stages st hst
        · have hstaged := (hs.opened st hst hopen).2.1
          have hne : (s.stage st).route ≠ r := by
            intro heq
            rw [heq, hunstaged] at hstaged
            cases hstaged
          have heq : t.route (s.stage st).route = s.route (s.stage st).route := hother hne
          have hopened := hs.opened st hst hopen
          rw [← heq] at hopened
          exact hopened
        · rw [hroute, hsame]
          exact hs.home x hx
        · rw [hroute]
          exact hs.waits x w hp
        · by_cases hx : x = r
          · subst hx
            rw [hself, List.mem_append, List.mem_singleton] at hc
            rcases hc with hc | rfl
            · obtain ⟨hlt, hclaim⟩ := hs.claims x c hc
              rw [hold hlt]
              exact ⟨Nat.lt_succ_of_lt hlt, hclaim⟩
            · rw [hnew]
              exact ⟨Nat.lt_succ_self _, rfl, rfl⟩
          · rw [hother hx] at hc
            obtain ⟨hlt, hclaim⟩ := hs.claims x c hc
            rw [hold hlt]
            exact ⟨Nat.lt_succ_of_lt hlt, hclaim⟩
        · rcases Nat.lt_succ_iff_lt_or_eq.mp hc with hlt | rfl
          · rw [hold hlt] at hopen ⊢
            obtain ⟨hcount, hmem⟩ := hs.claimed c hlt hopen
            refine ⟨hcount, ?_⟩
            by_cases hx : (s.claim c).route = r
            · rw [hx, hself]
              exact List.mem_append_left _ (hx ▸ hmem)
            · rw [hother hx]
              exact hmem
          · rw [hnew]
            refine ⟨(hs.table _ hactive).1, ?_⟩
            rw [hself]
            simp
        · obtain ⟨hlt, hstaged, hended⟩ := hs.ended x hx
          rw [hsame]
          refine ⟨hlt, ?_, fun hexempt hin => hclaims (hended hexempt hin)⟩
          rw [hroute]
          exact hstaged
      dsimp only
      split
      · split_ifs
        · exact hfresh
        · exact hs
      · exact hfresh

/-- The route of a claim that ends is exempt until it is looked at. -/
theorem closeClaim_core {c : ℕ} (index : Dict (String × Session.CallRef) ℕ)
    (hs : Core settled none closing s) (hc : c < s.claimCount) (hopen : (s.claim c).closed = false) :
    Core settled (some (s.claim c).route) closing
      { s.modify (s.claim c).route fun route =>
          { route with claims := route.claims.filter (· ≠ c) } with
        claim := Function.update s.claim c { s.claim c with closed := true }
        claims := index } := by
  let r := (s.claim c).route
  let t : Book :=
    { s.modify r fun route => { route with claims := route.claims.filter (· ≠ c) } with
      claim := Function.update s.claim c { s.claim c with closed := true }
      claims := index }
  have hroute (x : ℕ) : t.route x = { s.route x with claims := (t.route x).claims } := by
    by_cases hx : x = r
    · subst hx
      simp [t, Book.modify]
    · simp [t, Book.modify, hx]
  have hself : (t.route r).claims = (s.route r).claims.filter (· ≠ c) := by
    simp [t, Book.modify]
  have hother {x : ℕ} (hx : x ≠ r) : t.route x = s.route x := by
    simp [t, Book.modify, hx]
  have hold {x : ℕ} (hx : x ≠ c) : t.claim x = s.claim x := by
    simp [t, hx]
  have hactive (x : ℕ) : Active t x ↔ Active s x := by
    rw [Active, hroute]
    rfl
  have hne {x : ℕ} (hx : some x ≠ some r) : x ≠ r := by simpa using hx
  refine { hs.weaken r with
    table := fun e he => ?_, held := fun x hx hexempt => ?_, stages := fun st hst => ?_,
    opened := fun st hst hopen' => ?_, home := fun x hx => ?_, waits := fun x w hp => ?_,
    claims := fun x c' hc' => ?_, claimed := fun c' hc' hopen' => ?_, ended := fun x hx => ?_ }
  · rw [hroute]
    exact hs.table e he
  · rw [hother (hne hexempt)]
    exact hs.held x ((hactive x).mp hx) (Option.some_ne_none _)
  · rw [hroute]
    exact hs.stages st hst
  · obtain ⟨hlt, hstaged, hclaims, herror⟩ := hs.opened st hst hopen'
    have hnil : (t.route (s.stage st).route).claims = [] := by
      by_cases hx : (s.stage st).route = r
      · rw [hx, hself, ← hx, hclaims]
        rfl
      · rw [hother hx]
        exact hclaims
    refine ⟨hlt, ?_, hnil, ?_⟩
    · rw [hroute]
      exact hstaged
    · rw [hroute]
      exact herror
  · rw [hroute, hactive]
    exact fun _ => hs.home x hx (Option.some_ne_none _)
  · rw [hroute]
    exact hs.waits x w hp
  · have hbefore : c' ∈ (s.route x).claims ∧ c' ≠ c := by
      by_cases hx : x = r
      · rw [hx, hself, List.mem_filter] at hc'
        exact ⟨hx ▸ hc'.1, by simpa using hc'.2⟩
      · rw [hother hx] at hc'
        refine ⟨hc', ?_⟩
        rintro rfl
        exact hx (hs.claims x c' hc').2.1.symm
    rw [hold hbefore.2]
    exact hs.claims x c' hbefore.1
  · have hcc : c' ≠ c := by
      rintro rfl
      simp at hopen'
    rw [hold hcc] at hopen' ⊢
    obtain ⟨hlt, hmem⟩ := hs.claimed c' hc' hopen'
    refine ⟨hlt, ?_⟩
    by_cases hx : (s.claim c').route = r
    · rw [hx, hself, List.mem_filter]
      exact ⟨hx ▸ hmem, by simpa using hcc⟩
    · rw [hother hx]
      exact hmem
  · obtain ⟨hlt, hstaged, hclaims⟩ := hs.ended x hx
    rw [hactive]
    refine ⟨hlt, ?_, fun hexempt hin => ?_⟩
    · rw [hroute]
      exact hstaged
    · rw [hother (hne hexempt)]
      exact hclaims (Option.some_ne_none _) hin

theorem endClaim_core {c : ℕ} (hs : Core settled none false s) (hc : c < s.claimCount)
    (hsound : (s.claim c).closed = false → (s.claim c).route ∈ settled → Active s (s.claim c).route →
      (s.route (s.claim c).route).claims.filter (· ≠ c) = [] →
      (s.route (s.claim c).route).drained = true) :
    Core settled none false (s.endClaim c) := by
  unfold Book.endClaim
  split_ifs with hclosed
  · exact hs
  · have hopen : (s.claim c).closed = false := Bool.not_eq_true _ ▸ hclosed
    refine maybeRelease_core (closeClaim_core _ hs hc hopen) (fun hlt hgood hundrained => ?_) fun hin hactive hnil => ?_
    · simp only [Book.modify, Function.update_self] at hgood hundrained
      refine (hs.home _ hlt (Option.some_ne_none _) hgood hundrained).imp_left fun hactive => ?_
      simpa [Active, Book.modify] using hactive
    · simp only [Book.modify, Function.update_self] at hnil ⊢
      refine hsound hopen hin ?_ hnil
      simpa [Active, Book.modify] using hactive

/-! ## The ends of Inputs and connections -/

theorem releaseInput_core {key : RouteKey} (hs : Core settled none closing s) :
    Core settled none closing (s.releaseInput key) := by
  unfold Book.releaseInput
  split
  · exact hs
  · next r hget =>
      split_ifs with hclaims
      · exact (release_ends hs hget (Or.inl rfl)).core hs fun x _ hx => hx
      · exact hs

/-- A settled route is gone or has a claim. -/
theorem settleInput_core {key : RouteKey} {error : Option Failure} (hs : Core settled none closing s) :
    Core (settled ++ (s.routes.get? key).toList) none closing (s.settleInput key error) := by
  unfold Book.settleInput
  split
  · next hget =>
      rw [hget, Option.toList_none, List.append_nil]
      exact hs
  · next r hget =>
      obtain ⟨hactive, hkey⟩ := hs.get?_eq.mp hget
      obtain ⟨hlt, -, -, hstaged⟩ := hs.table _ hactive
      rw [hget, Option.toList_some]
      -- a route that is gone has nothing to show for being settled
      have hgone {t : Book} (hends : Ends s t r) : Core (settled ++ [r]) none closing t := by
        have hcore := hends.core hs fun x _ hx => hx
        refine { hcore with ended := fun x hx => ?_ }
        rcases List.mem_append.mp hx with hin | hin
        · exact hcore.ended x hin
        · rw [List.mem_singleton.mp hin]
          refine ⟨hends.routeCount ▸ hlt, hends.staged r ▸ hstaged, fun _ hin' => ?_⟩
          exact absurd rfl ((hends.active r).mp hin').2
      split_ifs with hclaims
      · split
        · exact hgone (fail_ends hs hkey rfl)
        · refine { hs with ended := fun x hx => ?_ }
          rcases List.mem_append.mp hx with hin | hin
          · exact hs.ended x hin
          · rw [List.mem_singleton.mp hin]
            exact ⟨hlt, hstaged, fun _ _ => hclaims⟩
      · exact hgone (release_ends hs hget (Or.inl rfl))

/-- Failing the route at a key, if there is one. -/
theorem failKey_core (key : RouteKey) (error : Failure) (hs : Core settled none closing s) :
    Core settled none closing (s.failRoute key error none) ∧
      (s.failRoute key error none).routes.get? key = none := by
  cases hget : s.routes.get? key with
  | none =>
      have hsame : s.failRoute key error none = s := by simp [Book.failRoute, hget]
      rw [hsame]
      exact ⟨hs, hget⟩
  | some r =>
      obtain ⟨hactive, hkey⟩ := hs.get?_eq.mp hget
      have hends : Ends s (s.failRoute key error none) r := fail_ends hs hkey hget
      refine ⟨hends.core hs fun x _ hx => hx, ?_⟩
      rw [Dict.get?_eq_none, Dict.mem_keys]
      rintro ⟨x, hx⟩
      obtain ⟨hin, hne⟩ := (hends.routes _).mp hx
      have htwo := Dict.get?_of_mem hs.nodup hin
      rw [hget] at htwo
      exact hne (Option.some.inj htwo).symm

/-- `t` has no route and no stage that `s` had not. -/
structure Shrinks (s t : Book) : Prop where
  routes : ∀ e ∈ t.routes, e ∈ s.routes
  stages : ∀ st ∈ t.stages, st ∈ s.stages
  connection : ∀ x, (t.route x).connectionId = (s.route x).connectionId
  stageRoute : ∀ st, (t.stage st).route = (s.stage st).route

theorem shrinks_refl (s : Book) : Shrinks s s :=
  ⟨fun _ he => he, fun _ hst => hst, fun _ => rfl, fun _ => rfl⟩

theorem Shrinks.trans {u : Book} (h : Shrinks s t) (h' : Shrinks t u) : Shrinks s u where
  routes e he := h.routes e (h'.routes e he)
  stages st hst := h.stages st (h'.stages st hst)
  connection x := (h'.connection x).trans (h.connection x)
  stageRoute st := (h'.stageRoute st).trans (h.stageRoute st)

theorem Ends.shrinks (h : Ends s t r) : Shrinks s t where
  routes e he := ((h.routes e).mp he).1
  stages st hst := ((h.stages st).mp hst).1
  connection x := by
    by_cases hx : x = r
    · rw [hx, h.self]
    · rw [h.other x hx]
  stageRoute st := by rw [h.stage]

theorem failKey_shrinks {key : RouteKey} {error : Failure} (hs : Core settled none closing s) :
    Shrinks s (s.failRoute key error none) := by
  cases hget : s.routes.get? key with
  | none =>
      have hsame : s.failRoute key error none = s := by simp [Book.failRoute, hget]
      rw [hsame]
      exact shrinks_refl s
  | some r =>
      have hends : Ends s (s.failRoute key error none) r := fail_ends hs (hs.get?_eq.mp hget).2 hget
      exact hends.shrinks

theorem abort_shrinks {st : ℕ} (hs : Core settled none closing s) (hst : st < s.stageCount) :
    Shrinks s (s.abort st) ∧ st ∉ (s.abort st).stages := by
  unfold Book.abort
  split_ifs with hclosed
  · refine ⟨shrinks_refl s, fun hin => ?_⟩
    have hopen := (hs.stages st hin).2.1
    rw [hclosed] at hopen
    cases hopen
  · have hcore := closeStage_core hs hst (Bool.not_eq_true _ ▸ hclosed)
    have hends : Ends (s.closeStage st) ((s.closeStage st).failRoute (s.route (s.stage st).route).key
        (.released "resume route aborted") (some (s.stage st).route)) (s.stage st).route :=
      fail_ends hcore rfl rfl
    have hclose : Shrinks s (s.closeStage st) := by
      refine ⟨fun _ he => he, fun x hx => ?_, fun _ => rfl, fun x => ?_⟩
      · exact List.mem_of_mem_filter hx
      · by_cases hx : x = st
        · subst hx
          simp [Book.closeStage]
        · simp [Book.closeStage, hx]
    refine ⟨hclose.trans hends.shrinks, fun hin => ?_⟩
    have hbefore := hends.shrinks.stages st hin
    simp [Book.closeStage] at hbefore

section Loops

variable {q : String → Prop} [DecidablePred q]

/-- The loop over the routes fails those of a connection. -/
theorem failRoutes_core (error : Failure) (l : List (RouteKey × ℕ)) (hs : Core settled none closing s) :
    let t := l.foldl
      (fun t e => if q (t.route e.2).connectionId then t.failRoute e.1 error none else t) s
    Core settled none closing t ∧ Shrinks s t ∧ t.stageCount = s.stageCount ∧
      ∀ e ∈ l, q (s.route e.2).connectionId → e ∉ t.routes := by
  induction l generalizing s with
  | nil => exact ⟨hs, shrinks_refl s, rfl, fun e he => absurd he List.not_mem_nil⟩
  | cons e l ih =>
      rw [List.foldl_cons]
      split_ifs with hq
      · obtain ⟨hcore, hnone⟩ := failKey_core e.1 error hs
        have hshrinks : Shrinks s (s.failRoute e.1 error none) := failKey_shrinks hs
        have hcount : (s.failRoute e.1 error none).stageCount = s.stageCount := by
          unfold Book.failRoute
          split
          · rfl
          · rfl
        obtain ⟨hdone, hrest, hcounts, hall⟩ := ih hcore
        refine ⟨hdone, hshrinks.trans hrest, hcounts.trans hcount, fun e' he' hq' hin => ?_⟩
        rcases List.mem_cons.mp he' with rfl | hl
        · have hkey : e'.1 ∈ Dict.keys (s.failRoute e'.1 error none).routes :=
            List.mem_map_of_mem (hrest.routes e' hin)
          exact (Dict.get?_eq_none.mp hnone) hkey
        · exact hall e' hl (by rw [hshrinks.connection]; exact hq') hin
      · obtain ⟨hdone, hrest, hcounts, hall⟩ := ih hs
        refine ⟨hdone, hrest, hcounts, fun e' he' hq' => ?_⟩
        rcases List.mem_cons.mp he' with rfl | hl
        · exact absurd hq' hq
        · exact hall e' hl hq'

/-- The loop over the stages aborts those of a connection. -/
theorem abortStages_core (l : List ℕ) (hs : Core settled none closing s)
    (hl : ∀ st ∈ l, st < s.stageCount) :
    let t := l.foldl
      (fun t st => if q (t.route (t.stage st).route).connectionId then t.abort st else t) s
    Core settled none closing t ∧ Shrinks s t ∧
      ∀ st ∈ l, q (s.route (s.stage st).route).connectionId → st ∉ t.stages := by
  induction l generalizing s with
  | nil => exact ⟨hs, shrinks_refl s, fun st hst => absurd hst List.not_mem_nil⟩
  | cons st l ih =>
      have hst := hl st (List.mem_cons_self ..)
      have hl' (x : ℕ) (hx : x ∈ l) : x < s.stageCount := hl x (List.mem_cons_of_mem _ hx)
      rw [List.foldl_cons]
      split_ifs with hq
      · have hcore := abort_core hs hst
        obtain ⟨hshrinks, hnot⟩ := abort_shrinks hs hst
        have hcount : (s.abort st).stageCount = s.stageCount := by
          unfold Book.abort Book.failRoute
          split_ifs
          · rfl
          · rfl
        obtain ⟨hdone, hrest, hall⟩ := ih hcore (hcount ▸ hl')
        refine ⟨hdone, hshrinks.trans hrest, fun x hx hq' hin => ?_⟩
        rcases List.mem_cons.mp hx with rfl | hx'
        · exact hnot (hrest.stages x hin)
        · refine hall x hx' ?_ hin
          rw [hshrinks.stageRoute, hshrinks.connection]
          exact hq'
      · obtain ⟨hdone, hrest, hall⟩ := ih hs hl'
        refine ⟨hdone, hrest, fun x hx hq' => ?_⟩
        rcases List.mem_cons.mp hx with rfl | hx'
        · exact absurd hq' hq
        · exact hall x hx' hq'

/-- Both loops: nothing of a connection is left. -/
theorem failAll_core (error : Failure) (hs : Core settled none closing s) :
    let t := s.routes.foldl
      (fun t e => if q (t.route e.2).connectionId then t.failRoute e.1 error none else t) s
    let u := t.stages.foldl
      (fun u st => if q (u.route (u.stage st).route).connectionId then u.abort st else u) t
    Core settled none closing u ∧ (∀ e ∈ u.routes, ¬ q (u.route e.2).connectionId) ∧
      ∀ st ∈ u.stages, ¬ q (u.route (u.stage st).route).connectionId := by
  obtain ⟨hcore, hshrinks, -, hfailed⟩ := failRoutes_core (q := q) error s.routes hs
  obtain ⟨hdone, hrest, haborted⟩ := abortStages_core (q := q) _ hcore fun st hst => (hcore.stages st hst).1
  refine ⟨hdone, fun e he hq => ?_, fun st hst hq => ?_⟩
  · have hin := hrest.routes e he
    rw [hrest.connection, hshrinks.connection] at hq
    exact hfailed e (hshrinks.routes e hin) hq hin
  · rw [hrest.stageRoute, hrest.connection] at hq
    exact haborted st (hrest.stages st hst) hq hst

end Loops

/-- After `fail_connection` nothing of the connection is left. -/
theorem failConnection_core (connectionId : String) (error : Failure) (hs : Core settled none false s) :
    Core settled none false (s.failConnection connectionId error) ∧
      (∀ e ∈ (s.failConnection connectionId error).routes,
        ((s.failConnection connectionId error).route e.2).connectionId ≠ connectionId) ∧
      ∀ st ∈ (s.failConnection connectionId error).stages,
        ((s.failConnection connectionId error).route
          ((s.failConnection connectionId error).stage st).route).connectionId ≠ connectionId :=
  failAll_core (q := (· = connectionId)) error hs

theorem close_core {error : Option Failure} (hs : Core settled none false s) :
    Core settled none false (s.close error) ∧ (s.close error).routes = [] ∧
      (s.close error).stages = [] := by
  have hclosing : Core settled none true
      { s with closed := some (error.getD (.connection "control frame book closed")) } :=
    { hs with shut := fun h => Bool.noConfusion h }
  have hall := failAll_core (q := fun _ => True)
    (error.getD (.connection "control frame book closed")) hclosing
  simp only [if_true, not_true_eq_false, imp_false] at hall
  obtain ⟨hcore, hroutes, hstages⟩ := hall
  have hnoRoutes := List.eq_nil_iff_forall_not_mem.mpr hroutes
  have hnoStages := List.eq_nil_iff_forall_not_mem.mpr hstages
  exact ⟨{ hcore with shut := fun _ _ => ⟨hnoRoutes, hnoStages⟩ }, hnoRoutes, hnoStages⟩

end MonoAgent.Control
