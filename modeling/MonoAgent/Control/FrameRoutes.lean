import MonoAgent.Control.FrameBook

/-!
# Where a route may be

A route is in the table, belongs to a live stage, or has ended: then it carries an error
or is drained and nobody waits on it.  `Core` says so.  While an operation is under way one
route (`free`) may be exempt from where it has to be, and while the book closes
(`closing`) the rest of it may not have ended yet.
-/

namespace MonoAgent.Control

open MonoAgent.Lib

/-- A route in the table. -/
def Active (s : Book) (r : ℕ) : Prop := ((s.route r).key, r) ∈ s.routes

/-- A route of a stage that the book still has. -/
def Live (s : Book) (r : ℕ) : Prop := ∃ st ∈ s.stages, (s.stage st).route = r

/-- A wait on a route whose waiter is not set. -/
def Pending (s : Book) (r w : ℕ) : Prop :=
  ∃ call, s.call w = some call ∧ call.route = r ∧ call.outcome = none

structure Core (settled : List ℕ) (free : Option ℕ) (closing : Bool) (s : Book) : Prop where
  nodup : s.routes.keys.Nodup
  table : ∀ e ∈ s.routes, e.2 < s.routeCount ∧ (s.route e.2).key = e.1 ∧
    (s.route e.2).error = none ∧ (s.route e.2).staged = false
  held : ∀ r, Active s r → some r ≠ free → (s.route r).drained = true → (s.route r).claims ≠ []
  stages : ∀ st ∈ s.stages, st < s.stageCount ∧ (s.stage st).closed = false ∧
    (s.route (s.stage st).route).error = none
  opened : ∀ st < s.stageCount, (s.stage st).closed = false →
    (s.stage st).route < s.routeCount ∧ (s.route (s.stage st).route).staged = true ∧
      (s.route (s.stage st).route).claims = [] ∧
      ((s.route (s.stage st).route).error = none → st ∈ s.stages)
  apart : ∀ st < s.stageCount, ∀ st' < s.stageCount, (s.stage st).closed = false →
    (s.stage st').closed = false → (s.stage st).route = (s.stage st').route → st = st'
  home : ∀ r < s.routeCount, some r ≠ free → (s.route r).error = none →
    (s.route r).drained = false → Active s r ∨ Live s r
  waits : ∀ r w, Pending s r w → r < s.routeCount ∧ w ∈ (s.route r).waiters ∧
    (s.route r).error = none ∧ (s.route r).drained = false
  sites : ∀ w call, s.call w = some call → call.route < s.routeCount
  claims : ∀ r, ∀ c ∈ (s.route r).claims, c < s.claimCount ∧ (s.claim c).route = r ∧
    (s.claim c).closed = false
  claimed : ∀ c < s.claimCount, (s.claim c).closed = false →
    (s.claim c).route < s.routeCount ∧ c ∈ (s.route (s.claim c).route).claims
  ended : ∀ r ∈ settled, r < s.routeCount ∧ (s.route r).staged = false ∧
    (some r ≠ free → Active s r → (s.route r).claims ≠ [])
  shut : closing = false → s.closed ≠ none → s.routes = [] ∧ s.stages = []

variable {settled : List ℕ} {free : Option ℕ} {closing : Bool} {s t : Book} {r : ℕ}

theorem Core.get?_eq (h : Core settled free closing s) {key : RouteKey} :
    s.routes.get? key = some r ↔ Active s r ∧ (s.route r).key = key := by
  rw [Dict.get?_eq_some h.nodup]
  constructor
  · intro hmem
    have hkey := (h.table _ hmem).2.1
    refine ⟨?_, hkey⟩
    rw [Active, hkey]
    exact hmem
  · rintro ⟨hactive, rfl⟩
    exact hactive

theorem Core.weaken (h : Core settled none closing s) (r : ℕ) :
    Core settled (some r) closing s where
  nodup := h.nodup
  table := h.table
  held x hx _ := h.held x hx (Option.some_ne_none _)
  stages := h.stages
  opened := h.opened
  apart := h.apart
  home x hx _ := h.home x hx (Option.some_ne_none _)
  waits := h.waits
  sites := h.sites
  claims := h.claims
  claimed := h.claimed
  ended x hx := ⟨(h.ended x hx).1, (h.ended x hx).2.1, fun _ => (h.ended x hx).2.2 (Option.some_ne_none _)⟩
  shut := h.shut

theorem Core.not_live (h : Core settled free closing s) (hstaged : (s.route r).staged = false) :
    ¬ Live s r := by
  rintro ⟨st, hst, rfl⟩
  obtain ⟨hlt, hclosed, -⟩ := h.stages st hst
  have hopen := (h.opened st hlt hclosed).2.1
  rw [hstaged] at hopen
  cases hopen

/-! ## Ending a route -/

/-- `t` is `s` without the route `r`, which now carries an error or is drained. -/
structure Ends (s t : Book) (r : ℕ) : Prop where
  routes : ∀ e, e ∈ t.routes ↔ e ∈ s.routes ∧ e.2 ≠ r
  nodup : t.routes.keys.Nodup
  stages : ∀ st, st ∈ t.stages ↔ st ∈ s.stages ∧ (s.stage st).route ≠ r
  other : ∀ x, x ≠ r → t.route x = s.route x
  self : t.route r = { s.route r with error := (t.route r).error, waiters := [] }
  ended : (t.route r).error ≠ none ∨ (t.route r).drained = true ∧ (t.route r).staged = false
  calls : ∀ w call, t.call w = some call → call.outcome = none →
    s.call w = some call ∧ w ∉ (s.route r).waiters
  sites : ∀ w call, t.call w = some call → ∃ before, s.call w = some before ∧ before.route = call.route
  stage : t.stage = s.stage
  claim : t.claim = s.claim
  routeCount : t.routeCount = s.routeCount
  stageCount : t.stageCount = s.stageCount
  claimCount : t.claimCount = s.claimCount
  closed : t.closed = s.closed

namespace Ends

variable (h : Ends s t r)
include h

theorem key (x : ℕ) : (t.route x).key = (s.route x).key := by
  by_cases hx : x = r
  · rw [hx, h.self]
  · rw [h.other x hx]

theorem staged (x : ℕ) : (t.route x).staged = (s.route x).staged := by
  by_cases hx : x = r
  · rw [hx, h.self]
  · rw [h.other x hx]

theorem drained (x : ℕ) : (t.route x).drained = (s.route x).drained := by
  by_cases hx : x = r
  · rw [hx, h.self]
  · rw [h.other x hx]

theorem claims (x : ℕ) : (t.route x).claims = (s.route x).claims := by
  by_cases hx : x = r
  · rw [hx, h.self]
  · rw [h.other x hx]

theorem active (x : ℕ) : Active t x ↔ Active s x ∧ x ≠ r := by
  rw [Active, h.routes, h.key]
  rfl

theorem live (x : ℕ) : Live t x ↔ Live s x ∧ x ≠ r := by
  simp only [Live, h.stages, h.stage]
  constructor
  · rintro ⟨st, ⟨hst, hne⟩, rfl⟩
    exact ⟨⟨st, hst, rfl⟩, hne⟩
  · rintro ⟨⟨st, hst, rfl⟩, hne⟩
    exact ⟨st, ⟨hst, hne⟩, rfl⟩

theorem pending {x w : ℕ} (hp : Pending t x w) : Pending s x w ∧ w ∉ (s.route r).waiters := by
  obtain ⟨call, hcall, hroute, hnone⟩ := hp
  obtain ⟨hbefore, hnot⟩ := h.calls w call hcall hnone
  exact ⟨⟨call, hbefore, hroute, hnone⟩, hnot⟩

/-- What ends need not be exempt any more. -/
theorem core {free' : Option ℕ} (hs : Core settled free closing s)
    (hfree : ∀ x, x ≠ r → some x ≠ free' → some x ≠ free) : Core settled free' closing t where
  nodup := h.nodup
  table e he := by
    obtain ⟨hmem, hne⟩ := (h.routes e).mp he
    rw [h.other e.2 hne, h.routeCount]
    exact hs.table e hmem
  held x hx hexempt hdrained := by
    obtain ⟨hactive, hne⟩ := (h.active x).mp hx
    rw [h.claims]
    exact hs.held x hactive (hfree x hne hexempt) (h.drained x ▸ hdrained)
  stages st hst := by
    obtain ⟨hmem, hne⟩ := (h.stages st).mp hst
    rw [h.stage, h.other _ hne, h.stageCount]
    exact hs.stages st hmem
  opened st hlt hclosed := by
    rw [h.stageCount] at hlt
    rw [h.stage] at hclosed ⊢
    obtain ⟨hroute, hstaged, hclaims, hmem⟩ := hs.opened st hlt hclosed
    rw [h.staged, h.claims, h.routeCount]
    refine ⟨hroute, hstaged, hclaims, fun herror => (h.stages st).mpr ?_⟩
    by_cases hne : (s.stage st).route = r
    · -- a staged route ends with an error
      rcases h.ended with hover | hover
      · exact absurd (hne ▸ herror) hover
      · rw [h.staged, ← hne, hstaged] at hover
        cases hover.2
    · rw [h.other _ hne] at herror
      exact ⟨hmem herror, hne⟩
  apart := by
    rw [h.stage, h.stageCount]
    exact hs.apart
  home x hx hexempt herror hdrained := by
    have hne : x ≠ r := by
      rintro rfl
      rcases h.ended with hover | hover
      · exact hover herror
      · rw [hdrained] at hover
        cases hover.1
    rw [h.other x hne] at herror hdrained
    rcases hs.home x (h.routeCount ▸ hx) (hfree x hne hexempt) herror hdrained with hactive | hlive
    · exact Or.inl ((h.active x).mpr ⟨hactive, hne⟩)
    · exact Or.inr ((h.live x).mpr ⟨hlive, hne⟩)
  waits x w hp := by
    obtain ⟨hp', hnot⟩ := h.pending hp
    obtain ⟨hx, hmem, herror, hdrained⟩ := hs.waits x w hp'
    have hne : x ≠ r := by
      rintro rfl
      exact hnot hmem
    rw [h.other x hne, h.routeCount]
    exact ⟨hx, hmem, herror, hdrained⟩
  sites w call hcall := by
    obtain ⟨before, hbefore, hroute⟩ := h.sites w call hcall
    rw [h.routeCount, ← hroute]
    exact hs.sites w before hbefore
  claims x c hc := by
    rw [h.claims] at hc
    rw [h.claim, h.claimCount]
    exact hs.claims x c hc
  claimed c hlt hclosed := by
    rw [h.claimCount] at hlt
    rw [h.claim] at hclosed ⊢
    rw [h.claims, h.routeCount]
    exact hs.claimed c hlt hclosed
  ended x hx := by
    obtain ⟨hlt, hstaged, hclaims⟩ := hs.ended x hx
    refine ⟨h.routeCount ▸ hlt, h.staged x ▸ hstaged, fun hexempt hactive => ?_⟩
    obtain ⟨hactive', hne⟩ := (h.active x).mp hactive
    rw [h.claims]
    exact hclaims (hfree x hne hexempt) hactive'
  shut hclosing hclosed := by
    rw [h.closed] at hclosed
    obtain ⟨hroutes, hstages⟩ := hs.shut hclosing hclosed
    constructor
    · refine List.eq_nil_iff_forall_not_mem.mpr fun e he => ?_
      have hmem := ((h.routes e).mp he).1
      rw [hroutes] at hmem
      cases hmem
    · refine List.eq_nil_iff_forall_not_mem.mpr fun st hst => ?_
      have hmem := ((h.stages st).mp hst).1
      rw [hstages] at hmem
      cases hmem

end Ends

/-- What a wait that is set finds. -/
theorem resume_call {waiters : List ℕ} {outcome : Option Failure} {w : ℕ} {call : Call}
    (h : (s.resume waiters outcome).call w = some call) (hnone : call.outcome = none) :
    s.call w = some call ∧ w ∉ waiters := by
  simp only [Book.resume] at h
  split_ifs at h with hw
  · obtain ⟨before, hbefore, hcall⟩ := Option.map_eq_some_iff.mp h
    split_ifs at hcall with hopen
    · subst hcall
      cases hnone
    · subst hcall
      exact absurd hnone hopen
  · exact ⟨h, hw⟩

theorem resume_site {waiters : List ℕ} {outcome : Option Failure} {w : ℕ} {call : Call}
    (h : (s.resume waiters outcome).call w = some call) :
    ∃ before, s.call w = some before ∧ before.route = call.route := by
  simp only [Book.resume] at h
  split_ifs at h with hw
  · obtain ⟨before, hbefore, hcall⟩ := Option.map_eq_some_iff.mp h
    refine ⟨before, hbefore, ?_⟩
    split_ifs at hcall
    · subst hcall
      rfl
    · rw [hcall]
  · exact ⟨call, h, rfl⟩

theorem mem_pop_of_active (h : Core settled free closing s) (hactive : Active s r)
    (e : RouteKey × ℕ) : e ∈ s.routes.pop (s.route r).key ↔ e ∈ s.routes ∧ e.2 ≠ r := by
  rw [Dict.mem_pop]
  refine and_congr_right fun he => not_congr ?_
  constructor
  · intro hkey
    have hone := (Dict.get?_eq_some h.nodup).mpr he
    have htwo := (Dict.get?_eq_some h.nodup).mpr hactive
    rw [hkey, htwo] at hone
    exact (Option.some.inj hone).symm
  · rintro rfl
    exact ((h.table e he).2.1).symm

theorem release_ends (h : Core settled free closing s) {key : RouteKey} {exact : Option ℕ}
    (hget : s.routes.get? key = some r) (hexact : exact = none ∨ exact = some r) :
    Ends s (s.releaseRoute key exact) r := by
  obtain ⟨hactive, rfl⟩ := h.get?_eq.mp hget
  have hstaged := (h.table _ hactive).2.2.2
  have hthis : ¬ (exact ≠ none ∧ exact ≠ some r) := by
    rcases hexact with rfl | rfl
    · simp
    · simp
  have hstages (st : ℕ) (hst : st ∈ s.stages) : (s.stage st).route ≠ r :=
    fun heq => h.not_live hstaged ⟨st, hst, heq⟩
  rw [Book.releaseRoute, hget]
  simp only [if_neg hthis]
  refine ⟨mem_pop_of_active h hactive, Dict.nodup_keys_filter h.nodup _,
    fun st => ⟨fun hst => ⟨hst, hstages st hst⟩, fun hst => hst.1⟩, fun x hx => ?_, ?_, ?_,
    fun w call hcall hnone => resume_call hcall hnone, fun w call hcall => resume_site hcall, rfl, rfl, rfl, rfl, rfl, rfl⟩
  · simp [Book.modify, Book.resume, hx]
  · simp [Book.modify, Book.resume]
  · simp only [Book.modify, Book.resume, Function.update_self]
    split_ifs with hopen
    · simp
    · rw [not_and_or, Bool.not_eq_false] at hopen
      rcases hopen with herror | hdrained
      · exact Or.inl herror
      · exact Or.inr ⟨hdrained, hstaged⟩

theorem fail_ends (h : Core settled free closing s) {key : RouteKey} {exact : Option ℕ}
    {error : Failure} (hkey : (s.route r).key = key)
    (hexact : exact.or (s.routes.get? key) = some r) : Ends s (s.failRoute key error exact) r := by
  subst hkey
  rw [Book.failRoute, hexact]
  dsimp only
  refine ⟨fun e => ?_, ?_, fun st => by simp [Book.modify, Book.resume], fun x hx => ?_, ?_, ?_,
    fun w call hcall hnone => resume_call hcall hnone, fun w call hcall => resume_site hcall, rfl, rfl, rfl, rfl, rfl, rfl⟩
  · simp only [Book.modify, Book.resume]
    split_ifs with hget
    · exact mem_pop_of_active h (h.get?_eq.mp hget).1 e
    · refine ⟨fun he => ⟨he, ?_⟩, fun he => he.1⟩
      rintro rfl
      have hkey := (h.table e he).2.1
      exact hget (hkey ▸ (Dict.get?_eq_some h.nodup).mpr he)
  · simp only [Book.modify, Book.resume]
    split_ifs with hget
    · exact Dict.nodup_keys_filter h.nodup _
    · exact h.nodup
  · simp [Book.modify, Book.resume, hx]
  · simp [Book.modify, Book.resume]
  · simp [Book.modify]

/-- A route that is found drained and without a claim is released; else nothing happens. -/
theorem maybeRelease_core (h : Core settled (some r) false s)
    (hhome : r < s.routeCount → (s.route r).error = none → (s.route r).drained = false →
      Active s r ∨ Live s r)
    (hsettled : r ∈ settled → Active s r → (s.route r).claims = [] → (s.route r).drained = true) :
    Core settled none false (s.maybeRelease r) := by
  unfold Book.maybeRelease
  -- what is left of the exemption, when the route stays as it is
  have hstay (hkeep : Active s r → (s.route r).drained = true → (s.route r).claims ≠ [])
      (hheld : r ∈ settled → Active s r → (s.route r).claims ≠ []) : Core settled none false s := by
    refine { h with held := fun x hx _ => ?_, home := fun x hx _ => ?_, ended := fun x hx => ?_ }
    · by_cases hxr : x = r
      · exact hxr ▸ hkeep (hxr ▸ hx)
      · exact h.held x hx (by simpa using hxr)
    · by_cases hxr : x = r
      · exact hxr ▸ hhome (hxr ▸ hx)
      · exact h.home x hx (by simpa using hxr)
    · obtain ⟨hlt, hstaged, hclaims⟩ := h.ended x hx
      refine ⟨hlt, hstaged, fun _ => ?_⟩
      by_cases hxr : x = r
      · exact hxr ▸ hheld (hxr ▸ hx)
      · exact hclaims (by simpa using hxr)
  split_ifs with hcond
  · rcases hcond with hstaged | hdrained | hclaims
    · have hnot : ¬ Active s r := fun hactive => by
        have htable := (h.table _ hactive).2.2.2
        rw [hstaged] at htable
        cases htable
      exact hstay (fun hactive => absurd hactive hnot) fun _ hactive => absurd hactive hnot
    · refine hstay (fun _ htrue => ?_) fun hin hactive hnil => ?_
      · rw [hdrained] at htrue
        cases htrue
      · have htrue := hsettled hin hactive hnil
        rw [hdrained] at htrue
        cases htrue
    · exact hstay (fun _ _ => hclaims) fun _ _ => hclaims
  · by_cases hget : s.routes.get? (s.route r).key = some r
    · exact (release_ends h hget (Or.inr rfl)).core h fun x hx _ => by simpa using hx
    · have hnot : ¬ Active s r := fun hactive => hget (h.get?_eq.mpr ⟨hactive, rfl⟩)
      have hsame : s.releaseRoute (s.route r).key (some r) = s := by
        unfold Book.releaseRoute
        cases hother : s.routes.get? (s.route r).key with
        | none => rfl
        | some x =>
            have hne : x ≠ r := fun heq => hget (heq ▸ hother)
            simp [Ne.symm hne]
      rw [hsame]
      exact hstay (fun hactive => absurd hactive hnot) fun _ hactive => absurd hactive hnot

end MonoAgent.Control
