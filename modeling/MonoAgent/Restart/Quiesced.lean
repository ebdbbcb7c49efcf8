import MonoAgent.Restart.Gate

/-!
# A restart is committed on a quiesced gate

`GateInv` ties the counter of the gate to the permits that are not released, and
a waiter whose request was not aborted since to the prepared request.  Once such a
waiter is woken no permit is left: the gate is closed to new roots, and a child
needs a permit.

A waiter whose request was aborted still resumes, and calls the commit channel.
-/

namespace MonoAgent.Restart

open MonoAgent.Lib MonoAgent.Session

/-- The permits that are not released. -/
def unreleased (permits : List Permit) : Nat := permits.countP fun p => p.released = false

/-- The request was not aborted since, and the gate is closed and drained. -/
structure Call.Quiesced (c : Call) : Prop where
  kept : c.since = c.aborts
  prepared : c.gate.requestId = some c.requestId
  closed : c.gate.accepting = false
  drained : c.gate.permits = 0

/-! ## The invariant -/

/-- What a gate knows of a commit that waits. -/
structure WaiterInv (g : RestartGate) (aborts : Nat) (w : Waiter) : Prop where
  since : w.since ≤ aborts
  prepared : w.since = aborts → g.requestId = some w.requestId
  drained : w.since = aborts → w.woken = true → g.permits = 0

structure GateInv (s : State) : Prop where
  count : s.gate.permits = unreleased s.permits
  drained : s.gate.drained = decide (s.gate.permits = 0)
  accepting : s.gate.accepting = true ↔ s.gate.requestId = none
  /-- Permits are handed out while nothing is prepared, and to children of those. -/
  plain : ∀ p ∈ s.permits, p.requestId = ""
  waiters : ∀ w ∈ s.waiters, WaiterInv s.gate s.aborts w
  calls : ∀ c ∈ s.calls, c.since = c.aborts → c.Quiesced

section Steps

variable {s t : State} {g : RestartGate}

theorem gateInv_start (h : gateMachine.start s) : GateInv s := by
  obtain ⟨settings, rfl⟩ := h
  exact ⟨rfl, rfl, by simp, by simp, by simp, by simp⟩

/-- A closed gate has a request. -/
theorem GateInv.closed (h : GateInv s) {requestId : String}
    (hr : s.gate.requestId = some requestId) : s.gate.accepting = false := by
  cases ha : s.gate.accepting with
  | false => rfl
  | true =>
      have hnone := h.accepting.mp ha
      cases hnone.symm.trans hr

theorem checkCommit_ok {requestId : String} (h : g.checkCommit requestId = .ok true) :
    g.requestId = some requestId := by
  obtain ⟨_, _, h⟩ := Except.bind_eq_ok.mp h
  obtain ⟨_, hr, _⟩ := Except.bind_eq_ok.mp h
  exact ensure_eq_ok.mp hr

theorem GateInv.abort (h : GateInv s) (requestId : String) : GateInv (s.abort requestId) := by
  rw [State.abort, RestartGate.abort]
  split
  · refine ⟨h.count, h.drained, by simp, h.plain, fun w hw => ?_, h.calls⟩
    have hsince := (h.waiters w hw).since
    have hne : w.since ≠ s.aborts + 1 := by omega
    exact ⟨Nat.le_succ_of_le hsince, fun heq => absurd heq hne, fun heq => absurd heq hne⟩
  · exact h

/-- A waiter that leaves. -/
theorem GateInv.leave (h : GateInv s) (i : Nat) :
    GateInv { s with waiters := s.waiters.eraseIdx i } :=
  { h with waiters := fun w hw => h.waiters w (List.mem_of_mem_eraseIdx hw) }

/-- The commit channel is called on a quiesced gate unless its request was aborted. -/
theorem GateInv.call (h : GateInv s) {requestId : String} {since : Nat} (returns : Bool)
    (hq : since = s.aborts → s.gate.requestId = some requestId ∧ s.gate.permits = 0) :
    GateInv (s.call requestId since returns) := by
  have hcalled : GateInv { s with calls := s.calls ++ [⟨requestId, s.gate, since, s.aborts⟩] } := by
    refine { h with calls := fun c hc hkept => ?_ }
    rcases List.mem_append.mp hc with hc | hc
    · exact h.calls c hc hkept
    · cases List.mem_singleton.mp hc
      obtain ⟨hr, hpermits⟩ := hq hkept
      exact ⟨hkept, hr, h.closed hr, hpermits⟩
  rw [State.call]
  cases returns with
  | false => exact hcalled.abort requestId
  | true =>
      exact ⟨hcalled.count, hcalled.drained, hcalled.accepting, hcalled.plain,
        fun w hw => ⟨(hcalled.waiters w hw).since, (hcalled.waiters w hw).prepared,
          (hcalled.waiters w hw).drained⟩, hcalled.calls⟩

theorem GateInv.prepare (h : GateInv s) {requestId : String}
    (hp : s.gate.prepare requestId = .ok g) : GateInv { s with gate := g } := by
  obtain ⟨_, _, hp⟩ := Except.bind_eq_ok.mp hp
  obtain ⟨_, _, hp⟩ := Except.bind_eq_ok.mp hp
  obtain ⟨_, _, hp⟩ := Except.bind_eq_ok.mp hp
  split at hp
  · obtain ⟨_, _, hp⟩ := Except.bind_eq_ok.mp hp
    cases hp
    exact h
  · next hnone =>
      cases hp
      refine ⟨h.count, h.drained, by simp, h.plain, fun w hw => ?_, h.calls⟩
      have hw := h.waiters w hw
      exact ⟨hw.since, fun heq => (by cases hnone.symm.trans (hw.prepared heq)), hw.drained⟩

/-- A permit more, while no waiter that was woken is on a closed gate. -/
theorem GateInv.issue (h : GateInv s)
    (hwoken : ∀ w ∈ s.waiters, w.since = s.aborts → w.woken = false) :
    GateInv { s with gate := s.gate.issue, permits := s.permits ++ [⟨"", false⟩] } where
  count := by
    show s.gate.permits + 1 = unreleased (s.permits ++ [⟨"", false⟩])
    rw [h.count, unreleased, unreleased, List.countP_append]
    simp
  drained := by simp [RestartGate.issue]
  accepting := h.accepting
  plain := by
    intro p hp
    rcases List.mem_append.mp hp with hp | hp
    · exact h.plain p hp
    · cases List.mem_singleton.mp hp
      rfl
  waiters := by
    intro w hw
    refine ⟨(h.waiters w hw).since, (h.waiters w hw).prepared, fun heq hw' => ?_⟩
    cases (hwoken w hw heq).symm.trans hw'
  calls := h.calls

theorem GateInv.acquire (h : GateInv s) {p : RestartGate × Permit} (ha : s.gate.acquire = .ok p) :
    GateInv { s with gate := p.1, permits := s.permits ++ [p.2] } := by
  obtain ⟨_, hopen, ha⟩ := Except.bind_eq_ok.mp ha
  have hnone : s.gate.requestId = none := h.accepting.mp (ensure_eq_ok.mp hopen)
  cases ha
  rw [hnone]
  refine h.issue fun w hw heq => ?_
  cases hnone.symm.trans ((h.waiters w hw).prepared heq)

/-- A permit that is not released is counted. -/
theorem unreleased_pos {permits : List Permit} {p : Permit} (hp : p ∈ permits)
    (hr : p.released = false) : 0 < unreleased permits :=
  List.countP_pos_iff.mpr ⟨p, hp, by simpa using hr⟩

theorem GateInv.child (h : GateInv s) {p : Permit} (hp : p ∈ s.permits)
    (hc : s.child p = .ok t) : GateInv t := by
  obtain ⟨_, hlive, hc⟩ := Except.bind_eq_ok.mp hc
  obtain ⟨admitted, hadmitted, hc⟩ := Except.bind_eq_ok.mp hc
  obtain ⟨_, _, hadmitted⟩ := Except.bind_eq_ok.mp hadmitted
  cases hadmitted
  cases hc
  rw [h.plain p hp]
  refine h.issue fun w hw heq => ?_
  have hpos := unreleased_pos hp (ensure_eq_ok.mp hlive)
  cases hwoken : w.woken with
  | false => rfl
  | true =>
      have hzero := (h.waiters w hw).drained heq hwoken
      rw [h.count] at hzero
      omega

/-- Releasing one permit counts one less. -/
theorem unreleased_set {permits : List Permit} {i : Nat} {p : Permit} (hi : permits[i]? = some p)
    (hr : p.released = false) :
    unreleased (permits.set i { p with released := true }) + 1 = unreleased permits := by
  induction permits generalizing i with
  | nil => cases hi
  | cons q rest ih =>
      cases i with
      | zero =>
          cases hi
          simp [unreleased, hr]
      | succ i =>
          have hrest := ih hi
          simp only [unreleased, List.set_cons_succ, List.countP_cons] at hrest ⊢
          omega

theorem GateInv.release (h : GateInv s) {i : Nat} {p : Permit} (hi : s.permits[i]? = some p)
    (hr : p.released = false) : GateInv (s.release i p) := by
  have hp := List.mem_of_getElem? hi
  have hpos : 0 < s.gate.permits := h.count ▸ unreleased_pos hp hr
  have hcount := unreleased_set hi hr
  have hgate : s.gate.release p.requestId = .ok { s.gate with
      permits := s.gate.permits - 1, drained := s.gate.drained || s.gate.permits - 1 = 0 } := by
    rw [RestartGate.release, h.plain p hp]
    simp [ensure, hpos, bind, Except.bind, pure, Except.pure]
  rw [State.release, hgate]
  refine ⟨?_, ?_, h.accepting, fun q hq => ?_, fun w hw => ?_, h.calls⟩
  · have hold := h.count
    show s.gate.permits - 1 = unreleased (s.permits.set i { p with released := true })
    omega
  · have hold : s.gate.drained = false := by
      rw [h.drained]
      simpa using Nat.ne_of_gt hpos
    simp [hold]
  · rcases List.mem_or_eq_of_mem_set hq with hq | rfl
    · exact h.plain q hq
    · exact h.plain p hp
  · obtain ⟨v, hv, rfl⟩ := List.mem_map.mp hw
    have hinv := h.waiters v hv
    refine ⟨hinv.since, hinv.prepared, fun heq hwoken => ?_⟩
    show s.gate.permits - 1 = 0
    rcases Bool.or_eq_true_iff.mp hwoken with hwoken | hzero
    · rw [hinv.drained heq hwoken]
    · simpa using hzero

/-- A refused operation leaves the gate. -/
theorem gateInv_after {x : Except Error State} (h : GateInv s) (hx : ∀ t, x = .ok t → GateInv t) :
    GateInv (s.after x) := by
  cases x with
  | ok t => exact hx t rfl
  | error e => exact h

theorem gateInv_next (h : GateInv s) {a : GateAction} (hn : gateMachine.next s a = some t) :
    GateInv t := by
  cases a with
  | prepare requestId =>
      cases hn
      refine gateInv_after h fun t ht => ?_
      obtain ⟨g, hg, rfl⟩ := Except.map_eq_ok.mp ht
      exact h.prepare hg
  | acquire =>
      cases hn
      refine gateInv_after h fun t ht => ?_
      obtain ⟨p, hp, rfl⟩ := Except.map_eq_ok.mp ht
      exact h.acquire hp
  | child i =>
      obtain ⟨p, hp, rfl⟩ := Option.map_eq_some_iff.mp hn
      exact gateInv_after h fun t ht => h.child (List.mem_of_getElem? hp) ht
  | release i =>
      obtain ⟨p, hp, rfl⟩ := Option.map_eq_some_iff.mp hn
      split
      · exact h
      · next hr => exact h.release hp (by simpa using hr)
  | commit requestId returns =>
      cases hn
      rw [State.commit]
      split
      · exact h
      · exact h
      · next hcheck =>
          have hprepared := checkCommit_ok hcheck
          split
          · next hdrained =>
              refine h.call returns fun _ => ⟨hprepared, ?_⟩
              simpa [h.drained] using hdrained
          · refine { h with waiters := fun w hw => ?_ }
            rcases List.mem_append.mp hw with hw | hw
            · exact h.waiters w hw
            · cases List.mem_singleton.mp hw
              exact ⟨Nat.le_refl _, fun _ => hprepared, fun _ hwoken => by cases hwoken⟩
  | resume i returns =>
      obtain ⟨w, hw, hn⟩ := Option.bind_eq_some_iff.mp hn
      split at hn
      · next hwoken =>
          cases hn
          have hinv := h.waiters w (List.mem_of_getElem? hw)
          exact (h.leave i).call returns fun heq => ⟨hinv.prepared heq, hinv.drained heq hwoken⟩
      · cases hn
  | interrupt i =>
      obtain ⟨w, hw, rfl⟩ := Option.map_eq_some_iff.mp hn
      exact (h.leave i).abort w.requestId
  | abort requestId =>
      cases hn
      exact h.abort requestId

theorem reachable_gateInv (h : gateMachine.Reachable s) : GateInv s :=
  h.invariant (fun _ => gateInv_start) fun _ _ _ hs _ hn => gateInv_next hs hn

/-- Every call of the commit channel is that of a `commit` that did not wait, or of a
waiter that resumes. -/
theorem mem_calls_next {a : GateAction} (hn : gateMachine.next s a = some t) {c : Call}
    (hc : c ∈ t.calls) : c ∈ s.calls ∨ c.since = c.aborts ∨
      ∃ i returns w, a = .resume i returns ∧ s.waiters[i]? = some w ∧ c.since = w.since ∧
        c.aborts = s.aborts := by
  have hcall (u : State) (requestId : String) (since : Nat) (returns : Bool)
      (hc : c ∈ (u.call requestId since returns).calls) :
      c ∈ u.calls ∨ (c.since = since ∧ c.aborts = u.aborts) := by
    have hcalls : (u.call requestId since returns).calls =
        u.calls ++ [⟨requestId, u.gate, since, u.aborts⟩] := by
      cases returns <;> rfl
    rw [hcalls] at hc
    rcases List.mem_append.mp hc with hc | hc
    · exact Or.inl hc
    · cases List.mem_singleton.mp hc
      exact Or.inr ⟨rfl, rfl⟩
  cases a with
  | commit requestId returns =>
      cases hn
      rw [State.commit] at hc
      split at hc
      · exact Or.inl hc
      · exact Or.inl hc
      · split at hc
        · rcases hcall s requestId s.aborts returns hc with hc | ⟨hsince, haborts⟩
          · exact Or.inl hc
          · exact Or.inr (Or.inl (hsince.trans haborts.symm))
        · exact Or.inl hc
  | resume i returns =>
      obtain ⟨w, hw, hn⟩ := Option.bind_eq_some_iff.mp hn
      split at hn
      · cases hn
        rcases hcall _ w.requestId w.since returns hc with hc | ⟨hsince, haborts⟩
        · exact Or.inl hc
        · exact Or.inr (Or.inr ⟨i, returns, w, rfl, hw, hsince, haborts⟩)
      · cases hn
  | prepare requestId =>
      cases hn
      cases hp : s.gate.prepare requestId <;> rw [hp] at hc <;> exact Or.inl hc
  | acquire =>
      cases hn
      cases hp : s.gate.acquire <;> rw [hp] at hc <;> exact Or.inl hc
  | child i =>
      obtain ⟨p, _, rfl⟩ := Option.map_eq_some_iff.mp hn
      cases hx : s.child p with
      | error e =>
          rw [hx] at hc
          exact Or.inl hc
      | ok u =>
          rw [hx] at hc
          obtain ⟨_, _, hx⟩ := Except.bind_eq_ok.mp hx
          obtain ⟨_, _, hx⟩ := Except.bind_eq_ok.mp hx
          cases hx
          exact Or.inl hc
  | release i =>
      obtain ⟨p, _, rfl⟩ := Option.map_eq_some_iff.mp hn
      split at hc
      · exact Or.inl hc
      · rw [State.release] at hc
        split at hc <;> exact Or.inl hc
  | interrupt i =>
      obtain ⟨w, _, rfl⟩ := Option.map_eq_some_iff.mp hn
      exact Or.inl hc
  | abort requestId =>
      cases hn
      exact Or.inl hc

end Steps

/-! ## Every run -/

/-- A commit whose request was aborted while it waited does not resume: it is
interrupted instead. -/
def Undisturbed (s : State) : GateAction → Prop
  | .resume i _ => ∀ w, s.waiters[i]? = some w → w.since = s.aborts
  | _ => True

theorem undisturbed_calls {s : State} (h : gateMachine.Reach Undisturbed s) :
    ∀ c ∈ s.calls, c.since = c.aborts := by
  refine h.invariant (I := fun s => ∀ c ∈ s.calls, c.since = c.aborts) ?_ ?_
  · rintro s ⟨settings, rfl⟩ c hc
    cases hc
  · intro s a t hs hok hn c hc
    rcases mem_calls_next hn hc with hc | hkept | ⟨i, returns, w, rfl, hw, hsince, haborts⟩
    · exact hs c hc
    · exact hkept
    · rw [hsince, haborts]
      exact hok w hw

/-- The permits are counted.  The commit channel is called on a quiesced gate exactly
when the request was not aborted since, and on no other in a run that never resumes
an aborted commit. -/
theorem commits_quiesced {s : State} (h : gateMachine.Reachable s) :
    s.gate.permits = unreleased s.permits ∧
    (∀ c ∈ s.calls, c.Quiesced ↔ c.since = c.aborts) ∧
    (gateMachine.Reach Undisturbed s → ∀ c ∈ s.calls, c.Quiesced) := by
  have hinv := reachable_gateInv h
  exact ⟨hinv.count, fun c hc => ⟨fun hq => hq.kept, hinv.calls c hc⟩,
    fun hrun c hc => hinv.calls c hc (undisturbed_calls hrun c hc)⟩

/-- A gate under a supervisor. -/
def exampleGate : State := { gate := { settings := ⟨true, true, true, by decide⟩ } }

/-- A root is drained, and the restart is committed. -/
def exampleRestart : List GateAction :=
  [.acquire, .prepare "r", .commit "r" true, .release 0, .resume 0 true]

theorem commits_quiesced_example :
    let s := (gateMachine.run exampleGate exampleRestart).getD exampleGate
    s.gate.permits = 0 ∧ s.gate.committed = true ∧ s.calls.length = 1 ∧
      ∀ c ∈ s.calls, c.Quiesced := by
  intro s
  have hreach : gateMachine.Reachable s :=
    Machine.reach_getD ⟨_, rfl⟩ (fun _ _ _ => trivial) (by decide)
  obtain ⟨hcount, hquiesced, _⟩ := commits_quiesced hreach
  refine ⟨hcount.trans (by decide), by decide, by decide, fun c hc => (hquiesced c hc).mpr ?_⟩
  have hkept : ∀ c ∈ s.calls, c.since = c.aborts := by decide
  exact hkept c hc

/-- The request is aborted while its commit waits for the root. -/
def abortedRestart : List GateAction :=
  [.acquire, .prepare "r", .commit "r" true, .abort "r", .release 0, .resume 0 true]

/-- The commit channel is called for a request that was aborted, on an open gate. -/
theorem abortedRestart_committed :
    let s := (gateMachine.run exampleGate abortedRestart).getD exampleGate
    gateMachine.Reachable s ∧ ∃ c ∈ s.calls, c.requestId = "r" ∧ c.gate.requestId = none ∧
      c.gate.accepting = true ∧ ¬ c.Quiesced := by
  intro s
  refine ⟨Machine.reach_getD ⟨_, rfl⟩ (fun _ _ _ => trivial) (by decide), ?_⟩
  have hcalls : ∃ c ∈ s.calls, c.requestId = "r" ∧ c.gate.requestId = none ∧
      c.gate.accepting = true := by decide
  obtain ⟨c, hc, hr, hnone, hopen⟩ := hcalls
  refine ⟨c, hc, hr, hnone, hopen, fun hq => ?_⟩
  cases hnone.symm.trans hq.prepared

end MonoAgent.Restart
