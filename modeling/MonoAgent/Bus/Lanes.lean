import MonoAgent.Bus.Lane
import MonoAgent.Lib.Machine

/-!
# What a chat lane promises

Any number of tasks call the methods of a `ChatLane` for any keys, in any order.  At
most one of them sends to a chat at a time.  A send that is not passive waits for the
passive turns and the passive sends, and for those that asked before it.
-/

namespace MonoAgent.Bus

open MonoAgent.Lib

variable {K : Type} [DecidableEq K]

/-! ## The machine -/

inductive LaneAction (K : Type) where
  | markPending (key : K)
  | markDone (key : K)
  | markSendPending (key : K)
  /-- A registration is given back. -/
  | markSendDone (party : Nat)
  | runPassive (key : K)
  /-- A registration is taken over. -/
  | runRegistered (party : Nat)
  | runNonPassive (key : K)
  /-- A party that was woken goes on. -/
  | resume (party : Nat)
  /-- A party is cancelled where it waits. -/
  | cancel (party : Nat)
  /-- The send of a party ends. -/
  | sent (party : Nat)

def laneMachine : Machine (Lanes K) (LaneAction K) where
  start s := s = {}
  next s
    | .markPending key => some (s.markPending key)
    | .markDone key => some (s.markDone key)
    | .markSendPending key => some (s.markSendPending key)
    | .markSendDone party => s.markSendDone party
    | .runPassive key => some (s.runPassive key)
    | .runRegistered party => s.runRegistered party
    | .runNonPassive key => some (s.runNonPassive key)
    | .resume party => s.resume party
    | .cancel party => s.cancel party
    | .sent party => s.sent party

/-! ## The invariant -/

variable {s t : Lanes K} {c : Nat} {k : K}

def LanesInv (s : Lanes K) : Prop := s.Inv LaneState.kept LaneState.Inv

/-- The party keeps its state. -/
def Party.live (u : Party) : Bool := u.user || u.passive

theorem kept_of_live (v : LaneState) (ps : Dict Nat Party) (c : Nat) (u : Party) (h : v.Inv ps)
    (hc : ps.get? c = some u) (hu : u.live = true) : v.kept = true :=
  h.counted.kept hc (by simpa [Party.live] using hu)

omit [DecidableEq K] in
theorem lanesInv_start : LanesInv ({} : Lanes K) := Shared.inv_empty

/-- A registration finds the state that it was counted in. -/
theorem LanesInv.retake (h : LanesInv s) {f : LaneState → Party → Option (LaneState × Party)}
    (hf : ∀ v u w, f v u = some w → u = .registered) (hn : s.retake LaneState.kept c {} f = some t) :
    s.act LaneState.kept c f = some t := by
  obtain ⟨x, hx, hrest⟩ := Option.bind_eq_some_iff.mp hn
  obtain ⟨e, he, hrest⟩ := Option.bind_eq_some_iff.mp hrest
  obtain ⟨w, hw, hrest⟩ := Option.bind_eq_some_iff.mp hrest
  have hplace := hf _ _ _ hw
  obtain ⟨v, hv, _, hP⟩ := Shared.Inv.live h kept_of_live hx (by rw [hplace]; rfl)
  have hkept := kept_of_live v _ c x.pc hP (Shared.get?_parties hx) (by rw [hplace]; rfl)
  rw [← Shared.Inv.recall_eq h hx hv hkept]
  exact hn

theorem markSendDone_registered (v : LaneState) (u : Party) (w : LaneState × Party)
    (h : v.markSendDone u = some w) : u = .registered := by
  cases u with
  | registered => rfl
  | _ => cases h

theorem runRegistered_registered (v : LaneState) (u : Party) (w : LaneState × Party)
    (h : v.runRegistered u = some w) : u = .registered := by
  cases u with
  | registered => rfl
  | _ => cases h

theorem lanesInv_next {a : LaneAction K} (h : LanesInv s) (hn : laneMachine.next s a = some t) : LanesInv t := by
  cases a with
  | markPending key =>
      cases hn
      exact Shared.Inv.enter h lane_new fun _ _ hv _ _ => hv.markPending
  | markDone key =>
      cases hn
      exact Shared.Inv.enter h lane_new fun _ _ hv _ _ => hv.markDone
  | markSendPending key =>
      cases hn
      exact Shared.Inv.enter h lane_new fun _ _ hv _ _ => hv.markSendPending
  | runPassive key =>
      cases hn
      exact Shared.Inv.enter h lane_new fun _ _ hv hsorted hlt => hv.runPassive hsorted hlt
  | runNonPassive key =>
      cases hn
      exact Shared.Inv.enter h lane_new fun _ _ hv hsorted hlt => hv.runNonPassive hsorted hlt
  | markSendDone party =>
      exact Shared.Inv.act h (h.retake markSendDone_registered hn) fun _ _ _ _ _ hv hsorted hc hf =>
        hv.markSendDone (hsorted.imp Nat.ne_of_lt) hc hf
  | runRegistered party =>
      exact Shared.Inv.act h (h.retake runRegistered_registered hn) fun _ _ _ _ _ hv hsorted hc hf =>
        hv.runRegistered (hsorted.imp Nat.ne_of_lt) hc hf
  | resume party =>
      exact Shared.Inv.act h hn fun _ _ _ _ _ hv hsorted hc hf => hv.resume (hsorted.imp Nat.ne_of_lt) hc hf
  | cancel party =>
      exact Shared.Inv.act h hn fun _ _ _ _ _ hv hsorted hc hf => hv.cancel (hsorted.imp Nat.ne_of_lt) hc hf
  | sent party =>
      exact Shared.Inv.act h hn fun _ _ _ _ _ hv hsorted hc hf => hv.sent (hsorted.imp Nat.ne_of_lt) hc hf

theorem lanesInv_reach (h : laneMachine.Reachable s) : LanesInv s := by
  refine h.invariant (fun s hs => ?_) fun s a t hi _ hn => lanesInv_next hi hn
  rw [show s = {} from hs]
  exact lanesInv_start

/-! ## Parties of a key -/

/-- A party of the key is there. -/
def Lanes.Has (s : Lanes K) (c : Nat) (k : K) (u : Party) : Prop := ∃ i, s.holders[c]? = some ⟨k, i, u⟩

/-- The number of the parties of a key that are somewhere. -/
def Lanes.count (s : Lanes K) (k : K) (p : Party → Bool) : Nat := s.holders.countP fun h => h.key = k && p h.pc

/-- `_states.get(key)`. -/
def Lanes.state? (s : Lanes K) (k : K) : Option LaneState :=
  (s.table.get? k).bind fun i => s.objects[i]?.map (·.value)

/-- The state of a key, and what it counts. -/
structure StateOf (s : Lanes K) (k : K) (i : Nat) (v : LaneState) : Prop where
  entry : (k, i) ∈ s.table
  object : s.objects[i]? = some ⟨k, v⟩
  inv : v.Inv (s.parties i)
  passive : v.passiveSends = s.count k Party.passive
  sending : v.sending.toInt = s.count k Party.sending

theorem live_of_passive {u : Party} (h : u.passive = true) : u.live = true := by simp [Party.live, h]

theorem live_of_sending {u : Party} (h : u.sending = true) : u.live = true := by
  cases u with
  | passiveSends => rfl
  | sends t => rfl
  | _ => cases h

theorem LanesInv.stateOf (h : LanesInv s) {i : Nat} (hi : (k, i) ∈ s.table) : ∃ v, StateOf s k i v := by
  obtain ⟨v, hv⟩ := h.own k i hi
  have hinv := h.each _ _ hv
  refine ⟨v, hi, hv, hinv, ?_, ?_⟩
  · exact Int.natCast_inj.mp (hinv.counted.passive.trans
      (Shared.Inv.count h kept_of_live hi fun _ => live_of_passive))
  · exact hinv.counted.sending.trans (Shared.Inv.count h kept_of_live hi fun _ => live_of_sending)

theorem LanesInv.stateOf_party (h : LanesInv s) {u : Party} {i : Nat} (hc : s.holders[c]? = some ⟨k, i, u⟩)
    (hu : u.live = true) : ∃ v, StateOf s k i v := by
  obtain ⟨v, _, hmem, _⟩ := Shared.Inv.live h kept_of_live hc hu
  exact h.stateOf hmem

/-- The parties of a key that are there have one state. -/
theorem LanesInv.same_state (h : LanesInv s) {d : Nat} {u u' : Party} {i j : Nat}
    (hc : s.holders[c]? = some ⟨k, i, u⟩) (hu : u.live = true) (hd : s.holders[d]? = some ⟨k, j, u'⟩)
    (hu' : u'.live = true) : i = j := by
  obtain ⟨_, _, hi, _⟩ := Shared.Inv.live h kept_of_live hc hu
  obtain ⟨_, _, hj, _⟩ := Shared.Inv.live h kept_of_live hd hu'
  exact Shared.Inv.same h hi hj

theorem StateOf.get {i : Nat} {v : LaneState} (h : StateOf s k i v) (hs : LanesInv s) : s.state? k = some v := by
  rw [Lanes.state?, Dict.get?_of_mem hs.keys h.entry, Option.bind_some, h.object, Option.map_some]

omit [DecidableEq K] in
/-- What has left the table counts nothing. -/
theorem LanesInv.gone (h : LanesInv s) {i : Nat} {v : LaneState} (hobj : s.objects[i]? = some ⟨k, v⟩)
    (hnot : (k, i) ∉ s.table) : v.activeUsers = 0 ∧ v.passiveTurns = 0 ∧ v.passiveSends = 0 ∧ v.sending = false ∧
      v.nextTicket = v.servingTicket ∧ v.cancelled = [] := by
  have hkept : v.kept = false := Bool.eq_false_iff.mpr fun hkept => hnot ((h.kept i _ hobj).mp hkept)
  simpa [LaneState.kept, and_assoc] using hkept

/-- A party of the object is a party of the key. -/
theorem StateOf.party {i : Nat} {v : LaneState} (h : StateOf s k i v) (hs : LanesInv s) {u : Party}
    (hc : (c, u) ∈ s.parties i) : s.Has c k u := by
  obtain ⟨⟨k', j, _⟩, hx, rfl, rfl⟩ := Shared.mem_parties.mp hc
  obtain ⟨w, hw⟩ := hs.held _ (List.mem_of_getElem? hx)
  obtain rfl : k' = k := congrArg Entry.key (Option.some.inj (hw.symm.trans h.object))
  exact ⟨_, hx⟩

theorem StateOf.mem {i : Nat} {v : LaneState} (h : StateOf s k i v) (hs : LanesInv s) {u : Party}
    (hc : s.Has c k u) (hu : u.live = true) : (c, u) ∈ s.parties i := by
  obtain ⟨j, hj⟩ := hc
  obtain ⟨_, _, hmem, _⟩ := Shared.Inv.live hs kept_of_live hj hu
  obtain rfl : j = i := Shared.Inv.same hs hmem h.entry
  exact Shared.mem_parties.mpr ⟨_, hj, rfl, rfl⟩

/-! ## What a party may rely on -/

/-- At most one party of a key sends. -/
theorem LanesInv.send_one (h : LanesInv s) {d : Nat} {u u' : Party} (hc : s.Has c k u) (hu : u.sending = true)
    (hd : s.Has d k u') (hu' : u'.sending = true) : c = d := by
  have hlive := live_of_sending hu
  obtain ⟨i, hi⟩ := hc
  obtain ⟨v, hof⟩ := h.stateOf_party hi hlive
  exact hof.inv.counted.one (hof.mem h ⟨i, hi⟩ hlive) hu (hof.mem h hd (live_of_sending hu')) hu'

/-- The tickets of two parties are in the order of the parties. -/
theorem tickets_ordered {ps : Dict Nat Party} (hsorted : ps.keys.Pairwise (· < ·))
    (horder : (ticketsOf ps).Pairwise (· < ·)) {d : Nat} {u u' : Party} {n m : Nat} (hc : (c, u) ∈ ps)
    (hu : u.ticket? = some n) (hd : (d, u') ∈ ps) (hu' : u'.ticket? = some m) (hlt : n < m) : c < d := by
  induction ps with
  | nil => cases hc
  | cons e rest ih =>
      have hrest := List.pairwise_cons.mp hsorted
      have htail : (ticketsOf rest).Pairwise (· < ·) :=
        horder.sublist ((List.sublist_cons_self e rest).filterMap _)
      rcases List.mem_cons.mp hc with rfl | hcr
      · rcases List.mem_cons.mp hd with heq | hdr
        · cases heq
          rw [hu] at hu'
          exact absurd (Option.some.inj hu') (Nat.ne_of_lt hlt)
        · exact hrest.1 d (Dict.mem_keys.mpr ⟨u', hdr⟩)
      · rcases List.mem_cons.mp hd with rfl | hdr
        · -- The ticket of the first party is the least.
          have hhead : ticketsOf ((d, u') :: rest) = m :: ticketsOf rest := by
            simp [ticketsOf, hu']
          rw [hhead] at horder
          have hmn := (List.pairwise_cons.mp horder).1 n (mem_tickets.mpr ⟨c, u, hcr, hu⟩)
          exact absurd hmn (Nat.lt_asymm hlt)
        · exact ih hrest.2 htail hcr hdr

/-- Where a party that is not passive looks, and sends. -/
theorem tryNonPassive_sends {v w : LaneState} {ts : List Nat} {n m : Nat} (h : Tickets v ts)
    (hf : v.tryNonPassive n = (w, .sends m)) :
    v.passiveTurns = 0 ∧ v.passiveSends = 0 ∧ w = { v with sending := true } := by
  rw [LaneState.tryNonPassive, h.skip] at hf
  split at hf
  · cases hf
  · next hgo =>
      obtain ⟨_, hturns, hsends, _⟩ : v.sending = false ∧ v.passiveTurns = 0 ∧ v.passiveSends = 0 ∧
          n = v.servingTicket := by simpa using hgo
      exact ⟨hturns, hsends, (congrArg Prod.fst hf).symm⟩

theorem tryPassive_sends {v w : LaneState} {m : Nat} (hf : v.tryPassive = (w, .sends m)) : False := by
  rw [LaneState.tryPassive] at hf
  split at hf
  · cases hf
  · cases hf

/-- What holds where a send that is not passive starts. -/
structure Started (s : Lanes K) (c : Nat) (k : K) (n : Nat) : Prop where
  passive : s.count k Party.passive = 0
  turns : ∃ v, s.state? k = some v ∧ v.passiveTurns = 0
  /-- Its ticket is the first. -/
  first : ∀ d m seen, s.Has d k (.waits m seen) → n < m ∧ c < d

theorem LanesInv.started (h : LanesInv s) {i n : Nat} {v : LaneState} (hobj : s.objects[i]? = some ⟨k, v⟩)
    (hc : s.holders[c]? = some ⟨k, i, .sends n⟩) (hturns : v.passiveTurns = 0) (hsends : v.passiveSends = 0) :
    Started s c k n := by
  obtain ⟨w, hw, hentry, _⟩ := Shared.Inv.live h kept_of_live hc rfl
  obtain ⟨w, hof⟩ := h.stateOf hentry
  obtain rfl : v = w := congrArg Entry.value (Option.some.inj (hobj.symm.trans hof.object))
  refine ⟨hof.passive.symm.trans hsends, ⟨v, hof.get h, hturns⟩, fun d m seen hd => ?_⟩
  have hmem := hof.mem h ⟨i, hc⟩ rfl
  have hmem' := hof.mem h hd rfl
  have horder := hof.inv.counted.order
  have hlt : n < m := by
    have hserved := hof.inv.counted.sender c n hmem
    have hle := (hof.inv.tickets.mem.mp (Or.inl (mem_tickets.mpr ⟨d, _, hmem', rfl⟩))).1
    refine Nat.lt_of_le_of_ne (hserved ▸ hle) fun heq => ?_
    have hsame := eq_of_filterMap_nodup (horder.imp Nat.ne_of_lt) hmem hmem' (v := n) rfl (congrArg some heq.symm)
    cases hsame
  exact ⟨hlt, tickets_ordered Shared.sorted_parties horder hmem rfl hmem' rfl hlt⟩

/-- A party that goes on does not start a send that is not passive, unless it waited for one. -/
theorem resume_sends {v w : LaneState} {u : Party} {n : Nat} (hf : v.resume u = some (w, .sends n)) :
    ∃ m, v.tryNonPassive m = (w, .sends n) := by
  cases u with
  | passiveWaits seen =>
      rw [LaneState.resume] at hf
      split at hf
      · exact (tryPassive_sends (Option.some.inj hf)).elim
      · cases hf
  | waits m seen =>
      rw [LaneState.resume] at hf
      split at hf
      · exact ⟨m, Option.some.inj hf⟩
      · cases hf
  | registered => cases hf
  | passiveSends => cases hf
  | sends m => cases hf
  | left => cases hf

/-- A send that is not passive starts when nothing passive is pending, and first. -/
theorem LanesInv.starts (h : LanesInv s) {a : LaneAction K} (hn : laneMachine.next s a = some t) {n : Nat}
    (hold : ¬ s.Has c k (.sends n)) (hnew : t.Has c k (.sends n)) : Started t c k n := by
  have ht := lanesInv_next h hn
  obtain ⟨i, hi⟩ := hnew
  have henter {key : K} {f : LaneState → LaneState × Party} (htf : s.enter LaneState.kept key {} f = t)
      (hf : ∀ v w, f v = (w, .sends n) → False) : False := by
    subst htf
    obtain hc | ⟨_, _, v, _, _, _, _, hpc, _⟩ := Shared.Inv.entered h lane_new hi
    · exact hold ⟨i, hc⟩
    · exact hf v (f v).1 (Prod.ext rfl hpc.symm)
  have hact {d : Nat} {f : LaneState → Party → Option (LaneState × Party)} (htf : s.act LaneState.kept d f = some t)
      (hf : ∀ v u w, f v u = some (w, .sends n) → False) : False := by
    obtain hc | ⟨_, e, pc, v, _, _, hpc, _⟩ := Shared.acted htf hi
    · exact hold ⟨i, hc⟩
    · exact hf _ _ _ hpc
  cases a with
  | markPending key => exact (henter (Option.some.inj hn) fun _ _ hf => nomatch (Prod.mk.inj hf).2).elim
  | markDone key => exact (henter (Option.some.inj hn) fun _ _ hf => nomatch (Prod.mk.inj hf).2).elim
  | markSendPending key => exact (henter (Option.some.inj hn) fun _ _ hf => nomatch (Prod.mk.inj hf).2).elim
  | runPassive key => exact (henter (Option.some.inj hn) fun _ _ => tryPassive_sends).elim
  | markSendDone party =>
      refine (hact (h.retake markSendDone_registered hn) fun v u w hf => ?_).elim
      cases u <;> cases hf
  | runRegistered party =>
      refine (hact (h.retake runRegistered_registered hn) fun v u w hf => ?_).elim
      cases u with
      | registered =>
          rw [LaneState.runRegistered] at hf
          split at hf
          · cases hf
          · exact tryPassive_sends (Option.some.inj hf)
      | _ => cases hf
  | cancel party =>
      refine (hact hn fun v u w hf => ?_).elim
      cases u with
      | passiveWaits seen =>
          rw [LaneState.cancel, LaneState.endPassive] at hf
          split at hf <;> cases hf
      | waits m seen => cases hf
      | _ => cases hf
  | sent party =>
      refine (hact hn fun v u w hf => ?_).elim
      cases u with
      | passiveSends =>
          rw [LaneState.sent, LaneState.endPassive] at hf
          split at hf <;> cases hf
      | sends m => cases hf
      | _ => cases hf
  | runNonPassive key =>
      cases hn
      obtain hc | ⟨_, rfl, v, ps, hv, _, _, hpc, hobj⟩ := Shared.Inv.entered h lane_new hi
      · exact (hold ⟨i, hc⟩).elim
      · have hdraw : Tickets { v.acquire with nextTicket := v.nextTicket + 1 } (ticketsOf ps ++ [v.nextTicket]) :=
          hv.tickets.draw rfl rfl rfl
        have hf : LaneState.tryNonPassive { v.acquire with nextTicket := v.nextTicket + 1 } v.nextTicket =
            (v.runNonPassive.1, .sends n) := Prod.ext rfl hpc.symm
        obtain ⟨hturns, hsends, hw⟩ := tryNonPassive_sends hdraw hf
        rw [hw] at hobj
        exact ht.started hobj hi hturns hsends
  | resume party =>
      obtain hc | ⟨rfl, e, pc, v, hc, he, hf, hobj⟩ := Shared.acted hn hi
      · exact (hold ⟨i, hc⟩).elim
      · obtain ⟨m, hf⟩ := resume_sends hf
        obtain ⟨hturns, hsends, rfl⟩ := tryNonPassive_sends (h.each _ _ he).tickets hf
        obtain ⟨w, hw⟩ := h.held _ (List.mem_of_getElem? hc)
        rw [he] at hw
        cases hw
        exact ht.started hobj hi hturns hsends

/-- The state of a key is in the table as long as it is used. -/
theorem LanesInv.states (h : LanesInv s) (k : K) :
    (∀ v, s.state? k = some v → v.kept = true ∧ v.passiveSends = s.count k Party.passive) ∧
      (s.state? k = none → s.count k Party.live = 0) := by
  constructor
  · intro v hget
    obtain ⟨i, hi, hv⟩ := Option.bind_eq_some_iff.mp hget
    obtain ⟨e, he, rfl⟩ := Option.map_eq_some_iff.mp hv
    have hmem := Dict.mem_of_get? hi
    obtain ⟨v, hof⟩ := h.stateOf hmem
    obtain rfl : e = ⟨k, v⟩ := Option.some.inj (he.symm.trans hof.object)
    exact ⟨(h.kept i _ he).mpr hmem, hof.passive⟩
  · intro hnone
    refine List.countP_eq_zero.mpr fun x hx hlive => ?_
    obtain ⟨c, hc⟩ := List.mem_iff_getElem?.mp hx
    obtain ⟨hk, hpc⟩ : x.key = k ∧ x.pc.live = true := by simpa using hlive
    obtain ⟨v, hof⟩ := h.stateOf_party hc hpc
    rw [← hk, hof.get h] at hnone
    cases hnone

/-- The ticket that is served next is a party's. -/
theorem LanesInv.served (h : LanesInv s) {v : LaneState} (hv : s.state? k = some v)
    (hlt : v.servingTicket < v.nextTicket) : ∃ c u, s.Has c k u ∧ u.ticket? = some v.servingTicket := by
  obtain ⟨i, hi, hv⟩ := Option.bind_eq_some_iff.mp hv
  obtain ⟨e, he, rfl⟩ := Option.map_eq_some_iff.mp hv
  obtain ⟨v, hof⟩ := h.stateOf (Dict.mem_of_get? hi)
  obtain rfl : e = ⟨k, v⟩ := Option.some.inj (he.symm.trans hof.object)
  rcases hof.inv.tickets.mem.mpr ⟨Nat.le_refl _, hlt⟩ with hmem | hmem
  · obtain ⟨c, u, hc, hu⟩ := mem_tickets.mp hmem
    exact ⟨c, u, hof.party h hc, hu⟩
  · exact (hof.inv.tickets.served hmem).elim

theorem StateOf.free {i : Nat} {v : LaneState} (h : StateOf s k i v) (hfree : s.count k Party.sending = 0) :
    v.sending = false := by
  have hzero := h.sending
  rw [hfree] at hzero
  cases hv : v.sending with
  | false => rfl
  | true =>
      rw [hv] at hzero
      cases hzero

/-- A passive send that waits was woken, when nothing sends. -/
theorem LanesInv.passive_woken (h : LanesInv s) (hfree : s.count k Party.sending = 0) {seen : Nat}
    (hc : s.Has c k (.passiveWaits seen)) : ∃ v, s.state? k = some v ∧ seen < v.notified := by
  have hc' := hc
  obtain ⟨i, hi⟩ := hc
  obtain ⟨v, hof⟩ := h.stateOf_party hi rfl
  exact ⟨v, hof.get h, hof.inv.woken.passive (hof.free hfree) c seen nofun (hof.mem h hc' rfl)⟩

/-- The first of those that wait and are not passive was woken, when nothing sends and nothing passive is
pending. -/
theorem LanesInv.next_woken (h : LanesInv s) (hfree : s.count k Party.sending = 0)
    (hpassive : s.count k Party.passive = 0) {v : LaneState} (hv : s.state? k = some v) (hturns : v.passiveTurns = 0)
    {n seen : Nat} (hc : s.Has c k (.waits n seen)) : ∃ d seen', s.Has d k (.waits v.servingTicket seen') ∧
      d ≤ c ∧ seen' < v.notified := by
  have hc' := hc
  obtain ⟨i, hi⟩ := hc
  obtain ⟨w, hof⟩ := h.stateOf_party hi rfl
  obtain rfl : v = w := Option.some.inj (hv.symm.trans (hof.get h))
  have hmem := hof.mem h hc' rfl
  have hrange := hof.inv.tickets.mem.mp (Or.inl (mem_tickets.mpr ⟨c, _, hmem, rfl⟩))
  obtain ⟨d, u, hd, hu⟩ := h.served hv (Nat.lt_of_le_of_lt hrange.1 hrange.2)
  cases u with
  | waits m seen' =>
      obtain rfl : m = v.servingTicket := Option.some.inj hu
      have hmem' := hof.mem h hd rfl
      refine ⟨d, seen', hd, ?_, hof.inv.woken.next (hof.free hfree) hturns (hof.passive.trans hpassive) d seen'
        nofun hmem'⟩
      rcases Nat.eq_or_lt_of_le hrange.1 with heq | hlt
      · have hsame := eq_of_filterMap_nodup (hof.inv.counted.order.imp Nat.ne_of_lt) hmem hmem' (v := n) rfl
          (congrArg some heq)
        exact Nat.le_of_eq (congrArg Prod.fst hsame).symm
      · exact Nat.le_of_lt (tickets_ordered Shared.sorted_parties hof.inv.counted.order hmem' rfl hmem rfl hlt)
  | sends m => exact (hof.inv.counted.free (hof.free hfree) (hof.mem h hd rfl)).elim
  | registered => cases hu
  | passiveWaits _ => cases hu
  | passiveSends => cases hu
  | left => cases hu

/-- What the tasks that share a `ChatLane` may rely on, in every run.

At most one send to a chat runs.  A send that is not passive starts while no passive
turn and no passive send is pending, with the first of the tickets.  The ticket that
is served next is a party's, whatever was cancelled.  The passive sends that are
counted are those that were registered and have not ended.  What may send while
nothing does was woken.  The state of a key is there while it is used, and all that
use it have the same one.  A state that has left the table has no user, nothing passive
and no ticket. -/
theorem lanes_serialise (h : laneMachine.Reachable s) :
    (∀ c d k u u', s.Has c k u → u.sending = true → s.Has d k u' → u'.sending = true → c = d) ∧
    (∀ a t, laneMachine.next s a = some t → ∀ c k n, ¬ s.Has c k (.sends n) → t.Has c k (.sends n) →
      Started t c k n) ∧
    (∀ k v, s.state? k = some v → v.servingTicket < v.nextTicket →
      ∃ c u, s.Has c k u ∧ u.ticket? = some v.servingTicket) ∧
    (∀ k, (∀ v, s.state? k = some v → v.kept = true ∧ v.passiveSends = s.count k Party.passive) ∧
      (s.state? k = none → s.count k Party.live = 0)) ∧
    (∀ k c seen, s.count k Party.sending = 0 → s.Has c k (.passiveWaits seen) →
      ∃ v, s.state? k = some v ∧ seen < v.notified) ∧
    (∀ k v c n seen, s.count k Party.sending = 0 → s.count k Party.passive = 0 → s.state? k = some v →
      v.passiveTurns = 0 → s.Has c k (.waits n seen) →
      ∃ d seen', s.Has d k (.waits v.servingTicket seen') ∧ d ≤ c ∧ seen' < v.notified) ∧
    (∀ (c d i j : Nat) (k : K) (u u' : Party), s.holders[c]? = some ⟨k, i, u⟩ → u.live = true →
      s.holders[d]? = some ⟨k, j, u'⟩ → u'.live = true → i = j) ∧
    (∀ k i v, s.objects[i]? = some ⟨k, v⟩ → (k, i) ∉ s.table → v.activeUsers = 0 ∧ v.passiveTurns = 0 ∧
      v.passiveSends = 0 ∧ v.sending = false ∧ v.nextTicket = v.servingTicket ∧ v.cancelled = []) := by
  have hinv := lanesInv_reach h
  refine ⟨fun c d k u u' hc hu hd hu' => hinv.send_one hc hu hd hu', fun a t hn c k n hold hnew =>
    hinv.starts hn hold hnew, fun k v => hinv.served, hinv.states, fun k c seen hfree =>
    hinv.passive_woken hfree, fun k v c n seen hfree hpassive hv hturns => hinv.next_woken hfree hpassive hv hturns,
    fun c d i j k u u' hc hu hd hu' => hinv.same_state hc hu hd hu', fun k i v hobj hnot => hinv.gone hobj hnot⟩

/-- A passive send runs, two sends that are not passive wait, the first of them is cancelled, and the
passive one ends. -/
def exampleLanes : List (LaneAction String) :=
  [.runPassive "chat", .runNonPassive "chat", .runNonPassive "chat", .cancel 1, .sent 0]

theorem lanes_serialise_example :
    let s := (laneMachine.run ({} : Lanes String) exampleLanes).getD {}
    ∃ d seen v, s.state? "chat" = some v ∧ s.Has d "chat" (.waits v.servingTicket seen) ∧ d ≤ 2 ∧
      seen < v.notified := by
  intro s
  have hreach : laneMachine.Reachable s := Machine.reach_getD rfl (fun _ _ _ => trivial) (by decide)
  obtain ⟨_, _, _, _, _, hwoken, _⟩ := lanes_serialise hreach
  have hwaits : s.Has 2 "chat" (.waits 1 0) := ⟨0, by decide⟩
  have hv : s.state? "chat" = some { notified := 2, activeUsers := 1, nextTicket := 2, servingTicket := 1 } := by
    decide
  obtain ⟨d, seen, hd, hle, hlt⟩ := hwoken "chat" _ 2 1 0 (by decide) (by decide) hv rfl hwaits
  exact ⟨d, seen, _, hv, hd, hle, hlt⟩

end MonoAgent.Bus
