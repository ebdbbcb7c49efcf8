import MonoAgent.Bus.Outbound

/-!
# The dispatcher is not wedged

While every passive delivery is published before those of its chat that are not, the passive
deliveries that a lane counts are the ones in the queue and the one that is sent (`LaneOk`), and
none of them is behind a delivery that waits in that lane (`order`, `behind`).  What waits then
waits for a passive turn, or was woken (`Fair`).
-/

namespace MonoAgent.Bus

open MonoAgent.Lib

variable {K : Type} [DecidableEq K]

namespace Outbound

/-! ## The lanes -/

/-- What a lane says of the deliveries. -/
structure LaneOk (k : K) (items taken : List (Item K)) (sending : Bool) (v : LaneState) : Prop where
  sends : v.passiveSends = items.countP fun i => i.passive && i.key = k
  users : v.activeUsers = taken.countP fun i => i.key = k
  cancelled : v.cancelled = []
  tickets : v.nextTicket = v.servingTicket + taken.countP fun i => !i.passive && i.key = k
  sending : v.sending = sending

variable {k : K} {items taken : List (Item K)} {b : Bool} {v w : LaneState} {s : Outbound K} {item : Item K}

theorem LaneOk.tidy (h : LaneOk k items taken b v) : LaneOk k items taken b (if v.kept then v else {}) := by
  split
  · exact h
  · next hkept =>
      simp only [LaneState.kept, Bool.or_eq_true, decide_eq_true_eq, not_or, not_not, Bool.not_eq_true] at hkept
      obtain ⟨⟨⟨⟨⟨husers, -⟩, hsends⟩, hsending⟩, htickets⟩, -⟩ := hkept
      have h₁ := h.sends
      have h₂ := h.users
      have h₃ := h.tickets
      have h₄ := h.sending
      refine ⟨?_, ?_, rfl, ?_, ?_⟩
      · rw [← h₁, hsends]
      · rw [← h₂, husers]
      · dsimp only
        omega
      · rw [← h₄, hsending]

theorem skip_eq (h : v.cancelled = []) : v.skip = v := by
  rw [LaneState.skip, h]
  rfl

/-- Where the dispatcher is in a lane. -/
structure Fair (v : LaneState) (c : Item K × Party) : Prop where
  passive : c.1.passive = true → c.2 = .passiveSends
  other : c.1.passive = false → c.2 = .sends v.servingTicket ∨
    ∃ n, c.2 = .waits v.servingTicket n ∧ n ≤ v.notified ∧ (n = v.notified → 0 < v.passiveTurns)

/-- A delivery is not passive where one of its chat before it is not. -/
def Follows (a b : Item K) : Prop := a.key = b.key → a.passive = false → b.passive = false

def served (s : Outbound K) : List (Item K) := s.current.toList.map Prod.fst

structure Inv (s : Outbound K) : Prop where
  lanes : ∀ k, LaneOk k (s.served ++ s.queue) s.served
    (s.current.any fun c => c.2.sending && c.1.key = k) (s.lanes k)
  fair : ∀ c, s.current = some c → Fair (s.lanes c.1.key) c
  order : s.queue.Pairwise Follows
  behind : ∀ item t n, s.current = some (item, .waits t n) →
    ∀ b ∈ s.queue, b.key = item.key → b.passive = false

theorem inv_start : Inv ({} : Outbound K) where
  lanes _ := ⟨rfl, rfl, rfl, rfl, rfl⟩
  fair _ h := by cases h
  order := .nil
  behind _ _ _ h := by cases h

theorem LaneOk.kept (h : LaneOk k items taken b v) (hmem : item ∈ taken) (hk : item.key = k) :
    v.kept = true := by
  have hpos : 0 < taken.countP fun i => i.key = k := List.countP_pos_iff.mpr ⟨item, hmem, by simpa using hk⟩
  have husers := h.users
  have hne : v.activeUsers ≠ 0 := by omega
  simp [LaneState.kept, hne]

omit [DecidableEq K] in
/-- The dispatcher waits on, and was woken. -/
theorem Fair.woken {c : Item K × Party} (h : Fair v c) (hnotified : v.notified < w.notified)
    (hserving : w.servingTicket = v.servingTicket) : Fair w c := by
  refine ⟨h.passive, fun hother => ?_⟩
  rw [hserving]
  rcases h.other hother with hsends | ⟨n, hwaits, hle, -⟩
  · exact Or.inl hsends
  · exact Or.inr ⟨n, hwaits, by omega, fun heq => by omega⟩

/-- A lane is notified of something that leaves the dispatcher where it is. -/
theorem Inv.notified (h : Inv s) {queue : List (Item K)} (hnotified : (s.lanes k).notified < w.notified)
    (hserving : w.servingTicket = (s.lanes k).servingTicket)
    (hlane : LaneOk k (s.served ++ queue) s.served (s.current.any fun c => c.2.sending && c.1.key = k) w)
    (hlanes : ∀ k', k' ≠ k → LaneOk k' (s.served ++ queue) s.served
      (s.current.any fun c => c.2.sending && c.1.key = k') (s.lanes k'))
    (horder : queue.Pairwise Follows)
    (hbehind : ∀ item t n, s.current = some (item, .waits t n) →
      ∀ b ∈ queue, b.key = item.key → b.passive = false) :
    Inv { s.put k w with queue } := by
  refine ⟨fun k' => ?_, fun c hc => ?_, horder, hbehind⟩
  · by_cases hk : k' = k
    · subst hk
      change LaneOk k' _ _ _ (Function.update s.lanes k' _ k')
      rw [Function.update_self]
      exact hlane.tidy
    · change LaneOk k' _ _ _ (Function.update s.lanes k _ k')
      rw [Function.update_of_ne hk]
      exact hlanes k' hk
  · have hfair := h.fair c hc
    change Fair (Function.update s.lanes k _ c.1.key) c
    by_cases hk : c.1.key = k
    · subst hk
      have hmem : c.1 ∈ s.served := by
        have hc : s.current = some c := hc
        simp [Outbound.served, hc]
      rw [Function.update_self, if_pos (hlane.kept hmem rfl)]
      exact hfair.woken hnotified hserving
    · rw [Function.update_of_ne hk]
      exact hfair

/-- The dispatcher enters a lane, or goes on in it. -/
theorem Inv.served_at (h : ∀ k, k ≠ item.key → LaneOk k (item :: s.queue) [item] false (s.lanes k))
    {p : Party} (hp : p ≠ .left) (hlane : LaneOk item.key (item :: s.queue) [item] p.sending w)
    (hfair : Fair w (item, p))
    (horder : s.queue.Pairwise Follows)
    (hbehind : item.passive = false → ∀ b ∈ s.queue, b.key = item.key → b.passive = false) :
    Inv (s.serve item (w, p)) := by
  have hcurrent : (s.serve item (w, p)).current = some (item, p) := if_neg hp
  have hserved : (s.serve item (w, p)).served = [item] := by
    simp [Outbound.served, hcurrent]
  refine ⟨fun k => ?_, fun c hc => ?_, horder, fun a t n ha b hb hk => ?_⟩
  · rw [hserved, hcurrent]
    change LaneOk k (item :: s.queue) [item] (p.sending && decide (item.key = k))
      (Function.update s.lanes item.key _ k)
    by_cases hk : k = item.key
    · subst hk
      rw [Function.update_self, decide_eq_true rfl, Bool.and_true]
      exact hlane.tidy
    · rw [Function.update_of_ne hk, decide_eq_false (Ne.symm hk), Bool.and_false]
      exact h k hk
  · cases Option.some.inj (hcurrent.symm.trans hc)
    change Fair (Function.update s.lanes item.key _ item.key) (item, p)
    rw [Function.update_self, if_pos (hlane.kept (List.mem_singleton.mpr rfl) rfl)]
    exact hfair
  · cases Option.some.inj (hcurrent.symm.trans ha)
    refine hbehind ?_ b hb hk
    cases hpassive : item.passive with
    | false => rfl
    | true => cases hfair.passive hpassive

/-- The dispatcher has left the lane. -/
theorem Inv.left (h : ∀ k, k ≠ item.key → LaneOk k s.queue [] false (s.lanes k))
    (hlane : LaneOk item.key s.queue [] false w)
    (horder : s.queue.Pairwise Follows) (stopped : Bool) :
    Inv { s.put item.key w with current := none, stopped } := by
  refine ⟨fun k => ?_, fun c hc => (by cases hc), horder, fun a t n ha => (by cases ha)⟩
  change LaneOk k s.queue [] false (Function.update s.lanes item.key _ k)
  by_cases hk : k = item.key
  · subst hk
    rw [Function.update_self]
    exact hlane.tidy
  · rw [Function.update_of_ne hk]
    exact h k hk

/-- A round of `run_non_passive` where no passive delivery of the chat is in the queue. -/
theorem tryNonPassive_eq (hcancelled : v.cancelled = []) (hsending : v.sending = false)
    (hsends : v.passiveSends = 0) :
    v.tryNonPassive v.servingTicket = if 0 < v.passiveTurns then (v, .waits v.servingTicket v.notified)
      else ({ v with sending := true }, .sends v.servingTicket) := by
  rw [LaneState.tryNonPassive, skip_eq hcancelled]
  simp [hsending, hsends]

omit [DecidableEq K] in
theorem fair_tryNonPassive (hpassive : item.passive = false) (hcancelled : v.cancelled = [])
    (hsending : v.sending = false) (hsends : v.passiveSends = 0) :
    Fair (v.tryNonPassive v.servingTicket).1 (item, (v.tryNonPassive v.servingTicket).2) := by
  rw [tryNonPassive_eq hcancelled hsending hsends]
  refine ⟨fun htrue => ?_, fun _ => ?_⟩
  · rw [hpassive] at htrue
    cases htrue
  · split
    · next hturns => exact Or.inr ⟨_, rfl, le_rfl, fun _ => hturns⟩
    · exact Or.inl rfl

theorem LaneOk.tryNonPassive (h : LaneOk k items taken false v) (hsends : v.passiveSends = 0) :
    LaneOk k items taken (v.tryNonPassive v.servingTicket).2.sending (v.tryNonPassive v.servingTicket).1 ∧
      (v.tryNonPassive v.servingTicket).2 ≠ .left := by
  rw [tryNonPassive_eq h.cancelled h.sending hsends]
  split
  · exact ⟨h, by simp⟩
  · exact ⟨⟨h.sends, h.users, h.cancelled, h.tickets, rfl⟩, by simp⟩

/-! ## The steps -/

theorem LaneOk.more (h : LaneOk k items taken b v) (hnot : item.passive = true → item.key ≠ k) :
    LaneOk k (items ++ [item]) taken b v := by
  refine ⟨?_, h.users, h.cancelled, h.tickets, h.sending⟩
  rw [h.sends, List.countP_append, List.countP_singleton, if_neg, Nat.add_zero]
  rw [Bool.and_eq_true, decide_eq_true_eq]
  exact fun hboth => hnot hboth.1 hboth.2

theorem LaneOk.sendPending (h : LaneOk item.key items taken b v) (hpassive : item.passive = true) :
    LaneOk item.key (items ++ [item]) taken b v.markSendPending := by
  refine ⟨?_, h.users, h.cancelled, h.tickets, h.sending⟩
  rw [List.countP_append, List.countP_singleton, if_pos (by simp [hpassive]), ← h.sends]
  rfl

theorem Inv.publish (h : Inv s) (hok : s.InOrder (.publish item)) {t : Outbound K}
    (hn : s.next (.publish item) = some t) : Inv t := by
  have hassoc : s.served ++ (s.queue ++ [item]) = s.served ++ s.queue ++ [item] := (List.append_assoc ..).symm
  have horder (hfront : item.passive = true → ¬ s.Awaits item.key) : (s.queue ++ [item]).Pairwise Follows := by
    refine List.pairwise_append.mpr ⟨h.order, List.pairwise_singleton _ _, fun a ha b hb hk hother => ?_⟩
    rw [List.mem_singleton.mp hb] at hk ⊢
    cases hpassive : item.passive with
    | false => rfl
    | true => exact absurd (Or.inl ⟨a, ha, hk, hother⟩) (hfront hpassive)
  have hbehind (hfront : item.passive = true → ¬ s.Awaits item.key) :
      ∀ a t n, s.current = some (a, .waits t n) → ∀ b ∈ s.queue ++ [item], b.key = a.key → b.passive = false := by
    intro a t n ha b hb hk
    rcases List.mem_append.mp hb with hb | hb
    · exact h.behind a t n ha b hb hk
    · rw [List.mem_singleton.mp hb] at hk ⊢
      cases hpassive : item.passive with
      | false => rfl
      | true => exact absurd (Or.inr ⟨a, t, n, ha, hk.symm⟩) (hfront hpassive)
  simp only [Outbound.next] at hn
  split at hn
  · cases Option.some.inj hn
    exact h
  · split at hn
    · next hpassive =>
        cases Option.some.inj hn
        have hfront : item.passive = true → ¬ s.Awaits item.key := by
          intro _
          refine hok item.key ?_
          cases item
          cases hpassive
          rfl
        refine h.notified (Nat.lt_succ_self _) rfl ?_ (fun k' hk => ?_) (horder hfront) (hbehind hfront)
        · rw [hassoc]
          exact (h.lanes item.key).sendPending hpassive
        · rw [hassoc]
          exact (h.lanes k').more fun _ => Ne.symm hk
    · next hpassive =>
        cases Option.some.inj hn
        have hfront : item.passive = true → ¬ s.Awaits item.key := fun htrue => absurd htrue hpassive
        refine ⟨fun k => ?_, h.fair, horder hfront, hbehind hfront⟩
        change LaneOk k (s.served ++ (s.queue ++ [item])) _ _ _
        rw [hassoc]
        exact (h.lanes k).more fun htrue => absurd htrue hpassive

/-- Where no passive delivery of the chat is in front or behind, the lane counts none. -/
theorem LaneOk.none_passive {queue : List (Item K)} (h : LaneOk item.key (item :: queue) taken b v)
    (hpassive : item.passive = false) (hbehind : ∀ a ∈ queue, a.key = item.key → a.passive = false) :
    v.passiveSends = 0 := by
  rw [h.sends, List.countP_eq_zero]
  intro a ha
  rcases List.mem_cons.mp ha with rfl | ha
  · simp [hpassive]
  · by_cases hk : a.key = item.key
    · simp [hbehind a ha hk]
    · simp [hk]

/-- A registered send finds the lane free. -/
theorem LaneOk.runRegistered {rest : List (Item K)} (h : LaneOk item.key (item :: rest) [] false v)
    (hpassive : item.passive = true) :
    enterLane item v = ({ v.acquire with sending := true }, .passiveSends) ∧
      LaneOk item.key (item :: rest) [item] true { v.acquire with sending := true } := by
  have hpos : v.passiveSends ≠ 0 := by
    rw [h.sends, List.countP_cons_of_pos (by simp [hpassive])]
    omega
  have hfree : ¬ v.acquire.sending = true := by
    rw [LaneState.acquire, h.sending]
    exact Bool.false_ne_true
  refine ⟨?_, h.sends, ?_, h.cancelled, ?_, rfl⟩
  · rw [enterLane, if_pos hpassive, LaneState.runRegistered, if_neg hpos, Option.getD_some,
      LaneState.tryPassive, if_neg hfree]
  · have husers := h.users
    simp only [LaneState.acquire, husers]
    simp
  · have htickets := h.tickets
    simp only [LaneState.acquire, htickets]
    simp [hpassive]

/-- A delivery that is not passive has drawn the ticket that is served next. -/
theorem LaneOk.runNonPassive {rest : List (Item K)} (h : LaneOk item.key (item :: rest) [] false v)
    (hpassive : item.passive = false) :
    ∃ w : LaneState, w.passiveSends = v.passiveSends ∧ enterLane item v = w.tryNonPassive w.servingTicket ∧
      LaneOk item.key (item :: rest) [item] false w := by
  have hserving : v.nextTicket = v.servingTicket := h.tickets
  refine ⟨{ v.acquire with nextTicket := v.nextTicket + 1 }, rfl, ?_, h.sends, ?_, h.cancelled, ?_, h.sending⟩
  · rw [enterLane, if_neg (by rw [hpassive]; exact Bool.false_ne_true), LaneState.runNonPassive, hserving]
    rfl
  · have husers := h.users
    simp only [LaneState.acquire, husers]
    simp
  · simp [LaneState.acquire, hserving, hpassive]

theorem Inv.take (h : Inv s) {t : Outbound K} (hn : s.next .take = some t) : Inv t := by
  simp only [Outbound.next] at hn
  split at hn
  · next item rest hstopped hcurrent hqueue =>
      cases Option.some.inj hn
      have hserved : s.served = [] := by simp [Outbound.served, hcurrent]
      have hlanes (k : K) : LaneOk k (item :: rest) [] false (s.lanes k) := by
        have hlane := h.lanes k
        rw [hserved, hqueue, hcurrent] at hlane
        exact hlane
      have horder := h.order
      rw [hqueue, List.pairwise_cons] at horder
      have hmine := hlanes item.key
      have hothers : ∀ k, k ≠ item.key → LaneOk k (item :: rest) [item] false (s.lanes k) := by
        intro k hk
        have hlane := hlanes k
        refine ⟨hlane.sends, ?_, hlane.cancelled, ?_, hlane.sending⟩
        · rw [hlane.users]
          simp [Ne.symm hk]
        · rw [hlane.tickets]
          simp [Ne.symm hk]
      cases hpassive : item.passive with
      | true =>
          obtain ⟨henter, hlane⟩ := hmine.runRegistered hpassive
          rw [henter]
          refine Inv.served_at (s := { s with queue := rest }) hothers (by simp) hlane ?_ horder.2
            fun hother => ?_
          · exact ⟨fun _ => rfl, fun hother => absurd (hpassive.symm.trans hother) (by decide)⟩
          · exact absurd (hpassive.symm.trans hother) (by decide)
      | false =>
          have hbehind : ∀ b ∈ rest, b.key = item.key → b.passive = false :=
            fun b hb hk => horder.1 b hb hk.symm hpassive
          obtain ⟨w, hcount, henter, hdrawn⟩ := hmine.runNonPassive hpassive
          have hsends : w.passiveSends = 0 := hcount.trans (hmine.none_passive hpassive hbehind)
          rw [henter]
          obtain ⟨hlane, hleft⟩ := hdrawn.tryNonPassive hsends
          exact Inv.served_at (s := { s with queue := rest }) hothers hleft hlane
            (fair_tryNonPassive hpassive hdrawn.cancelled hdrawn.sending hsends) horder.2 fun _ => hbehind
  · cases hn

/-- The lanes while the dispatcher has an item. -/
theorem Inv.busy (h : Inv s) {p : Party} (hcurrent : s.current = some (item, p)) (k : K) :
    LaneOk k (item :: s.queue) [item] (p.sending && item.key = k) (s.lanes k) := by
  have hlane := h.lanes k
  have hserved : s.served = [item] := by simp [Outbound.served, hcurrent]
  rw [hserved, hcurrent] at hlane
  exact hlane

theorem Inv.resume (h : Inv s) {t : Outbound K} (hn : s.next .resume = some t) : Inv t := by
  obtain ⟨⟨item, p⟩, hcurrent, hn⟩ := Option.bind_eq_some_iff.mp hn
  obtain ⟨r, hr, rfl⟩ := Option.map_eq_some_iff.mp hn
  have hfair := h.fair _ hcurrent
  cases hpassive : item.passive with
  | true =>
      rw [hfair.passive hpassive] at hr
      cases hr
  | false =>
      rcases hfair.other hpassive with hsends | ⟨n, hwaits, -, -⟩
      · rw [hsends] at hr
        cases hr
      · dsimp only at hwaits
        subst hwaits
        simp only [LaneState.resume] at hr
        split at hr
        · cases Option.some.inj hr
          have hbehind := h.behind _ _ _ hcurrent
          have hmine := h.busy hcurrent item.key
          have hsends := hmine.none_passive hpassive hbehind
          have hfree : LaneOk item.key (item :: s.queue) [item] false (s.lanes item.key) := hmine
          obtain ⟨hlane, hleft⟩ := hfree.tryNonPassive hsends
          exact Inv.served_at (fun k _ => h.busy hcurrent k) hleft hlane
            (fair_tryNonPassive hpassive hmine.cancelled hmine.sending hsends) h.order fun _ => hbehind
        · cases hr

/-- The end of a send. -/
theorem Inv.sent (h : Inv s) {p : Party} {r : LaneState × Party} (hcurrent : s.current = some (item, p))
    (hr : (s.lanes item.key).sent p = some r) : LaneOk item.key s.queue [] false r.1 := by
  have hmine := h.busy hcurrent item.key
  have hfair := h.fair _ hcurrent
  cases hpassive : item.passive with
  | true =>
      have hp : p = .passiveSends := hfair.passive hpassive
      subst hp
      cases Option.some.inj hr
      have hsends := hmine.sends
      rw [List.countP_cons_of_pos (by simp [hpassive])] at hsends
      have husers := hmine.users
      have htickets := hmine.tickets
      rw [LaneState.endPassive, if_neg (by omega)]
      refine ⟨?_, ?_, hmine.cancelled, ?_, ?_⟩
      · simp only [LaneState.release, LaneState.notifyAll]
        omega
      · simp only [LaneState.release, LaneState.notifyAll, husers]
        simp
      · simp only [LaneState.release, LaneState.notifyAll, htickets]
        simp [hpassive]
      · simp [LaneState.release, LaneState.notifyAll]
  | false =>
      rcases hfair.other hpassive with hp | ⟨n, hp, -, -⟩
      · dsimp only at hp
        subst hp
        cases Option.some.inj hr
        have hsends := hmine.sends
        rw [List.countP_cons_of_neg (by simp [hpassive])] at hsends
        have husers := hmine.users
        have htickets := hmine.tickets
        have hskip := skip_eq (v := { s.lanes item.key with
          servingTicket := (s.lanes item.key).servingTicket + 1, sending := false }) hmine.cancelled
        rw [LaneState.endNonPassive, hskip]
        refine ⟨hsends, ?_, hmine.cancelled, ?_, rfl⟩
        · simp only [LaneState.release, LaneState.notifyAll, husers]
          simp
        · simp only [LaneState.release, LaneState.notifyAll, htickets]
          simp [hpassive]
      · dsimp only at hp
        subst hp
        cases hr

/-- The lanes of the other chats when the dispatcher leaves. -/
theorem Inv.others (h : Inv s) {p : Party} (hcurrent : s.current = some (item, p)) :
    ∀ k, k ≠ item.key → LaneOk k s.queue [] false (s.lanes k) := by
  intro k hk
  have hlane := h.busy hcurrent k
  refine ⟨?_, ?_, hlane.cancelled, ?_, ?_⟩
  · rw [hlane.sends, List.countP_cons_of_neg (by simp [Ne.symm hk])]
  · rw [hlane.users]
    simp [Ne.symm hk]
  · rw [hlane.tickets]
    simp [Ne.symm hk]
  · rw [hlane.sending]
    simp [Ne.symm hk]

theorem inv_next {a : OutboundAction K} {t : Outbound K} (h : Inv s) (hok : s.InOrder a)
    (hn : outboundMachine.next s a = some t) : Inv t := by
  cases a with
  | publish item => exact h.publish hok hn
  | markPending k =>
      cases Option.some.inj hn
      have hlane := h.lanes k
      exact h.notified (Nat.lt_succ_self _) rfl
        ⟨hlane.sends, hlane.users, hlane.cancelled, hlane.tickets, hlane.sending⟩
        (fun k' _ => h.lanes k') h.order h.behind
  | markDone k =>
      simp only [outboundMachine, Outbound.next] at hn
      split at hn
      · next hturns =>
          cases Option.some.inj hn
          have hlane := h.lanes k
          have hdone : (s.lanes k).markDone =
              { s.lanes k with
                passiveTurns := (s.lanes k).passiveTurns - 1, notified := (s.lanes k).notified + 1 } := by
            rw [LaneState.markDone, if_pos hturns]
            rfl
          rw [hdone]
          exact h.notified (Nat.lt_succ_self _) rfl
            ⟨hlane.sends, hlane.users, hlane.cancelled, hlane.tickets, hlane.sending⟩
            (fun k' _ => h.lanes k') h.order h.behind
      · cases hn
  | take => exact h.take hn
  | resume => exact h.resume hn
  | sent =>
      obtain ⟨⟨item, p⟩, hcurrent, hn⟩ := Option.bind_eq_some_iff.mp hn
      obtain ⟨r, hr, rfl⟩ := Option.map_eq_some_iff.mp hn
      exact Inv.left (h.others hcurrent) (h.sent hcurrent hr) h.order _
  | raised =>
      obtain ⟨⟨item, p⟩, hcurrent, hn⟩ := Option.bind_eq_some_iff.mp hn
      obtain ⟨r, hr, rfl⟩ := Option.map_eq_some_iff.mp hn
      exact Inv.left (h.others hcurrent) (h.sent hcurrent hr) h.order _

theorem inv_reach (h : outboundMachine.Reach InOrder s) : Inv s := by
  refine h.invariant (fun s hs => ?_) fun s a t hi hok hn => inv_next hi hok hn
  rw [show s = {} from hs]
  exact inv_start

theorem Inv.not_wedged (h : Inv s) : ¬ s.Wedged := by
  intro hw
  cases hcurrent : s.current with
  | none =>
      rcases hw.unsettled with hsome | hqueue
      · rw [hcurrent] at hsome
        cases hsome
      · obtain ⟨item, rest, hqueue⟩ := List.exists_cons_of_ne_nil hqueue
        have htake := hw.take
        simp only [Outbound.next, hw.alive, hcurrent, hqueue] at htake
        cases htake
  | some c =>
      obtain ⟨item, p⟩ := c
      have hfair := h.fair _ hcurrent
      have hsent := hw.sent
      have hresume := hw.resume
      simp only [Outbound.next, hcurrent, Option.bind_some, Option.map_eq_none_iff] at hsent hresume
      cases hpassive : item.passive with
      | true =>
          have hp : p = .passiveSends := hfair.passive hpassive
          rw [hp] at hsent
          cases hsent
      | false =>
          rcases hfair.other hpassive with hp | ⟨n, hp, hle, hturns⟩
          · dsimp only at hp
            rw [hp] at hsent
            cases hsent
          · dsimp only at hp
            rw [hp] at hresume
            simp only [LaneState.resume] at hresume
            split at hresume
            · cases hresume
            · next hnot =>
                dsimp only at hle hturns
                have hpos := hturns (by omega)
                have hdone := hw.turns item.key
                simp only [Outbound.next, if_pos hpos] at hdone
                cases hdone

end Outbound

/-- As long as no passive delivery is published behind one of its chat that is not, the
dispatcher is never wedged. -/
theorem dispatcher_never_wedged {s : Outbound K} (h : outboundMachine.Reach Outbound.InOrder s) :
    ¬ s.Wedged :=
  (Outbound.inv_reach h).not_wedged

/-- A passive delivery is published, then one that is not, and the second waits for a turn. -/
def orderedRun : List (OutboundAction String) :=
  [.publish ⟨"chat", false⟩, .markPending "chat", .take, .sent, .take]

theorem dispatcher_never_wedged_example :
    ∃ s : Outbound String, outboundMachine.run {} (.publish ⟨"chat", true⟩ :: orderedRun) = some s ∧
      s.current.isSome = true ∧ ¬ s.Wedged := by
  obtain ⟨first, hfirst⟩ : ∃ first,
      outboundMachine.next ({} : Outbound String) (.publish ⟨"chat", true⟩) = some first := ⟨_, rfl⟩
  have hpath : outboundMachine.Path Outbound.InOrder {} first := by
    refine .step _ .refl (fun k _ hawaits => ?_) hfirst
    rcases hawaits with ⟨item, hitem, -⟩ | ⟨item, t, n, hcurrent, -⟩
    · cases hitem
    · cases hcurrent
  have hlater : ∀ a ∈ orderedRun, ∀ s : Outbound String, s.InOrder a := by
    intro a ha s k hk
    rw [hk] at ha
    simp [orderedRun] at ha
  have hrun : ∃ s, outboundMachine.run first orderedRun = some s ∧ s.current.isSome = true := by
    cases Option.some.inj hfirst
    exact ⟨_, rfl, rfl⟩
  obtain ⟨s, hs, hcurrent⟩ := hrun
  refine ⟨s, ?_, hcurrent, dispatcher_never_wedged ⟨{}, rfl, hpath.trans (Machine.path_of_run hlater hs)⟩⟩
  rw [Machine.run, hfirst]
  exact hs

/-- A delivery that is not passive, and a passive one of the same chat behind it. -/
def wedgingRun : List (OutboundAction String) :=
  [.publish ⟨"chat", false⟩, .publish ⟨"chat", true⟩, .take]

/-- The first waits for the second, and the dispatcher for the first. -/
theorem wedgingRun_wedges :
    let s := (outboundMachine.run {} wedgingRun).getD {}
    outboundMachine.Reachable s ∧ s.Wedged ∧ s.queue = [⟨"chat", true⟩] ∧
      s.current = some (⟨"chat", false⟩, .waits 0 1) := by
  intro s
  refine ⟨Machine.reach_getD rfl (fun _ _ _ => trivial) rfl,
    ⟨rfl, Or.inl rfl, rfl, rfl, rfl, fun k => ?_⟩, rfl, rfl⟩
  have hturns : (s.lanes k).passiveTurns = 0 := by
    by_cases hk : k = "chat"
    · subst hk
      rfl
    · have hlane : s.lanes k = {} := (Function.update_of_ne hk _ _).trans (Function.update_of_ne hk _ _)
      rw [hlane]
  simp [Outbound.next, hturns]

end MonoAgent.Bus
