import Mathlib
import MonoAgent.Deliveries.Routing

/-!
# Owners consume the log of a Session in order

A run of the records is any sequence of calls by any owners, with arguments of their
own, and of writes to the log.  A call that raises changes nothing.

`consumed` lists the messages that moved a cursor.  No operation reads it.  For each
owner and Session its seqs are `0..n-1`, and the cursor stands on the last of them.
-/

namespace MonoAgent.Deliveries

open MonoAgent.Lib MonoAgent.Session

/-! ## The machine -/

/-- A message that moved the cursor of an owner. -/
structure Consumed where
  owner : String
  message : Message
  /-- The owner supplied sinks. -/
  routed : Bool
deriving DecidableEq

structure Ledger where
  outbox : Outbox := {}
  consumed : List Consumed := []

inductive RecordsAction where
  | log (a : LogAction)
  | prepare (r : DeliveryRecords) (sessionId : String) (message : Message) (sinks : List Sink)
      (passive : Bool)
  | publish (r : DeliveryRecords) (w : Writer) (now : Instant) (request : AppendRequest)
      (sinks : List Sink) (passive : Bool)
  | consume (r : DeliveryRecords) (sessionId : String) (message : Message)
      (sinks : Option (List Sink)) (passive : Bool)
  | add (r : DeliveryRecords) (messageId : String) (sink : Sink)
  | save (r : DeliveryRecords) (messageId : String) (previous : Row) (delivery : Delivery)
      (now : Instant)

namespace Ledger

/-- A call that moves no cursor. -/
def call {α : Type} (s : Ledger) (x : Except Error (Outbox × α)) : Ledger :=
  match x with
  | .ok p => { s with outbox := p.1 }
  | .error _ => s

def consume (s : Ledger) (r : DeliveryRecords) (sessionId : String) (message : Message)
    (sinks : Option (List Sink)) (passive : Bool) : Ledger :=
  match r.consume s.outbox sessionId message sinks passive with
  | .ok p => { s with
      outbox := p.1
      consumed := if r.cursor s.outbox sessionId = r.cursor p.1 sessionId then s.consumed
        else s.consumed ++ [⟨r.recoveryOwner, message, sinks.isSome⟩] }
  | .error _ => s

/-- The seqs of a Session that an owner has consumed, in order. -/
def seqs (s : Ledger) (owner sessionId : String) : List Nat :=
  (s.consumed.filter fun c => c.owner = owner ∧ c.message.sessionId = sessionId).map (·.message.seq)

end Ledger

def recordsMachine : Machine Ledger RecordsAction where
  start s := logMachine.start s.outbox.db ∧ s.outbox.rows = (fun _ => none) ∧ s.consumed = []
  next s a := match a with
    | .log a => (logMachine.next s.outbox.db a).map fun db =>
        { s with outbox := { s.outbox with db } }
    | .prepare r sessionId message sinks passive =>
        some (s.call (r.prepare s.outbox sessionId message sinks passive))
    | .publish r w now request sinks passive =>
        some (s.call (r.publish s.outbox w now request sinks passive))
    | .consume r sessionId message sinks passive =>
        some (s.consume r sessionId message sinks passive)
    | .add r messageId sink => some (s.call ((r.add s.outbox messageId sink).map fun o => (o, ())))
    | .save r messageId previous delivery now =>
        some (s.call (r.save s.outbox messageId previous delivery now))

/-! ## The invariant -/

structure LedgerInv (s : Ledger) : Prop where
  rows : RowsInv s.outbox
  named : Named s.outbox
  /-- The cursor stands on the last of the seqs `0..n-1`. -/
  cursors : ∀ owner sessionId, ∃ n : Nat, s.seqs owner sessionId = List.range n ∧
    (DeliveryRecords.mk owner).cursor s.outbox sessionId = .ok ((n : Int) - 1)
  routed : ∀ c ∈ s.consumed, c.routed = true →
    ∃ row, s.outbox.rows (.selection c.message.messageId) = some row

/-- What every step keeps: selections, and cursors do not move back. -/
structure Later (s t : Ledger) : Prop where
  selections : ∀ m row, s.outbox.rows (.selection m) = some row →
    t.outbox.rows (.selection m) = some row
  cursors : ∀ owner sessionId c, (DeliveryRecords.mk owner).cursor s.outbox sessionId = .ok c →
    ∃ c', (DeliveryRecords.mk owner).cursor t.outbox sessionId = .ok c' ∧ c ≤ c'

section Steps

variable {s t : Ledger}

theorem Later.refl (s : Ledger) : Later s s := ⟨fun _ _ h => h, fun _ _ c h => ⟨c, h, Int.le_refl c⟩⟩

theorem Later.trans {u : Ledger} (h : Later s t) (h' : Later t u) : Later s u := by
  refine ⟨fun m row hr => h'.selections m row (h.selections m row hr), fun owner sid c hc => ?_⟩
  obtain ⟨c', hc', hle⟩ := h.cursors owner sid c hc
  obtain ⟨c'', hc'', hle'⟩ := h'.cursors owner sid c' hc'
  exact ⟨c'', hc'', hle.trans hle'⟩

theorem ledgerInv_start (h : recordsMachine.start s) : LedgerInv s := by
  obtain ⟨hlog, hrows, hconsumed⟩ := h
  have hnone (key : Key) : s.outbox.rows key = none := by rw [hrows]
  have hid : Identified s.outbox.db := by
    intro m hm
    rw [hlog.2.1] at hm
    cases hm
  refine ⟨⟨logInvariant_start hlog, hid, fun key row hk => ?_, fun m sink hd => ?_, [], fun key hk => ?_⟩,
    fun m row x hx => ?_, fun owner sid => ⟨0, ?_, ?_⟩, fun c hc => ?_⟩
  · cases (hnone key).symm.trans hk
  · exact absurd (hnone _) hd
  · exact absurd (hnone key) hk
  · cases (hnone _).symm.trans hx
  · rw [Ledger.seqs, hconsumed]
    rfl
  · rw [DeliveryRecords.cursor, hnone]
    rfl
  · rw [hconsumed] at hc
    cases hc

/-- A call that moves no cursor. -/
theorem LedgerInv.routes (h : LedgerInv s) {o : Outbox} (hr : Routed s.outbox o) :
    LedgerInv { s with outbox := o } ∧ Later s { s with outbox := o } := by
  have hcursor (owner sid : String) : (DeliveryRecords.mk owner).cursor o sid =
      (DeliveryRecords.mk owner).cursor s.outbox sid :=
    cursor_congr (r := ⟨owner⟩) (hr.routes.cursors owner sid)
  refine ⟨⟨hr.rows, hr.named, fun owner sid => ?_, fun c hc hrouted => ?_⟩,
    ⟨hr.routes.selections, fun owner sid c hc => ⟨c, (hcursor owner sid).trans hc, Int.le_refl c⟩⟩⟩
  · obtain ⟨n, hseqs, hn⟩ := h.cursors owner sid
    exact ⟨n, hseqs, (hcursor owner sid).trans hn⟩
  · obtain ⟨row, hrow⟩ := h.routed c hc hrouted
    exact ⟨row, hr.routes.selections _ _ hrow⟩

theorem LedgerInv.call (h : LedgerInv s) {α : Type} {x : Except Error (Outbox × α)}
    (hx : ∀ o a, x = .ok (o, a) → Routed s.outbox o) : LedgerInv (s.call x) ∧ Later s (s.call x) := by
  cases x with
  | error e => exact ⟨h, .refl s⟩
  | ok p => exact h.routes (hx p.1 p.2 rfl)

theorem LedgerInv.consume (h : LedgerInv s) (r : DeliveryRecords) (sessionId : String)
    (message : Message) (sinks : Option (List Sink)) (passive : Bool) :
    LedgerInv (s.consume r sessionId message sinks passive) ∧
      Later s (s.consume r sessionId message sinks passive) := by
  rw [Ledger.consume]
  split
  · next p hc =>
      obtain ⟨hcons, hselected, hsome⟩ := consume_spec h.rows h.named hc
      obtain ⟨c, hcursor, hmoved⟩ := hcons.moved
      -- The other cursors stay.
      have hother (owner sid : String) (hne : (owner, sid) ≠ (r.recoveryOwner, sessionId)) :
          (DeliveryRecords.mk owner).cursor p.1 sid =
            (DeliveryRecords.mk owner).cursor s.outbox sid :=
        cursor_congr (r := ⟨owner⟩) (hcons.cursors owner sid hne)
      rcases hmoved with hsame | ⟨hseq, hnext⟩
      · rw [if_pos (hcursor.trans hsame.symm)]
        have hkept (owner sid : String) : (DeliveryRecords.mk owner).cursor p.1 sid =
            (DeliveryRecords.mk owner).cursor s.outbox sid := by
          by_cases hk : (owner, sid) = (r.recoveryOwner, sessionId)
          · cases hk
            exact hsame.trans hcursor.symm
          · exact hother owner sid hk
        refine ⟨⟨hcons.rows, hcons.named, fun owner sid => ?_, fun e he hrouted => ?_⟩,
          ⟨hcons.selections, fun owner sid c' hc' => ⟨c', (hkept owner sid).trans hc', Int.le_refl _⟩⟩⟩
        · obtain ⟨n, hseqs, hn⟩ := h.cursors owner sid
          exact ⟨n, hseqs, (hkept owner sid).trans hn⟩
        · obtain ⟨row, hrow⟩ := h.routed e he hrouted
          exact ⟨row, hcons.selections _ _ hrow⟩
      · have hmove : r.cursor s.outbox sessionId ≠ r.cursor p.1 sessionId := by
          rw [hcursor, hnext]
          intro heq
          cases heq
          omega
        rw [if_neg hmove]
        have hlist (owner sid : String) :
            Ledger.seqs ⟨p.1, s.consumed ++ [⟨r.recoveryOwner, message, sinks.isSome⟩]⟩ owner sid =
              s.seqs owner sid ++
                if (owner, sid) = (r.recoveryOwner, sessionId) then [message.seq] else [] := by
          rw [Ledger.seqs, Ledger.seqs, List.filter_append, List.map_append, hcons.session]
          by_cases hk : (owner, sid) = (r.recoveryOwner, message.sessionId)
          · cases hk
            simp
          · rw [if_neg hk]
            have hk' : ¬ (r.recoveryOwner = owner ∧ message.sessionId = sid) :=
              fun heq => hk (Prod.ext heq.1.symm heq.2.symm)
            simp [hk']
        refine ⟨⟨hcons.rows, hcons.named, fun owner sid => ?_, fun e he hrouted => ?_⟩,
          ⟨hcons.selections, fun owner sid c' hc' => ?_⟩⟩
        · obtain ⟨n, hseqs, hn⟩ := h.cursors owner sid
          rw [hlist]
          by_cases hk : (owner, sid) = (r.recoveryOwner, sessionId)
          · cases hk
            cases hcursor.symm.trans hn
            have hnew : message.seq = n := by omega
            refine ⟨n + 1, ?_, ?_⟩
            · rw [if_pos rfl, hseqs, hnew, List.range_succ]
            · rw [hnext, hnew]
              simp
          · refine ⟨n, ?_, (hother owner sid hk).trans hn⟩
            rw [if_neg hk, List.append_nil, hseqs]
        · rcases List.mem_append.mp he with he | he
          · obtain ⟨row, hrow⟩ := h.routed e he hrouted
            exact ⟨row, hcons.selections _ _ hrow⟩
          · cases List.mem_singleton.mp he
            have hsinks : sinks ≠ none := Option.isSome_iff_ne_none.mp hrouted
            obtain ⟨x, hx⟩ := Option.ne_none_iff_exists'.mp (hsome hsinks)
            rw [hx] at hselected
            obtain ⟨row, hrow, _⟩ := (selection_eq_some hcons.rows).mp hselected
            exact ⟨row, hrow⟩
        · by_cases hk : (owner, sid) = (r.recoveryOwner, sessionId)
          · cases hk
            cases hcursor.symm.trans hc'
            exact ⟨_, hnext, by omega⟩
          · exact ⟨c', (hother owner sid hk).trans hc', Int.le_refl _⟩
  · exact ⟨h, .refl s⟩

theorem ledgerInv_next (h : LedgerInv s) {a : RecordsAction} (hn : recordsMachine.next s a = some t) :
    LedgerInv t ∧ Later s t := by
  cases a with
  | log a =>
      have hn : (logMachine.next s.outbox.db a).map
        (fun db => { s with outbox := { s.outbox with db } }) = some t := hn
      obtain ⟨db, hdb, rfl⟩ := Option.map_eq_some_iff.mp hn
      exact h.routes (Routed.log h.rows h.named (logInvariant_next h.rows.log hdb)
        (logMachine_step (identified_preserved _) a.uses_all h.rows.identified hdb))
  | prepare r sessionId message sinks passive =>
      cases hn
      exact h.call fun _ _ hp => prepare_spec h.rows h.named hp
  | publish r w now request sinks passive =>
      cases hn
      exact h.call fun _ _ hp => publish_spec h.rows h.named hp
  | consume r sessionId message sinks passive =>
      cases hn
      exact h.consume r sessionId message sinks passive
  | add r messageId sink =>
      cases hn
      refine h.call fun o _ ho => ?_
      obtain ⟨o', ho', heq⟩ := Except.map_eq_ok.mp ho
      cases heq
      exact add_spec h.rows h.named ho'
  | save r messageId previous delivery now =>
      cases hn
      exact h.call fun _ _ hs => save_routed h.rows h.named hs

theorem reachable_ledgerInv (h : recordsMachine.Reachable s) : LedgerInv s :=
  h.invariant (fun _ => ledgerInv_start) fun _ _ _ hs _ hn => (ledgerInv_next hs hn).1

theorem path_later (h : LedgerInv s) (hp : recordsMachine.Path Machine.always s t) : Later s t :=
  hp.rel Later.refl (fun _ _ _ => Later.trans) (fun _ _ _ hs _ hn => (ledgerInv_next hs hn).1)
    (fun _ _ _ hs _ hn => (ledgerInv_next hs hn).2) h

end Steps

/-! ## Recovery -/

section Pending

variable {o : Outbox} {r : DeliveryRecords}

/-- The delivery rows in some order. -/
def Lists (o : Outbox) (listed : List (String × String)) : Prop :=
  listed.Nodup ∧ ∀ key, key ∈ listed ↔ o.rows (.delivery key.1 key.2) ≠ none

/-- The rows can be listed. -/
theorem exists_lists (h : RowsInv o) : ∃ listed, Lists o listed := by
  obtain ⟨keys, hkeys⟩ := h.finite
  let names := keys.filterMap fun
    | .delivery m sink => some (m, sink)
    | _ => none
  refine ⟨(names.filter fun key => o.rows (.delivery key.1 key.2) ≠ none).dedup,
    List.nodup_dedup _, fun key => ?_⟩
  have hnames : o.rows (.delivery key.1 key.2) ≠ none → key ∈ names := fun hk =>
    List.mem_filterMap.mpr ⟨_, hkeys _ hk, rfl⟩
  simpa using hnames

/-- A delivery of an owner that is not settled. -/
def Unsettled (o : Outbox) (owner : String) (key : String × String) : Prop :=
  ∃ row d s, o.rows (.delivery key.1 key.2) = some row ∧ row.value = .delivery d ∧
    d.phase.terminal = false ∧ DeliveryRecords.selection o key.1 = .ok (some s) ∧
    s.recoveryOwner = owner

/-- Every delivery row is read without an error. -/
theorem isPending_ok (h : RowsInv o) {key : String × String}
    (hkey : o.rows (.delivery key.1 key.2) ≠ none) :
    ∃ b, r.isPending o key = .ok b ∧ (b = true ↔ Unsettled o r.recoveryOwner key) := by
  obtain ⟨row, hrow⟩ := Option.ne_none_iff_exists'.mp hkey
  obtain ⟨d, hd, hname⟩ := h.fits _ row hrow
  obtain ⟨srow, hsrow⟩ := Option.ne_none_iff_exists'.mp (h.selected key.1 key.2 hkey)
  obtain ⟨hid, _, s, hs⟩ := h.fits _ srow hsrow
  have hselection := (selection_eq_some h).mpr ⟨srow, hsrow, hs⟩
  have hsink : key.2 ≠ "" := hname ▸ d.sink.nonempty.1
  have hrun : r.isPending o key = if s.recoveryOwner ≠ r.recoveryOwner then .ok false
      else (r.read o key.1 key.2).map fun found => !found.2.phase.terminal := by
    rw [DeliveryRecords.isPending, ensure, if_pos ⟨hid, hsink⟩, hselection]
    show (if _ then _ else _) = _
    split
    · rfl
    · cases r.read o key.1 key.2 <;> rfl
  have hunique {s' : Selection} (h' : DeliveryRecords.selection o key.1 = .ok (some s')) : s' = s := by
    cases hselection.symm.trans h'
    rfl
  rw [hrun]
  split
  · next hother =>
      refine ⟨false, rfl, iff_of_false (by simp) fun hu => ?_⟩
      obtain ⟨_, _, s', _, _, _, hs', howner⟩ := hu
      rw [hunique hs'] at howner
      exact hother howner
  · next howner =>
      have howner : s.recoveryOwner = r.recoveryOwner := by simpa using howner
      obtain ⟨d', hd', hread⟩ := read_ok h hselection howner hrow
      cases hd.symm.trans hd'
      rw [hread]
      refine ⟨_, rfl, ?_⟩
      constructor
      · intro hopen
        exact ⟨row, d, s, hrow, hd, by simpa using hopen, hselection, howner⟩
      · rintro ⟨row', d', s', hrow', hd', hopen, _, _⟩
        cases hrow.symm.trans hrow'
        cases hd.symm.trans hd'
        simpa using hopen

/-- `pending` lists what is not settled, by induction on the rows. -/
theorem pending_ok (h : RowsInv o) {listed : List (String × String)}
    (hl : ∀ key ∈ listed, o.rows (.delivery key.1 key.2) ≠ none) :
    ∃ out, r.pending o listed = .ok out ∧ out.Sublist listed ∧
      ∀ key, key ∈ out ↔ key ∈ listed ∧ Unsettled o r.recoveryOwner key := by
  induction listed with
  | nil => exact ⟨[], rfl, .slnil, by simp⟩
  | cons key rest ih =>
      obtain ⟨b, hb, hiff⟩ := isPending_ok h (r := r) (hl key (List.mem_cons_self ..))
      obtain ⟨later, hlater, hsub, hmem⟩ := ih fun k hk => hl k (List.mem_cons_of_mem _ hk)
      refine ⟨if b then key :: later else later, ?_, ?_, fun k => ?_⟩
      · exact Except.bind_eq_ok.mpr ⟨b, hb, Except.bind_eq_ok.mpr ⟨later, hlater, rfl⟩⟩
      · cases b with
        | true => exact hsub.cons_cons key
        | false => exact hsub.cons key
      · cases b with
        | true =>
            have hkey := hiff.mp rfl
            simp only [if_true, List.mem_cons, hmem]
            constructor
            · rintro (rfl | ⟨hk, hu⟩)
              · exact ⟨Or.inl rfl, hkey⟩
              · exact ⟨Or.inr hk, hu⟩
            · rintro ⟨rfl | hk, hu⟩
              · exact Or.inl rfl
              · exact Or.inr ⟨hk, hu⟩
        | false =>
            simp only [Bool.false_eq_true, if_false, List.mem_cons, hmem]
            constructor
            · rintro ⟨hk, hu⟩
              exact ⟨Or.inr hk, hu⟩
            · rintro ⟨rfl | hk, hu⟩
              · cases hiff.mpr hu
              · exact ⟨hk, hu⟩

end Pending

/-! ## Every run -/

/-- The cursor of an owner. -/
def Ledger.cursor (s : Ledger) (owner sessionId : String) : Except Error Int :=
  (DeliveryRecords.mk owner).cursor s.outbox sessionId

def Ledger.selection (s : Ledger) (messageId : String) : Except Error (Option Selection) :=
  DeliveryRecords.selection s.outbox messageId

/-- In every run, each owner consumes the messages of a Session one by one from the
first, no selection changes, a selection names deliveries, what was consumed with
sinks is selected, and `pending` lists the unsettled deliveries of the owner. -/
theorem consumed_in_order {s t : Ledger} (h : recordsMachine.Reachable s)
    (hp : recordsMachine.Path Machine.always s t) :
    (∀ owner sessionId, ∃ n : Nat, s.seqs owner sessionId = List.range n ∧
      s.cursor owner sessionId = .ok ((n : Int) - 1)) ∧
    (∀ owner sessionId c, s.cursor owner sessionId = .ok c →
      ∃ c', t.cursor owner sessionId = .ok c' ∧ c ≤ c') ∧
    (∀ m x, s.selection m = .ok (some x) → t.selection m = .ok (some x)) ∧
    (∀ m x, s.selection m = .ok (some x) → ∀ sink ∈ x.sinks, ∃ row d,
      s.outbox.rows (.delivery m sink) = some row ∧ row.value = .delivery d ∧ d.sink.name = sink) ∧
    (∀ c ∈ s.consumed, c.routed = true → ∃ x, s.selection c.message.messageId = .ok (some x)) ∧
    (∀ (r : DeliveryRecords) sessionId message sinks passive o selected,
      r.consume s.outbox sessionId message (some sinks) passive = .ok (o, selected) →
      ∃ x, selected = some x ∧ DeliveryRecords.selection o message.messageId = .ok (some x)) ∧
    (∃ listed, Lists s.outbox listed) ∧
    (∀ (r : DeliveryRecords) listed, Lists s.outbox listed → ∃ out,
      r.pending s.outbox listed = .ok out ∧ out.Sublist listed ∧
      ∀ key, key ∈ out ↔ Unsettled s.outbox r.recoveryOwner key) := by
  have hs := reachable_ledgerInv h
  have ht := reachable_ledgerInv (h.path hp)
  have hlater := path_later hs hp
  refine ⟨hs.cursors, hlater.cursors, fun m x hx => ?_, fun m x hx sink hsink => ?_,
    fun c hc hrouted => ?_, fun r sid message sinks passive o selected hc => ?_,
    exists_lists hs.rows, fun r listed hl => ?_⟩
  · obtain ⟨row, hrow, hvalue⟩ := (selection_eq_some hs.rows).mp hx
    exact (selection_eq_some ht.rows).mpr ⟨row, hlater.selections m row hrow, hvalue⟩
  · obtain ⟨row, hrow, hvalue⟩ := (selection_eq_some hs.rows).mp hx
    obtain ⟨drow, hdrow⟩ := Option.ne_none_iff_exists'.mp (hs.named m row x hrow hvalue sink hsink)
    obtain ⟨d, hd, hname⟩ := hs.rows.fits _ drow hdrow
    exact ⟨drow, d, hdrow, hd, hname⟩
  · obtain ⟨row, hrow⟩ := hs.routed c hc hrouted
    obtain ⟨_, _, x, hx⟩ := hs.rows.fits _ row hrow
    exact ⟨x, (selection_eq_some hs.rows).mpr ⟨row, hrow, hx⟩⟩
  · obtain ⟨_, hselected, hsome⟩ := consume_spec hs.rows hs.named hc
    obtain ⟨x, rfl⟩ := Option.ne_none_iff_exists'.mp (hsome (Option.some_ne_none _))
    exact ⟨x, rfl, hselected⟩
  · obtain ⟨out, hout, hsub, hmem⟩ := pending_ok hs.rows (r := r) fun key hk => (hl.2 key).mp hk
    refine ⟨out, hout, hsub, fun key => (hmem key).trans ⟨fun hk => hk.2, fun hu => ⟨?_, hu⟩⟩⟩
    obtain ⟨row, _, _, hrow, _⟩ := hu
    exact (hl.2 key).mpr (by simp [hrow])

/-- Two messages.  The first is published by one owner and consumed by another, which
then routes the second. -/
def exampleRouting : List RecordsAction :=
  let outputs : Writer :=
    { sessionId := "s", author := "model", source := "user", bodyTypes := [.output], callRef_ok := Writer.output_unbound }
  let request (id : String) : AppendRequest :=
    { messageId := id, body := .output ⟨[], .complete, Output.finish_nil⟩ }
  let message (id : String) (seq : Nat) : Message :=
    ⟨id, "s", seq, 0, "model", "user", .output ⟨[], .complete, Output.finish_nil⟩, [], fun _ h => by cases h⟩
  let chat : Sink := { name := "chat", bindingId := "b", address := "1", nonempty := chat_named }
  [.publish ⟨"reply"⟩ outputs 0 (request "m") [chat] false,
   .log (.append outputs 0 (request "n")),
   .consume ⟨"app"⟩ "s" (message "m" 0) (some []) false,
   .consume ⟨"app"⟩ "s" (message "n" 1) (some [chat]) false]

def exampleRouted : Ledger := (recordsMachine.run {} exampleRouting).getD {}

theorem consumed_in_order_example : exampleRouted.seqs "app" "s" = [0, 1] ∧
    exampleRouted.cursor "app" "s" = .ok 1 ∧
    ∃ listed out, (DeliveryRecords.mk "app").pending exampleRouted.outbox listed = .ok out ∧
      ∀ key, key ∈ out ↔ Unsettled exampleRouted.outbox "app" key := by
  have hreach : recordsMachine.Reachable exampleRouted :=
    Machine.reach_getD ⟨⟨rfl, rfl, rfl⟩, rfl, rfl⟩ (fun _ _ _ => trivial) (by decide)
  obtain ⟨hseqs, _, _, _, _, _, ⟨listed, hl⟩, hpending⟩ := consumed_in_order hreach .refl
  obtain ⟨n, hn, hcursor⟩ := hseqs "app" "s"
  have hlist : exampleRouted.seqs "app" "s" = [0, 1] := by decide
  have htwo : n = 2 := by
    have hlen := congrArg List.length (hn.symm.trans hlist)
    simpa using hlen
  subst htwo
  obtain ⟨out, hout, _, hmem⟩ := hpending ⟨"app"⟩ listed hl
  exact ⟨hlist, hcursor, listed, out, hout, hmem⟩

end MonoAgent.Deliveries
