import MonoAgent.Deliveries.History

/-!
# First confirmations are indexed once

Only `save` writes the rows of the confirmations: the first save that leaves a delivery of a
message delivered writes the row of the message and the row of its time, and no later one does.
Every other call leaves these rows and the messages that selections refer to (`Quiet`).
-/

namespace MonoAgent.Deliveries

open MonoAgent.Lib MonoAgent.Session

/-- A selection is one of a message of its Session. -/
def Sourced (o : Outbox) : Prop := ∀ m row selection, o.rows (.selection m) = some row →
  row.value = .selection selection → ∃ x ∈ o.db.messages, x.messageId = m ∧ x.sessionId = selection.sessionId

/-- What every call but `save` does to the confirmations: nothing. -/
structure Quiet (o o' : Outbox) : Prop where
  grows : ∀ x ∈ o.db.messages, x ∈ o'.db.messages
  messages : ∀ m, o'.rows (.confirmedMessage m) = o.rows (.confirmedMessage m)
  times : ∀ time m, o'.rows (.confirmedTime time m) = o.rows (.confirmedTime time m)
  sourced : Sourced o → Sourced o'

section Calls

variable {o o' o'' : Outbox} {r : DeliveryRecords} {message : Message} {sinks : List Sink} {passive : Bool}

theorem Quiet.refl (o : Outbox) : Quiet o o := ⟨fun _ h => h, fun _ => rfl, fun _ _ => rfl, fun h => h⟩

theorem Quiet.trans (h : Quiet o o') (h' : Quiet o' o'') : Quiet o o'' :=
  ⟨fun x hx => h'.grows x (h.grows x hx), fun m => (h'.messages m).trans (h.messages m),
    fun time m => (h'.times time m).trans (h.times time m), fun hs => h'.sourced (h.sourced hs)⟩

/-- A save under a key that no confirmation has. -/
theorem quiet_save {key : Key} {value : Value} {expected : Option Nat} (h : o.save key value expected = .ok o')
    (hmessage : ∀ m, key ≠ .confirmedMessage m) (htime : ∀ time m, key ≠ .confirmedTime time m)
    (hselection : ∀ m selection, key = .selection m → value = .selection selection →
      ∃ x ∈ o.db.messages, x.messageId = m ∧ x.sessionId = selection.sessionId) : Quiet o o' := by
  obtain ⟨_, hdb, ⟨row, hrow, hvalue, _⟩, hother⟩ := rows_save h
  refine ⟨fun x hx => hdb.symm ▸ hx, fun m => hother _ (hmessage m).symm, fun time m => hother _ (htime time m).symm,
    fun hs m row' selection hrow' hsel => ?_⟩
  rw [hdb]
  by_cases hk : Key.selection m = key
  · rw [hk, hrow] at hrow'
    cases hrow'
    exact hselection m selection hk.symm (hvalue ▸ hsel)
  · rw [hother _ hk] at hrow'
    exact hs m row' selection hrow' hsel

theorem addIn_quiet {m : String} {sink : Sink} (h : r.addIn m o sink = .ok o') : Quiet o o' := by
  rw [DeliveryRecords.addIn] at h
  split at h
  · obtain ⟨_, _, h⟩ := Except.bind_eq_ok.mp h
    obtain ⟨_, _, h⟩ := Except.bind_eq_ok.mp h
    cases h
    exact .refl o
  · exact quiet_save h (by simp) (by simp) (by simp)

theorem addAll_quiet {m : String} (h : sinks.foldlM (r.addIn m) o = .ok o') : Quiet o o' := by
  induction sinks generalizing o with
  | nil =>
      cases h
      exact .refl o'
  | cons sink rest ih =>
      rw [List.foldlM_cons] at h
      obtain ⟨mid, hmid, h⟩ := Except.bind_eq_ok.mp h
      exact (addIn_quiet hmid).trans (ih h)

theorem prepareIn_quiet {s : Selection} (hmem : message ∈ o.db.messages)
    (h : r.prepareIn o message sinks passive = .ok (o', s)) : Quiet o o' := by
  obtain ⟨existing, _, h⟩ := Except.bind_eq_ok.mp h
  cases existing with
  | some existing =>
      obtain ⟨_, _, h⟩ := Except.bind_eq_ok.mp h
      cases h
      exact .refl o
  | none =>
      obtain ⟨mid, hmid, h⟩ := Except.bind_eq_ok.mp h
      obtain ⟨last, hlast, h⟩ := Except.bind_eq_ok.mp h
      cases h
      have hfirst : Quiet o mid := by
        refine quiet_save hmid (by simp) (by simp) fun m selection hkey hvalue => ?_
        cases hkey
        cases hvalue
        exact ⟨message, hmem, rfl, rfl⟩
      exact hfirst.trans (addAll_quiet hlast)

theorem prepare_quiet {sessionId : String} {s : Selection}
    (h : r.prepare o sessionId message sinks passive = .ok (o', s)) : Quiet o o' := by
  obtain ⟨_, hcheck, h⟩ := Except.bind_eq_ok.mp h
  obtain ⟨existing, _, h⟩ := Except.bind_eq_ok.mp h
  cases existing with
  | some existing =>
      obtain ⟨_, _, h⟩ := Except.bind_eq_ok.mp h
      cases h
      exact .refl o
  | none => exact prepareIn_quiet (checkMessage_ok hcheck).2 h

/-- A log that grows. -/
theorem quiet_log {db : Database} (h : ∀ x ∈ o.db.messages, x ∈ db.messages) : Quiet o { o with db } := by
  refine ⟨h, fun _ => rfl, fun _ _ => rfl, fun hs m row selection hrow hvalue => ?_⟩
  obtain ⟨x, hx, hid, hsession⟩ := hs m row selection hrow hvalue
  exact ⟨x, h x hx, hid, hsession⟩

theorem appendIn_quiet {w : Writer} {now : Instant} {request : AppendRequest} {m : Message} {c : Connection Database}
    (h : Exec.run (w.appendIn now request) ⟨o.db, some o.db⟩ = (.ok m, c)) :
    Quiet o { o with db := c.current } ∧ m ∈ c.current.messages := by
  cases (appendIn_post ⟨o.db, some o.db⟩).1 m c h with
  | replay hold => exact ⟨.refl o, List.mem_of_find?_eq_some hold⟩
  | stored hs =>
      rw [Connection.current_opened]
      refine ⟨quiet_log fun x hx => ?_, ?_⟩
      · rw [hs.messages]
        exact List.mem_append_left _ hx
      · rw [hs.messages]
        simp

theorem publish_quiet {w : Writer} {now : Instant} {request : AppendRequest} {s : Selection}
    (h : r.publish o w now request sinks passive = .ok (o', s)) : Quiet o o' := by
  obtain ⟨_, _, h⟩ := Except.bind_eq_ok.mp h
  split at h
  · cases h
  · next m c hrun =>
      obtain ⟨hquiet, hmem⟩ := appendIn_quiet hrun
      obtain ⟨existing, _, h⟩ := Except.bind_eq_ok.mp h
      cases existing with
      | some existing =>
          obtain ⟨_, _, h⟩ := Except.bind_eq_ok.mp h
          cases h
          exact hquiet
      | none => exact hquiet.trans (prepareIn_quiet hmem h)

theorem consume_quiet {sessionId : String} {sinks : Option (List Sink)} {selected : Option Selection}
    (h : r.consume o sessionId message sinks passive = .ok (o', selected)) : Quiet o o' := by
  obtain ⟨_, hcheck, h⟩ := Except.bind_eq_ok.mp h
  obtain ⟨cursor, _, h⟩ := Except.bind_eq_ok.mp h
  split at h
  · obtain ⟨_, _, h⟩ := Except.bind_eq_ok.mp h
    obtain ⟨_, _, h⟩ := Except.bind_eq_ok.mp h
    cases h
    exact .refl o
  · obtain ⟨_, _, h⟩ := Except.bind_eq_ok.mp h
    obtain ⟨routed, hrouted, h⟩ := Except.bind_eq_ok.mp h
    obtain ⟨last, hlast, h⟩ := Except.bind_eq_ok.mp h
    cases h
    have hroute : Quiet o routed.1 := by
      cases sinks with
      | none =>
          obtain ⟨_, _, rfl⟩ := Except.map_eq_ok.mp hrouted
          exact .refl o
      | some sinks =>
          obtain ⟨p, hp, rfl⟩ := Except.map_eq_ok.mp hrouted
          exact prepareIn_quiet (checkMessage_ok hcheck).2 hp
    exact hroute.trans (quiet_save hlast (by simp) (by simp) (by simp))

theorem add_quiet {m : String} {sink : Sink} (h : r.add o m sink = .ok o') : Quiet o o' := by
  obtain ⟨_, _, h⟩ := Except.bind_eq_ok.mp h
  exact addIn_quiet h

end Calls

/-! ## Saving -/

/-- What a save does: at most it adds the two rows of a first confirmation. -/
structure Confirms (o o' : Outbox) (m sessionId : String) (time : Option Instant) : Prop where
  db : o'.db = o.db
  messages : ∀ m', m' ≠ m → o'.rows (.confirmedMessage m') = o.rows (.confirmedMessage m')
  times : ∀ t m', (∀ time' ∈ time, o.rows (.confirmedMessage m) = none → (t, m') ≠ (time', m)) →
    o'.rows (.confirmedTime t m') = o.rows (.confirmedTime t m')
  kept : o.rows (.confirmedMessage m) ≠ none ∨ time = none →
    o'.rows (.confirmedMessage m) = o.rows (.confirmedMessage m)
  first : ∀ time' ∈ time, o.rows (.confirmedMessage m) = none → o'.rows (.confirmedMessage m) ≠ none ∧
    o'.rows (.confirmedTime time' m) = some ⟨0, .confirmation ⟨m, sessionId, time'⟩⟩
  selections : ∀ m', o'.rows (.selection m') = o.rows (.selection m')

section Save

variable {o o' : Outbox} {r : DeliveryRecords} {m sessionId : String}

theorem confirm_confirms {d : Delivery} (h : DeliveryRecords.confirm m sessionId d o = .ok o') :
    Confirms o o' m sessionId d.confirmedAt := by
  rw [DeliveryRecords.confirm] at h
  cases htime : d.confirmedAt with
  | none =>
      rw [htime] at h
      cases h
      exact ⟨rfl, fun _ _ => rfl, fun _ _ _ => rfl, fun _ => rfl, fun _ h => (by cases h), fun _ => rfl⟩
  | some time =>
      rw [htime] at h
      dsimp only at h
      split at h
      · next hnew =>
          obtain ⟨mid, hmid, h⟩ := Except.bind_eq_ok.mp h
          obtain ⟨_, hdb, ⟨row, hrow, _, _⟩, hother⟩ := rows_save hmid
          obtain ⟨_, hdb', ⟨row', hrow', hvalue', hversion'⟩, hother'⟩ := rows_save h
          refine ⟨hdb'.trans hdb, fun m' hne => ?_, fun t m' hne => ?_, fun h => ?_, fun time' htime' _ => ?_, fun m' => ?_⟩
          · rw [hother' _ (by simp), hother _ (by simpa using hne)]
          · rw [hother' _ (by simpa using hne time rfl hnew), hother _ (by simp)]
          · rcases h with h | h
            · exact absurd hnew h
            · cases h
          · cases htime'
            refine ⟨by rw [hother' _ (by simp), hrow]; simp, ?_⟩
            rw [hrow']
            cases row'
            cases hvalue'
            cases hversion'
            rfl
          · rw [hother' _ (by simp), hother _ (by simp)]
      · next hold =>
          cases h
          exact ⟨rfl, fun _ _ => rfl, fun _ _ _ => rfl, fun _ => rfl, fun _ _ h => absurd h hold, fun _ => rfl⟩

theorem save_confirms {previous row : Row} {d : Delivery} {now : Instant}
    (h : r.save o m previous d now = .ok (o', row)) : ∃ selection, r.checkOwner o m = .ok selection ∧
      Confirms o o' m selection.sessionId (Row.confirmedAt row) := by
  obtain ⟨selection, hselection, h⟩ := Except.bind_eq_ok.mp h
  obtain ⟨old, _, h⟩ := Except.bind_eq_ok.mp h
  obtain ⟨_, _, h⟩ := Except.bind_eq_ok.mp h
  obtain ⟨mid, hmid, h⟩ := Except.bind_eq_ok.mp h
  obtain ⟨last, hlast, h⟩ := Except.bind_eq_ok.mp h
  cases h
  obtain ⟨_, hdb, _, hother⟩ := rows_save hmid
  have hconfirms := confirm_confirms hlast
  have hmessage : mid.rows (.confirmedMessage m) = o.rows (.confirmedMessage m) := hother _ (by simp)
  refine ⟨selection, hselection, hconfirms.db.trans hdb, fun m' hne => ?_, fun t m' hne => ?_, fun h => ?_,
    fun time htime hnew => ?_, fun m' => ?_⟩
  · rw [hconfirms.messages m' hne, hother _ (by simp)]
  · rw [hconfirms.times t m' (by rwa [hmessage]), hother _ (by simp)]
  · rw [hconfirms.kept (by rwa [hmessage]), hmessage]
  · exact hconfirms.first time htime (hmessage.trans hnew)
  · rw [hconfirms.selections m', hother _ (by simp)]

end Save

/-! ## The invariant -/

/-- The index of first confirmations. -/
structure HistoryInv (s : History) : Prop where
  ledger : LedgerInv s.ledger
  sourced : Sourced s.ledger.outbox
  absent : ∀ m, s.ledger.outbox.rows (.confirmedMessage m) = none ↔ s.first m = none
  written : ∀ m time, s.first m = some time → IsTime time ∧ ∃ x ∈ s.ledger.outbox.db.messages, x.messageId = m ∧
    s.ledger.outbox.rows (.confirmedTime time m) = some ⟨0, .confirmation ⟨m, x.sessionId, time⟩⟩
  only : ∀ time m, s.ledger.outbox.rows (.confirmedTime time m) ≠ none → s.first m = some time

section Steps

variable {s t : History}

theorem historyInv_start (h : historyMachine.start s) : HistoryInv s := by
  obtain ⟨hledger, hconfirmed⟩ := h
  have hrows (key : Key) : s.ledger.outbox.rows key = none := by rw [hledger.2.1]
  have hfirst (m : String) : s.first m = none := by rw [History.first, hconfirmed]; rfl
  refine ⟨ledgerInv_start hledger, fun m row selection hrow => ?_, fun m => iff_of_true (hrows _) (hfirst m),
    fun m time h => ?_, fun time m h => absurd (hrows _) h⟩
  · cases (hrows _).symm.trans hrow
  · cases (hfirst m).symm.trans h

/-- A step that leaves the confirmations. -/
theorem HistoryInv.quiet (h : HistoryInv s) {ledger : Ledger} (hledger : LedgerInv ledger)
    (hquiet : Quiet s.ledger.outbox ledger.outbox) : HistoryInv { s with ledger } := by
  refine ⟨hledger, hquiet.sourced h.sourced, fun m => ?_, fun m time hfirst => ?_, fun time m hrow => ?_⟩
  · rw [hquiet.messages]
    exact h.absent m
  · obtain ⟨htime, x, hx, hid, hrow⟩ := h.written m time hfirst
    exact ⟨htime, x, hquiet.grows x hx, hid, (hquiet.times time m).trans hrow⟩
  · rw [hquiet.times] at hrow
    exact h.only time m hrow

theorem first_append {m : String} {time : Option Instant} (m' : String) :
    (s.confirmed ++ time.toList.map fun t => (m, t)).lookup m' =
      (s.first m').or (if m' = m then time else none) := by
  rw [List.lookup_append, History.first]
  cases time with
  | none => simp
  | some time =>
      by_cases h : m' = m
      · simp [h]
      · simp [h, List.lookup, beq_eq_false_iff_ne.mpr h]

/-- A save that is committed. -/
theorem HistoryInv.saved (h : HistoryInv s) {r : DeliveryRecords} {o : Outbox} {m : String} {previous row : Row}
    {d : Delivery} {now : Instant} (hsave : r.save s.ledger.outbox m previous d now = .ok (o, row))
    (hledger : LedgerInv { s.ledger with outbox := o }) (htimely : ∀ time ∈ Row.confirmedAt row, IsTime time) :
    HistoryInv ⟨{ s.ledger with outbox := o },
      s.confirmed ++ (Row.confirmedAt row).toList.map fun time => (m, time)⟩ := by
  obtain ⟨selection, hselection, hconfirms⟩ := save_confirms hsave
  obtain ⟨x, hx, hid, hsession⟩ : ∃ x ∈ s.ledger.outbox.db.messages, x.messageId = m ∧
      x.sessionId = selection.sessionId := by
    obtain ⟨row, hrow, hvalue⟩ := (selection_eq_some h.ledger.rows).mp (checkOwner_ok hselection).1
    exact h.sourced m row selection hrow hvalue
  refine ⟨hledger, fun m' row' sel hrow hvalue => ?_, fun m' => ?_, fun m' time hfirst => ?_, fun time m' hrow => ?_⟩
  · rw [hconfirms.selections] at hrow
    rw [hconfirms.db]
    exact h.sourced m' row' sel hrow hvalue
  · rw [History.first, first_append]
    by_cases hm : m' = m
    · subst hm
      rw [if_pos rfl]
      cases hfirst : s.first m' with
      | some time =>
          have hthere : s.ledger.outbox.rows (.confirmedMessage m') ≠ none := fun hnone => by
            rw [(h.absent m').mp hnone] at hfirst
            cases hfirst
          rw [hconfirms.kept (Or.inl hthere)]
          exact iff_of_false hthere (by simp)
      | none =>
          have hnone := (h.absent m').mpr hfirst
          cases htime : Row.confirmedAt row with
          | none =>
              rw [hconfirms.kept (Or.inr htime)]
              exact iff_of_true hnone (by simp)
          | some time => exact iff_of_false (hconfirms.first time htime hnone).1 (by simp)
    · rw [if_neg hm, hconfirms.messages m' hm, Option.or_none]
      exact h.absent m'
  · rw [History.first, first_append] at hfirst
    cases hold : s.first m' with
    | some time' =>
        rw [hold] at hfirst
        cases hfirst
        obtain ⟨htime, y, hy, hyid, hrow⟩ := h.written m' time hold
        refine ⟨htime, y, hconfirms.db.symm ▸ hy, hyid, (hconfirms.times time m' fun time' _ hnone heq => ?_).trans hrow⟩
        cases heq
        rw [(h.absent _).mp hnone] at hold
        cases hold
    | none =>
        rw [hold, Option.none_or] at hfirst
        split at hfirst
        · next hm =>
            subst hm
            have hrow := (hconfirms.first time hfirst ((h.absent _).mpr hold)).2
            exact ⟨htimely time hfirst, x, hconfirms.db.symm ▸ hx, hid, hsession ▸ hrow⟩
        · cases hfirst
  · rw [History.first, first_append]
    by_cases hnew : m' = m ∧ Row.confirmedAt row = some time ∧ s.first m = none
    · obtain ⟨rfl, htime, hnone⟩ := hnew
      rw [hnone, if_pos rfl, htime, Option.none_or]
    · have hsame : o.rows (.confirmedTime time m') = s.ledger.outbox.rows (.confirmedTime time m') := by
        refine hconfirms.times time m' fun time' htime' hnone heq => hnew ?_
        cases heq
        exact ⟨rfl, htime', (h.absent m).mp hnone⟩
      rw [hsame] at hrow
      rw [h.only time m' hrow, Option.some_or]

theorem stamp_timely {old d : Delivery} {now : Instant} (hnow : IsTime now) (hd : ∀ time ∈ d.confirmedAt, IsTime time) :
    ∀ time ∈ (DeliveryRecords.stamp old d now).confirmedAt, IsTime time := by
  rw [DeliveryRecords.stamp]
  split
  · intro time htime
    cases htime
    exact hnow
  · exact hd

theorem save_timely {r : DeliveryRecords} {o o' : Outbox} {m : String} {previous row : Row} {d : Delivery} {now : Instant}
    (h : r.save o m previous d now = .ok (o', row)) (hnow : IsTime now) (hd : ∀ time ∈ d.confirmedAt, IsTime time) :
    ∀ time ∈ Row.confirmedAt row, IsTime time := by
  obtain ⟨_, _, h⟩ := Except.bind_eq_ok.mp h
  obtain ⟨_, _, h⟩ := Except.bind_eq_ok.mp h
  obtain ⟨_, _, h⟩ := Except.bind_eq_ok.mp h
  obtain ⟨_, _, h⟩ := Except.bind_eq_ok.mp h
  obtain ⟨_, _, h⟩ := Except.bind_eq_ok.mp h
  cases h
  exact stamp_timely hnow hd

/-- A call that is no save. -/
theorem HistoryInv.call (h : HistoryInv s) {α : Type} {x : Except Error (Outbox × α)}
    (hledger : LedgerInv (s.ledger.call x)) (hx : ∀ o a, x = .ok (o, a) → Quiet s.ledger.outbox o) :
    HistoryInv ⟨s.ledger.call x, s.confirmed⟩ := by
  refine h.quiet hledger ?_
  cases x with
  | error e => exact .refl _
  | ok p => exact hx p.1 p.2 rfl

theorem historyInv_next (h : HistoryInv s) {a : RecordsAction} (hok : Timely s a)
    (hn : historyMachine.next s a = some t) : HistoryInv t := by
  obtain ⟨ledger, hnext, rfl⟩ := Option.map_eq_some_iff.mp hn
  have hledger := (ledgerInv_next h.ledger hnext).1
  cases a with
  | log a =>
      have hnext : (logMachine.next s.ledger.outbox.db a).map
        (fun db => { s.ledger with outbox := { s.ledger.outbox with db } }) = some ledger := hnext
      obtain ⟨db, hdb, rfl⟩ := Option.map_eq_some_iff.mp hnext
      show HistoryInv ⟨_, s.confirmed ++ []⟩
      rw [List.append_nil]
      refine h.quiet hledger (quiet_log fun x hx => ?_)
      have hin := (snapshot_grows hdb x.sessionId).subset (LogInvariant.mem_snapshot.mpr ⟨hx, rfl⟩)
      exact (LogInvariant.mem_snapshot.mp hin).1
  | prepare r sessionId message sinks passive =>
      cases hnext
      show HistoryInv ⟨_, s.confirmed ++ []⟩
      rw [List.append_nil]
      exact h.call hledger fun _ _ hx => prepare_quiet hx
  | publish r w now request sinks passive =>
      cases hnext
      show HistoryInv ⟨_, s.confirmed ++ []⟩
      rw [List.append_nil]
      exact h.call hledger fun _ _ hx => publish_quiet hx
  | consume r sessionId message sinks passive =>
      cases hnext
      show HistoryInv ⟨_, s.confirmed ++ []⟩
      rw [List.append_nil]
      refine h.quiet hledger ?_
      rw [Ledger.consume]
      split
      · next hc => exact consume_quiet hc
      · exact .refl _
  | add r messageId sink =>
      cases hnext
      show HistoryInv ⟨_, s.confirmed ++ []⟩
      rw [List.append_nil]
      refine h.call hledger fun o _ hx => ?_
      obtain ⟨o', ho', heq⟩ := Except.map_eq_ok.mp hx
      cases heq
      exact add_quiet ho'
  | save r messageId previous delivery now =>
      cases hnext
      rw [confirmations]
      cases hsave : r.save s.ledger.outbox messageId previous delivery now with
      | error e =>
          dsimp only
          rw [List.append_nil]
          exact h
      | ok p =>
          rw [hsave] at hledger
          exact h.saved hsave hledger (save_timely hsave hok.1 hok.2)

theorem reachable_historyInv (h : historyMachine.Reach Timely s) : HistoryInv s :=
  h.invariant (fun _ => historyInv_start) fun _ _ _ hs hok hn => historyInv_next hs hok hn

end Steps

end MonoAgent.Deliveries
