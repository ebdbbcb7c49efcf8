import MonoAgent.Deliveries.Records
import MonoAgent.Session.Reachable

/-!
# Routing skips no message and routes none twice

Any number of owners share the rows.  `Routes` is what a call does to them: a
selection that is there stays, a delivery that is there stays a delivery, and no
cursor moves.  `consume` alone then moves the cursor of its owner, by one message.

`RowsInv` says that a row holds what its key says and that a delivery belongs to a
selection.  `Named` says that a selection names deliveries only, which holds again
at the end of a call that selects.
-/

namespace MonoAgent.Deliveries

open MonoAgent.Lib MonoAgent.Session

/-! ## Rows -/

/-- A row holds what its key says. -/
def Fits (key : Key) (row : Row) : Prop :=
  match key with
  | .selection messageId => messageId ≠ "" ∧ row.version = 0 ∧ ∃ s, row.value = .selection s
  | .delivery _ sink => ∃ d, row.value = .delivery d ∧ d.sink.name = sink
  | .cursor _ _ => ∃ seq : Nat, row.value = .cursor seq
  | _ => True

structure RowsInv (o : Outbox) : Prop where
  log : LogInvariant o.db
  identified : Identified o.db
  fits : ∀ key row, o.rows key = some row → Fits key row
  /-- A delivery belongs to a selection. -/
  selected : ∀ m sink, o.rows (.delivery m sink) ≠ none → o.rows (.selection m) ≠ none
  finite : ∃ keys : List Key, ∀ key, o.rows key ≠ none → key ∈ keys

/-- Every sink that a selection names has a delivery. -/
def Named (o : Outbox) : Prop := ∀ m row s, o.rows (.selection m) = some row →
  row.value = .selection s → ∀ sink ∈ s.sinks, o.rows (.delivery m sink) ≠ none

/-- What was selected or is to be delivered stays, and the cursors do not move. -/
structure Routes (o o' : Outbox) : Prop where
  selections : ∀ m row, o.rows (.selection m) = some row → o'.rows (.selection m) = some row
  deliveries : ∀ m sink, o.rows (.delivery m sink) ≠ none → o'.rows (.delivery m sink) ≠ none
  cursors : ∀ owner sessionId, o'.rows (.cursor owner sessionId) = o.rows (.cursor owner sessionId)

theorem Routes.refl (o : Outbox) : Routes o o :=
  ⟨fun _ _ h => h, fun _ _ h => h, fun _ _ => rfl⟩

theorem Routes.trans {o o' o'' : Outbox} (h : Routes o o') (h' : Routes o' o'') : Routes o o'' :=
  ⟨fun m row hr => h'.selections m row (h.selections m row hr),
    fun m sink hd => h'.deliveries m sink (h.deliveries m sink hd),
    fun owner sid => (h'.cursors owner sid).trans (h.cursors owner sid)⟩

section Save

variable {o o' : Outbox} {key : Key} {value : Value} {expected : Option Nat}

/-- The row that a save writes, and the others. -/
theorem rows_save (h : o.save key value expected = .ok o') :
    o.rows.version? key = expected ∧ o'.db = o.db ∧
      (∃ row, o'.rows key = some row ∧ row.value = value ∧
        row.version = (expected.map (· + 1)).getD 0) ∧
      ∀ other, other ≠ key → o'.rows other = o.rows other := by
  rw [Outbox.save] at h
  split at h
  · next rows hrows =>
      cases h
      obtain ⟨hversion, rfl⟩ := Records.save_eq_some.mp hrows
      refine ⟨hversion, rfl, ⟨_, Function.update_self .., rfl, by rw [hversion]⟩, fun other hne => ?_⟩
      exact Records.put_of_ne hne
  · cases h

/-- A save of what the key says keeps the rows sound. -/
theorem RowsInv.save (h : RowsInv o) (hs : o.save key value expected = .ok o')
    (hfits : Fits key ⟨(expected.map (· + 1)).getD 0, value⟩)
    (hselected : ∀ m sink, key = .delivery m sink → o.rows (.selection m) ≠ none) :
    RowsInv o' := by
  obtain ⟨_, hdb, ⟨row, hrow, rfl, hversion⟩, hother⟩ := rows_save hs
  have hpresent (k : Key) (hk : o.rows k ≠ none) : o'.rows k ≠ none := by
    by_cases heq : k = key
    · simp [heq, hrow]
    · rwa [hother k heq]
  refine ⟨hdb ▸ h.log, hdb ▸ h.identified, fun k r hk => ?_, fun m sink hd => ?_, ?_⟩
  · by_cases heq : k = key
    · subst heq
      cases hrow.symm.trans hk
      rw [← hversion] at hfits
      exact hfits
    · exact h.fits k r ((hother k heq) ▸ hk)
  · refine hpresent _ ?_
    by_cases heq : Key.delivery m sink = key
    · exact hselected m sink heq.symm
    · exact h.selected m sink (hother _ heq ▸ hd)
  · obtain ⟨keys, hkeys⟩ := h.finite
    refine ⟨key :: keys, fun k hk => ?_⟩
    by_cases heq : k = key
    · simp [heq]
    · exact List.mem_cons_of_mem _ (hkeys k (hother k heq ▸ hk))

/-- A save that is not of a selection or a cursor. -/
theorem routes_save (hs : o.save key value expected = .ok o')
    (hselection : ∀ m, key ≠ .selection m) (hcursor : ∀ owner sid, key ≠ .cursor owner sid) :
    Routes o o' := by
  obtain ⟨_, _, ⟨row, hrow, _, _⟩, hother⟩ := rows_save hs
  refine ⟨fun m r hr => ?_, fun m sink hd => ?_, fun owner sid => hother _ (hcursor owner sid).symm⟩
  · rw [hother _ (hselection m).symm]
    exact hr
  · by_cases heq : Key.delivery m sink = key
    · simp [heq, hrow]
    · rwa [hother _ heq]

/-- A selection names what it named. -/
theorem Named.routes (h : Named o) (hr : Routes o o')
    (hold : ∀ m, o'.rows (.selection m) ≠ none → o.rows (.selection m) ≠ none) : Named o' := by
  intro m row s hrow hs sink hsink
  obtain ⟨row₀, hrow₀⟩ := Option.ne_none_iff_exists'.mp (hold m (by simp [hrow]))
  cases (hr.selections m row₀ hrow₀).symm.trans hrow
  exact hr.deliveries m sink (h m row s hrow₀ hs sink hsink)

end Save

/-! ## Reading -/

section Read

variable {o : Outbox} {r : DeliveryRecords}

theorem selection_eq_some (h : RowsInv o) {m : String} {s : Selection} :
    DeliveryRecords.selection o m = .ok (some s) ↔
      ∃ row, o.rows (.selection m) = some row ∧ row.value = .selection s := by
  rw [DeliveryRecords.selection]
  cases hrow : o.rows (.selection m) with
  | none => simp
  | some row =>
      obtain ⟨_, hversion, s', hs'⟩ := h.fits _ row hrow
      simp [hversion, hs', eq_comm]

theorem selection_eq_none (h : RowsInv o) {m : String} :
    DeliveryRecords.selection o m = .ok none ↔ o.rows (.selection m) = none := by
  rw [DeliveryRecords.selection]
  cases hrow : o.rows (.selection m) with
  | none => simp
  | some row =>
      obtain ⟨_, hversion, s', hs'⟩ := h.fits _ row hrow
      simp [hversion, hs']

/-- The cursor counts from before the first message. -/
theorem cursor_eq (h : RowsInv o) (sessionId : String) : ∃ c : Int, -1 ≤ c ∧
    r.cursor o sessionId = .ok c := by
  rw [DeliveryRecords.cursor]
  cases hrow : o.rows (.cursor r.recoveryOwner sessionId) with
  | none => exact ⟨-1, Int.le_refl _, rfl⟩
  | some row =>
      obtain ⟨seq, hseq⟩ := h.fits _ row hrow
      exact ⟨seq, by omega, by simp [hseq]⟩

theorem checkOwner_ok {m : String} {s : Selection} (h : r.checkOwner o m = .ok s) :
    DeliveryRecords.selection o m = .ok (some s) ∧ s.recoveryOwner = r.recoveryOwner := by
  obtain ⟨found, hfound, h⟩ := Except.bind_eq_ok.mp h
  cases found with
  | none => cases h
  | some found =>
      obtain ⟨_, howner, h⟩ := Except.bind_eq_ok.mp h
      cases h
      exact ⟨hfound, ensure_eq_ok.mp howner⟩

/-- The owner of a selection reads each of its deliveries. -/
theorem read_ok (h : RowsInv o) {m sink : String} {s : Selection} {row : Row}
    (hs : DeliveryRecords.selection o m = .ok (some s)) (howner : s.recoveryOwner = r.recoveryOwner)
    (hrow : o.rows (.delivery m sink) = some row) :
    ∃ d, row.value = .delivery d ∧ r.read o m sink = .ok (row, d) := by
  obtain ⟨d, hd, hname⟩ := h.fits _ row hrow
  refine ⟨d, hd, ?_⟩
  have hcheck : r.checkOwner o m = .ok s :=
    Except.bind_eq_ok.mpr ⟨_, hs, Except.bind_eq_ok.mpr ⟨(), ensure_eq_ok.mpr howner, rfl⟩⟩
  refine Except.bind_eq_ok.mpr ⟨s, hcheck, ?_⟩
  rw [hrow]
  refine Except.bind_eq_ok.mpr ⟨d, by rw [hd]; rfl, ?_⟩
  exact Except.bind_eq_ok.mpr ⟨(), ensure_eq_ok.mpr hname, rfl⟩

end Read

/-! ## Calls -/

/-- What a call that moves no cursor leaves. -/
structure Routed (o o' : Outbox) : Prop where
  rows : RowsInv o'
  named : Named o'
  routes : Routes o o'

section Calls

variable {o o' : Outbox} {r : DeliveryRecords}

theorem Routed.refl (h : RowsInv o) (hn : Named o) : Routed o o := ⟨h, hn, .refl o⟩

/-- A delivery is added for a message that is selected. -/
theorem addIn_spec (h : RowsInv o) {m : String} (hsel : o.rows (.selection m) ≠ none) {sink : Sink}
    (ha : r.addIn m o sink = .ok o') : RowsInv o' ∧ Routes o o' ∧
      o'.rows (.delivery m sink.name) ≠ none ∧
      ∀ m', o'.rows (.selection m') = o.rows (.selection m') := by
  rw [DeliveryRecords.addIn] at ha
  split at ha
  · next row hrow =>
      obtain ⟨_, _, ha⟩ := Except.bind_eq_ok.mp ha
      obtain ⟨_, _, ha⟩ := Except.bind_eq_ok.mp ha
      cases ha
      exact ⟨h, .refl o, by simp [hrow], fun _ => rfl⟩
  · have hrows := h.save ha ⟨.prepared sink, rfl, rfl⟩ fun m' sink' heq => by
      cases heq
      exact hsel
    have hroutes := routes_save ha (fun _ heq => by cases heq) fun _ _ heq => by cases heq
    obtain ⟨_, _, ⟨row, hrow, _⟩, hother⟩ := rows_save ha
    exact ⟨hrows, hroutes, by simp [hrow], fun m' => hother _ (by simp)⟩

theorem add_spec (h : RowsInv o) (hn : Named o) {m : String} {sink : Sink}
    (ha : r.add o m sink = .ok o') : Routed o o' := by
  obtain ⟨s, hs, ha⟩ := Except.bind_eq_ok.mp ha
  obtain ⟨row, hrow, _⟩ := (selection_eq_some h).mp (checkOwner_ok hs).1
  obtain ⟨hrows, hroutes, _, hsame⟩ := addIn_spec h (by simp [hrow]) ha
  exact ⟨hrows, hn.routes hroutes fun m' hm => hsame m' ▸ hm, hroutes⟩

/-- All the sinks of a selection, by induction on them. -/
theorem addAll_spec {m : String} {sinks : List Sink} (h : RowsInv o)
    (hsel : o.rows (.selection m) ≠ none) (ha : sinks.foldlM (r.addIn m) o = .ok o') :
    RowsInv o' ∧ Routes o o' ∧ (∀ sink ∈ sinks, o'.rows (.delivery m sink.name) ≠ none) ∧
      ∀ m', o'.rows (.selection m') = o.rows (.selection m') := by
  induction sinks generalizing o with
  | nil =>
      cases ha
      exact ⟨h, .refl _, fun _ hs => (by cases hs), fun _ => rfl⟩
  | cons sink rest ih =>
      rw [List.foldlM_cons] at ha
      obtain ⟨mid, hmid, ha⟩ := Except.bind_eq_ok.mp ha
      obtain ⟨hrows, hroutes, hadded, hsame⟩ := addIn_spec h hsel hmid
      obtain ⟨hrows', hroutes', hadded', hsame'⟩ := ih hrows (by rwa [hsame]) ha
      refine ⟨hrows', hroutes.trans hroutes', fun x hx => ?_, fun m' => (hsame' m').trans (hsame m')⟩
      rcases List.mem_cons.mp hx with rfl | hx
      · exact hroutes'.deliveries m _ hadded
      · exact hadded' x hx

/-- The first routing of a message selects it and prepares its sinks; a later one
changes nothing. -/
theorem prepareIn_spec (h : RowsInv o) (hn : Named o) {message : Message}
    (hid : message.messageId ≠ "") {sinks : List Sink} {passive : Bool} {s : Selection}
    (hp : r.prepareIn o message sinks passive = .ok (o', s)) :
    Routed o o' ∧ DeliveryRecords.selection o' message.messageId = .ok (some s) := by
  obtain ⟨existing, hexisting, hp⟩ := Except.bind_eq_ok.mp hp
  cases existing with
  | some existing =>
      obtain ⟨_, _, hp⟩ := Except.bind_eq_ok.mp hp
      cases hp
      exact ⟨.refl h hn, hexisting⟩
  | none =>
      obtain ⟨mid, hmid, hp⟩ := Except.bind_eq_ok.mp hp
      obtain ⟨last, hlast, hp⟩ := Except.bind_eq_ok.mp hp
      cases hp
      have hnew := (selection_eq_none h).mp hexisting
      have hrows := h.save hmid ⟨hid, rfl, _, rfl⟩ fun _ _ heq => by cases heq
      obtain ⟨_, _, ⟨row, hrow, hvalue, _⟩, hother⟩ := rows_save hmid
      obtain ⟨hrows', hroutes', hadded, hsame⟩ := addAll_spec hrows (by simp [hrow]) hlast
      have hselected : o'.rows (.selection message.messageId) = some row := (hsame _).trans hrow
      have hroutes : Routes o o' := by
        refine ⟨fun m x hx => ?_, fun m sink hd => ?_, fun owner sid => ?_⟩
        · rw [hsame, hother]
          · exact hx
          · intro heq
            cases heq
            cases hnew.symm.trans hx
        · exact hroutes'.deliveries m sink (by rwa [hother _ (by simp)])
        · rw [hroutes'.cursors, hother _ (by simp)]
      refine ⟨⟨hrows', fun m x s hx hs sink hsink => ?_, hroutes⟩, ?_⟩
      · by_cases hm : m = message.messageId
        · subst hm
          cases hselected.symm.trans hx
          cases hvalue.symm.trans hs
          obtain ⟨y, hy, rfl⟩ := List.mem_map.mp hsink
          exact hadded y hy
        · have hold : o.rows (.selection m) = some x := by
            rw [← hother _ (by simpa using hm), ← hsame]
            exact hx
          exact hroutes.deliveries m sink (hn m x s hold hs sink hsink)
      · exact (selection_eq_some hrows').mpr ⟨row, hselected, hvalue⟩

theorem addAll_db {m : String} {sinks : List Sink} (ha : sinks.foldlM (r.addIn m) o = .ok o') :
    o'.db = o.db := by
  induction sinks generalizing o with
  | nil =>
      cases ha
      rfl
  | cons sink rest ih =>
      rw [List.foldlM_cons] at ha
      obtain ⟨mid, hmid, ha⟩ := Except.bind_eq_ok.mp ha
      refine (ih ha).trans ?_
      rw [DeliveryRecords.addIn] at hmid
      split at hmid
      · obtain ⟨_, _, hmid⟩ := Except.bind_eq_ok.mp hmid
        obtain ⟨_, _, hmid⟩ := Except.bind_eq_ok.mp hmid
        cases hmid
        rfl
      · exact (rows_save hmid).2.1

/-- Routing does not touch the log. -/
theorem prepareIn_db {message : Message} {sinks : List Sink} {passive : Bool} {s : Selection}
    (hp : r.prepareIn o message sinks passive = .ok (o', s)) : o'.db = o.db := by
  obtain ⟨existing, _, hp⟩ := Except.bind_eq_ok.mp hp
  cases existing with
  | some existing =>
      obtain ⟨_, _, hp⟩ := Except.bind_eq_ok.mp hp
      cases hp
      rfl
  | none =>
      obtain ⟨mid, hmid, hp⟩ := Except.bind_eq_ok.mp hp
      obtain ⟨last, hlast, hp⟩ := Except.bind_eq_ok.mp hp
      cases hp
      exact (addAll_db hlast).trans (rows_save hmid).2.1

/-- A message that a reader found is in the log. -/
theorem checkMessage_ok {sessionId : String} {message : Message} {sinks : List Sink}
    (h : DeliveryRecords.checkMessage o sessionId message sinks = .ok ()) :
    sessionId = message.sessionId ∧ message ∈ o.db.messages := by
  obtain ⟨_, hfound, _⟩ := Except.bind_eq_ok.mp h
  obtain ⟨hsession, hget⟩ := ensure_eq_ok.mp hfound
  obtain ⟨hmem, _⟩ := Option.filter_eq_some_iff.mp hget
  exact ⟨hsession, List.mem_of_find?_eq_some hmem⟩

theorem prepare_spec (h : RowsInv o) (hn : Named o) {sessionId : String} {message : Message}
    {sinks : List Sink} {passive : Bool} {s : Selection}
    (hp : r.prepare o sessionId message sinks passive = .ok (o', s)) : Routed o o' := by
  obtain ⟨_, hcheck, hp⟩ := Except.bind_eq_ok.mp hp
  obtain ⟨existing, _, hp⟩ := Except.bind_eq_ok.mp hp
  cases existing with
  | some existing =>
      obtain ⟨_, _, hp⟩ := Except.bind_eq_ok.mp hp
      cases hp
      exact .refl h hn
  | none => exact (prepareIn_spec h hn (h.identified _ (checkMessage_ok hcheck).2) hp).1

/-- A write of the log leaves the rows. -/
theorem Routed.log {db : Database} (h : RowsInv o) (hn : Named o) (hlog : LogInvariant db)
    (hid : Identified db) : Routed o { o with db } :=
  ⟨⟨hlog, hid, h.fits, h.selected, h.finite⟩, hn, ⟨fun _ _ h => h, fun _ _ h => h, fun _ _ => rfl⟩⟩

theorem Routed.trans {o'' : Outbox} (h : Routed o o') (h' : Routed o' o'') : Routed o o'' :=
  ⟨h'.rows, h'.named, h.routes.trans h'.routes⟩

/-- An append inside a transaction keeps the log sound and returns one of its messages. -/
theorem appendIn_spec {db : Database} (hlog : LogInvariant db) (hid : Identified db) {w : Writer}
    {now : Instant} {request : AppendRequest} {m : Message} {c : Connection Database}
    (h : Exec.run (w.appendIn now request) ⟨db, some db⟩ = (.ok m, c)) :
    LogInvariant c.current ∧ Identified c.current ∧ m ∈ c.current.messages ∧
      m.messageId = request.messageId := by
  cases (appendIn_post ⟨db, some db⟩).1 m c h with
  | replay hold =>
      obtain ⟨hmem, heq⟩ := hlog.message?_eq_some.mp hold
      exact ⟨hlog, hid, hmem, heq⟩
  | stored hs =>
      refine ⟨hs.invariant hlog, hs.identifies hid, ?_, hs.messageId⟩
      show m ∈ Database.messages _
      rw [Connection.current_opened, hs.messages]
      simp

theorem publish_spec (h : RowsInv o) (hn : Named o) {w : Writer} {now : Instant}
    {request : AppendRequest} {sinks : List Sink} {passive : Bool} {s : Selection}
    (hp : r.publish o w now request sinks passive = .ok (o', s)) : Routed o o' := by
  obtain ⟨_, _, hp⟩ := Except.bind_eq_ok.mp hp
  split at hp
  · cases hp
  · next message c hrun =>
      obtain ⟨hlog, hid, hmem, _⟩ := appendIn_spec h.log h.identified hrun
      have hopen := Routed.log h hn hlog hid
      obtain ⟨existing, _, hp⟩ := Except.bind_eq_ok.mp hp
      cases existing with
      | some existing =>
          obtain ⟨_, _, hp⟩ := Except.bind_eq_ok.mp hp
          cases hp
          exact hopen
      | none => exact hopen.trans (prepareIn_spec hopen.rows hopen.named (hid _ hmem) hp).1

theorem confirm_spec (h : RowsInv o) (hn : Named o) {m sessionId : String} {d : Delivery}
    (hc : DeliveryRecords.confirm m sessionId d o = .ok o') : Routed o o' := by
  -- A save of a row that is read by the confirmations only.
  have hsave {o o' : Outbox} {key : Key} {value : Value} {expected : Option Nat}
      (h : RowsInv o) (hn : Named o) (hs : o.save key value expected = .ok o')
      (hfits : Fits key ⟨(expected.map (· + 1)).getD 0, value⟩)
      (hkey : ∀ m, key ≠ .selection m) (hcursor : ∀ owner sid, key ≠ .cursor owner sid)
      (hdelivery : ∀ m sink, key ≠ .delivery m sink) : Routed o o' := by
    have hroutes := routes_save hs hkey hcursor
    obtain ⟨_, _, _, hother⟩ := rows_save hs
    exact ⟨h.save hs hfits fun m sink heq => absurd heq (hdelivery m sink),
      hn.routes hroutes fun m hm => hother _ (hkey m).symm ▸ hm, hroutes⟩
  rw [DeliveryRecords.confirm] at hc
  split at hc
  · cases hc
    exact .refl h hn
  · split at hc
    · obtain ⟨mid, hmid, hc⟩ := Except.bind_eq_ok.mp hc
      have hfirst : Routed o mid := hsave h hn hmid trivial (by simp) (by simp) (by simp)
      exact hfirst.trans (hsave hfirst.rows hfirst.named hc trivial (by simp) (by simp) (by simp))
    · cases hc
      exact .refl h hn

/-- `save` writes a delivery that is there, whatever record it is given. -/
theorem save_routed (h : RowsInv o) (hn : Named o) {m : String} {previous row : Row} {d : Delivery}
    {now : Instant} (hs : r.save o m previous d now = .ok (o', row)) : Routed o o' := by
  obtain ⟨s, hs₀, hs⟩ := Except.bind_eq_ok.mp hs
  obtain ⟨old, _, hs⟩ := Except.bind_eq_ok.mp hs
  obtain ⟨_, _, hs⟩ := Except.bind_eq_ok.mp hs
  obtain ⟨mid, hmid, hs⟩ := Except.bind_eq_ok.mp hs
  obtain ⟨last, hlast, hs⟩ := Except.bind_eq_ok.mp hs
  cases hs
  obtain ⟨x, hx, _⟩ := (selection_eq_some h).mp (checkOwner_ok hs₀).1
  have hroutes := routes_save hmid (fun _ heq => by cases heq) fun _ _ heq => by cases heq
  obtain ⟨_, _, _, hother⟩ := rows_save hmid
  have hrows := h.save hmid ⟨_, rfl, rfl⟩ fun m' sink heq => by
    cases heq
    simp [hx]
  have hsaved : Routed o mid :=
    ⟨hrows, hn.routes hroutes fun m' hm => hother (.selection m') (by simp) ▸ hm, hroutes⟩
  exact hsaved.trans (confirm_spec hrows hsaved.named hlast)

/-! ## Consuming -/

/-- The first message after a cursor is the next one. -/
theorem following_seq {db : Database} (hlog : LogInvariant db) {sessionId : String} {c : Int}
    (hc : -1 ≤ c) {m : Message}
    (h : (db.snapshot sessionId).find? (fun x => c < x.seq) = some m) : (m.seq : Int) = c + 1 := by
  obtain ⟨hafter, i, hi, hget, hbefore⟩ := List.find?_eq_some_iff_getElem.mp h
  have hwf := hlog.wellFormed sessionId
  have hseq : m.seq = i := hwf.seq_getElem? (List.getElem?_eq_some_iff.mpr ⟨hi, hget⟩)
  have hafter : c < m.seq := by simpa using hafter
  rcases Nat.lt_or_ge (c + 1).toNat i with hlt | hge
  · -- The message at the position after the cursor comes first.
    have hnot := hbefore _ hlt
    have hnext : (db.snapshot sessionId)[(c + 1).toNat].seq = (c + 1).toNat :=
      hwf.seq_getElem? (List.getElem?_eq_getElem (by omega))
    simp only [hnext, Bool.not_eq_true', decide_eq_false_iff_not] at hnot
    omega
  · omega

/-- What `consume` leaves: the cursor of its owner moves by one message or not at all. -/
structure Consumes (r : DeliveryRecords) (sessionId : String) (message : Message)
    (o o' : Outbox) : Prop where
  rows : RowsInv o'
  named : Named o'
  selections : ∀ m row, o.rows (.selection m) = some row → o'.rows (.selection m) = some row
  cursors : ∀ owner sid, (owner, sid) ≠ (r.recoveryOwner, sessionId) →
    o'.rows (.cursor owner sid) = o.rows (.cursor owner sid)
  session : sessionId = message.sessionId
  mem : message ∈ o'.db.messages
  moved : ∃ c : Int, r.cursor o sessionId = .ok c ∧
    (r.cursor o' sessionId = .ok c ∨
      ((message.seq : Int) = c + 1 ∧ r.cursor o' sessionId = .ok message.seq))

theorem cursor_congr {sessionId : String}
    (h : o'.rows (.cursor r.recoveryOwner sessionId) = o.rows (.cursor r.recoveryOwner sessionId)) :
    r.cursor o' sessionId = r.cursor o sessionId := by
  rw [DeliveryRecords.cursor, h, DeliveryRecords.cursor]

/-- The message that is consumed is routed as the caller says, or is already routed. -/
theorem routeConsumed_spec (h : RowsInv o) (hn : Named o) {message : Message}
    (hid : message.messageId ≠ "") {sinks : Option (List Sink)} {passive : Bool}
    {routed : Outbox × Option Selection}
    (hr : r.routeConsumed o message sinks passive = .ok routed) :
    Routed o routed.1 ∧ routed.1.db = o.db ∧
      DeliveryRecords.selection routed.1 message.messageId = .ok routed.2 ∧
      (sinks ≠ none → routed.2 ≠ none) := by
  cases sinks with
  | none =>
      obtain ⟨existing, hexisting, rfl⟩ := Except.map_eq_ok.mp hr
      exact ⟨.refl h hn, rfl, hexisting, fun hne => absurd rfl hne⟩
  | some sinks =>
      obtain ⟨p, hp, rfl⟩ := Except.map_eq_ok.mp hr
      obtain ⟨hrouted, hselected⟩ := prepareIn_spec h hn hid hp
      exact ⟨hrouted, prepareIn_db hp, hselected, fun _ => Option.some_ne_none _⟩

theorem consume_spec (h : RowsInv o) (hn : Named o) {sessionId : String} {message : Message}
    {sinks : Option (List Sink)} {passive : Bool} {selected : Option Selection}
    (hc : r.consume o sessionId message sinks passive = .ok (o', selected)) :
    Consumes r sessionId message o o' ∧
      DeliveryRecords.selection o' message.messageId = .ok selected ∧
      (sinks ≠ none → selected ≠ none) := by
  obtain ⟨_, hcheck, hc⟩ := Except.bind_eq_ok.mp hc
  obtain ⟨hsession, hmem⟩ := checkMessage_ok hcheck
  obtain ⟨cursor, hcursor, hc⟩ := Except.bind_eq_ok.mp hc
  split at hc
  · obtain ⟨existing, hexisting, hc⟩ := Except.bind_eq_ok.mp hc
    obtain ⟨_, hasked, hc⟩ := Except.bind_eq_ok.mp hc
    cases hc
    refine ⟨⟨h, hn, fun _ _ h => h, fun _ _ _ => rfl, hsession, hmem, cursor, hcursor,
      Or.inl hcursor⟩, hexisting, fun hne => ?_⟩
    rcases ensure_eq_ok.mp hasked with hsome | hnone
    · exact hsome
    · exact absurd hnone hne
  · obtain ⟨_, hnext, hc⟩ := Except.bind_eq_ok.mp hc
    obtain ⟨routed, hrouted, hc⟩ := Except.bind_eq_ok.mp hc
    obtain ⟨last, hlast, hc⟩ := Except.bind_eq_ok.mp hc
    cases hc
    obtain ⟨hroute, hdb, hselected, hsome⟩ :=
      routeConsumed_spec h hn (h.identified _ hmem) hrouted
    obtain ⟨c, hle, hc⟩ := cursor_eq h (r := r) sessionId
    cases hcursor.symm.trans hc
    have hseq := following_seq h.log hle (ensure_eq_ok.mp hnext)
    have hrows := hroute.rows.save hlast ⟨message.seq, rfl⟩ fun _ _ heq => by cases heq
    obtain ⟨_, hdb', ⟨row, hrow, hvalue, _⟩, hother⟩ := rows_save hlast
    have hselections (m : String) : o'.rows (.selection m) = routed.1.rows (.selection m) :=
      hother _ (by simp)
    have hnamed : Named o' := by
      intro m x s hx hs sink hsink
      rw [hother _ (by simp)]
      exact hroute.named m x s (hselections m ▸ hx) hs sink hsink
    refine ⟨⟨hrows, hnamed, fun m x hx => ?_, fun owner sid hne => ?_, hsession, ?_, cursor, hcursor,
      Or.inr ⟨hseq, ?_⟩⟩, ?_, hsome⟩
    · rw [hselections]
      exact hroute.routes.selections m x hx
    · rw [hother _ (by simpa using hne), hroute.routes.cursors]
    · rw [hdb', hdb]
      exact hmem
    · rw [DeliveryRecords.cursor, hrow]
      simp [hvalue]
    · rw [DeliveryRecords.selection, hselections, ← DeliveryRecords.selection]
      exact hselected

end Calls

end MonoAgent.Deliveries
