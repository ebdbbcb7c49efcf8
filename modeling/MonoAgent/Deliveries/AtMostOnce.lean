import MonoAgent.Deliveries.Execution

/-!
# A delivery is sent at most once in an epoch

`LaneStep` says once what a step can do to one delivery: move its task, re-arm or
withdraw it, settle it, commit `started`, or call the sender.  Each write is a
save on the row it was decided on, by the rule of versioned records.

`LaneInv` relates the task to the row.  From the two of them: a call follows a
committed `started`, which for a sender that is not idempotent is committed once
in an epoch, and a delivered or failed row is final.
-/

namespace MonoAgent.Deliveries

open MonoAgent.Lib MonoAgent.Session

/-! ## Saving a row -/

section Save

variable {o o' : Outbox} {r : DeliveryRecords}

theorem save_eq_ok {key : Key} {value : Value} {expected : Option Nat}
    (h : o.save key value expected = .ok o') :
    o.rows.save key value expected = some o'.rows := by
  rw [Outbox.save] at h
  split at h
  · next rows hrows =>
      cases h
      exact hrows
  · cases h

/-- A save leaves the rows under the other keys. -/
theorem save_other {key : Key} {value : Value} {expected : Option Nat}
    (h : o.save key value expected = .ok o') {other : Key} (hne : other ≠ key) :
    o'.rows other = o.rows other := by
  obtain ⟨_, hrows⟩ := Records.save_eq_some.mp (save_eq_ok h)
  rw [← hrows]
  exact Records.put_of_ne hne

theorem confirm_delivery {messageId sessionId : String} {delivery : Delivery}
    (h : DeliveryRecords.confirm messageId sessionId delivery o = .ok o') (m sink : String) :
    o'.rows (.delivery m sink) = o.rows (.delivery m sink) := by
  rw [DeliveryRecords.confirm] at h
  split at h
  · cases h
    rfl
  · split at h
    · obtain ⟨mid, hmid, h⟩ := Except.bind_eq_ok.mp h
      rw [save_other h (by simp), save_other hmid (by simp)]
    · cases h
      rfl

/-- Only a delivery that becomes delivered gets a time, and nothing else changes. -/
theorem stamp_fields (old delivery : Delivery) (now : Instant) :
    let stamped := DeliveryRecords.stamp old delivery now
    stamped.sink = delivery.sink ∧ stamped.phase = delivery.phase ∧
      (delivery.phase ≠ .ended .delivered → stamped = delivery) := by
  intro stamped
  by_cases h : delivery.phase = .ended .delivered ∧ old.phase ≠ .ended .delivered
  · have hs : stamped = { delivery with confirmedAt := some now, confirmed_ok := fun _ => h.1 } :=
      dif_pos h
    rw [hs]
    exact ⟨rfl, rfl, fun hne => absurd h.1 hne⟩
  · have hs : stamped = delivery := dif_neg h
    rw [hs]
    exact ⟨rfl, rfl, fun _ => rfl⟩

/-- A save goes through on the row it was decided on, and changes no other delivery. -/
theorem save_spec {messageId name : String} {row row' : Row} {delivery : Delivery}
    {now : Instant} (h : r.save o messageId row delivery now = .ok (o', row'))
    (hname : delivery.sink.name = name) (hsaw : o.rows.Saw (.delivery messageId name) row) :
    o.rows (.delivery messageId name) = some row ∧
      o'.rows (.delivery messageId name) = some row' ∧
      (∃ saved : Delivery, row' = ⟨row.version + 1, .delivery saved⟩ ∧
        saved.sink = delivery.sink ∧ saved.phase = delivery.phase ∧
        (delivery.phase ≠ .ended .delivered → saved = delivery)) ∧
      ∀ m sink, (m, sink) ≠ (messageId, name) →
        o'.rows (.delivery m sink) = o.rows (.delivery m sink) := by
  obtain ⟨_, _, h⟩ := Except.bind_eq_ok.mp h
  obtain ⟨old, _, h⟩ := Except.bind_eq_ok.mp h
  obtain ⟨_, _, h⟩ := Except.bind_eq_ok.mp h
  obtain ⟨mid, hmid, h⟩ := Except.bind_eq_ok.mp h
  obtain ⟨last, hlast, h⟩ := Except.bind_eq_ok.mp h
  cases h
  obtain ⟨hsink, hphase, hsame⟩ := stamp_fields old delivery now
  rw [hsink, hname] at hmid
  obtain ⟨hrow, hput⟩ := hsaw.save (save_eq_ok hmid)
  refine ⟨hrow, ?_, ⟨_, rfl, hsink, hphase, hsame⟩, fun m sink hne => ?_⟩
  · rw [confirm_delivery hlast, hput, Records.put_present hrow]
  · rw [confirm_delivery hlast, save_other hmid (by simpa using hne)]

/-- What `read` returns is the row. -/
theorem read_spec {messageId sink : String} {row : Row} {delivery : Delivery}
    (h : r.read o messageId sink = .ok (row, delivery)) :
    o.rows (.delivery messageId sink) = some row ∧ row.value = .delivery delivery ∧
      delivery.sink.name = sink := by
  obtain ⟨_, _, h⟩ := Except.bind_eq_ok.mp h
  split at h
  · cases h
  · next row₀ hrow =>
      obtain ⟨found, hfound, h⟩ := Except.bind_eq_ok.mp h
      obtain ⟨_, hname, h⟩ := Except.bind_eq_ok.mp h
      cases h
      refine ⟨hrow, ?_, ensure_eq_ok.mp hname⟩
      cases hv : row.value with
      | delivery d =>
          rw [hv] at hfound
          cases hfound
          rfl
      | _ =>
          rw [hv] at hfound
          cases hfound

end Save

/-! ## The steps of a lane -/

/-- The row was `h.row` at some time, and held `h.delivery`. -/
structure Read (row : Option Row) (name : String) (h : Held) : Prop where
  seen : ∃ cur, row = some cur ∧ (cur = h.row ∨ h.row.version < cur.version)
  value : h.row.value = .delivery h.delivery
  name : h.delivery.sink.name = name

/-- What the place of a task says about the row. -/
def PcInv (row : Option Row) (name : String) : Pc → Prop
  | .begin => True
  | .exclusive => True
  | .opening held => Read row name held ∧ held.delivery.phase.terminal = false
  | .querying held => Read row name held ∧ held.delivery.phase = .started
  | .calling held => row = some held.row ∧ held.row.value = .delivery held.delivery ∧
      held.delivery.sink.name = name ∧ held.delivery.phase = .started
  | .sending held => row = some held.row ∧ held.row.value = .delivery held.delivery ∧
      held.delivery.sink.name = name ∧ held.delivery.phase = .started
  | .closing => True

structure LaneInv (row : Option Row) (name : String) (l : Lane) : Prop where
  absent : row = none → l = {}
  value : ∀ r, row = some r → ∃ d, r.value = .delivery d ∧ d.sink.name = name
  held : ∀ t, l.task = some t → PcInv row name t.pc

/-- What a step can do to one delivery. -/
inductive LaneStep (idempotent : String → Bool) (name : String) (row : Option Row) (l : Lane) :
    Option Row → Lane → Prop where
  /-- Only the task moves, not to a call. -/
  | moved (task : Option SendTask) (habsent : row = none → task = none)
      (hpc : ∀ t, task = some t → PcInv row name t.pc)
      (hcall : ∀ t h, task = some t → t.pc = .calling h → ∃ u, l.task = some u ∧ u.pc = .calling h) :
      LaneStep idempotent name row l row { l with task := task }
  | created (sink : Sink) (hrow : row = none) (hname : sink.name = name) :
      LaneStep idempotent name row l (some ⟨0, .delivery (.prepared sink)⟩) l
  | rearmed {r : Row} {d d' : Delivery} (hrow : row = some r) (hd : r.value = .delivery d)
      (hphase : d.phase = .ended .rejected) (htask : l.task = none) (hsink : d'.sink = d.sink)
      (hphase' : d'.phase = .prepared) :
      LaneStep idempotent name row l (some ⟨r.version + 1, .delivery d'⟩)
        { l with rearms := l.rearms + 1, epochSends := 0 }
  /-- `cancelPrepared` rejects what was not started. -/
  | withdrawn {r : Row} {d d' : Delivery} (hrow : row = some r) (hd : r.value = .delivery d)
      (hphase : d.phase = .prepared) (hsink : d'.sink = d.sink)
      (hphase' : d'.phase = .ended .rejected) :
      LaneStep idempotent name row l (some ⟨r.version + 1, .delivery d'⟩) l.cancel
  /-- The task commits a receipt. -/
  | settled {r : Row} {d d' : Delivery} (hrow : row = some r) (hd : r.value = .delivery d)
      (hphase : d.phase.terminal = false) (hsink : d'.sink = d.sink)
      (hphase' : d'.phase.terminal = true) :
      LaneStep idempotent name row l (some ⟨r.version + 1, .delivery d'⟩) (l.goto .closing)
  /-- The task commits `started`, for the first time unless the sender is idempotent. -/
  | committed {r : Row} {d d' : Delivery} (hrow : row = some r) (hd : r.value = .delivery d)
      (hphase : d.phase = .prepared ∨
        (d.phase = .started ∧ idempotent d.sink.bindingId = true)) (hsink : d'.sink = d.sink)
      (hphase' : d'.phase = .started) :
      LaneStep idempotent name row l (some ⟨r.version + 1, .delivery d'⟩)
        (l.goto (.calling ⟨⟨r.version + 1, .delivery d'⟩, d'⟩))
  /-- `sender.send` is called. -/
  | called {t : SendTask} {held : Held} (ht : l.task = some t) (hpc : t.pc = .calling held) :
      LaneStep idempotent name row l row
        { l.goto (.sending held) with sends := l.sends + 1, epochSends := l.epochSends + 1 }

/-- An operation on one delivery steps its lane and leaves the other rows. -/
def Steps (service : Service) (o : Outbox) (l : Lane) (key : String × String)
    (p : Outbox × Lane) : Prop :=
  LaneStep service.idempotent key.2 (o.rows (.delivery key.1 key.2)) l
      (p.1.rows (.delivery key.1 key.2)) p.2 ∧
    ∀ m sink, (m, sink) ≠ key → p.1.rows (.delivery m sink) = o.rows (.delivery m sink)

section Steps

variable {service : Service} {o : Outbox} {l : Lane} {key : String × String}

theorem PcInv.cancel {row : Option Row} {name : String} (h : LaneInv row name l) :
    ∀ t, l.cancel.task = some t → PcInv row name t.pc := by
  intro t ht
  obtain ⟨u, hu, rfl⟩ := Option.map_eq_some_iff.mp ht
  exact h.held u hu

/-- Only the task moves. -/
theorem steps_goto {pc : Pc} (hinv : LaneInv (o.rows (.delivery key.1 key.2)) key.2 l)
    (hpc : PcInv (o.rows (.delivery key.1 key.2)) key.2 pc) (hcall : ∀ h, pc ≠ .calling h) :
    Steps service o l key (o, l.goto pc) := by
  refine ⟨.moved _ (fun hnone => ?_) (fun t ht => ?_) (fun t h ht hc => ?_), fun _ _ _ => rfl⟩
  · rw [hinv.absent hnone]
    rfl
  · obtain ⟨u, _, rfl⟩ := Option.map_eq_some_iff.mp ht
    exact hpc
  · obtain ⟨u, _, rfl⟩ := Option.map_eq_some_iff.mp ht
    exact absurd hc (hcall h)

theorem steps_close (hinv : LaneInv (o.rows (.delivery key.1 key.2)) key.2 l) :
    Steps service o l key (o, l.goto .closing) :=
  steps_goto hinv trivial fun _ h => by cases h

/-- Nothing happens. -/
theorem steps_same (hinv : LaneInv (o.rows (.delivery key.1 key.2)) key.2 l) :
    Steps service o l key (o, l) :=
  ⟨.moved l.task (fun hnone => by rw [hinv.absent hnone]) hinv.held fun t _ ht hc => ⟨t, ht, hc⟩,
    fun _ _ _ => rfl⟩

theorem steps_settle {held : Held} (hinv : LaneInv (o.rows (.delivery key.1 key.2)) key.2 l)
    (hread : Read (o.rows (.delivery key.1 key.2)) key.2 held)
    (hphase : held.delivery.phase.terminal = false) (receipt : Receipt) (now : Instant) :
    Steps service o l key (settle service o l key held receipt now) := by
  rw [settle]
  split
  · next saved hsaved =>
      obtain ⟨hrow, hrow', ⟨d', heq, hsink, hphase', _⟩, hother⟩ := save_spec hsaved hread.name hread.seen
      refine ⟨?_, hother⟩
      rw [hrow', heq]
      exact .settled hrow hread.value hphase hsink (by rw [hphase']; rfl)
  · exact steps_close hinv

theorem steps_launch {held : Held} (hinv : LaneInv (o.rows (.delivery key.1 key.2)) key.2 l)
    (hread : Read (o.rows (.delivery key.1 key.2)) key.2 held)
    (hphase : held.delivery.phase = .prepared ∨ (held.delivery.phase = .started ∧
      service.idempotent held.delivery.sink.bindingId = true)) (now : Instant) :
    Steps service o l key (launch service o l key held now) := by
  rw [launch]
  split
  · next saved hsaved =>
      obtain ⟨hrow, hrow', ⟨d', heq, _, _, hsame⟩, hother⟩ := save_spec hsaved hread.name hread.seen
      refine ⟨?_, hother⟩
      have hd' : d' = .started held.delivery.sink := hsame (fun h => by cases h)
      rw [hrow', heq, hd']
      exact .committed hrow hread.value hphase rfl rfl
  · exact steps_close hinv

theorem steps_proceed {task : SendTask} {held : Held}
    (hinv : LaneInv (o.rows (.delivery key.1 key.2)) key.2 l)
    (hread : Read (o.rows (.delivery key.1 key.2)) key.2 held)
    (hphase : held.delivery.phase = .prepared ∨ (held.delivery.phase = .started ∧
      service.idempotent held.delivery.sink.bindingId = true)) (reason : Option String)
    (now : Instant) : Steps service o l key (proceed service o l key task held reason now) := by
  have hopen : held.delivery.phase.terminal = false := by
    rcases hphase with h | ⟨h, _⟩
    · rw [h]
      rfl
    · rw [h]
      rfl
  unfold proceed
  split
  · exact steps_close hinv
  · split
    · cases reason with
      | none => exact steps_launch hinv hread hphase now
      | some text =>
          dsimp only
          split
          · exact steps_close hinv
          · exact steps_settle hinv hread hopen _ now
    · exact steps_launch hinv hread hphase now

theorem steps_beginSend (hinv : LaneInv (o.rows (.delivery key.1 key.2)) key.2 l) :
    Steps service o l key (beginSend service o l key) := by
  rw [beginSend]
  split
  · split
    · exact steps_close hinv
    · exact steps_goto hinv trivial fun _ h => by cases h
  · exact steps_close hinv

/-- What was read just now. -/
theorem Read.of_read {row : Row} {delivery : Delivery}
    (h : service.records.read o key.1 key.2 = .ok (row, delivery)) :
    Read (o.rows (.delivery key.1 key.2)) key.2 ⟨row, delivery⟩ := by
  obtain ⟨hrow, hvalue, hname⟩ := read_spec h
  exact ⟨⟨row, hrow, Or.inl rfl⟩, hvalue, hname⟩

theorem steps_enterTarget (hinv : LaneInv (o.rows (.delivery key.1 key.2)) key.2 l)
    (task : SendTask) : Steps service o l key (enterTarget service o l key task) := by
  rw [enterTarget]
  split
  · exact steps_close hinv
  · split
    · next row delivery hread =>
        split
        · exact steps_close hinv
        · next hterminal =>
            have hopen : delivery.phase.terminal = false := by simpa using hterminal
            exact steps_goto hinv ⟨.of_read hread, hopen⟩ fun _ h => by cases h
    · exact steps_close hinv

theorem steps_senderOpened {task : SendTask} {held : Held}
    (hinv : LaneInv (o.rows (.delivery key.1 key.2)) key.2 l)
    (hread : Read (o.rows (.delivery key.1 key.2)) key.2 held)
    (hopen : held.delivery.phase.terminal = false) (reason : Option String) (now : Instant) :
    Steps service o l key (senderOpened service o l key task held reason now) := by
  rw [senderOpened]
  split
  · next hstarted => exact steps_goto hinv ⟨hread, hstarted⟩ fun _ h => by cases h
  · next hstarted =>
      refine steps_proceed hinv hread (Or.inl ?_) reason now
      cases hp : held.delivery.phase with
      | prepared => rfl
      | started => exact absurd hp hstarted
      | ended status =>
          rw [hp] at hopen
          cases hopen

theorem steps_receiptFound {task : SendTask} {held : Held}
    (hinv : LaneInv (o.rows (.delivery key.1 key.2)) key.2 l)
    (hread : Read (o.rows (.delivery key.1 key.2)) key.2 held)
    (hstarted : held.delivery.phase = .started) (found : Option Receipt) (reason : Option String)
    (now : Instant) :
    Steps service o l key (receiptFound service o l key task held found reason now) := by
  have hopen : held.delivery.phase.terminal = false := by
    rw [hstarted]
    rfl
  unfold receiptFound
  cases found with
  | some receipt => exact steps_settle hinv hread hopen receipt now
  | none =>
      dsimp only
      split
      · next hid => exact steps_proceed hinv hread (Or.inr ⟨hstarted, hid⟩) reason now
      · exact steps_settle hinv hread hopen _ now

/-- A row that is still held was read. -/
theorem PcInv.read {row : Option Row} {name : String} {held : Held}
    (h : PcInv row name (.sending held)) : Read row name held ∧ held.delivery.phase.terminal = false := by
  obtain ⟨hrow, hvalue, hname, hphase⟩ := h
  exact ⟨⟨⟨held.row, hrow, Or.inl rfl⟩, hvalue, hname⟩, by rw [hphase]; rfl⟩

theorem steps_resume (hinv : LaneInv (o.rows (.delivery key.1 key.2)) key.2 l) {answer : Answer}
    {reason : Option String} {now : Instant} {p : Outbox × Lane}
    (hres : resume service o l key answer reason now = some p) : Steps service o l key p := by
  obtain ⟨task, htask, h⟩ := Option.bind_eq_some_iff.mp hres
  have hheld := hinv.held task htask
  split at h
  · cases h
    exact steps_beginSend hinv
  · cases h
    exact steps_close hinv
  · cases h
    exact steps_enterTarget hinv task
  · cases h
    exact steps_close hinv
  · next held _ hpc =>
      cases h
      rw [hpc] at hheld
      exact steps_senderOpened hinv hheld.1 hheld.2 reason now
  · cases h
    exact steps_close hinv
  · next held found hpc =>
      cases h
      rw [hpc] at hheld
      exact steps_receiptFound hinv hheld.1 hheld.2 found reason now
  · cases h
    exact steps_close hinv
  · next held hpc =>
      cases h
      exact ⟨.called htask hpc, fun _ _ _ => rfl⟩
  · next held receipt hpc =>
      cases h
      rw [hpc] at hheld
      exact steps_settle hinv hheld.read.1 hheld.read.2 receipt now
  · next held hpc =>
      cases h
      rw [hpc] at hheld
      exact steps_settle hinv hheld.read.1 hheld.read.2 _ now
  · cases h
    exact ⟨.moved none (fun _ => rfl) (fun _ ht => by cases ht) (fun _ _ ht => by cases ht),
      fun _ _ _ => rfl⟩
  · cases h

theorem steps_start (hinv : LaneInv (o.rows (.delivery key.1 key.2)) key.2 l) (handle : String)
    (guarded : Bool) : Steps service o l key (start service o l key handle guarded) := by
  rw [start]
  split
  · next row hread =>
      cases htask : l.task with
      | some task => exact steps_same hinv
      | none =>
          obtain ⟨⟨_, hrow, _⟩, _, _⟩ := Read.of_read hread
          refine ⟨.moved _ (fun hnone => ?_) (fun t ht => ?_) (fun t _ ht hc => ?_),
            fun _ _ _ => rfl⟩
          · cases hrow.symm.trans hnone
          · cases ht
            trivial
          · cases ht
            cases hc
  · exact steps_same hinv

theorem steps_rearm (hinv : LaneInv (o.rows (.delivery key.1 key.2)) key.2 l) (now : Instant) :
    Steps service o l key (rearm service o l key now) := by
  rw [rearm]
  split
  · next row delivery hread =>
      split
      · next hcond =>
          split
          · next saved hsaved =>
              have hr := Read.of_read hread
              obtain ⟨hrow, hrow', ⟨d', heq, hsink, hphase, _⟩, hother⟩ := save_spec hsaved hr.name hr.seen
              refine ⟨?_, hother⟩
              rw [hrow', heq]
              exact .rearmed hrow hr.value hcond.1 hcond.2 hsink hphase
          · exact steps_same hinv
      · exact steps_same hinv
  · exact steps_same hinv

theorem steps_cancelPrepared (hinv : LaneInv (o.rows (.delivery key.1 key.2)) key.2 l)
    (reason : String) (now : Instant) :
    Steps service o l key (cancelPrepared service o l key reason now).1 := by
  rw [cancelPrepared]
  split
  · exact steps_same hinv
  · split
    · next row delivery hread =>
        split
        · next hphase =>
            dsimp only
            split
            · next saved hsaved =>
                have hr := Read.of_read hread
                obtain ⟨hrow, hrow', ⟨d', heq, hsink, hphase', _⟩, hother⟩ :=
                  save_spec hsaved hr.name hr.seen
                refine ⟨?_, hother⟩
                rw [hrow', heq]
                exact .withdrawn hrow hr.value hphase hsink hphase'
            · exact steps_same hinv
        · exact steps_same hinv
    · exact steps_same hinv

/-- It returns true when it has rejected what was `prepared`. -/
theorem cancelPrepared_true {reason : String} {now : Instant}
    (h : (cancelPrepared service o l key reason now).2 = true) :
    ∃ o' row row' d d', (cancelPrepared service o l key reason now).1 = (o', l.cancel) ∧
      o.rows (.delivery key.1 key.2) = some row ∧ row.value = .delivery d ∧
      d.phase = .prepared ∧ o'.rows (.delivery key.1 key.2) = some row' ∧
      row'.value = .delivery d' ∧ d'.phase = .ended .rejected := by
  rw [cancelPrepared] at h ⊢
  split at h
  · cases h
  · next hreason =>
      rw [dif_neg hreason]
      split at h
      · next row delivery hread =>
          split at h
          · next hphase =>
              rw [if_pos hphase]
              dsimp only at h ⊢
              split at h
              · next saved hsaved =>
                  have hr := Read.of_read hread
                  obtain ⟨hrow, hrow', ⟨d', heq, _, hphase', _⟩, _⟩ :=
                    save_spec hsaved hr.name hr.seen
                  exact ⟨_, row, _, delivery, d', rfl, hrow, hr.value, hphase, hrow',
                    by rw [heq], hphase'⟩
              · cases h
          · cases h
      · cases h

/-- Every operation steps its lane. -/
theorem steps_run (hinv : LaneInv (o.rows (.delivery key.1 key.2)) key.2 l) {a : SendAction}
    {p : Outbox × Lane} (h : a.run service o l key = some p) : Steps service o l key p := by
  cases a with
  | start handle guarded =>
      cases h
      exact steps_start hinv handle guarded
  | cancel =>
      cases h
      refine ⟨.moved _ (fun hnone => ?_) (PcInv.cancel hinv) (fun t h ht hc => ?_),
        fun _ _ _ => rfl⟩
      · rw [hinv.absent hnone]
        rfl
      · obtain ⟨u, hu, rfl⟩ := Option.map_eq_some_iff.mp ht
        exact ⟨u, hu, hc⟩
  | rearm now =>
      cases h
      exact steps_rearm hinv now
  | cancelPrepared reason now =>
      cases h
      exact steps_cancelPrepared hinv reason now
  | resume answer reason now => exact steps_resume hinv h

end Steps

/-! ## Routing creates deliveries -/

/-- Deliveries are only added, and added `prepared`. -/
def Creates (o o' : Outbox) : Prop := ∀ m sink, o'.rows (.delivery m sink) = o.rows (.delivery m sink) ∨
  (o.rows (.delivery m sink) = none ∧ ∃ d : Sink, d.name = sink ∧
    o'.rows (.delivery m sink) = some ⟨0, .delivery (.prepared d)⟩)

section Creates

variable {o o' : Outbox} {r : DeliveryRecords}

theorem Creates.refl (o : Outbox) : Creates o o := fun _ _ => Or.inl rfl

theorem Creates.trans {o'' : Outbox} (h : Creates o o') (h' : Creates o' o'') : Creates o o'' := by
  intro m sink
  rcases h' m sink with heq | ⟨hnone, d, hd, hrow⟩
  · rw [heq]
    exact h m sink
  · rcases h m sink with heq | ⟨_, _, _, hrow'⟩
    · exact Or.inr ⟨heq ▸ hnone, d, hd, hrow⟩
    · cases hrow'.symm.trans hnone

/-- A save of another kind of row. -/
theorem creates_save {key : Key} {value : Value} {expected : Option Nat}
    (h : o.save key value expected = .ok o') (hkey : ∀ m sink, key ≠ .delivery m sink) :
    Creates o o' :=
  fun m sink => Or.inl (save_other h (hkey m sink).symm)

theorem creates_addIn {messageId : String} {sink : Sink}
    (h : r.addIn messageId o sink = .ok o') : Creates o o' := by
  rw [DeliveryRecords.addIn] at h
  split at h
  · obtain ⟨_, _, h⟩ := Except.bind_eq_ok.mp h
    obtain ⟨_, _, h⟩ := Except.bind_eq_ok.mp h
    cases h
    exact .refl o
  · next hnone =>
      obtain ⟨_, hput⟩ := Records.save_new (save_eq_ok h)
      intro m name
      by_cases hkey : Key.delivery m name = .delivery messageId sink.name
      · cases hkey
        exact Or.inr ⟨hnone, sink, rfl, by rw [hput, Records.put_absent hnone]⟩
      · exact Or.inl (save_other h hkey)

theorem creates_foldlM {messageId : String} {sinks : List Sink}
    (h : sinks.foldlM (r.addIn messageId) o = .ok o') : Creates o o' := by
  induction sinks generalizing o with
  | nil =>
      cases h
      exact .refl _
  | cons sink rest ih =>
      rw [List.foldlM_cons] at h
      obtain ⟨mid, hmid, h⟩ := Except.bind_eq_ok.mp h
      exact (creates_addIn hmid).trans (ih h)

theorem creates_prepareIn {message : Message} {sinks : List Sink} {passive : Bool}
    {selected : Selection} (h : r.prepareIn o message sinks passive = .ok (o', selected)) :
    Creates o o' := by
  obtain ⟨existing, _, h⟩ := Except.bind_eq_ok.mp h
  cases existing with
  | some existing =>
      obtain ⟨_, _, h⟩ := Except.bind_eq_ok.mp h
      cases h
      exact .refl o
  | none =>
      obtain ⟨mid, hmid, h⟩ := Except.bind_eq_ok.mp h
      obtain ⟨last, hlast, h⟩ := Except.bind_eq_ok.mp h
      cases h
      exact (creates_save hmid (fun _ _ hkey => by cases hkey)).trans (creates_foldlM hlast)

theorem creates_add {messageId : String} {sink : Sink} (h : r.add o messageId sink = .ok o') :
    Creates o o' := by
  obtain ⟨_, _, h⟩ := Except.bind_eq_ok.mp h
  exact creates_addIn h

theorem creates_prepare {sessionId : String} {message : Message} {sinks : List Sink}
    {passive : Bool} {selected : Selection}
    (h : r.prepare o sessionId message sinks passive = .ok (o', selected)) : Creates o o' := by
  obtain ⟨_, _, h⟩ := Except.bind_eq_ok.mp h
  obtain ⟨existing, _, h⟩ := Except.bind_eq_ok.mp h
  cases existing with
  | some existing =>
      obtain ⟨_, _, h⟩ := Except.bind_eq_ok.mp h
      cases h
      exact .refl o
  | none => exact creates_prepareIn h

theorem creates_publish {w : Writer} {now : Instant} {request : AppendRequest} {sinks : List Sink}
    {passive : Bool} {selected : Selection}
    (h : r.publish o w now request sinks passive = .ok (o', selected)) : Creates o o' := by
  obtain ⟨_, _, h⟩ := Except.bind_eq_ok.mp h
  split at h
  · cases h
  · obtain ⟨existing, _, h⟩ := Except.bind_eq_ok.mp h
    cases existing with
    | some existing =>
        obtain ⟨_, _, h⟩ := Except.bind_eq_ok.mp h
        cases h
        exact fun _ _ => Or.inl rfl
    | none =>
        have hc := creates_prepareIn h
        exact hc

theorem creates_routeConsumed {message : Message} {sinks : Option (List Sink)} {passive : Bool}
    {routed : Outbox × Option Selection}
    (h : r.routeConsumed o message sinks passive = .ok routed) : Creates o routed.1 := by
  cases sinks with
  | none =>
      obtain ⟨existing, _, rfl⟩ := Except.map_eq_ok.mp h
      exact .refl o
  | some sinks =>
      obtain ⟨p, hprep, rfl⟩ := Except.map_eq_ok.mp h
      exact creates_prepareIn hprep

theorem creates_consume {sessionId : String} {message : Message} {sinks : Option (List Sink)}
    {passive : Bool} {selected : Option Selection}
    (h : r.consume o sessionId message sinks passive = .ok (o', selected)) : Creates o o' := by
  obtain ⟨_, _, h⟩ := Except.bind_eq_ok.mp h
  obtain ⟨cursor, _, h⟩ := Except.bind_eq_ok.mp h
  split at h
  · obtain ⟨_, _, h⟩ := Except.bind_eq_ok.mp h
    obtain ⟨_, _, h⟩ := Except.bind_eq_ok.mp h
    cases h
    exact .refl o
  · obtain ⟨_, _, h⟩ := Except.bind_eq_ok.mp h
    obtain ⟨routed, hrouted, h⟩ := Except.bind_eq_ok.mp h
    obtain ⟨last, hlast, h⟩ := Except.bind_eq_ok.mp h
    cases h
    exact (creates_routeConsumed hrouted).trans
      (creates_save hlast fun _ _ hkey => by cases hkey)

/-- A refused operation creates nothing. -/
theorem creates_after {α : Type} {x : Except Error (Outbox × α)}
    (h : ∀ o' a, x = .ok (o', a) → Creates o o') : Creates o (o.after x) := by
  cases x with
  | ok p => exact h p.1 p.2 rfl
  | error e => exact .refl o

end Creates

/-! ## Every step of the machine -/

section Machine

variable {service : Service} {s t : State}

/-- The invariant of every delivery. -/
def StateInv (s : State) : Prop := ∀ key, LaneInv (s.row key) key.2 (s.lanes key)

theorem laneStep_same {idempotent : String → Bool} {row : Option Row} {name : String} {l : Lane}
    (h : LaneInv row name l) : LaneStep idempotent name row l row l :=
  .moved l.task (fun hnone => by rw [h.absent hnone]) h.held fun t _ ht hc => ⟨t, ht, hc⟩

theorem laneStep_creates {o' : Outbox} (hs : StateInv s) (h : Creates s.outbox o')
    (key : String × String) : LaneStep service.idempotent key.2 (s.row key) (s.lanes key)
      (o'.rows (.delivery key.1 key.2)) (s.lanes key) := by
  rcases h key.1 key.2 with heq | ⟨hnone, d, hd, hrow⟩
  · rw [heq]
    exact laneStep_same (hs key)
  · rw [hrow]
    exact .created d hnone hd

/-- Every step of the machine is a step of each lane. -/
theorem next_laneStep (hs : StateInv s) {a : DeliveryAction}
    (hn : (deliveryMachine service).next s a = some t) (key : String × String) :
    LaneStep service.idempotent key.2 (s.row key) (s.lanes key) (t.row key) (t.lanes key) := by
  cases a with
  | log a =>
      have hn : (logMachine.next s.outbox.db a).map
        (fun db => { s with outbox := { s.outbox with db } }) = some t := hn
      obtain ⟨db, _, rfl⟩ := Option.map_eq_some_iff.mp hn
      exact laneStep_same (hs key)
  | add messageId sink =>
      cases hn
      refine laneStep_creates hs (creates_after fun o' _ h => ?_) key
      cases hadd : service.records.add s.outbox messageId sink with
      | error e =>
          rw [hadd] at h
          cases h
      | ok added =>
          rw [hadd] at h
          cases h
          exact creates_add hadd
  | prepare sessionId message sinks passive =>
      cases hn
      exact laneStep_creates hs (creates_after fun _ _ h => creates_prepare h) key
  | publish w now request sinks passive =>
      cases hn
      exact laneStep_creates hs (creates_after fun _ _ h => creates_publish h) key
  | consume sessionId message sinks passive =>
      cases hn
      exact laneStep_creates hs (creates_after fun _ _ h => creates_consume h) key
  | send sent a =>
      have hn : (a.run service s.outbox (s.lanes sent) sent).map
        (fun p => ⟨p.1, Function.update s.lanes sent p.2⟩) = some t := hn
      obtain ⟨p, hp, rfl⟩ := Option.map_eq_some_iff.mp hn
      obtain ⟨hstep, hother⟩ := steps_run (hs sent) hp
      by_cases heq : key = sent
      · subst heq
        show LaneStep _ _ _ _ (p.1.rows (.delivery key.1 key.2))
          (Function.update s.lanes key p.2 key)
        rw [Function.update_self]
        exact hstep
      · have hrow : p.1.rows (.delivery key.1 key.2) = s.row key := hother key.1 key.2 heq
        show LaneStep _ _ _ _ (p.1.rows (.delivery key.1 key.2))
          (Function.update s.lanes sent p.2 key)
        rw [Function.update_of_ne heq, hrow]
        exact laneStep_same (hs key)
  | crash =>
      cases hn
      exact .moved none (fun _ => rfl) (fun _ ht => by cases ht) fun _ _ ht => by cases ht

end Machine

/-! ## What a lane step keeps -/

section Lane

variable {idempotent : String → Bool} {name : String} {row row' : Option Row} {l l' : Lane}

/-- A row that was read was read also after a write. -/
theorem Read.later {r : Row} {held : Held} {value : Value} (h : Read (some r) name held) :
    Read (some ⟨r.version + 1, value⟩) name held := by
  obtain ⟨⟨cur, hcur, hr⟩, hvalue, hname⟩ := h
  cases hcur
  refine ⟨⟨_, rfl, Or.inr ?_⟩, hvalue, hname⟩
  rcases hr with rfl | hlt
  · exact Nat.lt_succ_self _
  · exact Nat.lt_succ_of_lt hlt

/-- A task that is about to call or waits for the call holds the current row, which
is `started`. -/
theorem LaneInv.started (h : LaneInv row name l) {t : SendTask} {held : Held}
    (ht : l.task = some t) (hpc : t.pc = .calling held ∨ t.pc = .sending held) {r : Row}
    {d : Delivery} (hrow : row = some r) (hd : r.value = .delivery d) : d.phase = .started := by
  have hheld := h.held t ht
  have hcur : row = some held.row ∧ held.row.value = .delivery held.delivery ∧
      held.delivery.sink.name = name ∧ held.delivery.phase = .started := by
    rcases hpc with hpc | hpc
    · rw [hpc] at hheld
      exact hheld
    · rw [hpc] at hheld
      exact hheld
  obtain ⟨hrow', hvalue, _, hphase⟩ := hcur
  cases hrow.symm.trans hrow'
  cases hd.symm.trans hvalue
  exact hphase

theorem LaneStep.inv (h : LaneStep idempotent name row l row' l') (hinv : LaneInv row name l) :
    LaneInv row' name l' := by
  have hname {r : Row} {d d' : Delivery} (hrow : row = some r) (hd : r.value = .delivery d)
      (hsink : d'.sink = d.sink) : d'.sink.name = name := by
    obtain ⟨d₀, hd₀, hn⟩ := hinv.value r hrow
    cases hd.symm.trans hd₀
    rw [hsink]
    exact hn
  have hvalue {r : Row} {d d' : Delivery} (hrow : row = some r) (hd : r.value = .delivery d)
      (hsink : d'.sink = d.sink) (x : Row) (hx : some ⟨r.version + 1, .delivery d'⟩ = some x) :
      ∃ e, x.value = .delivery e ∧ e.sink.name = name := by
    cases hx
    exact ⟨d', rfl, hname hrow hd hsink⟩
  cases h with
  | moved task habsent hpc _ =>
      refine ⟨fun hnone => ?_, hinv.value, hpc⟩
      rw [hinv.absent hnone, habsent hnone]
  | created sink hrow hn =>
      rw [hinv.absent hrow]
      refine ⟨fun h => (by cases h), fun r hr => ?_, fun _ ht => by cases ht⟩
      cases hr
      exact ⟨.prepared sink, rfl, hn⟩
  | rearmed hrow hd _ htask hsink _ =>
      refine ⟨fun h => (by cases h), hvalue hrow hd hsink, fun t ht => ?_⟩
      cases htask.symm.trans ht
  | @withdrawn r d d' hrow hd hphase hsink _ =>
      refine ⟨fun h => (by cases h), hvalue hrow hd hsink, fun t ht => ?_⟩
      obtain ⟨u, hu, rfl⟩ := Option.map_eq_some_iff.mp ht
      have hheld := hinv.held u hu
      subst hrow
      show PcInv _ _ u.pc
      cases hpc : u.pc with
      | opening held =>
          rw [hpc] at hheld
          exact ⟨hheld.1.later, hheld.2⟩
      | querying held =>
          rw [hpc] at hheld
          exact ⟨hheld.1.later, hheld.2⟩
      | calling held =>
          have hstarted := hinv.started hu (Or.inl hpc) rfl hd
          cases hphase.symm.trans hstarted
      | sending held =>
          have hstarted := hinv.started hu (Or.inr hpc) rfl hd
          cases hphase.symm.trans hstarted
      | _ => trivial
  | settled hrow hd _ hsink _ =>
      refine ⟨fun h => (by cases h), hvalue hrow hd hsink, fun t ht => ?_⟩
      obtain ⟨u, _, rfl⟩ := Option.map_eq_some_iff.mp ht
      trivial
  | @committed r d d' hrow hd _ hsink hphase' =>
      refine ⟨fun h => (by cases h), hvalue hrow hd hsink, fun t ht => ?_⟩
      obtain ⟨u, _, rfl⟩ := Option.map_eq_some_iff.mp ht
      exact ⟨rfl, rfl, hname hrow hd hsink, hphase'⟩
  | @called t held ht hpc =>
      refine ⟨fun hnone => ?_, hinv.value, fun u hu => ?_⟩
      · rw [hinv.absent hnone] at ht
        cases ht
      · obtain ⟨v, _, rfl⟩ := Option.map_eq_some_iff.mp hu
        have hheld := hinv.held t ht
        rw [hpc] at hheld
        exact hheld

/-- The counts of a delivery: nothing is sent while it is `prepared`, and a sender
that is not idempotent is called at most once in an epoch. -/
structure Counted (idempotent : String → Bool) (row : Option Row) (l : Lane) : Prop where
  prepared : ∀ r d, row = some r → r.value = .delivery d → d.phase = .prepared → l.epochSends = 0
  once : ∀ r d, row = some r → r.value = .delivery d → idempotent d.sink.bindingId = false →
    l.epochSends ≤ 1 ∧ l.sends ≤ l.rearms + l.epochSends ∧
      ∀ t h, l.task = some t → t.pc = .calling h → l.epochSends = 0

theorem LaneStep.counted (h : LaneStep idempotent name row l row' l') (hinv : LaneInv row name l)
    (hc : Counted idempotent row l) : Counted idempotent row' l' := by
  cases h with
  | moved task _ _ hcall =>
      refine ⟨hc.prepared, fun r d hr hd hid => ?_⟩
      obtain ⟨h₁, h₂, h₃⟩ := hc.once r d hr hd hid
      refine ⟨h₁, h₂, fun t h ht hpc => ?_⟩
      obtain ⟨u, hu, hupc⟩ := hcall t h ht hpc
      exact h₃ u h hu hupc
  | created sink hrow _ =>
      rw [hinv.absent hrow]
      exact ⟨fun _ _ _ _ _ => rfl, fun _ _ _ _ _ =>
        ⟨Nat.zero_le _, Nat.le_refl _, fun _ _ _ _ => rfl⟩⟩
  | @rearmed r d d' hrow hd _ htask hsink _ =>
      refine ⟨fun _ _ _ _ _ => rfl, fun x e hx he hid => ?_⟩
      cases hx
      cases he
      rw [hsink] at hid
      obtain ⟨h₁, h₂, _⟩ := hc.once r d hrow hd hid
      refine ⟨Nat.zero_le _, ?_, fun _ _ _ _ => rfl⟩
      show l.sends ≤ l.rearms + 1 + 0
      omega
  | @withdrawn r d d' hrow hd hphase hsink hphase' =>
      refine ⟨fun x e hx he hprep => ?_, fun x e hx he hid => ?_⟩
      · cases hx
        cases he
        cases hphase'.symm.trans hprep
      · cases hx
        cases he
        rw [hsink] at hid
        obtain ⟨h₁, h₂, _⟩ := hc.once r d hrow hd hid
        exact ⟨h₁, h₂, fun _ _ _ _ => hc.prepared r d hrow hd hphase⟩
  | @settled r d d' hrow hd hphase hsink hphase' =>
      refine ⟨fun x e hx he hprep => ?_, fun x e hx he hid => ?_⟩
      · cases hx
        cases he
        rw [hprep] at hphase'
        cases hphase'
      · cases hx
        cases he
        rw [hsink] at hid
        obtain ⟨h₁, h₂, _⟩ := hc.once r d hrow hd hid
        refine ⟨h₁, h₂, fun t h ht hpc => ?_⟩
        obtain ⟨u, _, rfl⟩ := Option.map_eq_some_iff.mp ht
        cases hpc
  | @committed r d d' hrow hd hphase hsink hphase' =>
      refine ⟨fun x e hx he hprep => ?_, fun x e hx he hid => ?_⟩
      · cases hx
        cases he
        cases hphase'.symm.trans hprep
      · cases hx
        cases he
        rw [hsink] at hid
        obtain ⟨h₁, h₂, _⟩ := hc.once r d hrow hd hid
        refine ⟨h₁, h₂, fun _ _ _ _ => ?_⟩
        rcases hphase with hphase | ⟨_, hidem⟩
        · exact hc.prepared r d hrow hd hphase
        · cases hid.symm.trans hidem
  | @called t held ht hpc =>
      refine ⟨fun r d hr hd hprep => ?_, fun r d hr hd hid => ?_⟩
      · have hstarted := hinv.started ht (Or.inl hpc) hr hd
        cases hprep.symm.trans hstarted
      · obtain ⟨_, h₂, h₃⟩ := hc.once r d hr hd hid
        have hzero := h₃ t held ht hpc
        refine ⟨?_, ?_, fun u h hu hupc => ?_⟩
        · show l.epochSends + 1 ≤ 1
          omega
        · show l.sends + 1 ≤ l.rearms + (l.epochSends + 1)
          omega
        · obtain ⟨v, _, rfl⟩ := Option.map_eq_some_iff.mp hu
          cases hupc

/-- A call is made on a row that is `started`. -/
theorem LaneStep.call (h : LaneStep idempotent name row l row' l') (hinv : LaneInv row name l)
    (hsends : l'.sends ≠ l.sends) :
    ∃ r d, row = some r ∧ r.value = .delivery d ∧ d.phase = .started := by
  cases h with
  | @called t held ht hpc =>
      have hheld := hinv.held t ht
      rw [hpc] at hheld
      exact ⟨held.row, held.delivery, hheld.1, hheld.2.1, hheld.2.2.2⟩
  | _ => exact absurd rfl hsends

/-- What is delivered or failed stays, and nothing is sent again. -/
theorem LaneStep.final (h : LaneStep idempotent name row l row' l') (hinv : LaneInv row name l)
    {r : Row} {d : Delivery} (hr : row = some r) (hd : r.value = .delivery d)
    (hphase : d.phase = .ended .delivered ∨ d.phase = .ended .failed) :
    row' = row ∧ l'.sends = l.sends := by
  cases h with
  | moved => exact ⟨rfl, rfl⟩
  | created sink hrow => cases hrow.symm.trans hr
  | rearmed hrow hd' hph =>
      cases hrow.symm.trans hr
      cases hd'.symm.trans hd
      rw [hph] at hphase
      simp at hphase
  | withdrawn hrow hd' hph =>
      cases hrow.symm.trans hr
      cases hd'.symm.trans hd
      rw [hph] at hphase
      simp at hphase
  | settled hrow hd' hph =>
      cases hrow.symm.trans hr
      cases hd'.symm.trans hd
      rcases hphase with h | h
      · rw [h] at hph
        cases hph
      · rw [h] at hph
        cases hph
  | committed hrow hd' hph =>
      cases hrow.symm.trans hr
      cases hd'.symm.trans hd
      rcases hphase with h | h
      · rw [h] at hph
        simp at hph
      · rw [h] at hph
        simp at hph
  | called ht hpc =>
      have hstarted := hinv.started ht (Or.inl hpc) hr hd
      rw [hstarted] at hphase
      simp at hphase

/-- Either the epoch is over, or the delivery is rejected and nothing was sent in it. -/
def Withdrawn (epoch : Nat) (row : Option Row) (l : Lane) : Prop :=
  epoch < l.rearms ∨ (l.epochSends = 0 ∧
    ∃ r d, row = some r ∧ r.value = .delivery d ∧ d.phase = .ended .rejected)

theorem LaneStep.withdrawn_epoch {epoch : Nat} (h : LaneStep idempotent name row l row' l')
    (hinv : LaneInv row name l) (hle : epoch ≤ l.rearms) (hw : Withdrawn epoch row l) :
    epoch ≤ l'.rearms ∧ Withdrawn epoch row' l' := by
  have hrearms : l.rearms ≤ l'.rearms := by
    cases h with
    | rearmed => exact Nat.le_succ _
    | _ => exact Nat.le_refl _
  refine ⟨hle.trans hrearms, ?_⟩
  rcases hw with hlt | ⟨hzero, r, d, hr, hd, hphase⟩
  · exact Or.inl (hlt.trans_le hrearms)
  · cases h with
    | moved => exact Or.inr ⟨hzero, r, d, hr, hd, hphase⟩
    | created sink hrow => cases hrow.symm.trans hr
    | rearmed => exact Or.inl (Nat.lt_succ_of_le hle)
    | withdrawn hrow hd' hph =>
        cases hrow.symm.trans hr
        cases hd'.symm.trans hd
        cases hph.symm.trans hphase
    | settled hrow hd' hph =>
        cases hrow.symm.trans hr
        cases hd'.symm.trans hd
        rw [hphase] at hph
        cases hph
    | committed hrow hd' hph =>
        cases hrow.symm.trans hr
        cases hd'.symm.trans hd
        rw [hphase] at hph
        simp at hph
    | called ht hpc =>
        have hstarted := hinv.started ht (Or.inl hpc) hr hd
        cases hphase.symm.trans hstarted

end Lane

/-! ## Every run -/

/-- What the row of a delivery holds. -/
def State.delivery (s : State) (key : String × String) : Option Delivery :=
  (s.row key).bind fun row => (DeliveryRecords.readDelivery row.value).toOption

theorem delivery_eq_some {s : State} {key : String × String} {d : Delivery} :
    s.delivery key = some d ↔ ∃ row, s.row key = some row ∧ row.value = .delivery d := by
  have hread (value : Value) : (DeliveryRecords.readDelivery value).toOption = some d ↔ value = .delivery d := by
    cases value <;> simp [DeliveryRecords.readDelivery, Except.toOption]
  simp [State.delivery, Option.bind_eq_some_iff, hread]

section Runs

variable {service : Service} {s t : State}

/-- The invariant and the counts of every delivery. -/
def Settles (service : Service) (s : State) : Prop :=
  StateInv s ∧ ∀ key, Counted service.idempotent (s.row key) (s.lanes key)

theorem settles_start (h : (deliveryMachine service).start s) : Settles service s := by
  obtain ⟨hrows, hlanes⟩ := h
  have hrow (key : String × String) : s.row key = none := by rw [State.row, hrows]
  have hlane (key : String × String) : s.lanes key = {} := by rw [hlanes]
  refine ⟨fun key => ⟨fun _ => hlane key, fun r hr => ?_, fun t ht => ?_⟩,
    fun key => ⟨fun r _ hr => ?_, fun r _ hr => ?_⟩⟩
  · cases (hrow key).symm.trans hr
  · rw [hlane key] at ht
    cases ht
  · cases (hrow key).symm.trans hr
  · cases (hrow key).symm.trans hr

theorem settles_next (h : Settles service s) {a : DeliveryAction}
    (hn : (deliveryMachine service).next s a = some t) : Settles service t := by
  have hstep := next_laneStep h.1 hn
  exact ⟨fun key => (hstep key).inv (h.1 key), fun key => (hstep key).counted (h.1 key) (h.2 key)⟩

theorem reachable_settles (h : (deliveryMachine service).Reachable s) : Settles service s :=
  h.invariant (fun _ => settles_start) fun _ _ _ hs _ hn => settles_next hs hn

/-- A settled delivery stays as it is. -/
theorem path_final (h : Settles service s) (hp : (deliveryMachine service).Path Machine.always s t)
    {key : String × String} {d : Delivery} (hd : s.delivery key = some d)
    (hphase : d.phase = .ended .delivered ∨ d.phase = .ended .failed) :
    t.row key = s.row key ∧ (t.lanes key).sends = (s.lanes key).sends := by
  obtain ⟨r, hr, hvalue⟩ := delivery_eq_some.mp hd
  have hkept := hp.invariant (I := fun u => Settles service u ∧ u.row key = s.row key ∧
      (u.lanes key).sends = (s.lanes key).sends) ?_ ⟨h, rfl, rfl⟩
  · exact hkept.2
  · rintro u a v ⟨hu, hrow, hsends⟩ _ hn
    have hur : u.row key = some r := hrow.trans hr
    obtain ⟨hrow', hsends'⟩ := (next_laneStep hu.1 hn key).final (hu.1 key) hur hvalue hphase
    exact ⟨settles_next hu hn, hrow'.trans hrow, hsends'.trans hsends⟩

/-- Nothing is sent in an epoch after its delivery was withdrawn. -/
theorem path_withdrawn (h : Settles service s)
    (hp : (deliveryMachine service).Path Machine.always s t) {key : String × String}
    (hw : Withdrawn (s.lanes key).rearms (s.row key) (s.lanes key)) :
    Withdrawn (s.lanes key).rearms (t.row key) (t.lanes key) := by
  have hkept := hp.invariant (I := fun u => Settles service u ∧
      (s.lanes key).rearms ≤ (u.lanes key).rearms ∧
      Withdrawn (s.lanes key).rearms (u.row key) (u.lanes key)) ?_ ⟨h, Nat.le_refl _, hw⟩
  · exact hkept.2.2
  · rintro u a v ⟨hu, hle, hw⟩ _ hn
    obtain ⟨hle', hw'⟩ := (next_laneStep hu.1 hn key).withdrawn_epoch (hu.1 key) hle hw
    exact ⟨settles_next hu hn, hle', hw'⟩

/-- A withdrawal that returns true has rejected a delivery of which nothing was sent. -/
theorem cancelPrepared_withdrawn (h : Settles service s) {key : String × String} {reason : String}
    {now : Instant}
    (hc : (cancelPrepared service s.outbox (s.lanes key) key reason now).2 = true)
    (hn : (deliveryMachine service).next s (.send key (.cancelPrepared reason now)) = some t) :
    (t.lanes key).rearms = (s.lanes key).rearms ∧
      Withdrawn (s.lanes key).rearms (t.row key) (t.lanes key) := by
  obtain ⟨o', row, row', d, d', heq, hrow, hd, hphase, hrow', hd', hphase'⟩ :=
    cancelPrepared_true hc
  have hzero := (h.2 key).prepared row d hrow hd hphase
  have ht : t = ⟨o', Function.update s.lanes key (s.lanes key).cancel⟩ := by
    cases hn
    rw [heq]
  subst ht
  show (Function.update s.lanes key (s.lanes key).cancel key).rearms = _ ∧
    Withdrawn _ (o'.rows (.delivery key.1 key.2))
      (Function.update s.lanes key (s.lanes key).cancel key)
  rw [Function.update_self]
  exact ⟨rfl, Or.inr ⟨hzero, row', d', hrow', hd', hphase'⟩⟩

/-- A delivery is sent at most once in each epoch, on a committed `started`, never
after it was delivered or failed, and never in an epoch that was withdrawn. -/
theorem sent_once (service : Service) (hs : (deliveryMachine service).Reachable s)
    (hp : (deliveryMachine service).Path Machine.always s t) (key : String × String) :
    (∀ d, s.delivery key = some d → service.idempotent d.sink.bindingId = false →
      (s.lanes key).sends ≤ 1 + (s.lanes key).rearms) ∧
    (s.delivery key = none → (s.lanes key).sends = 0) ∧
    (∀ a u, (deliveryMachine service).next s a = some u →
      (u.lanes key).sends ≠ (s.lanes key).sends →
      ∃ d, s.delivery key = some d ∧ d.phase = .started) ∧
    (∀ d, s.delivery key = some d →
      d.phase = .ended .delivered ∨ d.phase = .ended .failed →
      t.row key = s.row key ∧ (t.lanes key).sends = (s.lanes key).sends) ∧
    (∀ reason now u v,
      (cancelPrepared service s.outbox (s.lanes key) key reason now).2 = true →
      (deliveryMachine service).next s (.send key (.cancelPrepared reason now)) = some u →
      (deliveryMachine service).Path Machine.always u v →
      (v.lanes key).rearms = (s.lanes key).rearms → (v.lanes key).epochSends = 0) := by
  have h := reachable_settles hs
  refine ⟨fun d hd hid => ?_, fun hnone => ?_, fun a u hn hsends => ?_,
    fun d hd hphase => path_final h hp hd hphase, fun reason now u v hc hn hpath hsame => ?_⟩
  · obtain ⟨r, hr, hvalue⟩ := delivery_eq_some.mp hd
    obtain ⟨h₁, h₂, _⟩ := (h.2 key).once r d hr hvalue hid
    omega
  · have hrow : s.row key = none := by
      cases hrow : s.row key with
      | none => rfl
      | some r =>
          obtain ⟨d, hvalue, _⟩ := (h.1 key).value r hrow
          cases (delivery_eq_some.mpr ⟨r, hrow, hvalue⟩).symm.trans hnone
    rw [(h.1 key).absent hrow]
  · obtain ⟨r, d, hr, hvalue, hphase⟩ := (next_laneStep h.1 hn key).call (h.1 key) hsends
    exact ⟨d, delivery_eq_some.mpr ⟨r, hr, hvalue⟩, hphase⟩
  · obtain ⟨hsame', hw⟩ := cancelPrepared_withdrawn h hc hn
    rw [← hsame'] at hw
    have hv := path_withdrawn (settles_next h hn) hpath hw
    rw [hsame', ← hsame] at hv
    rcases hv with hlt | ⟨hzero, _⟩
    · exact absurd hlt (Nat.lt_irrefl _)
    · exact hzero

end Runs

/-! ## A send -/

/-- A sender that is not idempotent. -/
def exampleService : Service := ⟨⟨"app"⟩, fun _ => false⟩

def exampleSink : Sink := { name := "chat", bindingId := "b", address := "1" }

def exampleWriter : Writer where
  sessionId := "s"
  author := "model"
  source := "user"
  bodyTypes := [.output]
  callRef_ok := Writer.output_unbound

/-- An Output is routed and sent, and the sender answers. -/
def exampleSend : List DeliveryAction :=
  [.publish exampleWriter 0 { messageId := "m", body := .output ⟨[], .complete, by decide⟩ }
    [exampleSink] false,
   .send ("m", "chat") (.start "h" false),
   .send ("m", "chat") (.resume .resumed none 1),
   .send ("m", "chat") (.resume .resumed none 2),
   .send ("m", "chat") (.resume .resumed none 3),
   .send ("m", "chat") (.resume .resumed none 4),
   .send ("m", "chat") (.resume (.sent { status := .delivered, providerIds := ["1"] }) none 5)]

def exampleSent : State := ((deliveryMachine exampleService).run {} exampleSend).getD {}

theorem exampleSent_delivered :
    (exampleSent.delivery ("m", "chat")).map (·.phase) = some (.ended .delivered) ∧
      (exampleSent.lanes ("m", "chat")).sends = 1 := by decide

/-- The process dies, and the delivery is started again. -/
def exampleRestarted : Option State :=
  (deliveryMachine exampleService).run exampleSent
    [.crash, .send ("m", "chat") (.start "i" false), .send ("m", "chat") (.resume .resumed none 6)]

theorem sent_once_example :
    exampleRestarted.map (fun t => (t.lanes ("m", "chat")).sends) = some 1 := by
  have hreach : (deliveryMachine exampleService).Reachable exampleSent :=
    Machine.reach_getD ⟨rfl, rfl⟩ (fun _ _ _ => trivial) (by decide)
  have hran : exampleRestarted.isSome = true := by decide
  obtain ⟨t, ht⟩ := Option.isSome_iff_exists.mp hran
  have hp : (deliveryMachine exampleService).Path Machine.always exampleSent t :=
    Machine.path_of_run (fun _ _ _ => trivial) ht
  obtain ⟨hphase, hsends⟩ := exampleSent_delivered
  obtain ⟨d, hd, hdelivered⟩ := Option.map_eq_some_iff.mp hphase
  obtain ⟨_, _, _, hfinal, _⟩ := sent_once exampleService hreach hp ("m", "chat")
  rw [ht, Option.map_some, (hfinal d hd (Or.inl hdelivered)).2, hsends]

end MonoAgent.Deliveries
