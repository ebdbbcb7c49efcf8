import MonoAgent.Mobile.Steps

/-!
# What a connection sends

The events of a connection count on from the `last_ack` of its resume, but for resets:
first the resume window, then its tail frame, then what was queued meanwhile.  While the
connection is in the table, what it has still to send ends with the last event that was
stored, and the sent cursor is at the last event that it has sent.
-/

namespace MonoAgent.Mobile

open MonoAgent.Lib

variable {s t : Gateway} {d d' : Device} {b : Bool} {k : Socket} {u : Turn} {c n : Nat} {e : Event}
  {es : List Event} {w : Window}

/-! ## Consecutive events -/

/-- Events that count on from `n`.  A reset may be ahead. -/
def Consecutive : Nat → List Event → Prop
  | _, [] => True
  | n, e :: es => (e.seq = n + 1 ∨ n < e.seq ∧ e.isReset = true) ∧ Consecutive e.seq es

/-- The number of the last event, or `n`. -/
def finalSeq : Nat → List Event → Nat
  | n, [] => n
  | _, e :: es => finalSeq e.seq es

@[simp] theorem finalSeq_concat : finalSeq n (es ++ [e]) = e.seq := by
  induction es generalizing n with
  | nil => rfl
  | cons x xs ih => exact ih

theorem Consecutive.concat (h : Consecutive n es)
    (he : e.seq = finalSeq n es + 1 ∨ finalSeq n es < e.seq ∧ e.isReset = true) : Consecutive n (es ++ [e]) := by
  induction es generalizing n with
  | nil => exact ⟨he, trivial⟩
  | cons x xs ih => exact ⟨h.1, ih h.2 he⟩

/-- Events whose numbers go up from `n`. -/
def Ascending : Nat → List Event → Prop
  | _, [] => True
  | n, e :: es => n < e.seq ∧ Ascending e.seq es

theorem Ascending.concat (h : Ascending n es) (he : finalSeq n es < e.seq) : Ascending n (es ++ [e]) := by
  induction es generalizing n with
  | nil => exact ⟨he, trivial⟩
  | cons x xs ih => exact ⟨h.1, ih h.2 he⟩

theorem Ascending.le_last (h : Ascending n es) : n ≤ finalSeq n es := by
  induction es generalizing n with
  | nil => exact Nat.le_refl _
  | cons x xs ih =>
      have hx := h.1
      have hrest := ih h.2
      rw [finalSeq]
      omega

theorem Ascending.mem_le (h : Ascending n es) (he : e ∈ es) : e.seq ≤ finalSeq n es := by
  induction es generalizing n with
  | nil => cases he
  | cons x xs ih =>
      rcases List.mem_cons.mp he with rfl | hmem
      · exact h.2.le_last
      · exact ih h.2 hmem

/-! ## The invariant of a socket -/

/-- The number of the last event on the connection. -/
def Socket.front (k : Socket) : Nat := finalSeq k.lastAck k.out

/-- The event that was taken, and is not on the connection. -/
def Drain.taken : Drain → List Event
  | .writing e => [e]
  | _ => []

/-- What the delivery task has still to send. -/
def Socket.line (k : Socket) : List Event := k.drain.taken ++ k.pending

def Socket.window? (k : Socket) : Option Window :=
  match k.place with
  | .replacing w => some w
  | .resuming w => some w
  | _ => none

structure Window.Inv (late : Bool) (front : Nat) (pending : List Event) (w : Window) : Prop where
  rest : w.ended = false → w.after = front
  through : w.after ≤ w.through
  /-- A page counts on, from the last event unless rows of the window are acknowledged. -/
  page : ∃ n, w.after ≤ n ∧ (late = false → n = w.after) ∧ Numbered Event.seq n w.page ∧
    (w.page = [] ∨ n + w.page.length ≤ w.through)
  terminal : w.terminal.seq = w.through + 1 ∨
    w.terminal.isReset = true ∧ w.after = w.through ∧ w.page = [] ∧ w.through < w.terminal.seq
  ended : w.ended = true → front = w.terminal.seq ∧ w.page = [] ∧ w.after = w.through
  pending : Numbered Event.seq w.terminal.seq pending

structure Socket.Inv (k : Socket) : Prop where
  sequence : Ascending k.lastAck k.out ∧ (k.late = false → Consecutive k.lastAck k.out)
  fresh : k.place = .authenticated → k.out = [] ∧ k.pending = [] ∧ k.late = false ∧ k.ready = false
  window : ∀ w, k.window? = some w → k.ready = false ∧ w.Inv k.late k.front k.pending
  /-- What a delivery task sends counts on. -/
  line : k.drain ≠ .idle → Numbered Event.seq k.front k.line
  written : ∀ e, k.drain = .written e → k.front = e.seq
  unready : k.ready = false → k.drain = .idle

/-- The loop of the handler runs. -/
def Place.loops : Place → Bool
  | .running => true
  | .handling => true
  | .flushing _ => true
  | .replying _ => true
  | .closing => true
  | _ => false

/-- What holds of the connection in the table. -/
structure Active (d : Device) (k : Socket) : Prop where
  late : k.late = false
  resumed : k.place ≠ .authenticated
  ready : k.place.loops = true → k.ready = true
  /-- The window is in the inbox. -/
  kept : ∀ w, k.window? = some w → w.after < w.through → d.acked ≤ w.after
  window : ∀ w, k.window? = some w → d.sent ≤ w.terminal.seq ∧ w.terminal.seq + k.pending.length + 1 = d.next
  line : k.ready = true → Numbered Event.seq k.front k.line ∧ k.front + k.line.length + 1 = d.next
  sent : k.ready = true → match k.drain with
    | .written e => d.sent + 1 = e.seq
    | _ => d.sent = k.front

/-- What a step of a socket has to keep. -/
structure Kept (b : Bool) (u : Turn) : Prop where
  socket : u.socket.Inv
  device : u.device.Inv
  active : b = true → u.pop = false → Active u.device u.socket

@[simp] theorem schedule_front : k.schedule.front = k.front := by
  rw [Socket.front, schedule_lastAck, schedule_out, Socket.front]

theorem schedule_cases : k.schedule = k ∨ k.ready = true ∧ k.drain = .idle ∧ k.schedule = { k with drain := .looks } := by
  rw [Socket.schedule]
  split
  · next h => exact Or.inr ⟨h.1, h.2.2, rfl⟩
  · exact Or.inl rfl

/-- A delivery task is started for the connection in the table. -/
theorem Socket.Inv.schedule (h : k.Inv) (ha : Active d k) : k.schedule.Inv ∧ Active d k.schedule := by
  rcases schedule_cases (k := k) with heq | ⟨hready, hidle, heq⟩
  · rw [heq]
    exact ⟨h, ha⟩
  · rw [heq]
    have hline := ha.line hready
    have hsent := ha.sent hready
    have hsame : Socket.line { k with drain := .looks } = k.line := by
      rw [Socket.line, Socket.line, hidle]
      rfl
    rw [hidle] at hsent
    refine ⟨⟨h.sequence, h.fresh, h.window, fun _ => ?_, nofun, fun hr => ?_⟩,
      ha.late, ha.resumed, ha.ready, ha.kept, ha.window, fun _ => ?_, fun _ => hsent⟩
    · rw [hsame]
      exact hline.1
    · exact absurd (hready.symm.trans hr) nofun
    · rw [hsame]
      exact hline

/-! ## The steps of a socket -/

/-- The handler goes on, or ends. -/
theorem Socket.Inv.move (h : k.Inv) {p : Place} (hp : p.loops = true ∨ p = .closed) :
    Socket.Inv { k with place := p } := by
  refine ⟨h.sequence, fun heq => ?_, fun w hw => ?_, h.line, h.written, h.unready⟩
  · rcases hp with hp | rfl
    · rw [show p = .authenticated from heq] at hp
      cases hp
    · cases heq
  · rcases hp with hp | rfl
    · cases p <;> cases hw <;> cases hp
    · cases hw

theorem Active.move (h : Active d k) {p : Place} (hp : p.loops = true ∨ p = .closed)
    (hready : p.loops = true → k.ready = true) : Active d { k with place := p } := by
  have hnone (w : Window) (hw : Socket.window? { k with place := p } = some w) : False := by
    rcases hp with hp | rfl
    · cases p <;> cases hw <;> cases hp
    · cases hw
  refine ⟨h.late, fun heq => ?_, hready, fun w hw => (hnone w hw).elim, fun w hw => (hnone w hw).elim, h.line, h.sent⟩
  rcases hp with hp | rfl
  · rw [show p = .authenticated from heq] at hp
    cases hp
  · cases heq

/-- A step that changes neither what the socket has to send nor the device. -/
theorem Kept.move (h : k.Inv) (hd : d.Inv) (ha : b = true → Active d k) {p : Place} (hp : p.loops = true)
    (hready : k.place.loops = true) {m : Bool} :
    Kept b { socket := { k with place := p }, device := d, command := m } where
  socket := h.move (Or.inl hp)
  device := hd
  active hb _ := (ha hb).move (Or.inl hp) fun _ => (ha hb).ready hready

theorem fail_kept (h : k.Inv) (hd : d.Inv) (ha : b = true → Active d k) (hu : k.fail d b = some u) : Kept b u := by
  rw [Socket.fail] at hu
  split at hu
  · cases hu
  · cases hu
  · next hp =>
      cases hu
      exact ⟨h.move (Or.inr rfl), hd, fun hb _ => absurd hp (ha hb).resumed⟩
  · cases hu
    exact ⟨h.move (Or.inr rfl), hd, fun hb _ => (ha hb).move (Or.inr rfl) (fun hloops => by cases hloops)⟩
  · cases hu
    exact ⟨h.move (Or.inr rfl), hd, fun _ hpop => by cases hpop⟩

/-- What is read of the inbox counts on from the number, or from the last that was acknowledged. -/
theorem Device.Inv.readAny (h : d.Inv) (after limit : Nat) :
    Numbered Event.seq (max after d.acked) (d.readEvents after limit) := by
  rcases Nat.le_total after d.acked with hle | hle
  · rw [Device.readEvents, Numbered.after_eq h.inbox hle, Nat.max_eq_right hle]
    exact h.inbox.take limit
  · rw [Nat.max_eq_left hle]
    by_cases hlt : after < d.next
    · exact h.readEvents hle hlt limit
    · have hnil : d.inbox.filter (fun e => after < e.seq) = [] := by
        refine List.filter_eq_nil_iff.mpr fun e he => ?_
        have hbound := (h.inbox.bounds he).2
        have hlen := h.length
        simp only [decide_eq_true_eq]
        omega
      rw [Device.readEvents, hnil, List.take_nil]
      trivial

/-- A list that counts on and stays below a number is short. -/
theorem numbered_short {m : Nat} (h : Numbered Event.seq n es) (hne : es ≠ []) (hle : ∀ e ∈ es, e.seq ≤ m) :
    n + es.length ≤ m := by
  obtain ⟨x, hx, hnum⟩ := h.find (m := n + es.length)
    (Nat.lt_add_of_pos_right (List.length_pos_iff.mpr hne)) (Nat.le_refl _)
  exact hnum ▸ hle x hx

/-- The window of the connection in the table goes on. -/
theorem Active.resuming (h : Active d k) (hw : k.window? = some w) {k' : Socket} {w' : Window}
    (hplace : k'.place = .resuming w') (hpending : k'.pending = k.pending) (hlate : k'.late = false)
    (hready : k'.ready = false) (hterminal : w'.terminal = w.terminal) (hthrough : w'.through = w.through)
    (hafter : w.after ≤ w'.after) : Active d k' := by
  have hwin (x : Window) (hx : k'.window? = some x) : x = w' := by
    rw [Socket.window?, hplace] at hx
    exact (Option.some.inj hx).symm
  refine ⟨hlate, fun heq => ?_, fun hl => ?_, fun x hx hlt => ?_, fun x hx => ?_, fun hr => ?_, fun hr => ?_⟩
  · rw [hplace] at heq
    cases heq
  · rw [hplace] at hl
    cases hl
  · cases hwin x hx
    exact Nat.le_trans (h.kept w hw (by omega)) hafter
  · cases hwin x hx
    rw [hterminal, hpending]
    exact h.window w hw
  · exact absurd (hready.symm.trans hr) nofun
  · exact absurd (hready.symm.trans hr) nofun

/-- A socket that is in its window. -/
theorem Socket.Inv.resuming {w' : Window} (hplace : k.place = .resuming w')
    (hsequence : Ascending k.lastAck k.out ∧ (k.late = false → Consecutive k.lastAck k.out)) (hready : k.ready = false) (hidle : k.drain = .idle)
    (hwindow : w'.Inv k.late k.front k.pending) : k.Inv where
  sequence := hsequence
  fresh heq := by
    rw [hplace] at heq
    cases heq
  window x hx := by
    rw [Socket.window?, hplace] at hx
    exact Option.some.inj hx ▸ ⟨hready, hwindow⟩
  line hne := absurd hidle hne
  written e he := by
    rw [hidle] at he
    cases he
  unready _ := hidle

/-- An event of the page is sent. -/
theorem Window.Inv.page_sent {late : Bool} {front : Nat} {pending rest : List Event}
    (h : w.Inv late front pending) (he : w.page = e :: rest) :
    Window.Inv late e.seq pending { w with page := rest, after := e.seq } ∧ w.after ≤ e.seq ∧ front < e.seq ∧
      (late = false → e.seq = front + 1) := by
  obtain ⟨m, hm, hlate, hpage, hshort⟩ := h.page
  rw [he] at hpage hshort
  have hopen : w.ended = false := by
    cases hx : w.ended with
    | false => rfl
    | true => exact absurd ((h.ended hx).2.1.symm.trans he) nofun
  have hle : m + (e :: rest).length ≤ w.through := hshort.resolve_left nofun
  rw [List.length_cons] at hle
  have hseq : e.seq = m + 1 := hpage.1
  have hterminal : w.terminal.seq = w.through + 1 :=
    h.terminal.resolve_right fun hr => absurd (hr.2.2.1.symm.trans he) nofun
  refine ⟨⟨fun _ => rfl, by dsimp only; omega, ⟨e.seq, Nat.le_refl _, fun _ => rfl, ?_, ?_⟩,
    Or.inl hterminal, fun hx => absurd (hopen.symm.trans hx) nofun, h.pending⟩, by omega, ?_, fun hl => ?_⟩
  · exact hseq ▸ hpage.2
  · exact Or.inr (by dsimp only; omega)
  · rw [← h.rest hopen]
    omega
  · rw [hseq, hlate hl, h.rest hopen]

/-- A page is read.  It counts on from the last event if the window is in the inbox. -/
theorem Window.Inv.page_read {late late' : Bool} {front : Nat} {pending page : List Event}
    (h : w.Inv late front pending) (hd : d.Inv) (hlt : w.after < w.through) (hne : page ≠ [])
    (hpage : (d.readEvents w.after pageLimit).filter (fun e => e.seq ≤ w.through) = page)
    (hlate : late' = false → d.acked ≤ w.after) : Window.Inv late' front pending { w with page } := by
  have hrows : Numbered Event.seq (max w.after d.acked) page := hpage ▸ (hd.readAny w.after pageLimit).upto
  have hshort := numbered_short (m := w.through) hrows hne fun e he => by
    rw [← hpage] at he
    simpa using (List.mem_filter.mp he).2
  have hopen : w.ended = false := by
    cases hx : w.ended with
    | false => rfl
    | true => exact absurd (h.ended hx).2.2 (Nat.ne_of_lt hlt)
  have hterminal : w.terminal.seq = w.through + 1 :=
    h.terminal.resolve_right fun hr => absurd hr.2.1 (Nat.ne_of_lt hlt)
  exact ⟨h.rest, h.through, ⟨_, Nat.le_max_left _ _, fun hl => Nat.max_eq_left (hlate hl), hrows, Or.inr hshort⟩,
    Or.inl hterminal,
    fun hx => absurd (hopen.symm.trans hx) nofun, h.pending⟩

/-- The tail frame is sent. -/
theorem Window.Inv.tail_sent {late : Bool} {front : Nat} {pending : List Event} (h : w.Inv late front pending)
    (hnil : w.page = []) (hge : ¬ w.after < w.through) (hopen : w.ended = false) :
    Window.Inv late w.terminal.seq pending { w with ended := true } ∧
      (w.terminal.seq = front + 1 ∨ front < w.terminal.seq ∧ w.terminal.isReset = true) := by
  have heq : w.after = w.through := Nat.le_antisymm h.through (Nat.le_of_not_lt hge)
  refine ⟨⟨nofun, h.through, h.page, h.terminal, fun _ => ⟨rfl, hnil, heq⟩, h.pending⟩, ?_⟩
  rw [← h.rest hopen]
  rcases h.terminal with hseq | ⟨hreset, _, _, hseq⟩
  · exact Or.inl (by omega)
  · exact Or.inr ⟨by omega, hreset⟩

theorem send_kept (h : k.Inv) (hd : d.Inv) (ha : b = true → Active d k) (hu : k.send d b = some u) : Kept b u := by
  rw [Socket.send] at hu
  split at hu
  · next w hw =>
      have hsome : k.window? = some w := by rw [Socket.window?, hw]
      obtain ⟨hready, hwin⟩ := h.window w hsome
      have hidle := h.unready hready
      split at hu
      · next e rest he =>
          obtain ⟨hnext, hafter, hgt, hseq⟩ := hwin.page_sent he
          split at hu
          · cases hu
          · cases hu
            refine ⟨.resuming rfl ⟨h.sequence.1.concat hgt, fun hl => (h.sequence.2 hl).concat (Or.inl (hseq hl))⟩
              hready hidle ?_, hd,
              fun hb _ => (ha hb).resuming hsome rfl rfl (ha hb).late hready rfl rfl hafter⟩
            rw [Socket.front, finalSeq_concat]
            exact hnext
      · next hnil =>
          split at hu
          · next hlt =>
              split at hu
              · exact fail_kept h hd ha hu
              · next _ hne =>
                  cases hu
                  refine ⟨.resuming rfl ⟨h.sequence.1, fun hl => h.sequence.2 (Bool.or_eq_false_iff.mp hl).1⟩ hready hidle
                    (hwin.page_read hd hlt hne rfl fun hl => ?_), hd, fun hb _ => (ha hb).resuming hsome rfl rfl ?_
                      hready rfl rfl (Nat.le_refl _)⟩
                  · simpa using (Bool.or_eq_false_iff.mp hl).2
                  · have hkept := (ha hb).kept w hsome hlt
                    simpa [(ha hb).late] using hkept
          · next hge =>
              split at hu
              · cases hu
              · next hcond =>
                  cases hu
                  have hopen : w.ended = false := by
                    cases hx : w.ended with
                    | false => rfl
                    | true => exact absurd (Or.inl hx) hcond
                  obtain ⟨hnext, hseq⟩ := hwin.tail_sent hnil hge hopen
                  have hgt : k.front < w.terminal.seq := hseq.elim (fun heq => by omega) And.left
                  refine ⟨.resuming rfl ⟨h.sequence.1.concat hgt, fun hl => (h.sequence.2 hl).concat hseq⟩ hready hidle ?_, hd,
                    fun hb _ => (ha hb).resuming hsome rfl rfl (ha hb).late hready rfl rfl (Nat.le_refl _)⟩
                  rw [Socket.front, finalSeq_concat]
                  exact hnext
  · cases hu

theorem ended_kept (h : k.Inv) (hd : d.Inv) (ha : b = true → Active d k) (hu : k.ended d b = some u) : Kept b u := by
  rw [Socket.ended] at hu
  split at hu
  · next w hw =>
      have hsome : k.window? = some w := by rw [Socket.window?, hw]
      obtain ⟨hready, hwin⟩ := h.window w hsome
      have hidle := h.unready hready
      split at hu
      · cases hu
      · next hended =>
          obtain ⟨hfront, _, _⟩ := hwin.ended (by simpa using hended)
          split at hu
          · next hb =>
              cases hu
              exact ⟨h.move (Or.inl rfl), hd, fun hb' => absurd (hb.symm.trans hb') (by simp)⟩
          · next hb =>
              have hact := ha (by simpa using hb)
              have hwindow := hact.window w hsome
              split at hu
              · exact fail_kept h hd ha hu
              · next d' hm =>
                  cases hu
                  obtain ⟨_, _, rfl⟩ := Device.markSent_ok hm
                  have hline : Socket.line { k with place := .running, ready := true } = k.pending := by
                    rw [Socket.line, hidle]
                    rfl
                  have hsocket : Socket.Inv { k with place := .running, ready := true } := by
                    refine ⟨h.sequence, fun heq => (by cases heq), fun _ hwindow => (by cases hwindow), fun hne => absurd hidle hne,
                      h.written, fun hunready => by cases hunready⟩
                  have hactive : Active { d with sent := w.terminal.seq }
                      { k with place := .running, ready := true } := by
                    refine ⟨hact.late, fun heq => (by cases heq), fun _ => rfl, fun _ hwindow => (by cases hwindow),
                      fun _ hwindow => (by cases hwindow), fun _ => ⟨?_, ?_⟩, fun _ => ?_⟩
                    · rw [hline, show Socket.front { k with place := .running, ready := true } = w.terminal.seq from hfront]
                      exact hwin.pending
                    · rw [hline, show Socket.front { k with place := .running, ready := true } = w.terminal.seq from hfront]
                      exact hwindow.2
                    · rw [hidle]
                      exact hfront.symm
                  obtain ⟨hs, ha'⟩ := hsocket.schedule hactive
                  exact ⟨hs, hd.markSent hm, fun _ _ => ha'⟩
  · cases hu

theorem take_kept (h : k.Inv) (hd : d.Inv) (ha : b = true → Active d k) (hu : k.take d b = some u) : Kept b u := by
  rw [Socket.take] at hu
  split at hu
  · next hlooks =>
      have hready : k.ready = true := by
        cases hr : k.ready with
        | true => rfl
        | false => exact absurd (hlooks.symm.trans (h.unready hr)) (by simp)
      have hline : k.line = k.pending := by
        rw [Socket.line, hlooks]
        rfl
      have hidle : Socket.Inv { k with drain := .idle } :=
        ⟨h.sequence, h.fresh, h.window, fun hne => absurd rfl hne, by simp, fun _ => rfl⟩
      split at hu
      · next hb =>
          cases hu
          exact ⟨hidle, hd, fun hb' => absurd (hb.symm.trans hb') (by simp)⟩
      · next hb =>
          have hact := ha (by simpa using hb)
          have hnum := hact.line hready
          have hsent := hact.sent hready
          rw [hlooks] at hsent
          rw [hline] at hnum
          split at hu
          · cases hu
            exact ⟨hidle, hd, fun _ _ => ⟨hact.late, hact.resumed, hact.ready, hact.kept, hact.window, fun _ => hnum,
              fun _ => hsent⟩⟩
          · next e rest he =>
              cases hu
              have hwin (w : Window) (hw : k.window? = some w) : False :=
                absurd (hready.symm.trans (h.window w hw).1) (by simp)
              have hsame : Socket.line { k with drain := .writing e, pending := rest } = k.pending := he.symm
              refine ⟨⟨h.sequence, fun hp => ?_, fun w hw => (hwin w hw).elim, fun _ => ?_, by simp, fun hr => ?_⟩, hd,
                fun _ _ => ⟨hact.late, hact.resumed, hact.ready, fun w hw => (hwin w hw).elim,
                  fun w hw => (hwin w hw).elim, fun _ => ?_, fun _ => hsent⟩⟩
              · exact absurd hp hact.resumed
              · rw [hsame]
                exact hnum.1
              · exact absurd (hready.symm.trans hr) (by simp)
              · rw [hsame]
                exact hnum
  · cases hu

theorem wrote_kept (h : k.Inv) (hd : d.Inv) (ha : b = true → Active d k) (hu : k.wrote d b = some u) : Kept b u := by
  rw [Socket.wrote] at hu
  split at hu
  · next e he =>
      split at hu
      · cases hu
      · cases hu
        have hready : k.ready = true := by
          cases hr : k.ready with
          | true => rfl
          | false => exact absurd (he.symm.trans (h.unready hr)) (by simp)
        have hnum := h.line (by rw [he]; simp)
        have hline : k.line = e :: k.pending := by
          rw [Socket.line, he]
          rfl
        rw [hline] at hnum
        have hseq : e.seq = k.front + 1 := hnum.1
        have hfront : Socket.front { k with drain := .written e, out := k.out ++ [e] } = e.seq := finalSeq_concat
        have hwin (w : Window) (hw : k.window? = some w) : False :=
          absurd (hready.symm.trans (h.window w hw).1) (by simp)
        refine ⟨⟨⟨h.sequence.1.concat (by rw [hseq]; exact Nat.lt_succ_self _),
          fun hl => (h.sequence.2 hl).concat (Or.inl hseq)⟩, fun hp => ?_, fun w hw => (hwin w hw).elim,
          fun _ => ?_, fun x hx => ?_, fun hr => absurd (hready.symm.trans hr) (by simp)⟩, hd, fun hb _ => ?_⟩
        · exact absurd (hready.symm.trans (h.fresh hp).2.2.2) (by simp)
        · rw [hfront, hseq]
          exact hnum.2
        · cases hx
          exact hfront
        · have hact := ha hb
          have hcount := (hact.line hready).2
          have hsent := hact.sent hready
          rw [he] at hsent
          rw [hline, List.length_cons] at hcount
          refine ⟨hact.late, hact.resumed, hact.ready, fun w hw => (hwin w hw).elim, fun w hw => (hwin w hw).elim,
            fun _ => ⟨?_, ?_⟩, fun _ => ?_⟩
          · rw [hfront, hseq]
            exact hnum.2
          · rw [hfront]
            simp only [Socket.line, Drain.taken, List.nil_append]
            omega
          · exact (congrArg (· + 1) hsent).trans hseq.symm
  · cases hu

theorem sendRaised_kept (h : k.Inv) (hd : d.Inv) (hu : k.sendRaised d b = some u) : Kept b u := by
  have hidle : Socket.Inv { k with drain := .idle } :=
    ⟨h.sequence, h.fresh, h.window, fun hne => absurd rfl hne, by simp, fun _ => rfl⟩
  rw [Socket.sendRaised] at hu
  split at hu
  · cases hu
    exact ⟨hidle, hd, fun _ hpop => by cases hpop⟩
  · cases hu
    exact ⟨hidle, hd, fun _ hpop => by cases hpop⟩
  · cases hu

theorem commit_kept (h : k.Inv) (hd : d.Inv) (ha : b = true → Active d k) (hu : k.commit d b = some u) :
    Kept b u := by
  rw [Socket.commit] at hu
  split at hu
  · next e he =>
      have hready : k.ready = true := by
        cases hr : k.ready with
        | true => rfl
        | false => exact absurd (he.symm.trans (h.unready hr)) (by simp)
      have hfront := h.written e he
      have hline : k.line = k.pending := by
        rw [Socket.line, he]
        rfl
      have hsocket (p : Drain) (hp : p = .idle ∨ p = .looks) : Socket.Inv { k with drain := p } := by
        have hnum := h.line (by rw [he]; simp)
        rw [hline] at hnum
        refine ⟨h.sequence, h.fresh, h.window, fun _ => ?_, fun x hx => ?_, fun hr => ?_⟩
        · rcases hp with rfl | rfl
          · exact hnum
          · exact hnum
        · rcases hp with rfl | rfl
          · cases hx
          · cases hx
        · exact absurd (hready.symm.trans hr) (by simp)
      split at hu
      · next hb =>
          cases hu
          exact ⟨hsocket _ (Or.inr rfl), hd, fun hb' => absurd (hb.symm.trans hb') (by simp)⟩
      · next hb =>
          have hact := ha (by simpa using hb)
          have hsent := hact.sent hready
          rw [he] at hsent
          have hnum := hact.line hready
          rw [hline] at hnum
          split at hu
          · next hnone =>
              -- The cursor is just before the event.
              have hnext : e.seq < d.next := by
                have hcount := hnum.2
                omega
              rw [Device.markSent_some (by omega) hnext] at hnone
              cases hnone
          · next d' hm =>
              cases hu
              obtain ⟨_, _, rfl⟩ := Device.markSent_ok hm
              have hcases (x : Bool) : (if x = true then Drain.idle else Drain.looks) = .idle ∨
                  (if x = true then Drain.idle else Drain.looks) = .looks := by
                cases x
                · exact Or.inr rfl
                · exact Or.inl rfl
              refine ⟨hsocket _ (hcases _), hd.markSent hm, fun _ _ => ⟨hact.late, hact.resumed, hact.ready, hact.kept,
                fun w hw => absurd (hready.symm.trans (h.window w hw).1) (by simp), fun _ => ?_, fun _ => ?_⟩⟩
              · rcases hcases (k.barrier.any fun b => b ≤ e.seq) with hx | hx
                · rw [hx]
                  exact hnum
                · rw [hx]
                  exact hnum
              · rcases hcases (k.barrier.any fun b => b ≤ e.seq) with hx | hx
                · rw [hx]
                  exact hfront.symm
                · rw [hx]
                  exact hfront.symm
  · cases hu

theorem acknowledge_kept {through : Nat} (h : k.Inv) (hd : d.Inv) (ha : b = true → Active d k)
    (hu : k.acknowledge through d b = some u) : Kept b u := by
  rw [Socket.acknowledge] at hu
  split at hu
  · cases hu
  · next hp =>
      have hplace : k.place = .running := by simpa using hp
      have hloops : k.place.loops = true := by rw [hplace]; rfl
      split at hu
      · exact fail_kept h hd ha hu
      · split at hu
        · next d' hk =>
            cases hu
            obtain ⟨_, _, rfl⟩ := Device.acknowledge_ok hk
            refine ⟨h, hd.acknowledge hk, fun hb _ => ?_⟩
            have hact := ha hb
            refine ⟨hact.late, hact.resumed, hact.ready, fun w hw => ?_, hact.window, hact.line, hact.sent⟩
            rw [Socket.window?, hplace] at hw
            cases hw
        · cases hu
          exact .move h hd ha rfl hloops
        · cases hu
          exact .move h hd ha rfl hloops

theorem flush_kept (h : k.Inv) (hd : d.Inv) (ha : b = true → Active d k) (hu : k.flush d b = some u) : Kept b u := by
  rw [Socket.flush] at hu
  split at hu
  · cases hu
  · next hp =>
      have hplace : k.place = .handling := by simpa using hp
      split at hu
      · exact fail_kept h hd ha hu
      · cases hu
        have hmove := Kept.move (b := b) h hd ha (p := .flushing (d.next - 1)) rfl (by rw [hplace]; rfl) (m := false)
        refine ⟨?_, hd, fun hb _ => ?_⟩
        · have hs := hmove.socket
          exact ⟨hs.sequence, hs.fresh, hs.window, hs.line, hs.written, hs.unready⟩
        · have hact := hmove.active hb rfl
          exact ⟨hact.late, hact.resumed, hact.ready, hact.kept, hact.window, hact.line, hact.sent⟩

theorem flushed_kept (h : k.Inv) (hd : d.Inv) (ha : b = true → Active d k) (hu : k.flushed d b = some u) :
    Kept b u := by
  rw [Socket.flushed] at hu
  split at hu
  · next hp =>
      split at hu
      · exact fail_kept h hd ha hu
      · split at hu
        · cases hu
          exact .move h hd ha rfl (by rw [hp]; rfl)
        · split at hu
          · exact fail_kept h hd ha hu
          · cases hu
  · cases hu

theorem replied_kept (h : k.Inv) (hd : d.Inv) (ha : b = true → Active d k) (hu : k.replied d b = some u) :
    Kept b u := by
  rw [Socket.replied] at hu
  split at hu
  · next hp =>
      have hmove := Kept.move (b := b) h hd ha (p := .running) rfl (by rw [hp]; rfl) (m := false)
      dsimp only at hu
      split at hu
      · cases hu
        exact hmove
      · cases hu
        have hs := hmove.socket
        have hsocket : Socket.Inv { k with place := .running, barrier := none } :=
          ⟨hs.sequence, hs.fresh, hs.window, hs.line, hs.written, hs.unready⟩
        have hactive (hb : b = true) : Active d { k with place := .running, barrier := none } := by
          have hact := hmove.active hb rfl
          exact ⟨hact.late, hact.resumed, hact.ready, hact.kept, hact.window, hact.line, hact.sent⟩
        cases b with
        | false => exact ⟨hsocket, hd, fun hb => by cases hb⟩
        | true =>
            obtain ⟨hs', ha'⟩ := hsocket.schedule (hactive rfl)
            exact ⟨hs', hd, fun _ _ => ha'⟩
  · cases hu

theorem act_kept (a : SocketAction) (h : k.Inv) (hd : d.Inv) (ha : b = true → Active d k)
    (hu : a.act d b k = some u) : Kept b u := by
  cases a with
  | fail => exact fail_kept h hd ha hu
  | send => exact send_kept h hd ha hu
  | ended => exact ended_kept h hd ha hu
  | take => exact take_kept h hd ha hu
  | wrote => exact wrote_kept h hd ha hu
  | sendRaised => exact sendRaised_kept (b := b) h hd hu
  | commit => exact commit_kept h hd ha hu
  | acknowledge through => exact acknowledge_kept h hd ha hu
  | flush => exact flush_kept h hd ha hu
  | flushed => exact flushed_kept h hd ha hu
  | replied => exact replied_kept h hd ha hu
  | replaced =>
      rw [SocketAction.act, Socket.replaced] at hu
      split at hu
      · next w hw =>
          cases hu
          have hsome : k.window? = some w := by rw [Socket.window?, hw]
          obtain ⟨hready, hwin⟩ := h.window w hsome
          exact ⟨.resuming rfl h.sequence hready (h.unready hready) hwin, hd, fun hb _ =>
            (ha hb).resuming hsome rfl rfl (ha hb).late hready rfl rfl (Nat.le_refl _)⟩
      · cases hu
  | command =>
      rw [SocketAction.act, Socket.command] at hu
      split at hu
      · cases hu
      · next hp =>
          split at hu
          · exact fail_kept h hd ha hu
          · cases hu
            exact .move h hd ha rfl (by rw [show k.place = .running by simpa using hp]; rfl)
  | answered =>
      rw [SocketAction.act, Socket.answered] at hu
      split at hu
      · cases hu
      · next hp =>
          cases hu
          exact .move h hd ha rfl (by rw [show k.place = .handling by simpa using hp]; rfl)
  | close =>
      cases hu
      refine ⟨⟨h.sequence, h.fresh, h.window, h.line, h.written, h.unready⟩, hd, fun hb _ => ?_⟩
      have hact := ha hb
      exact ⟨hact.late, hact.resumed, hact.ready, hact.kept, hact.window, hact.line, hact.sent⟩
  | evict =>
      cases hu
      exact ⟨h, hd, fun _ hpop => by cases hpop⟩

/-- An event that was just stored is queued for the connection in the table. -/
theorem queue_kept {type : String} {now : Nat} (h : k.Inv) (hd : d.Inv) (ha : Active d k)
    (hu : k.queue (d.append type now).2 (d.append type now).1 true = some u) : Kept true u := by
  rw [Socket.queue] at hu
  split at hu
  · cases hu
    exact ⟨h, hd.append, fun _ hpop => by cases hpop⟩
  · cases hu
    have hline : Socket.line { k with pending := k.pending ++ [(d.append type now).2] } =
        k.line ++ [(d.append type now).2] := by
      rw [Socket.line, Socket.line, List.append_assoc]
    have hseq : (d.append type now).2.seq = d.next := rfl
    have hsocket : Socket.Inv { k with pending := k.pending ++ [(d.append type now).2] } := by
      refine ⟨h.sequence, fun hp => absurd hp ha.resumed, fun w hw => ?_, fun hne => ?_, h.written, h.unready⟩
      · obtain ⟨hready, hwin⟩ := h.window w hw
        refine ⟨hready, hwin.rest, hwin.through, hwin.page, hwin.terminal, hwin.ended, hwin.pending.concat ?_⟩
        rw [hseq]
        exact (ha.window w hw).2.symm
      · have hready : k.ready = true := by
          cases hr : k.ready with
          | true => rfl
          | false => exact absurd (h.unready hr) hne
        rw [hline]
        refine (ha.line hready).1.concat ?_
        rw [hseq]
        exact (ha.line hready).2.symm
    have hactive : Active (d.append type now).1 { k with pending := k.pending ++ [(d.append type now).2] } := by
      refine ⟨ha.late, ha.resumed, ha.ready, ha.kept, fun w hw => ?_, fun hr => ?_, ha.sent⟩
      · have hwindow := ha.window w hw
        refine ⟨hwindow.1, ?_⟩
        simp only [List.length_append, List.length_singleton, Device.append]
        omega
      · have hnum := ha.line hr
        rw [hline]
        refine ⟨hnum.1.concat (hseq.trans hnum.2.symm), ?_⟩
        simp only [List.length_append, List.length_singleton, Device.append]
        have hcount := hnum.2
        exact congrArg (· + 1) hcount
    obtain ⟨hs, ha'⟩ := hsocket.schedule hactive
    exact ⟨hs, hd.append, fun _ _ => ha'⟩

/-! ## Resume -/

/-- The window of a resume is in the inbox, and ends with the last event that was stored. -/
structure Device.Opens (d : Device) (lastAck : Nat) (w : Window) : Prop where
  device : d.Inv
  after : w.after = lastAck
  through : lastAck ≤ w.through
  page : w.page = []
  terminal : w.terminal.seq = w.through + 1 ∨
    w.terminal.isReset = true ∧ lastAck = w.through ∧ w.through < w.terminal.seq
  ended : w.ended = false
  kept : lastAck < w.through → d.acked ≤ lastAck
  sent : d.sent ≤ w.terminal.seq
  last : w.terminal.seq + 1 = d.next

theorem Device.Resumes.opens {lastAck now : Nat} (h : d.Resumes lastAck now d' w) (hd : d.Inv) :
    d'.Opens lastAck w := by
  have hacked := hd.acked
  have hsent := hd.sent
  cases h with
  | anew h =>
      refine ⟨hd.append, rfl, Nat.le_refl _, rfl, Or.inr ⟨rfl, rfl, ?_⟩, rfl, fun hlt => absurd hlt (Nat.lt_irrefl _),
        Nat.le_of_lt hsent, rfl⟩
      change lastAck < d.next
      omega
  | rebase h =>
      obtain ⟨hle, rfl, rfl⟩ := Device.rebase_ok h
      exact ⟨Device.Inv.rebase h, rfl, Nat.le_refl _, rfl, Or.inr ⟨rfl, rfl, Nat.lt_succ_self _⟩, rfl,
        fun hlt => absurd hlt (Nat.lt_irrefl _), Nat.le_succ _, rfl⟩
  | replay h hle =>
      refine ⟨hd.append, rfl, hle, rfl, Or.inl ?_, rfl, fun _ => h, Nat.le_of_lt hsent, rfl⟩
      change d.next = d.next - 1 + 1
      omega
  | @reset e rest h hle he hreset hlast =>
      have hread : e ∈ d.readEvents lastAck 1 := by
        rw [he]
        exact List.mem_cons_self
      have hmem := (mem_readEvents hread).2
      refine ⟨hd, rfl, Nat.le_refl _, rfl, Or.inr ⟨hreset, rfl, hmem⟩, rfl, fun hlt => absurd hlt (Nat.lt_irrefl _),
        ?_, ?_⟩
      · change d.sent ≤ e.seq
        omega
      · change e.seq + 1 = d.next
        omega
  | @after e tail rest rest' h hle he hreset ht hlast hne =>
      have hfirst := hd.first h (by omega) he
      have hread : e ∈ d.readEvents lastAck 1 := by
        rw [he]
        exact List.mem_cons_self
      have hin := (mem_readEvents hread).1
      have hbound := (hd.inbox.bounds hin).2
      have hlen := hd.length
      refine ⟨hd, ?_, ?_, rfl, Or.inl ?_, rfl, fun _ => h, ?_, ?_⟩
      · change e.seq - 1 = lastAck
        omega
      · change lastAck ≤ d.next - 1 - 1
        omega
      · change tail.seq = d.next - 1 - 1 + 1
        omega
      · change d.sent ≤ tail.seq
        omega
      · change tail.seq + 1 = d.next
        omega

/-- A socket is registered. -/
theorem Device.Opens.registers {lastAck : Nat} (h : d.Opens lastAck w) (hk : k.Inv) (hp : k.place = .authenticated)
    {place : Place} (hplace : place = .resuming w ∨ place = .replacing w) :
    Kept true { socket := { k with place, lastAck }, device := d } := by
  obtain ⟨hout, hpending, hlate, hready⟩ := hk.fresh hp
  have hidle := hk.unready hready
  have hfront : Socket.front { k with place, lastAck } = lastAck := by
    rw [Socket.front, hout]
    rfl
  have hwindow : Window.Inv k.late lastAck k.pending w := by
    refine ⟨fun _ => h.after, h.after ▸ h.through, ⟨w.after, Nat.le_refl _, fun _ => rfl, ?_, Or.inl h.page⟩,
      ?_, fun hx => absurd (h.ended.symm.trans hx) nofun, ?_⟩
    · rw [h.page]
      trivial
    · rw [h.after]
      exact h.terminal.imp id fun ⟨hr, heq, hlt⟩ => ⟨hr, heq, h.page, hlt⟩
    · rw [hpending]
      trivial
  have hsome (x : Window) (hx : Socket.window? { k with place, lastAck } = some x) : x = w := by
    rcases hplace with rfl | rfl
    · exact (Option.some.inj hx).symm
    · exact (Option.some.inj hx).symm
  refine ⟨⟨?_, fun heq => ?_, fun x hx => ?_, fun hne => absurd hidle hne, fun e he => ?_, fun _ => hidle⟩,
    h.device, fun _ _ => ⟨hlate, fun heq => ?_, fun hl => ?_, fun x hx hlt => ?_, fun x hx => ?_,
      fun hr => absurd (hready.symm.trans hr) nofun, fun hr => absurd (hready.symm.trans hr) nofun⟩⟩
  · rw [hout]
    exact ⟨trivial, fun _ => trivial⟩
  · rcases hplace with rfl | rfl
    · cases heq
    · cases heq
  · cases hsome x hx
    rw [hfront]
    exact ⟨hready, hwindow⟩
  · rw [show k.drain = .written e from he] at hidle
    cases hidle
  · rcases hplace with rfl | rfl
    · cases heq
    · cases heq
  · rcases hplace with rfl | rfl
    · cases hl
    · cases hl
  · cases hsome x hx
    rw [h.after] at hlt ⊢
    exact h.kept hlt
  · cases hsome x hx
    refine ⟨h.sent, ?_⟩
    rw [hpending]
    exact h.last

/-! ## The invariant of the gateway -/

/-- What holds while the device is not revoked. -/
structure ConnectionsInv (s : Gateway) : Prop where
  device : s.device.Inv
  sockets : ∀ (c : Nat) (k : Socket), s.sockets[c]? = some k → k.Inv
  active : ∀ c, s.active = some c → ∃ k, s.sockets[c]? = some k ∧ Active s.device k

theorem connectionsInv_start : ConnectionsInv {} where
  device := Device.inv_new
  sockets _ _ hk := nomatch hk
  active _ hc := nomatch hc

/-- The step of a socket that keeps what it has to keep. -/
theorem ConnectionsInv.turn (h : ConnectionsInv s) (hk : s.sockets[c]? = some k)
    (hkept : Kept (s.active = some c) u) (hd : s.active = some c ∨ u.device = s.device)
    (hsockets : t.sockets = s.sockets.set c u.socket) (hdevice : t.device = u.device)
    (hactive : t.active = if u.pop ∧ s.active = some c then none else s.active) : ConnectionsInv t := by
  have hset : t.sockets[c]? = some u.socket := by
    rw [hsockets, List.getElem?_set_self (List.getElem?_eq_some_iff.mp hk).1]
  refine ⟨hdevice ▸ hkept.device, fun i x hx => ?_, fun i hi => ?_⟩
  · by_cases hic : c = i
    · subst hic
      rw [hset] at hx
      cases hx
      exact hkept.socket
    · rw [hsockets, List.getElem?_set_ne hic] at hx
      exact h.sockets i x hx
  · rw [hactive] at hi
    split at hi
    · cases hi
    · next hpop =>
        by_cases hic : c = i
        · subst hic
          refine ⟨_, hset, hdevice ▸ hkept.active (by simpa using hi) ?_⟩
          simpa [hi] using hpop
        · obtain ⟨x, hx, ha⟩ := h.active i hi
          refine ⟨x, by rw [hsockets, List.getElem?_set_ne hic, hx], ?_⟩
          have heq : u.device = s.device := hd.resolve_left fun hc => hic (Option.some.inj (hc.symm.trans hi))
          rw [hdevice, heq]
          exact ha

theorem ConnectionsInv.act (h : ConnectionsInv s) (a : SocketAction) (hn : s.act a.act c = some t) :
    ConnectionsInv t := by
  obtain ⟨k, u, hk, hu, rfl⟩ := act_ok hn
  have hactive (hb : decide (s.active = some c) = true) : Active s.device k := by
    obtain ⟨x, hx, ha⟩ := h.active c (by simpa using hb)
    cases hk.symm.trans hx
    exact ha
  refine h.turn hk (act_kept a (h.sockets c k hk) h.device hactive hu) ?_ rfl rfl rfl
  rcases act_device a hu with hd | ⟨hb, _⟩
  · exact Or.inr hd
  · exact Or.inl (by simpa using hb)

theorem ConnectionsInv.store (h : ConnectionsInv s) {type : String} {now : Nat} :
    ConnectionsInv (s.store type now) := by
  obtain ⟨d, e, hd, hstore⟩ := store_ok (s := s) type now
  have hdev : d = (s.device.append type now).1 := (congrArg Prod.fst hd).symm
  have hevent : e = (s.device.append type now).2 := (congrArg Prod.snd hd).symm
  subst hdev hevent
  rcases hstore with ⟨hs, hnone⟩ | ⟨c, k, u, hc, hk, hu, hs⟩
  · rw [hs]
    refine ⟨h.device.append, h.sockets, fun i hi => ?_⟩
    obtain ⟨x, hx, _⟩ := h.active i hi
    rw [show s.active = some i from hi, Option.bind_some, hx] at hnone
    cases hnone
  · rw [hs]
    obtain ⟨x, hx, ha⟩ := h.active c hc
    cases hk.symm.trans hx
    have hkept := queue_kept (h.sockets c k hk) h.device ha hu
    refine h.turn (u := u) hk ?_ (Or.inl hc) rfl (queue_device hu).symm ?_
    · simpa [hc] using hkept
    · simp [hc]

theorem ConnectionsInv.register {lastAck now cutoff : Nat} (h : ConnectionsInv s)
    (hn : s.register c lastAck now cutoff = some t) : ConnectionsInv t := by
  have hmove {k k' : Socket} (hk : s.sockets[c]? = some k) (hp : k.place = .authenticated)
      (hk' : k' = { k with place := .running } ∨ k' = { k with place := .closed }) :
      ConnectionsInv { s with sockets := s.sockets.set c k' } := by
    have hinv : k'.Inv := by
      rcases hk' with rfl | rfl
      · exact (h.sockets c k hk).move (Or.inl rfl)
      · exact (h.sockets c k hk).move (Or.inr rfl)
    refine h.turn (u := { socket := k', device := s.device }) hk ⟨hinv, h.device, fun hb => ?_⟩ (Or.inr rfl) rfl rfl
      (by simp)
    obtain ⟨x, hx, ha⟩ := h.active c (by simpa using hb)
    cases hk.symm.trans hx
    exact absurd hp ha.resumed
  obtain ⟨k, hk, hn⟩ := Option.bind_eq_some_iff.mp hn
  split at hn
  · cases hn
  · next hne =>
      have hp : k.place = .authenticated := by simpa using hne
      split at hn
      · cases hn
        exact hmove hk hp (Or.inl rfl)
      · split at hn
        · cases hn
          exact hmove hk hp (Or.inr rfl)
        · next d w hprep =>
            cases hn
            have hopens := (prepareResume_ok hprep).opens h.device
            have hplace : (if s.active = none then Place.resuming w else Place.replacing w) = .resuming w ∨
                (if s.active = none then Place.resuming w else Place.replacing w) = .replacing w := by
              split
              · exact Or.inl rfl
              · exact Or.inr rfl
            have hkept := hopens.registers (h.sockets c k hk) hp hplace
            have hlen := (List.getElem?_eq_some_iff.mp hk).1
            refine ⟨hopens.device, fun i x hx => ?_, fun i hi => ?_⟩
            · by_cases hic : c = i
              · subst hic
                rw [List.getElem?_set_self hlen] at hx
                cases hx
                exact hkept.socket
              · rw [List.getElem?_set_ne hic] at hx
                exact h.sockets i x hx
            · cases hi
              exact ⟨_, List.getElem?_set_self hlen, hkept.active rfl rfl⟩

/-- A step of a device that is not revoked. -/
theorem connectionsInv_next {a : GatewayAction} (h : ConnectionsInv s)
    (hn : gatewayMachine.next s a = some t) (hrev : t.device.revoked = false) : ConnectionsInv t := by
  cases a with
  | authenticate =>
      replace hn : s.authenticate = some t := hn
      rw [Gateway.authenticate] at hn
      split at hn
      · cases hn
      · cases hn
        refine ⟨h.device, fun i k hk => ?_, fun i hi => ?_⟩
        · by_cases hlt : i < s.sockets.length
          · rw [List.getElem?_append_left hlt] at hk
            exact h.sockets i k hk
          · obtain rfl : k = { epoch := s.lastEpoch + 1 } := by
              rw [List.getElem?_append_right (Nat.le_of_not_lt hlt)] at hk
              exact List.mem_singleton.mp (List.mem_of_getElem? hk)
            exact ⟨⟨trivial, fun _ => trivial⟩, fun _ => ⟨rfl, rfl, rfl, rfl⟩, fun _ hwindow => (by cases hwindow), fun hne => absurd rfl hne,
              fun _ he => (by cases he), fun _ => rfl⟩
        · obtain ⟨k, hk, ha⟩ := h.active i hi
          exact ⟨k, by rw [List.getElem?_append_left (List.getElem?_eq_some_iff.mp hk).1, hk], ha⟩
  | otherAuthenticates =>
      cases hn
      exact ⟨h.device, h.sockets, h.active⟩
  | register c lastAck now cutoff => exact h.register hn
  | act c a => exact h.act a hn
  | publish type now =>
      cases hn
      rw [Gateway.publish]
      split
      · exact h
      · exact h.store
  | publishTo type now epoch =>
      cases hn
      cases epoch with
      | none => exact h.store
      | some n =>
          rw [Gateway.publishTo]
          split
          · exact h.store
          · exact h
  | revoke =>
      cases hn
      rw [revoke_ok.1] at hrev
      cases hrev
  | revokeEnds c =>
      replace hn : s.revokeEnds c = some t := hn
      rw [Gateway.revokeEnds] at hn
      split at hn
      · exact ConnectionsInv.act (s := { s with revoking := s.revoking.erase c, revoked := true })
          ⟨h.device, h.sockets, h.active⟩ .close hn
      · cases hn
  | stop =>
      cases hn
      exact ⟨h.device, h.sockets, fun _ hc => by cases hc⟩
  | restart =>
      cases hn
      refine ⟨h.device, fun i x hx => ?_, fun _ hc => by cases hc⟩
      rw [Gateway.restart, List.getElem?_map] at hx
      obtain ⟨k, hk, rfl⟩ := Option.map_eq_some_iff.mp hx
      have hinv := h.sockets i k hk
      exact ⟨hinv.sequence, fun heq => (by cases heq), fun _ hwindow => (by cases hwindow), fun hne => absurd rfl hne,
        fun _ he => (by cases he), fun _ => rfl⟩

theorem connectionsInv_reach {ok : Gateway → GatewayAction → Prop} (h : gatewayMachine.Reach ok s)
    (hr : s.device.revoked = false) : ConnectionsInv s := by
  refine h.invariant (I := fun s => s.device.revoked = false → ConnectionsInv s) (fun s hs _ => ?_)
    (fun s a t hi _ hn hr => connectionsInv_next (hi (revoked_before hn hr)) hn hr) hr
  rw [show s = {} from hs]
  exact connectionsInv_start

end MonoAgent.Mobile
