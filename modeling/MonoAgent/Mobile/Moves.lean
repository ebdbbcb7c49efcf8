import MonoAgent.Mobile.Connections

/-!
# What a socket sends

A step of a socket puts an event on the connection only if it is the next one, or a
reset, or the first of a page that was read.
-/

namespace MonoAgent.Mobile

open MonoAgent.Lib

variable {d d' : Device} {b : Bool} {k : Socket} {u : Turn} {e : Event} {w : Window}

/-- The events that a socket has or had to send. -/
def Socket.Has (k : Socket) (e : Event) : Prop :=
  e ∈ k.out ∨ (∃ w, k.window? = some w ∧ (e ∈ w.page ∨ e = w.terminal)) ∨ e ∈ k.line

/-- An event is put on the connection when it is the next one, or a reset, or one of the window. -/
def Socket.Sends (k : Socket) (e : Event) : Prop :=
  k.Has e ∧ (e.seq = k.front + 1 ∨ e.isReset = true ∨ ∃ w rest, k.window? = some w ∧ w.page = e :: rest)

structure Moves (d : Device) (k : Socket) (u : Turn) : Prop where
  out : u.socket.out = k.out ∨ ∃ e, k.Sends e ∧ u.socket.out = k.out ++ [e]
  front : u.socket.out = k.out → u.socket.front = k.front
  page : ∀ w e rest, u.socket.window? = some w → w.page = e :: rest →
    (∃ w', k.window? = some w' ∧ w'.page = e :: rest) ∨ e.seq = u.socket.front + 1 ∨
      e.seq = max k.front d.acked + 1
  has : ∀ e, u.socket.Has e → k.Has e ∨ e ∈ d.inbox
  sent : u.device.sent = d.sent ∨ u.device.sent = k.front

/-- A step that sends nothing, of a socket that is not in its window afterwards. -/
theorem Moves.quiet {k' : Socket} {pop command : Bool} (ho : k'.out = k.out) (hl : k'.lastAck = k.lastAck) (hw : k'.window? = none)
    (hline : ∀ e ∈ k'.line, e ∈ k.line) (hd : d'.sent = d.sent ∨ d'.sent = k.front) :
    Moves d k { socket := k', device := d', pop, command } where
  out := Or.inl ho
  front _ := by rw [Socket.front, Socket.front, ho, hl]
  page w e rest hw' := by
    rw [hw] at hw'
    cases hw'
  has e he := by
    rcases he with he | ⟨w, hw', _⟩ | he
    · exact Or.inl (Or.inl (ho ▸ he))
    · rw [hw] at hw'
      cases hw'
    · exact Or.inl (Or.inr (Or.inr (hline e he)))
  sent := hd

/-- A step that leaves the window and what was sent. -/
theorem Moves.same {k' : Socket} {pop command : Bool} (ho : k'.out = k.out) (hl : k'.lastAck = k.lastAck) (hw : k'.window? = k.window?)
    (hline : ∀ e ∈ k'.line, e ∈ k.line) (hd : d'.sent = d.sent ∨ d'.sent = k.front) :
    Moves d k { socket := k', device := d', pop, command } where
  out := Or.inl ho
  front _ := by rw [Socket.front, Socket.front, ho, hl]
  page w e rest hw' he := Or.inl ⟨w, hw ▸ hw', he⟩
  has e he := Or.inl (he.imp (fun he => ho ▸ he) (Or.imp (fun ⟨w, hw', he⟩ => ⟨w, hw ▸ hw', he⟩) (hline e)))
  sent := hd

@[simp] theorem schedule_line : k.schedule.line = k.line := by
  rcases schedule_cases (k := k) with heq | ⟨_, hidle, heq⟩
  · rw [heq]
  · rw [heq, Socket.line, Socket.line, hidle]
    rfl

@[simp] theorem schedule_window : k.schedule.window? = k.window? := by
  rw [Socket.schedule]
  split
  · rfl
  · rfl

theorem fail_moves (h : k.fail d b = some u) : Moves d k u := by
  rw [Socket.fail] at h
  split at h
  · cases h
  · cases h
  · cases h
    exact .quiet rfl rfl rfl (fun _ => id) (Or.inl rfl)
  · cases h
    exact .quiet rfl rfl rfl (fun _ => id) (Or.inl rfl)
  · cases h
    exact .quiet rfl rfl rfl (fun _ => id) (Or.inl rfl)

theorem send_moves (h : k.Inv) (hd : d.Inv) (hu : k.send d b = some u) : Moves d k u := by
  rw [Socket.send] at hu
  split at hu
  · next w hw =>
      have hsome : k.window? = some w := by rw [Socket.window?, hw]
      obtain ⟨_, hwin⟩ := h.window w hsome
      split at hu
      · next e rest he =>
          have hnext := (hwin.page_sent he).1
          split at hu
          · cases hu
          · cases hu
            have hin : k.Has e := Or.inr (Or.inl ⟨w, hsome, Or.inl (by rw [he]; exact List.mem_cons_self)⟩)
            refine ⟨Or.inr ⟨e, ⟨hin, Or.inr (Or.inr ⟨w, rest, hsome, he⟩)⟩, rfl⟩, fun heq => ?_, fun x y ys hx hy => ?_,
              fun x hx => Or.inl ?_, Or.inl rfl⟩
            · simp at heq
            · cases hx
              refine Or.inr (Or.inl ?_)
              rw [Socket.front, finalSeq_concat]
              obtain ⟨p, hp, hlate, hpage, _⟩ := hnext.page
              obtain ⟨q, _, _, hq, _⟩ := hwin.page
              rw [he] at hq
              rw [show rest = y :: ys from hy] at hq
              exact hq.2.1.trans (congrArg (· + 1) hq.1.symm)
            · rcases hx with hx | ⟨x', hx', hx⟩ | hx
              · rcases List.mem_append.mp hx with hx | hx
                · exact Or.inl hx
                · rw [List.mem_singleton.mp hx]
                  exact hin
              · cases hx'
                refine Or.inr (Or.inl ⟨w, hsome, hx.imp (fun hx => ?_) id⟩)
                rw [he]
                exact List.mem_cons_of_mem _ hx
              · exact Or.inr (Or.inr hx)
      · next hnil =>
          split at hu
          · next hlt =>
              split at hu
              · exact fail_moves hu
              · next _ hne =>
                  cases hu
                  have hopen : w.ended = false := by
                    cases hx : w.ended with
                    | false => rfl
                    | true => exact absurd (hwin.ended hx).2.2 (Nat.ne_of_lt hlt)
                  refine ⟨Or.inl rfl, fun _ => rfl, fun x y ys hx hy => Or.inr (Or.inr ?_), fun x hx => ?_, Or.inl rfl⟩
                  · cases hx
                    have hrows : Numbered Event.seq (max w.after d.acked)
                        ((d.readEvents w.after pageLimit).filter fun e => e.seq ≤ w.through) :=
                      (hd.readAny w.after pageLimit).upto
                    dsimp only at hy
                    rw [hy] at hrows
                    rw [← hwin.rest hopen]
                    exact hrows.1
                  · rcases hx with hx | ⟨x', hx', hx⟩ | hx
                    · exact Or.inl (Or.inl hx)
                    · cases hx'
                      rcases hx with hx | hx
                      · exact Or.inr (Device.mem_readEvents (List.mem_of_mem_filter hx)).1
                      · exact Or.inl (Or.inr (Or.inl ⟨w, hsome, Or.inr hx⟩))
                    · exact Or.inl (Or.inr (Or.inr hx))
          · next hge =>
              split at hu
              · cases hu
              · next hcond =>
                  cases hu
                  have hopen : w.ended = false := by
                    cases hx : w.ended with
                    | false => rfl
                    | true => exact absurd (Or.inl hx) hcond
                  have hin : k.Has w.terminal := Or.inr (Or.inl ⟨w, hsome, Or.inr rfl⟩)
                  have hseq := (hwin.tail_sent hnil hge hopen).2
                  refine ⟨Or.inr ⟨w.terminal, ⟨hin, hseq.imp id fun hr => Or.inl hr.2⟩, rfl⟩, fun heq => ?_,
                    fun x y ys hx hy => ?_, fun x hx => Or.inl ?_, Or.inl rfl⟩
                  · simp at heq
                  · cases hx
                    exact absurd (hnil.symm.trans hy) (by simp)
                  · rcases hx with hx | ⟨x', hx', hx⟩ | hx
                    · rcases List.mem_append.mp hx with hx | hx
                      · exact Or.inl hx
                      · rw [List.mem_singleton.mp hx]
                        exact hin
                    · cases hx'
                      exact Or.inr (Or.inl ⟨w, hsome, hx⟩)
                    · exact Or.inr (Or.inr hx)
  · cases hu

theorem act_moves (a : SocketAction) (h : k.Inv) (hd : d.Inv) (hu : a.act d b k = some u) : Moves d k u := by
  cases a with
  | fail => exact fail_moves (b := b) hu
  | send => exact send_moves (b := b) h hd hu
  | ended =>
      rw [SocketAction.act, Socket.ended] at hu
      split at hu
      · next w hw =>
          have hsome : k.window? = some w := by rw [Socket.window?, hw]
          split at hu
          · cases hu
          · next hended =>
              have hfront := ((h.window w hsome).2.ended (by simpa using hended)).1
              split at hu
              · cases hu
                exact .quiet rfl rfl rfl (fun _ => id) (Or.inl rfl)
              · split at hu
                · exact fail_moves hu
                · next d' hm =>
                    cases hu
                    obtain ⟨_, _, rfl⟩ := Device.markSent_ok hm
                    refine .quiet (by simp) (by simp) schedule_window (fun e he => ?_) (Or.inr hfront.symm)
                    rw [schedule_line] at he
                    exact he
      · cases hu
  | take =>
      rw [SocketAction.act, Socket.take] at hu
      split at hu
      · next hlooks =>
          have hline : k.line = k.pending := by
            rw [Socket.line, hlooks]
            rfl
          have hidle : Socket.line { k with drain := .idle } = k.pending := rfl
          split at hu
          · cases hu
            exact .same rfl rfl rfl (fun e he => by rwa [hline, ← hidle]) (Or.inl rfl)
          · split at hu
            · cases hu
              exact .same rfl rfl rfl (fun e he => by rwa [hline, ← hidle]) (Or.inl rfl)
            · next e rest he =>
                cases hu
                refine .same rfl rfl rfl (fun x hx => ?_) (Or.inl rfl)
                rw [hline, he]
                exact hx
      · cases hu
  | wrote =>
      rw [SocketAction.act, Socket.wrote] at hu
      split at hu
      · next e he =>
          split at hu
          · cases hu
          · cases hu
            have hline : k.line = e :: k.pending := by
              rw [Socket.line, he]
              rfl
            have hnum := h.line (by rw [he]; simp)
            rw [hline] at hnum
            have hin : k.Has e := Or.inr (Or.inr (by rw [hline]; exact List.mem_cons_self))
            refine ⟨Or.inr ⟨e, ⟨hin, Or.inl hnum.1⟩, rfl⟩, fun heq => ?_, fun w x rest hw hx => Or.inl ⟨w, hw, hx⟩,
              fun x hx => Or.inl ?_, Or.inl rfl⟩
            · simp at heq
            · rcases hx with hx | hx | hx
              · rcases List.mem_append.mp hx with hx | hx
                · exact Or.inl hx
                · rw [List.mem_singleton.mp hx]
                  exact hin
              · exact Or.inr (Or.inl hx)
              · refine Or.inr (Or.inr ?_)
                rw [hline]
                exact List.mem_cons_of_mem _ hx
      · cases hu
  | sendRaised =>
      have hline (x : Event) (hx : x ∈ Socket.line { k with drain := .idle }) : x ∈ k.line :=
        List.mem_append_right _ hx
      rw [SocketAction.act, Socket.sendRaised] at hu
      split at hu
      · cases hu
        exact .same rfl rfl rfl hline (Or.inl rfl)
      · cases hu
        exact .same rfl rfl rfl hline (Or.inl rfl)
      · cases hu
  | commit =>
      rw [SocketAction.act, Socket.commit] at hu
      split at hu
      · next e he =>
          have hline (p : Drain) (hp : p.taken = []) (x : Event) (hx : x ∈ Socket.line { k with drain := p }) :
              x ∈ k.line := by
            rw [Socket.line, hp] at hx
            exact List.mem_append_right _ hx
          split at hu
          · cases hu
            exact .same rfl rfl rfl (hline _ rfl) (Or.inl rfl)
          · split at hu
            · cases hu
              exact .same rfl rfl rfl (hline _ rfl) (Or.inl rfl)
            · next d' hm =>
                cases hu
                obtain ⟨_, _, rfl⟩ := Device.markSent_ok hm
                refine .same rfl rfl rfl (hline _ ?_) (Or.inr (h.written e he).symm)
                split
                · rfl
                · rfl
      · cases hu
  | acknowledge through =>
      rw [SocketAction.act, Socket.acknowledge] at hu
      split at hu
      · cases hu
      · split at hu
        · exact fail_moves (b := b) hu
        · split at hu
          · next d' hk =>
              cases hu
              obtain ⟨_, _, rfl⟩ := Device.acknowledge_ok hk
              exact .same rfl rfl rfl (fun _ => id) (Or.inl rfl)
          · cases hu
            exact .quiet rfl rfl rfl (fun _ => id) (Or.inl rfl)
          · cases hu
            exact .quiet rfl rfl rfl (fun _ => id) (Or.inl rfl)
  | command =>
      rw [SocketAction.act, Socket.command] at hu
      split at hu
      · cases hu
      · split at hu
        · exact fail_moves (b := b) hu
        · cases hu
          exact .quiet rfl rfl rfl (fun _ => id) (Or.inl rfl)
  | answered =>
      rw [SocketAction.act, Socket.answered] at hu
      split at hu
      · cases hu
      · cases hu
        exact .quiet rfl rfl rfl (fun _ => id) (Or.inl rfl)
  | flush =>
      rw [SocketAction.act, Socket.flush] at hu
      split at hu
      · cases hu
      · split at hu
        · exact fail_moves (b := b) hu
        · cases hu
          exact .quiet rfl rfl rfl (fun _ => id) (Or.inl rfl)
  | flushed =>
      rw [SocketAction.act, Socket.flushed] at hu
      split at hu
      · split at hu
        · exact fail_moves hu
        · split at hu
          · cases hu
            exact .quiet rfl rfl rfl (fun _ => id) (Or.inl rfl)
          · split at hu
            · exact fail_moves hu
            · cases hu
      · cases hu
  | replied =>
      rw [SocketAction.act, Socket.replied] at hu
      split at hu
      · dsimp only at hu
        split at hu
        · cases hu
          exact .quiet rfl rfl rfl (fun _ => id) (Or.inl rfl)
        · cases hu
          cases b with
          | false => exact .quiet rfl rfl rfl (fun _ => id) (Or.inl rfl)
          | true =>
              refine .quiet (by simp) (by simp) schedule_window (fun e he => ?_) (Or.inl rfl)
              rw [if_pos rfl, schedule_line] at he
              exact he
      · cases hu
  | replaced =>
      rw [SocketAction.act, Socket.replaced] at hu
      split at hu
      · next w hw =>
          cases hu
          exact .same rfl rfl (by rw [Socket.window?, Socket.window?, hw]) (fun _ => id) (Or.inl rfl)
      · cases hu
  | close =>
      cases hu
      exact .same rfl rfl rfl (fun _ => id) (Or.inl rfl)
  | evict =>
      cases hu
      exact .same rfl rfl rfl (fun _ => id) (Or.inl rfl)

theorem queue_moves {b : Bool} (he : e ∈ d.inbox) (hu : k.queue e d b = some u) : Moves d k u := by
  rw [Socket.queue] at hu
  split at hu
  · cases hu
    exact .same rfl rfl rfl (fun _ => id) (Or.inl rfl)
  · cases hu
    refine ⟨Or.inl (by simp), fun _ => schedule_front, fun w x rest hw hx => ?_, fun x hx => ?_, Or.inl rfl⟩
    · rw [schedule_window] at hw
      exact Or.inl ⟨w, hw, hx⟩
    · rcases hx with hx | ⟨w, hw, hx⟩ | hx
      · rw [schedule_out] at hx
        exact Or.inl (Or.inl hx)
      · rw [schedule_window] at hw
        exact Or.inl (Or.inr (Or.inl ⟨w, hw, hx⟩))
      · rw [schedule_line, Socket.line, ← List.append_assoc] at hx
        rcases List.mem_append.mp hx with hx | hx
        · exact Or.inl (Or.inr (Or.inr hx))
        · rw [List.mem_singleton.mp hx]
          exact Or.inr he

end MonoAgent.Mobile
