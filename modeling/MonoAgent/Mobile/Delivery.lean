import Mathlib
import MonoAgent.Mobile.Moves

/-!
# What a device is sent

Every event up to the sent cursor was put on a connection of the device, or is before a
reset that was.  A reset tells the client to build its state anew, so what is before it
need not be sent.  A client that is ahead of the device is told so by a reset as well,
and the device goes on from there.
-/

namespace MonoAgent.Mobile

open MonoAgent.Lib

variable {s t : Gateway} {d d' : Device} {k : Socket} {u : Turn} {c n m : Nat} {e : Event} {w : Window}

/-! ## What was reached -/

/-- The event was put on a connection. -/
def Gateway.Put (s : Gateway) (e : Event) : Prop := ∃ k ∈ s.sockets, e ∈ k.out

/-- The client has the event, or builds its state anew after it. -/
def Gateway.Covered (s : Gateway) (e : Event) : Prop := s.Put e ∨ ∃ r, s.Put r ∧ r.isReset = true ∧ e.seq < r.seq

/-- The events up to a number are covered, but for those that a client ahead of the device has passed. -/
def Gateway.Reached (s : Gateway) (n : Nat) : Prop :=
  ∀ e ∈ s.stored, s.rebased < e.seq → e.seq ≤ n → s.Covered e

theorem reached_zero : s.Reached 0 := fun e _ hlt hle => absurd hle (by omega)

theorem Gateway.Reached.le (h : s.Reached n) (hm : m ≤ n) : s.Reached m :=
  fun e he hlt hle => h e he hlt (Nat.le_trans hle hm)

theorem Gateway.Reached.max (h : s.Reached n) (h' : s.Reached m) : s.Reached (max n m) := by
  intro e he hlt hle
  rcases Nat.le_total n m with hnm | hnm
  · exact h' e he hlt (by omega)
  · exact h e he hlt (by omega)

/-- More is stored, put and passed. -/
structure Gateway.Onward (s t : Gateway) : Prop where
  stored : ∀ e ∈ t.stored, e ∈ s.stored ∨ s.device.next ≤ e.seq
  put : ∀ e, s.Put e → t.Put e
  rebased : s.rebased ≤ t.rebased

theorem Gateway.Reached.onward (h : s.Reached n) (ht : s.Onward t) (hn : n < s.device.next) : t.Reached n := by
  intro e he hlt hle
  have hold : e ∈ s.stored := (ht.stored e he).resolve_right (by omega)
  rcases h e hold (Nat.lt_of_le_of_lt ht.rebased hlt) hle with hput | ⟨r, hput, hr, hlt'⟩
  · exact Or.inl (ht.put e hput)
  · exact Or.inr ⟨r, ht.put r hput, hr, hlt'⟩

structure DeliveryInv (s : Gateway) : Prop where
  stored : s.stored.Pairwise fun a b => a.seq < b.seq
  below : ∀ e ∈ s.stored, e.seq < s.device.next
  inbox : ∀ e ∈ s.device.inbox, e ∈ s.stored
  known : ∀ k ∈ s.sockets, ∀ e, k.Has e → e ∈ s.stored
  sent : s.Reached s.device.sent
  put : ∀ e, s.Put e → s.Reached e.seq
  front : ∀ k ∈ s.sockets, s.Reached k.front ∧ k.front < s.device.next
  page : ∀ k ∈ s.sockets, ∀ w e rest, k.window? = some w → w.page = e :: rest → s.Reached (e.seq - 1)
  rebased : s.rebased < s.device.next

/-- Events with one number are one. -/
theorem DeliveryInv.unique (h : DeliveryInv s) {x y : Event} (hx : x ∈ s.stored) (hy : y ∈ s.stored)
    (hseq : x.seq = y.seq) : x = y := by
  have hnodup : (s.stored.map Event.seq).Nodup := (List.pairwise_map.mpr h.stored).imp Nat.ne_of_lt
  exact List.inj_on_of_nodup_map hnodup hx hy hseq

/-- An event that is put on a connection is reached. -/
theorem DeliveryInv.sends (h : DeliveryInv s) (ht : s.Onward t) (hk : k ∈ s.sockets) (he : k.Sends e)
    (hput : t.Put e) : t.Reached e.seq := by
  intro x hx hlt hle
  have hin := h.known k hk e he.1
  have hbelow := h.below e hin
  have hold : x ∈ s.stored := (ht.stored x hx).resolve_right (by omega)
  rcases Nat.eq_or_lt_of_le hle with heq | hbefore
  · exact Or.inl (h.unique hold hin heq ▸ hput)
  · rcases he.2 with hseq | hreset | ⟨w, rest, hw, hpage⟩
    · obtain ⟨hfront, hnext⟩ := h.front k hk
      exact hfront.onward ht hnext x hx hlt (by omega)
    · exact Or.inr ⟨e, hput, hreset, hbefore⟩
    · exact (h.page k hk w e rest hw hpage).onward ht (by omega) x hx hlt (by omega)

/-- The step of a socket. -/
theorem DeliveryInv.turn (h : DeliveryInv s) (hd : s.device.Inv) (hk : s.sockets[c]? = some k)
    (hm : Moves s.device k u) (hgrows : k.Grows u.socket) (hnext : u.device.next = s.device.next)
    (hinbox : ∀ e ∈ u.device.inbox, e ∈ s.device.inbox) (hsockets : t.sockets = s.sockets.set c u.socket)
    (hdevice : t.device = u.device) (hstored : t.stored = s.stored) (hrebased : t.rebased = s.rebased) :
    DeliveryInv t := by
  have hmem := List.mem_of_getElem? hk
  have hnew : u.socket ∈ t.sockets := by
    rw [hsockets]
    exact List.mem_set (List.getElem?_eq_some_iff.mp hk).1 _
  have hset (x : Socket) (hx : x ∈ t.sockets) : x ∈ s.sockets ∨ x = u.socket :=
    List.mem_or_eq_of_mem_set (hsockets ▸ hx)
  have honward : s.Onward t := by
    refine ⟨fun e he => Or.inl (hstored ▸ he), fun e ⟨x, hx, he⟩ => ?_, Nat.le_of_eq hrebased.symm⟩
    obtain ⟨i, hi⟩ := List.mem_iff_getElem?.mp hx
    by_cases hic : c = i
    · subst hic
      cases hk.symm.trans hi
      obtain ⟨es, hes⟩ := hgrows.out
      exact ⟨u.socket, hnew, by rw [hes]; exact List.mem_append_left _ he⟩
    · refine ⟨x, ?_, he⟩
      rw [hsockets]
      exact List.mem_of_getElem? ((List.getElem?_set_ne hic).trans hi)
  have hputs (e : Event) (he : t.Put e) : s.Put e ∨ k.Sends e := by
    obtain ⟨x, hx, hin⟩ := he
    rcases hset x hx with hx | rfl
    · exact Or.inl ⟨x, hx, hin⟩
    · rcases hm.out with hout | ⟨y, hy, hout⟩
      · exact Or.inl ⟨k, hmem, hout ▸ hin⟩
      · rw [hout] at hin
        rcases List.mem_append.mp hin with hin | hin
        · exact Or.inl ⟨k, hmem, hin⟩
        · exact Or.inr (List.mem_singleton.mp hin ▸ hy)
  have hreached (e : Event) (he : t.Put e) : t.Reached e.seq := by
    rcases hputs e he with hput | hsends
    · obtain ⟨x, hx, hin⟩ := hput
      exact (h.put e ⟨x, hx, hin⟩).onward honward (h.below e (h.known x hx e (Or.inl hin)))
    · exact h.sends honward hmem hsends he
  obtain ⟨hfront, hlt⟩ := h.front k hmem
  have hfront' : t.Reached u.socket.front ∧ u.socket.front < t.device.next := by
    rw [hdevice, hnext]
    rcases hm.out with hout | ⟨y, hy, hout⟩
    · rw [hm.front hout]
      exact ⟨hfront.onward honward hlt, hlt⟩
    · have heq : u.socket.front = y.seq := by
        rw [Socket.front, hout, finalSeq_concat]
      rw [heq]
      exact ⟨hreached y ⟨u.socket, hnew, by rw [hout]; simp⟩, h.below y (h.known k hmem y hy.1)⟩
  refine ⟨hstored ▸ h.stored, ?_, fun e he => ?_, fun x hx e he => ?_, ?_, hreached, fun x hx => ?_,
    fun x hx w e rest hw hpage => ?_, by rw [hrebased, hdevice, hnext]; exact h.rebased⟩
  · rw [hstored, hdevice, hnext]
    exact h.below
  · rw [hstored]
    exact h.inbox e (hinbox e (hdevice ▸ he))
  · rw [hstored]
    rcases hset x hx with hx | rfl
    · exact h.known x hx e he
    · exact (hm.has e he).elim (h.known k hmem e) (h.inbox e)
  · rw [hdevice]
    rcases hm.sent with hsent | hsent
    · rw [hsent]
      exact h.sent.onward honward hd.sent
    · rw [hsent]
      exact hfront.onward honward hlt
  · rcases hset x hx with hx | rfl
    · rw [hdevice, hnext]
      exact ⟨(h.front x hx).1.onward honward (h.front x hx).2, (h.front x hx).2⟩
    · exact hfront'
  · have hold (y : Socket) (hy : y ∈ s.sockets) (w : Window) (hw : y.window? = some w) (hpage : w.page = e :: rest) :
        t.Reached (e.seq - 1) := by
      have hin : y.Has e := Or.inr (Or.inl ⟨w, hw, Or.inl (by rw [hpage]; exact List.mem_cons_self)⟩)
      exact (h.page y hy w e rest hw hpage).onward honward (Nat.lt_of_le_of_lt (Nat.sub_le _ _)
        (h.below e (h.known y hy e hin)))
    rcases hset x hx with hx | rfl
    · exact hold x hx w hw hpage
    · rcases hm.page w e rest hw hpage with ⟨w', hw', hpage'⟩ | hseq | hseq
      · exact hold k hmem w' hw' hpage'
      · rw [hseq]
        exact hfront'.1
      · rw [hseq]
        have hacked := (h.sent.le hd.acked).onward honward (Nat.lt_of_le_of_lt hd.acked hd.sent)
        exact (hfront.onward honward hlt).max hacked

theorem Device.Advances.rows {a : SocketAction} (h : d.Advances a d') : d'.next = d.next ∧ ∀ e ∈ d'.inbox, e ∈ d.inbox := by
  cases h with
  | markSent n h =>
      obtain ⟨_, _, rfl⟩ := markSent_ok h
      exact ⟨rfl, fun _ => id⟩
  | acknowledge n h =>
      obtain ⟨_, _, rfl⟩ := acknowledge_ok h
      exact ⟨rfl, fun e he => List.mem_of_mem_filter he⟩

theorem DeliveryInv.act (h : DeliveryInv s) (hc : ConnectionsInv s) (a : SocketAction)
    (hn : s.act a.act c = some t) : DeliveryInv t := by
  obtain ⟨k, u, hk, hu, rfl⟩ := act_ok hn
  have hrows : u.device.next = s.device.next ∧ ∀ e ∈ u.device.inbox, e ∈ s.device.inbox := by
    rcases act_device a hu with hd | ⟨_, hd⟩
    · rw [hd]
      exact ⟨rfl, fun _ => id⟩
    · exact hd.rows
  exact h.turn hc.device hk (act_moves a (hc.sockets c k hk) hc.device hu) (act_grows a hu) hrows.1 hrows.2
    rfl rfl rfl rfl

/-! ## What is stored -/

/-- Rows are added to the inbox, or the inbox begins anew. -/
structure Device.Adds (d d' : Device) : Prop where
  next : d.next ≤ d'.next
  inbox : ∀ e ∈ d'.inbox, e ∈ d.inbox ∨ d.next ≤ e.seq

theorem append_adds {type : String} {now : Nat} : d.Adds (d.append type now).1 where
  next := Nat.le_succ _
  inbox e he := by
    rcases List.mem_append.mp he with he | he
    · exact Or.inl he
    · rw [List.mem_singleton.mp he]
      exact Or.inr (Nat.le_refl _)

theorem write_onward (d : Device) : s.Onward (s.write d) where
  stored e he := by
    rcases List.mem_append.mp he with he | he
    · exact Or.inl he
    · exact Or.inr (by simpa using (List.mem_filter.mp he).2)
  put _ := id
  rebased := Nat.le_refl _

theorem mem_write (h : s.device.Adds d') (hs : ∀ e ∈ s.device.inbox, e ∈ s.stored) (he : e ∈ d'.inbox) :
    e ∈ (s.write d').stored := by
  rcases h.inbox e he with hold | hnew
  · exact List.mem_append_left _ (hs e hold)
  · exact List.mem_append_right _ (List.mem_filter.mpr ⟨he, by simpa using hnew⟩)

/-- The device is written, and the sent cursor stays or what it passes was passed by the client. -/
theorem DeliveryInv.written (h : DeliveryInv s) (hd : s.device.Inv) (hd' : d'.Inv) (hadds : s.device.Adds d')
    {r : Nat} (hr : s.rebased ≤ r) (hlt : r < d'.next) (hsent : d'.sent = s.device.sent ∨ d'.sent ≤ r) :
    DeliveryInv { s.write d' with rebased := r } := by
  have honward : s.Onward { s.write d' with rebased := r } :=
    ⟨(write_onward d').stored, (write_onward d').put, hr⟩
  refine ⟨?_, fun e he => ?_, fun e he => mem_write hadds h.inbox he, fun k hk e he => ?_, ?_, fun e he => ?_,
    fun k hk => ?_, fun k hk w e rest hw hpage => ?_, hlt⟩
  · refine List.pairwise_append.mpr ⟨h.stored, hd'.inbox.pairwise.filter _, fun a ha b hb => ?_⟩
    have hbelow := h.below a ha
    have hnew : s.device.next ≤ b.seq := by simpa using (List.mem_filter.mp hb).2
    omega
  · rcases List.mem_append.mp he with he | he
    · exact Nat.lt_of_lt_of_le (h.below e he) hadds.next
    · have hbound := (hd'.inbox.bounds (List.mem_of_mem_filter he)).2
      have hlen := hd'.length
      change e.seq < d'.next
      omega
  · exact List.mem_append_left _ (h.known k hk e he)
  · rcases hsent with hsent | hsent
    · exact fun e he hlt hle => h.sent.onward honward hd.sent e he hlt (hsent ▸ hle)
    · exact fun e _ hlt hle => absurd hlt (Nat.not_lt_of_le (Nat.le_trans hle hsent))
  · obtain ⟨k, hk, hin⟩ := he
    exact (h.put e ⟨k, hk, hin⟩).onward honward (h.below e (h.known k hk e (Or.inl hin)))
  · obtain ⟨hfront, hlt⟩ := h.front k hk
    exact ⟨hfront.onward honward hlt, Nat.lt_of_lt_of_le hlt hadds.next⟩
  · have hin : k.Has e := Or.inr (Or.inl ⟨w, hw, Or.inl (by rw [hpage]; exact List.mem_cons_self)⟩)
    exact (h.page k hk w e rest hw hpage).onward honward (Nat.lt_of_le_of_lt (Nat.sub_le _ _)
      (h.below e (h.known k hk e hin)))

theorem DeliveryInv.store (h : DeliveryInv s) (hd : s.device.Inv) {type : String} {now : Nat} :
    DeliveryInv (s.store type now) := by
  obtain ⟨d, e, happend, hstore⟩ := store_ok (s := s) type now
  have hdev : d = (s.device.append type now).1 := (congrArg Prod.fst happend).symm
  have hevent : e = (s.device.append type now).2 := (congrArg Prod.snd happend).symm
  subst hdev hevent
  have hadds : s.device.Adds (s.device.append type now).1 := append_adds
  have hwritten := h.written hd hd.append hadds (Nat.le_refl _) (Nat.lt_succ_of_lt h.rebased) (Or.inl rfl)
  rcases hstore with ⟨hs, _⟩ | ⟨c, k, u, _, hk, hu, hs⟩
  · rw [hs]
    exact hwritten
  · rw [hs]
    have hin : (s.device.append type now).2 ∈ (s.device.append type now).1.inbox := by
      simp [Device.append]
    have hdev := queue_device hu
    refine hwritten.turn (u := u) hd.append hk (queue_moves hin hu) (queue_grows hu) ?_ ?_ rfl hdev.symm rfl rfl
    · rw [hdev]
      rfl
    · rw [hdev]
      exact fun _ => id

/-- What a resume stores, and what it moves. -/
theorem Device.Resumes.adds {lastAck now : Nat} (h : d.Resumes lastAck now d' w) :
    d.Adds d' ∧ w.terminal ∈ d'.inbox ∧ (d'.sent = d.sent ∨ d.next ≤ lastAck ∧ d'.sent = lastAck) := by
  have hread {after : Nat} {e : Event} {rest : List Event} (he : d.readEvents after 1 = e :: rest) : e ∈ d.inbox :=
    (mem_readEvents (he ▸ List.mem_cons_self)).1
  have hrefl : d.Adds d := ⟨Nat.le_refl _, fun e he => Or.inl he⟩
  cases h with
  | anew h => exact ⟨append_adds, by simp [Device.restartAt, Device.append], Or.inl rfl⟩
  | rebase h =>
      obtain ⟨hle, rfl, rfl⟩ := rebase_ok h
      refine ⟨⟨(by omega : d.next ≤ lastAck + 2), fun e he => Or.inr ?_⟩, List.mem_cons_self, Or.inr ⟨hle, rfl⟩⟩
      rw [List.mem_singleton.mp he]
      exact Nat.le_succ_of_le hle
  | replay h hle => exact ⟨append_adds, by simp [Device.append], Or.inl rfl⟩
  | reset h hle he hreset hlast => exact ⟨hrefl, hread he, Or.inl rfl⟩
  | after h hle he hreset ht hlast hne => exact ⟨hrefl, hread ht, Or.inl rfl⟩

/-- A fresh socket gets its window. -/
theorem DeliveryInv.opens (h : DeliveryInv s) (hk : s.sockets[c]? = some k) (hinv : k.Inv)
    (hp : k.place = .authenticated) {lastAck : Nat} (hopens : s.device.Opens lastAck w)
    (hterminal : w.terminal ∈ s.device.inbox) (hreached : s.Reached lastAck) {place : Place}
    (hplace : place = .resuming w ∨ place = .replacing w)
    (ht : t = { s with sockets := s.sockets.set c { k with place, lastAck }, active := t.active, resumed := t.resumed }) :
    DeliveryInv t := by
  obtain ⟨hout, hpending, -, hready⟩ := hinv.fresh hp
  have hidle := hinv.unready hready
  have hwindow (x : Window) (hx : Socket.window? { k with place, lastAck } = some x) : x = w := by
    rcases hplace with rfl | rfl
    · exact (Option.some.inj hx).symm
    · exact (Option.some.inj hx).symm
  have hset (x : Socket) (hx : x ∈ t.sockets) : x ∈ s.sockets ∨ x = { k with place, lastAck } := by
    rw [ht] at hx
    exact List.mem_or_eq_of_mem_set hx
  have hput (e : Event) : t.Put e ↔ s.Put e := by
    constructor
    · rintro ⟨x, hx, he⟩
      rcases hset x hx with hx | rfl
      · exact ⟨x, hx, he⟩
      · rw [show Socket.out { k with place, lastAck } = [] from hout] at he
        cases he
    · rintro ⟨x, hx, he⟩
      refine ⟨x, ?_, he⟩
      obtain ⟨i, hi⟩ := List.mem_iff_getElem?.mp hx
      have hic : c ≠ i := by
        rintro rfl
        cases hk.symm.trans hi
        rw [hout] at he
        cases he
      rw [ht]
      exact List.mem_of_getElem? ((List.getElem?_set_ne hic).trans hi)
  have hall {n : Nat} (hn : s.Reached n) : t.Reached n := by
    intro e he hlt hle
    rw [ht] at he hlt
    exact (hn e he hlt hle).imp (hput e).mpr fun ⟨r, hr, hrest⟩ => ⟨r, (hput r).mpr hr, hrest⟩
  have hstored : t.stored = s.stored := by rw [ht]
  have hdevice : t.device = s.device := by rw [ht]
  have hrebased : t.rebased = s.rebased := by rw [ht]
  refine ⟨hstored ▸ h.stored, by rw [hstored, hdevice]; exact h.below, by rw [hstored, hdevice]; exact h.inbox,
    fun x hx e he => ?_, hall (hdevice ▸ h.sent), fun e he => hall (h.put e ((hput e).mp he)), fun x hx => ?_,
    fun x hx y e rest hy hpage => ?_, by rw [hrebased, hdevice]; exact h.rebased⟩
  · rw [hstored]
    rcases hset x hx with hx | rfl
    · exact h.known x hx e he
    · rcases he with he | ⟨y, hy, he⟩ | he
      · rw [show Socket.out { k with place, lastAck } = [] from hout] at he
        cases he
      · cases hwindow y hy
        rw [hopens.page] at he
        exact h.inbox e (he.resolve_left nofun ▸ hterminal)
      · rw [show Socket.line { k with place, lastAck } = k.drain.taken ++ k.pending from rfl, hidle, hpending] at he
        cases he
  · rw [hdevice]
    rcases hset x hx with hx | rfl
    · exact ⟨hall (h.front x hx).1, (h.front x hx).2⟩
    · have hfront : Socket.front { k with place, lastAck } = lastAck := by
        rw [Socket.front, hout]
        rfl
      have hthrough := hopens.through
      have hlast := hopens.last
      rw [hfront]
      refine ⟨hall hreached, ?_⟩
      rcases hopens.terminal with hseq | ⟨_, _, hseq⟩
      · omega
      · omega
  · rcases hset x hx with hx | rfl
    · exact hall (h.page x hx y e rest hy hpage)
    · cases hwindow y hy
      rw [hopens.page] at hpage
      cases hpage

/-- A client resumes after an event that it has received, or is ahead of the device. -/
def Honest (s : Gateway) : GatewayAction → Prop
  | .register _ lastAck _ _ =>
      lastAck ≤ s.device.acked ∨ (∃ e, s.Put e ∧ e.seq = lastAck) ∨ s.device.next ≤ lastAck
  | _ => True

theorem DeliveryInv.register {lastAck now cutoff : Nat} (h : DeliveryInv s) (hc : ConnectionsInv s)
    (hok : Honest s (.register c lastAck now cutoff)) (hn : s.register c lastAck now cutoff = some t) :
    DeliveryInv t := by
  obtain ⟨k, hk, hn⟩ := Option.bind_eq_some_iff.mp hn
  have hinv := hc.sockets c k hk
  have hmove {p : Place} (hp : p = .running ∨ p = .closed) :
      DeliveryInv { s with sockets := s.sockets.set c { k with place := p } } := by
    have hwindow : Socket.window? { k with place := p } = none := by
      rcases hp with rfl | rfl
      · rfl
      · rfl
    exact h.turn (u := { socket := { k with place := p }, device := s.device }) hc.device hk
      (.quiet rfl rfl hwindow (fun _ => id) (Or.inl rfl)) (.same rfl rfl rfl) rfl (fun _ => id) rfl rfl rfl rfl
  split at hn
  · cases hn
  · next hne =>
      have hp : k.place = .authenticated := by simpa using hne
      split at hn
      · cases hn
        exact hmove (Or.inl rfl)
      · split at hn
        · cases hn
          exact hmove (Or.inr rfl)
        · next d w hprep =>
            cases hn
            have hresumes := prepareResume_ok hprep
            have hopens := hresumes.opens hc.device
            obtain ⟨hadds, hterminal, hsent⟩ := hresumes.adds
            have hlast := hopens.last
            have hlt : lastAck < d.next := by
              have hthrough := hopens.through
              rcases hopens.terminal with hseq | ⟨_, _, hseq⟩
              · omega
              · omega
            have hbefore := h.rebased
            have hnext := hadds.next
            have hwritten : DeliveryInv
                { s.write d with rebased := if s.device.next ≤ lastAck then lastAck else s.rebased } := by
              refine h.written hc.device hopens.device hadds ?_ ?_ ?_
              · split
                · omega
                · exact Nat.le_refl _
              · split
                · exact hlt
                · omega
              · rcases hsent with hsent | ⟨hle, hsent⟩
                · exact Or.inl hsent
                · rw [if_pos hle]
                  exact Or.inr (Nat.le_of_eq hsent)
            refine hwritten.opens hk hinv hp hopens hterminal ?_ ?_ rfl
            · have honward : s.Onward
                  { s.write d with rebased := if s.device.next ≤ lastAck then lastAck else s.rebased } := by
                refine ⟨(write_onward d).stored, (write_onward d).put, ?_⟩
                dsimp only
                split
                · omega
                · exact Nat.le_refl _
              have hdev := hc.device
              have hacked := hdev.acked
              have hcursor := hdev.sent
              rcases hok with hle | ⟨e, hput, rfl⟩ | hle
              · exact (h.sent.le (by omega)).onward honward (by omega)
              · obtain ⟨x, hx, hin⟩ := hput
                exact (h.put e ⟨x, hx, hin⟩).onward honward (h.below e (h.known x hx e (Or.inl hin)))
              · intro e _ hlt' hle'
                rw [if_pos hle] at hlt'
                exact absurd hle' (Nat.not_le_of_lt hlt')
            · split
              · exact Or.inl rfl
              · exact Or.inr rfl

/-! ## Every run -/

theorem deliveryInv_start : DeliveryInv {} where
  stored := List.Pairwise.nil
  below _ he := absurd he List.not_mem_nil
  inbox _ he := absurd he List.not_mem_nil
  known _ hk := absurd hk List.not_mem_nil
  sent := reached_zero
  put _ he := absurd he.choose_spec.1 List.not_mem_nil
  front _ hk := absurd hk List.not_mem_nil
  page _ hk := absurd hk List.not_mem_nil
  rebased := Nat.zero_lt_one

/-- What the sockets have to send shrinks, and what they sent stays. -/
theorem DeliveryInv.sockets (h : DeliveryInv s) {f : Socket → Socket} (hout : ∀ k, (f k).out = k.out)
    (hfront : ∀ k, (f k).front = k.front) (hhas : ∀ k e, (f k).Has e → k.Has e)
    (hwindow : ∀ k w, (f k).window? = some w → k.window? = some w) (hdevice : t.device = s.device)
    (hstored : t.stored = s.stored) (hrebased : t.rebased = s.rebased) (ht : t.sockets = s.sockets.map f) :
    DeliveryInv t := by
  have hput (e : Event) : t.Put e ↔ s.Put e := by
    rw [Gateway.Put, ht]
    constructor
    · rintro ⟨x, hx, he⟩
      obtain ⟨k, hk, rfl⟩ := List.mem_map.mp hx
      exact ⟨k, hk, hout k ▸ he⟩
    · rintro ⟨k, hk, he⟩
      exact ⟨f k, List.mem_map_of_mem hk, (hout k).symm ▸ he⟩
  have hall {n : Nat} (hn : s.Reached n) : t.Reached n := by
    intro e he hlt hle
    rw [hstored] at he
    rw [hrebased] at hlt
    exact (hn e he hlt hle).imp (hput e).mpr fun ⟨r, hr, hrest⟩ => ⟨r, (hput r).mpr hr, hrest⟩
  have hmem {x : Socket} (hx : x ∈ t.sockets) : ∃ k ∈ s.sockets, f k = x := List.mem_map.mp (ht ▸ hx)
  refine ⟨hstored ▸ h.stored, by rw [hstored, hdevice]; exact h.below, by rw [hstored, hdevice]; exact h.inbox,
    fun x hx e he => ?_, hall (hdevice ▸ h.sent), fun e he => hall (h.put e ((hput e).mp he)), fun x hx => ?_,
    fun x hx y e rest hy hpage => ?_, by rw [hrebased, hdevice]; exact h.rebased⟩
  · obtain ⟨k, hk, rfl⟩ := hmem hx
    rw [hstored]
    exact h.known k hk e (hhas k e he)
  · obtain ⟨k, hk, rfl⟩ := hmem hx
    rw [hfront, hdevice]
    exact ⟨hall (h.front k hk).1, (h.front k hk).2⟩
  · obtain ⟨k, hk, rfl⟩ := hmem hx
    exact hall (h.page k hk y e rest (hwindow k y hy) hpage)

theorem DeliveryInv.authenticate (h : DeliveryInv s) {n m : Nat} :
    DeliveryInv { s with lastEpoch := n, sockets := s.sockets ++ [{ epoch := m }] } := by
  have hput (e : Event) : Gateway.Put { s with lastEpoch := n, sockets := s.sockets ++ [{ epoch := m }] } e ↔ s.Put e := by
    constructor
    · rintro ⟨x, hx, he⟩
      rcases List.mem_append.mp hx with hx | hx
      · exact ⟨x, hx, he⟩
      · rw [List.mem_singleton.mp hx] at he
        cases he
    · rintro ⟨x, hx, he⟩
      exact ⟨x, List.mem_append_left _ hx, he⟩
  have hall {i : Nat} (hi : s.Reached i) :
      Gateway.Reached { s with lastEpoch := n, sockets := s.sockets ++ [{ epoch := m }] } i :=
    fun e he hlt hle => (hi e he hlt hle).imp (hput e).mpr fun ⟨r, hr, hrest⟩ => ⟨r, (hput r).mpr hr, hrest⟩
  refine ⟨h.stored, h.below, h.inbox, fun x hx e he => ?_, hall h.sent, fun e he => hall (h.put e ((hput e).mp he)),
    fun x hx => ?_, fun x hx y e rest hy hpage => ?_, h.rebased⟩
  · rcases List.mem_append.mp hx with hx | hx
    · exact h.known x hx e he
    · rw [List.mem_singleton.mp hx] at he
      rcases he with he | ⟨_, hy, _⟩ | he
      · cases he
      · cases hy
      · cases he
  · rcases List.mem_append.mp hx with hx | hx
    · exact ⟨hall (h.front x hx).1, (h.front x hx).2⟩
    · rw [List.mem_singleton.mp hx]
      exact ⟨reached_zero, Nat.zero_lt_of_lt h.rebased⟩
  · rcases List.mem_append.mp hx with hx | hx
    · exact hall (h.page x hx y e rest hy hpage)
    · rw [List.mem_singleton.mp hx] at hy
      cases hy

theorem deliveryInv_next {a : GatewayAction} (h : DeliveryInv s) (hc : ConnectionsInv s) (hok : Honest s a)
    (hn : gatewayMachine.next s a = some t) (hrev : t.device.revoked = false) : DeliveryInv t := by
  have hsame {t : Gateway} (hd : t.device = s.device) (hs : t.stored = s.stored) (hr : t.rebased = s.rebased)
      (hsockets : t.sockets = s.sockets) : DeliveryInv t :=
    h.sockets (f := id) (fun _ => rfl) (fun _ => rfl) (fun _ _ => id) (fun _ _ => id) hd hs hr (by simp [hsockets])
  cases a with
  | authenticate =>
      replace hn : s.authenticate = some t := hn
      rw [Gateway.authenticate] at hn
      split at hn
      · cases hn
      · cases hn
        exact h.authenticate
  | otherAuthenticates =>
      cases hn
      exact hsame rfl rfl rfl rfl
  | register c lastAck now cutoff => exact h.register hc hok hn
  | act c a => exact h.act hc a hn
  | publish type now =>
      cases hn
      rw [Gateway.publish]
      split
      · exact h
      · exact h.store hc.device
  | publishTo type now epoch =>
      cases hn
      cases epoch with
      | none => exact h.store hc.device
      | some n =>
          rw [Gateway.publishTo]
          split
          · exact h.store hc.device
          · exact h
  | revoke =>
      cases hn
      rw [revoke_ok.1] at hrev
      cases hrev
  | revokeEnds c =>
      replace hn : s.revokeEnds c = some t := hn
      rw [Gateway.revokeEnds] at hn
      split at hn
      · have hs : DeliveryInv { s with revoking := s.revoking.erase c, revoked := true } := hsame rfl rfl rfl rfl
        exact hs.act ⟨hc.device, hc.sockets, hc.active⟩ .close hn
      · cases hn
  | stop =>
      cases hn
      exact hsame rfl rfl rfl rfl
  | restart =>
      cases hn
      refine h.sockets (f := Socket.lost) (fun _ => rfl) (fun _ => rfl) (fun k e he => ?_)
        (fun _ _ hw => by cases (hw : none = some _)) rfl rfl rfl rfl
      rcases he with he | ⟨_, hw, _⟩ | he
      · exact Or.inl he
      · cases hw
      · cases he

theorem deliveryInv_reach (h : gatewayMachine.Reach Honest s) (hr : s.device.revoked = false) : DeliveryInv s := by
  have hboth : s.device.revoked = false → ConnectionsInv s ∧ DeliveryInv s := by
    refine h.invariant (I := fun s => s.device.revoked = false → ConnectionsInv s ∧ DeliveryInv s) (fun s hs _ => ?_)
      fun s a t hi hok hn hr => ?_
    · rw [show s = {} from hs]
      exact ⟨connectionsInv_start, deliveryInv_start⟩
    · obtain ⟨hc, hd⟩ := hi (revoked_before hn hr)
      exact ⟨connectionsInv_next hc hn hr, deliveryInv_next hd hc hok hn hr⟩
  exact (hboth hr).2

end MonoAgent.Mobile
