import MonoAgent.Snapshots.Store

/-!
# The pointers of the store

The stable snapshot is committed and retained, and at most one other snapshot is: the
candidate, which is pending, provisional or waits for its promotion.  A snapshot that was
retired or aborted is never opened again.
-/

namespace MonoAgent.Snapshots

open MonoAgent.Lib

variable {s t : Store} {i j c p : Nat} {tx : Transaction}

/-! ## Small steps -/

theorem modify_heap {f : Snapshot → Snapshot} :
    (s.modify i f).heap j = if j = i then f (s.heap i) else s.heap j :=
  Function.update_apply s.heap i _ j

/-- What a snapshot becomes depends on the snapshots only. -/
theorem modify_congr {f : Snapshot → Snapshot} (h : s.heap = t.heap) : (s.modify i f).heap = (t.modify i f).heap := by
  rw [Store.modify, Store.modify, h]

theorem modify_modify {f g : Snapshot → Snapshot} :
    ((s.modify i f).modify i g).heap = (s.modify i (g ∘ f)).heap := by
  refine funext fun j => ?_
  rw [modify_heap, modify_heap, if_pos rfl]
  by_cases hj : j = i
  · rw [if_pos hj, modify_heap, if_pos hj, Function.comp_apply]
  · rw [if_neg hj, modify_heap, if_neg hj, modify_heap, if_neg hj]

@[simp] theorem modify_current {f : Snapshot → Snapshot} : (s.modify i f).current = s.current := rfl

@[simp] theorem modify_latest {f : Snapshot → Snapshot} : (s.modify i f).latest = s.latest := rfl

@[simp] theorem modify_retained {f : Snapshot → Snapshot} : (s.modify i f).retained = s.retained := rfl

/-- Nothing but the waiters, the drains and the leases changes. -/
structure Still (s t : Store) : Prop where
  phase : ∀ i, (t.heap i).phase = (s.heap i).phase
  current : t.current = s.current
  latest : t.latest = s.latest
  retained : t.retained = s.retained
  pending : t.pending = s.pending
  provisional : t.provisional = s.provisional
  size : t.size = s.size

theorem Still.refl : Still s s := ⟨fun _ => rfl, rfl, rfl, rfl, rfl, rfl, rfl⟩

theorem Still.trans {r : Store} (h : Still r s) (h' : Still s t) : Still r t :=
  ⟨fun i => (h'.phase i).trans (h.phase i), h'.current.trans h.current, h'.latest.trans h.latest,
    h'.retained.trans h.retained, h'.pending.trans h.pending, h'.provisional.trans h.provisional,
    h'.size.trans h.size⟩

theorem still_notifyAll : Still s s.notifyAll := ⟨fun _ => rfl, rfl, rfl, rfl, rfl, rfl, rfl⟩

theorem still_scheduleDrain : Still s (s.scheduleDrain i) := by
  rw [Store.scheduleDrain]
  split
  · exact .refl
  · split
    · exact .refl
    · exact ⟨fun _ => rfl, rfl, rfl, rfl, rfl, rfl, rfl⟩

theorem still_modify {f : Snapshot → Snapshot} (hf : ∀ x, (f x).phase = x.phase) : Still s (s.modify i f) := by
  refine ⟨fun j => ?_, rfl, rfl, rfl, rfl, rfl, rfl⟩
  rw [modify_heap]
  split
  · next h => rw [hf, h]
  · rfl

theorem still_accept {i : Option Nat} {b : Bool} : Still s (s.accept i b) := by
  cases i with
  | none => exact .refl
  | some i => exact still_modify fun _ => rfl

theorem still_addLeases {f : Nat → Nat} : Still s (s.addLeases i f) := by
  refine ⟨fun j => ?_, rfl, rfl, rfl, rfl, rfl, rfl⟩
  exact (still_modify (s := s) (i := i) (f := fun x => { x with leases := f x.leases }) fun _ => rfl).phase j

theorem still_claimLease : Still s (s.claimLease i) := by
  have h : Still s (s.addLeases i (· + 1)) := still_addLeases
  exact ⟨h.phase, rfl, rfl, rfl, rfl, rfl, rfl⟩

/-! ## The invariant -/

structure PointerInv (s : Store) : Prop where
  bound : ∀ i ∈ s.retained, i < s.size
  current : ∀ c, s.current = some c → c ∈ s.retained ∧ (s.heap c).phase = .committed
  latest : ∀ c, s.latest = some c → c ∈ s.retained ∧ (s.heap c).phase = .committed
  pending : ∀ tx, s.pending = some tx → s.provisional = none ∧ s.unpromoted = none ∧ tx.previous = s.current ∧
    tx.candidate ∈ s.retained ∧ (s.heap tx.candidate).phase = .validating
  provisional : ∀ tx, s.provisional = some tx → s.pending = none ∧ tx.previous = s.current ∧
    s.latest = some tx.candidate ∧ s.current ≠ some tx.candidate
  /-- A snapshot that is not closed has its place. -/
  known : ∀ i ∈ s.retained, (s.heap i).phase = .validating ∨ (s.heap i).phase = .committed →
    s.current = some i ∨ s.latest = some i ∨ ∃ tx, s.pending = some tx ∧ tx.candidate = i

theorem PointerInv.still (h : PointerInv s) (hs : Still s t) : PointerInv t := by
  have hunpromoted : t.unpromoted = s.unpromoted := by
    rw [Store.unpromoted, Store.unpromoted, Store.latest?, Store.latest?, hs.latest, hs.current]
  refine ⟨fun i hi => ?_, fun c hc => ?_, fun c hc => ?_, fun tx htx => ?_, fun tx htx => ?_, fun i hi hp => ?_⟩
  · rw [hs.retained] at hi
    rw [hs.size]
    exact h.bound i hi
  · rw [hs.current] at hc
    rw [hs.retained, hs.phase]
    exact h.current c hc
  · rw [hs.latest] at hc
    rw [hs.retained, hs.phase]
    exact h.latest c hc
  · rw [hs.pending] at htx
    rw [hs.provisional, hunpromoted, hs.current, hs.retained, hs.phase]
    exact h.pending tx htx
  · rw [hs.provisional] at htx
    rw [hs.pending, hs.current, hs.latest]
    exact h.provisional tx htx
  · rw [hs.retained] at hi
    rw [hs.phase] at hp
    rw [hs.current, hs.latest, hs.pending]
    exact h.known i hi hp

theorem unpromoted_eq (h : s.unpromoted = some c) : s.latest = some c ∧ s.current ≠ some c := by
  rw [Store.unpromoted] at h
  split at h
  · cases h
  · next hne =>
      rw [Store.latest?] at h hne
      cases hl : s.latest with
      | none =>
          rw [hl, Option.none_or] at h hne
          exact absurd rfl hne
      | some l =>
          rw [hl, Option.some_or] at h hne
          exact ⟨h, fun hc => hne (h.trans hc.symm)⟩

theorem unpromoted_none (h : s.unpromoted = none) (hl : s.latest = some c) : s.current = some c := by
  rw [Store.unpromoted, Store.latest?, hl, Option.some_or] at h
  split at h
  · next heq => exact heq.symm
  · cases h

/-- At most one snapshot is open beside the stable one. -/
theorem PointerInv.candidate (h : PointerInv s) (hi : i ∈ s.retained) (hj : j ∈ s.retained)
    (hpi : (s.heap i).phase = .validating ∨ (s.heap i).phase = .committed)
    (hpj : (s.heap j).phase = .validating ∨ (s.heap j).phase = .committed)
    (hci : s.current ≠ some i) (hcj : s.current ≠ some j) : i = j := by
  have hone {i : Nat} (hi : i ∈ s.retained) (hp : (s.heap i).phase = .validating ∨ (s.heap i).phase = .committed)
      (hc : s.current ≠ some i) : s.latest = some i ∧ s.pending = none ∨ ∃ tx, s.pending = some tx ∧ tx.candidate = i := by
    rcases h.known i hi hp with hcur | hlatest | hpending
    · exact absurd hcur hc
    · cases htx : s.pending with
      | none => exact Or.inl ⟨hlatest, rfl⟩
      | some tx => exact absurd (unpromoted_none (h.pending tx htx).2.1 hlatest) hc
    · exact Or.inr hpending
  rcases hone hi hpi hci with ⟨hl, hp⟩ | ⟨tx, htx, rfl⟩
  · rcases hone hj hpj hcj with ⟨hl', _⟩ | ⟨tx, htx, _⟩
    · exact Option.some.inj (hl.symm.trans hl')
    · rw [hp] at htx
      cases htx
  · rcases hone hj hpj hcj with ⟨_, hp⟩ | ⟨tx', htx', rfl⟩
    · rw [hp] at htx
      cases htx
    · rw [Option.some.inj (htx.symm.trans htx')]

/-! ## Moving the pointers -/

/-- A snapshot that is open, beside the stable one. -/
structure Candidate (s : Store) (c : Nat) : Prop where
  retained : c ∈ s.retained
  phase : (s.heap c).phase = .validating ∨ (s.heap c).phase = .committed
  current : s.current ≠ some c

/-- The candidate becomes the stable snapshot, and the stable one is retired. -/
theorem PointerInv.promoted (h : PointerInv s) (hc : Candidate s c) (hcurrent : t.current = some c)
    (hlatest : t.latest = some c) (hpending : t.pending = none) (hprovisional : t.provisional = none)
    (hretained : t.retained = s.retained) (hsize : t.size = s.size)
    (hphase : ∀ i, (t.heap i).phase = if i = c then .committed else if s.current = some i then .retired
      else (s.heap i).phase) : PointerInv t := by
  have hopen : c ∈ t.retained ∧ (t.heap c).phase = .committed := by
    rw [hretained, hphase, if_pos rfl]
    exact ⟨hc.retained, rfl⟩
  refine ⟨fun i hi => ?_, fun i hi => ?_, fun i hi => ?_, fun tx htx => ?_, fun tx htx => ?_, fun i hi hp => ?_⟩
  · rw [hsize]
    exact h.bound i (hretained ▸ hi)
  · cases hcurrent.symm.trans hi
    exact hopen
  · cases hlatest.symm.trans hi
    exact hopen
  · cases hpending.symm.trans htx
  · cases hprovisional.symm.trans htx
  · rw [hretained] at hi
    rw [hphase] at hp
    split at hp
    · next heq =>
        rw [heq]
        exact Or.inl hcurrent
    · next hne =>
        split at hp
        · rcases hp with hp | hp
          · cases hp
          · cases hp
        · next hcur => exact absurd (h.candidate hi hc.retained hp hc.phase hcur hc.current) hne

/-- The candidate is committed, and the stable snapshot stays. -/
theorem PointerInv.staged (h : PointerInv s) (hc : Candidate s c) (hcurrent : t.current = s.current)
    (hlatest : t.latest = some c) (hpending : t.pending = none)
    (hprovisional : ∀ tx, t.provisional = some tx → tx.previous = s.current ∧ tx.candidate = c)
    (hretained : t.retained = s.retained) (hsize : t.size = s.size)
    (hphase : ∀ i, (t.heap i).phase = if i = c then .committed else (s.heap i).phase) : PointerInv t := by
  refine ⟨fun i hi => ?_, fun i hi => ?_, fun i hi => ?_, fun tx htx => ?_, fun tx htx => ?_, fun i hi hp => ?_⟩
  · rw [hsize]
    exact h.bound i (hretained ▸ hi)
  · rw [hcurrent] at hi
    rw [hretained, hphase, if_neg (by rintro rfl; exact hc.current hi)]
    exact h.current i hi
  · cases hlatest.symm.trans hi
    rw [hretained, hphase, if_pos rfl]
    exact ⟨hc.retained, rfl⟩
  · cases hpending.symm.trans htx
  · obtain ⟨hprevious, rfl⟩ := hprovisional tx htx
    rw [hcurrent]
    exact ⟨hpending, hprevious, hlatest, hc.current⟩
  · rw [hretained] at hi
    rw [hphase] at hp
    split at hp
    · next heq =>
        rw [heq]
        exact Or.inr (Or.inl hlatest)
    · next hne =>
        rw [hcurrent]
        by_cases hcur : s.current = some i
        · exact Or.inl hcur
        · exact absurd (h.candidate hi hc.retained hp hc.phase hcur hc.current) hne

/-- The candidate is withdrawn, and pending or aborted. -/
theorem PointerInv.withdrawn (h : PointerInv s) (hc : Candidate s c) (hcurrent : t.current = s.current)
    (hlatest : t.latest = s.current ∨ t.latest = s.latest ∧ s.latest ≠ some c)
    (hunpromoted : t.unpromoted = none) (hprovisional : t.provisional = none)
    (hpending : ∀ tx, t.pending = some tx → tx.previous = s.current ∧ tx.candidate = c)
    (hretained : t.retained = s.retained) (hsize : t.size = s.size) {p : Phase}
    (hp : p = .validating ∧ t.pending ≠ none ∨ p = .aborted ∧ t.pending = none)
    (hphase : ∀ i, (t.heap i).phase = if i = c then p else (s.heap i).phase) : PointerInv t := by
  have hstable {i : Nat} (hi : s.current = some i) : i ∈ t.retained ∧ (t.heap i).phase = .committed := by
    rw [hretained, hphase, if_neg (by rintro rfl; exact hc.current hi)]
    exact h.current i hi
  refine ⟨fun i hi => ?_, fun i hi => hstable (hcurrent ▸ hi), fun i hi => ?_, fun tx htx => ?_, fun tx htx => ?_,
    fun i hi hopen => ?_⟩
  · rw [hsize]
    exact h.bound i (hretained ▸ hi)
  · rcases hlatest with heq | ⟨heq, hne⟩
    · exact hstable (heq ▸ hi)
    · rw [heq] at hi
      rw [hretained, hphase, if_neg (by rintro rfl; exact hne hi)]
      exact h.latest i hi
  · obtain ⟨hprevious, rfl⟩ := hpending tx htx
    have hv : p = .validating := by
      rcases hp with ⟨hp, _⟩ | ⟨_, hnone⟩
      · exact hp
      · cases hnone.symm.trans htx
    rw [hcurrent, hretained, hphase, if_pos rfl]
    exact ⟨hprovisional, hunpromoted, hprevious, hc.retained, hv⟩
  · cases hprovisional.symm.trans htx
  · rw [hretained] at hi
    rw [hphase] at hopen
    split at hopen
    · next heq =>
        rcases hp with ⟨_, hsome⟩ | ⟨rfl, _⟩
        · obtain ⟨tx, htx⟩ := Option.ne_none_iff_exists'.mp hsome
          exact Or.inr (Or.inr ⟨tx, htx, (hpending tx htx).2.trans heq.symm⟩)
        · rcases hopen with hopen | hopen
          · cases hopen
          · cases hopen
    · next hne =>
        rw [hcurrent]
        by_cases hcur : s.current = some i
        · exact Or.inl hcur
        · exact absurd (h.candidate hi hc.retained hopen hc.phase hcur hc.current) hne

theorem PointerInv.pending_candidate (h : PointerInv s) (htx : s.pending = some tx) : Candidate s tx.candidate := by
  obtain ⟨_, _, _, hret, hphase⟩ := h.pending tx htx
  refine ⟨hret, Or.inl hphase, fun hcur => ?_⟩
  have hcommitted := (h.current _ hcur).2
  rw [hphase] at hcommitted
  cases hcommitted

theorem PointerInv.provisional_candidate (h : PointerInv s) (htx : s.provisional = some tx) :
    Candidate s tx.candidate := by
  obtain ⟨_, _, hlatest, hcur⟩ := h.provisional tx htx
  obtain ⟨hret, hphase⟩ := h.latest _ hlatest
  exact ⟨hret, Or.inr hphase, hcur⟩

theorem PointerInv.unpromoted_candidate (h : PointerInv s) (hc : s.unpromoted = some c) : Candidate s c := by
  obtain ⟨hlatest, hcur⟩ := unpromoted_eq hc
  obtain ⟨hret, hphase⟩ := h.latest c hlatest
  exact ⟨hret, Or.inr hphase, hcur⟩

end MonoAgent.Snapshots
