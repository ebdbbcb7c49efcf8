import Mathlib
import MonoAgent.Snapshots.Steps

/-!
# The leases of the snapshots

The count of a snapshot is the number of its leases that were not released, and the count
of a generation is the sum over the snapshots that contain it.
-/

namespace MonoAgent.Snapshots

open MonoAgent.Lib

variable {r s t : Store} {i j g n : Nat} {tx : Transaction} {l : Lease}

/-- One term of a sum changes. -/
theorem sum_change {S : Finset Nat} {f h : Nat → Nat} (hi : i ∈ S) (hf : ∀ j, j ≠ i → h j = f j) :
    S.sum h + f i = S.sum f + h i := by
  have hrest : (S.erase i).sum h = (S.erase i).sum f :=
    Finset.sum_congr rfl fun j hj => hf j (Finset.ne_of_mem_erase hj)
  have hold : f i + (S.erase i).sum f = S.sum f := Finset.add_sum_erase S f hi
  have hnew : h i + (S.erase i).sum h = S.sum h := Finset.add_sum_erase S h hi
  omega

/-- The leases of the snapshots that contain a generation. -/
def Store.total (s : Store) (g : Nat) : Nat :=
  ((Finset.range s.size).filter fun i => g ∈ (s.heap i).generations).sum fun i => (s.heap i).leases

def Store.held (s : Store) (i : Nat) : Nat := s.leases.countP fun l => l.active ∧ l.snapshot = i

structure LeaseInv (s : Store) : Prop where
  snapshots : ∀ i, (s.heap i).leases = s.held i
  generations : ∀ g, s.counts g = s.total g
  bound : ∀ l ∈ s.leases, l.snapshot < s.size

/-- The counts depend on the leases and the snapshots. -/
theorem LeaseInv.congr (h : LeaseInv s)
    (hheap : ∀ i, (t.heap i).leases = (s.heap i).leases ∧ (t.heap i).generations = (s.heap i).generations)
    (hcounts : t.counts = s.counts) (hleases : t.leases = s.leases) (hsize : t.size = s.size) : LeaseInv t := by
  refine ⟨fun i => ?_, fun g => ?_, fun l hl => ?_⟩
  · rw [(hheap i).1, Store.held, hleases]
    exact h.snapshots i
  · have htotal : t.total g = s.total g := by
      simp only [Store.total, Finset.sum_filter, (hheap _).1, (hheap _).2, hsize]
    rw [hcounts, htotal]
    exact h.generations g
  · rw [hsize]
    exact h.bound l (hleases ▸ hl)

theorem LeaseInv.switches (h : LeaseInv s) (hs : Switches s t) : LeaseInv t :=
  h.congr hs.heap hs.counts hs.leases hs.size

theorem scheduleDrain_keeps : (s.scheduleDrain i).heap = s.heap ∧ (s.scheduleDrain i).counts = s.counts ∧
    (s.scheduleDrain i).leases = s.leases ∧ (s.scheduleDrain i).size = s.size := by
  rw [Store.scheduleDrain]
  split
  · exact ⟨rfl, rfl, rfl, rfl⟩
  · split
    · exact ⟨rfl, rfl, rfl, rfl⟩
    · exact ⟨rfl, rfl, rfl, rfl⟩

theorem LeaseInv.settles (h : LeaseInv s) (hs : Settles s t) : LeaseInv t := by
  induction hs with
  | refl => exact h
  | schedule i _ ih =>
      obtain ⟨hheap, hcounts, hleases, hsize⟩ := scheduleDrain_keeps (i := i)
      exact ih.congr (fun j => by rw [hheap]; exact ⟨rfl, rfl⟩) hcounts hleases hsize
  | notify _ ih => exact ih.congr (fun _ => ⟨rfl, rfl⟩) rfl rfl rfl
  | waits ws _ ih => exact ih.congr (fun _ => ⟨rfl, rfl⟩) rfl rfl rfl

theorem LeaseInv.publishes (h : LeaseInv s) (hs : Publishes s t) : LeaseInv t := by
  obtain ⟨r, hswitch, _, hsettles⟩ := hs
  exact (h.switches hswitch).settles hsettles

/-- A new snapshot has no lease. -/
theorem LeaseInv.adopt (h : LeaseInv s) {id : String} {generations : Finset Nat} {root : Option Nat} {p : Phase} {b : Bool} :
    LeaseInv (s.adopt id generations root p b) := by
  have hheap (i : Nat) (hi : i ≠ s.size) : (s.adopt id generations root p b).heap i = s.heap i :=
    Function.update_of_ne hi _ _
  have hself : ((s.adopt id generations root p b).heap s.size).leases = 0 :=
    congrArg Snapshot.leases (Function.update_self s.size _ s.heap)
  have hnone : s.held s.size = 0 := by
    refine List.countP_eq_zero.mpr fun l hl => ?_
    have hlt := h.bound l hl
    simp only [decide_eq_true_eq, not_and]
    intro _
    omega
  refine ⟨fun i => ?_, fun g => ?_, fun l hl => Nat.lt_succ_of_lt (h.bound l hl)⟩
  · by_cases hi : i = s.size
    · rw [hi, hself]
      exact hnone.symm
    · rw [hheap i hi]
      exact h.snapshots i
  · have hsum : (s.adopt id generations root p b).total g = s.total g := by
      rw [Store.total, Store.total, Finset.sum_filter, Finset.sum_filter]
      change (Finset.range (s.size + 1)).sum _ = _
      rw [Finset.sum_range_succ, hself, ite_self, Nat.add_zero]
      refine Finset.sum_congr rfl fun i hi => ?_
      rw [hheap i (Nat.ne_of_lt (Finset.mem_range.mp hi))]
    rw [hsum]
    exact h.generations g

theorem addLeases_heap {f : Nat → Nat} : (s.addLeases i f).heap j =
    if j = i then { s.heap i with leases := f (s.heap i).leases } else s.heap j :=
  modify_heap (f := fun x => { x with leases := f x.leases })

/-- The leases of one snapshot change. -/
theorem total_addLeases {f : Nat → Nat} (hi : i < s.size) :
    (s.addLeases i f).total g + (if g ∈ (s.heap i).generations then (s.heap i).leases else 0) =
      s.total g + (if g ∈ (s.heap i).generations then f (s.heap i).leases else 0) := by
  rw [Store.total, Store.total, Finset.sum_filter, Finset.sum_filter]
  have hself : (s.addLeases i f).heap i = { s.heap i with leases := f (s.heap i).leases } := by
    rw [addLeases_heap, if_pos rfl]
  have hchange := sum_change (S := Finset.range s.size) (Finset.mem_range.mpr hi)
    (f := fun j => if g ∈ (s.heap j).generations then (s.heap j).leases else 0)
    (h := fun j => if g ∈ ((s.addLeases i f).heap j).generations then ((s.addLeases i f).heap j).leases else 0)
    fun j hj => by rw [addLeases_heap, if_neg hj]
  rw [hself] at hchange
  exact hchange

theorem held_concat : Store.held { s with leases := s.leases ++ [l] } i =
    s.held i + if l.active ∧ l.snapshot = i then 1 else 0 := by
  rw [Store.held, Store.held, List.countP_append, List.countP_singleton]
  simp

theorem LeaseInv.claimLease (h : LeaseInv s) (hi : i < s.size) : LeaseInv (s.claimLease i) := by
  have hheap (j : Nat) : (s.claimLease i).heap j =
      if j = i then { s.heap i with leases := (s.heap i).leases + 1 } else s.heap j := addLeases_heap
  refine ⟨fun j => ?_, fun g => ?_, fun l hl => ?_⟩
  · have hheld : (s.claimLease i).held j = s.held j + if true = true ∧ i = j then 1 else 0 := held_concat
    rw [hheld, hheap]
    split
    · next heq =>
        rw [if_pos ⟨rfl, heq.symm⟩, heq]
        exact congrArg (· + 1) (h.snapshots i)
    · next hne =>
        rw [if_neg fun hx => hne hx.2.symm]
        exact h.snapshots j
  · have htotal := total_addLeases (g := g) (f := (· + 1)) hi
    have hcount := h.generations g
    change (if g ∈ (s.heap i).generations then s.counts g + 1 else s.counts g) = (s.addLeases i (· + 1)).total g
    split at htotal
    · next hg =>
        rw [if_pos hg]
        omega
    · next hg =>
        rw [if_neg hg]
        omega
  · rcases List.mem_append.mp hl with hl | hl
    · exact h.bound l hl
    · rw [List.mem_singleton.mp hl]
      exact hi

/-- A lease that is released counts no more. -/
theorem held_set (hl : s.leases[n]? = some l) (ha : l.active = true) :
    Store.held { s with leases := s.leases.set n { l with active := false } } i + (if l.snapshot = i then 1 else 0) =
      s.held i := by
  obtain ⟨hn, hget⟩ := List.getElem?_eq_some_iff.mp hl
  have hset := List.countP_set (p := fun l : Lease => decide (l.active = true ∧ l.snapshot = i))
    (a := { l with active := false }) hn
  rw [hget] at hset
  have hless : Store.held { s with leases := s.leases.set n { l with active := false } } i =
      s.held i - if l.snapshot = i then 1 else 0 := by
    rw [Store.held, Store.held]
    simpa [ha] using hset
  rw [hless]
  by_cases hi : l.snapshot = i
  · have hpos : 0 < s.held i := List.countP_pos_iff.mpr ⟨l, List.mem_of_getElem? hl, by simp [ha, hi]⟩
    rw [if_pos hi]
    omega
  · rw [if_neg hi]
    rfl

theorem LeaseInv.release (h : LeaseInv s) (hl : s.leases[n]? = some l) (ha : l.active = true) :
    LeaseInv (Store.addLeases { s with leases := s.leases.set n { l with active := false } } l.snapshot (· - 1)) := by
  have hi := h.bound l (List.mem_of_getElem? hl)
  have hpos : 0 < (s.heap l.snapshot).leases := by
    have hheld := held_set (i := l.snapshot) hl ha
    rw [if_pos rfl] at hheld
    rw [h.snapshots]
    omega
  have htotal (g : Nat) := total_addLeases (g := g) (f := (· - 1)) hi
  refine ⟨fun j => ?_, fun g => ?_, fun k hk => ?_⟩
  · have hheld := held_set (i := j) hl ha
    rw [addLeases_heap]
    split
    · next heq =>
        rw [heq, if_pos rfl, ← h.snapshots] at hheld
        change (s.heap l.snapshot).leases - 1 = Store.held { s with leases := s.leases.set n { l with active := false } } j
        rw [heq]
        omega
    · next hne =>
        rw [if_neg (Ne.symm hne), Nat.add_zero] at hheld
        exact (h.snapshots j).trans hheld.symm
  · have hcount := h.generations g
    have hnew := htotal g
    have hsame : (Store.addLeases { s with leases := s.leases.set n { l with active := false } } l.snapshot (· - 1)).total g =
        (s.addLeases l.snapshot (· - 1)).total g := rfl
    rw [hsame]
    change (if g ∈ (s.heap l.snapshot).generations then s.counts g - 1 else s.counts g) = _
    split at hnew
    · next hg =>
        rw [if_pos hg]
        omega
    · next hg =>
        rw [if_neg hg]
        omega
  · rcases List.mem_or_eq_of_mem_set hk with hk | rfl
    · exact h.bound k hk
    · exact hi

/-! ## What can be leased -/

/-- The snapshot is open, or leased. -/
structure Leasable (s : Store) (i : Nat) : Prop where
  retained : i ∈ s.retained
  held : (s.heap i).phase.closed = false ∨ ∃ l ∈ s.leases, l.active = true ∧ l.snapshot = i

theorem PointerInv.select (h : PointerInv s) {t : Target} (hi : s.select t = some i) : i ∈ s.retained := by
  cases t with
  | stable => exact (h.current i hi).1
  | latest =>
      have hi' : s.latest.or s.current = some i := hi
      rcases Option.or_eq_some_iff.mp hi' with hl | ⟨_, hc⟩
      · exact (h.latest i hl).1
      · exact (h.current i hc).1
  | id id => exact List.mem_of_find?_eq_some hi
  | root root => exact List.mem_of_find?_eq_some hi

theorem admission_open {t : Target} (h : s.admission t i = .open) :
    (s.heap i).phase = .committed ∧ (s.heap i).accepting = true := by
  have hplain (h : (if (s.heap i).phase ≠ .committed then Store.Admission.refused
      else if (s.heap i).accepting then .open else .waits) = .open) :
      (s.heap i).phase = .committed ∧ (s.heap i).accepting = true := by
    by_cases hp : (s.heap i).phase = .committed
    · cases ha : (s.heap i).accepting with
      | true => exact ⟨hp, rfl⟩
      | false =>
          rw [if_neg (not_not.mpr hp), ha, if_neg nofun] at h
          cases h
    · rw [if_pos hp] at h
      cases h
  cases t with
  | stable => exact hplain h
  | latest => exact hplain h
  | id id => exact hplain h
  | root root =>
      rw [Store.admission] at h
      split at h
      · next hc => exact hc.2
      · cases h

theorem Leasable.committed (h : i ∈ s.retained) (hp : (s.heap i).phase = .committed) : Leasable s i :=
  ⟨h, Or.inl (by rw [hp]; rfl)⟩

/-- What an acquisition does. -/
theorem acquire_cases {t : Target} (h : PointerInv s) : s.acquire t = s ∨
    (∃ i, Leasable s i ∧ s.acquire t = s.claimLease i) ∨
      s.acquire t = { s with waiters := s.waiters ++ [{ target := t }] } ∧
        ∃ i, s.select t = some i ∧ s.admission t i = .waits := by
  rw [Store.acquire]
  split
  · exact Or.inl rfl
  · next i hi =>
      split
      · exact Or.inl rfl
      · next hopen => exact Or.inr (Or.inl ⟨i, .committed (h.select hi) (admission_open hopen).1, rfl⟩)
      · next hwaits => exact Or.inr (Or.inr ⟨rfl, i, hi, hwaits⟩)

theorem lease_cases {t : Target} (h : PointerInv s) :
    s.lease t = s ∨ ∃ i, Leasable s i ∧ s.lease t = s.claimLease i := by
  rw [Store.lease]
  split
  · exact Or.inl rfl
  · next i hi =>
      split
      · next hopen => exact Or.inr ⟨i, .committed (h.select hi) (admission_open hopen.2).1, rfl⟩
      · exact Or.inl rfl

theorem retainPublicationTarget_cases (h : PointerInv s) : s.retainPublicationTarget tx = s ∨
    ∃ i, Leasable s i ∧ s.retainPublicationTarget tx = s.claimLease i := by
  rw [Store.retainPublicationTarget]
  split
  · exact Or.inl rfl
  · next hsome =>
      split
      · exact Or.inl rfl
      · next hret =>
          have hcandidate : Candidate s tx.candidate := by
            by_cases hp : s.pending = some tx
            · exact h.pending_candidate hp
            · by_cases hv : s.provisional = some tx
              · exact h.provisional_candidate hv
              · exact h.unpromoted_candidate (not_not.mp fun hno => hsome ⟨hp, hv, fun hx => hno hx.1⟩)
          exact Or.inr ⟨tx.candidate, ⟨hcandidate.retained, Or.inl hcandidate.not_closed⟩, rfl⟩

theorem retainRecoveryTarget_cases (h : PointerInv s) : s.retainRecoveryTarget i = s ∨
    Leasable s i ∧ s.retainRecoveryTarget i = s.claimLease i := by
  rw [Store.retainRecoveryTarget]
  split
  · exact Or.inl rfl
  · next hno =>
      have hcur : s.current = some i := not_not.mp fun hne => hno (Or.inl hne)
      obtain ⟨hret, hp⟩ := h.current i hcur
      exact Or.inr ⟨.committed hret hp, rfl⟩

theorem forkLease_cases : s.forkLease n = s ∨ ∃ i, Leasable s i ∧ s.forkLease n = s.claimLease i := by
  rw [Store.forkLease]
  split
  · next l hl =>
      split
      · exact Or.inl rfl
      · next hno =>
          rw [not_or, not_not, Bool.not_eq_false] at hno
          exact Or.inr ⟨l.snapshot, ⟨hno.2, Or.inr ⟨l, List.mem_of_getElem? hl, hno.1, rfl⟩⟩, rfl⟩
  · exact Or.inl rfl

end MonoAgent.Snapshots
