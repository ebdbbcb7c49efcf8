import Mathlib
import MonoAgent.Context.Summary
import MonoAgent.TurnProjection.Project

/-!
# Where a log may be cut

A summary ends behind a closed group.  `closedGroups` cuts the log after a
position wherever no call waits and no Turn of any source is split.  The members
of interleaved Turns protect everything between the first and the last of them.

`Groups` is the shape of the result: consecutive pieces of the log, none empty,
each ending at a settled prefix.
-/

namespace MonoAgent.Compaction

open MonoAgent.Lib MonoAgent.Session MonoAgent.Context MonoAgent.TurnProjection

/-! ## Protected positions -/

/-- The identities of the messages of a Turn. -/
def turnMembers (turn : Turn) : List String :=
  turn.messageIds ++ turn.observations.map (·.2) ++ turn.endingMessageId.toList

/-- `positions[identity]`. -/
def position (messages : List Message) (identity : String) : Except Error Nat :=
  match (identities messages).idxOf? identity with
  | some index => .ok index
  | none => .error ⟨.keyError, identity⟩

/-- `range(min(indexes) + 1, max(indexes) + 1)`. -/
def between (indexes : List Nat) : List Nat :=
  match indexes.min?, indexes.max? with
  | some lo, some hi => List.range' (lo + 1) (hi - lo)
  | _, _ => []

/-- The positions inside a Turn. -/
def turnCuts (messages : List Message) (keepOpen : Bool) (turn : Turn) : Except Error (List Nat) := do
  if turn.status = .open ∧ keepOpen = false then return []
  let indexes ← (turnMembers turn).mapM (position messages)
  return between indexes

/-- The sources of a log, sorted. -/
def sortedSources (messages : List Message) : List String :=
  (messages.map (·.source)).dedup.insertionSort (· ≤ ·)

/-- The positions inside the Turns of a source. -/
def sourceCuts (messages : List Message) (keepOpen : Bool) (source : String) :
    Except Error (List Nat) := do
  let turns ← project messages source
  let cuts ← turns.mapM (turnCuts messages keepOpen)
  return cuts.flatten

/-- `_protected_cuts`. -/
def protectedCuts (messages : List Message) (keepOpen : Bool) : Except Error (List Nat) := do
  let cuts ← (sortedSources messages).mapM (sourceCuts messages keepOpen)
  return cuts.flatten

/-- `window_starts`. -/
def windowStarts (messages : List Message) : Except Error (List Nat) := do
  let inside ← protectedCuts messages true
  return (0 :: settledPrefixes messages).filter fun i => i < messages.length ∧ i ∉ inside

/-! ## Groups -/

/-- The messages a group can end with: a finishing Output, a result, an abandon. -/
def endsGroup (m : Message) : Bool :=
  match m.body with
  | .input _ => false
  | .output b => b.finish ≠ .continue
  | .toolResult _ => true
  | .control b => b.action = .abandon

/-- The local variables of `closed_groups`. -/
structure Grouping where
  groups : List (List Message) := []
  start : Nat
deriving DecidableEq

/-- One position of the loop. -/
def Grouping.visit (messages : List Message) (ends : List Nat) (s : Grouping)
    (m : Message × Nat) : Grouping :=
  if endsGroup m.1 ∧ m.2 + 1 ∈ ends then
    ⟨s.groups ++ [slice messages s.start (m.2 + 1)], m.2 + 1⟩
  else s

/-- `closed_groups`. -/
def closedGroups (messages : List Message) (after : Nat) : Except Error (List (List Message)) := do
  let inside ← protectedCuts messages false
  let ends := (settledPrefixes messages).filter (· ∉ inside)
  return ((messages.zipIdx.drop after).foldl (Grouping.visit messages ends) { start := after }).groups

/-- Consecutive pieces of a log from `start` to `stop`, none empty, each ending at a
settled prefix. -/
inductive Groups (log : List Message) (start : Nat) : List (List Message) → Nat → Prop where
  | nil : Groups log start [] start
  | snoc {groups : List (List Message)} {mid stop : Nat} (h : Groups log start groups mid)
      (hlt : mid < stop) (hstop : stop ∈ settledPrefixes log) :
      Groups log start (groups ++ [slice log mid stop]) stop

section Groups

variable {log : List Message} {start stop : Nat} {groups : List (List Message)}

theorem Groups.le (h : Groups log start groups stop) : start ≤ stop := by
  induction h with
  | nil => exact Nat.le_refl _
  | snoc h hlt _ ih => exact ih.trans hlt.le

theorem Groups.stop_le (h : Groups log start groups stop) (hs : start ≤ log.length) :
    stop ≤ log.length := by
  cases h with
  | nil => exact hs
  | snoc h hlt hstop => exact (mem_settledPrefixes.mp hstop).2.1

/-- The groups make up the log from `start` to `stop`. -/
theorem Groups.flatten (h : Groups log start groups stop) : groups.flatten = slice log start stop := by
  induction h with
  | nil => simp [slice]
  | snoc h hlt _ ih =>
      rw [List.flatten_append, ih, List.flatten_singleton, slice_append_slice h.le hlt.le]

theorem Groups.ne_nil (h : Groups log start groups stop) : ∀ group ∈ groups, group ≠ [] := by
  induction h with
  | nil =>
      intro group hg
      cases hg
  | @snoc groups mid stop h hlt hstop ih =>
      intro group hg
      rcases List.mem_append.mp hg with hg | hg
      · exact ih group hg
      · intro hnil
        have hlen : (slice log mid stop).length = stop - mid :=
          length_slice (mem_settledPrefixes.mp hstop).2.1
        rw [← List.mem_singleton.mp hg, hnil, List.length_nil] at hlen
        omega

/-- The end of some groups, counted by their lengths. -/
theorem Groups.stop_eq (h : Groups log start groups stop) (hs : start ≤ log.length) :
    stop = start + (groups.map List.length).sum := by
  have hlen := congrArg List.length h.flatten
  rw [List.length_flatten, length_slice (h.stop_le hs)] at hlen
  have := h.le
  omega

/-- The first groups are groups too. -/
theorem Groups.take (h : Groups log start groups stop) (size : Nat) :
    ∃ mid, Groups log start (groups.take size) mid := by
  induction h generalizing size with
  | nil => exact ⟨start, by simpa using Groups.nil⟩
  | @snoc groups mid stop h hlt hstop ih =>
      by_cases hsize : size ≤ groups.length
      · rw [List.take_append_of_le_length hsize]
        exact ih size
      · rw [List.take_of_length_le (by rw [List.length_append, List.length_singleton]; omega)]
        exact ⟨stop, .snoc h hlt hstop⟩

/-- Groups that are not none end at a settled prefix. -/
theorem Groups.settled (h : Groups log start groups stop) (hne : groups ≠ []) :
    start < stop ∧ stop ∈ settledPrefixes log := by
  cases h with
  | nil => exact absurd rfl hne
  | snoc h hlt hstop => exact ⟨h.le.trans_lt hlt, hstop⟩

/-- The loop cuts at settled prefixes, by induction on the positions it has passed. -/
theorem groups_visit {ends : List Nat} (hends : ∀ n ∈ ends, n ∈ settledPrefixes log)
    (positions : List (Message × Nat)) (s : Grouping) (hs : Groups log start s.groups s.start)
    (hpos : ∀ m ∈ positions, s.start ≤ m.2) (hinc : positions.Pairwise fun a b => a.2 < b.2) :
    let t := positions.foldl (Grouping.visit log ends) s
    Groups log start t.groups t.start := by
  induction positions generalizing s with
  | nil => exact hs
  | cons m rest ih =>
      obtain ⟨hfirst, hrest⟩ := List.pairwise_cons.mp hinc
      have hm := hpos m (List.mem_cons_self ..)
      rw [List.foldl_cons, Grouping.visit]
      split
      · next h =>
          refine ih _ (.snoc hs (by omega) (hends _ h.2)) (fun x hx => ?_) hrest
          exact hfirst x hx
      · exact ih s hs (fun x hx => hpos x (List.mem_cons_of_mem _ hx)) hrest

theorem pairwise_zipIdx (log : List Message) (n : Nat) :
    (log.zipIdx n).Pairwise fun a b => a.2 < b.2 := by
  induction log generalizing n with
  | nil => exact .nil
  | cons m rest ih =>
      rw [List.zipIdx_cons]
      refine List.pairwise_cons.mpr ⟨fun x hx => ?_, ih (n + 1)⟩
      have := List.le_snd_of_mem_zipIdx hx
      omega

/-- `closed_groups` cuts the log behind `after` into groups. -/
theorem groups_closedGroups {after : Nat} (h : closedGroups log after = .ok groups) :
    ∃ stop, Groups log after groups stop := by
  obtain ⟨inside, _, h⟩ := Except.bind_eq_ok.mp h
  cases h
  refine ⟨_, groups_visit (fun n hn => (List.mem_filter.mp hn).1) _ _ .nil (fun m hm => ?_)
    ((pairwise_zipIdx log 0).drop)⟩
  obtain ⟨i, hi⟩ := List.mem_iff_getElem?.mp hm
  rw [List.getElem?_drop] at hi
  obtain ⟨hlt, hget⟩ := List.getElem?_eq_some_iff.mp hi
  rw [List.getElem_zipIdx] at hget
  rw [← hget]
  show after ≤ 0 + (after + i)
  omega

/-- A window starts where the log may be cut. -/
theorem cut_of_windowStarts {starts : List Nat} (h : windowStarts log = .ok starts) {n : Nat}
    (hn : n ∈ starts) : Cut log n ∧ n < log.length := by
  obtain ⟨inside, _, h⟩ := Except.bind_eq_ok.mp h
  cases h
  obtain ⟨hn, hkeep⟩ := List.mem_filter.mp hn
  exact ⟨List.mem_cons.mp hn, (of_decide_eq_true hkeep).1⟩

end Groups

/-! ## What is summarised -/

/-- The local variables of `summary_groups`. -/
structure LateResults where
  pending : Dict CallRef Message := []
  abandoned : List CallRef := []
  excluded : List String := []
deriving DecidableEq

/-- One message of `summary_groups`. -/
def LateResults.visit (s : LateResults) (m : Message) : LateResults :=
  match m.body with
  | .input _ => s
  | .output _ => { s with pending := s.pending.update (m.calls.map fun ref => (ref, m)) }
  | .toolResult b =>
      let excluded := if b.callRef ∈ s.abandoned then s.excluded ++ [m.messageId] else s.excluded
      { s with pending := s.pending.pop b.callRef, excluded }
  | .control b =>
      if b.action = .abandon then
        let reached := s.pending.filter fun e => e.2.source = m.source ∧ e.2.seq ≤ b.throughSeq
        let abandoned := s.abandoned ++ reached.map (·.1)
        { s with abandoned, pending := s.pending.filter fun e => e.1 ∉ abandoned }
      else s

/-- `summary_groups`: late results of abandoned calls are not summarised. -/
def summaryGroups (groups : List (List Message)) (snapshot : List Message) : List (List Message) :=
  let excluded := (snapshot.foldl LateResults.visit {}).excluded
  (groups.map fun group => group.filter (·.messageId ∉ excluded)).filter (· ≠ [])

end MonoAgent.Compaction
