import MonoAgent.Conversation.Source
import MonoAgent.TurnProjection.Partition

/-!
# When a source wakes

`needs_reply` of a reader starts at the latest Input.  A Control points in front of itself, so
what lies before that Input can move neither bound past it, and the two scans stay on the same
side of it (`Alike`).

The boundary of `needs_reply` is where the last closed Turn of `project` ends, so a reply is due
when the open Turn has an Input that no pause or failure in force covers.
-/

namespace MonoAgent.Conversation

open MonoAgent.Lib MonoAgent.Session MonoAgent.TurnProjection

/-! ## From the latest Input on -/

/-- Bounds that are the same, or both below an Input. -/
def AlikeBelow (latest x y : Int) : Prop := x = y ∨ x < latest ∧ y < latest

theorem AlikeBelow.max {latest x y : Int} (h : AlikeBelow latest x y) (through : Int) :
    AlikeBelow latest (max x through) (max y through) := by
  rw [AlikeBelow] at h ⊢
  omega

/-- Two scans behind the latest Input. -/
structure Alike (latest : Int) (s t : Wake) : Prop where
  boundary : AlikeBelow latest s.boundary t.boundary
  paused : AlikeBelow latest s.pausedThrough t.pausedThrough
  left : s.latestInput = latest
  right : t.latestInput = latest

variable {source : String} {latest : Int} {s t : Wake} {messages : List Message}

theorem Alike.visit (h : Alike latest s t) (hlatest : 0 ≤ latest) {m : Message} (hm : m.source = source → isInput m = false) :
    Alike latest (s.visit source m) (t.visit source m) := by
  rw [Wake.visit, Wake.visit]
  by_cases hsource : m.source = source
  · rw [if_neg (not_not.mpr hsource), if_neg (not_not.mpr hsource)]
    cases hbody : m.body with
    | input b =>
        have hnot := hm hsource
        rw [isInput, hbody] at hnot
        cases hnot
    | output b =>
        dsimp only
        split
        · exact ⟨Or.inl rfl, h.paused, h.left, h.right⟩
        · exact h
    | toolResult b => exact h
    | control b =>
        dsimp only
        cases b.action with
        | abandon => exact ⟨h.boundary.max _, h.paused, h.left, h.right⟩
        | pause => exact ⟨h.boundary, h.paused.max _, h.left, h.right⟩
        | failure => exact ⟨h.boundary, h.paused.max _, h.left, h.right⟩
        | resume =>
            have hpaused := h.paused
            dsimp only
            rw [AlikeBelow] at hpaused
            refine ⟨?_, ?_, ?_, ?_⟩
            · split <;> split <;> exact h.boundary
            · rw [AlikeBelow]
              split <;> split <;> first | omega | (dsimp only; omega)
            · split <;> exact h.left
            · split <;> exact h.right
  · rw [if_pos hsource, if_pos hsource]
    exact h

theorem Alike.foldl (h : Alike latest s t) (hlatest : 0 ≤ latest)
    (hinput : ∀ m ∈ messages, m.source = source → isInput m = false) :
    Alike latest (messages.foldl (Wake.visit source) s) (messages.foldl (Wake.visit source) t) := by
  induction messages generalizing s t with
  | nil => exact h
  | cons m rest ih =>
      exact ih (h.visit hlatest (hinput m (List.mem_cons_self ..))) fun x hx => hinput x (List.mem_cons_of_mem _ hx)

/-- Alike scans wake alike. -/
theorem Alike.due (h : Alike latest s t) :
    max s.boundary s.pausedThrough < s.latestInput ↔ max t.boundary t.pausedThrough < t.latestInput := by
  have hboundary := h.boundary
  have hpaused := h.paused
  rw [h.left, h.right]
  rw [AlikeBelow] at hboundary hpaused
  omega

/-- In front of a seq every bound is below it. -/
theorem visit_below {n : Nat} (h : s.boundary < n ∧ s.pausedThrough < n) {m : Message} (hm : m.seq < n) :
    (s.visit source m).boundary < n ∧ (s.visit source m).pausedThrough < n := by
  rw [Wake.visit]
  split
  · exact h
  · cases hbody : m.body with
    | input b => exact h
    | output b =>
        dsimp only
        split
        · exact ⟨by dsimp only; omega, h.2⟩
        · exact h
    | toolResult b => exact h
    | control b =>
        have hbefore := m.control_before b hbody
        dsimp only
        cases b.action with
        | abandon => exact ⟨by dsimp only; omega, h.2⟩
        | pause => exact ⟨h.1, by dsimp only; omega⟩
        | failure => exact ⟨h.1, by dsimp only; omega⟩
        | resume =>
            dsimp only
            split
            · exact ⟨h.1, by dsimp only; omega⟩
            · exact h

theorem foldl_below {n : Nat} (h : ∀ m ∈ messages, m.seq < n) :
    (messages.foldl (Wake.visit source) {}).boundary < n ∧ (messages.foldl (Wake.visit source) {}).pausedThrough < n := by
  induction messages using List.reverseRecOn with
  | nil =>
      show (-1 : Int) < n ∧ (-1 : Int) < n
      omega
  | append_singleton messages m ih =>
      rw [List.foldl_append]
      exact visit_below (ih fun x hx => h x (List.mem_append_left _ hx)) (h m (by simp))

/-- Without an Input there is nothing to answer. -/
theorem foldl_idle (h : ∀ m ∈ messages, m.source = source → isInput m = false) :
    (messages.foldl (Wake.visit source) {}).latestInput = -1 ∧ -1 ≤ (messages.foldl (Wake.visit source) {}).boundary := by
  induction messages using List.reverseRecOn with
  | nil => exact ⟨rfl, Int.le_refl _⟩
  | append_singleton messages m ih =>
      obtain ⟨hinput, hboundary⟩ := ih fun x hx => h x (List.mem_append_left _ hx)
      rw [List.foldl_append, List.foldl_cons, List.foldl_nil]
      generalize messages.foldl (Wake.visit source) {} = w at hinput hboundary ⊢
      rw [Wake.visit]
      split
      · exact ⟨hinput, hboundary⟩
      · next hsource =>
          have hnot := h m (by simp) (not_not.mp hsource)
          cases hbody : m.body with
          | input b =>
              rw [isInput, hbody] at hnot
              cases hnot
          | output b =>
              dsimp only
              split
              · exact ⟨hinput, by dsimp only; omega⟩
              · exact ⟨hinput, hboundary⟩
          | toolResult b => exact ⟨hinput, hboundary⟩
          | control b =>
              dsimp only
              cases b.action with
              | abandon => exact ⟨hinput, hboundary.trans (le_max_left _ _)⟩
              | pause => exact ⟨hinput, hboundary⟩
              | failure => exact ⟨hinput, hboundary⟩
              | resume =>
                  dsimp only
                  split
                  · exact ⟨hinput, hboundary⟩
                  · exact ⟨hinput, hboundary⟩

/-- What the messages before the latest Input say makes no difference. -/
theorem needsReply_from_latest {front rest : List Message} {m : Message} (hsource : m.source = source)
    (hinput : isInput m = true) (hbefore : ∀ x ∈ front, x.seq < m.seq)
    (hrest : ∀ x ∈ rest, x.source = source → isInput x = false) :
    needsReply (m :: rest) source = needsReply (front ++ m :: rest) source := by
  obtain ⟨hboundary, hpaused⟩ := @foldl_below source _ _ hbefore
  have hbody : ∃ b, m.body = .input b := by
    rw [isInput] at hinput
    cases hb : m.body with
    | input b => exact ⟨b, rfl⟩
    | output b => rw [hb] at hinput; cases hinput
    | toolResult b => rw [hb] at hinput; cases hinput
    | control b => rw [hb] at hinput; cases hinput
  obtain ⟨b, hb⟩ := hbody
  have hvisit (w : Wake) : w.visit source m = { w with latestInput := m.seq } := by
    rw [Wake.visit, if_neg (not_not.mpr hsource), hb]
  have halike : Alike m.seq ((front.foldl (Wake.visit source) {}).visit source m) (Wake.visit source {} m) := by
    rw [hvisit, hvisit]
    refine ⟨Or.inr ⟨hboundary, ?_⟩, Or.inr ⟨hpaused, ?_⟩, rfl, rfl⟩
    · show (-1 : Int) < m.seq
      omega
    · show (-1 : Int) < m.seq
      omega
  have hdue := (halike.foldl (by omega) hrest).due
  rw [needsReply, needsReply, List.foldl_append, List.foldl_cons, List.foldl_cons]
  exact decide_eq_decide.mpr hdue.symm

theorem seq_le_foldl {l : List Message} {m : Message} (hm : m ∈ l) (n : Int) :
    (m.seq : Int) ≤ l.foldl (fun h x => if (none : Option String).all (· = x.source) then max h x.seq else h) n := by
  have hgrows (l : List Message) (n : Int) :
      n ≤ l.foldl (fun h x => if (none : Option String).all (· = x.source) then max h x.seq else h) n := by
    induction l generalizing n with
    | nil => exact Int.le_refl n
    | cons x rest ih => exact (le_max_left n x.seq).trans (ih _)
  induction l generalizing n with
  | nil => cases hm
  | cons x rest ih =>
      rcases List.mem_cons.mp hm with rfl | hm
      · exact (le_max_right n m.seq).trans (hgrows rest _)
      · exact ih hm _

/-- An Input of the source behind which there is no other. -/
theorem split_latest {l : List Message} {m : Message} (hl : l.Pairwise fun a b => a.seq < b.seq)
    (hm : (l.filter fun x => x.source = source ∧ isInput x).getLast? = some m) :
    ∃ front rest, l = front ++ m :: rest ∧ m.source = source ∧ isInput m = true ∧ (∀ x ∈ front, x.seq < m.seq) ∧
      (∀ x ∈ rest, m.seq < x.seq) ∧ ∀ x ∈ rest, x.source = source → isInput x = false := by
  obtain ⟨hmem, hboth⟩ := List.mem_filter.mp (List.mem_of_getLast? hm)
  rw [decide_eq_true_eq] at hboth
  obtain ⟨front, rest, rfl⟩ := List.append_of_mem hmem
  obtain ⟨-, hright, hcross⟩ := List.pairwise_append.mp hl
  have hrest := (List.pairwise_cons.mp hright).1
  refine ⟨front, rest, rfl, hboth.1, hboth.2, fun x hx => hcross x hx m (List.mem_cons_self ..), hrest, fun x hx hsource => ?_⟩
  by_contra hinput
  have hin : x ∈ rest.filter fun x => x.source = source ∧ isInput x :=
    List.mem_filter.mpr ⟨hx, decide_eq_true ⟨hsource, (Bool.not_eq_false _).mp hinput⟩⟩
  rw [List.filter_append, List.filter_cons, if_pos (decide_eq_true hboth), List.getLast?_append,
    List.getLast?_cons, List.getLast?_eq_some_getLast (List.ne_nil_of_mem hin)] at hm
  have hlast : (rest.filter fun x => x.source = source ∧ isInput x).getLast (List.ne_nil_of_mem hin) = m :=
    Option.some.inj hm
  have hback := hrest m (hlast ▸ List.mem_of_mem_filter (List.getLast_mem (List.ne_nil_of_mem hin)))
  omega

/-- The trigger that reads on from the latest Input is that of the whole log. -/
theorem readerNeedsReply_eq {db : Database} (hdb : LogInvariant db) (sessionId source : String) :
    readerNeedsReply db sessionId source = needsReply (db.snapshot sessionId) source := by
  have hhead : ∀ m ∈ db.snapshot sessionId, (m.seq : Int) ≤ db.head sessionId := fun m hm => seq_le_foldl hm _
  have hlatest : latestInput (db.snapshot sessionId) source (db.head sessionId) =
      ((db.snapshot sessionId).filter fun x => x.source = source ∧ isInput x).getLast? := by
    rw [latestInput]
    refine congrArg List.getLast? (List.filter_congr fun m hm => ?_)
    simp [hhead m hm]
  rw [readerNeedsReply, hlatest]
  cases hm : ((db.snapshot sessionId).filter fun x => x.source = source ∧ isInput x).getLast? with
  | none =>
      have hnone := List.filter_eq_nil_iff.mp (List.getLast?_eq_none_iff.mp hm)
      obtain ⟨hinput, hboundary⟩ := @foldl_idle source (db.snapshot sessionId) fun m hm hsource => by
        have hnot := hnone m hm
        simpa [hsource] using hnot
      rw [needsReply, hinput]
      exact (decide_eq_false (by omega)).symm
  | some m =>
      obtain ⟨front, rest, hsplit, hsource, hinput, hfront, hbehind, hrest⟩ :=
        split_latest (hdb.wellFormed sessionId).pairwise_seq hm
      have hbetween : between (db.snapshot sessionId) m.seq (db.head sessionId) = rest := by
        have hpast : ∀ x ∈ rest, (x.seq : Int) ≤ db.head sessionId := fun x hx =>
          hhead x (by rw [hsplit]; exact List.mem_append_right _ (List.mem_cons_of_mem _ hx))
        rw [between, hsplit, List.filter_append, List.filter_cons, if_neg (by simp),
          List.filter_eq_nil_iff.mpr fun x hx => ?_, List.filter_eq_self.mpr fun x hx => ?_, List.nil_append]
        · have hlt := hbehind x hx
          simp [hlt, hpast x hx]
        · have hlt := hfront x hx
          simp [hlt.le]
      dsimp only
      rw [hbetween, hsplit]
      exact needsReply_from_latest hsource hinput hfront hrest

/-! ## The bound of the pauses and failures -/

/-- Where a pause or a failure of the source points. -/
def stopAt (source : String) (m : Message) : Option Nat :=
  match m.body with
  | .control b => if m.source = source ∧ (b.action = .pause ∨ b.action = .failure) then some b.throughSeq else none
  | _ => none

/-- A resume of the source that covers all that is in force. -/
def lifts (source : String) (kept : List Message) (m : Message) : Bool :=
  match m.body with
  | .control b => m.source = source ∧ b.action = .resume ∧
      ∀ x ∈ kept, ∀ through ∈ stopAt source x, through ≤ b.throughSeq
  | _ => false

/-- The messages behind the last resume that was effective. -/
def inForce (source : String) (messages : List Message) : List Message :=
  messages.foldl (fun kept m => if lifts source kept m then [] else kept ++ [m]) []

/-- No pause or failure in force reaches a seq. -/
def Unpaused (source : String) (messages : List Message) (seq : Nat) : Prop :=
  ∀ x ∈ inForce source messages, ∀ through ∈ stopAt source x, through < seq

theorem inForce_snoc (m : Message) : inForce source (messages ++ [m]) =
    if lifts source (inForce source messages) m then [] else inForce source messages ++ [m] := by
  rw [inForce, List.foldl_append]
  rfl

theorem unpaused_keep {m : Message} (h : lifts source (inForce source messages) m = false) (seq : Nat) :
    Unpaused source (messages ++ [m]) seq ↔
      Unpaused source messages seq ∧ ∀ through ∈ stopAt source m, through < seq := by
  rw [Unpaused, inForce_snoc, h]
  simp [Unpaused, or_imp, forall_and]

theorem stopAt_none {m : Message} (h : ∀ b, m.body = .control b → m.source = source → b.action = .resume ∨ b.action = .abandon) :
    stopAt source m = none := by
  rw [stopAt]
  cases hbody : m.body with
  | control b =>
      dsimp only
      split
      · next hstop =>
          exfalso
          rcases h b hbody hstop.1 with haction | haction
          · rw [haction] at hstop
            simp at hstop
          · rw [haction] at hstop
            simp at hstop
      · rfl
  | input b => rfl
  | output b => rfl
  | toolResult b => rfl

/-- The variable `paused_through` is the bound in force. -/
theorem paused_iff (source : String) (messages : List Message) (seq : Nat) :
    (messages.foldl (Wake.visit source) {}).pausedThrough < seq ↔ Unpaused source messages seq := by
  induction messages using List.reverseRecOn generalizing seq with
  | nil =>
      refine iff_of_true ?_ fun x hx => by cases hx
      show (-1 : Int) < seq
      omega
  | append_singleton messages m ih =>
      rw [List.foldl_append, List.foldl_cons, List.foldl_nil]
      generalize messages.foldl (Wake.visit source) {} = w at ih ⊢
      -- a message that neither stops nor lifts
      have hskip (hsame : (w.visit source m).pausedThrough = w.pausedThrough)
          (hlifts : lifts source (inForce source messages) m = false) (hstop : stopAt source m = none) :
          (w.visit source m).pausedThrough < seq ↔ Unpaused source (messages ++ [m]) seq := by
        rw [hsame, ih, unpaused_keep hlifts, hstop]
        simp
      by_cases hsource : m.source = source
      · rw [Wake.visit, if_neg (not_not.mpr hsource)] at hskip ⊢
        cases hbody : m.body with
        | input b =>
            rw [hbody] at hskip
            exact hskip rfl (by rw [lifts, hbody]) (by rw [stopAt, hbody])
        | output b =>
            rw [hbody] at hskip
            refine hskip ?_ (by rw [lifts, hbody]) (by rw [stopAt, hbody])
            dsimp only
            split
            · rfl
            · rfl
        | toolResult b =>
            rw [hbody] at hskip
            exact hskip rfl (by rw [lifts, hbody]) (by rw [stopAt, hbody])
        | control b =>
            rw [hbody] at hskip
            dsimp only at hskip ⊢
            have hstop (h : b.action = .pause ∨ b.action = .failure) :
                max w.pausedThrough b.throughSeq < seq ↔ Unpaused source (messages ++ [m]) seq := by
              have hlifts : lifts source (inForce source messages) m = false := by
                rw [lifts, hbody]
                rcases h with h | h
                · simp [h]
                · simp [h]
              rw [unpaused_keep hlifts, ← ih, stopAt, hbody]
              dsimp only
              rw [if_pos ⟨hsource, h⟩]
              simp only [Option.mem_some_iff, forall_eq', max_lt_iff, Int.ofNat_lt]
            cases haction : b.action with
            | abandon =>
                rw [haction] at hskip
                exact hskip rfl (by rw [lifts, hbody]; simp [haction])
                  (stopAt_none fun c hc _ => by rw [hbody] at hc; cases hc; exact Or.inr haction)
            | pause => exact hstop (Or.inl haction)
            | failure => exact hstop (Or.inr haction)
            | resume =>
                rw [haction] at hskip
                dsimp only at hskip ⊢
                have hcovers : w.pausedThrough ≤ b.throughSeq ↔ lifts source (inForce source messages) m = true := by
                  have hbelow := ih (b.throughSeq + 1)
                  rw [Unpaused] at hbelow
                  rw [lifts, hbody]
                  simp only [hsource, haction, true_and, decide_eq_true_eq]
                  simp only [Nat.lt_succ_iff] at hbelow
                  rw [← hbelow]
                  omega
                by_cases hle : w.pausedThrough ≤ b.throughSeq
                · rw [if_pos hle, Unpaused, inForce_snoc, if_pos (hcovers.mp hle)]
                  refine iff_of_true ?_ fun x hx => by cases hx
                  dsimp only
                  omega
                · rw [if_neg hle] at hskip ⊢
                  exact hskip rfl (Bool.eq_false_iff.mpr fun h => hle (hcovers.mpr h))
                    (stopAt_none fun c hc _ => by rw [hbody] at hc; cases hc; exact Or.inl haction)
      · refine hskip (by rw [Wake.visit, if_pos hsource]) ?_ (stopAt_none fun _ _ h => absurd h hsource)
        rw [lifts]
        cases m.body with
        | control b => simp [hsource]
        | input b => rfl
        | output b => rfl
        | toolResult b => rfl

/-! ## The open Turn -/

/-- The latest Input of the source. -/
def lastInput (messages : List Message) (source : String) : Option Message :=
  (messages.filter fun m => m.source = source ∧ isInput m).getLast?

/-- The two scans over the same messages. -/
structure Sync (messages : List Message) (source : String) (p : Scan) (w : Wake) : Prop where
  boundary : w.boundary = p.afterSeq
  reached : p.afterSeq = -1 ∨ ∃ x ∈ messages, p.afterSeq ≤ x.seq
  latest : w.latestInput = ((lastInput messages source).map fun m => (m.seq : Int)).getD (-1)
  pending : ∀ x ∈ p.pending, x ∈ messages ∧ x.source = source
  /-- The Inputs behind the boundary are pending. -/
  inputs : ∀ x ∈ messages, x.source = source → isInput x = true → (x ∈ p.pending ↔ p.afterSeq < x.seq)
  closed : ∀ t ∈ p.turns, t.status ≠ .open

section Visit

variable {p p' : Scan} {w : Wake} {m : Message}

theorem lastInput_snoc (m : Message) : lastInput (messages ++ [m]) source =
    if m.source = source ∧ isInput m then some m else lastInput messages source := by
  rw [lastInput, List.filter_append, List.filter_singleton]
  by_cases h : m.source = source ∧ isInput m = true
  · rw [if_pos h, decide_eq_true h]
    simp
  · rw [if_neg h, decide_eq_false h]
    simp [lastInput]

theorem Sync.after_lt (h : Sync messages source p w) (hm : ∀ x ∈ messages, x.seq < m.seq) : p.afterSeq < m.seq := by
  rcases h.reached with heq | ⟨x, hx, hle⟩
  · omega
  · have hlt := hm x hx
    omega

/-- A message that neither scan takes in. -/
theorem Sync.skip (h : Sync messages source p w) (hm : ¬ (m.source = source ∧ isInput m = true)) {head : Int}
    {paused : Int} : Sync (messages ++ [m]) source { p with sourceHead := head } { w with pausedThrough := paused } where
  boundary := h.boundary
  reached := h.reached.imp id fun ⟨x, hx, hle⟩ => ⟨x, List.mem_append_left _ hx, hle⟩
  latest := by
    rw [lastInput_snoc, if_neg hm]
    exact h.latest
  pending x hx := ⟨List.mem_append_left _ (h.pending x hx).1, (h.pending x hx).2⟩
  inputs x hx hsource hinput := by
    rcases List.mem_append.mp hx with hx | hx
    · exact h.inputs x hx hsource hinput
    · rw [List.mem_singleton.mp hx] at hsource hinput
      exact absurd ⟨hsource, hinput⟩ hm
  closed := h.closed

/-- A message that is pending behind the others. -/
theorem Sync.push (h : Sync messages source p w) (hm : ∀ x ∈ messages, x.seq < m.seq) (hsource : m.source = source)
    {head : Int} {calls : List CallRef} {latest : Int}
    (hlatest : latest = ((lastInput (messages ++ [m]) source).map fun x => (x.seq : Int)).getD (-1)) :
    Sync (messages ++ [m]) source { p with sourceHead := head, pending := p.pending ++ [m], calls := calls }
      { w with latestInput := latest } where
  boundary := h.boundary
  reached := h.reached.imp id fun ⟨x, hx, hle⟩ => ⟨x, List.mem_append_left _ hx, hle⟩
  latest := hlatest
  pending x hx := by
    rcases List.mem_append.mp hx with hx | hx
    · exact ⟨List.mem_append_left _ (h.pending x hx).1, (h.pending x hx).2⟩
    · rw [List.mem_singleton.mp hx]
      exact ⟨by simp, hsource⟩
  inputs x hx hxsource hinput := by
    rcases List.mem_append.mp hx with hx | hx
    · have hne : x ∉ [m] := fun hin => by
        have hlt := hm x hx
        rw [List.mem_singleton.mp hin] at hlt
        omega
      rw [List.mem_append, or_iff_left hne]
      exact h.inputs x hx hxsource hinput
    · rw [List.mem_singleton.mp hx]
      exact iff_of_true (by simp) (h.after_lt hm)
  closed := h.closed

theorem Sync.visit (h : Sync messages source p w) (hm : ∀ x ∈ messages, x.seq < m.seq)
    (hvisit : p.visit source m = .ok p') : Sync (messages ++ [m]) source p' (w.visit source m) := by
  rw [Scan.visit] at hvisit
  rw [Wake.visit]
  by_cases hsource : m.source = source
  · rw [if_neg (not_not.mpr hsource)] at hvisit ⊢
    cases hbody : m.body with
    | input b =>
        rw [hbody] at hvisit
        cases hvisit
        have hinput : isInput m = true := by rw [isInput, hbody]; rfl
        exact h.push hm hsource (by rw [lastInput_snoc, if_pos ⟨hsource, hinput⟩]; rfl)
    | output b =>
        rw [hbody] at hvisit
        have hnot : ¬ (m.source = source ∧ isInput m = true) := fun hboth => by
          rw [isInput, hbody] at hboth
          cases hboth.2
        dsimp only at hvisit ⊢
        split at hvisit
        · next hfinish =>
            cases hvisit
            rw [if_pos hfinish]
            refine ⟨rfl, Or.inr ⟨m, by simp, Int.le_refl _⟩, ?_, fun x hx => (by cases hx), fun x hx hxsource hinput => ?_,
              fun t ht => ?_⟩
            · rw [lastInput_snoc, if_neg hnot]
              exact h.latest
            · refine iff_of_false (by simp) ?_
              rcases List.mem_append.mp hx with hx | hx
              · have hlt := hm x hx
                dsimp only
                omega
              · rw [List.mem_singleton.mp hx]
                exact lt_irrefl _
            · rcases List.mem_append.mp ht with ht | ht
              · exact h.closed t ht
              · rw [List.mem_singleton.mp ht]
                show statusOf b.finish ≠ .open
                cases b.finish <;> simp [statusOf]
        · next hfinish =>
            cases hvisit
            rw [if_neg hfinish]
            exact h.push hm hsource (by rw [lastInput_snoc, if_neg hnot]; exact h.latest)
    | toolResult b =>
        rw [hbody] at hvisit
        have hnot : ¬ (m.source = source ∧ isInput m = true) := fun hboth => by
          rw [isInput, hbody] at hboth
          cases hboth.2
        dsimp only at hvisit ⊢
        split at hvisit
        · cases hvisit
          exact h.push hm hsource (by rw [lastInput_snoc, if_neg hnot]; exact h.latest)
        · cases hvisit
          exact h.skip hnot
    | control b =>
        rw [hbody] at hvisit
        have hnot : ¬ (m.source = source ∧ isInput m = true) := fun hboth => by
          rw [isInput, hbody] at hboth
          cases hboth.2
        dsimp only at hvisit ⊢
        by_cases habandon : b.action = .abandon
        · rw [if_pos habandon, Scan.abandon] at hvisit
          rw [habandon]
          have hbefore := m.control_before b hbody
          dsimp only at hvisit ⊢
          split at hvisit
          · cases hvisit
          · next hpast =>
              cases hvisit
              refine ⟨?_, Or.inr ⟨m, by simp, by dsimp only; omega⟩, ?_, fun x hx => ?_, fun x hx hxsource hinput => ?_,
                fun t ht => ?_⟩
              · rw [h.boundary]
                dsimp only
                omega
              · rw [lastInput_snoc, if_neg hnot]
                exact h.latest
              · have hx := h.pending x (List.mem_of_mem_filter (List.mem_of_mem_filter hx))
                exact ⟨List.mem_append_left _ hx.1, hx.2⟩
              · rcases List.mem_append.mp hx with hx | hx
                · have hin := h.inputs x hx hxsource hinput
                  -- an Input settles no call, so only the prefix drops it
                  have hsettles : x.body.settles = none := by
                    rw [isInput] at hinput
                    cases hxbody : x.body with
                    | input c => rfl
                    | output c => rfl
                    | toolResult c => rw [hxbody] at hinput; cases hinput
                    | control c => rfl
                  simp only [List.mem_filter, hin, hsettles, Option.all_none, and_true, decide_eq_true_eq]
                  omega
                · rw [List.mem_singleton.mp hx] at hxsource hinput
                  exact absurd ⟨hxsource, hinput⟩ hnot
              · dsimp only at ht
                split at ht
                · exact h.closed t ht
                · rcases List.mem_append.mp ht with ht | ht
                  · exact h.closed t ht
                  · rw [List.mem_singleton.mp ht]
                    simp [buildTurn]
        · rw [if_neg habandon] at hvisit
          cases hvisit
          cases haction : b.action with
          | abandon => exact absurd haction habandon
          | pause => exact h.skip hnot
          | failure => exact h.skip hnot
          | resume =>
              dsimp only
              split
              · exact h.skip hnot
              · exact h.skip hnot
  · rw [if_pos hsource] at hvisit ⊢
    cases hvisit
    exact h.skip fun hboth => hsource hboth.1

end Visit

/-- The scans of a log keep together. -/
theorem scan_sync {p : Scan} (hmessages : messages.Pairwise fun a b => a.seq < b.seq)
    (hscan : scan source messages = .ok p) : Sync messages source p (messages.foldl (Wake.visit source) {}) := by
  induction messages using List.reverseRecOn generalizing p with
  | nil =>
      cases hscan
      exact ⟨rfl, Or.inl rfl, rfl, fun x hx => (by cases hx), fun x hx => (by cases hx), fun t ht => (by cases ht)⟩
  | append_singleton messages m ih =>
      obtain ⟨hfront, -, hcross⟩ := List.pairwise_append.mp hmessages
      rw [scan_snoc] at hscan
      obtain ⟨q, hq, hvisit⟩ := Except.bind_eq_ok.mp hscan
      rw [List.foldl_append]
      exact (ih hfront hq).visit (fun x hx => hcross x hx m (by simp)) hvisit

/-- An Input of the source stands at or before the latest. -/
theorem le_lastInput {m latest : Message} (hmessages : messages.Pairwise fun a b => a.seq < b.seq)
    (hlatest : lastInput messages source = some latest) (hm : m ∈ messages) (hsource : m.source = source)
    (hinput : isInput m = true) : m.seq ≤ latest.seq := by
  obtain ⟨front, rest, rfl, -, -, hfront, -, hrest⟩ := split_latest hmessages hlatest
  rcases List.mem_append.mp hm with hm | hm
  · exact (hfront m hm).le
  · rcases List.mem_cons.mp hm with rfl | hm
    · exact Nat.le_refl _
    · have hnot := hrest m hm hsource
      rw [hinput] at hnot
      cases hnot

/-- The latest Input waits in an open Turn and nothing in force covers it. -/
def Waits (messages : List Message) (source : String) (turns : List Turn) : Prop :=
  ∃ t ∈ turns.getLast?, t.status = .open ∧
    (∃ m ∈ messages, m.source = source ∧ isInput m = true ∧ m.messageId ∈ t.messageIds) ∧
    ∃ latest, lastInput messages source = some latest ∧ Unpaused source messages latest.seq

theorem Sync.open_iff {p : Scan} {w : Wake} (h : Sync messages source p w) {t : Turn} :
    t ∈ (p.result source).getLast? ∧ t.status = .open ↔
      p.pending ≠ [] ∧ t = buildTurn source p.afterSeq p.sourceHead none .open p.pending := by
  rw [Scan.result]
  split
  · next hnil =>
      refine iff_of_false (fun hopen => ?_) (fun hne => hne.1 hnil)
      exact h.closed t (List.mem_of_getLast? hopen.1) hopen.2
  · next hne =>
      rw [List.getLast?_append, List.getLast?_singleton]
      simp only [Option.some_or, Option.mem_def, Option.some.injEq]
      constructor
      · rintro ⟨rfl, -⟩
        exact ⟨hne, rfl⟩
      · rintro ⟨-, rfl⟩
        exact ⟨rfl, rfl⟩

/-- The trigger is due when the open Turn waits. -/
theorem needsReply_iff_waits {turns : List Turn} (hwf : WellFormed messages)
    (hproject : project messages source = .ok turns) :
    needsReply messages source = true ↔ Waits messages source turns := by
  have hmessages := hwf.pairwise_seq
  obtain ⟨_, -, hproject⟩ := Except.bind_eq_ok.mp hproject
  obtain ⟨p, hscan, hturns⟩ := Except.bind_eq_ok.mp hproject
  cases hturns
  have hsync := scan_sync hmessages hscan
  rw [needsReply, decide_eq_true_eq, max_lt_iff, hsync.boundary, hsync.latest]
  constructor
  · rintro ⟨hafter, hpaused⟩
    cases hlatest : lastInput messages source with
    | none =>
        rw [hlatest] at hafter
        have hlow : (-1 : Int) ≤ p.afterSeq := by
          rw [← hsync.boundary]
          refine (foldl_idle fun m hm hsource => ?_).2
          have hnone := List.filter_eq_nil_iff.mp (List.getLast?_eq_none_iff.mp hlatest) m hm
          simpa [hsource] using hnone
        exact absurd (show p.afterSeq < -1 from hafter) (by omega)
    | some latest =>
        rw [hlatest] at hafter hpaused
        obtain ⟨front, rest, hsplit, hsource, hinput, -, -, -⟩ := split_latest hmessages hlatest
        have hmem : latest ∈ messages := by
          rw [hsplit]
          simp
        have hin : latest ∈ p.pending := (hsync.inputs latest hmem hsource hinput).mpr hafter
        obtain ⟨hlast, hstatus⟩ := hsync.open_iff.mpr ⟨List.ne_nil_of_mem hin, rfl⟩
        have hdialogue : isDialogue latest.body = true := by
          rw [isInput] at hinput
          cases hbody : latest.body with
          | input c => rfl
          | output c => rfl
          | toolResult c => rw [hbody] at hinput; cases hinput
          | control c => rw [hbody] at hinput; cases hinput
        refine ⟨_, hlast, hstatus, ⟨latest, hmem, hsource, hinput, ?_⟩, latest, hlatest, (paused_iff _ _ _).mp hpaused⟩
        exact List.mem_map.mpr ⟨latest, List.mem_filter.mpr ⟨hin, hdialogue⟩, rfl⟩
  · rintro ⟨t, hlast, hstatus, ⟨m, hm, hsource, hinput, hid⟩, latest, hlatest, hunpaused⟩
    rw [hlatest]
    refine ⟨?_, (paused_iff _ _ _).mpr hunpaused⟩
    obtain ⟨-, rfl⟩ := hsync.open_iff.mp ⟨hlast, hstatus⟩
    obtain ⟨x, hx, hxid⟩ := List.mem_map.mp hid
    have hpending := List.mem_of_mem_filter hx
    obtain rfl := hwf.eq_of_id (hsync.pending x hpending).1 hm hxid
    have hafter := (hsync.inputs x hm hsource hinput).mp hpending
    have hle := le_lastInput hmessages hlatest hm hsource hinput
    show p.afterSeq < (latest.seq : Int)
    omega

/-- In a store that is reached the trigger from the latest Input is that of the full scan, and it is
due exactly when the last Turn is open and its Input waits. -/
theorem reply_trigger {db : Database} (h : logMachine.Reachable db) (sessionId source : String) :
    readerNeedsReply db sessionId source = needsReply (db.snapshot sessionId) source ∧
      ∀ turns, project (db.snapshot sessionId) source = .ok turns →
        (needsReply (db.snapshot sessionId) source = true ↔ Waits (db.snapshot sessionId) source turns) := by
  have hlog := logInvariant_of_reachable h
  exact ⟨readerNeedsReply_eq hlog sessionId source, fun turns => needsReply_iff_waits (hlog.wellFormed sessionId)⟩

/-- The pause covers the Inputs before it, and the one behind it waits. -/
theorem reply_trigger_example :
    readerNeedsReply (exampleTalked 7) "s" "user" = true ∧ readerNeedsReply (exampleTalked 8) "s" "user" = false ∧
      readerNeedsReply (exampleTalked 9) "s" "user" = true ∧
      ∃ turns, project ((exampleTalked 9).snapshot "s") "user" = .ok turns ∧
        Waits ((exampleTalked 9).snapshot "s") "user" turns := by
  obtain ⟨hresumed, _⟩ := reply_trigger (exampleTalked_reachable 7) "s" "user"
  obtain ⟨hpaused, _⟩ := reply_trigger (exampleTalked_reachable 8) "s" "user"
  obtain ⟨hsame, hwaits⟩ := reply_trigger (exampleTalked_reachable 9) "s" "user"
  have hdue : needsReply ((exampleTalked 7).snapshot "s") "user" = true ∧
      needsReply ((exampleTalked 8).snapshot "s") "user" = false ∧
      needsReply ((exampleTalked 9).snapshot "s") "user" = true := by decide +kernel
  have hproject : (project ((exampleTalked 9).snapshot "s") "user").toOption.isSome = true := by decide +kernel
  refine ⟨hresumed.trans hdue.1, hpaused.trans hdue.2.1, hsame.trans hdue.2.2, ?_⟩
  cases hturns : project ((exampleTalked 9).snapshot "s") "user" with
  | error e =>
      rw [hturns] at hproject
      cases hproject
  | ok turns => exact ⟨turns, rfl, (hwaits turns hturns).mp hdue.2.2⟩

end MonoAgent.Conversation
