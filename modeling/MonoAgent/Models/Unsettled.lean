import MonoAgent.Models.Projection
import MonoAgent.Session.Settlement

/-!
# When `render` finds an unsettled call

`Abandoned` says which Outputs the first loop of `render` leaves out, in terms of
the log: an abandon reached them before anything else had closed them.  `render`
raises `unsettled` only for a call of another Output that has no result.
-/

namespace MonoAgent.Models

open MonoAgent.Lib MonoAgent.Session

/-! ## The first loop -/

/-- An Output that continues. -/
def isOpenOutput (m : Message) : Bool :=
  match m.body with
  | .output b => b.finish = .continue
  | _ => false

/-- The abandon `m` reaches `q`. -/
def Reaches (m q : Message) : Prop :=
  m.source = q.source ∧ ∃ t, m.body.abandons = some t ∧ q.seq ≤ t

/-- An Output that was open until an abandon reached it. -/
def Abandoned (log : List Message) (q : Message) : Prop :=
  isOpenOutput q = true ∧ ∃ pre m, pre ++ [m] <+: log ∧ q ∈ pre ∧
    ¬ Closed pre q.source q.seq ∧ Reaches m q

/-- A message with calls is an open Output. -/
theorem isOpenOutput_of_calls {m : Message} {ref : CallRef} (h : ref ∈ m.calls) :
    isOpenOutput m = true := by
  obtain ⟨_, b, _, hb, _⟩ := Message.mem_calls.mp h
  rw [isOpenOutput, hb]
  by_contra hfinish
  rw [decide_eq_true_eq] at hfinish
  have hnil : m.calls = [] := by
    rw [Message.calls, hb]
    exact outputCalls_of_finish hfinish
  rw [hnil] at h
  cases h

section FirstLoop

variable {log : List Message} {m q : Message}

theorem abandoned_snoc : Abandoned (log ++ [m]) q ↔ Abandoned log q ∨
    (isOpenOutput q = true ∧ q ∈ log ∧ ¬ Closed log q.source q.seq ∧ Reaches m q) := by
  constructor
  · intro h
    obtain ⟨hopen, pre, x, hp, hq, hclosed, hreach⟩ := h
    rcases List.prefix_concat_iff.mp hp with heq | hp
    · obtain ⟨rfl, hx⟩ := List.append_inj' heq rfl
      cases hx
      exact Or.inr ⟨hopen, hq, hclosed, hreach⟩
    · exact Or.inl ⟨hopen, pre, x, hp, hq, hclosed, hreach⟩
  · intro h
    rcases h with ⟨hopen, pre, x, hp, h⟩ | ⟨hopen, hq, hclosed, hreach⟩
    · exact ⟨hopen, pre, x, hp.trans (List.prefix_append _ _), h⟩
    · exact ⟨hopen, log, m, List.prefix_rfl, hq, hclosed, hreach⟩

theorem abandonment_snoc (log : List Message) (m : Message) :
    abandonment (log ++ [m]) = (abandonment log).visit m := by
  rw [abandonment, List.foldl_append]
  rfl

/-- The pending Outputs of a source are its open Outputs that nothing has closed. -/
theorem mem_pending (hwf : WellFormed log) {source : String} :
    q ∈ (abandonment log).pending source ↔
      q ∈ log ∧ q.source = source ∧ isOpenOutput q = true ∧ ¬ Closed log source q.seq := by
  induction hwf with
  | nil =>
      refine iff_of_false ?_ fun h => by cases h.1
      intro h
      cases h
  | @snoc log m hwf ha ih =>
      have hnew : ¬ Closed log source m.seq := not_closed_of_length hwf ha.seq.ge
      -- A message that closes nothing and is no open Output.
      have hskip (hout : isOpenOutput m = false) (hcloses : ∀ n, ¬ Closes m source n) :
          (q ∈ log ++ [m] ∧ q.source = source ∧ isOpenOutput q = true ∧
            ¬ Closed (log ++ [m]) source q.seq) ↔
          q ∈ log ∧ q.source = source ∧ isOpenOutput q = true ∧ ¬ Closed log source q.seq := by
        rw [closed_snoc, List.mem_append, List.mem_singleton]
        constructor
        · intro h
          obtain ⟨hq | rfl, hsrc, hopen, hclosed⟩ := h
          · exact ⟨hq, hsrc, hopen, fun h => hclosed (Or.inl h)⟩
          · rw [hout] at hopen
            cases hopen
        · intro h
          obtain ⟨hq, hsrc, hopen, hclosed⟩ := h
          exact ⟨Or.inl hq, hsrc, hopen, fun h => h.elim hclosed (hcloses _)⟩
      rw [abandonment_snoc, Abandonment.visit]
      cases hb : m.body with
      | input b =>
          rw [hskip (by simp [isOpenOutput, hb])
            fun n h => by simp [Closes, hb, Body.finishes, Body.abandons] at h]
          exact ih
      | toolResult b =>
          rw [hskip (by simp [isOpenOutput, hb])
            fun n h => by simp [Closes, hb, Body.finishes, Body.abandons] at h]
          exact ih
      | control b =>
          dsimp only
          by_cases hact : b.action = .abandon
          · rw [if_pos hact]
            have hout : isOpenOutput m = false := by simp [isOpenOutput, hb]
            have hcloses (n : Nat) : Closes m source n ↔ m.source = source ∧ n ≤ b.throughSeq := by
              simp [Closes, hb, Body.finishes, Body.abandons, hact]
            rw [closed_snoc, List.mem_append, List.mem_singleton, hcloses, not_or, not_and, not_le]
            by_cases hsrc : source = m.source
            · rw [hsrc] at ih ⊢
              dsimp only
              rw [Function.update_self, List.mem_filter, decide_eq_true_eq, ih]
              constructor
              · intro h
                obtain ⟨⟨hq, hs, hopen, hclosed⟩, hlt⟩ := h
                exact ⟨Or.inl hq, hs, hopen, hclosed, fun _ => hlt⟩
              · intro h
                obtain ⟨hq | rfl, hs, hopen, hclosed, hlt⟩ := h
                · exact ⟨⟨hq, hs, hopen, hclosed⟩, hlt rfl⟩
                · rw [hout] at hopen
                  cases hopen
            · dsimp only
              rw [Function.update_of_ne hsrc, ih]
              constructor
              · intro h
                obtain ⟨hq, hs, hopen, hclosed⟩ := h
                exact ⟨Or.inl hq, hs, hopen, hclosed, fun h => absurd h.symm hsrc⟩
              · intro h
                obtain ⟨hq | rfl, hs, hopen, hclosed, _⟩ := h
                · exact ⟨hq, hs, hopen, hclosed⟩
                · exact absurd hs.symm hsrc
          · rw [if_neg hact, hskip (by simp [isOpenOutput, hb])
              fun n h => by simp [Closes, hb, Body.finishes, Body.abandons, hact] at h]
            exact ih
      | output b =>
          dsimp only
          rw [closed_snoc, List.mem_append, List.mem_singleton]
          by_cases hsrc : source = m.source
          · rw [hsrc] at ih hnew ⊢
            rw [Function.update_self]
            by_cases hfinish : b.finish = .continue
            · have hcloses (n : Nat) : ¬ Closes m m.source n := by
                simp [Closes, hb, Body.finishes, Body.abandons, hfinish]
              rw [if_pos hfinish, List.mem_append, List.mem_singleton, ih]
              constructor
              · intro h
                rcases h with ⟨hq, hs, hopen, hclosed⟩ | rfl
                · exact ⟨Or.inl hq, hs, hopen, fun h => h.elim hclosed (hcloses _)⟩
                · refine ⟨Or.inr rfl, rfl, by simp [isOpenOutput, hb, hfinish], ?_⟩
                  exact fun h => h.elim hnew (hcloses _)
              · intro h
                obtain ⟨hq | rfl, hs, hopen, hclosed⟩ := h
                · exact Or.inl ⟨hq, hs, hopen, fun h => hclosed (Or.inl h)⟩
                · exact Or.inr rfl
            · rw [if_neg hfinish]
              refine iff_of_false List.not_mem_nil fun h => ?_
              obtain ⟨hq, _, hopen, hclosed⟩ := h
              rcases hq with hq | rfl
              · refine hclosed (Or.inr ⟨rfl, Or.inl ⟨?_, ?_⟩⟩)
                · simp [hb, Body.finishes, hfinish]
                · rw [ha.seq]
                  exact (hwf.seq_lt hq).le
              · simp [isOpenOutput, hb, hfinish] at hopen
          · rw [Function.update_of_ne hsrc, ih]
            constructor
            · intro h
              obtain ⟨hq, hs, hopen, hclosed⟩ := h
              exact ⟨Or.inl hq, hs, hopen, fun h => h.elim hclosed fun h => hsrc h.1.symm⟩
            · intro h
              obtain ⟨hq | rfl, hs, hopen, hclosed⟩ := h
              · exact ⟨hq, hs, hopen, fun h => hclosed (Or.inl h)⟩
              · exact absurd hs.symm hsrc

/-- The Outputs a message takes away from those pending. -/
theorem abandonment_visit_eq (s : Abandonment) (m : Message) :
    (s.visit m).abandoned = s.abandoned ++
        ((s.pending m.source).filter fun q => m.body.abandons.any (q.seq ≤ ·)).map (·.messageId) ∧
      (s.visit m).abandonedCalls = s.abandonedCalls ++
        ((s.pending m.source).filter fun q => m.body.abandons.any (q.seq ≤ ·)).flatMap (·.calls) := by
  rw [Abandonment.visit]
  cases hb : m.body with
  | input b => simp [Body.abandons]
  | toolResult b => simp [Body.abandons]
  | output b => simp [Body.abandons]
  | control b =>
      by_cases hact : b.action = .abandon
      · simp [Body.abandons, hact]
      · simp [Body.abandons, hact]

/-- What an abandon takes away from the pending Outputs. -/
theorem mem_taken (hwf : WellFormed log) :
    q ∈ ((abandonment log).pending m.source).filter (fun q => m.body.abandons.any (q.seq ≤ ·)) ↔
      isOpenOutput q = true ∧ q ∈ log ∧ ¬ Closed log q.source q.seq ∧ Reaches m q := by
  rw [List.mem_filter, mem_pending hwf, Option.any_eq_true, Reaches]
  constructor
  · intro h
    obtain ⟨⟨hq, hsrc, hopen, hclosed⟩, t, ht, hle⟩ := h
    exact ⟨hopen, hq, hsrc ▸ hclosed, hsrc.symm, t, ht, of_decide_eq_true hle⟩
  · intro h
    obtain ⟨hopen, hq, hclosed, hsrc, t, ht, hle⟩ := h
    exact ⟨⟨hq, hsrc.symm, hopen, hsrc ▸ hclosed⟩, t, ht, decide_eq_true hle⟩

theorem mem_abandoned (hwf : WellFormed log) {id : String} :
    id ∈ (abandonment log).abandoned ↔ ∃ q, Abandoned log q ∧ q.messageId = id := by
  induction hwf with
  | nil =>
      refine iff_of_false (fun h => by cases h) fun h => ?_
      obtain ⟨q, ⟨_, pre, m, hp, _⟩, _⟩ := h
      exact absurd (List.prefix_nil.mp hp) (by simp)
  | @snoc log m hwf ha ih =>
      rw [abandonment_snoc, (abandonment_visit_eq _ m).1, List.mem_append, ih, List.mem_map]
      simp only [mem_taken hwf, abandoned_snoc, or_and_right, exists_or]

theorem mem_abandonedCalls (hwf : WellFormed log) {ref : CallRef} :
    ref ∈ (abandonment log).abandonedCalls ↔ ∃ q, Abandoned log q ∧ ref ∈ q.calls := by
  induction hwf with
  | nil =>
      refine iff_of_false (fun h => by cases h) fun h => ?_
      obtain ⟨q, ⟨_, pre, m, hp, _⟩, _⟩ := h
      exact absurd (List.prefix_nil.mp hp) (by simp)
  | @snoc log m hwf ha ih =>
      rw [abandonment_snoc, (abandonment_visit_eq _ m).2, List.mem_append, ih, List.mem_flatMap]
      simp only [mem_taken hwf, abandoned_snoc, or_and_right, exists_or]

/-- An abandoned Output is one of the log. -/
theorem Abandoned.mem (h : Abandoned log q) : q ∈ log :=
  let ⟨_, _, _, hp, hq, _⟩ := h
  hp.subset (List.mem_append_left _ hq)

theorem Abandoned.withdrawn (h : Abandoned log q) : Withdrawn log q :=
  let ⟨_, _, m, hp, _, _, hreach⟩ := h
  ⟨m, hp.subset (List.mem_append_right _ (List.mem_singleton_self m)), hreach⟩

theorem abandoned_iff (hwf : WellFormed log) (hq : q ∈ log) :
    q.messageId ∈ (abandonment log).abandoned ↔ Abandoned log q := by
  rw [mem_abandoned hwf]
  constructor
  · intro h
    obtain ⟨q', h', hid⟩ := h
    exact hwf.eq_of_id h'.mem hq hid ▸ h'
  · exact fun h => ⟨q, h, rfl⟩

end FirstLoop

/-! ## Runs that never find an unsettled call -/

/-- A computation that does not raise `unsettled`. -/
def Rendered.Safe {α : Type} (x : Rendered α) : Prop := ∀ ref, x ≠ .error (.unsettled ref)

namespace Rendered

variable {α β : Type}

theorem safe_ok (a : α) : Safe (.ok a : Rendered α) := fun _ h => by cases h

theorem safe_raised (e : Error) : Safe (.error (.raised e) : Rendered α) := fun _ h => by cases h

theorem safe_invalid (text : String) : Safe (invalid text : Rendered α) := safe_raised _

theorem safe_lift (x : Except Error α) : Safe (lift x) := by
  cases x with
  | ok a => exact safe_ok a
  | error e => exact safe_raised e

theorem safe_bind {x : Rendered α} {f : α → Rendered β} (hx : Safe x)
    (hf : ∀ a, x = .ok a → Safe (f a)) : Safe (x >>= f) := by
  cases x with
  | ok a => exact hf a rfl
  | error e =>
      intro ref h
      cases h
      exact hx ref rfl

theorem safe_foldlM {l : List α} {f : β → α → Rendered β} (h : ∀ s, ∀ a ∈ l, Safe (f s a)) (s : β) :
    Safe (l.foldlM f s) := by
  induction l generalizing s with
  | nil => exact safe_ok s
  | cons a l ih =>
      rw [List.foldlM_cons]
      refine safe_bind (h s a (List.mem_cons_self ..)) fun s' _ => ?_
      exact ih (fun s b hb => h s b (List.mem_cons_of_mem _ hb)) s'

theorem safe_mapM {l : List α} {f : α → Rendered β} (h : ∀ a, Safe (f a)) : Safe (l.mapM f) := by
  induction l with
  | nil => exact safe_ok []
  | cons a l ih =>
      rw [List.mapM_cons]
      exact safe_bind (h a) fun b _ => safe_bind ih fun bs _ => safe_ok _

end Rendered

open Rendered

section Render

variable {p : MessageProjection} {log : List Message} {afterSeq : Int}

theorem safe_recordedFacts (abandoned : List String) (m : Message) :
    Safe (recordedFacts abandoned m) := by
  rw [recordedFacts]
  split
  · split
    · exact safe_ok _
    · split
      · exact safe_ok _
      · exact safe_bind (safe_lift _) fun _ _ => safe_ok _
      · exact safe_invalid _
  · exact safe_ok _

theorem safe_replayFacts (s : Replay) (m : Message) (b : Output) (value : Facts) :
    Safe (p.replayFacts s m b value) := by
  rw [MessageProjection.replayFacts]
  refine safe_bind (safe_lift _) fun receipt _ => ?_
  repeat' split
  all_goals first
    | exact safe_invalid _
    | exact safe_ok _
    | exact safe_bind (safe_lift _) fun _ _ => safe_ok _

theorem safe_replay (a : Abandonment) (recorded : List (String × Facts)) (s : Replay)
    (m : Message) : Safe (p.replay a recorded s m) := by
  rw [MessageProjection.replay]
  cases m.body with
  | input b => exact safe_ok _
  | control b => exact safe_ok _
  | toolResult b =>
      dsimp only
      split
      · exact safe_ok _
      · split
        · exact safe_invalid _
        · exact safe_ok _
  | output b =>
      dsimp only
      split
      · exact safe_ok _
      · exact safe_replayFacts _ _ _ _

theorem safe_checkContinuation (summary : Option String) (fresh : Bool) (s : Replay) :
    Safe (p.checkContinuation afterSeq summary fresh s) := by
  rw [MessageProjection.checkContinuation]
  repeat' split
  all_goals first
    | exact safe_ok _
    | exact safe_invalid _

/-- The results the second loop has kept. -/
theorem replay_results {a : Abandonment} {recorded : List (String × Facts)} {s s' : Replay}
    {m : Message} (h : p.replay a recorded s m = .ok s') {ref : CallRef} :
    ref ∈ s'.results.keys ↔
      ref ∈ s.results.keys ∨ (m.body.settles = some ref ∧ ref ∉ a.abandonedCalls) := by
  rw [MessageProjection.replay] at h
  cases hb : m.body with
  | input b =>
      rw [hb] at h
      cases h
      simp [Body.settles]
  | control b =>
      rw [hb] at h
      cases h
      split <;> simp [Body.settles]
  | output b =>
      rw [hb] at h
      have hsame : s'.results = s.results := by
        dsimp only at h
        split at h
        · cases h
          rfl
        · rw [MessageProjection.replayFacts] at h
          obtain ⟨_, _, h⟩ := Except.bind_eq_ok.mp h
          split at h
          · cases h
          · split at h
            · cases h
            · split at h
              · cases h
              · dsimp only at h
                split at h
                · split at h
                  · cases h
                    rfl
                  · obtain ⟨_, _, h⟩ := Except.bind_eq_ok.mp h
                    cases h
                    rfl
                  · cases h
                · cases h
                  rfl
      rw [hsame]
      simp [Body.settles]
  | toolResult b =>
      rw [hb] at h
      dsimp only at h
      split at h
      · next habandoned =>
          cases h
          constructor
          · exact Or.inl
          · intro h
            rcases h with h | ⟨hset, hnot⟩
            · exact h
            · cases hset
              exact absurd habandoned hnot
      · next habandoned =>
          split at h
          · cases h
          · cases h
            rw [Dict.keys_set]
            split
            · next hmem =>
                constructor
                · exact Or.inl
                · intro h
                  rcases h with h | ⟨hset, _⟩
                  · exact h
                  · cases hset
                    exact hmem
            · rw [List.mem_append, List.mem_singleton]
              constructor
              · intro h
                rcases h with h | rfl
                · exact Or.inl h
                · exact Or.inr ⟨rfl, habandoned⟩
              · intro h
                rcases h with h | ⟨hset, _⟩
                · exact Or.inl h
                · cases hset
                  exact Or.inr rfl

theorem mem_results {a : Abandonment} {recorded : List (String × Facts)} {s s' : Replay}
    {messages : List Message} (h : messages.foldlM (p.replay a recorded) s = .ok s')
    {ref : CallRef} : ref ∈ s'.results.keys ↔ ref ∈ s.results.keys ∨
      (Settled messages ref ∧ ref ∉ a.abandonedCalls) := by
  induction messages generalizing s with
  | nil =>
      cases h
      simp [Settled]
  | cons m rest ih =>
      rw [List.foldlM_cons] at h
      obtain ⟨s₁, hm, h⟩ := Except.bind_eq_ok.mp h
      rw [ih h, replay_results hm]
      have hcons : Settled (m :: rest) ref ↔ m.body.settles = some ref ∨ Settled rest ref := by
        simp [Settled]
      rw [hcons]
      tauto

theorem safe_index {α : Type} (entries : List (String × α)) (key : String) :
    Safe (index? entries key) := by
  rw [index?]
  split
  · exact safe_ok _
  · exact safe_raised _

theorem safe_identity (facts : Option Facts) (ref : CallRef) : Safe (p.identity facts ref) := by
  cases facts with
  | some facts => exact safe_index _ _
  | none => exact safe_ok _

theorem safe_written (facts : Option Facts) (call : ToolCall) (position : Nat) :
    Safe (p.written facts call position) := by
  rw [MessageProjection.written]
  split
  · exact safe_ok _
  · exact safe_bind (safe_lift _) fun _ _ => safe_ok _

theorem safe_renderPart (abandoned : Bool) (facts : Option Facts) (row : Row) (part : ContentPart)
    (position : Nat) : Safe (p.renderPart abandoned facts row part position) := by
  rw [MessageProjection.renderPart]
  split
  · refine safe_bind (safe_lift _) fun _ _ => ?_
    split
    · exact safe_ok _
    · split
      · exact safe_invalid _
      · exact safe_bind (safe_index _ _) fun _ _ => safe_ok _
  · split
    · exact safe_ok _
    · exact safe_bind (safe_lift _) fun _ _ => safe_ok _

/-- A call whose result is known does not raise `unsettled`. -/
theorem safe_renderCall (facts : Option Facts) {results : Dict CallRef Message} {m : Message}
    (row : Row) (call : ToolCall) {position : Nat}
    (h : (⟨m.messageId, position⟩ : CallRef) ∈ results.keys) :
    Safe (p.renderCall facts results m row call position) := by
  rw [MessageProjection.renderCall]
  refine safe_bind (safe_identity _ _) fun identity _ => ?_
  refine safe_bind (safe_written _ _ _) fun written _ => ?_
  split
  · next hnone => exact absurd h (Dict.get?_eq_none.mp hnone)
  · split
    · exact safe_invalid _
    · split
      · exact safe_bind (safe_lift _) fun _ _ => safe_ok _
      · exact safe_ok _

/-- `render` does not find an unsettled call when every call of an Output that was
not abandoned has a result. -/
theorem safe_render (hwf : WellFormed log) (summary : Option String) (fresh : Bool)
    (h : ∀ q ∈ log, q.messageId ∉ (abandonment log).abandoned → ∀ ref ∈ q.calls,
      Settled log ref) : Safe (p.render log afterSeq summary fresh) := by
  rw [MessageProjection.render]
  split
  · exact safe_invalid _
  · refine safe_bind (safe_mapM fun m => ?_) fun recorded _ => ?_
    · exact safe_bind (safe_recordedFacts _ m) fun _ _ => safe_ok _
    · refine safe_bind (safe_foldlM (fun s m _ => safe_replay _ _ s m) _) fun replay hreplay => ?_
      refine safe_bind (safe_checkContinuation _ _ _) fun continuation _ => ?_
      refine safe_bind (safe_foldlM (fun s m hm => ?_) _) fun rows _ => ?_
      · rw [MessageProjection.renderMessage]
        split
        · exact safe_ok _
        · split
          · exact safe_ok _
          · refine safe_bind (safe_foldlM (fun row part hpart => ?_) _) fun _ _ => safe_ok _
            rw [MessageProjection.renderParts]
            split
            · exact safe_renderPart _ _ _ _ _
            · next call hcall =>
                by_cases hab : m.messageId ∈ (abandonment log).abandoned
                · rw [if_pos (decide_eq_true hab)]
                  exact safe_ok _
                · rw [if_neg (by simpa using hab)]
                  have hpos := List.mem_zipIdx_iff_getElem?.mp hpart
                  have hc : (⟨m.messageId, part.2⟩ : CallRef) ∈ m.calls := by
                    rw [Message.mem_calls]
                    cases hb : m.body with
                    | output b =>
                        rw [hb] at hpos
                        exact ⟨rfl, b, call, rfl, hpos.trans (congrArg some hcall)⟩
                    | input b =>
                        rw [hb] at hpos
                        obtain ⟨c, _, hc⟩ := List.mem_map.mp (List.mem_of_getElem? hpos)
                        cases hc.trans hcall
                    | toolResult b =>
                        rw [hb] at hpos
                        obtain ⟨c, _, hc⟩ := List.mem_map.mp (List.mem_of_getElem? hpos)
                        cases hc.trans hcall
                    | control b =>
                        rw [hb] at hpos
                        cases hpos
                  refine safe_renderCall _ _ _ ((mem_results hreplay).mpr (Or.inr ⟨?_, ?_⟩))
                  · exact h m hm hab _ hc
                  · intro hmem
                    obtain ⟨q, hq, hcq⟩ := (mem_abandonedCalls hwf).mp hmem
                    cases hwf.eq_of_call hq.mem hm hcq hc
                    exact hab ((abandoned_iff hwf hm).mpr hq)
      · split
        · exact safe_invalid _
        · exact safe_ok _

end Render

end MonoAgent.Models
