import Mathlib
import MonoAgent.Drift.Store

/-!
# A proposal that is made again

`Changed` says once what a call commits.  A row keeps its payload and its retry time for
good; its due time moves in one place, when a selected row is deferred to its retry time.
So a revision that is proposed again is recognised until it has been deferred to another
time than it was proposed for, and is a conflict in every state after that
(`propose_again`).
-/

namespace MonoAgent.Drift

open MonoAgent.Lib MonoAgent.Session

/-! ## What a call commits -/

/-- What `settle_delivery` writes. -/
def settleRow (settlement : String) (stamp : Text) (row : Proposal) : Proposal :=
  { row with
    status := .settled
    settlementRef := some settlement
    stateVersion := row.stateVersion + 1
    updatedAt := stamp }

/-- What `select` writes. -/
def selectRow (token : String) (turn : String × String) (stamp : Text) (row : Proposal) :
    Proposal :=
  { row with
    status := .selected
    selectionToken := some token
    selectedTurn := some turn
    stateVersion := row.stateVersion + 1
    updatedAt := stamp }

/-- A call commits the table as it was, or one of these changes. -/
inductive Changed (s : Store) : Action → Store → Prop where
  | same (a : Action) : Changed s a s
  | inserted {args : Proposed} {now : Text} {c : Content} (hcontent : args.content = .ok c)
      (hnew : s.find c.key = none) :
      Changed s (.propose args now) ⟨s.proposals ++ [{ c with createdAt := now, updatedAt := now }]⟩
  | selected {args : Store.Selecting} {stamp : Text} {key turn : String × String}
      {found : Proposal → Bool} (hfound : ∀ r, found r = true → r.key = key)
      (hfresh : ∀ r ∈ s.proposals, r.selectionToken ≠ some args.token) :
      Changed s (.select args stamp) (s.update found (selectRow args.token turn stamp))
  | stepped {token action : String} {stamp : Text} {step : Step} {row : Proposal}
      (htoken : identity "selection_token" (some token) = .ok token)
      (hstep : Step.parse action = some step)
      (hrow : s.proposals.find? (·.selectionToken = some token) = some row)
      (hstatus : step = .defer → row.status = .selected ∧ row.nextDue.isSome) :
      Changed s (.transition token action stamp)
        (s.update (fun r => decide (r.selectionToken = some token ∧
            (step = .failed ∨ r.status = .selected)))
          (Store.stepRow step (if step = .defer then row.nextDue else none) stamp))
  | settled {token settlement : String} {stamp : Text} (found : Proposal → Bool) :
      Changed s (.settleDelivery token settlement stamp)
        (s.update found (settleRow settlement stamp))

section Calls

variable {s t : Store} {a : Action} {key : String × String}

/-- An identity that is accepted is the one that was given. -/
theorem identity_ok {field : String} {value : Option String} {x : String}
    (h : identity field value = .ok x) : value = some x := by
  cases value with
  | none => cases h
  | some y =>
      rw [identity] at h
      split at h
      · cases h
      · cases h
        rfl

theorem content_key {args : Proposed} {c : Content} (h : args.content = .ok c) :
    c.key = (args.proposalId, args.revision) := by
  obtain ⟨proposalId, hid, h⟩ := Except.bind_eq_ok.mp h
  obtain ⟨revision, hrevision, h⟩ := Except.bind_eq_ok.mp h
  obtain ⟨_, _, h⟩ := Except.bind_eq_ok.mp h
  obtain ⟨_, _, h⟩ := Except.bind_eq_ok.mp h
  obtain ⟨_, _, h⟩ := Except.bind_eq_ok.mp h
  cases h
  cases identity_ok hid
  cases identity_ok hrevision
  rfl

/-- What `propose` does once its arguments are read. -/
theorem propose_eq {args : Proposed} {c : Content} (h : args.content = .ok c) (now : Text) :
    s.propose args now = s.proposeContent c now := by
  rw [Store.propose, h]
  rfl

theorem select_changed {args : Store.Selecting} {stamp : Text} {result : Store.SelectResult}
    (h : s.select args stamp = .ok (result, t)) : Changed s (.select args stamp) t := by
  obtain ⟨proposalId, _, h⟩ := Except.bind_eq_ok.mp h
  obtain ⟨revision, _, h⟩ := Except.bind_eq_ok.mp h
  obtain ⟨stateVersion, _, h⟩ := Except.bind_eq_ok.mp h
  obtain ⟨sessionId, _, h⟩ := Except.bind_eq_ok.mp h
  obtain ⟨turnId, _, h⟩ := Except.bind_eq_ok.mp h
  split at h
  · cases h
    exact .same _
  · obtain ⟨instant, _, h⟩ := Except.bind_eq_ok.mp h
    dsimp only at h
    split at h
    · obtain ⟨_, hfresh, h⟩ := Except.bind_eq_ok.mp h
      have hfresh := ensure_eq_ok.mp hfresh
      cases h
      refine @Changed.selected _ _ _ (proposalId, revision) (sessionId, turnId) _
        (fun r hr => ?_) fun r hr htoken => hfresh ?_
      · rw [Store.selects, decide_eq_true_eq] at hr
        exact hr.1
      · exact List.any_eq_true.mpr ⟨r, hr, by simpa using htoken⟩
    · cases h
      exact .same _

theorem transition_changed {token action : String} {stamp : Text} {result : TransitionResult}
    (h : s.transition token action stamp = .ok (result, t)) :
    Changed s (.transition token action stamp) t := by
  obtain ⟨selection, htoken, h⟩ := Except.bind_eq_ok.mp h
  cases identity_ok htoken
  split at h
  · cases h
  · next step hstep =>
      split at h
      · cases h
        exact .same _
      · next row hrow =>
          split at h
          · cases h
            exact .same _
          · next hstatus =>
              obtain ⟨_, hdue, h⟩ := Except.bind_eq_ok.mp h
              have hdue := ensure_eq_ok.mp hdue
              cases h
              refine .stepped htoken hstep hrow fun hdefer => ⟨?_, ?_⟩
              · by_contra hne
                exact hstatus ⟨hne, fun hboth => by simp [hdefer] at hboth⟩
              · exact Option.isSome_iff_ne_none.mpr fun hnone => hdue ⟨hdefer, hnone⟩

theorem settle_changed {token settlement : String} {stamp : Text} {result : SettleResult}
    (h : s.settleDelivery token settlement stamp = .ok (result, t)) :
    Changed s (.settleDelivery token settlement stamp) t := by
  obtain ⟨token', htoken, h⟩ := Except.bind_eq_ok.mp h
  obtain ⟨settlement', hsettlement, h⟩ := Except.bind_eq_ok.mp h
  cases identity_ok htoken
  cases identity_ok hsettlement
  split at h
  · cases h
    exact .same _
  · split at h
    · obtain ⟨_, _, h⟩ := Except.bind_eq_ok.mp h
      cases h
      exact .same _
    · split at h
      · cases h
        exact .same _
      · obtain ⟨_, _, h⟩ := Except.bind_eq_ok.mp h
        cases h
        exact .settled _

theorem run_changed (h : a.run s = .ok t) : Changed s a t := by
  cases a with
  | propose args now =>
      obtain ⟨⟨result, u⟩, hp, rfl⟩ := Except.map_eq_ok.mp h
      obtain ⟨c, hcontent, hp⟩ := Except.bind_eq_ok.mp hp
      rw [Store.proposeContent] at hp
      split at hp
      · split at hp
        · cases hp
        · cases hp
          exact .same _
      · next hnew =>
          cases hp
          exact .inserted hcontent hnew
  | select args stamp =>
      obtain ⟨⟨result, u⟩, hp, rfl⟩ := Except.map_eq_ok.mp h
      exact select_changed hp
  | transition token action stamp =>
      obtain ⟨⟨result, u⟩, hp, rfl⟩ := Except.map_eq_ok.mp h
      exact transition_changed hp
  | settleDelivery token settlement stamp =>
      obtain ⟨⟨result, u⟩, hp, rfl⟩ := Except.map_eq_ok.mp h
      exact settle_changed hp

theorem next_changed (h : machine.next s a = some t) : Changed s a t := by
  have h : some ((a.run s).toOption.getD s) = some t := h
  cases hrun : a.run s with
  | error e =>
      rw [hrun] at h
      cases h
      exact .same a
  | ok u =>
      rw [hrun] at h
      cases h
      exact run_changed hrun

end Calls

/-! ## Rows -/

section Rows

variable {s t : Store} {a : Action} {key : String × String} {row row' : Proposal}

/-- Two rows have no key and no selection in common. -/
def Apart (r r' : Proposal) : Prop :=
  r.key ≠ r'.key ∧ ∀ token, r.selectionToken = some token → r'.selectionToken ≠ some token

instance : Std.Symm Apart where
  symm _ _ h := ⟨fun hkey => h.1 hkey.symm, fun token htoken htoken' => h.2 token htoken' htoken⟩

/-- The primary key and the unique selection token. -/
def Inv (s : Store) : Prop := s.proposals.Pairwise Apart

/-- An update that keeps the rows apart. -/
theorem inv_update (h : Inv s) {p : Proposal → Bool} {f : Proposal → Proposal}
    (hkeep : ∀ r ∈ s.proposals, ∀ r' ∈ s.proposals, Apart r r' →
      Apart (if p r then f r else r) (if p r' then f r' else r')) : Inv (s.update p f) := by
  rw [Inv, Store.update, List.pairwise_map]
  exact h.imp_of_mem fun hr hr' hapart => hkeep _ hr _ hr' hapart

/-- So does one that leaves a selection or clears it. -/
theorem inv_update_of_clears (h : Inv s) (p : Proposal → Bool) {f : Proposal → Proposal}
    (hkey : ∀ r, (f r).key = r.key)
    (htoken : ∀ r x, (f r).selectionToken = some x → r.selectionToken = some x) :
    Inv (s.update p f) := by
  have hif (r : Proposal) : (if p r then f r else r).key = r.key ∧
      ∀ x, (if p r then f r else r).selectionToken = some x → r.selectionToken = some x := by
    split
    · exact ⟨hkey r, htoken r⟩
    · exact ⟨rfl, fun x hx => hx⟩
  refine inv_update h fun r _ r' _ hapart => ⟨?_, fun x hx hx' => ?_⟩
  · rw [(hif r).1, (hif r').1]
    exact hapart.1
  · exact hapart.2 x ((hif r).2 x hx) ((hif r').2 x hx')

theorem stepRow_kept (step : Step) (dueAt : Option Text) (stamp : Text) (r : Proposal) :
    (Store.stepRow step dueAt stamp r).key = r.key ∧
      (Store.stepRow step dueAt stamp r).payloadJson = r.payloadJson ∧
      (Store.stepRow step dueAt stamp r).nextDue = r.nextDue ∧
      ∀ x, (Store.stepRow step dueAt stamp r).selectionToken = some x →
        r.selectionToken = some x := by
  cases step
  case readyForDelivery => exact ⟨rfl, rfl, rfl, fun x hx => hx⟩
  case failed => exact ⟨rfl, rfl, rfl, fun x hx => hx⟩
  all_goals exact ⟨rfl, rfl, rfl, fun x hx => by cases hx⟩

theorem inv_changed (h : Inv s) (hc : Changed s a t) : Inv t := by
  cases hc with
  | same => exact h
  | @inserted args now c hcontent hnew =>
      refine List.pairwise_append.mpr ⟨h, List.pairwise_singleton _ _, ?_⟩
      intro r hr r' hr'
      rw [List.mem_singleton.mp hr']
      refine ⟨fun hkey => ?_, fun token _ hnone => by cases hnone⟩
      have hno := List.find?_eq_none.mp hnew r hr
      exact hno (decide_eq_true hkey)
  | @selected args stamp key turn found hfound hfresh =>
      refine inv_update h fun r hr r' hr' hapart => ?_
      cases hf : found r with
      | false =>
          cases hf' : found r' with
          | false => exact hapart
          | true =>
              refine ⟨hapart.1, fun token htoken htoken' => ?_⟩
              cases htoken'
              exact hfresh r hr htoken
      | true =>
          cases hf' : found r' with
          | false =>
              refine ⟨hapart.1, fun token htoken htoken' => ?_⟩
              cases htoken
              exact hfresh r' hr' htoken'
          | true => exact absurd ((hfound r hf).trans (hfound r' hf').symm) hapart.1
  | @stepped token action stamp step row _ _ _ _ =>
      exact inv_update_of_clears h _ (fun r => (stepRow_kept _ _ _ r).1)
        fun r x hx => (stepRow_kept _ _ _ r).2.2.2 x hx
  | settled => exact inv_update_of_clears h _ (fun _ => rfl) fun _ _ hx => hx

/-- The table of every run keeps its constraints. -/
theorem inv_reachable (h : machine.Reachable s) : Inv s := by
  refine h.invariant ?_ fun s a t hs _ hn => inv_changed hs (next_changed hn)
  rintro s rfl
  exact List.Pairwise.nil

/-- A token selects one row. -/
theorem eq_of_token (h : Inv s) (hr : row ∈ s.proposals) (hr' : row' ∈ s.proposals) {token : String}
    (htoken : row.selectionToken = some token) (htoken' : row'.selectionToken = some token) :
    row = row' := by
  by_contra hne
  exact (List.Pairwise.forall h hr hr' hne).2 token htoken htoken'

theorem mem_of_find (h : s.find key = some row) : row ∈ s.proposals ∧ row.key = key :=
  ⟨List.mem_of_find?_eq_some h, by simpa using List.find?_some h⟩

/-- An update finds the row where it was. -/
theorem find_update (p : Proposal → Bool) (f : Proposal → Proposal)
    (hkey : ∀ r, (f r).key = r.key) :
    (s.update p f).find key = (s.find key).map fun r => if p r then f r else r := by
  rw [Store.find, Store.update, List.find?_map, Store.find]
  congr 2
  funext r
  show decide ((if p r then f r else r).key = key) = decide (r.key = key)
  split
  · rw [hkey]
  · rfl

/-- Where the due time of a row moves: a selected row is deferred to its retry time. -/
def Deferred (key : String × String) (s : Store) (a : Action) (row : Proposal) : Prop :=
  ∃ token stamp, a = .transition token "defer" stamp ∧
    identity "selection_token" (some token) = .ok token ∧
    s.find key = some row ∧ row.selectionToken = some token ∧ row.status = .selected ∧
    row.nextDue.isSome

/-- The call defers the row of this key to another time than it is due at. -/
def Postpones (key : String × String) (s : Store) (a : Action) : Prop :=
  ∃ row, Deferred key s a row ∧ row.nextDue ≠ some row.dueAt

/-- What a step does to the row of a key: its payload and its retry time stay, and its due
time moves to the retry time when it is deferred. -/
theorem row_next (h : Inv s) (hn : machine.next s a = some t) (hrow : s.find key = some row) :
    ∃ row', t.find key = some row' ∧ row'.payloadJson = row.payloadJson ∧
      row'.nextDue = row.nextDue ∧
      (row'.dueAt = row.dueAt ∨ Deferred key s a row ∧ row.nextDue = some row'.dueAt) := by
  cases next_changed hn with
  | same => exact ⟨row, hrow, rfl, rfl, Or.inl rfl⟩
  | @inserted args now c hcontent hnew =>
      refine ⟨row, ?_, rfl, rfl, Or.inl rfl⟩
      rw [Store.find, List.find?_append, ← Store.find, hrow]
      rfl
  | @selected args stamp key' turn found hfound hfresh =>
      rw [find_update found (selectRow args.token turn stamp) fun _ => rfl, hrow]
      refine ⟨_, rfl, ?_⟩
      dsimp only
      split <;> exact ⟨rfl, rfl, Or.inl rfl⟩
  | @settled token settlement stamp found =>
      rw [find_update found (settleRow settlement stamp) fun _ => rfl, hrow]
      refine ⟨_, rfl, ?_⟩
      dsimp only
      split <;> exact ⟨rfl, rfl, Or.inl rfl⟩
  | @stepped token action stamp step chosen htoken hstep hchosen hstatus =>
      rw [find_update _ _ fun r => (stepRow_kept _ _ _ r).1, hrow]
      refine ⟨_, rfl, ?_⟩
      dsimp only
      split
      · next hwritten =>
          have hwritten := of_decide_eq_true hwritten
          have hsame : chosen = row := by
            refine eq_of_token h (List.mem_of_find?_eq_some hchosen) (mem_of_find hrow).1 ?_
              hwritten.1
            simpa using List.find?_some hchosen
          subst hsame
          obtain ⟨-, hpayload, hretry, -⟩ := stepRow_kept step
            (if step = .defer then chosen.nextDue else none) stamp chosen
          refine ⟨hpayload, hretry, ?_⟩
          cases step with
          | defer =>
              obtain ⟨hselected, hsome⟩ := hstatus rfl
              have htext : Step.defer.text = action := by simpa using List.find?_some hstep
              have haction : action = "defer" := htext.symm
              obtain ⟨x, hx⟩ := Option.isSome_iff_exists.mp hsome
              refine Or.inr ⟨⟨token, stamp, by rw [haction], htoken, hrow, hwritten.1, hselected,
                hsome⟩, ?_⟩
              rw [if_pos rfl, hx]
              rfl
          | readyForDelivery => exact Or.inl rfl
          | failed => exact Or.inl rfl
          | awaitChange => exact Or.inl rfl
          | invalidated => exact Or.inl rfl
      · exact ⟨rfl, rfl, Or.inl rfl⟩

/-- A row that is deferred is due at its retry time. -/
theorem deferred_next (h : Inv s) (hdefer : Deferred key s a row)
    (hn : machine.next s a = some t) :
    ∃ row', t.find key = some row' ∧ row'.payloadJson = row.payloadJson ∧
      row'.nextDue = row.nextDue ∧ row.nextDue = some row'.dueAt := by
  obtain ⟨token, stamp, rfl, htoken, hrow, hselection, hselected, hsome⟩ := hdefer
  obtain ⟨x, hx⟩ := Option.isSome_iff_exists.mp hsome
  have hmem := (mem_of_find hrow).1
  have hfound : s.proposals.find? (·.selectionToken = some token) = some row := by
    obtain ⟨chosen, hchosen⟩ := Option.isSome_iff_exists.mp
      (List.find?_isSome (p := fun r : Proposal => decide (r.selectionToken = some token)).mpr
        ⟨row, hmem, decide_eq_true hselection⟩)
    have hsame : chosen = row := by
      refine eq_of_token h (List.mem_of_find?_eq_some hchosen) hmem ?_ hselection
      simpa using List.find?_some hchosen
    rw [hchosen, hsame]
  have hparse : Step.parse "defer" = some .defer := by decide
  have hrun : s.transition token "defer" stamp = .ok (⟨true, none, some .deferred, some x⟩,
      s.update (fun r => decide (r.selectionToken = some token ∧
        (Step.defer = .failed ∨ r.status = .selected))) (Store.stepRow .defer (some x) stamp)) := by
    simp [Store.transition, htoken, hparse, hfound, hselected, hx, ensure, bind, Except.bind,
      pure, Except.pure, Step.status]
  have hnext : machine.next s (.transition token "defer" stamp) = some (s.update
      (fun r => decide (r.selectionToken = some token ∧
        (Step.defer = .failed ∨ r.status = .selected))) (Store.stepRow .defer (some x) stamp)) := by
    show some (((s.transition token "defer" stamp).map (·.2)).toOption.getD s) = _
    rw [hrun]
    rfl
  cases hn.symm.trans hnext
  rw [find_update _ _ fun r => (stepRow_kept _ _ _ r).1, hrow]
  refine ⟨_, rfl, ?_⟩
  dsimp only
  rw [if_pos (decide_eq_true ⟨hselection, Or.inr hselected⟩)]
  exact ⟨rfl, rfl, hx⟩

end Rows

/-! ## Runs -/

section Runs

variable {s t u v w : Store} {c : Content} {key : String × String}

/-- The row of a proposal: what it was proposed with, but for its due time. -/
structure Written (c : Content) (due : Text → Prop) (s : Store) : Prop where
  inv : Inv s
  row : ∃ row, s.find c.key = some row ∧ row.payloadJson = c.payloadJson ∧
    row.nextDue = c.nextDue ∧ due row.dueAt

/-- A due time that follows from where it was, or from the retry time of the row, holds on,
by induction on the run. -/
theorem path_written {ok : Store → Action → Prop} {due : Text → Prop}
    (hdue : ∀ s a row x, ok s a → due row.dueAt → Deferred c.key s a row → row.nextDue = some x →
      row.nextDue = c.nextDue → due x)
    (hs : Written c due s) (hpath : machine.Path ok s t) : Written c due t := by
  refine hpath.invariant (fun s a t hw hok hn => ?_) hs
  obtain ⟨row, hrow, hpayload, hretry, hd⟩ := hw.row
  obtain ⟨row', hrow', hpayload', hretry', hmove⟩ := row_next hw.inv hn hrow
  refine ⟨inv_changed hw.inv (next_changed hn), row', hrow', hpayload'.trans hpayload,
    hretry'.trans hretry, ?_⟩
  rcases hmove with hsame | ⟨hdefer, hx⟩
  · rw [hsame]
    exact hd
  · exact hdue s a row _ hok hd hdefer hx hretry

theorem propose_written {args : Proposed} {now : Text} {due : Text → Prop}
    (hcontent : args.content = .ok c) (hs : Written c due s) :
    ((∀ x, due x → x = c.dueAt) →
      s.propose args now = .ok (⟨false, ⟨c.proposalId, c.revision, 1⟩⟩, s)) ∧
    (¬ due c.dueAt → s.propose args now = .error ⟨.runtimeError,
      "Drift proposal identity conflict: " ++ c.proposalId ++ "/" ++ c.revision⟩) := by
  obtain ⟨row, hrow, hpayload, hretry, hd⟩ := hs.row
  rw [propose_eq hcontent, Store.proposeContent, hrow]
  dsimp only
  constructor
  · intro honly
    rw [if_neg (by rw [hpayload, hretry, honly _ hd]; exact fun hne => hne rfl)]
  · intro hnot
    refine if_pos fun heq => hnot ?_
    have hsame : row.dueAt = c.dueAt := congrArg (fun p => p.2.1) heq
    exact hsame ▸ hd

/-- A revision that was accepted is recognised when it is proposed again, in every run that
does not defer it to another time than it is due at, and is a conflict in every run that
does. -/
theorem propose_again (hs : machine.Reachable s) {args : Proposed} {now : Text} {ref : Ref}
    (hfirst : s.propose args now = .ok (⟨true, ref⟩, t)) :
    (∀ u, machine.Path (fun s a => ¬ Postpones (args.proposalId, args.revision) s a) t u →
      ∀ later, u.propose args later = .ok (⟨false, ref⟩, u)) ∧
    ∀ u a v w, machine.Path Machine.always t u →
      Postpones (args.proposalId, args.revision) u a → machine.next u a = some v →
      machine.Path Machine.always v w → ∀ later, w.propose args later = .error ⟨.runtimeError,
        "Drift proposal identity conflict: " ++ args.proposalId ++ "/" ++ args.revision⟩ := by
  obtain ⟨c, hcontent, hcommit⟩ := Except.bind_eq_ok.mp hfirst
  have hkey := content_key hcontent
  rw [← hkey]
  have hnew : s.find c.key = none ∧ ref = ⟨c.proposalId, c.revision, 1⟩ ∧
      t = ⟨s.proposals ++ [{ c with createdAt := now, updatedAt := now }]⟩ := by
    rw [Store.proposeContent] at hcommit
    split at hcommit
    · split at hcommit <;> cases hcommit
    · next hnone =>
        cases hcommit
        exact ⟨hnone, rfl, rfl⟩
  obtain ⟨hnone, rfl, rfl⟩ := hnew
  have hchanged : Changed s (.propose args now)
      ⟨s.proposals ++ [{ c with createdAt := now, updatedAt := now }]⟩ := .inserted hcontent hnone
  have hinv := inv_changed (inv_reachable hs) hchanged
  have hrow : Store.find ⟨s.proposals ++ [{ c with createdAt := now, updatedAt := now }]⟩ c.key =
      some { c with createdAt := now, updatedAt := now } := by
    rw [Store.find, List.find?_append, ← Store.find, hnone]
    simp [Proposal.key, Content.key]
  constructor
  · intro u hpath later
    have hwritten : Written c (· = c.dueAt) u := by
      refine path_written (fun v a row x hok hd hdefer hx _ => ?_)
        ⟨hinv, _, hrow, rfl, rfl, rfl⟩ hpath
      by_contra hne
      refine hok ⟨row, hdefer, ?_⟩
      rw [hx, hd]
      exact fun heq => hne (Option.some.inj heq)
    exact (propose_written hcontent hwritten).1 fun x hx => hx
  · intro u a v w hpath hpostpones hn hpath' later
    have hbefore : Written c (fun x => x = c.dueAt ∨ c.nextDue = some x) u :=
      path_written (fun _ _ _ _ _ _ _ hx hretry => Or.inr (hretry ▸ hx))
        ⟨hinv, _, hrow, rfl, rfl, Or.inl rfl⟩ hpath
    obtain ⟨row, hrow', hpayload, hretry, hd⟩ := hbefore.row
    obtain ⟨chosen, hdefer, hmoves⟩ := hpostpones
    have hsame : chosen = row := by
      obtain ⟨_, _, _, _, hchosen, _⟩ := hdefer
      exact Option.some.inj (hchosen.symm.trans hrow')
    subst hsame
    obtain ⟨row', hrow'', hpayload', hretry', hdue⟩ := deferred_next hbefore.inv hdefer hn
    have hother : c.nextDue ≠ some c.dueAt := by
      rcases hd with heq | heq
      · rw [← hretry, ← heq]
        exact hmoves
      · exact absurd (hretry.trans heq) hmoves
    have hafter : Written c (fun x => c.nextDue = some x) w :=
      path_written (fun _ _ _ _ _ _ _ hx hretry => hretry ▸ hx)
        ⟨inv_changed hbefore.inv (next_changed hn), row', hrow'', hpayload'.trans hpayload,
          hretry'.trans hretry, hretry ▸ hdue⟩ hpath'
    have hids : c.proposalId = args.proposalId ∧ c.revision = args.revision :=
      ⟨congrArg Prod.fst hkey, congrArg Prod.snd hkey⟩
    rw [← hids.1, ← hids.2]
    exact (propose_written hcontent hafter).2 hother

end Runs

/-! ## A duty that is deferred -/

def exampleDay (day : Nat) (h : 1 ≤ day ∧ day ≤ 28) : DateTime where
  year := 2026
  month := 1
  day := day
  hour := 0
  minute := 0
  second := 0
  microsecond := 0
  valid := by simp [daysInMonth]; omega

/-- Due on the first, to be tried again on the second. -/
def exampleDuty : Proposed where
  proposalId := "duty"
  revision := "1"
  payload := .dict [(.str "summary", .str "check")]
  dueAt := .aware (exampleDay 1 (by decide))
  nextDue := some (.aware (exampleDay 2 (by decide)))

def exampleStamp : Text := (exampleDay 1 (by decide)).isoformat

def exampleSelecting (token : String) : Store.Selecting :=
  ⟨some "duty", some "1", some 1, some "s", some token, .aware (exampleDay 1 (by decide)), token⟩

def exampleProposed : Store := (machine.run {} [.propose exampleDuty exampleStamp]).getD {}

def exampleSelected : Store :=
  (machine.run exampleProposed [.select (exampleSelecting "t") exampleStamp]).getD {}

/-- Selected and then given up. -/
def exampleFailed : Store :=
  (machine.run exampleSelected [.transition "t" "failed" exampleStamp]).getD {}

def exampleDeferred : Store :=
  (machine.run exampleSelected [.transition "t" "defer" exampleStamp]).getD {}

theorem exampleProposed_first :
    ({} : Store).propose exampleDuty exampleStamp =
      .ok (⟨true, ⟨"duty", "1", 1⟩⟩, exampleProposed) := by
  rfl

/-- A run that only fails the selection. -/
theorem exampleFailed_path :
    machine.Path (fun s a => ¬ Postpones ("duty", "1") s a) exampleProposed exampleFailed := by
  have hselect : machine.next exampleProposed (.select (exampleSelecting "t") exampleStamp) =
      some exampleSelected := rfl
  have hfail : machine.next exampleSelected (.transition "t" "failed" exampleStamp) =
      some exampleFailed := rfl
  refine .step _ (.step _ .refl ?_ hselect) ?_ hfail
  · rintro ⟨_, ⟨_, _, haction, _⟩, _⟩
    cases haction
  · rintro ⟨_, ⟨_, _, haction, _⟩, _⟩
    have htext : "failed" = "defer" := (Action.transition.inj haction).2.1
    exact absurd htext (by decide)

theorem exampleDeferred_postpones :
    Postpones ("duty", "1") exampleSelected (.transition "t" "defer" exampleStamp) := by
  obtain ⟨row, hrow, hall⟩ : ∃ row, exampleSelected.find ("duty", "1") = some row ∧
      (row.selectionToken = some "t" ∧ row.status = .selected ∧ row.nextDue.isSome) ∧
        row.nextDue ≠ some row.dueAt := by
    refine ⟨(exampleSelected.find ("duty", "1")).get (by decide), by simp, ?_⟩
    decide
  exact ⟨row, ⟨"t", exampleStamp, rfl, by decide, hrow, hall.1.1, hall.1.2.1, hall.1.2.2⟩,
    hall.2⟩

theorem propose_again_example :
    exampleFailed.propose exampleDuty exampleStamp =
        .ok (⟨false, ⟨"duty", "1", 1⟩⟩, exampleFailed) ∧
      exampleDeferred.propose exampleDuty exampleStamp =
        .error ⟨.runtimeError, "Drift proposal identity conflict: duty/1"⟩ := by
  have hstart : machine.Reachable {} := ⟨{}, rfl, .refl⟩
  have hagain := propose_again hstart exampleProposed_first
  have hselect : machine.next exampleProposed (.select (exampleSelecting "t") exampleStamp) =
      some exampleSelected := rfl
  have hdefer : machine.next exampleSelected (.transition "t" "defer" exampleStamp) =
      some exampleDeferred := rfl
  exact ⟨hagain.1 exampleFailed exampleFailed_path exampleStamp,
    hagain.2 exampleSelected _ exampleDeferred exampleDeferred (.step _ .refl trivial hselect)
      exampleDeferred_postpones hdefer .refl exampleStamp⟩

/-- After the deferral the call that was accepted first raises. -/
theorem propose_again_conflicts :
    machine.Reachable exampleDeferred ∧
      (({} : Store).propose exampleDuty exampleStamp).map (·.1) =
        .ok ⟨true, ⟨"duty", "1", 1⟩⟩ ∧
      exampleDeferred.propose exampleDuty exampleStamp =
        .error ⟨.runtimeError, "Drift proposal identity conflict: duty/1"⟩ := by
  refine ⟨⟨{}, rfl, ?_⟩, ?_, ?_⟩
  · have hpropose : machine.next {} (.propose exampleDuty exampleStamp) = some exampleProposed := rfl
    have hselect : machine.next exampleProposed (.select (exampleSelecting "t") exampleStamp) =
        some exampleSelected := rfl
    have hdefer : machine.next exampleSelected (.transition "t" "defer" exampleStamp) =
        some exampleDeferred := rfl
    exact .step _ (.step _ (.step _ .refl trivial hpropose) trivial hselect) trivial hdefer
  all_goals decide +kernel

end MonoAgent.Drift
