import Mathlib
import MonoAgent.Handoffs.Store

/-!
# Reservations are idempotent and exclusive

Every place of a call is described by one predicate (`Fits`): what the reads so far
have found, and what the open transaction has made of the table.  Only the committed
table changes under a waiting call, and only by rows that come and go as a whole, so a
call outside a transaction keeps its description (`Fits.observe`), and inside one
nothing changes at all.  The answer of a finished call follows from the description of
its last place.

This is so as long as no refused statement leaves its transaction open (`Served`).  One
that does is in the way of every other connection.
-/

namespace MonoAgent.Handoffs

open Lib

/-! ## Identity -/

/-- The identity of the row but for the time is that of the request. -/
structure SameButTimestamp (h row : Handoff) : Prop where
  dedupeKey : row.dedupeKey = h.dedupeKey
  channel : row.channel = h.channel
  sender : row.sender = h.sender
  chatId : row.chatId = h.chatId
  sessionKey : row.sessionKey = h.sessionKey
  content : row.content = h.content
  mediaJson : row.mediaJson = h.mediaJson
  metadataJson : row.metadataJson = h.metadataJson

/-- The identity of the row is that of the request. -/
structure SameIdentity (h row : Handoff) : Prop extends SameButTimestamp h row where
  timestamp : row.timestamp = h.timestamp

/-- The row is what the request asks for: under its id with its identity, or under its
dedupe key with its identity but for the time. -/
def Answers (h row : Handoff) : Prop :=
  row.handoffId = h.handoffId ∧ SameIdentity h row ∨ h.dedupeKey ≠ none ∧ SameButTimestamp h row

theorem validateExisting_eq_ok (h row : Handoff) (includeTimestamp : Bool) :
    validateExisting h row includeTimestamp = .ok () ↔
      ∀ entry ∈ h.expectedIdentity includeTimestamp, row.column entry.1 = entry.2 := by
  unfold validateExisting
  split
  · next entry hfind =>
      have hmem := List.mem_of_find?_eq_some hfind
      have hne := List.find?_some hfind
      simp only [reduceCtorEq, false_iff, not_forall]
      exact ⟨entry, hmem, by simpa using hne⟩
  · next hnone => simpa using hnone

theorem validateExisting_false (h row : Handoff) :
    validateExisting h row false = .ok () ↔ SameButTimestamp h row := by
  rw [validateExisting_eq_ok]
  simp only [Handoff.expectedIdentity, Bool.false_eq_true, if_false, Handoff.stableIdentity, Handoff.identity,
    Handoff.column]
  constructor
  · intro hall
    simp [List.lookup] at hall
    obtain ⟨h₁, h₂, h₃, h₄, h₅, h₆, h₇, h₈⟩ := hall
    exact ⟨h₁, h₂, h₃, h₄, h₅, h₆, h₇, h₈⟩
  · rintro ⟨h₁, h₂, h₃, h₄, h₅, h₆, h₇, h₈⟩
    simp [List.lookup, h₁, h₂, h₃, h₄, h₅, h₆, h₇, h₈]

theorem validateExisting_true (h row : Handoff) :
    validateExisting h row true = .ok () ↔ SameIdentity h row := by
  rw [validateExisting_eq_ok]
  simp only [Handoff.expectedIdentity, if_true, Handoff.identity, Handoff.column]
  constructor
  · intro hall
    simp [List.lookup] at hall
    obtain ⟨h₁, h₂, h₃, h₄, h₅, h₆, h₉, h₇, h₈⟩ := hall
    exact ⟨⟨h₁, h₂, h₃, h₄, h₅, h₆, h₇, h₈⟩, h₉⟩
  · rintro ⟨⟨h₁, h₂, h₃, h₄, h₅, h₆, h₇, h₈⟩, h₉⟩
    simp [List.lookup, h₁, h₂, h₃, h₄, h₅, h₆, h₇, h₈, h₉]

/-! ## The table -/

/-- At most one row for an id and for a dedupe key. -/
def Distinct (table : List Handoff) : Prop :=
  table.Pairwise fun row row' => ¬ Touches row row'

theorem touches_comm {h row : Handoff} : Touches h row ↔ Touches row h := by
  unfold Touches
  constructor
  · rintro (hid | ⟨hkey, hsame⟩)
    · exact Or.inl hid.symm
    · exact Or.inr ⟨hsame ▸ hkey, hsame.symm⟩
  · rintro (hid | ⟨hkey, hsame⟩)
    · exact Or.inl hid.symm
    · exact Or.inr ⟨hsame ▸ hkey, hsame.symm⟩

theorem Distinct.eq {table : List Handoff} (h : Distinct table) {row row' : Handoff}
    (hrow : row ∈ table) (hrow' : row' ∈ table) (htouch : Touches row row') : row = row' := by
  by_contra hne
  have hsymm : Std.Symm fun row row' : Handoff => ¬ Touches row row' :=
    ⟨fun _ _ hno hyes => hno (touches_comm.mp hyes)⟩
  exact List.Pairwise.forall h hrow hrow' hne htouch

theorem Distinct.append {table : List Handoff} (h : Distinct table) {row : Handoff}
    (hfresh : ∀ r ∈ table, ¬ Touches row r) : Distinct (table ++ [row]) := by
  refine List.pairwise_append.mpr ⟨h, List.pairwise_singleton _ _, fun r hr r' hr' => ?_⟩
  rw [List.mem_singleton.mp hr']
  exact fun htouch => hfresh r hr (touches_comm.mp htouch)

theorem byId_eq_some {table : List Handoff} {id : String} {row : Handoff}
    (h : byId table id = some row) : row ∈ table ∧ row.handoffId = id :=
  ⟨List.mem_of_find?_eq_some h, by simpa using List.find?_some h⟩

theorem byId_eq_none {table : List Handoff} {id : String} (h : byId table id = none)
    {row : Handoff} (hrow : row ∈ table) : row.handoffId ≠ id := by
  simpa using List.find?_eq_none.mp h row hrow

theorem byDedupe_eq_some {table : List Handoff} {key : Option String} {row : Handoff}
    (h : byDedupe table key = some row) : row ∈ table ∧ row.dedupeKey = key :=
  ⟨List.mem_of_find?_eq_some h, by simpa using List.find?_some h⟩

theorem byDedupe_eq_none {table : List Handoff} {key : Option String}
    (h : byDedupe table key = none) {row : Handoff} (hrow : row ∈ table) : row.dedupeKey ≠ key := by
  simpa using List.find?_eq_none.mp h row hrow

theorem Distinct.byId {table : List Handoff} (h : Distinct table) {row : Handoff}
    (hrow : row ∈ table) {id : String} (hid : row.handoffId = id) :
    Handoffs.byId table id = some row := by
  cases hfind : Handoffs.byId table id with
  | none => exact absurd hid (byId_eq_none hfind hrow)
  | some found =>
      obtain ⟨hmem, hfound⟩ := byId_eq_some hfind
      rw [h.eq hmem hrow (Or.inl (hid.trans hfound.symm))]

/-! ## Answers -/

/-- What the answer to a reservation says about the rows it ran beside. -/
structure Reserved (h : Handoff) (result : Result) (throughout during : List Handoff) : Prop where
  named : ∀ id created, result = .reserved id created →
    ∃ row ∈ during, row.handoffId = id ∧ Answers h row
  /-- A call whose reads are not refused reaches the row. -/
  sameId : h.Valid → result ≠ .raised .locked → ∀ row ∈ throughout, row.handoffId = h.handoffId →
    SameIdentity h row → result = .reserved row.handoffId false
  sameKey : h.Valid → result ≠ .raised .locked → ∀ row ∈ throughout, h.dedupeKey ≠ none →
    SameButTimestamp h row → (∀ other ∈ during, other.handoffId ≠ h.handoffId) →
    result = .reserved row.handoffId false
  other : ∀ row ∈ throughout, Touches h row →
    ¬ (row.handoffId = h.handoffId ∧ SameIdentity h row) →
    ¬ (row.handoffId ≠ h.handoffId ∧ SameButTimestamp h row) → ∃ failure, result = .raised failure

/-- The answer of a finished call. -/
def Event.Right (e : Event) : Prop :=
  match e.call with
  | .reserve h => Reserved h e.result e.throughout e.during
  | .complete handoffId => e.result = .completed → ∃ row ∈ e.during, row.handoffId = handoffId

/-- A call that raises is right about every row it does not answer for. -/
theorem Reserved.of_raised {h : Handoff} {failure : Failure} {throughout during : List Handoff}
    (hsame : h.Valid → ∀ row ∈ throughout, row.handoffId = h.handoffId → ¬ SameIdentity h row)
    (hkey : h.Valid → ∀ row ∈ throughout, h.dedupeKey ≠ none → SameButTimestamp h row →
      ∃ other ∈ during, other.handoffId = h.handoffId) :
    Reserved h (.raised failure) throughout during where
  named _ _ heq := by cases heq
  sameId hvalid _ row hrow hid hidentity := absurd hidentity (hsame hvalid row hrow hid)
  sameKey hvalid _ row hrow hne hidentity hnone := by
    obtain ⟨other, hother, hid⟩ := hkey hvalid row hrow hne hidentity
    exact absurd hid (hnone other hother)
  other _ _ _ _ _ := ⟨failure, rfl⟩

/-- A call that is refused has not reached a row. -/
theorem Reserved.of_locked {h : Handoff} {throughout during : List Handoff} :
    Reserved h (.raised .locked) throughout during where
  named _ _ heq := by cases heq
  sameId _ hreached := absurd rfl hreached
  sameKey _ hreached := absurd rfl hreached
  other _ _ _ _ _ := ⟨.locked, rfl⟩

/-- An answer that names a row is right when no other row was there throughout. -/
theorem Reserved.of_untouched {h : Handoff} {id : String} {created : Bool}
    {throughout during : List Handoff}
    (hnamed : ∃ row ∈ during, row.handoffId = id ∧ Answers h row)
    (hfree : ∀ row ∈ throughout, ¬ Touches h row) :
    Reserved h (.reserved id created) throughout during where
  named id' created' heq := by
    cases heq
    exact hnamed
  sameId _ _ row hrow hid _ := absurd (Or.inl hid) (hfree row hrow)
  sameKey _ _ row hrow hne hsame _ := absurd (Or.inr ⟨hne, hsame.dedupeKey⟩) (hfree row hrow)
  other row hrow htouch _ _ := absurd htouch (hfree row hrow)

/-! ## Places -/

/-- What the `INSERT` made of the table. -/
def Written (table : List Handoff) (h : Handoff) (created : Bool) (rows : List Handoff) : Prop :=
  created = true ∧ rows = table ++ [h] ∧ (∀ row ∈ table, ¬ Touches h row) ∨
    created = false ∧ rows = table

/-- What is known at the place of a connection. -/
def Fits (table : List Handoff) (c : Connection) : Prop :=
  match c.place with
  | .idle => c.working = none
  | .readById h => c.working = none ∧ h.Valid
  | .readByDedupe h existingById =>
      c.working = none ∧ h.Valid ∧ h.dedupeKey ≠ none ∧
        (∀ row, existingById = some row → row ∈ c.during ∧ row.handoffId = h.handoffId) ∧
        ∀ row ∈ c.throughout, row.handoffId = h.handoffId → existingById = some row
  | .insert h => c.working = none ∧ h.Valid ∧ ∀ row ∈ c.throughout, ¬ Touches h row
  | .rereadById h created =>
      ∃ rows, c.working = some rows ∧ Written table h created rows ∧
        ∀ row ∈ c.throughout, ¬ Touches h row
  | .rereadByDedupe h created =>
      h.dedupeKey ≠ none ∧ ∃ rows, c.working = some rows ∧ Written table h created rows ∧
        (∀ row ∈ rows, row.handoffId ≠ h.handoffId) ∧ ∀ row ∈ c.throughout, ¬ Touches h row
  | .commitReserve h row created =>
      ∃ rows, c.working = some rows ∧ Written table h created rows ∧ row ∈ rows ∧
        Answers h row ∧ (created = true → row = h) ∧ ∀ row ∈ c.throughout, ¬ Touches h row
  | .delete _ => c.working = none
  | .commitComplete handoffId =>
      c.working = some (table.filter fun row => row.handoffId ≠ handoffId) ∧
        ∃ row ∈ table, row.handoffId = handoffId
  | .rollback call _ =>
      c.working ≠ none ∧ ∀ h, call = .reserve h → ∀ row ∈ c.throughout, ¬ Touches h row

/-- A call outside a transaction keeps its description when the table changes. -/
theorem Fits.observe {table table' : List Handoff} {c : Connection} (h : Fits table c)
    (hquiet : c.working = none) : Fits table' (c.observe table') := by
  have hthroughout {row : Handoff} (hrow : row ∈ (c.observe table').throughout) :
      row ∈ c.throughout := (List.mem_filter.mp hrow).1
  unfold Fits at h ⊢
  have hplace : (c.observe table').place = c.place := rfl
  have hworking : (c.observe table').working = c.working := rfl
  rw [hplace, hworking]
  split at h
  · exact h
  · exact h
  · obtain ⟨hw, hvalid, hkey, hfound, hall⟩ := h
    refine ⟨hw, hvalid, hkey, fun row hrow => ?_, fun row hrow => hall row (hthroughout hrow)⟩
    exact ⟨List.mem_append_left _ (hfound row hrow).1, (hfound row hrow).2⟩
  · exact ⟨h.1, h.2.1, fun row hrow => h.2.2 row (hthroughout hrow)⟩
  · obtain ⟨rows, hw, -⟩ := h
    simp [hquiet] at hw
  · obtain ⟨-, rows, hw, -⟩ := h
    simp [hquiet] at hw
  · obtain ⟨rows, hw, -⟩ := h
    simp [hquiet] at hw
  · exact h
  · simp [hquiet] at h
  · exact absurd hquiet h.1

/-! ## Statements -/

/-- What a finished call does to the table. -/
inductive Change (table : List Handoff) : Call → Result → List Handoff → Prop where
  | insert {h : Handoff} (fresh : ∀ row ∈ table, ¬ Touches h row) :
      Change table (.reserve h) (.reserved h.handoffId true) (table ++ [h])
  | delete {handoffId : String} (present : ∃ row ∈ table, row.handoffId = handoffId) :
      Change table (.complete handoffId) .completed
        (table.filter fun row => row.handoffId ≠ handoffId)
  | found {h : Handoff} {handoffId : String} :
      Change table (.reserve h) (.reserved handoffId false) table
  | raised {call : Call} {failure : Failure} : Change table call (.raised failure) table

/-- The answer is right, and the table becomes `table'`. -/
def Ends (table : List Handoff) (c : Connection) (call : Call) (result : Result)
    (table' : List Handoff) : Prop :=
  Change table call result table' ∧ ∀ i, (Event.mk i call result c.throughout c.during).Right

/-- What a move finds at its connection. -/
def MoveFits (table : List Handoff) (c : Connection) : Move → Prop
  | .goto place => Fits table { c with place }
  | .write place rows =>
      c.working = none ∧ Fits table { c with place, inTransaction := true, working := some rows }
  | .commit call result =>
      ∃ rows, c.working = some rows ∧ Ends table (c.observe rows) call result rows
  | .rollback call result => Ends table c call result table
  | .leave call result begun => c.working = none ∧ begun = false ∧ Ends table c call result table

theorem Ends.raised {table : List Handoff} {c : Connection} {h : Handoff} {failure : Failure}
    (hright : Reserved h (.raised failure) c.throughout c.during) :
    Ends table c (.reserve h) (.raised failure) table :=
  ⟨.raised, fun _ => hright⟩

theorem Ends.found {table : List Handoff} {c : Connection} {h : Handoff} {id : String}
    (hright : Reserved h (.reserved id false) c.throughout c.during) :
    Ends table c (.reserve h) (.reserved id false) table :=
  ⟨.found, fun _ => hright⟩

/-- The reads outside a transaction, each of which saw the rows that were there
throughout, settle the call or show that none of these rows has its id or key. -/
theorem precheck_fits {table : List Handoff} {c : Connection} {h : Handoff}
    {existingById existingByDedupe : Option Handoff} (hworking : c.working = none)
    (hvalid : h.Valid)
    (hid : ∀ row, existingById = some row → row ∈ c.during ∧ row.handoffId = h.handoffId)
    (hidAll : ∀ row ∈ c.throughout, row.handoffId = h.handoffId → existingById = some row)
    (hkey : ∀ row, existingByDedupe = some row →
      row ∈ c.during ∧ h.dedupeKey ≠ none ∧ row.dedupeKey = h.dedupeKey)
    (hkeyAll : ∀ row ∈ c.throughout, h.dedupeKey ≠ none → row.dedupeKey = h.dedupeKey →
      existingByDedupe = some row) :
    MoveFits table c (precheck h existingById existingByDedupe) := by
  cases existingById with
  | some row =>
      obtain ⟨hduring, hrowId⟩ := hid row rfl
      have hsome (r : Handoff) (hr : r ∈ c.throughout) (hrid : r.handoffId = h.handoffId) :
          r = row := (Option.some.inj (hidAll r hr hrid)).symm
      simp only [precheck]
      split
      · next hother =>
          obtain ⟨o, ho, hne⟩ := (Option.any_eq_true ..).mp hother
          refine ⟨hworking, rfl, Ends.raised (Reserved.of_raised (fun _ r hr hrid hsame => ?_)
            fun _ _ _ _ _ => ⟨row, hduring, hrowId⟩)⟩
          obtain ⟨-, hne', -⟩ := hkey o ho
          have hfound := hkeyAll r hr hne' hsame.dedupeKey
          rw [ho] at hfound
          rw [Option.some.inj hfound, hsome r hr hrid] at hne
          simp at hne
      · next hother =>
          split
          · next message hinvalid =>
              refine ⟨hworking, rfl, Ends.raised (Reserved.of_raised (fun _ r hr hrid hsame => ?_)
                fun _ _ _ _ _ => ⟨row, hduring, hrowId⟩)⟩
              rw [hsome r hr hrid] at hsame
              rw [(validateExisting_true h row).mpr hsame] at hinvalid
              cases hinvalid
          · next hok =>
              have hsame := (validateExisting_true h row).mp hok
              refine ⟨hworking, rfl, Ends.found ?_⟩
              constructor
              · intro id created heq
                cases heq
                exact ⟨row, hduring, rfl, Or.inl ⟨hrowId, hsame⟩⟩
              · intro _ _ r hr hrid _
                rw [hsome r hr hrid]
              · intro _ _ r hr _ _ hnone
                exact absurd hrowId (hnone row hduring)
              · rintro r hr (hrid | ⟨hne, hrkey⟩) hnot -
                · rw [hsome r hr hrid] at hnot
                  exact absurd ⟨hrowId, hsame⟩ hnot
                · have hfound := hkeyAll r hr hne hrkey
                  have hrid : r.handoffId = h.handoffId := by
                    by_contra hdiffer
                    exact hother ((Option.any_eq_true ..).mpr
                      ⟨r, hfound, by simpa [hrowId] using Ne.symm hdiffer⟩)
                  rw [hsome r hr hrid] at hnot
                  exact absurd ⟨hrowId, hsame⟩ hnot
  | none =>
      have hnoId (r : Handoff) (hr : r ∈ c.throughout) : r.handoffId ≠ h.handoffId := by
        intro hrid
        cases hidAll r hr hrid
      cases existingByDedupe with
      | some row =>
          obtain ⟨hduring, hne, hrowKey⟩ := hkey row rfl
          have hsome (r : Handoff) (hr : r ∈ c.throughout) (hrkey : r.dedupeKey = h.dedupeKey) :
              r = row := (Option.some.inj (hkeyAll r hr hne hrkey)).symm
          simp only [precheck]
          split
          · next message hinvalid =>
              refine ⟨hworking, rfl, Ends.raised (Reserved.of_raised
                (fun _ r hr hrid _ => hnoId r hr hrid) fun _ r hr _ hsame => ?_)⟩
              rw [hsome r hr hsame.dedupeKey] at hsame
              rw [(validateExisting_false h row).mpr hsame] at hinvalid
              cases hinvalid
          · next hok =>
              have hsame := (validateExisting_false h row).mp hok
              refine ⟨hworking, rfl, Ends.found ?_⟩
              constructor
              · intro id created heq
                cases heq
                exact ⟨row, hduring, rfl, Or.inr ⟨hne, hsame⟩⟩
              · intro _ _ r hr hrid _
                exact absurd hrid (hnoId r hr)
              · intro _ _ r hr _ hrsame _
                rw [hsome r hr hrsame.dedupeKey]
              · rintro r hr (hrid | ⟨-, hrkey⟩) - hnot
                · exact absurd hrid (hnoId r hr)
                · have hrow := hsome r hr hrkey
                  exact absurd ⟨hnoId r hr, hrow ▸ hsame⟩ hnot
      | none =>
          refine ⟨hworking, hvalid, ?_⟩
          rintro r hr (hrid | ⟨hne, hrkey⟩)
          · exact hnoId r hr hrid
          · cases hkeyAll r hr hne hrkey

/-- The row that stands under the id or the key of a request which was inserted is that request. -/
theorem Written.own {table rows : List Handoff} {h row : Handoff} {created : Bool}
    (hwritten : Written table h created rows) (hrow : row ∈ rows) (htouch : Touches h row)
    (hcreated : created = true) : row = h := by
  rcases hwritten with ⟨-, rfl, hfresh⟩ | ⟨hno, -⟩
  · rcases List.mem_append.mp hrow with hold | hnew
    · exact absurd htouch (hfresh row hold)
    · exact List.mem_singleton.mp hnew
  · rw [hno] at hcreated
    cases hcreated

/-- The row read back inside the transaction leads to the commit or to the rollback. -/
theorem settle_fits {table rows : List Handoff} {c : Connection} {h row : Handoff} {created : Bool}
    (hworking : c.working = some rows) (hwritten : Written table h created rows)
    (hrow : row ∈ rows) (htouch : Touches h row)
    (hfree : ∀ r ∈ c.throughout, ¬ Touches h r) : MoveFits table c (settle h row created) := by
  unfold settle
  split
  · refine ⟨by simp [hworking], fun h' heq => ?_⟩
    cases heq
    exact hfree
  · next hok =>
      refine ⟨rows, hworking, hwritten, hrow, ?_, hwritten.own hrow htouch, hfree⟩
      by_cases hid : row.handoffId = h.handoffId
      · rw [decide_eq_true hid] at hok
        exact Or.inl ⟨hid, (validateExisting_true h row).mp hok⟩
      · rw [decide_eq_false hid] at hok
        exact Or.inr ⟨(htouch.resolve_left hid).1, (validateExisting_false h row).mp hok⟩

theorem disappeared_fits {table rows : List Handoff} {c : Connection} {h : Handoff}
    (hworking : c.working = some rows) (hfree : ∀ r ∈ c.throughout, ¬ Touches h r) :
    MoveFits table c (disappeared h) := by
  refine ⟨by simp [hworking], fun h' heq => ?_⟩
  cases heq
  exact hfree

/-- The rows that were there throughout are in the table, and the table is among the
rows that were there at some time. -/
structure Bracketed (table : List Handoff) (c : Connection) : Prop where
  throughout : ∀ row ∈ c.throughout, row ∈ table
  during : ∀ row ∈ table, row ∈ c.during

/-- What the read by the id has found. -/
theorem Bracketed.byId {table : List Handoff} {c : Connection} (h : Bracketed table c)
    (hdistinct : Distinct table) (id : String) :
    (∀ row, byId table id = some row → row ∈ c.during ∧ row.handoffId = id) ∧
      ∀ row ∈ c.throughout, row.handoffId = id → byId table id = some row := by
  constructor
  · intro row hrow
    obtain ⟨hmem, hid⟩ := byId_eq_some hrow
    exact ⟨h.during row hmem, hid⟩
  · intro row hrow hid
    exact hdistinct.byId (h.throughout row hrow) hid

/-- What the read by the dedupe key has found. -/
theorem Bracketed.byDedupe {table : List Handoff} {c : Connection} (h : Bracketed table c)
    (hdistinct : Distinct table) {key : Option String} (hkey : key ≠ none) :
    (∀ row, byDedupe table key = some row → row ∈ c.during ∧ row.dedupeKey = key) ∧
      ∀ row ∈ c.throughout, row.dedupeKey = key → byDedupe table key = some row := by
  constructor
  · intro row hrow
    obtain ⟨hmem, hsame⟩ := byDedupe_eq_some hrow
    exact ⟨h.during row hmem, hsame⟩
  · intro row hrow hrowKey
    have hmem := h.throughout row hrow
    cases hby : Handoffs.byDedupe table key with
    | none => exact absurd hrowKey (byDedupe_eq_none hby hmem)
    | some found =>
        obtain ⟨hfoundMem, hfoundKey⟩ := byDedupe_eq_some hby
        have htouch : Touches row found := Or.inr ⟨hrowKey ▸ hkey, hfoundKey.trans hrowKey.symm⟩
        rw [hdistinct.eq hmem hfoundMem htouch]

theorem insert_fits {table : List Handoff} {c : Connection} {free alone : Bool} {h : Handoff} {m : Move}
    (hworking : c.working = none) (hfresh : ∀ row ∈ c.throughout, ¬ Touches h row)
    (hm : statement table free alone (.insert h) = some m) : MoveFits table c m := by
  rw [statement] at hm
  split at hm
  · split at hm
    · cases hm
      exact ⟨hworking, table, rfl, Or.inr ⟨rfl, rfl⟩, hfresh⟩
    · next hnone =>
        cases hm
        refine ⟨hworking, table ++ [h], rfl, Or.inl ⟨rfl, rfl, fun row hrow htouch => ?_⟩, hfresh⟩
        exact hnone ⟨row, hrow, htouch⟩
  · cases hm

theorem delete_fits {table : List Handoff} {c : Connection} {free alone : Bool} {id : String} {m : Move}
    (hworking : c.working = none) (hm : statement table free alone (.delete id) = some m) :
    MoveFits table c m := by
  rw [statement] at hm
  split at hm
  · dsimp only at hm
    split at hm
    · next hone =>
        cases hm
        refine ⟨hworking, rfl, ?_⟩
        by_contra hnone
        have hall : table.filter (fun row => row.handoffId ≠ id) = table := by
          refine List.filter_eq_self.mpr fun row hrow => ?_
          simpa using fun heq => hnone ⟨row, hrow, heq⟩
        rw [hall] at hone
        omega
    · cases hm
      refine ⟨hworking, by simp, fun h heq => ?_⟩
      cases heq
  · cases hm

/-- The row that was inserted, or the one it met, is read back by its id. -/
theorem rereadById_fits {table rows : List Handoff} {c : Connection} {free alone created : Bool} {h : Handoff}
    {m : Move} (hworking : c.working = some rows) (hwritten : Written table h created rows)
    (hfresh : ∀ row ∈ c.throughout, ¬ Touches h row)
    (hm : statement rows free alone (.rereadById h created) = some m) : MoveFits table c m := by
  rw [statement] at hm
  cases hby : byId rows h.handoffId with
  | some row =>
      obtain ⟨hmem, hid⟩ := byId_eq_some hby
      simp only [hby, Option.some.injEq] at hm
      subst hm
      exact settle_fits hworking hwritten hmem (Or.inl hid) hfresh
  | none =>
      cases hkey : h.dedupeKey with
      | some key =>
          simp only [hby, hkey, Option.some.injEq] at hm
          subst hm
          exact ⟨by simp [hkey], rows, hworking, hwritten, fun row hrow => byId_eq_none hby hrow, hfresh⟩
      | none =>
          simp only [hby, hkey, Option.some.injEq] at hm
          subst hm
          exact disappeared_fits hworking hfresh

theorem rereadByDedupe_fits {table rows : List Handoff} {c : Connection} {free alone created : Bool}
    {h : Handoff} {m : Move} (hkey : h.dedupeKey ≠ none) (hworking : c.working = some rows)
    (hwritten : Written table h created rows) (hfresh : ∀ row ∈ c.throughout, ¬ Touches h row)
    (hm : statement rows free alone (.rereadByDedupe h created) = some m) : MoveFits table c m := by
  rw [statement] at hm
  split at hm
  · next row hby =>
      obtain ⟨hmem, hsame⟩ := byDedupe_eq_some hby
      cases hm
      exact settle_fits hworking hwritten hmem (Or.inr ⟨hkey, hsame⟩) hfresh
  · cases hm
    exact disappeared_fits hworking hfresh

theorem statement_fits {table : List Handoff} {c : Connection} {free alone : Bool} {m : Move}
    (hdistinct : Distinct table) (hbracket : Bracketed table c) (hfits : Fits table c)
    (hm : statement (c.working.getD table) free alone c.place = some m) : MoveFits table c m := by
  unfold Fits at hfits
  cases hplace : c.place with
  | idle =>
      rw [hplace] at hm
      cases hm
  | readById h =>
      rw [hplace] at hm hfits
      obtain ⟨hworking, hvalid⟩ := hfits
      obtain ⟨hfound, hall⟩ := hbracket.byId hdistinct h.handoffId
      rw [hworking] at hm
      cases hkey : h.dedupeKey with
      | some key =>
          simp only [statement, hkey, Option.getD_none, Option.some.injEq] at hm
          subst hm
          exact ⟨hworking, hvalid, by simp [hkey], hfound, hall⟩
      | none =>
          simp only [statement, hkey, Option.getD_none, Option.some.injEq] at hm
          subst hm
          exact precheck_fits hworking hvalid hfound hall (fun row hrow => by cases hrow)
            (fun row _ hne => absurd hkey hne)
  | readByDedupe h existingById =>
      rw [hplace] at hm hfits
      obtain ⟨hworking, hvalid, hkey, hfound, hall⟩ := hfits
      obtain ⟨hbyKey, hallKey⟩ := hbracket.byDedupe hdistinct hkey
      rw [hworking] at hm
      simp only [statement, Option.getD_none, Option.some.injEq] at hm
      subst hm
      exact precheck_fits hworking hvalid hfound hall
        (fun row hrow => ⟨(hbyKey row hrow).1, hkey, (hbyKey row hrow).2⟩)
        (fun row hrow _ => hallKey row hrow)
  | insert h =>
      rw [hplace] at hm hfits
      rw [hfits.1] at hm
      exact insert_fits hfits.1 hfits.2.2 hm
  | rereadById h created =>
      rw [hplace] at hm hfits
      obtain ⟨rows, hworking, hwritten, hfresh⟩ := hfits
      rw [hworking] at hm
      exact rereadById_fits hworking hwritten hfresh hm
  | rereadByDedupe h created =>
      rw [hplace] at hm hfits
      obtain ⟨hkey, rows, hworking, hwritten, -, hfresh⟩ := hfits
      rw [hworking] at hm
      exact rereadByDedupe_fits hkey hworking hwritten hfresh hm
  | commitReserve h row created =>
      rw [hplace] at hm hfits
      obtain ⟨rows, hworking, hwritten, hrow, hanswers, hown, huntouched⟩ := hfits
      rw [statement] at hm
      split at hm
      case isFalse => cases hm
      cases hm
      refine ⟨rows, hworking, ?_, fun i => ?_⟩
      · rcases hwritten with ⟨hcreated, rfl, hfresh⟩ | ⟨hcreated, rfl⟩
        · rw [hown hcreated, hcreated]
          exact .insert hfresh
        · rw [hcreated]
          exact .found
      · refine Reserved.of_untouched ⟨row, List.mem_append_right _ hrow, rfl, hanswers⟩ ?_
        exact fun r hr => huntouched r (List.mem_filter.mp hr).1
  | delete id =>
      rw [hplace] at hm hfits
      have hworking : c.working = none := hfits
      rw [hworking] at hm
      exact delete_fits hworking hm
  | commitComplete id =>
      rw [hplace] at hm hfits
      obtain ⟨hworking, hpresent⟩ := hfits
      rw [statement] at hm
      split at hm
      case isFalse => cases hm
      cases hm
      refine ⟨_, hworking, .delete hpresent, fun i _ => ?_⟩
      obtain ⟨row, hrow, hid⟩ := hpresent
      exact ⟨row, List.mem_append_left _ (hbracket.during row hrow), hid⟩
  | rollback call message =>
      rw [hplace] at hm hfits
      obtain ⟨-, huntouched⟩ := hfits
      cases hm
      refine ⟨.raised, fun i => ?_⟩
      cases call with
      | complete id => exact fun heq => by cases heq
      | reserve h =>
          refine Reserved.of_raised (fun _ r hr hid _ => ?_) fun _ r hr hne hsame => ?_
          · exact huntouched h rfl r hr (Or.inl hid)
          · exact absurd (Or.inr ⟨hne, hsame.dedupeKey⟩) (huntouched h rfl r hr)

theorem precheck_quiet (h : Handoff) (existingById existingByDedupe : Option Handoff) (place : Place)
    (rows : List Handoff) : precheck h existingById existingByDedupe ≠ .write place rows := by
  unfold precheck
  intro heq
  split at heq
  · split at heq
    · cases heq
    · split at heq <;> cases heq
  · split at heq <;> cases heq
  · cases heq

theorem settle_quiet (h row : Handoff) (created : Bool) (place : Place) (rows : List Handoff) :
    settle h row created ≠ .write place rows := by
  unfold settle
  intro heq
  split at heq <;> cases heq

/-- A statement that writes has found no other connection that has written. -/
theorem statement_free {view rows : List Handoff} {free alone : Bool} {place next : Place}
    (h : statement view free alone place = some (.write next rows)) : free = true := by
  cases place with
  | idle => cases h
  | readById _ =>
      rw [statement] at h
      split at h
      · cases h
      · exact absurd (Option.some.inj h) (precheck_quiet _ _ _ _ _)
  | readByDedupe _ _ => exact absurd (Option.some.inj h) (precheck_quiet _ _ _ _ _)
  | insert _ =>
      rw [statement] at h
      split at h
      · assumption
      · cases h
  | rereadById _ _ =>
      rw [statement] at h
      split at h
      · exact absurd (Option.some.inj h) (settle_quiet _ _ _ _ _)
      · cases h
      · cases h
  | rereadByDedupe _ _ =>
      rw [statement] at h
      split at h
      · exact absurd (Option.some.inj h) (settle_quiet _ _ _ _ _)
      · cases h
  | commitReserve _ _ _ =>
      rw [statement] at h
      split at h <;> cases h
  | delete _ =>
      rw [statement] at h
      split at h
      · assumption
      · cases h
  | commitComplete _ =>
      rw [statement] at h
      split at h <;> cases h
  | rollback _ _ => cases h

/-- A refused read, or commit of a reservation. -/
theorem refused_fits {table : List Handoff} {c : Connection} {m : Move} (hfits : Fits table c)
    (hserved : (∀ h, c.place ≠ .insert h) ∧ (∀ id, c.place ≠ .delete id) ∧ ∀ id, c.place ≠ .commitComplete id)
    (hm : refused c.place = some m) :
    MoveFits table c m ∧ ∀ place rows, m ≠ .write place rows := by
  unfold Fits at hfits
  cases hplace : c.place with
  | readById h =>
      rw [hplace] at hm hfits
      cases hm
      exact ⟨⟨hfits.1, rfl, Ends.raised .of_locked⟩, fun _ _ heq => by cases heq⟩
  | readByDedupe h existingById =>
      rw [hplace] at hm hfits
      cases hm
      exact ⟨⟨hfits.1, rfl, Ends.raised .of_locked⟩, fun _ _ heq => by cases heq⟩
  | insert h => exact absurd hplace (hserved.1 h)
  | commitReserve h row created =>
      rw [hplace] at hm hfits
      obtain ⟨rows, hworking, -, -, -, -, huntouched⟩ := hfits
      cases hm
      refine ⟨⟨by simp [hworking], fun h' heq => ?_⟩, fun _ _ heq => by cases heq⟩
      cases heq
      exact huntouched
  | delete id => exact absurd hplace (hserved.2.1 id)
  | commitComplete id => exact absurd hplace (hserved.2.2 id)
  | idle => rw [hplace] at hm; cases hm
  | rereadById h created => rw [hplace] at hm; cases hm
  | rereadByDedupe h created => rw [hplace] at hm; cases hm
  | rollback call failure => rw [hplace] at hm; cases hm

/-! ## Runs -/

/-- One reservation reported that it created the row, and since then none reported so
again and none completed it. -/
def CreatedOnce (log : List Event) (row : Handoff) : Prop :=
  ∃ before e after, log = before ++ e :: after ∧ e.call = .reserve row ∧
    e.result = .reserved row.handoffId true ∧
    ∀ e' ∈ after, e'.result ≠ .reserved row.handoffId true ∧
      ¬ (e'.call = .complete row.handoffId ∧ e'.result = .completed)

theorem CreatedOnce.append {log : List Event} {row : Handoff} (h : CreatedOnce log row) {e : Event}
    (hcreated : e.result ≠ .reserved row.handoffId true)
    (hcompleted : ¬ (e.call = .complete row.handoffId ∧ e.result = .completed)) :
    CreatedOnce (log ++ [e]) row := by
  obtain ⟨before, e₀, after, rfl, hcall, hresult, hafter⟩ := h
  refine ⟨before, e₀, after ++ [e], by simp, hcall, hresult, fun e' he' => ?_⟩
  rcases List.mem_append.mp he' with hold | hnew
  · exact hafter e' hold
  · rw [List.mem_singleton.mp hnew]
    exact ⟨hcreated, hcompleted⟩

/-- What holds between two statements. -/
structure Inv (s : State) : Prop where
  distinct : Distinct s.table
  fits : ∀ i, Fits s.table (s.connections i)
  bracketed : ∀ i, (s.connections i).place ≠ .idle → Bracketed s.table (s.connections i)
  writing : ∀ i, (s.connections i).working ≠ none ↔ s.writer = some i
  begun : ∀ i, (s.connections i).inTransaction = (s.connections i).working.isSome
  unread : s.readers = []
  right : ∀ e ∈ s.log, e.Right
  created : ∀ row ∈ s.table, CreatedOnce s.log row

theorem Inv.idle {s : State} (h : Inv s) {i : ℕ} (hidle : (s.connections i).place = .idle) :
    (s.connections i).working = none := by
  have hfits := h.fits i
  unfold Fits at hfits
  rw [hidle] at hfits
  exact hfits

/-- The rows of the new table were created once, and it is distinct again. -/
theorem Change.keeps {table table' : List Handoff} {call : Call} {result : Result}
    (hchange : Change table call result table') (hdistinct : Distinct table) {log : List Event}
    (hcreated : ∀ row ∈ table, CreatedOnce log row) {e : Event} (hcall : e.call = call)
    (hresult : e.result = result) :
    Distinct table' ∧ ∀ row ∈ table', CreatedOnce (log ++ [e]) row := by
  cases hchange with
  | @insert h hfresh =>
      refine ⟨hdistinct.append hfresh, fun row hrow => ?_⟩
      rcases List.mem_append.mp hrow with hold | hnew
      · refine (hcreated row hold).append (fun heq => ?_) fun heq => ?_
        · rw [hresult] at heq
          injection heq with hid
          exact hfresh row hold (Or.inl hid.symm)
        · rw [hcall] at heq
          cases heq.1
      · rw [List.mem_singleton.mp hnew]
        exact ⟨log, e, [], rfl, hcall, hresult, fun _ h => absurd h List.not_mem_nil⟩
  | @delete id hpresent =>
      refine ⟨hdistinct.filter _, fun row hrow => ?_⟩
      obtain ⟨hmem, hne⟩ := List.mem_filter.mp hrow
      refine (hcreated row hmem).append (by simp [hresult]) fun heq => ?_
      rw [hcall] at heq
      injection heq.1 with hid
      simp [hid] at hne
  | @found h id =>
      refine ⟨hdistinct, fun row hrow => (hcreated row hrow).append (by simp [hresult]) ?_⟩
      simp [hcall]
  | raised =>
      refine ⟨hdistinct, fun row hrow => (hcreated row hrow).append (by simp [hresult]) ?_⟩
      simp [hresult]

/-- A step of one connection in which the committed table stays. -/
theorem Inv.set {s : State} (h : Inv s) {i : ℕ} {c : Connection} (hfits : Fits s.table c)
    (hbracket : c.place ≠ .idle → Bracketed s.table c) (hbegun : c.inTransaction = c.working.isSome)
    {writer : Option ℕ}
    (hwriting : ∀ j, (Function.update s.connections i c j).working ≠ none ↔ writer = some j) :
    Inv { s.set i c with writer } where
  distinct := h.distinct
  fits j := by
    rcases eq_or_ne j i with rfl | hne
    · simpa [State.set] using hfits
    · simpa [State.set, Function.update_of_ne hne] using h.fits j
  bracketed j := by
    rcases eq_or_ne j i with rfl | hne
    · simpa [State.set] using hbracket
    · simpa [State.set, Function.update_of_ne hne] using h.bracketed j
  writing := hwriting
  begun j := by
    rcases eq_or_ne j i with rfl | hne
    · simpa [State.set] using hbegun
    · simpa [State.set, Function.update_of_ne hne] using h.begun j
  unread := h.unread
  right := h.right
  created := h.created

/-- The end of a call that leaves the table as it is. -/
theorem Inv.finish {s : State} (h : Inv s) {i : ℕ} {call : Call} {result : Result}
    (hends : Ends s.table (s.connections i) call result s.table) :
    Inv (s.finish i call result) := by
  obtain ⟨hdistinct, hcreated⟩ := hends.1.keeps h.distinct h.created
    (e := ⟨i, call, result, (s.connections i).throughout, (s.connections i).during⟩) rfl rfl
  constructor
  · exact hdistinct
  · intro j
    rcases eq_or_ne j i with rfl | hne
    · simp [State.finish, Fits]
    · simpa [State.finish, Function.update_of_ne hne] using h.fits j
  · intro j
    rcases eq_or_ne j i with rfl | hne
    · simp [State.finish]
    · simpa [State.finish, Function.update_of_ne hne] using h.bracketed j
  · intro j
    have hj := h.writing j
    rcases eq_or_ne j i with rfl | hne
    · simp [State.finish]
    · simp only [State.finish, Function.update_of_ne hne]
      rw [hj]
      split_ifs with hi
      · simp [hi, Ne.symm hne]
      · rfl
  · intro j
    rcases eq_or_ne j i with rfl | hne
    · simp [State.finish]
    · simpa [State.finish, Function.update_of_ne hne] using h.begun j
  · simp [State.finish, h.unread]
  · intro e he
    rcases List.mem_append.mp he with hold | hnew
    · exact h.right e hold
    · rw [List.mem_singleton.mp hnew]
      exact hends.2 i
  · exact hcreated

/-- A commit: the other connections are outside a transaction and see the new table. -/
theorem Inv.commit {s : State} (h : Inv s) {i : ℕ} {call : Call} {result : Result}
    {rows : List Handoff} (hworking : (s.connections i).working = some rows)
    (hends : Ends s.table ((s.connections i).observe rows) call result rows) :
    Inv ((s.publish rows).finish i call result) := by
  have hwriter : s.writer = some i := (h.writing i).mp (by simp [hworking])
  have hquiet {j : ℕ} (hne : j ≠ i) : (s.connections j).working = none := by
    by_contra hj
    have hj' := (h.writing j).mp hj
    rw [hwriter] at hj'
    exact hne (Option.some.inj hj').symm
  obtain ⟨hdistinct, hcreated⟩ := hends.1.keeps h.distinct h.created
    (e := ⟨i, call, result, ((s.connections i).observe rows).throughout,
      ((s.connections i).observe rows).during⟩) rfl rfl
  constructor
  · exact hdistinct
  · intro j
    rcases eq_or_ne j i with rfl | hne
    · simp [State.finish, Fits]
    · simpa [State.finish, State.publish, Function.update_of_ne hne] using
        ((h.fits j).observe (hquiet hne) : Fits rows ((s.connections j).observe rows))
  · intro j
    rcases eq_or_ne j i with rfl | hne
    · simp [State.finish]
    · intro _
      have hsame : ((s.publish rows).finish i call result).connections j =
          (s.connections j).observe rows := by
        simp [State.finish, State.publish, Function.update_of_ne hne]
      rw [hsame]
      refine ⟨fun row hrow => ?_, fun row hrow => List.mem_append_right _ hrow⟩
      exact of_decide_eq_true (List.mem_filter.mp hrow).2
  · intro j
    have hcleared : ((s.publish rows).finish i call result).writer = none := by
      simp [State.finish, State.publish, hwriter]
    rw [hcleared]
    rcases eq_or_ne j i with rfl | hne
    · simp [State.finish]
    · have hj := hquiet hne
      simp [State.finish, State.publish, Function.update_of_ne hne, Connection.observe, hj]
  · intro j
    rcases eq_or_ne j i with rfl | hne
    · simp [State.finish]
    · simpa [State.finish, State.publish, Function.update_of_ne hne, Connection.observe] using h.begun j
  · simp [State.finish, State.publish, h.unread]
  · intro e he
    rcases List.mem_append.mp he with hold | hnew
    · exact h.right e hold
    · rw [List.mem_singleton.mp hnew]
      exact hends.2 i
  · exact hcreated

/-- Without a transaction a call ends as if it had ended one. -/
theorem Inv.quit {s : State} (h : Inv s) {i : ℕ} (hworking : (s.connections i).working = none) (call : Call)
    (result : Result) : s.quit i call result false = s.finish i call result := by
  have hbegun : (s.connections i).inTransaction = false := by
    rw [h.begun i, hworking]
    rfl
  have hwriter : s.writer ≠ some i := fun heq => (h.writing i).mpr heq hworking
  simp [State.quit, State.finish, hbegun, hworking, hwriter, h.unread]

/-- No transaction was left open in which a call reads. -/
theorem Inv.lock {s : State} (h : Inv s) (i : ℕ) : s.lock i = s := by
  refine if_neg fun hlock => ?_
  obtain ⟨htransaction, hreads, -⟩ := hlock
  have hfits := h.fits i
  rw [h.begun i] at htransaction
  unfold Fits at hfits
  cases hplace : (s.connections i).place with
  | readById _ =>
      rw [hplace] at hfits
      rw [hfits.1] at htransaction
      cases htransaction
  | readByDedupe _ _ =>
      rw [hplace] at hfits
      rw [hfits.1] at htransaction
      cases htransaction
  | _ =>
      rw [hplace] at hreads
      cases hreads

theorem Inv.move {s : State} (h : Inv s) {i : ℕ} (hbracket : Bracketed s.table (s.connections i))
    {m : Move} (hm : MoveFits s.table (s.connections i) m)
    (hfree : ∀ place rows, m = .write place rows → s.free i = true) : Inv (s.move i m) := by
  cases m with
  | goto place =>
      refine h.set hm (fun _ => ⟨hbracket.throughout, hbracket.during⟩) (h.begun i) fun j => ?_
      rw [← h.writing j]
      rcases eq_or_ne j i with rfl | hne
      · simp
      · rw [Function.update_of_ne hne]
  | write place rows =>
      have hfree := hfree place rows rfl
      refine h.set hm.2 (fun _ => ⟨hbracket.throughout, hbracket.during⟩) rfl fun j => ?_
      rcases eq_or_ne j i with rfl | hne
      · simp
      · rw [Function.update_of_ne hne, h.writing j]
        constructor
        · intro hj
          simp [State.free, hj, hne] at hfree
        · intro hi
          exact absurd (Option.some.inj hi).symm hne
  | commit call result =>
      obtain ⟨rows, hworking, hends⟩ := hm
      have hmove : s.move i (.commit call result) = (s.publish rows).finish i call result := by
        simp [State.move, hworking]
      rw [hmove]
      exact h.commit hworking hends
  | rollback call result => exact h.finish hm
  | leave call result begun =>
      obtain ⟨hworking, rfl, hends⟩ := hm
      have hmove : s.move i (.leave call result false) = s.finish i call result := h.quit hworking call result
      rw [hmove]
      exact h.finish hends

theorem Inv.start : Inv { table := [], connections := fun _ => {} } where
  distinct := List.Pairwise.nil
  fits _ := rfl
  bracketed _ hplace := absurd rfl hplace
  writing _ := by simp
  begun _ := rfl
  unread := rfl
  right _ he := absurd he List.not_mem_nil
  created _ hrow := absurd hrow List.not_mem_nil

/-- The state in which a call has begun. -/
theorem Inv.entered {s : State} (h : Inv s) {i : ℕ} (hidle : (s.connections i).place = .idle) :
    Inv (s.set i { s.connections i with throughout := s.table, during := s.table }) := by
  have hworking := h.idle hidle
  have hfits : Fits s.table { s.connections i with throughout := s.table, during := s.table } := by
    simp [Fits, hidle, hworking]
  have hset := h.set (i := i) hfits (fun hplace => absurd hidle hplace) (h.begun i) fun j => by
    rw [← h.writing j]
    rcases eq_or_ne j i with rfl | hne
    · simp
    · rw [Function.update_of_ne hne]
  exact hset

theorem enter_fits {table : List Handoff} {c : Connection} (hworking : c.working = none)
    (call : Call) : MoveFits table c (enter call) := by
  cases call with
  | reserve h =>
      by_cases hvalid : h.Valid
      · rw [enter, if_pos hvalid]
        exact ⟨hworking, hvalid⟩
      · rw [enter, if_neg hvalid]
        exact ⟨hworking, rfl, Ends.raised (Reserved.of_raised (fun hyes => absurd hyes hvalid)
          fun hyes => absurd hyes hvalid)⟩
  | complete id =>
      by_cases hempty : id = ""
      · rw [enter, if_pos hempty]
        exact ⟨hworking, rfl, .raised, fun i heq => by cases heq⟩
      · rw [enter, if_neg hempty]
        exact hworking

theorem enter_ne_write (call : Call) (place : Place) (rows : List Handoff) :
    enter call ≠ .write place rows := by
  cases call with
  | reserve h => by_cases hvalid : h.Valid <;> simp [enter, hvalid]
  | complete id => by_cases hempty : id = "" <;> simp [enter, hempty]

/-- A step keeps table and log, or ends one call as the call's answer says. -/
def Effect (s t : State) : Prop :=
  t.table = s.table ∧ t.log = s.log ∨
    ∃ e, t.log = s.log ++ [e] ∧ Change s.table e.call e.result t.table ∧
      (t.connections e.connection).place = .idle ∧ (t.connections e.connection).inTransaction = false

theorem effect_move {s : State} (h : Inv s) {i : ℕ} {m : Move} (hm : MoveFits s.table (s.connections i) m) :
    Effect s (s.move i m) := by
  cases m with
  | goto place => exact Or.inl ⟨rfl, rfl⟩
  | write place rows => exact Or.inl ⟨rfl, rfl⟩
  | commit call result =>
      obtain ⟨rows, hworking, hends⟩ := hm
      refine Or.inr ⟨_, rfl, ?_, by simp [State.move, State.finish],
        by simp [State.move, State.finish]⟩
      simpa [State.move, State.finish, State.publish, hworking] using hends.1
  | rollback call result =>
      exact Or.inr ⟨_, rfl, hm.1, by simp [State.move, State.finish],
        by simp [State.move, State.finish]⟩
  | leave call result begun =>
      obtain ⟨hworking, rfl, hends⟩ := hm
      have hmove : s.move i (.leave call result false) = s.finish i call result := h.quit hworking call result
      rw [hmove]
      exact Or.inr ⟨_, rfl, hends.1, by simp [State.finish], by simp [State.finish]⟩

theorem served_refuse {s : State} {i : ℕ} (h : Served s (.refuse i)) :
    (∀ h, (s.connections i).place ≠ .insert h) ∧ (∀ id, (s.connections i).place ≠ .delete id) ∧
      ∀ id, (s.connections i).place ≠ .commitComplete id := by
  rw [Served] at h
  refine ⟨fun _ heq => ?_, fun _ heq => ?_, fun _ heq => ?_⟩
  all_goals
    rw [heq] at h
    exact h

theorem Inv.next {s t : State} (h : Inv s) {a : Action} (hserved : Served s a) (hn : s.next a = some t) :
    Inv t ∧ Effect s t := by
  cases a with
  | call i call =>
      simp only [State.next] at hn
      split at hn
      · next hidle =>
          cases hn
          have hentered := h.entered hidle
          have hworking : ((s.set i { s.connections i with
              throughout := s.table, during := s.table }).connections i).working = none := by
            simpa [State.set] using h.idle hidle
          have hfits : MoveFits s.table _ (enter call) := enter_fits hworking call
          have hconnection : (s.set i { s.connections i with
              throughout := s.table, during := s.table }).connections i =
              { s.connections i with throughout := s.table, during := s.table } := by
            simp [State.set]
          refine ⟨hentered.move ?_ hfits fun place rows heq => ?_, effect_move hentered hfits⟩
          · rw [hconnection]
            exact ⟨fun _ hrow => hrow, fun _ hrow => hrow⟩
          · exact absurd heq (enter_ne_write call place rows)
      · cases hn
  | run i =>
      obtain ⟨m, hm, rfl⟩ := Option.map_eq_some_iff.mp hn
      have hplace : (s.connections i).place ≠ .idle := by
        intro hidle
        rw [hidle] at hm
        cases hm
      have hbracket := h.bracketed i hplace
      have hfits := statement_fits h.distinct hbracket (h.fits i) hm
      rw [h.lock i]
      refine ⟨h.move hbracket hfits fun place rows heq => ?_, effect_move h hfits⟩
      exact statement_free (heq ▸ hm)
  | refuse i =>
      obtain ⟨m, hm, rfl⟩ := Option.map_eq_some_iff.mp hn
      have hplace : (s.connections i).place ≠ .idle := by
        intro hidle
        rw [hidle] at hm
        cases hm
      obtain ⟨hfits, hwrite⟩ := refused_fits (h.fits i) (served_refuse hserved) hm
      exact ⟨h.move (h.bracketed i hplace) hfits fun place rows heq => absurd heq (hwrite place rows),
        effect_move h hfits⟩

/-- A message sent twice under fresh ids. -/
def sent (handoffId : String) : Handoff where
  handoffId
  dedupeKey := some "s:1"
  channel := "mobile"
  sender := "u"
  chatId := "c"
  sessionKey := "s"
  content := "hello"
  timestamp := "2025-01-01T00:00:00+00:00"
  mediaJson := "[]"
  metadataJson := "{}"
  createdAt := "2025-01-01T00:00:00+00:00"

end MonoAgent.Handoffs
