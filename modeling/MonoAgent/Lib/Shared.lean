import MonoAgent.Lib.Dict

/-!
# Objects shared by key

A table holds one object for each key that is in use.  Parties ask for the object of
a key, keep it, and come back to it at any time.  An object leaves the table when it
is not kept any more, and the next party to ask for its key gets a new one.

What is shown of an object is a property of its value and of its parties, `P`, which
every party keeps when it acts.  The table then has the object of every key that is
kept, so all parties of a key have the same one.
-/

namespace MonoAgent.Lib

/-- An object, with the key that it was made for. -/
structure Entry (κ ν : Type) where
  key : κ
  value : ν
deriving DecidableEq

/-- A party: where it is, and the object that it has. -/
structure Holder (κ π : Type) where
  key : κ
  object : Nat
  pc : π
deriving DecidableEq

/-- Objects and parties are named by their places in the lists. -/
structure Shared (κ ν π : Type) where
  table : Dict κ Nat := []
  objects : List (Entry κ ν) := []
  holders : List (Holder κ π) := []
deriving DecidableEq

namespace Shared

variable {κ ν π : Type}

/-- The parties of an object, by name. -/
def partiesFrom (i : Nat) : Nat → List (Holder κ π) → Dict Nat π
  | _, [] => []
  | n, h :: rest => if h.object = i then (n, h.pc) :: partiesFrom i (n + 1) rest else partiesFrom i (n + 1) rest

def parties (s : Shared κ ν π) (i : Nat) : Dict Nat π := partiesFrom i 0 s.holders

section Operations

variable [DecidableEq κ] (s : Shared κ ν π)

/-- The object of a key, made when there is none. -/
def lend (k : κ) (new : ν) : Shared κ ν π × Nat :=
  match s.table.get? k with
  | some i => (s, i)
  | none => ({ s with table := s.table.set k s.objects.length, objects := s.objects ++ [⟨k, new⟩] },
      s.objects.length)

def write (i : Nat) (v : ν) : Shared κ ν π :=
  { s with objects := s.objects.modify i fun e => { e with value := v } }

/-- An object that is not kept leaves the table, if it is there. -/
def drop (kept : ν → Bool) (k : κ) (i : Nat) : Shared κ ν π :=
  match s.objects[i]? with
  | some e => if kept e.value ∨ s.table.get? k ≠ some i then s else { s with table := s.table.pop k }
  | none => s

/-- A party asks for the object of a key, and acts on it. -/
def enter (kept : ν → Bool) (k : κ) (new : ν) (f : ν → ν × π) : Shared κ ν π :=
  let (s, i) := s.lend k new
  match s.objects[i]? with
  | some e =>
      let (v, pc) := f e.value
      ({ s.write i v with holders := s.holders ++ [⟨k, i, pc⟩] } : Shared κ ν π).drop kept k i
  | none => s

/-- A party acts on the object that it has. -/
def act (kept : ν → Bool) (c : Nat) (f : ν → π → Option (ν × π)) : Option (Shared κ ν π) := do
  let h ← s.holders[c]?
  let e ← s.objects[h.object]?
  let (v, pc) ← f e.value h.pc
  let s := { s.write h.object v with holders := s.holders.set c { h with pc } }
  return s.drop kept h.key h.object

/-- A party asks for the object of its key again, and acts on it. -/
def retake (kept : ν → Bool) (c : Nat) (new : ν) (f : ν → π → Option (ν × π)) : Option (Shared κ ν π) := do
  let h ← s.holders[c]?
  let (s, i) := s.lend h.key new
  let e ← s.objects[i]?
  let (v, pc) ← f e.value h.pc
  let s := { s.write i v with holders := s.holders.set c ⟨h.key, i, pc⟩ }
  return s.drop kept h.key i

end Operations

/-! ## Parties -/

variable {s t : Shared κ ν π} {i j n c : Nat} {pc : π} {hs : List (Holder κ π)} {h : Holder κ π}

theorem mem_partiesFrom : (c, pc) ∈ partiesFrom i n hs ↔
    ∃ h m, hs[m]? = some h ∧ c = n + m ∧ h.object = i ∧ h.pc = pc := by
  induction hs generalizing n with
  | nil => simp [partiesFrom]
  | cons h rest ih =>
      have hrest : (c, pc) ∈ partiesFrom i (n + 1) rest ↔
          ∃ h' m, (h :: rest)[m + 1]? = some h' ∧ c = n + (m + 1) ∧ h'.object = i ∧ h'.pc = pc := by
        rw [ih]
        simp only [List.getElem?_cons_succ, Nat.add_assoc, Nat.add_comm 1]
      have hsplit : (∃ h' m, (h :: rest)[m]? = some h' ∧ c = n + m ∧ h'.object = i ∧ h'.pc = pc) ↔
          (c = n ∧ h.object = i ∧ h.pc = pc) ∨ (c, pc) ∈ partiesFrom i (n + 1) rest := by
        rw [hrest]
        constructor
        · rintro ⟨h', m, hm, hc, ho, hp⟩
          cases m with
          | zero =>
              cases hm
              exact Or.inl ⟨hc, ho, hp⟩
          | succ m => exact Or.inr ⟨h', m, hm, hc, ho, hp⟩
        · rintro (⟨hc, ho, hp⟩ | ⟨h', m, hm, hc, ho, hp⟩)
          · exact ⟨h, 0, rfl, hc, ho, hp⟩
          · exact ⟨h', m + 1, hm, hc, ho, hp⟩
      rw [hsplit, partiesFrom]
      split
      · next ho =>
          rw [List.mem_cons, Prod.mk.injEq]
          constructor
          · rintro (⟨rfl, rfl⟩ | hmem)
            · exact Or.inl ⟨rfl, ho, rfl⟩
            · exact Or.inr hmem
          · rintro (⟨rfl, _, rfl⟩ | hmem)
            · exact Or.inl ⟨rfl, rfl⟩
            · exact Or.inr hmem
      · next ho => exact ⟨Or.inr, fun hmem => hmem.resolve_left fun h' => ho h'.2.1⟩

theorem mem_parties : (c, pc) ∈ s.parties i ↔ ∃ h, s.holders[c]? = some h ∧ h.object = i ∧ h.pc = pc := by
  rw [parties, mem_partiesFrom]
  constructor
  · rintro ⟨h, m, hm, rfl, ho, hp⟩
    exact ⟨h, by rwa [Nat.zero_add], ho, hp⟩
  · rintro ⟨h, hm, ho, hp⟩
    exact ⟨h, c, hm, (Nat.zero_add c).symm, ho, hp⟩

theorem parties_lt (h : (c, pc) ∈ s.parties i) : c < s.holders.length := by
  obtain ⟨h', hc, _⟩ := mem_parties.mp h
  exact (List.getElem?_eq_some_iff.mp hc).1

/-- The names of the parties grow. -/
theorem sorted_partiesFrom : (partiesFrom i n hs).keys.Pairwise (· < ·) := by
  induction hs generalizing n with
  | nil => exact List.Pairwise.nil
  | cons h rest ih =>
      rw [partiesFrom]
      split
      · refine List.pairwise_cons.mpr ⟨fun c hc => ?_, ih⟩
        obtain ⟨pc, hmem⟩ := Dict.mem_keys.mp hc
        obtain ⟨_, m, _, rfl, _⟩ := mem_partiesFrom.mp hmem
        simp only
        omega
      · exact ih

theorem sorted_parties : (s.parties i).keys.Pairwise (· < ·) := sorted_partiesFrom

theorem partiesFrom_append {hs' : List (Holder κ π)} :
    partiesFrom i n (hs ++ hs') = partiesFrom i n hs ++ partiesFrom i (n + hs.length) hs' := by
  induction hs generalizing n with
  | nil => rfl
  | cons h rest ih =>
      have hlen : n + 1 + rest.length = n + (h :: rest).length := by
        rw [List.length_cons]
        omega
      rw [List.cons_append, partiesFrom, partiesFrom, ih, hlen]
      split
      · rfl
      · rfl

/-- A party acts: its place changes, and nothing else. -/
theorem partiesFrom_set (hm : hs[c]? = some h) :
    partiesFrom i n (hs.set c { h with pc }) =
      (partiesFrom i n hs).map fun e => if e.1 = n + c then (n + c, pc) else e := by
  induction hs generalizing n c with
  | nil => cases hm
  | cons x rest ih =>
      cases c with
      | zero =>
          cases hm
          have hrest : (partiesFrom i (n + 1) rest).map (fun e => if e.1 = n + 0 then (n + 0, pc) else e) =
              partiesFrom i (n + 1) rest := by
            refine (List.map_congr_left fun e he => if_neg ?_).trans (List.map_id _)
            obtain ⟨_, m, _, hc, _⟩ := mem_partiesFrom.mp (show (e.1, e.2) ∈ _ from he)
            omega
          rw [List.set_cons_zero, partiesFrom, partiesFrom]
          split
          · rw [List.map_cons, if_pos (Nat.add_zero n).symm, hrest]
            rfl
          · exact hrest.symm
      | succ c =>
          have hnext := ih hm (n := n + 1)
          rw [show n + 1 + c = n + (c + 1) by omega] at hnext
          rw [List.set_cons_succ, partiesFrom, partiesFrom, hnext]
          split
          · rw [List.map_cons, if_neg (by simp)]
          · rfl

theorem partiesFrom_single : partiesFrom i n [h] = if h.object = i then [(n, h.pc)] else [] := rfl

theorem mem_keys_parties (hc : s.holders[c]? = some h) : c ∈ (s.parties h.object).keys :=
  Dict.mem_keys.mpr ⟨h.pc, mem_parties.mpr ⟨h, hc, rfl, rfl⟩⟩

theorem get?_parties (hc : s.holders[c]? = some h) : (s.parties h.object).get? c = some h.pc :=
  Dict.get?_of_mem (sorted_parties.imp Nat.ne_of_lt) (mem_parties.mpr ⟨h, hc, rfl, rfl⟩)

/-- The parties of the object after one of them acted. -/
theorem parties_act (hc : s.holders[c]? = some h) (ht : t.holders = s.holders.set c { h with pc }) :
    t.parties h.object = (s.parties h.object).set c pc := by
  rw [parties, ht, partiesFrom_set hc, Dict.set, if_pos (mem_keys_parties hc), Nat.zero_add]
  rfl

theorem parties_other (hc : s.holders[c]? = some h) (ht : t.holders = s.holders.set c { h with pc })
    (hne : j ≠ h.object) : t.parties j = s.parties j := by
  rw [parties, ht, partiesFrom_set hc]
  refine (List.map_congr_left fun e he => if_neg fun heq => hne ?_).trans (List.map_id _)
  obtain ⟨h', m, hm, hcm, ho, _⟩ := mem_partiesFrom.mp (show (e.1, e.2) ∈ _ from he)
  have hsame : c = m := by omega
  rw [← hsame, hc] at hm
  cases hm
  exact ho.symm

/-- The parties of the object after one more asked for it. -/
theorem parties_enter (ht : t.holders = s.holders ++ [h]) :
    t.parties h.object = s.parties h.object ++ [(s.holders.length, h.pc)] := by
  rw [parties, ht, partiesFrom_append, Nat.zero_add, partiesFrom_single, if_pos rfl]
  rfl

theorem parties_enter_other (ht : t.holders = s.holders ++ [h]) (hne : j ≠ h.object) :
    t.parties j = s.parties j := by
  rw [parties, ht, partiesFrom_append, partiesFrom_single, if_neg hne.symm, List.append_nil]
  rfl

/-- What is counted of the parties of an object. -/
theorem tally_partiesFrom (p : π → Bool) :
    (partiesFrom i n hs).tally p = hs.countP fun h => h.object = i && p h.pc := by
  induction hs generalizing n with
  | nil => rfl
  | cons h rest ih =>
      have hrest := ih (n := n + 1)
      rw [Dict.tally] at hrest ⊢
      rw [partiesFrom, List.countP_cons]
      split
      · next ho =>
          rw [List.countP_cons]
          simp only [ho, decide_true, Bool.true_and]
          push_cast
          rw [hrest]
      · next ho =>
          simp only [ho, decide_false, Bool.false_and]
          exact hrest

theorem tally_parties (p : π → Bool) :
    (s.parties i).tally p = s.holders.countP fun h => h.object = i && p h.pc := tally_partiesFrom p

/-! ## The invariant -/

variable {kept : ν → Bool} {P : ν → Dict Nat π → Prop} {k : κ} {v w new : ν}

/-- What holds while a party acts on an object, which may be kept or not. -/
structure Acting (kept : ν → Bool) (P : ν → Dict Nat π → Prop) (i : Nat) (s : Shared κ ν π) : Prop where
  keys : s.table.keys.Nodup
  own : ∀ k j, (k, j) ∈ s.table → ∃ v, s.objects[j]? = some ⟨k, v⟩
  kept : ∀ j e, j ≠ i → s.objects[j]? = some e → (kept e.value = true ↔ (e.key, j) ∈ s.table)
  held : ∀ h ∈ s.holders, ∃ v, s.objects[h.object]? = some ⟨h.key, v⟩
  each : ∀ j e, s.objects[j]? = some e → P e.value (s.parties j)

/-- The table has the object of each key that is kept, and no other. -/
structure Inv (kept : ν → Bool) (P : ν → Dict Nat π → Prop) (s : Shared κ ν π) : Prop where
  keys : s.table.keys.Nodup
  own : ∀ k j, (k, j) ∈ s.table → ∃ v, s.objects[j]? = some ⟨k, v⟩
  kept : ∀ j e, s.objects[j]? = some e → (kept e.value = true ↔ (e.key, j) ∈ s.table)
  held : ∀ h ∈ s.holders, ∃ v, s.objects[h.object]? = some ⟨h.key, v⟩
  each : ∀ j e, s.objects[j]? = some e → P e.value (s.parties j)

theorem Inv.acting (h : Inv kept P s) (i : Nat) : Acting kept P i s :=
  ⟨h.keys, h.own, fun j e _ => h.kept j e, h.held, h.each⟩

theorem inv_empty : Inv kept P ({} : Shared κ ν π) where
  keys := List.nodup_nil
  own _ _ hmem := nomatch hmem
  kept _ _ he := nomatch he
  held _ hmem := nomatch hmem
  each _ _ he := nomatch he

/-- The object is kept in the end. -/
theorem Acting.keep (h : Acting kept P i s) (hi : s.objects[i]? = some ⟨k, v⟩) (hmem : (k, i) ∈ s.table)
    (hv : kept v = true) : Inv kept P s := by
  refine ⟨h.keys, h.own, fun j e he => ?_, h.held, h.each⟩
  by_cases hj : j = i
  · subst hj
    rw [hi] at he
    cases he
    exact ⟨fun _ => hmem, fun _ => hv⟩
  · exact h.kept j e hj he

variable [DecidableEq κ]

/-- No two objects of the table are of one key. -/
theorem Inv.same (h : Inv kept P s) (hi : (k, i) ∈ s.table) (hj : (k, j) ∈ s.table) : i = j := by
  have heq := (Dict.get?_of_mem h.keys hi).symm.trans (Dict.get?_of_mem h.keys hj)
  exact Option.some.inj heq

/-- The object is dropped in the end, unless it is kept. -/
theorem Acting.drop (h : Acting kept P i s) (hi : s.objects[i]? = some ⟨k, v⟩) (hmem : (k, i) ∈ s.table) :
    Inv kept P (s.drop kept k i) := by
  rw [Shared.drop, hi]
  dsimp only
  split
  · next hv => exact h.keep hi hmem (hv.resolve_right (not_not.mpr (Dict.get?_of_mem h.keys hmem)))
  · next hv =>
      have hnot := (not_or.mp hv).1
      have hold (k' : κ) (j : Nat) : (k', j) ∈ s.table.pop k ↔ (k', j) ∈ s.table ∧ k' ≠ k := Dict.mem_pop
      refine ⟨Dict.nodup_keys_filter h.keys _, fun k' j hj => h.own k' j ((hold k' j).mp hj).1,
        fun j e he => ?_, h.held, h.each⟩
      rw [hold]
      by_cases hj : j = i
      · subst hj
        rw [hi] at he
        cases he
        exact ⟨fun hk => absurd hk hnot, fun hk => absurd rfl hk.2⟩
      · rw [h.kept j e hj he]
        refine ⟨fun hin => ⟨hin, fun heq => hj ?_⟩, And.left⟩
        have hsame := (Dict.get?_of_mem h.keys (heq ▸ hin)).symm.trans (Dict.get?_of_mem h.keys hmem)
        exact Option.some.inj hsame

theorem Inv.lend (h : Inv kept P s) (hnew : P new []) (ht : s.lend k new = (t, i)) :
    Acting kept P i t ∧ (k, i) ∈ t.table ∧ t.holders = s.holders ∧
      ∃ v, t.objects[i]? = some ⟨k, v⟩ := by
  rw [Shared.lend] at ht
  split at ht
  · next j hj =>
      cases ht
      have hmem := Dict.mem_of_get? hj
      exact ⟨h.acting i, hmem, rfl, h.own k i hmem⟩
  · next hnone =>
      cases ht
      have hlen : (s.objects ++ [⟨k, new⟩])[s.objects.length]? = some ⟨k, new⟩ := by simp
      have hold {j : Nat} {e : Entry κ ν} (he : s.objects[j]? = some e) :
          (s.objects ++ [⟨k, new⟩])[j]? = some e := by
        rw [List.getElem?_append_left (List.getElem?_eq_some_iff.mp he).1, he]
      have hback {j : Nat} {e : Entry κ ν} (hj : j ≠ s.objects.length)
          (he : (s.objects ++ [⟨k, new⟩])[j]? = some e) : s.objects[j]? = some e := by
        have hlt := (List.getElem?_eq_some_iff.mp he).1
        rw [List.length_append, List.length_singleton] at hlt
        rwa [List.getElem?_append_left (by omega)] at he
      refine ⟨⟨Dict.nodup_keys_set h.keys _ _, fun k' j hj => ?_, fun j e hj he => ?_, fun x hx => ?_,
        fun j e he => ?_⟩, Dict.mem_set.mpr (Or.inl rfl), rfl, new, hlen⟩
      · rcases Dict.mem_set.mp hj with heq | ⟨_, hj⟩
        · cases heq
          exact ⟨new, hlen⟩
        · obtain ⟨v, hv⟩ := h.own k' j hj
          exact ⟨v, hold hv⟩
      · rw [h.kept j e (hback hj he), Dict.mem_set, or_iff_right fun heq => hj (Prod.mk.inj heq).2]
        refine ⟨fun hmem => ⟨fun heq => Dict.get?_eq_none.mp hnone ?_, hmem⟩, And.right⟩
        exact Dict.mem_keys.mpr ⟨j, heq ▸ hmem⟩
      · obtain ⟨v, hv⟩ := h.held x hx
        exact ⟨v, hold hv⟩
      · by_cases hj : j = s.objects.length
        · subst hj
          rw [hlen] at he
          cases he
          -- No party has an object that was not made.
          have hnil : s.parties s.objects.length = [] := by
            refine List.eq_nil_iff_forall_not_mem.mpr fun e he => ?_
            obtain ⟨x, hx, ho, _⟩ := mem_parties.mp (show (e.1, e.2) ∈ _ from he)
            obtain ⟨v, hv⟩ := h.held x (List.mem_of_getElem? hx)
            rw [ho] at hv
            exact absurd (List.getElem?_eq_some_iff.mp hv).1 (Nat.lt_irrefl _)
          exact (show P new (s.parties s.objects.length) by rwa [hnil])
        · exact h.each j e (hback hj he)

omit [DecidableEq κ] in
theorem objects_modify (hi : s.objects[i]? = some ⟨k, v⟩) :
    (s.objects.modify i fun e => { e with value := w })[i]? = some ⟨k, w⟩ := by
  rw [List.getElem?_modify_eq, hi]
  rfl

omit [DecidableEq κ] in
/-- The object is written, and what its parties are. -/
theorem Acting.write (h : Acting kept P i s) (hi : s.objects[i]? = some ⟨k, v⟩)
    {hs : List (Holder κ π)} (ht : t = { s.write i w with holders := hs })
    (hheld : ∀ x ∈ hs, ∃ v, s.objects[x.object]? = some ⟨x.key, v⟩)
    (hother : ∀ j, j ≠ i → t.parties j = s.parties j) (hP : P w (t.parties i)) :
    Acting kept P i t ∧ t.objects[i]? = some ⟨k, w⟩ := by
  have hobj : t.objects = s.objects.modify i fun e => { e with value := w } := by
    rw [ht]
    rfl
  have hkeys {j : Nat} {k' : κ} (hj : ∃ v, s.objects[j]? = some ⟨k', v⟩) :
      ∃ v, t.objects[j]? = some ⟨k', v⟩ := by
    obtain ⟨v, hv⟩ := hj
    rw [hobj]
    by_cases heq : j = i
    · subst heq
      exact ⟨w, objects_modify hv⟩
    · exact ⟨v, by rw [List.getElem?_modify_ne _ _ (Ne.symm heq), hv]⟩
  have hother' {j : Nat} {e : Entry κ ν} (hj : j ≠ i) (he : t.objects[j]? = some e) :
      s.objects[j]? = some e := by
    rwa [hobj, List.getElem?_modify_ne _ _ (Ne.symm hj)] at he
  have htable : t.table = s.table := by
    rw [ht]
    rfl
  have hholders : t.holders = hs := by rw [ht]
  refine ⟨⟨htable ▸ h.keys, fun k' j hj => ?_, fun j e hj he => ?_, fun x hx => ?_, fun j e he => ?_⟩,
    hobj ▸ objects_modify hi⟩
  · rw [htable] at hj
    exact hkeys (h.own k' j hj)
  · rw [htable]
    exact h.kept j e hj (hother' hj he)
  · rw [hholders] at hx
    exact hkeys (hheld x hx)
  · by_cases hj : j = i
    · subst hj
      rw [hobj, objects_modify hi] at he
      cases he
      exact hP
    · rw [hother j hj]
      exact h.each j e (hother' hj he)

/-! ## The steps of a party -/

@[simp] theorem drop_objects : (s.drop kept k i).objects = s.objects := by
  rw [Shared.drop]
  split
  · split
    · rfl
    · rfl
  · rfl

@[simp] theorem drop_holders : (s.drop kept k i).holders = s.holders := by
  rw [Shared.drop]
  split
  · split
    · rfl
    · rfl
  · rfl

/-- A party more asked for the object. -/
theorem Inv.enter {f : ν → ν × π} (h : Inv kept P s) (hnew : P new [])
    (hP : ∀ v ps, P v ps → ps.keys.Pairwise (· < ·) → (∀ e ∈ ps, e.1 < s.holders.length) →
      P (f v).1 (ps ++ [(s.holders.length, (f v).2)])) :
    Inv kept P (s.enter kept k new f) := by
  obtain ⟨t, i, ht⟩ : ∃ t i, s.lend k new = (t, i) := ⟨_, _, rfl⟩
  obtain ⟨hacting, hmem, hholders, v, hv⟩ := h.lend hnew ht
  rw [Shared.enter, ht]
  simp only [hv]
  have hparties := parties_enter (s := t) (h := ⟨k, i, (f v).2⟩)
    (t := { t.write i (f v).1 with holders := t.holders ++ [⟨k, i, (f v).2⟩] }) rfl
  have hPv := hP v _ (hacting.each i _ hv) sorted_parties fun e he => by
    rw [← hholders]
    exact parties_lt (show (e.1, e.2) ∈ _ from he)
  have hheld (x : Holder κ π) (hx : x ∈ t.holders ++ [⟨k, i, (f v).2⟩]) :
      ∃ v, t.objects[x.object]? = some ⟨x.key, v⟩ := by
    rcases List.mem_append.mp hx with hx | hx
    · exact hacting.held x hx
    · rw [List.mem_singleton.mp hx]
      exact ⟨v, hv⟩
  obtain ⟨hwrite, hobj⟩ := hacting.write hv rfl hheld
    (fun j hj => parties_enter_other (s := t) (h := ⟨k, i, (f v).2⟩) rfl hj) (by
      rw [hparties, hholders]
      exact hPv)
  exact hwrite.drop hobj hmem

/-- What an action of a party does. -/
theorem act_ok {f : ν → π → Option (ν × π)} (h : s.act kept c f = some t) : ∃ x e v pc,
    s.holders[c]? = some x ∧ s.objects[x.object]? = some e ∧ f e.value x.pc = some (v, pc) ∧
      t = ({ s.write x.object v with holders := s.holders.set c { x with pc } } : Shared κ ν π).drop kept
        x.key x.object := by
  obtain ⟨x, hx, h⟩ := Option.bind_eq_some_iff.mp h
  obtain ⟨e, he, h⟩ := Option.bind_eq_some_iff.mp h
  obtain ⟨⟨v, pc⟩, hf, h⟩ := Option.bind_eq_some_iff.mp h
  exact ⟨x, e, v, pc, hx, he, hf, (Option.some.inj h).symm⟩

/-- A party acts on an object that is kept until then. -/
theorem Inv.act {f : ν → π → Option (ν × π)} (h : Inv kept P s) (hact : s.act kept c f = some t)
    (hP : ∀ v ps pc v' pc', P v ps → ps.keys.Pairwise (· < ·) → ps.get? c = some pc →
      f v pc = some (v', pc') → kept v = true ∧ P v' (ps.set c pc')) : Inv kept P t := by
  obtain ⟨x, e, v, pc, hx, he, hf, rfl⟩ := act_ok hact
  obtain ⟨w, hw⟩ := h.held x (List.mem_of_getElem? hx)
  rw [he] at hw
  cases hw
  obtain ⟨hkept, hPv⟩ := hP w _ x.pc v pc (h.each _ _ he) sorted_parties (get?_parties hx) hf
  have hheld (y : Holder κ π) (hy : y ∈ s.holders.set c { x with pc }) :
      ∃ v, s.objects[y.object]? = some ⟨y.key, v⟩ := by
    rcases List.mem_or_eq_of_mem_set hy with hy | rfl
    · exact h.held y hy
    · exact ⟨w, he⟩
  obtain ⟨hwrite, hobj⟩ := (h.acting x.object).write he (w := v) rfl hheld
    (fun j hj => parties_other hx rfl hj) (by
      rw [parties_act hx rfl]
      exact hPv)
  exact hwrite.drop hobj ((h.kept _ _ he).mp hkept)

omit [DecidableEq κ] in
/-- The object of a party that keeps it is in the table. -/
theorem Inv.live (h : Inv kept P s) {live : π → Bool}
    (hlive : ∀ v ps c pc, P v ps → ps.get? c = some pc → live pc = true → kept v = true) {x : Holder κ π}
    (hc : s.holders[c]? = some x) (hx : live x.pc = true) :
    ∃ v, s.objects[x.object]? = some ⟨x.key, v⟩ ∧ (x.key, x.object) ∈ s.table ∧ P v (s.parties x.object) := by
  obtain ⟨v, hv⟩ := h.held x (List.mem_of_getElem? hc)
  have hP := h.each _ _ hv
  exact ⟨v, hv, (h.kept _ _ hv).mp (hlive v _ c x.pc hP (get?_parties hc) hx), hP⟩

/-- What is counted of the parties of an object is counted of the parties of its key. -/
theorem Inv.count (h : Inv kept P s) {live : π → Bool}
    (hlive : ∀ v ps c pc, P v ps → ps.get? c = some pc → live pc = true → kept v = true)
    (hi : (k, i) ∈ s.table) {p : π → Bool} (hp : ∀ u, p u = true → live u = true) :
    (s.parties i).tally p = s.holders.countP fun x => x.key = k && p x.pc := by
  rw [tally_parties]
  refine congrArg Nat.cast (List.countP_congr fun x hx => ?_)
  obtain ⟨c, hc⟩ := List.mem_iff_getElem?.mp hx
  simp only [Bool.and_eq_true, decide_eq_true_eq]
  constructor
  · rintro ⟨ho, hpx⟩
    obtain ⟨g, hg, hmem, _⟩ := h.live hlive hc (hp _ hpx)
    obtain ⟨v, hv⟩ := h.own k i hi
    rw [ho, hv] at hg
    exact ⟨(congrArg Entry.key (Option.some.inj hg)).symm, hpx⟩
  · rintro ⟨hk, hpx⟩
    obtain ⟨g, hg, hmem, _⟩ := h.live hlive hc (hp _ hpx)
    exact ⟨h.same (hk ▸ hmem) hi, hpx⟩

/-- The object of a party that is kept is the one that it gets when it asks again. -/
theorem Inv.recall_eq (h : Inv kept P s) {x : Holder κ π} {e : Entry κ ν} (hx : s.holders[c]? = some x)
    (he : s.objects[x.object]? = some e) (hkept : kept e.value = true) {f : ν → π → Option (ν × π)} :
    s.retake kept c new f = s.act kept c f := by
  obtain ⟨v, hv⟩ := h.held x (List.mem_of_getElem? hx)
  obtain rfl : e = ⟨x.key, v⟩ := Option.some.inj (he.symm.trans hv)
  have hget := Dict.get?_of_mem h.keys ((h.kept _ _ he).mp hkept)
  have hlend : s.lend x.key new = (s, x.object) := by
    simp only [Shared.lend, hget]
  simp only [Shared.retake, Shared.act, hx, Option.bind_eq_bind, Option.bind_some, hlend]

/-! ## Who is where after a step -/

theorem Inv.entered {f : ν → ν × π} (h : Inv kept P s) (hnew : P new []) {x : Holder κ π}
    (hx : (s.enter kept k new f).holders[c]? = some x) :
    s.holders[c]? = some x ∨ (c = s.holders.length ∧ x.key = k ∧ ∃ v ps, P v ps ∧
      ps.keys.Pairwise (· < ·) ∧ (∀ e ∈ ps, e.1 < c) ∧ x.pc = (f v).2 ∧
      (s.enter kept k new f).objects[x.object]? = some ⟨k, (f v).1⟩) := by
  obtain ⟨t, i, ht⟩ : ∃ t i, s.lend k new = (t, i) := ⟨_, _, rfl⟩
  obtain ⟨hacting, hmem, hholders, v, hv⟩ := h.lend hnew ht
  rw [Shared.enter, ht] at hx ⊢
  simp only [hv, drop_holders, drop_objects] at hx ⊢
  rw [hholders] at hx
  by_cases hc : c < s.holders.length
  · rw [List.getElem?_append_left hc] at hx
    exact Or.inl hx
  · have hlt := (List.getElem?_eq_some_iff.mp hx).1
    rw [List.length_append, List.length_singleton] at hlt
    obtain rfl : c = s.holders.length := by omega
    obtain rfl : (⟨k, i, (f v).2⟩ : Holder κ π) = x := by simpa using hx
    refine Or.inr ⟨rfl, rfl, v, t.parties i, hacting.each i _ hv, sorted_parties, fun e he => ?_, rfl,
      objects_modify hv⟩
    rw [← hholders]
    exact parties_lt (show (e.1, e.2) ∈ _ from he)

theorem acted {f : ν → π → Option (ν × π)} (hact : s.act kept n f = some t) {x : Holder κ π}
    (hx : t.holders[c]? = some x) :
    s.holders[c]? = some x ∨ (c = n ∧ ∃ e pc v, s.holders[c]? = some { x with pc } ∧
      s.objects[x.object]? = some e ∧ f e.value pc = some (v, x.pc) ∧
      t.objects[x.object]? = some ⟨e.key, v⟩) := by
  obtain ⟨y, e, v, pc, hy, he, hf, rfl⟩ := act_ok hact
  simp only [drop_holders, drop_objects] at hx ⊢
  by_cases hc : n = c
  · subst hc
    have hlen := (List.getElem?_eq_some_iff.mp hy).1
    obtain rfl : ({ y with pc } : Holder κ π) = x := Option.some.inj ((List.getElem?_set_self hlen).symm.trans hx)
    exact Or.inr ⟨rfl, e, y.pc, v, hy, he, hf, objects_modify he⟩
  · exact Or.inl ((List.getElem?_set_ne hc).symm.trans hx)

end Shared

end MonoAgent.Lib
