import Mathlib

/-!
# Insertion-ordered dictionaries

A dictionary is the list of its entries in insertion order.  Assignment to a
known key replaces the value in place, assignment to a new key appends, removal
keeps the order of the rest.  Membership of an entry is what programs ask for,
so every operation has one lemma that says which entries it leaves.
-/

namespace MonoAgent.Lib

/-- A dictionary from `κ` to `ν`, oldest entry first. -/
abbrev Dict (κ : Type*) (ν : Type*) := List (κ × ν)

namespace Dict

variable {κ ν : Type*} [DecidableEq κ]

/-- The keys, oldest first. -/
def keys (d : Dict κ ν) : List κ := d.map Prod.fst

/-- The value at a key. -/
def get? (d : Dict κ ν) (k : κ) : Option ν := d.lookup k

/-- `d[k] = v`. -/
def set (d : Dict κ ν) (k : κ) (v : ν) : Dict κ ν :=
  if k ∈ d.keys then d.map fun e => if e.1 = k then (k, v) else e else d ++ [(k, v)]

/-- `d.update(entries)`. -/
def update (d : Dict κ ν) (entries : List (κ × ν)) : Dict κ ν :=
  entries.foldl (fun d e => d.set e.1 e.2) d

/-- `d.pop(k, None)`. -/
def pop (d : Dict κ ν) (k : κ) : Dict κ ν := d.filter fun e => e.1 ≠ k

/-! ## Entries -/

omit [DecidableEq κ] in
theorem mem_keys {d : Dict κ ν} {k : κ} : k ∈ d.keys ↔ ∃ v, (k, v) ∈ d := by
  simp [keys]

theorem mem_set {d : Dict κ ν} {k : κ} {v : ν} {e : κ × ν} :
    e ∈ d.set k v ↔ e = (k, v) ∨ (e.1 ≠ k ∧ e ∈ d) := by
  unfold set
  split
  · next hk =>
      obtain ⟨v₀, h₀⟩ := mem_keys.mp hk
      rw [List.mem_map]
      constructor
      · rintro ⟨e', he', rfl⟩
        by_cases h : e'.1 = k
        · rw [if_pos h]; exact Or.inl rfl
        · rw [if_neg h]; exact Or.inr ⟨h, he'⟩
      · rintro (rfl | ⟨hne, he⟩)
        · exact ⟨(k, v₀), h₀, if_pos rfl⟩
        · exact ⟨e, he, if_neg hne⟩
  · next hk =>
      rw [List.mem_append, List.mem_singleton]
      constructor
      · rintro (he | rfl)
        · exact Or.inr ⟨fun hek => hk (mem_keys.mpr ⟨e.2, hek ▸ he⟩), he⟩
        · exact Or.inl rfl
      · rintro (rfl | ⟨_, he⟩)
        · exact Or.inr rfl
        · exact Or.inl he

theorem mem_pop {d : Dict κ ν} {k : κ} {e : κ × ν} : e ∈ d.pop k ↔ e ∈ d ∧ e.1 ≠ k := by
  simp [pop]

/-- Updating with entries whose keys are new appends them. -/
theorem mem_update {d : Dict κ ν} {entries : List (κ × ν)} (hnd : (entries.map Prod.fst).Nodup)
    {e : κ × ν} :
    e ∈ d.update entries ↔ e ∈ entries ∨ (e.1 ∉ entries.map Prod.fst ∧ e ∈ d) := by
  induction entries generalizing d with
  | nil => simp [update]
  | cons x xs ih =>
      have hx : x.1 ∉ xs.map Prod.fst := (List.nodup_cons.mp hnd).1
      have hstep : d.update (x :: xs) = (d.set x.1 x.2).update xs := rfl
      rw [hstep, ih (List.nodup_cons.mp hnd).2, mem_set, List.mem_cons, List.map_cons,
        List.mem_cons, not_or]
      constructor
      · rintro (he | ⟨hne, rfl | ⟨hek, he⟩⟩)
        · exact Or.inl (Or.inr he)
        · exact Or.inl (Or.inl rfl)
        · exact Or.inr ⟨⟨hek, hne⟩, he⟩
      · rintro ((rfl | he) | ⟨⟨hek, hne⟩, he⟩)
        · exact Or.inr ⟨hx, Or.inl rfl⟩
        · exact Or.inl he
        · exact Or.inr ⟨hne, Or.inr ⟨hek, he⟩⟩

/-- An entry after an update was there before it or is one of the new. -/
theorem mem_of_mem_update {d : Dict κ ν} {entries : List (κ × ν)} {e : κ × ν}
    (h : e ∈ d.update entries) : e ∈ d ∨ e ∈ entries := by
  induction entries generalizing d with
  | nil => exact Or.inl h
  | cons x xs ih =>
      have hstep : d.update (x :: xs) = (d.set x.1 x.2).update xs := rfl
      rcases ih (hstep ▸ h) with hmem | hmem
      · rcases mem_set.mp hmem with rfl | ⟨-, hmem⟩
        · exact Or.inr List.mem_cons_self
        · exact Or.inl hmem
      · exact Or.inr (List.mem_cons_of_mem x hmem)

/-! ## Distinct keys and lookup -/

theorem keys_set {d : Dict κ ν} {k : κ} {v : ν} :
    (d.set k v).keys = if k ∈ d.keys then d.keys else d.keys ++ [k] := by
  unfold set
  split
  · unfold keys
    rw [List.map_map]
    refine List.map_congr_left fun e _ => ?_
    by_cases h : e.1 = k
    · simp [h]
    · simp [h]
  · simp [keys]

theorem nodup_keys_set {d : Dict κ ν} (h : d.keys.Nodup) (k : κ) (v : ν) :
    (d.set k v).keys.Nodup := by
  rw [keys_set]
  split
  · exact h
  · next hk => exact List.nodup_append.mpr ⟨h, by simp, by
      intro a ha b hb
      rw [List.mem_singleton.mp hb]
      exact fun hab => hk (hab ▸ ha)⟩

theorem nodup_keys_update {d : Dict κ ν} (h : d.keys.Nodup) (entries : List (κ × ν)) :
    (d.update entries).keys.Nodup := by
  induction entries generalizing d with
  | nil => exact h
  | cons x xs ih => exact ih (nodup_keys_set h x.1 x.2)

omit [DecidableEq κ] in
theorem nodup_keys_filter {d : Dict κ ν} (h : d.keys.Nodup) (p : κ × ν → Bool) :
    Dict.keys (List.filter p d) |>.Nodup :=
  h.sublist (List.Sublist.map _ List.filter_sublist)

/-- Entries with new, different keys are appended. -/
theorem update_concat {entries : List (κ × ν)} {d : Dict κ ν}
    (h : (d.keys ++ entries.map Prod.fst).Nodup) : d.update entries = d ++ entries := by
  induction entries generalizing d with
  | nil => simp [update]
  | cons e rest ih =>
      have hfresh : e.1 ∉ d.keys := by
        intro hmem
        have hdisjoint := (List.nodup_append.mp h).2.2 _ hmem e.1 (by simp)
        exact hdisjoint rfl
      have hset : d.set e.1 e.2 = d ++ [e] := by rw [set, if_neg hfresh]
      have hkeys : (keys (d ++ [e]) ++ rest.map Prod.fst).Nodup := by
        simpa [keys] using h
      have hstep : d.update (e :: rest) = (d.set e.1 e.2).update rest := rfl
      rw [hstep, hset, ih hkeys, List.append_assoc, List.singleton_append]

theorem get?_eq_none {d : Dict κ ν} {k : κ} : d.get? k = none ↔ k ∉ d.keys := by
  unfold get?
  rw [List.lookup_eq_none_iff]
  constructor
  · intro h hk
    obtain ⟨v, hv⟩ := mem_keys.mp hk
    simpa using h _ hv
  · intro h e he
    simpa using fun hk : k = e.1 => h (mem_keys.mpr ⟨e.2, hk ▸ he⟩)

theorem mem_of_get? {d : Dict κ ν} {k : κ} {v : ν} (h : d.get? k = some v) : (k, v) ∈ d := by
  unfold get? at h
  obtain ⟨l₁, l₂, hd, _⟩ := List.lookup_eq_some_iff.mp h
  rw [hd]
  simp

theorem get?_of_mem {d : Dict κ ν} (hnd : d.keys.Nodup) {k : κ} {v : ν} (h : (k, v) ∈ d) :
    d.get? k = some v := by
  cases hg : d.get? k with
  | none => exact absurd (mem_keys.mpr ⟨v, h⟩) (get?_eq_none.mp hg)
  | some w =>
      have hw := mem_of_get? hg
      have heq : (k, w) = (k, v) := List.inj_on_of_nodup_map hnd hw h rfl
      rw [(Prod.mk.inj heq).2]

theorem get?_set {d : Dict κ ν} (hnd : d.keys.Nodup) (k : κ) (v : ν) (k' : κ) :
    (d.set k v).get? k' = if k' = k then some v else d.get? k' := by
  have hnd' := nodup_keys_set hnd k v
  split
  · next h => exact get?_of_mem hnd' (mem_set.mpr (Or.inl (by rw [h])))
  · next h =>
      cases hg : d.get? k' with
      | none =>
          refine get?_eq_none.mpr fun hk => get?_eq_none.mp hg ?_
          obtain ⟨w, hw⟩ := mem_keys.mp hk
          rcases mem_set.mp hw with heq | ⟨_, hd⟩
          · exact absurd (Prod.mk.inj heq).1 h
          · exact mem_keys.mpr ⟨w, hd⟩
      | some w => exact get?_of_mem hnd' (mem_set.mpr (Or.inr ⟨h, mem_of_get? hg⟩))

theorem get?_eq_some {d : Dict κ ν} (hnd : d.keys.Nodup) {k : κ} {v : ν} :
    d.get? k = some v ↔ (k, v) ∈ d :=
  ⟨mem_of_get?, get?_of_mem hnd⟩

/-! ## Counts and columns -/

/-- The number of the values that meet `p`. -/
def tally (p : ν → Bool) (d : Dict κ ν) : Int := d.countP fun e => p e.2

omit [DecidableEq κ] in
theorem tally_concat (p : ν → Bool) (d : Dict κ ν) (k : κ) (v : ν) :
    tally p (d ++ [(k, v)]) = d.tally p + if p v then 1 else 0 := by
  rw [tally, List.countP_append, List.countP_singleton]
  split
  · rfl
  · rfl

omit [DecidableEq κ] in
theorem tally_pos {p : ν → Bool} {d : Dict κ ν} : 0 < d.tally p ↔ ∃ k v, (k, v) ∈ d ∧ p v = true := by
  rw [tally, Int.natCast_pos, List.countP_pos_iff]
  constructor
  · rintro ⟨e, he, hp⟩
    exact ⟨e.1, e.2, he, hp⟩
  · rintro ⟨k, v, he, hp⟩
    exact ⟨(k, v), he, hp⟩

omit [DecidableEq κ] in
/-- Of what is counted once, two entries are the same. -/
theorem eq_of_tally {p : ν → Bool} {d : Dict κ ν} (h : d.tally p ≤ 1) {k k' : κ} {v v' : ν}
    (hk : (k, v) ∈ d) (hv : p v = true) (hk' : (k', v') ∈ d) (hv' : p v' = true) : k = k' := by
  rw [tally, List.countP_eq_length_filter] at h
  have hmem : (k, v) ∈ d.filter fun e => p e.2 := List.mem_filter.mpr ⟨hk, hv⟩
  have hmem' : (k', v') ∈ d.filter fun e => p e.2 := List.mem_filter.mpr ⟨hk', hv'⟩
  obtain ⟨e, he⟩ := List.length_eq_one_iff.mp
    (Nat.le_antisymm (Int.ofNat_le.mp h) (List.length_pos_of_mem hmem))
  rw [he] at hmem hmem'
  have hsame := (List.mem_singleton.mp hmem).trans (List.mem_singleton.mp hmem').symm
  exact congrArg Prod.fst hsame

omit [DecidableEq κ] in
theorem not_mem_keys_of_lt {d : Dict Nat ν} {k : Nat} (h : ∀ e ∈ d, e.1 < k) : k ∉ d.keys := by
  intro hk
  obtain ⟨v, hv⟩ := mem_keys.mp hk
  exact Nat.lt_irrefl k (h _ hv)

omit [DecidableEq κ] in
theorem nodup_keys_concat {d : Dict κ ν} (hnd : d.keys.Nodup) {k : κ} (hk : k ∉ d.keys) (v : ν) :
    (keys (d ++ [(k, v)])).Nodup := by
  rw [keys, List.map_append]
  refine List.nodup_append.mpr ⟨hnd, List.nodup_singleton _, fun a ha b hb heq => hk ?_⟩
  have hak : a = k := heq.trans (List.mem_singleton.mp hb)
  exact hak ▸ ha

theorem get?_concat {d : Dict κ ν} (hnd : d.keys.Nodup) {k : κ} (hk : k ∉ d.keys) (v : ν) :
    get? (d ++ [(k, v)]) k = some v :=
  get?_of_mem (nodup_keys_concat hnd hk v) (List.mem_append_right _ (List.mem_singleton.mpr rfl))

/-- Assignment to the last key. -/
theorem set_concat {d : Dict κ ν} {k : κ} (hk : k ∉ d.keys) {v w : ν} :
    Dict.set (d ++ [(k, v)]) k w = d ++ [(k, w)] := by
  have hin : k ∈ keys (d ++ [(k, v)]) :=
    mem_keys.mpr ⟨v, List.mem_append_right _ (List.mem_singleton.mpr rfl)⟩
  have hkeep : (d.map fun e => if e.1 = k then (k, w) else e) = d := by
    refine (List.map_congr_left fun e he => if_neg fun heq => hk ?_).trans (List.map_id _)
    exact mem_keys.mpr ⟨e.2, heq ▸ he⟩
  rw [set, if_pos hin, List.map_append, hkeep, List.map_singleton, if_pos rfl]

/-- An entry of a dictionary, with what is before it and after it. -/
theorem split_of_get? {d : Dict κ ν} (hnd : d.keys.Nodup) {k : κ} {v : ν} (h : d.get? k = some v) (w : ν) :
    ∃ l r : Dict κ ν, d = l ++ (k, v) :: r ∧ d.set k w = l ++ (k, w) :: r ∧
      (∀ e ∈ l, e.1 ≠ k) ∧ ∀ e ∈ r, e.1 ≠ k := by
  have hmem := mem_of_get? h
  obtain ⟨l, r, hd⟩ := List.append_of_mem hmem
  have hnd' : (l.map Prod.fst ++ k :: r.map Prod.fst).Nodup := by
    simpa [hd, keys] using hnd
  obtain ⟨_, hright, hdisjoint⟩ := List.nodup_append.mp hnd'
  have hl (e : κ × ν) (he : e ∈ l) : e.1 ≠ k := hdisjoint _ (List.mem_map_of_mem he) _ (List.mem_cons_self ..)
  have hr (e : κ × ν) (he : e ∈ r) : e.1 ≠ k := by
    intro heq
    exact (List.nodup_cons.mp hright).1 (heq ▸ List.mem_map_of_mem he)
  refine ⟨l, r, hd, ?_, hl, hr⟩
  rw [set, if_pos (mem_keys.mpr ⟨v, hmem⟩), hd, List.map_append, List.map_cons, if_pos rfl]
  have hkeep (m : Dict κ ν) (hm : ∀ e ∈ m, e.1 ≠ k) : (m.map fun e => if e.1 = k then (k, w) else e) = m :=
    (List.map_congr_left fun e he => if_neg (hm e he)).trans (List.map_id _)
  rw [hkeep l hl, hkeep r hr]

theorem set_set {d : Dict κ ν} (hnd : d.keys.Nodup) {k : κ} {v : ν} (h : d.get? k = some v) (w x : ν) :
    (d.set k w).set k x = d.set k x := by
  have hw : (d.set k w).get? k = some w := by rw [get?_set hnd, if_pos rfl]
  have hin : k ∈ (d.set k w).keys := mem_keys.mpr ⟨w, mem_of_get? hw⟩
  rw [set.eq_1 (d.set k w), if_pos hin, set, if_pos (mem_keys.mpr ⟨v, mem_of_get? h⟩),
    set, if_pos (mem_keys.mpr ⟨v, mem_of_get? h⟩), List.map_map]
  refine List.map_congr_left fun e _ => ?_
  by_cases he : e.1 = k
  · simp [he]
  · simp [he]

theorem tally_set (p : ν → Bool) {d : Dict κ ν} (hnd : d.keys.Nodup) {k : κ} {v : ν} (h : d.get? k = some v)
    (w : ν) :
    (d.set k w).tally p = d.tally p - (if p v then 1 else 0) + if p w then 1 else 0 := by
  obtain ⟨l, r, hd, hset, _⟩ := split_of_get? hnd h w
  have hone (x : ν) : tally p (l ++ (k, x) :: r) = l.tally p + r.tally p + if p x then 1 else 0 := by
    rw [tally, List.countP_append, List.countP_cons, tally, tally]
    split
    · push_cast
      omega
    · push_cast
      omega
  rw [hset, hone, hd, hone]
  omega

/-- A column of the entries does not see a value that it does not tell from the old one. -/
theorem filterMap_set_same {α : Type*} {f : κ × ν → Option α} {d : Dict κ ν} (hnd : d.keys.Nodup) {k : κ}
    {v w : ν} (h : d.get? k = some v) (hf : f (k, w) = f (k, v)) : (d.set k w).filterMap f = d.filterMap f := by
  obtain ⟨l, r, hd, hset, _⟩ := split_of_get? hnd h w
  rw [hset, hd, List.filterMap_append, List.filterMap_append, List.filterMap_cons, List.filterMap_cons, hf]

/-- A value of a column that no other entry has goes with its entry. -/
theorem filterMap_set_erase {α : Type*} [BEq α] [LawfulBEq α] {f : κ × ν → Option α} {d : Dict κ ν}
    (hnd : d.keys.Nodup) {k : κ} {v w : ν} {x : α} (h : d.get? k = some v) (hv : f (k, v) = some x)
    (hw : f (k, w) = none) (hf : ∀ e ∈ d, f e = some x → e.1 = k) :
    (d.set k w).filterMap f = (d.filterMap f).erase x := by
  obtain ⟨l, r, hd, hset, hl, _⟩ := split_of_get? hnd h w
  have hnot : x ∉ l.filterMap f := by
    intro hx
    obtain ⟨e, he, hfe⟩ := List.mem_filterMap.mp hx
    exact hl e he (hf e (hd ▸ List.mem_append_left _ he) hfe)
  rw [hset, hd, List.filterMap_append, List.filterMap_append, List.filterMap_cons_none hw,
    List.filterMap_cons_some hv, List.erase_append_right _ hnot, List.erase_cons_head]

end Dict

end MonoAgent.Lib
