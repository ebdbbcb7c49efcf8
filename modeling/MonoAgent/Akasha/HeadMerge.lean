import Mathlib
import MonoAgent.Akasha.Heads
import MonoAgent.Lib.Weights

/-!
# One head for every component

`_materialize_merged_heads` sums the masses of a group, joins its ids and mixes its
seeds by mass.  A merged head depends on its members only up to their order
(`mergedOf_perm`), which is why the result does not depend on the order of the
heads as long as the final sort has no ties.  The masses and the values of the seeds
are elements of an ordered field, so that sums and quotients are exact; the source
computes them in floats.
-/

namespace MonoAgent.Akasha

open Lib

/-- A merged head: the joined ids, the mass and the seed. -/
structure Merged (α : Type) where
  id : String
  mass : α
  seed : List (ℕ × α)
deriving DecidableEq

variable {α : Type} [Field α] {n : ℕ}

/-! ## Merged heads -/

/-- `head_mass * value` at every node of the seeds. -/
def weighted (head : Head α) : List (ℕ × α) :=
  head.seed.map fun entry => (entry.1, head.mass * entry.2)

/-- `"+".join(str(hub_id) for hub_id in sorted(hub_ids))`. -/
def joinIds (hubIds : List ℤ) : String :=
  "+".intercalate ((hubIds.insertionSort (· ≤ ·)).map toString)

section Materialize

variable [LinearOrder α]

/-- One group as a merged head; `none` is a `ZeroDivisionError`. -/
def materialize (heads : List (Head α)) : Option (Merged α) :=
  let mass := (heads.map (·.mass)).sum
  let values := heads.foldl (fun (values : Dict ℕ α) head => values.addAll (weighted head)) []
  let total := (values.map Prod.snd).sum
  if values ≠ [] ∧ total = 0 then
    none
  else
    some
      { id := joinIds (heads.map (·.hubId))
        mass := mass
        seed := (values.keys.insertionSort (· ≤ ·)).map fun node =>
          (node, (values.get? node).getD 0 / total) }

/-- `key=lambda item: (-item[1], item[0])`. -/
def KeyLE (a b : Merged α) : Prop :=
  -a.mass < -b.mass ∨ -a.mass = -b.mass ∧ a.id ≤ b.id

instance (a b : Merged α) : Decidable (KeyLE a b) :=
  inferInstanceAs (Decidable (_ ∨ _))

/-- `_materialize_merged_heads`. -/
def materializeMergedHeads (heads : Fin n → Head α) (grouped : List (List (Fin n))) :
    Option (List (Merged α)) :=
  (grouped.mapM fun indices => materialize (indices.map heads)).map fun merged =>
    merged.insertionSort KeyLE

/-- `_merge_overlapping_heads`. -/
def mergeOverlappingHeads (heads : Fin n → Head α) : Option (List (Merged α)) :=
  materializeMergedHeads heads (groups (uniteAll heads).forest)

end Materialize

/-! ## One merged head -/

/-- What the members give a node, by mass. -/
def mixture (heads : List (Head α)) (node : ℕ) : α :=
  (heads.map fun head => head.mass * weightOf head.seed node).sum

/-- What the members give all nodes, by mass. -/
def totalMixture (heads : List (Head α)) : α :=
  (heads.map fun head => head.mass * (head.seed.map Prod.snd).sum).sum

/-- A merged head is the sum, the list of hubs and the mixture of its members. -/
structure IsMixture (heads : List (Head α)) (merged : Merged α) : Prop where
  mass : merged.mass = (heads.map (·.mass)).sum
  id : ∃ hubIds : List ℤ, hubIds.Perm (heads.map (·.hubId)) ∧ hubIds.Pairwise (· ≤ ·) ∧
    merged.id = "+".intercalate (hubIds.map toString)
  ascending : (merged.seed.map Prod.fst).Pairwise (· < ·)
  nodes : ∀ node, node ∈ merged.seed.map Prod.fst ↔ ∃ head ∈ heads, HasNode head node
  values : ∀ entry ∈ merged.seed, entry.2 = mixture heads entry.1 / totalMixture heads
  normalised : merged.seed ≠ [] → (merged.seed.map Prod.snd).sum = 1

theorem weightOf_weighted (head : Head α) (node : ℕ) :
    weightOf (weighted head) node = head.mass * weightOf head.seed node := by
  rw [weighted]
  induction head.seed with
  | nil => simp
  | cons e seed ih =>
      rw [List.map_cons, weightOf_cons, weightOf_cons, ih, mul_add]
      split_ifs <;> simp

theorem sum_weighted (head : Head α) :
    ((weighted head).map Prod.snd).sum = head.mass * (head.seed.map Prod.snd).sum := by
  rw [weighted]
  induction head.seed with
  | nil => simp
  | cons e seed ih =>
      simp only [List.map_cons, List.sum_cons] at ih ⊢
      rw [ih, mul_add]

/-- The values of a group: all weighted entries added up. -/
theorem foldl_addAll (heads : List (Head α)) (values : Dict ℕ α) :
    heads.foldl (fun (values : Dict ℕ α) head => values.addAll (weighted head)) values =
      values.addAll (heads.flatMap weighted) := by
  induction heads generalizing values with
  | nil => rfl
  | cons head heads ih => rw [List.foldl_cons, ih, List.flatMap_cons, Dict.addAll_append]

/-- The dictionary of a group. -/
def valuesOf (heads : List (Head α)) : Dict ℕ α :=
  Dict.addAll [] (heads.flatMap weighted)

theorem nodup_keys_valuesOf (heads : List (Head α)) : (valuesOf heads).keys.Nodup :=
  Dict.nodup_keys_addAll Dict.nodup_keys_nil _

theorem mem_keys_valuesOf {heads : List (Head α)} {node : ℕ} :
    node ∈ (valuesOf heads).keys ↔ ∃ head ∈ heads, HasNode head node := by
  rw [valuesOf, Dict.mem_keys_addAll]
  simp [Dict.keys, HasNode, weighted]

theorem get?_valuesOf (heads : List (Head α)) (node : ℕ) :
    ((valuesOf heads).get? node).getD 0 = mixture heads node := by
  rw [valuesOf, Dict.get?_addAll Dict.nodup_keys_nil, weightOf_flatMap]
  simp [Dict.get?, mixture, weightOf_weighted]

theorem sum_valuesOf (heads : List (Head α)) :
    ((valuesOf heads).map Prod.snd).sum = totalMixture heads := by
  rw [valuesOf, Dict.sum_values_addAll Dict.nodup_keys_nil, totalMixture]
  induction heads with
  | nil => simp
  | cons head heads ih =>
      simp only [List.flatMap_cons, List.map_append, List.sum_append, List.map_cons, List.sum_cons,
        sum_weighted] at ih ⊢
      rw [← ih]
      abel

/-- The division of the seed raises. -/
def ZeroDivision (heads : List (Head α)) : Prop :=
  valuesOf heads ≠ [] ∧ totalMixture heads = 0

/-- The merged head that a group gives when its total is no divisor of zero. -/
def mergedOf (heads : List (Head α)) : Merged α where
  id := joinIds (heads.map (·.hubId))
  mass := (heads.map (·.mass)).sum
  seed := ((valuesOf heads).keys.insertionSort (· ≤ ·)).map fun node =>
    (node, mixture heads node / totalMixture heads)

theorem isMixture_mergedOf {heads : List (Head α)}
    (h : ¬ ZeroDivision heads) : IsMixture heads (mergedOf heads) where
  mass := rfl
  id := ⟨_, List.perm_insertionSort _ _, List.pairwise_insertionSort _ _, rfl⟩
  ascending := by
    have hperm := List.perm_insertionSort (· ≤ ·) (valuesOf heads).keys
    have hsorted := List.pairwise_insertionSort (· ≤ ·) (valuesOf heads).keys
    have hnodup := hperm.nodup_iff.mpr (nodup_keys_valuesOf heads)
    have hfst : (mergedOf heads).seed.map Prod.fst = (valuesOf heads).keys.insertionSort (· ≤ ·) := by
      simp [mergedOf, Function.comp_def]
    rw [hfst]
    exact (hsorted.and hnodup).imp fun hab => lt_of_le_of_ne hab.1 hab.2
  nodes node := by
    rw [← mem_keys_valuesOf]
    simp [mergedOf]
  values entry hentry := by
    obtain ⟨node, -, rfl⟩ := List.mem_map.mp hentry
    rfl
  normalised hne := by
    have hvalues : valuesOf heads ≠ [] := by
      intro hnil
      exact hne (by simp [mergedOf, hnil, Dict.keys])
    have htotal : totalMixture heads ≠ 0 := fun hzero => h ⟨hvalues, hzero⟩
    have hsum : ((valuesOf heads).keys.map (mixture heads)).sum = totalMixture heads := by
      rw [← sum_valuesOf, ← Dict.sum_get? (nodup_keys_valuesOf heads)]
      simp only [get?_valuesOf]
    have hperm := List.perm_insertionSort (· ≤ ·) (valuesOf heads).keys
    calc ((mergedOf heads).seed.map Prod.snd).sum
        = (((valuesOf heads).keys.insertionSort (· ≤ ·)).map fun node =>
            mixture heads node / totalMixture heads).sum := by
          simp [mergedOf, Function.comp_def]
      _ = ((valuesOf heads).keys.map fun node => mixture heads node / totalMixture heads).sum :=
          (hperm.map _).sum_eq
      _ = ((valuesOf heads).keys.map (mixture heads)).sum / totalMixture heads := by
          induction (valuesOf heads).keys with
          | nil => simp
          | cons node nodes ih => simp [ih, add_div]
      _ = 1 := by rw [hsum, div_self htotal]

theorem sort_perm {β : Type} [LinearOrder β] {l m : List β} (h : l.Perm m) :
    l.insertionSort (· ≤ ·) = m.insertionSort (· ≤ ·) := by
  refine List.Perm.eq_of_pairwise' (r := (· ≤ ·)) (List.pairwise_insertionSort _ _)
    (List.pairwise_insertionSort _ _) ?_
  exact (List.perm_insertionSort _ l).trans (h.trans (List.perm_insertionSort _ m).symm)

/-- A merged head and its divisor do not depend on the order of the members. -/
theorem mergedOf_perm {heads heads' : List (Head α)} (h : heads.Perm heads') :
    mergedOf heads = mergedOf heads' ∧ (ZeroDivision heads ↔ ZeroDivision heads') := by
  have hmixture : mixture heads = mixture heads' := by
    funext node
    exact (h.map _).sum_eq
  have htotal : totalMixture heads = totalMixture heads' := (h.map _).sum_eq
  have hkeys : (valuesOf heads).keys.Perm (valuesOf heads').keys := by
    rw [List.perm_ext_iff_of_nodup (nodup_keys_valuesOf heads) (nodup_keys_valuesOf heads')]
    intro node
    rw [mem_keys_valuesOf, mem_keys_valuesOf]
    simp [h.mem_iff]
  have hempty : valuesOf heads = [] ↔ valuesOf heads' = [] := by
    have hlength := hkeys.length_eq
    simp only [Dict.keys, List.length_map] at hlength
    rw [← List.length_eq_zero_iff, ← List.length_eq_zero_iff, hlength]
  have hids : joinIds (heads.map (·.hubId)) = joinIds (heads'.map (·.hubId)) := by
    rw [joinIds, joinIds, sort_perm (h.map _)]
  have hmass : (heads.map (·.mass)).sum = (heads'.map (·.mass)).sum := (h.map _).sum_eq
  constructor
  · simp only [mergedOf, hids, hmass, hmixture, htotal, sort_perm hkeys]
  · simp only [ZeroDivision, ne_eq, hempty, htotal]

variable [LinearOrder α]

instance (heads : List (Head α)) : Decidable (ZeroDivision heads) :=
  inferInstanceAs (Decidable (_ ∧ _))

theorem materialize_eq (heads : List (Head α)) :
    materialize heads = if ZeroDivision heads then none else some (mergedOf heads) := by
  simp only [materialize, foldl_addAll, ← valuesOf.eq_def, sum_valuesOf, get?_valuesOf, mergedOf,
    ZeroDivision]
  rfl

/-- Positive masses and values never divide by zero. -/
theorem not_zeroDivision [IsStrictOrderedRing α] {heads : List (Head α)}
    (h : ∀ head ∈ heads, 0 < head.mass ∧ ∀ entry ∈ head.seed, 0 < entry.2) :
    ¬ ZeroDivision heads := by
  rintro ⟨hvalues, hzero⟩
  obtain ⟨entry, hentry⟩ := List.exists_mem_of_ne_nil _ hvalues
  have hkey : entry.1 ∈ (valuesOf heads).keys := List.mem_map_of_mem hentry
  obtain ⟨head, hhead, hnode⟩ := mem_keys_valuesOf.mp hkey
  have hsum (head : Head α) (hhead : head ∈ heads) : 0 ≤ (head.seed.map Prod.snd).sum :=
    List.sum_nonneg fun x hx => by
      obtain ⟨e, he, rfl⟩ := List.mem_map.mp hx
      exact ((h head hhead).2 e he).le
  have hterms : ∀ x ∈ heads.map fun head => head.mass * (head.seed.map Prod.snd).sum, 0 ≤ x := by
    intro x hx
    obtain ⟨head, hhead, rfl⟩ := List.mem_map.mp hx
    exact mul_nonneg (h head hhead).1.le (hsum head hhead)
  have hpos : 0 < (head.seed.map Prod.snd).sum := by
    obtain ⟨e, he, -⟩ := List.mem_map.mp hnode
    refine lt_of_lt_of_le ((h head hhead).2 e he) ?_
    refine List.single_le_sum (fun x hx => ?_) _ (List.mem_map_of_mem he)
    obtain ⟨e', he', rfl⟩ := List.mem_map.mp hx
    exact ((h head hhead).2 e' he').le
  have hle := List.single_le_sum hterms _ (List.mem_map_of_mem hhead)
  rw [← totalMixture, hzero] at hle
  exact absurd (mul_pos (h head hhead).1 hpos) (not_lt.mpr hle)

/-! ## The whole merge -/

/-- Some group divides by zero. -/
def Raises (heads : Fin n → Head α) : Prop :=
  ∃ members ∈ groups (uniteAll heads).forest, ZeroDivision (members.map heads)

instance (heads : Fin n → Head α) : Decidable (Raises heads) :=
  inferInstanceAs (Decidable (∃ members ∈ _, _))

theorem mapM_materialize (heads : Fin n → Head α) (grouped : List (List (Fin n))) :
    (grouped.mapM fun indices => materialize (indices.map heads)) =
      if ∃ members ∈ grouped, ZeroDivision (members.map heads) then none
      else some (grouped.map fun members => mergedOf (members.map heads)) := by
  induction grouped with
  | nil => simp
  | cons members grouped ih =>
      rw [List.mapM_cons, ih, materialize_eq]
      by_cases hfirst : ZeroDivision (members.map heads)
      · simp [hfirst]
      · by_cases hrest : ∃ members ∈ grouped, ZeroDivision (members.map heads)
        · simp [hfirst, hrest]
        · simp [hfirst, hrest]

theorem mergeOverlappingHeads_eq (heads : Fin n → Head α) :
    mergeOverlappingHeads heads =
      if Raises heads then none
      else some (((groups (uniteAll heads).forest).map fun members =>
        mergedOf (members.map heads)).insertionSort KeyLE) := by
  rw [mergeOverlappingHeads, materializeMergedHeads, mapM_materialize]
  by_cases h : Raises heads
  · rw [if_pos h]
    rw [Raises] at h
    rw [if_pos h]
    rfl
  · rw [if_neg h]
    rw [Raises] at h
    rw [if_neg h]
    rfl

/-- Every head is in exactly one part, the parts are the connected components, each
result is the mixture of its part, and no two results share a node. -/
structure IsMerge (heads : Fin n → Head α) (parts : List (List (Fin n) × Merged α)) : Prop where
  partition : (parts.flatMap Prod.fst).Perm (List.finRange n)
  nonempty : ∀ part ∈ parts, part.1 ≠ []
  component : ∀ part ∈ parts, ∀ i ∈ part.1, ∀ j, j ∈ part.1 ↔ Connected heads i j
  mixture : ∀ part ∈ parts, IsMixture (part.1.map heads) part.2
  disjoint : parts.Pairwise fun part part' =>
    ∀ node ∈ part.2.seed.map Prod.fst, node ∉ part'.2.seed.map Prod.fst

omit [LinearOrder α] in
/-- Heads of different components share no node. -/
theorem disjoint_nodes {heads : Fin n → Head α} {members members' : List (Fin n)}
    (h : members ∈ groups (uniteAll heads).forest) (hdisjoint : members.Disjoint members')
    {merged merged' : Merged α} (hmerged : IsMixture (members.map heads) merged)
    (hmerged' : IsMixture (members'.map heads) merged') (node : ℕ)
    (hnode : node ∈ merged.seed.map Prod.fst) : node ∉ merged'.seed.map Prod.fst := by
  intro hnode'
  obtain ⟨head, hhead, hin⟩ := (hmerged.nodes node).mp hnode
  obtain ⟨head', hhead', hin'⟩ := (hmerged'.nodes node).mp hnode'
  obtain ⟨i, hi, rfl⟩ := List.mem_map.mp hhead
  obtain ⟨j, hj, rfl⟩ := List.mem_map.mp hhead'
  have hconnected : Connected heads i j := Relation.EqvGen.rel _ _ ⟨node, hin, hin'⟩
  exact hdisjoint ((mem_group_iff h hi j).mpr hconnected) hj

theorem exists_isMerge {heads : Fin n → Head α} {out : List (Merged α)}
    (h : mergeOverlappingHeads heads = some out) :
    ∃ parts, IsMerge heads parts ∧ parts.map Prod.snd = out := by
  rw [mergeOverlappingHeads_eq] at h
  split_ifs at h with hraises
  cases h
  obtain ⟨hflat, hgroups⟩ := groups_spec (uniteAll heads).forest
  have hdistinct := hflat.nodup_iff.mpr (List.nodup_finRange n)
  have hdisjoint := (List.nodup_flatten.mp hdistinct).2
  have hmixture (members) (hmem : members ∈ groups (uniteAll heads).forest) :
      IsMixture (members.map heads) (mergedOf (members.map heads)) :=
    isMixture_mergedOf fun hzero => hraises ⟨members, hmem, hzero⟩
  set unsorted := (groups (uniteAll heads).forest).map fun members =>
    (members, mergedOf (members.map heads)) with hunsorted
  have hperm := List.perm_insertionSort (fun a b => KeyLE a.2 b.2) unsorted
  have hof (part) (hpart : part ∈ unsorted.insertionSort fun a b => KeyLE a.2 b.2) :
      part.1 ∈ groups (uniteAll heads).forest ∧ part.2 = mergedOf (part.1.map heads) := by
    obtain ⟨members, hmembers, rfl⟩ := List.mem_map.mp (hperm.mem_iff.mp hpart)
    exact ⟨hmembers, rfl⟩
  refine ⟨unsorted.insertionSort fun a b => KeyLE a.2 b.2, ?_, ?_⟩
  · constructor
    · refine (hperm.flatMap_right _).trans ?_
      rw [hunsorted, List.flatMap_map]
      simpa [List.flatMap_def] using hflat
    · intro part hpart
      exact (hgroups _ (hof part hpart).1).1
    · intro part hpart i hi j
      exact mem_group_iff (hof part hpart).1 hi j
    · intro part hpart
      obtain ⟨hmembers, hmerged⟩ := hof part hpart
      rw [hmerged]
      exact hmixture _ hmembers
    · have hpairs : (unsorted.insertionSort fun a b => KeyLE a.2 b.2).Pairwise
          fun part part' => part.1.Disjoint part'.1 := by
        refine (hperm.pairwise_iff fun hab => List.disjoint_comm.mp hab).mpr ?_
        exact List.pairwise_map.mpr hdisjoint
      refine hpairs.imp_of_mem fun {part part'} hpart hpart' hdis node hnode => ?_
      obtain ⟨hmembers, hmerged⟩ := hof part hpart
      obtain ⟨hmembers', hmerged'⟩ := hof part' hpart'
      rw [hmerged] at hnode
      rw [hmerged']
      exact disjoint_nodes hmembers hdis (hmixture _ hmembers) (hmixture _ hmembers') node hnode
  · rw [List.map_insertionSort (fun a b : List (Fin n) × Merged α => KeyLE a.2 b.2) KeyLE
      Prod.snd unsorted fun _ _ _ _ => Iff.rfl, hunsorted, List.map_map]
    rfl

/-! ## The order of the heads -/

omit [Field α] [LinearOrder α] in
theorem connected_comp_iff (heads : Fin n → Head α) (σ : Equiv.Perm (Fin n)) (i j : Fin n) :
    Connected (heads ∘ σ) i j ↔ Connected heads (σ i) (σ j) := by
  constructor
  · intro h
    induction h with
    | rel i j h => exact Relation.EqvGen.rel _ _ h
    | refl i => exact Relation.EqvGen.refl _
    | symm i j _ ih => exact ih.symm
    | trans i j k _ _ ih ih' => exact ih.trans ih'
  · have hback (k l : Fin n) (h : Connected heads k l) :
        Connected (heads ∘ σ) (σ.symm k) (σ.symm l) := by
      induction h with
      | rel k l h => exact Relation.EqvGen.rel _ _ (by simpa [Overlap] using h)
      | refl k => exact Relation.EqvGen.refl _
      | symm k l _ ih => exact ih.symm
      | trans k l m _ _ ih ih' => exact ih.trans ih'
    intro h
    simpa using hback _ _ h

/-- The indices that a reordering sends a group to, in increasing order. -/
def image (σ : Equiv.Perm (Fin n)) (members : List (Fin n)) : List (Fin n) :=
  (List.finRange n).filter (σ.symm · ∈ members)

omit [Field α] [LinearOrder α] in
theorem group_eq_filter {heads : Fin n → Head α} {members : List (Fin n)}
    (h : members ∈ groups (uniteAll heads).forest) :
    members = (List.finRange n).filter (· ∈ members) := by
  obtain ⟨-, r, hr⟩ := (groups_spec (uniteAll heads).forest).2 members h
  rw [hr]
  refine List.filter_congr fun i _ => ?_
  simp

omit [Field α] [LinearOrder α] in
/-- Every index is in a group. -/
theorem exists_group (heads : Fin n → Head α) (i : Fin n) :
    ∃ members ∈ groups (uniteAll heads).forest, i ∈ members := by
  have hmem : i ∈ (groups (uniteAll heads).forest).flatten :=
    (groups_spec (uniteAll heads).forest).1.mem_iff.mpr (List.mem_finRange i)
  exact List.mem_flatten.mp hmem

omit [Field α] [LinearOrder α] in
/-- The group of an index and the group of its image. -/
theorem image_group {heads : Fin n → Head α} {σ : Equiv.Perm (Fin n)}
    {members members' : List (Fin n)} (h : members ∈ groups (uniteAll (heads ∘ σ)).forest)
    (h' : members' ∈ groups (uniteAll heads).forest) {i : Fin n} (hi : i ∈ members)
    (hi' : σ i ∈ members') : image σ members = members' := by
  rw [group_eq_filter h', image]
  refine List.filter_congr fun j _ => ?_
  have hiff : σ.symm j ∈ members ↔ j ∈ members' := by
    rw [mem_group_iff h hi, connected_comp_iff, mem_group_iff h' hi']
    simp
  exact decide_eq_decide.mpr hiff

omit [Field α] [LinearOrder α] in
theorem nodup_groups (heads : Fin n → Head α) : (groups (uniteAll heads).forest).Nodup := by
  obtain ⟨hflat, hgroups⟩ := groups_spec (uniteAll heads).forest
  have hdistinct := hflat.nodup_iff.mpr (List.nodup_finRange n)
  refine (List.nodup_flatten.mp hdistinct).2.imp_of_mem fun {members members'} hmem _ hdis heq => ?_
  obtain ⟨i, hi⟩ := List.exists_mem_of_ne_nil _ (hgroups members hmem).1
  exact hdis hi (heq ▸ hi)

omit [Field α] [LinearOrder α] in
/-- The groups of the reordered heads are the groups, reordered. -/
theorem groups_comp_perm (heads : Fin n → Head α) (σ : Equiv.Perm (Fin n)) :
    ((groups (uniteAll (heads ∘ σ)).forest).map (image σ)).Perm
      (groups (uniteAll heads).forest) := by
  have hnonempty {heads : Fin n → Head α} {members : List (Fin n)}
      (h : members ∈ groups (uniteAll heads).forest) : ∃ i, i ∈ members :=
    List.exists_mem_of_ne_nil _ ((groups_spec (uniteAll heads).forest).2 members h).1
  have hinjective (members) (h : members ∈ groups (uniteAll (heads ∘ σ)).forest) (members')
      (h' : members' ∈ groups (uniteAll (heads ∘ σ)).forest)
      (heq : image σ members = image σ members') : members = members' := by
    rw [group_eq_filter h, group_eq_filter h']
    refine List.filter_congr fun i _ => decide_eq_decide.mpr ?_
    have hmem := congrArg (σ i ∈ ·) heq
    simpa [image] using hmem
  rw [List.perm_ext_iff_of_nodup ((nodup_groups _).map_on hinjective) (nodup_groups _)]
  intro members
  rw [List.mem_map]
  constructor
  · rintro ⟨before, hbefore, rfl⟩
    obtain ⟨i, hi⟩ := hnonempty hbefore
    obtain ⟨members, hmembers, hin⟩ := exists_group heads (σ i)
    rw [image_group hbefore hmembers hi hin]
    exact hmembers
  · intro hmembers
    obtain ⟨i, hi⟩ := hnonempty hmembers
    obtain ⟨before, hbefore, hin⟩ := exists_group (heads ∘ σ) (σ.symm i)
    exact ⟨before, hbefore, image_group hbefore hmembers hin (by simpa using hi)⟩

omit [Field α] [LinearOrder α] in
theorem map_comp_perm {heads : Fin n → Head α} {σ : Equiv.Perm (Fin n)} {members : List (Fin n)}
    (h : members ∈ groups (uniteAll (heads ∘ σ)).forest) :
    (members.map (heads ∘ σ)).Perm ((image σ members).map heads) := by
  have hnodup : members.Nodup := by
    rw [group_eq_filter h]
    exact (List.nodup_finRange n).filter _
  have hperm : (members.map σ).Perm (image σ members) := by
    have himage : (image σ members).Nodup := (List.nodup_finRange n).filter _
    rw [List.perm_ext_iff_of_nodup (hnodup.map σ.injective) himage]
    intro j
    rw [List.mem_map, image, List.mem_filter]
    constructor
    · rintro ⟨i, hi, rfl⟩
      simpa using hi
    · rintro ⟨-, hj⟩
      exact ⟨σ.symm j, of_decide_eq_true hj, by simp⟩
  have hmap := hperm.map heads
  rwa [List.map_map] at hmap

theorem sort_keyLE {l m : List (Merged α)} (h : l.Perm m) (hdistinct : (l.map (·.mass)).Nodup) :
    l.insertionSort KeyLE = m.insertionSort KeyLE := by
  have htotal : Std.Total (KeyLE : Merged α → Merged α → Prop) := ⟨fun a b => by
    rcases lt_trichotomy (-a.mass) (-b.mass) with hlt | heq | hgt
    · exact Or.inl (Or.inl hlt)
    · rcases le_total a.id b.id with hid | hid
      · exact Or.inl (Or.inr ⟨heq, hid⟩)
      · exact Or.inr (Or.inr ⟨heq.symm, hid⟩)
    · exact Or.inr (Or.inl hgt)⟩
  have htrans : IsTrans (Merged α) KeyLE := ⟨fun a b c => by
    rintro (hab | ⟨hab, hid⟩) (hbc | ⟨hbc, hid'⟩)
    · exact Or.inl (hab.trans hbc)
    · exact Or.inl (hbc ▸ hab)
    · exact Or.inl (hab ▸ hbc)
    · exact Or.inr ⟨hab.trans hbc, hid.trans hid'⟩⟩
  refine List.Perm.eq_of_pairwise (fun a b ha hb hab hba => ?_)
    (List.pairwise_insertionSort _ _) (List.pairwise_insertionSort _ _)
    ((List.perm_insertionSort _ l).trans (h.trans (List.perm_insertionSort _ m).symm))
  have ha' : a ∈ l := (List.mem_insertionSort _).mp ha
  have hb' : b ∈ l := h.mem_iff.mpr ((List.mem_insertionSort _).mp hb)
  have hmass : a.mass = b.mass := by
    rcases hab with hlt | ⟨heq, -⟩
    · rcases hba with hgt | ⟨heq, -⟩
      · exact absurd hgt hlt.asymm
      · exact absurd heq hlt.ne'
    · exact neg_inj.mp heq
  exact List.inj_on_of_nodup_map hdistinct ha' hb' hmass

/-- With distinct masses the result does not depend on the order of the heads. -/
theorem mergeOverlappingHeads_comp {heads : Fin n → Head α} {out : List (Merged α)}
    (h : mergeOverlappingHeads heads = some out) (hdistinct : (out.map (·.mass)).Nodup)
    (σ : Equiv.Perm (Fin n)) : mergeOverlappingHeads (heads ∘ σ) = some out := by
  rw [mergeOverlappingHeads_eq] at h
  split_ifs at h with hraises
  cases h
  have hgroups := groups_comp_perm heads σ
  have hsame (members) (hmem : members ∈ groups (uniteAll (heads ∘ σ)).forest) :=
    mergedOf_perm (map_comp_perm hmem)
  have hraises' : ¬ Raises (heads ∘ σ) := by
    rintro ⟨members, hmembers, hzero⟩
    exact hraises ⟨image σ members, hgroups.mem_iff.mp (List.mem_map_of_mem hmembers),
      (hsame members hmembers).2.mp hzero⟩
  have houts : ((groups (uniteAll (heads ∘ σ)).forest).map fun members =>
      mergedOf (members.map (heads ∘ σ))).Perm
      ((groups (uniteAll heads).forest).map fun members => mergedOf (members.map heads)) := by
    rw [List.map_congr_left fun members hmembers => (hsame members hmembers).1]
    simpa [Function.comp_def] using hgroups.map fun members => mergedOf (members.map heads)
  have hperm := List.perm_insertionSort KeyLE ((groups (uniteAll heads).forest).map fun members =>
    mergedOf (members.map heads))
  have hmasses := (hperm.map (·.mass)).nodup_iff.mp hdistinct
  rw [mergeOverlappingHeads_eq, if_neg hraises', sort_keyLE houts.symm hmasses]

/-- `_merge_overlapping_heads` on heads with positive masses and seeds returns, and
whatever it returns has one head for every connected component and, with distinct
masses, does not depend on the order of the heads. -/
theorem mergeOverlappingHeads_spec [IsStrictOrderedRing α] (heads : Fin n → Head α) :
    ((∀ i, 0 < (heads i).mass ∧ ∀ entry ∈ (heads i).seed, 0 < entry.2) →
        ∃ out, mergeOverlappingHeads heads = some out) ∧
      ∀ out, mergeOverlappingHeads heads = some out →
        (∃ parts, IsMerge heads parts ∧ parts.map Prod.snd = out) ∧
          ((out.map (·.mass)).Nodup →
            ∀ σ : Equiv.Perm (Fin n), mergeOverlappingHeads (heads ∘ σ) = some out) := by
  refine ⟨fun hpositive => ?_, fun out hout =>
    ⟨exists_isMerge hout, fun hdistinct => mergeOverlappingHeads_comp hout hdistinct⟩⟩
  rw [mergeOverlappingHeads_eq, if_neg]
  · exact ⟨_, rfl⟩
  · rintro ⟨members, -, hzero⟩
    refine not_zeroDivision (fun head hhead => ?_) hzero
    obtain ⟨i, -, rfl⟩ := List.mem_map.mp hhead
    exact hpositive i

/-- Two heads that share no node, joined by a third that shares one with each. -/
def chain : Fin 3 → Head ℚ :=
  ![⟨7, 1 / 2, [(0, 1)]⟩, ⟨2, 1 / 4, [(1, 1)]⟩, ⟨5, 1 / 4, [(0, 1 / 2), (1, 1 / 2)]⟩]

theorem mergeOverlappingHeads_chain :
    ∃ parts, IsMerge chain parts ∧
      parts.map Prod.snd = [⟨"2+5+7", 1, [(0, 5 / 8), (1, 3 / 8)]⟩] := by
  have heval : mergeOverlappingHeads chain =
      some [⟨"2+5+7", 1, [(0, 5 / 8), (1, 3 / 8)]⟩] := by
    decide +kernel
  exact ((mergeOverlappingHeads_spec chain).2 _ heval).1

end MonoAgent.Akasha
