import Mathlib
import MonoAgent.Lib.Forest
import MonoAgent.Lib.Dict

/-!
# Merging overlapping recall heads

`_merge_overlapping_heads` unites heads that share a seed node and
groups them by their roots.  The heads are given by position; the union-find and the
owner of every node are one state.  The trees of the finished forest are the
connected components of the relation that two seeds share a node
(`root_uniteAll`), and the groups list every component once (`groups_spec`).  Masses
and values are numbers of any type, not floats: uniting and grouping reads none of them.
-/

namespace MonoAgent.Akasha

open Lib

/-- A selected basin with its mass and its seed. -/
structure Head (α : Type) where
  hubId : ℤ
  mass : α
  seed : List (ℕ × α)

variable {α : Type} {n : ℕ}

/-! ## The loops -/

/-- `parent` and `owners`. -/
structure Unions (n : ℕ) where
  forest : Forest n
  owners : Dict ℕ (Fin n)

/-- The loop body for one node of one seed. -/
def unite (u : Unions n) (index : Fin n) (node : ℕ) : Unions n :=
  let previous := (u.owners.get? node).getD index
  let owners := if node ∈ u.owners.keys then u.owners else u.owners.set node index
  ⟨u.forest.union index previous, owners⟩

/-- The two loops over the heads and over the nodes of their seeds. -/
def uniteAll (heads : Fin n → Head α) : Unions n :=
  (List.finRange n).foldl
    (fun u index => (heads index).seed.foldl (fun u entry => unite u index entry.1) u)
    ⟨Forest.discrete n, []⟩

/-! ## What the loops unite -/

/-- The head has the node in its seed. -/
def HasNode (head : Head α) (node : ℕ) : Prop :=
  node ∈ head.seed.map Prod.fst

/-- The seeds of two heads share a node. -/
def Overlap (heads : Fin n → Head α) (i j : Fin n) : Prop :=
  ∃ node, HasNode (heads i) node ∧ HasNode (heads j) node

/-- Connectivity over shared nodes. -/
def Connected (heads : Fin n → Head α) : Fin n → Fin n → Prop :=
  Relation.EqvGen (Overlap heads)

theorem Connected.trans {heads : Fin n → Head α} {i j k : Fin n} (h : Connected heads i j)
    (h' : Connected heads j k) : Connected heads i k :=
  Relation.EqvGen.trans i j k h h'

theorem Connected.symm {heads : Fin n → Head α} {i j : Fin n} (h : Connected heads i j) :
    Connected heads j i :=
  Relation.EqvGen.symm i j h

/-- The state of the loops behind the visits `done`: every index is connected with
its root, and every visited index has the root of the owner of the visited node. -/
structure United (heads : Fin n → Head α) (done : List (Fin n × ℕ)) (u : Unions n) : Prop where
  distinct : u.owners.keys.Nodup
  owned : ∀ node owner, u.owners.get? node = some owner → HasNode (heads owner) node
  sound : ∀ i, Connected heads i (u.forest.root i)
  joined : ∀ visit ∈ done, ∃ owner, u.owners.get? visit.2 = some owner ∧
    u.forest.root visit.1 = u.forest.root owner

theorem United.start (heads : Fin n → Head α) : United heads [] ⟨Forest.discrete n, []⟩ where
  distinct := List.nodup_nil
  owned _ _ h := by simp [Dict.get?] at h
  sound i := by
    rw [Forest.root_discrete]
    exact Relation.EqvGen.refl i
  joined _ h := absurd h List.not_mem_nil

/-- The owner that a visit leaves at its node. -/
theorem unite_owners {u : Unions n} (h : u.owners.keys.Nodup) (index : Fin n) (node node' : ℕ) :
    (unite u index node).owners.get? node' =
      if node' = node then some ((u.owners.get? node).getD index) else u.owners.get? node' := by
  by_cases hin : node ∈ u.owners.keys
  · obtain ⟨owner, howner⟩ := Option.ne_none_iff_exists'.mp fun hnone =>
      Dict.get?_eq_none.mp hnone hin
    simp only [unite, if_pos hin]
    split_ifs with heq
    · rw [heq, howner]
      rfl
    · rfl
  · simp only [unite, if_neg hin]
    rw [Dict.get?_set h, Dict.get?_eq_none.mpr hin]
    rfl

theorem United.unite {heads : Fin n → Head α} {done : List (Fin n × ℕ)} {u : Unions n}
    (h : United heads done u) {index : Fin n} {node : ℕ} (hnode : HasNode (heads index) node) :
    United heads (done ++ [(index, node)]) (unite u index node) := by
  set previous := (u.owners.get? node).getD index with hprevious
  have hforest : (Akasha.unite u index node).forest = u.forest.union index previous := rfl
  have hshared : HasNode (heads previous) node := by
    cases hget : u.owners.get? node with
    | none =>
        rw [hprevious, hget]
        exact hnode
    | some owner =>
        rw [hprevious, hget]
        exact h.owned node owner hget
  have hlink : Connected heads index previous :=
    Relation.EqvGen.rel _ _ ⟨node, hnode, hshared⟩
  have hroots : Connected heads (u.forest.root index) (u.forest.root previous) :=
    (h.sound index).symm.trans (hlink.trans (h.sound previous))
  constructor
  · rw [Akasha.unite]
    dsimp only
    split_ifs
    · exact h.distinct
    · exact Dict.nodup_keys_set h.distinct _ _
  · intro node' owner howner
    rw [unite_owners h.distinct] at howner
    split_ifs at howner with heq
    · rw [heq, ← Option.some.inj howner]
      exact hshared
    · exact h.owned node' owner howner
  · intro i
    rw [hforest]
    rcases u.forest.root_union_cases index previous i with hsame | ⟨hfrom, hto⟩
    · rw [hsame]
      exact h.sound i
    · have hi := h.sound i
      rcases hfrom with hfrom | hfrom <;> rcases hto with hto | hto <;> rw [hto] <;>
        rw [hfrom] at hi
      · exact hi
      · exact hi.trans hroots
      · exact hi.trans hroots.symm
      · exact hi
  · intro visit hvisit
    rw [hforest, unite_owners h.distinct]
    rcases List.mem_append.mp hvisit with hold | hnew
    · obtain ⟨owner, howner, hroot⟩ := h.joined visit hold
      split_ifs with heq
      · refine ⟨previous, rfl, ?_⟩
        have hsame : previous = owner := by rw [hprevious, ← heq, howner]; rfl
        rw [hsame]
        exact Forest.root_union_eq hroot _ _
      · exact ⟨owner, howner, Forest.root_union_eq hroot _ _⟩
    · rw [List.mem_singleton.mp hnew, if_pos rfl]
      exact ⟨previous, rfl, Forest.root_union_self _ _ _⟩

/-- The inner loop over the nodes of one head. -/
theorem United.head {heads : Fin n → Head α} {done : List (Fin n × ℕ)} {u : Unions n}
    (h : United heads done u) {index : Fin n} {entries : List (ℕ × α)}
    (hentries : ∀ e ∈ entries, HasNode (heads index) e.1) :
    United heads (done ++ entries.map fun e => (index, e.1))
      (entries.foldl (fun u entry => Akasha.unite u index entry.1) u) := by
  induction entries generalizing done u with
  | nil => simpa using h
  | cons e entries ih =>
      have hstep := h.unite (hentries e (List.mem_cons_self ..))
      have hrest := ih hstep fun e' he' => hentries e' (List.mem_cons_of_mem _ he')
      simpa using hrest

theorem united_foldl (heads : Fin n → Head α) {done : List (Fin n × ℕ)} {u : Unions n}
    (h : United heads done u) (indices : List (Fin n)) :
    United heads (done ++ indices.flatMap fun i => (heads i).seed.map fun e => (i, e.1))
      (indices.foldl
        (fun u index => (heads index).seed.foldl (fun u entry => unite u index entry.1) u) u) := by
  induction indices generalizing done u with
  | nil => simpa using h
  | cons i indices ih =>
      have hnodes : ∀ e ∈ (heads i).seed, HasNode (heads i) e.1 := fun e he => List.mem_map_of_mem he
      have hhead := h.head hnodes
      simpa using ih hhead

/-- The trees of the finished forest are the connected components. -/
theorem root_uniteAll (heads : Fin n → Head α) (i j : Fin n) :
    (uniteAll heads).forest.root i = (uniteAll heads).forest.root j ↔ Connected heads i j := by
  have h := united_foldl heads (United.start heads) (List.finRange n)
  rw [List.nil_append] at h
  have hjoined {i : Fin n} {node : ℕ} (hi : HasNode (heads i) node) :
      ∃ owner, (uniteAll heads).owners.get? node = some owner ∧
        (uniteAll heads).forest.root i = (uniteAll heads).forest.root owner := by
    obtain ⟨e, he, rfl⟩ := List.mem_map.mp hi
    exact h.joined (i, e.1) (List.mem_flatMap.mpr
      ⟨i, List.mem_finRange i, List.mem_map.mpr ⟨e, he, rfl⟩⟩)
  constructor
  · intro heq
    have hi := h.sound i
    have hj := h.sound j
    exact Connected.trans hi (heq ▸ hj.symm)
  · intro hconnected
    induction hconnected with
    | rel i j hshared =>
        obtain ⟨node, hi, hj⟩ := hshared
        obtain ⟨owner, howner, hrooti⟩ := hjoined hi
        obtain ⟨owner', howner', hrootj⟩ := hjoined hj
        have hsame : owner = owner' := Option.some.inj (howner.symm.trans howner')
        rw [hrooti, hrootj, hsame]
    | refl i => rfl
    | symm i j _ ih => exact ih.symm
    | trans i j k _ _ ih ih' => exact ih.trans ih'

/-! ## Groups -/

/-- `grouped.setdefault(find(index), []).append(index)`. -/
def group (found : Forest n × Dict (Fin n) (List (Fin n))) (index : Fin n) :
    Forest n × Dict (Fin n) (List (Fin n)) :=
  let (forest, root) := found.1.find index
  (forest, found.2.set root ((found.2.get? root).getD [] ++ [index]))

/-- `grouped.values()` behind the last loop. -/
def groups (forest : Forest n) : List (List (Fin n)) :=
  (((List.finRange n).foldl group (forest, [])).2).map Prod.snd

/-- The groups behind the indices `done`: each holds the visited indices of one tree. -/
structure Grouped (f : Forest n) (done : List (Fin n))
    (found : Forest n × Dict (Fin n) (List (Fin n))) : Prop where
  roots : ∀ i, found.1.root i = f.root i
  distinct : found.2.keys.Nodup
  members : ∀ e ∈ found.2, e.2 = done.filter (f.root · = e.1) ∧ e.2 ≠ []
  keyed : ∀ i ∈ done, f.root i ∈ found.2.keys
  flat : (found.2.flatMap Prod.snd).Perm done

theorem Grouped.start (f : Forest n) : Grouped f [] (f, []) where
  roots _ := rfl
  distinct := List.nodup_nil
  members _ h := absurd h List.not_mem_nil
  keyed _ h := absurd h List.not_mem_nil
  flat := List.Perm.nil

theorem Grouped.group {f : Forest n} {done : List (Fin n)}
    {found : Forest n × Dict (Fin n) (List (Fin n))} (h : Grouped f done found) (i : Fin n) :
    Grouped f (done ++ [i]) (group found i) := by
  obtain ⟨hroot, hkept⟩ := found.1.find_spec i
  rw [h.roots] at hroot
  have hgroup : Akasha.group found i = ((found.1.find i).1,
      found.2.set (f.root i) ((found.2.get? (f.root i)).getD [] ++ [i])) := by
    rw [Akasha.group, ← hroot]
  have hdone (r : Fin n) : (done ++ [i]).filter (f.root · = r) =
      done.filter (f.root · = r) ++ if f.root i = r then [i] else [] := by
    rw [List.filter_append]
    split_ifs with hr
    · simp [hr]
    · simp [hr]
  rw [hgroup]
  constructor
  · intro j
    rw [hkept, h.roots]
  · exact Dict.nodup_keys_set h.distinct _ _
  · intro e he
    rcases Dict.mem_set.mp he with rfl | ⟨hne, hold⟩
    · refine ⟨?_, by simp⟩
      rw [hdone, if_pos rfl]
      cases hget : found.2.get? (f.root i) with
      | some members =>
          have hmembers := (h.members _ (Dict.mem_of_get? hget)).1
          dsimp only at hmembers ⊢
          rw [Option.getD_some, hmembers]
      | none =>
          have hnone : done.filter (f.root · = f.root i) = [] := by
            refine List.filter_eq_nil_iff.mpr fun j hj hsame => ?_
            have hkey := h.keyed j hj
            rw [of_decide_eq_true hsame] at hkey
            exact Dict.get?_eq_none.mp hget hkey
          rw [hnone]
          rfl
    · obtain ⟨hmembers, hnonempty⟩ := h.members e hold
      refine ⟨?_, hnonempty⟩
      rw [hdone, if_neg (Ne.symm hne), List.append_nil]
      exact hmembers
  · intro j hj
    rw [Dict.keys_set]
    rcases List.mem_append.mp hj with hold | hnew
    · have hkey := h.keyed j hold
      split_ifs
      · exact hkey
      · exact List.mem_append_left _ hkey
    · rw [List.mem_singleton.mp hnew]
      split_ifs with hin
      · exact hin
      · simp
  · cases hget : found.2.get? (f.root i) with
    | none =>
        rw [Dict.set, if_neg (Dict.get?_eq_none.mp hget)]
        simpa using h.flat.append_right [i]
    | some members =>
        obtain ⟨l, r, hd, hset, -, -⟩ :=
          Dict.split_of_get? h.distinct hget (members ++ [i])
        rw [Option.getD_some, hset]
        have hflat := h.flat
        rw [hd] at hflat
        simp only [List.flatMap_append, List.flatMap_cons] at hflat ⊢
        refine List.Perm.trans ?_ (hflat.append_right [i])
        simp only [List.append_assoc]
        refine List.Perm.append_left _ (List.Perm.append_left _ ?_)
        exact List.perm_append_comm

theorem grouped_foldl {f : Forest n} {done : List (Fin n)}
    {found : Forest n × Dict (Fin n) (List (Fin n))} (h : Grouped f done found)
    (indices : List (Fin n)) : Grouped f (done ++ indices) (indices.foldl Akasha.group found) := by
  induction indices generalizing done found with
  | nil => simpa using h
  | cons i indices ih => simpa using ih (h.group i)

/-- The groups are the trees, none empty, and together hold every index once. -/
theorem groups_spec (f : Forest n) :
    (groups f).flatten.Perm (List.finRange n) ∧
      (∀ members ∈ groups f, members ≠ [] ∧ ∃ r, members = (List.finRange n).filter (f.root · = r)) := by
  have h := grouped_foldl (Grouped.start f) (List.finRange n)
  rw [List.nil_append] at h
  constructor
  · rw [groups, ← List.flatMap_def]
    exact h.flat
  · intro members hmembers
    obtain ⟨e, he, rfl⟩ := List.mem_map.mp hmembers
    obtain ⟨heq, hnonempty⟩ := h.members e he
    exact ⟨hnonempty, e.1, heq⟩

/-- Two indices of one group are connected, and whatever is connected with a member
is a member. -/
theorem mem_group_iff {heads : Fin n → Head α} {members : List (Fin n)}
    (h : members ∈ groups (uniteAll heads).forest) {i : Fin n} (hi : i ∈ members) (j : Fin n) :
    j ∈ members ↔ Connected heads i j := by
  obtain ⟨-, r, hr⟩ := (groups_spec (uniteAll heads).forest).2 members h
  have hroot : (uniteAll heads).forest.root i = r := by
    rw [hr] at hi
    exact of_decide_eq_true (List.mem_filter.mp hi).2
  rw [hr, ← root_uniteAll, hroot]
  simp [eq_comm]

end MonoAgent.Akasha
