import MonoAgent.Profiles.Store

/-!
# Draining the queues of the sessions

Every session has a queue in the order of the generations, and the head that came first is
taken, again and again.  What comes out is a permutation of what went in (`drainItems_spec`) and
`Greedy`: at every place stands the next item of its session, and no session has a next item
that came earlier.
-/

namespace MonoAgent.Profiles

open MonoAgent.Lib

/-- The order of a queue. -/
def Before (a b : Pending) : Prop :=
  a.generation < b.generation ∨ a.generation = b.generation ∧ a.position < b.position

theorem Before.asymm {a b : Pending} (h : Before a b) : ¬ Before b a := by
  unfold Before at h ⊢
  omega

/-- An item that is the first of its session among the items. -/
def Next (items : List Pending) (y : Pending) : Prop :=
  ∀ z ∈ items, z.sessionKey = y.sessionKey → z = y ∨ Before y z

/-- The first item is the next one of its session and came before those of the others. -/
def Greedy : List Pending → Prop
  | [] => True
  | x :: rest =>
      (∀ y ∈ rest, y.sessionKey = x.sessionKey → Before x y) ∧
      (∀ y ∈ rest, Next (x :: rest) y → x.position ≤ y.position) ∧ Greedy rest

/-- The items of all queues. -/
def Queues.items (queues : Queues) : List Pending := queues.flatMap Prod.snd

/-- Queues of the sessions, none of them empty. -/
structure Queued (queues : Queues) : Prop where
  nodup : queues.keys.Nodup
  filled : ∀ q ∈ queues, q.2 ≠ []
  session : ∀ q ∈ queues, ∀ item ∈ q.2, item.sessionKey = q.1
  ordered : ∀ q ∈ queues, q.2.Pairwise Before

/-! ## Changing one queue -/

theorem items_set {queues : Queues} (hnd : queues.keys.Nodup) {key : String} {before after : List Pending}
    (h : queues.get? key = some before) (front : List Pending)
    (heq : before.Perm (front ++ after)) :
    queues.items.Perm (front ++ Queues.items (queues.set key after)) := by
  obtain ⟨l, r, hqueues, hset, -, -⟩ := Dict.split_of_get? hnd h after
  rw [hset, hqueues, Queues.items, Queues.items, List.flatMap_append, List.flatMap_append,
    List.flatMap_cons, List.flatMap_cons]
  have hmiddle := (heq.append_right (List.flatMap Prod.snd r)).append_left (List.flatMap Prod.snd l)
  refine hmiddle.trans ?_
  rw [List.append_assoc, ← List.append_assoc]
  refine (List.Perm.append_right _ List.perm_append_comm).trans ?_
  rw [List.append_assoc]

theorem items_pop {queues : Queues} (hnd : queues.keys.Nodup) {key : String} {item : Pending}
    (h : queues.get? key = some [item]) : queues.items.Perm (item :: Queues.items (Dict.pop queues key)) := by
  obtain ⟨l, r, hqueues, -, hl, hr⟩ := Dict.split_of_get? hnd h [item]
  have hkeepl : l.filter (fun e => e.1 ≠ key) = l :=
    List.filter_eq_self.mpr fun e he => by simpa using hl e he
  have hkeepr : r.filter (fun e => e.1 ≠ key) = r :=
    List.filter_eq_self.mpr fun e he => by simpa using hr e he
  have hpop : Dict.pop queues key = l ++ r := by
    rw [Dict.pop, hqueues, List.filter_append, List.filter_cons_of_neg (by simp), hkeepl, hkeepr]
  rw [hpop, hqueues, Queues.items, Queues.items, List.flatMap_append, List.flatMap_append,
    List.flatMap_cons]
  exact List.perm_middle

theorem queued_set {queues : Queues} (h : Queued queues) {key : String} {list : List Pending}
    (hne : list ≠ []) (hsession : ∀ item ∈ list, item.sessionKey = key) (hordered : list.Pairwise Before) :
    Queued (queues.set key list) := by
  refine ⟨Dict.nodup_keys_set h.nodup _ _, fun q hq => ?_, fun q hq => ?_, fun q hq => ?_⟩
  · rcases Dict.mem_set.mp hq with rfl | ⟨-, hq⟩
    · exact hne
    · exact h.filled q hq
  · rcases Dict.mem_set.mp hq with rfl | ⟨-, hq⟩
    · exact hsession
    · exact h.session q hq
  · rcases Dict.mem_set.mp hq with rfl | ⟨-, hq⟩
    · exact hordered
    · exact h.ordered q hq

theorem queued_pop {queues : Queues} (h : Queued queues) (key : String) : Queued (Dict.pop queues key) := by
  have hmem {q : String × List Pending} (hq : q ∈ Dict.pop queues key) : q ∈ queues := (Dict.mem_pop.mp hq).1
  exact ⟨Dict.nodup_keys_filter h.nodup _, fun q hq => h.filled q (hmem hq),
    fun q hq => h.session q (hmem hq), fun q hq => h.ordered q (hmem hq)⟩

/-! ## The queue whose head comes first -/

theorem firstQueue_spec {queues : Queues} {best : String × List Pending} (h : firstQueue queues = some best) :
    best ∈ queues ∧ ∀ q ∈ queues, headPosition best ≤ headPosition q := by
  induction queues generalizing best with
  | nil => cases h
  | cons q rest ih =>
      rw [firstQueue] at h
      cases hrest : firstQueue rest with
      | none =>
          rw [hrest] at h
          cases h
          have hnil : rest = [] := by
            cases rest with
            | nil => rfl
            | cons q' rest' =>
                rw [firstQueue] at hrest
                split at hrest
                · cases hrest
                · split at hrest
                  · cases hrest
                  · cases hrest
          rw [hnil]
          simp
      | some other =>
          obtain ⟨hmem, hle⟩ := ih hrest
          rw [hrest] at h
          dsimp only at h
          split at h
          · next hlt =>
              cases h
              refine ⟨List.mem_cons_of_mem _ hmem, fun q' hq' => ?_⟩
              rcases List.mem_cons.mp hq' with rfl | hq'
              · exact Nat.le_of_lt hlt
              · exact hle q' hq'
          · next hnot =>
              cases h
              refine ⟨List.mem_cons_self .., fun q' hq' => ?_⟩
              rcases List.mem_cons.mp hq' with rfl | hq'
              · exact Nat.le_refl _
              · exact (Nat.le_of_not_lt hnot).trans (hle q' hq')

theorem firstQueue_some {queues : Queues} (h : queues ≠ []) : ∃ best, firstQueue queues = some best := by
  cases queues with
  | nil => exact absurd rfl h
  | cons q rest =>
      rw [firstQueue]
      split
      · exact ⟨_, rfl⟩
      · split
        · exact ⟨_, rfl⟩
        · exact ⟨_, rfl⟩

/-- `drainQueues` with the items. -/
def drainItems : Nat → Queues → List Pending
  | 0, _ => []
  | n + 1, queues =>
      match firstQueue queues with
      | some (key, item :: rest) =>
          item :: drainItems n (if rest = [] then Dict.pop queues key else queues.set key rest)
      | _ => []

theorem drainQueues_eq (n : Nat) (queues : Queues) :
    drainQueues n queues = (drainItems n queues).map Pending.sourceRef := by
  induction n generalizing queues with
  | zero => rfl
  | succ n ih =>
      rw [drainQueues, drainItems]
      cases firstQueue queues with
      | none => rfl
      | some best =>
          obtain ⟨key, list⟩ := best
          cases list with
          | nil => rfl
          | cons item rest =>
              dsimp only
              rw [List.map_cons, ih]

/-- Taking the head of the first queue. -/
theorem take_first {queues : Queues} (h : Queued queues) {key : String} {item : Pending} {rest : List Pending}
    (hfirst : firstQueue queues = some (key, item :: rest)) :
    let queues' := if rest = [] then Dict.pop queues key else queues.set key rest
    Queued queues' ∧ queues.items.Perm (item :: Queues.items queues') ∧
      (∀ y ∈ Queues.items queues', y.sessionKey = item.sessionKey → Before item y) ∧
      ∀ y ∈ Queues.items queues', Next queues.items y → item.position ≤ y.position := by
  obtain ⟨hmem, hle⟩ := firstQueue_spec hfirst
  have hget := Dict.get?_of_mem h.nodup hmem
  have hordered := List.pairwise_cons.mp (h.ordered _ hmem)
  have hsession := h.session _ hmem
  have hperm : queues.items.Perm
      (item :: Queues.items (if rest = [] then Dict.pop queues key else queues.set key rest)) := by
    split
    · next hnil => exact items_pop h.nodup (hnil ▸ hget)
    · exact items_set h.nodup hget [item] (List.Perm.refl _)
  have hqueued : Queued (if rest = [] then Dict.pop queues key else queues.set key rest) := by
    split
    · exact queued_pop h key
    · next hne => exact queued_set h hne (fun i hi => hsession i (List.mem_cons_of_mem _ hi)) hordered.2
  refine ⟨hqueued, hperm, fun y hy hkey => ?_, fun y hy hnext => ?_⟩
  · -- what is left of the session is the rest of its queue
    have hin : y ∈ rest := by
      obtain ⟨q, hq, hyq⟩ := List.mem_flatMap.mp hy
      have hkeys : y.sessionKey = q.1 := hqueued.session q hq y hyq
      rw [hkey, hsession item (List.mem_cons_self ..)] at hkeys
      dsimp only at hkeys
      split at hq
      · exact absurd hkeys.symm (Dict.mem_pop.mp hq).2
      · rcases Dict.mem_set.mp hq with rfl | ⟨hne, -⟩
        · exact hyq
        · exact absurd hkeys.symm hne
    exact hordered.1 y hin
  · have hold : y ∈ queues.items := hperm.mem_iff.mpr (List.mem_cons_of_mem _ hy)
    obtain ⟨q, hq, hyq⟩ := List.mem_flatMap.mp hold
    have hhead : headPosition q = y.position := by
      obtain ⟨key', list⟩ := q
      cases list with
      | nil => cases hyq
      | cons head tail =>
          rcases List.mem_cons.mp hyq with rfl | htail
          · rfl
          · have hbefore := (List.pairwise_cons.mp (h.ordered _ hq)).1 y htail
            have hsame : head.sessionKey = y.sessionKey :=
              (h.session _ hq head (List.mem_cons_self ..)).trans (h.session _ hq y hyq).symm
            have hheadIn : head ∈ queues.items := List.mem_flatMap.mpr ⟨_, hq, List.mem_cons_self ..⟩
            rcases hnext head hheadIn hsame with heq | hafter
            · rw [← heq]
              rfl
            · exact absurd hafter hbefore.asymm
    have hfirstle := hle q hq
    rw [hhead] at hfirstle
    exact hfirstle

theorem Next.perm {items items' : List Pending} (h : items.Perm items') {y : Pending} (hy : Next items y) :
    Next items' y :=
  fun z hz => hy z (h.mem_iff.mpr hz)

theorem drainItems_spec {n : Nat} {queues : Queues} (h : Queued queues) (hn : queues.items.length = n) :
    (drainItems n queues).Perm queues.items ∧ Greedy (drainItems n queues) := by
  induction n generalizing queues with
  | zero =>
      rw [List.length_eq_zero_iff.mp hn]
      exact ⟨List.Perm.refl _, trivial⟩
  | succ n ih =>
      have hne : queues ≠ [] := by
        rintro rfl
        cases hn
      obtain ⟨⟨key, list⟩, hfirst⟩ := firstQueue_some hne
      obtain ⟨item, rest, rfl⟩ := List.exists_cons_of_ne_nil (h.filled _ (firstQueue_spec hfirst).1)
      obtain ⟨hqueued, hperm, hsession, hearliest⟩ := take_first h hfirst
      have hlength := hperm.length_eq
      rw [hn, List.length_cons] at hlength
      obtain ⟨hdrain, hgreedy⟩ := ih hqueued (Nat.succ.inj hlength).symm
      rw [drainItems, hfirst]
      dsimp only
      refine ⟨(hdrain.cons item).trans hperm.symm, fun y hy => ?_, fun y hy hnext => ?_, hgreedy⟩
      · exact hsession y (hdrain.mem_iff.mp hy)
      · refine hearliest y (hdrain.mem_iff.mp hy) ?_
        exact hnext.perm ((hdrain.cons item).trans hperm.symm)

/-! ## Building the queues -/

/-- Sorting by the generation keeps items of one generation in their places. -/
theorem before_orderedInsert {a : Pending} {l : List Pending} (hl : l.Pairwise Before)
    (ha : ∀ b ∈ l, a.position < b.position) :
    (l.orderedInsert (fun a b => a.generation ≤ b.generation) a).Pairwise Before := by
  induction l with
  | nil => simp
  | cons b l ih =>
      obtain ⟨hb, hrest⟩ := List.pairwise_cons.mp hl
      rw [List.orderedInsert]
      split
      · next hle =>
          refine List.pairwise_cons.mpr ⟨fun c hc => ?_, hl⟩
          have hpos := ha c hc
          have hbc : b.generation ≤ c.generation := by
            rcases List.mem_cons.mp hc with rfl | hc
            · exact Nat.le_refl _
            · rcases hb c hc with hlt | ⟨heq, -⟩
              · exact Nat.le_of_lt hlt
              · exact heq.le
          unfold Before
          omega
      · next hnot =>
          refine List.pairwise_cons.mpr ⟨fun c hc => ?_, ih hrest fun c hc => ha c (List.mem_cons_of_mem _ hc)⟩
          rcases List.mem_cons.mp ((List.perm_orderedInsert _ a l).mem_iff.mp hc) with rfl | hc
          · exact Or.inl (Nat.lt_of_not_le hnot)
          · exact hb c hc

theorem before_insertionSort {l : List Pending} (hl : l.Pairwise fun a b => a.position < b.position) :
    (l.insertionSort fun a b => a.generation ≤ b.generation).Pairwise Before := by
  induction l with
  | nil => exact List.Pairwise.nil
  | cons a l ih =>
      obtain ⟨ha, hrest⟩ := List.pairwise_cons.mp hl
      refine before_orderedInsert (ih hrest) fun b hb => ha b ?_
      exact (List.perm_insertionSort _ l).mem_iff.mp hb

/-- Queues while they are filled, in the order of the positions. -/
structure Filling (queues : Queues) : Prop where
  nodup : queues.keys.Nodup
  filled : ∀ q ∈ queues, q.2 ≠ []
  session : ∀ q ∈ queues, ∀ item ∈ q.2, item.sessionKey = q.1
  ordered : ∀ q ∈ queues, q.2.Pairwise fun a b => a.position < b.position

theorem fill_one {queues : Queues} (h : Filling queues) {item : Pending}
    (hlast : ∀ y ∈ queues.items, y.position < item.position) :
    let queues' := queues.set item.sessionKey ((queues.get? item.sessionKey).getD [] ++ [item])
    Filling queues' ∧ (Queues.items queues').Perm (item :: queues.items) := by
  set list := (queues.get? item.sessionKey).getD [] with hlist
  have hin (y : Pending) (hy : y ∈ list) : (item.sessionKey, list) ∈ queues := by
    cases hget : queues.get? item.sessionKey with
    | none =>
        rw [hlist, hget] at hy
        cases hy
    | some before =>
        rw [hlist, hget]
        exact Dict.mem_of_get? hget
  have hposition (y : Pending) (hy : y ∈ list) : y.position < item.position :=
    hlast y (List.mem_flatMap.mpr ⟨_, hin y hy, hy⟩)
  have hordered : (list ++ [item]).Pairwise fun a b => a.position < b.position := by
    refine List.pairwise_append.mpr ⟨?_, List.pairwise_singleton _ _, fun y hy z hz => ?_⟩
    · cases hget : queues.get? item.sessionKey with
      | none =>
          rw [hlist, hget]
          exact List.Pairwise.nil
      | some before =>
          rw [hlist, hget]
          exact h.ordered _ (Dict.mem_of_get? hget)
    · rw [List.mem_singleton.mp hz]
      exact hposition y hy
  refine ⟨⟨Dict.nodup_keys_set h.nodup _ _, fun q hq => ?_, fun q hq => ?_, fun q hq => ?_⟩, ?_⟩
  · rcases Dict.mem_set.mp hq with rfl | ⟨-, hq⟩
    · simp
    · exact h.filled q hq
  · rcases Dict.mem_set.mp hq with rfl | ⟨-, hq⟩
    · intro y hy
      rcases List.mem_append.mp hy with hy | hy
      · exact h.session _ (hin y hy) y hy
      · rw [List.mem_singleton.mp hy]
    · exact h.session q hq
  · rcases Dict.mem_set.mp hq with rfl | ⟨-, hq⟩
    · exact hordered
    · exact h.ordered q hq
  · cases hget : queues.get? item.sessionKey with
    | none =>
        have hnew := Dict.get?_eq_none.mp hget
        rw [hlist, hget, Dict.set, if_neg hnew, Queues.items, List.flatMap_append]
        exact List.perm_append_comm
    | some before =>
        obtain ⟨l, r, hqueues, hset, -, -⟩ := Dict.split_of_get? h.nodup hget (before ++ [item])
        rw [hlist, hget, Option.getD_some, hset, hqueues]
        simp only [Queues.items, List.flatMap_append, List.flatMap_cons, List.append_assoc,
          List.singleton_append]
        exact (List.Perm.append_left _ List.perm_middle).trans List.perm_middle

theorem fill_all {pending : List Pending} (hp : pending.Pairwise fun a b => a.position < b.position)
    {queues : Queues} (h : Filling queues) (hlast : ∀ y ∈ queues.items, ∀ x ∈ pending, y.position < x.position) :
    let queues' := pending.foldl (fun (queues : Queues) item =>
      queues.set item.sessionKey ((queues.get? item.sessionKey).getD [] ++ [item])) queues
    Filling queues' ∧ (Queues.items queues').Perm (queues.items ++ pending) := by
  induction pending generalizing queues with
  | nil => exact ⟨h, by simp⟩
  | cons item rest ih =>
      obtain ⟨hitem, hrest⟩ := List.pairwise_cons.mp hp
      obtain ⟨hone, hperm⟩ := fill_one h fun y hy => hlast y hy item (List.mem_cons_self ..)
      obtain ⟨hall, hperm'⟩ := ih hrest hone fun y hy x hx => by
        rcases List.mem_cons.mp (hperm.mem_iff.mp hy) with rfl | hy
        · exact hitem x hx
        · exact hlast y hy x (List.mem_cons_of_mem _ hx)
      rw [List.foldl_cons]
      refine ⟨hall, hperm'.trans ((hperm.append_right rest).trans ?_)⟩
      exact List.perm_middle.symm

theorem perm_flatMap {α β : Type} {f g : α → List β} (h : ∀ a, (f a).Perm (g a)) (l : List α) :
    (l.flatMap f).Perm (l.flatMap g) := by
  induction l with
  | nil => exact List.Perm.refl _
  | cons a l ih =>
      rw [List.flatMap_cons, List.flatMap_cons]
      exact (h a).append ih

theorem buildQueues_spec {pending : List Pending} (hp : pending.Pairwise fun a b => a.position < b.position) :
    Queued (buildQueues pending) ∧ (Queues.items (buildQueues pending)).Perm pending := by
  have hempty : Filling [] := ⟨List.nodup_nil, by simp, by simp, by simp⟩
  obtain ⟨hfilling, hperm⟩ := fill_all hp hempty fun y hy => by cases hy
  set queues := pending.foldl (fun (queues : Queues) item =>
    queues.set item.sessionKey ((queues.get? item.sessionKey).getD [] ++ [item])) [] with hqueues
  have hbuild : buildQueues pending =
      queues.map fun q => (q.1, q.2.insertionSort fun a b => a.generation ≤ b.generation) := rfl
  have hsorted (q : String × List Pending) := List.perm_insertionSort
    (fun a b : Pending => a.generation ≤ b.generation) q.2
  rw [hbuild]
  refine ⟨⟨?_, fun q' hq' => ?_, fun q' hq' item hitem => ?_, fun q' hq' => ?_⟩, ?_⟩
  · rw [Dict.keys, List.map_map]
    exact hfilling.nodup
  · obtain ⟨q, hq, rfl⟩ := List.mem_map.mp hq'
    intro hnil
    have hperm' := hsorted q
    dsimp only at hnil
    rw [hnil] at hperm'
    exact hfilling.filled q hq hperm'.nil_eq.symm
  · obtain ⟨q, hq, rfl⟩ := List.mem_map.mp hq'
    exact hfilling.session q hq item ((hsorted q).mem_iff.mp hitem)
  · obtain ⟨q, hq, rfl⟩ := List.mem_map.mp hq'
    exact before_insertionSort (hfilling.ordered q hq)
  · refine List.Perm.trans ?_ (by simpa [Queues.items] using hperm)
    rw [Queues.items, List.flatMap_map]
    exact perm_flatMap hsorted queues

/-- What `pending_source_refs` makes of the rows. -/
theorem drain_spec {pending : List Pending} (hp : pending.Pairwise fun a b => a.position < b.position) :
    ∃ items, drainQueues pending.length (buildQueues pending) = items.map Pending.sourceRef ∧
      items.Perm pending ∧ Greedy items := by
  obtain ⟨hqueued, hperm⟩ := buildQueues_spec hp
  obtain ⟨hdrain, hgreedy⟩ := drainItems_spec hqueued hperm.length_eq
  exact ⟨_, drainQueues_eq _ _, hdrain.trans hperm, hgreedy⟩

end MonoAgent.Profiles
