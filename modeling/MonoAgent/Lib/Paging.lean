import Mathlib

/-!
# Windows of a sorted list, and walks over pages

A `window` of a list whose elements strictly increase along a measure holds the
elements strictly between two positions.  Cutting a window at one of its elements
leaves a window on each side, so that a reader that returns a piece of a window
and the position of its edge has named what remains.

A `Pager` reads one page at a cursor and says whether there is more.  `walk`
follows it through successive moments of a growing store, and `walk_covers` is
the only induction over walks: when each page covers the front of what remains at
its cursor, the walk covers it all.
-/

namespace MonoAgent.Lib

/-! ## Windows -/

section Window

variable {α β : Type*} [LinearOrder β] {f : α → β} {a b : β} {l : List α}

/-- The elements strictly between two positions. -/
def window (f : α → β) (a b : β) (l : List α) : List α :=
  l.filter fun x => a < f x ∧ f x < b

theorem mem_window {x : α} : x ∈ window f a b l ↔ x ∈ l ∧ a < f x ∧ f x < b := by
  simp [window]

theorem window_sorted (h : l.Pairwise fun x y => f x < f y) :
    (window f a b l).Pairwise fun x y => f x < f y :=
  h.sublist List.filter_sublist

/-- A window of a window, when the inner one is the narrower. -/
theorem window_window {c d : β} (hac : a ≤ c) (hdb : d ≤ b) :
    window f c d (window f a b l) = window f c d l := by
  rw [window, window, List.filter_filter, window]
  refine List.filter_congr fun x _ => ?_
  by_cases h : c < f x ∧ f x < d
  · have ha : a < f x := lt_of_le_of_lt hac h.1
    have hb : f x < b := lt_of_lt_of_le h.2 hdb
    simp [h, ha, hb]
  · simp [h]

/-- An element of a window cuts it into two windows. -/
theorem window_cut (h : l.Pairwise fun x y => f x < f y) {pre post : List α} {x : α}
    (hw : window f a b l = pre ++ x :: post) :
    window f a (f x) l = pre ∧ window f (f x) b l = post := by
  have hx : x ∈ window f a b l := by simp [hw]
  obtain ⟨_, hax, hxb⟩ := mem_window.mp hx
  have hsorted : (pre ++ x :: post).Pairwise fun x y => f x < f y := hw ▸ window_sorted h
  obtain ⟨_, hright, hcross⟩ := List.pairwise_append.mp hsorted
  obtain ⟨hpost, _⟩ := List.pairwise_cons.mp hright
  have hpre : ∀ y ∈ pre, f y < f x := fun y hy => hcross y hy x List.mem_cons_self
  have hin : ∀ y ∈ pre ++ x :: post, a < f y ∧ f y < b := by
    intro y hy
    rw [← hw] at hy
    exact (mem_window.mp hy).2
  constructor
  · have hleft : window f a (f x) pre = pre := by
      refine List.filter_eq_self.mpr fun y hy => ?_
      simpa [hpre y hy] using (hin y (List.mem_append_left _ hy)).1
    have hnone : window f a (f x) (x :: post) = [] := by
      refine List.filter_eq_nil_iff.mpr fun y hy => ?_
      rcases List.mem_cons.mp hy with rfl | hy
      · simp
      · simp [not_lt.mpr (hpost y hy).le]
    have hsplit : window f a (f x) (pre ++ x :: post) =
        window f a (f x) pre ++ window f a (f x) (x :: post) := List.filter_append ..
    rw [← window_window (le_refl a) hxb.le, hw, hsplit, hleft, hnone, List.append_nil]
  · have hleft : window f (f x) b pre = [] := by
      refine List.filter_eq_nil_iff.mpr fun y hy => ?_
      simp [not_lt.mpr (hpre y hy).le]
    have hself : window f (f x) b (x :: post) = post := by
      have hhead : window f (f x) b (x :: post) = window f (f x) b post := by
        simp [window]
      rw [hhead]
      refine List.filter_eq_self.mpr fun y hy => ?_
      have hb := (hin y (List.mem_append_right _ (List.mem_cons_of_mem x hy))).2
      simp [hpost y hy, hb]
    have hsplit : window f (f x) b (pre ++ x :: post) =
        window f (f x) b pre ++ window f (f x) b (x :: post) := List.filter_append ..
    rw [← window_window hax.le (le_refl b), hw, hsplit, hleft, hself, List.nil_append]

/-- Behind a front part of a window remains the window past its last element. -/
theorem window_front (h : l.Pairwise fun x y => f x < f y) {pre post : List α} (hpre : pre ≠ [])
    (hw : window f a b l = pre ++ post) :
    ∃ x ∈ window f a b l, pre.getLast? = some x ∧ window f (f x) b l = post := by
  obtain ⟨init, x, rfl⟩ := (List.eq_nil_or_concat pre).resolve_left hpre
  have hsplit : window f a b l = init ++ x :: post := by simpa using hw
  exact ⟨x, by simp [hsplit], by simp, (window_cut h hsplit).2⟩

/-- Before a back part of a window remains the window up to its first element. -/
theorem window_back (h : l.Pairwise fun x y => f x < f y) {pre post : List α} (hpost : post ≠ [])
    (hw : window f a b l = pre ++ post) :
    ∃ x ∈ window f a b l, post.head? = some x ∧ window f a (f x) l = pre := by
  obtain ⟨x, rest, rfl⟩ := List.exists_cons_of_ne_nil hpost
  exact ⟨x, by simp [hw], rfl, (window_cut h hw).1⟩

/-- What remains behind the first `n` elements of a window is the window past the
last of them. -/
theorem window_take (h : l.Pairwise fun x y => f x < f y) {n : Nat} (hn : 0 < n)
    (hlt : n < (window f a b l).length) :
    ∃ x, ((window f a b l).take n).getLast? = some x ∧ x ∈ window f a b l ∧
      window f (f x) b l = (window f a b l).drop n := by
  have hne : (window f a b l).take n ≠ [] := by
    intro hnil
    have hlen := congrArg List.length hnil
    rw [List.length_take, List.length_nil] at hlen
    omega
  obtain ⟨x, hx, hlast, hrest⟩ := window_front h hne (List.take_append_drop n _).symm
  exact ⟨x, hlast, hx, hrest⟩

/-- What remains before the last elements of a window is the window up to the
first of them. -/
theorem window_drop (h : l.Pairwise fun x y => f x < f y) {k : Nat}
    (hlt : k < (window f a b l).length) :
    ∃ x, ((window f a b l).drop k).head? = some x ∧ x ∈ window f a b l ∧
      window f a (f x) l = (window f a b l).take k := by
  have hne : (window f a b l).drop k ≠ [] := by
    intro hnil
    have hlen := congrArg List.length hnil
    rw [List.length_drop, List.length_nil] at hlen
    omega
  obtain ⟨x, hx, hfirst, hrest⟩ := window_back h hne (List.take_append_drop k _).symm
  exact ⟨x, hfirst, hx, hrest⟩

/-- Elements past the window do not show in it. -/
theorem window_append {more : List α} (h : ∀ x ∈ more, b ≤ f x) :
    window f a b (l ++ more) = window f a b l := by
  have hnone : more.filter (fun x => decide (a < f x ∧ f x < b)) = [] := by
    refine List.filter_eq_nil_iff.mpr fun x hx => ?_
    simp [not_lt.mpr (h x hx)]
  rw [window, List.filter_append, hnone, List.append_nil, window]

end Window

/-! ## Walks -/

/-- A reader of pages `π` at a moment `τ` and a cursor `κ`. -/
structure Pager (τ κ ε π : Type) where
  read : τ → κ → Except ε π
  more : π → Bool
  /-- The cursor of the page behind one that was read. -/
  next : π → κ

namespace Pager

variable {τ κ ε π α : Type} (p : Pager τ κ ε π)

/-- Read on until a page says there is no more.  Each page is read at a moment of
its own. -/
def walk : κ → List τ → Except ε (List π)
  | _, [] => .ok []
  | c, t :: ts => do
      let page ← p.read t c
      if p.more page then
        let pages ← walk (p.next page) ts
        return page :: pages
      else return [page]

/-- A request of a walk: it reads the moment at the cursor. -/
inductive Asks : κ → List τ → τ → κ → Prop where
  | first {c : κ} {t : τ} {ts : List τ} : Asks c (t :: ts) t c
  | next {c c' : κ} {t t' : τ} {ts : List τ} {page : π} (hread : p.read t c = .ok page)
      (hmore : p.more page = true) (hrest : Asks (p.next page) ts t' c') : Asks c (t :: ts) t' c'

/-- At `c`, where `rest c` remains, a page was read: it holds the front of what
remains, and there is more exactly when something is left behind it. -/
structure Covers (items : π → List α) (rest : κ → List α) (valid : κ → Prop) (c : κ)
    (page : π) : Prop where
  last : p.more page = false → rest c = items page
  next : p.more page = true → valid (p.next page) ∧ items page ≠ [] ∧
    rest (p.next page) ≠ [] ∧ rest c = items page ++ rest (p.next page)

/-- What a finished walk says about its pages: `more` is true exactly at those
with something behind them. -/
def Exact (items : π → List α) (pages : List π) : Prop :=
  ∀ before page after, pages = before ++ page :: after →
    (p.more page = true ↔ after.flatMap items ≠ [])

/-- The first page of a walk may be asked for in two ways. -/
theorem walk_first {t : τ} {c c' : κ} (h : p.read t c = p.read t c') (ts : List τ) :
    p.walk c (t :: ts) = p.walk c' (t :: ts) := by
  rw [walk, walk, h]

variable {p} {items : π → List α} {rest : κ → List α} {valid : κ → Prop}

theorem Asks.mem {c c' : κ} {ts : List τ} {t : τ} (h : p.Asks c ts t c') : t ∈ ts := by
  induction h with
  | first => exact List.mem_cons_self
  | next _ _ _ ih => exact List.mem_cons_of_mem _ ih

/-- The cursors of a walk stay valid, when the pages that are read name valid ones. -/
theorem Asks.cursor {c c' : κ} {ts : List τ} {t : τ} (h : p.Asks c ts t c')
    (hnext : ∀ t ∈ ts, ∀ c page, valid c → p.read t c = .ok page → p.more page = true → valid (p.next page))
    (hc : valid c) : valid c' := by
  induction h with
  | first => exact hc
  | next hread hmore _ ih =>
      exact ih (fun t ht => hnext t (List.mem_cons_of_mem _ ht)) (hnext _ List.mem_cons_self _ _ hc hread hmore)

/-- A walk one of whose requests is refused raises. -/
theorem Asks.refused {c c' : κ} {ts : List τ} {t : τ} (h : p.Asks c ts t c') {e : ε}
    (he : p.read t c' = .error e) : p.walk c ts = .error e := by
  induction h with
  | first => simp [walk, he, bind, Except.bind]
  | next hread hmore _ ih => simp [walk, hread, hmore, ih he, bind, Except.bind]

/-- What is said of the requests of a walk whose first page may be asked for in two ways. -/
theorem asks_first {limit : τ → κ → Prop} {t : τ} {ts : List τ} {c c' : κ} (h : p.read t c = p.read t c')
    (hlimit : limit t c ↔ limit t c') :
    (∀ u d, p.Asks c (t :: ts) u d → ¬ limit u d) ↔ ∀ u d, p.Asks c' (t :: ts) u d → ¬ limit u d := by
  have hone {c c' : κ} (h : p.read t c = p.read t c') (hlimit : limit t c ↔ limit t c')
      (hall : ∀ u d, p.Asks c (t :: ts) u d → ¬ limit u d) (u : τ) (d : κ) (hasks : p.Asks c' (t :: ts) u d) :
      ¬ limit u d := by
    cases hasks with
    | first => exact fun hl => hall _ _ .first (hlimit.mpr hl)
    | next hread hmore hrest => exact hall _ _ (.next (h.trans hread) hmore hrest)
  exact ⟨hone h hlimit, hone h.symm hlimit.symm⟩

/-- A walk with enough moments ends: its pages partition what remained at its
first cursor and each says rightly whether there is more, unless a request of the
walk is refused. -/
theorem walk_covers_unless (refused : τ → κ → ε → Prop) {ts : List τ}
    (hread : ∀ t ∈ ts, ∀ c, valid c →
      (∃ page, p.read t c = .ok page ∧ p.Covers items rest valid c page) ∨
        ∃ e, p.read t c = .error e ∧ refused t c e) {c : κ}
    (hc : valid c) (hts : (rest c).length < ts.length) :
    (∃ pages, p.walk c ts = .ok pages ∧ pages.flatMap items = rest c ∧ p.Exact items pages ∧
      ∃ page ∈ pages.getLast?, p.more page = false) ∨
    ∃ t c' e, p.Asks c ts t c' ∧ p.read t c' = .error e ∧ refused t c' e := by
  induction ts generalizing c with
  | nil => simp at hts
  | cons t ts ih =>
      rcases hread t List.mem_cons_self c hc with ⟨page, hpage, hcovers⟩ | ⟨e, he, hrefused⟩
      case inr =>
        exact Or.inr ⟨t, c, e, .first, he, hrefused⟩
      cases hmore : p.more page with
      | false =>
          refine Or.inl ⟨[page], ?_, ?_, ?_, page, rfl, hmore⟩
          · simp [walk, hpage, hmore, pure, Except.pure, bind, Except.bind]
          · simp [hcovers.last hmore]
          · intro before page' after heq
            rcases before with _ | ⟨_, before⟩
            · obtain ⟨rfl, rfl⟩ := List.cons.inj heq
              simp [hmore]
            · simp at heq
      | true =>
          obtain ⟨hvalid, hitems, hrest, heq⟩ := hcovers.next hmore
          have hlen : (rest (p.next page)).length < ts.length := by
            have hpos : 0 < (items page).length := List.length_pos_iff.mpr hitems
            rw [heq, List.length_append, List.length_cons] at hts
            omega
          rcases ih (fun t ht => hread t (List.mem_cons_of_mem _ ht)) hvalid hlen with
            ⟨pages, hwalk, hflat, hexact, last, hlast, hmoreLast⟩ | ⟨t', c', e, hasks, he, hrefused⟩
          case inr => exact Or.inr ⟨t', c', e, .next hpage hmore hasks, he, hrefused⟩
          refine Or.inl ⟨page :: pages, ?_, ?_, ?_, last, ?_, hmoreLast⟩
          · simp [walk, hpage, hmore, hwalk, pure, Except.pure, bind, Except.bind]
          · rw [List.flatMap_cons, hflat, heq]
          · intro before page' after hsplit
            rcases before with _ | ⟨_, before⟩
            · obtain ⟨rfl, rfl⟩ := List.cons.inj hsplit
              rw [hflat]
              exact ⟨fun _ => hrest, fun _ => hmore⟩
            · exact hexact before page' after (List.cons.inj hsplit).2
          · cases pages with
            | nil => cases hlast
            | cons q qs => simpa using hlast

/-- A walk covers what remains if and only if none of its requests is one of those that are refused. -/
theorem walk_covers_iff (limit : τ → κ → Prop) {ts : List τ}
    (hread : ∀ t ∈ ts, ∀ c, valid c →
      (∃ page, p.read t c = .ok page ∧ p.Covers items rest valid c page) ∧ ¬ limit t c ∨
        ∃ e, p.read t c = .error e ∧ limit t c) {c : κ} (hc : valid c) (hts : (rest c).length < ts.length) :
    (∃ pages, p.walk c ts = .ok pages ∧ pages.flatMap items = rest c ∧ p.Exact items pages ∧
      ∃ page ∈ pages.getLast?, p.more page = false) ↔ ∀ t c', p.Asks c ts t c' → ¬ limit t c' := by
  constructor
  · rintro ⟨pages, hwalk, _⟩ t c' hasks hlimit
    have hvalid : valid c' := by
      refine hasks.cursor (fun t ht c page hc hpage hmore => ?_) hc
      rcases hread t ht c hc with ⟨⟨page', hpage', hcovers⟩, _⟩ | ⟨e, he, _⟩
      · cases hpage.symm.trans hpage'
        exact (hcovers.next hmore).1
      · cases hpage.symm.trans he
    rcases hread t hasks.mem c' hvalid with ⟨_, hfree⟩ | ⟨e, he, _⟩
    · exact hfree hlimit
    · cases hwalk.symm.trans (hasks.refused he)
  · intro hfree
    have hread' : ∀ t ∈ ts, ∀ c, valid c →
        (∃ page, p.read t c = .ok page ∧ p.Covers items rest valid c page) ∨
          ∃ e, p.read t c = .error e ∧ limit t c := fun t ht c hc => (hread t ht c hc).imp And.left id
    rcases walk_covers_unless (fun t c _ => limit t c) hread' hc hts with
      h | ⟨t, c', _, hasks, _, hlimit⟩
    · exact h
    · exact absurd hlimit (hfree t c' hasks)

/-- A walk none of whose requests is refused. -/
theorem walk_covers {ts : List τ}
    (hread : ∀ t ∈ ts, ∀ c, valid c →
      ∃ page, p.read t c = .ok page ∧ p.Covers items rest valid c page) {c : κ}
    (hc : valid c) (hts : (rest c).length < ts.length) :
    ∃ pages, p.walk c ts = .ok pages ∧ pages.flatMap items = rest c ∧ p.Exact items pages ∧
      ∃ page ∈ pages.getLast?, p.more page = false := by
  have hread' : ∀ t ∈ ts, ∀ c, valid c →
      (∃ page, p.read t c = .ok page ∧ p.Covers items rest valid c page) ∨
        ∃ e, p.read t c = .error e ∧ False := fun t ht c hc => Or.inl (hread t ht c hc)
  rcases walk_covers_unless (fun _ _ _ => False) hread' hc hts with h | ⟨_, _, _, _, _, hrefused⟩
  · exact h
  · exact hrefused.elim

end Pager

end MonoAgent.Lib
