import MonoAgent.Profiles.Answers

/-!
# Lines below their headings

`_append_section_lines` works on the lines of a document.  It looks for its heading as it is
spelled and for the next one in the first column (`place`), while the checks take headings
without the white space around them.  A line comes below its heading when the two agree on
it (`Fit`).
-/

namespace MonoAgent.Profiles

open MonoAgent.Lib

variable {lines : List String} {heading line : String} {keep : String → Bool}

def isHeading (line : String) : Bool := startsWith "#" (lstrip line)

/-- The lines that are headings, as they are. -/
def headingLines (lines : List String) : List String := lines.filter isHeading

theorem headings_eq (content : String) : headings content = (headingLines (splitlines content)).map strip := rfl

theorem startsWith_hash {s : String} : startsWith "#" s = true ↔ ∃ rest, s.toList = '#' :: rest := by
  rw [startsWith, List.isPrefixOf_iff_prefix]
  constructor
  · rintro ⟨rest, hrest⟩
    exact ⟨rest, hrest.symm⟩
  · rintro ⟨rest, hrest⟩
    exact ⟨rest, hrest.symm⟩

theorem isHeading_strip : startsWith "#" (strip line) = isHeading line := by
  rw [Bool.eq_iff_iff, isHeading, startsWith_hash, startsWith_hash, strip_toList, lstrip, String.toList_ofList]
  constructor
  · rintro ⟨rest, hrest⟩
    obtain ⟨more, hmore⟩ := List.rdropWhile_prefix isSpace (line.toList.dropWhile isSpace)
    rw [hrest] at hmore
    exact ⟨rest ++ more, hmore.symm⟩
  · rintro ⟨rest, hrest⟩
    rw [hrest]
    obtain ⟨more, hmore⟩ := List.rdropWhile_prefix isSpace ('#' :: rest)
    cases hstrip : List.rdropWhile isSpace ('#' :: rest) with
    | nil =>
        have hall := List.rdropWhile_eq_nil_iff.mp hstrip '#' (List.mem_cons_self ..)
        cases hall
    | cons c kept =>
        rw [hstrip] at hmore
        cases hmore
        exact ⟨kept, rfl⟩

theorem isHeading_of_hash (h : startsWith "#" line = true) : isHeading line = true := by
  obtain ⟨rest, hrest⟩ := startsWith_hash.mp h
  rw [isHeading, startsWith_hash, lstrip, String.toList_ofList, hrest]
  exact ⟨rest, List.dropWhile_cons_of_neg (by decide)⟩

/-- A heading as the sections of the profiles have it. -/
structure IsSection (heading : String) : Prop where
  hash : startsWith "#" heading = true
  stripped : strip heading = heading
  unbroken : Unbroken heading
  fence : hasFence heading = false

theorem IsSection.isHeading (h : IsSection heading) : isHeading heading = true := isHeading_of_hash h.hash

theorem memory_sections : ∀ h ∈ memorySections ++ [memoryOptionalHeading], IsSection h := by
  intro h hh
  simp only [memorySections, memoryOptionalHeading, List.cons_append, List.nil_append, List.mem_cons,
    List.not_mem_nil, or_false] at hh
  rcases hh with rfl | rfl | rfl | rfl
  · exact ⟨by decide, by decide, by simp [Unbroken, isLineBreak, isLineBreakPoint], by decide⟩
  · exact ⟨by decide, by decide, by simp [Unbroken, isLineBreak, isLineBreakPoint], by decide⟩
  · exact ⟨by decide, by decide, by simp [Unbroken, isLineBreak, isLineBreakPoint], by decide⟩
  · exact ⟨by decide, by decide, by simp [Unbroken, isLineBreak, isLineBreakPoint], by decide⟩

theorem self_sections : ∀ h ∈ selfHeadings, IsSection h := by
  intro h hh
  simp only [selfHeadings, selfSections, List.mem_cons, List.not_mem_nil, or_false] at hh
  rcases hh with rfl | rfl | rfl | rfl
  · exact ⟨by decide, by decide, by simp [Unbroken, isLineBreak, isLineBreakPoint], by decide⟩
  · exact ⟨by decide, by decide, by simp [Unbroken, isLineBreak, isLineBreakPoint], by decide⟩
  · exact ⟨by decide, by decide, by simp [Unbroken, isLineBreak, isLineBreakPoint], by decide⟩
  · exact ⟨by decide, by decide, by simp [Unbroken, isLineBreak, isLineBreakPoint], by decide⟩

/-! ## Lines with their headings -/

/-- The heading behind the lines. -/
def lastHeading (heading : String) : List String → String
  | [] => heading
  | l :: rest => lastHeading (if isHeading l then strip l else heading) rest

/-- The lines to keep, each with its heading. -/
def tagged (keep : String → Bool) (heading : String) : List String → List (String × String)
  | [] => []
  | l :: rest =>
      if isHeading l then tagged keep (strip l) rest
      else if keep l then (heading, l) :: tagged keep heading rest
      else tagged keep heading rest

theorem tagged_append (xs ys : List String) :
    tagged keep heading (xs ++ ys) = tagged keep heading xs ++ tagged keep (lastHeading heading xs) ys := by
  induction xs generalizing heading with
  | nil => rfl
  | cons l xs ih =>
      rw [List.cons_append, tagged, tagged, lastHeading]
      split
      · exact ih
      · split
        · rw [ih, List.cons_append]
        · exact ih

def notBlank (line : String) : Bool := strip line ≠ ""

theorem entries_eq (heading : String) (lines : List String) :
    entries heading lines = (tagged notBlank heading lines).map fun e => (e.1, strip e.2) := by
  induction lines generalizing heading with
  | nil => rfl
  | cons l rest ih =>
      simp only [entries, tagged, isHeading_strip]
      split
      · exact ih _
      · by_cases hblank : strip l = ""
        · rw [if_pos hblank, if_neg (by simp [notBlank, hblank])]
          exact ih _
        · rw [if_neg hblank, if_pos (by simp [notBlank, hblank]), List.map_cons, ih]

theorem mem_tagged {e : String × String} (h : e ∈ tagged keep heading lines) :
    e.2 ∈ lines ∧ keep e.2 = true ∧ (e.1 = heading ∨ e.1 ∈ (headingLines lines).map strip) := by
  induction lines generalizing heading with
  | nil => cases h
  | cons l rest ih =>
      rw [tagged] at h
      split at h
      · next hl =>
          obtain ⟨hmem, hkeep, htag⟩ := ih h
          refine ⟨List.mem_cons_of_mem _ hmem, hkeep, Or.inr ?_⟩
          rw [headingLines, List.filter_cons, if_pos hl, List.map_cons, List.mem_cons]
          exact htag
      · next hl =>
          rw [headingLines, List.filter_cons, if_neg hl]
          split at h
          · next hk =>
              rcases List.mem_cons.mp h with rfl | h
              · exact ⟨List.mem_cons_self .., hk, Or.inl rfl⟩
              · obtain ⟨hmem, hkeep, htag⟩ := ih h
                exact ⟨List.mem_cons_of_mem _ hmem, hkeep, htag⟩
          · obtain ⟨hmem, hkeep, htag⟩ := ih h
            exact ⟨List.mem_cons_of_mem _ hmem, hkeep, htag⟩

/-- A line that is kept has some heading. -/
theorem tagged_of_mem (h : line ∈ lines) (hline : isHeading line = false) (hkeep : keep line = true) :
    ∃ tag, (tag, line) ∈ tagged keep heading lines := by
  obtain ⟨front, back, rfl⟩ := List.append_of_mem h
  refine ⟨lastHeading heading front, ?_⟩
  rw [tagged_append, tagged, if_neg (by simp [hline]), if_pos hkeep]
  simp

theorem lastHeading_self (h : ∀ l ∈ lines, isHeading l = false) : lastHeading heading lines = heading := by
  induction lines with
  | nil => rfl
  | cons l rest ih =>
      rw [lastHeading, if_neg (by simp [h l (List.mem_cons_self ..)])]
      exact ih fun m hm => h m (List.mem_cons_of_mem _ hm)

theorem lastHeading_mem (h : ∃ l ∈ lines, isHeading l = true) :
    lastHeading heading lines ∈ (headingLines lines).map strip := by
  induction lines generalizing heading with
  | nil => simp at h
  | cons l rest ih =>
      rw [lastHeading, headingLines, List.filter_cons]
      by_cases hrest : ∃ m ∈ rest, isHeading m = true
      · split
        · exact List.mem_cons_of_mem _ (ih hrest)
        · exact ih hrest
      · push Not at hrest
        obtain ⟨m, hm, hmheading⟩ := h
        rcases List.mem_cons.mp hm with rfl | hm
        · rw [if_pos hmheading, if_pos hmheading, lastHeading_self fun x hx => Bool.not_eq_true _ ▸ hrest x hx]
          exact List.mem_cons_self ..
        · exact absurd hmheading (hrest m hm)

/-! ## Placing a line -/

/-- `_append_section_lines` on lines, for a line that is new. -/
def place (lines : List String) (heading line : String) : List String :=
  let values := if heading ∈ lines then lines else lines ++ ["", heading]
  let start := values.idxOf heading + 1
  let stop := start + (values.drop start).findIdx (startsWith "#")
  values.take stop ++ [line] ++ values.drop stop

theorem append_eq {content : String} (h : line ∉ splitlines content) :
    appendSectionLines content heading [line] = unlines (place (splitlines (rstrip content)) heading line) := by
  have hnew : line ∉ Textual.splitlines content := h
  have hunique : [line].filter (fun l => l ∉ Textual.splitlines content) = [line] := by simp [hnew]
  rw [appendSectionLines, hunique]
  dsimp only
  rw [if_neg (List.cons_ne_nil _ _)]
  rfl

/-- The parts of a list around what comes first. -/
theorem drop_findIdx {α : Type} (p : α → Bool) (xs : List α) :
    ∃ mid back, xs = mid ++ back ∧ mid.length = xs.findIdx p ∧ (∀ x ∈ mid, p x = false) ∧
      ∀ x, back.head? = some x → p x = true := by
  induction xs with
  | nil => exact ⟨[], [], rfl, rfl, by simp, by simp⟩
  | cons x xs ih =>
      rw [List.findIdx_cons]
      cases hx : p x with
      | true =>
          refine ⟨[], x :: xs, rfl, rfl, by simp, fun y hy => ?_⟩
          cases hy
          exact hx
      | false =>
          obtain ⟨mid, back, rfl, hlen, hmid, hback⟩ := ih
          refine ⟨x :: mid, back, rfl, ?_, fun y hy => ?_, hback⟩
          · rw [List.length_cons, hlen, cond_false]
          · rcases List.mem_cons.mp hy with rfl | hy
            · exact hx
            · exact hmid y hy

/-- The line stands behind the heading and what follows it up to a heading in the first column. -/
theorem place_spec (lines : List String) (heading line : String) :
    ∃ front mid back, (if heading ∈ lines then lines else lines ++ ["", heading]) = front ++ heading :: (mid ++ back) ∧
      heading ∉ front ∧ (∀ l ∈ mid, startsWith "#" l = false) ∧ (∀ l, back.head? = some l → startsWith "#" l = true) ∧
      place lines heading line = front ++ heading :: (mid ++ line :: back) := by
  set values := if heading ∈ lines then lines else lines ++ ["", heading] with hvalues
  have hmem : heading ∈ values := by
    rw [hvalues]
    split
    · assumption
    · simp
  obtain ⟨front, rest, hsplit, hfront⟩ := List.eq_append_cons_of_mem hmem
  obtain ⟨mid, back, hrest, hlen, hmid, hback⟩ := drop_findIdx (startsWith "#") rest
  have hindex : values.idxOf heading = front.length := by
    rw [hsplit, List.idxOf_append_of_notMem hfront, List.idxOf_cons_self, Nat.add_zero]
  have hdrop : values.drop (front.length + 1) = mid ++ back := by
    have hsplit' : values = (front ++ [heading]) ++ (mid ++ back) := by rw [hsplit, hrest]; simp
    rw [hsplit']
    exact List.drop_left' (by simp)
  have hstop : values = (front ++ heading :: mid) ++ back := by rw [hsplit, hrest]; simp
  refine ⟨front, mid, back, by rw [hsplit, hrest], hfront, hmid, hback, ?_⟩
  rw [place, ← hvalues, hindex, hdrop, ← hrest, ← hlen, hstop]
  rw [List.take_left' (by simp; omega), List.drop_left' (by simp; omega)]
  simp

/-- An entry on a line of its own. -/
structure IsItem (line : String) : Prop where
  dash : startsWith "- " line = true
  stripped : strip line = line
  unbroken : Unbroken line
  fence : hasFence line = false

theorem IsItem.toList (h : IsItem line) : ∃ rest, line.toList = '-' :: ' ' :: rest := by
  have hdash := h.dash
  rw [startsWith, List.isPrefixOf_iff_prefix] at hdash
  obtain ⟨rest, hrest⟩ := hdash
  exact ⟨rest, hrest.symm⟩

theorem IsItem.notHeading (h : IsItem line) : isHeading line = false := by
  obtain ⟨rest, hrest⟩ := h.toList
  rw [← isHeading_strip, h.stripped, Bool.eq_false_iff, ne_eq, startsWith_hash, hrest]
  rintro ⟨more, hmore⟩
  cases hmore

theorem IsItem.notBlank (h : IsItem line) : notBlank line = true := by
  obtain ⟨rest, hrest⟩ := h.toList
  rw [Profiles.notBlank, h.stripped, decide_eq_true_eq]
  rintro rfl
  cases hrest

theorem IsItem.isFact (h : IsItem line) : isFact line = true := by
  obtain ⟨rest, hrest⟩ := h.toList
  rw [Profiles.isFact, startsWith, List.isPrefixOf_iff_prefix, lstrip, String.toList_ofList, hrest,
    List.dropWhile_cons_of_neg (by decide), String.toList_ofList]
  exact ⟨rest, rfl⟩

/-- A heading among the lines that are headings: if it is there at all, it is there as it is
spelled, and what follows it begins in the first column. -/
def Fit (found : List String) (heading : String) : Prop :=
  heading ∈ found.map strip → heading ∈ found ∧ ∀ l, [heading, l] <:+: found → startsWith "#" l = true

theorem headingLines_append (xs ys : List String) :
    headingLines (xs ++ ys) = headingLines xs ++ headingLines ys := List.filter_append ..

theorem mem_headingLines (hs : IsSection heading) : heading ∈ headingLines lines ↔ heading ∈ lines := by
  rw [headingLines, List.mem_filter]
  exact and_iff_left hs.isHeading

theorem headingLines_none (h : ∀ l ∈ lines, isHeading l = false) : headingLines lines = [] :=
  List.filter_eq_nil_iff.mpr fun l hl => by simp [h l hl]

theorem headingLines_cons (hs : IsSection heading) : headingLines (heading :: lines) = heading :: headingLines lines := by
  rw [headingLines, List.filter_cons, if_pos hs.isHeading, headingLines]

/-- The first heading of some lines. -/
theorem headingLines_first (h : ∃ l ∈ lines, isHeading l = true) :
    ∃ l rest, headingLines lines = l :: rest ∧ l ∈ lines := by
  obtain ⟨l, hl, hheading⟩ := h
  obtain ⟨first, rest, hfirst⟩ := List.exists_cons_of_ne_nil (List.ne_nil_of_mem (List.mem_filter.mpr ⟨hl, hheading⟩))
  refine ⟨first, rest, hfirst, ?_⟩
  have hmem : first ∈ lines.filter isHeading := by rw [hfirst]; exact List.mem_cons_self ..
  exact List.mem_of_mem_filter hmem

/-- What placing one line does. -/
structure Placed (keep : String → Bool) (lines : List String) (heading line tag : String) : Prop where
  perm : (tagged keep "" (place lines heading line)).Perm (tagged keep "" lines ++ [(tag, line)])
  kept : (tagged keep "" lines).Sublist (tagged keep "" (place lines heading line))
  headings : headingLines (place lines heading line) =
    headingLines lines ++ if heading ∈ lines then [] else [heading]
  fit : Fit (headingLines lines) heading → tag = heading
  unfit : tag = heading → ((headingLines (place lines heading line)).map strip).Nodup →
    Fit (headingLines lines) heading

theorem place_placed (keep : String → Bool) (lines : List String) (hs : IsSection heading) (hi : IsItem line) (hkeep : keep line = true)
    (hblank : keep "" = false) : ∃ tag, Placed keep lines heading line tag := by
  obtain ⟨front, mid, back, hvalues, hfront, hmid, hback, hplace⟩ := place_spec lines heading line
  have hempty : isHeading "" = false := by decide
  have hsame : tagged keep "" lines = tagged keep "" (if heading ∈ lines then lines else lines ++ ["", heading]) := by
    split
    · rfl
    · rw [tagged_append, tagged, if_neg (by simp [hempty]), if_neg (by simp [hblank]), tagged,
        if_pos hs.isHeading, tagged, List.append_nil]
  have hfound : headingLines (if heading ∈ lines then lines else lines ++ ["", heading]) =
      headingLines lines ++ if heading ∈ lines then [] else [heading] := by
    split
    · rw [List.append_nil]
    · rw [headingLines_append, headingLines, headingLines, List.filter_cons, if_neg (by simp [hempty]),
        List.filter_cons, if_pos hs.isHeading, List.filter_nil]
  have hold : tagged keep "" lines = tagged keep "" front ++
      (tagged keep heading mid ++ tagged keep (lastHeading heading mid) back) := by
    rw [hsame, hvalues, tagged_append, tagged, if_pos hs.isHeading, hs.stripped, tagged_append]
  have hnew : tagged keep "" (place lines heading line) = tagged keep "" front ++
      (tagged keep heading mid ++ (lastHeading heading mid, line) :: tagged keep (lastHeading heading mid) back) := by
    rw [hplace, tagged_append, tagged, if_pos hs.isHeading, hs.stripped, tagged_append, tagged,
      if_neg (by simp [hi.notHeading]), if_pos hkeep]
  have hheadings : headingLines (place lines heading line) =
      headingLines lines ++ if heading ∈ lines then [] else [heading] := by
    rw [← hfound, hvalues, hplace, headingLines_append, headingLines_append, headingLines_cons hs,
      headingLines_cons hs, headingLines_append, headingLines_append]
    rw [headingLines, headingLines, headingLines, headingLines, List.filter_cons, if_neg (by simp [hi.notHeading])]
  refine ⟨lastHeading heading mid, ?_, ?_, hheadings, fun hfit => ?_, fun htag hnodup => ?_⟩
  · rw [hold, hnew, List.append_assoc, List.append_assoc]
    refine List.Perm.append_left _ (List.Perm.append_left _ ?_)
    exact (List.perm_append_singleton _ _).symm
  · rw [hold, hnew]
    exact List.Sublist.append_left (List.Sublist.append_left (List.sublist_cons_self ..) _) _
  · -- a heading in between would follow `heading` and stand in the first column
    refine lastHeading_self fun l hl => ?_
    by_contra hnot
    obtain ⟨first, rest, hfirst, hin⟩ := headingLines_first ⟨l, hl, (Bool.not_eq_false _).mp hnot⟩
    have hall : headingLines lines ++ (if heading ∈ lines then [] else [heading]) =
        headingLines front ++ heading :: (first :: rest ++ headingLines back) := by
      rw [← hfound, hvalues, headingLines_append, headingLines_cons hs, headingLines_append, hfirst]
    by_cases hmem : heading ∈ lines
    · rw [if_pos hmem, List.append_nil] at hall
      have hthere := (mem_headingLines hs).mpr hmem
      have hstripped : heading ∈ (headingLines lines).map strip := List.mem_map.mpr ⟨heading, hthere, hs.stripped⟩
      have hcolumn := (hfit hstripped).2 first ⟨headingLines front, rest ++ headingLines back, by rw [hall]; simp⟩
      rw [hmid first hin] at hcolumn
      cases hcolumn
    · -- the heading was put at the end
      rw [if_neg hmem] at hvalues
      have hlast : front = lines ++ [""] ∧ mid ++ back = [] := by
        have hsplit : (lines ++ [""]) ++ heading :: [] = front ++ heading :: (mid ++ back) := by rw [← hvalues]; simp
        have hnot : heading ∉ lines ++ [""] := by
          intro hin'
          rcases List.mem_append.mp hin' with hin' | hin'
          · exact hmem hin'
          · rw [List.mem_singleton] at hin'
            have hhash := hs.hash
            rw [hin'] at hhash
            cases hhash
        have hparts := (List.append_cons_inj_of_notMem hnot List.not_mem_nil).mp hsplit
        exact ⟨hparts.1.symm, hparts.2.2.symm⟩
      rw [(List.append_eq_nil_iff.mp hlast.2).1] at hl
      cases hl
  · intro hthere
    rw [hheadings] at hnodup
    by_cases hmem : heading ∈ lines
    · rw [if_pos hmem, List.append_nil] at hnodup
      rw [if_pos hmem] at hvalues
      have hall : headingLines lines = headingLines front ++ heading :: (headingLines mid ++ headingLines back) := by
        rw [hvalues, headingLines_append, headingLines_cons hs, headingLines_append]
      -- no heading with this name stands between it and the line
      have hmidNone : ∀ l ∈ mid, isHeading l = false := by
        intro l hl
        by_contra hnot
        have htagged := @lastHeading_mem mid heading ⟨l, hl, (Bool.not_eq_false _).mp hnot⟩
        rw [htag] at htagged
        rw [hall, List.map_append, List.map_cons, List.map_append, hs.stripped] at hnodup
        have hrest := (List.nodup_cons.mp (List.nodup_append.mp hnodup).2.1).1
        exact hrest (List.mem_append_left _ htagged)
      refine ⟨(mem_headingLines hs).mpr hmem, fun l hl => ?_⟩
      rw [headingLines_none hmidNone, List.nil_append] at hall
      obtain ⟨before, after, hpair⟩ := hl
      have hnodup' := hnodup.of_map
      rw [hall] at hnodup'
      have hfrontNone : heading ∉ headingLines front :=
        fun hin => (List.nodup_append.mp hnodup').2.2 _ hin _ (List.mem_cons_self ..) rfl
      have hbackNone : heading ∉ headingLines back := (List.nodup_cons.mp (List.nodup_append.mp hnodup').2.1).1
      have hparts : headingLines front ++ heading :: headingLines back = before ++ heading :: (l :: after) := by
        rw [← hall, ← hpair]
        simp
      have hbackFirst := ((List.append_cons_inj_of_notMem hfrontNone hbackNone).mp hparts).2.2
      cases back with
      | nil => cases hbackFirst
      | cons first rest =>
          have hhash := hback first rfl
          rw [headingLines, List.filter_cons, if_pos (isHeading_of_hash hhash)] at hbackFirst
          rw [← (List.cons.inj hbackFirst).1]
          exact hhash
    · rw [if_neg hmem, List.map_append, List.map_singleton, hs.stripped] at hnodup
      exact absurd rfl ((List.nodup_append.mp hnodup).2.2 _ hthere _ (List.mem_singleton_self _))

/-! ## Placing several lines -/

def placeAll (lines : List String) (adds : List (String × String)) : List String :=
  adds.foldl (fun lines a => place lines a.1 a.2) lines

/-- Lines with the headings that they are to be put below. -/
def Placeable (adds : List (String × String)) : Prop := ∀ a ∈ adds, IsSection a.1 ∧ IsItem a.2

variable {adds : List (String × String)}

theorem Placeable.tail {a : String × String} (h : Placeable (a :: adds)) : Placeable adds :=
  fun b hb => h b (List.mem_cons_of_mem _ hb)

theorem headingLines_place (lines : List String) (hs : IsSection heading) (hi : IsItem line) :
    headingLines (place lines heading line) = headingLines lines ++ if heading ∈ lines then [] else [heading] := by
  obtain ⟨tag, h⟩ := place_placed (fun l => decide (l ≠ "")) lines hs hi
    (decide_eq_true fun h => by have hb := hi.notBlank; rw [h] at hb; cases hb) (by decide)
  exact h.headings

theorem headingLines_placeAll (lines : List String) (h : Placeable adds) :
    ∃ more, headingLines (placeAll lines adds) = headingLines lines ++ more ∧ (∀ s ∈ more, ∃ a ∈ adds, s = a.1) ∧
      ∀ a ∈ adds, a.1 ∈ headingLines (placeAll lines adds) := by
  induction adds generalizing lines with
  | nil => exact ⟨[], (List.append_nil _).symm, by simp, by simp⟩
  | cons a adds ih =>
      obtain ⟨hs, hi⟩ := h a (List.mem_cons_self ..)
      have hone := headingLines_place lines hs hi
      obtain ⟨more, hmore, hfrom, hall⟩ := @ih (place lines a.1 a.2) h.tail
      have hfound : headingLines (placeAll lines (a :: adds)) = headingLines (place lines a.1 a.2) ++ more := hmore
      refine ⟨(if a.1 ∈ lines then [] else [a.1]) ++ more, ?_, fun s hs' => ?_, fun b hb => ?_⟩
      · rw [hfound, hone, List.append_assoc]
      · rcases List.mem_append.mp hs' with hs' | hs'
        · split at hs'
          · cases hs'
          · exact ⟨a, List.mem_cons_self .., List.mem_singleton.mp hs'⟩
        · obtain ⟨b, hb, heq⟩ := hfrom s hs'
          exact ⟨b, List.mem_cons_of_mem _ hb, heq⟩
      · rcases List.mem_cons.mp hb with rfl | hb
        · rw [hfound, hone]
          refine List.mem_append_left _ ?_
          by_cases hmem : b.1 ∈ lines
          · exact List.mem_append_left _ ((mem_headingLines hs).mpr hmem)
          · rw [if_neg hmem]
            simp
        · exact hall b hb

/-- Placing a line keeps what fits. -/
theorem Fit.place {s : String} (h : Fit (headingLines lines) s) (hsection : IsSection s) (hs : IsSection heading)
    (hi : IsItem line) : Fit (headingLines (place lines heading line)) s := by
  rw [headingLines_place lines hs hi]
  split
  · rw [List.append_nil]
    exact h
  · intro hmem
    have hlast {l : String} (hpair : [s, l] <:+: headingLines lines ++ [heading]) :
        [s, l] <:+: headingLines lines ∨ startsWith "#" l = true := by
      rcases List.infix_concat_iff.mp hpair with hsuffix | hin
      · have heq : l = heading := by
          obtain ⟨front, hfront⟩ := hsuffix
          have hsplit : (front ++ [s]) ++ [l] = headingLines lines ++ [heading] := by rw [← hfront]; simp
          exact (List.append_inj' hsplit rfl).2 |> List.singleton_inj.mp
        rw [heq]
        exact Or.inr hs.hash
      · exact Or.inl hin
    rw [List.map_append, List.mem_append, List.map_singleton, hs.stripped, List.mem_singleton] at hmem
    by_cases hold : s ∈ (headingLines lines).map strip
    · obtain ⟨hthere, hnext⟩ := h hold
      exact ⟨List.mem_append_left _ hthere, fun l hl => (hlast hl).elim (hnext l) id⟩
    · have heq := hmem.resolve_left hold
      refine ⟨by rw [heq]; simp, fun l hl => (hlast hl).resolve_left fun hin => hold ?_⟩
      exact List.mem_map.mpr ⟨s, hin.subset (List.mem_cons_self ..), hsection.stripped⟩

/-- Lines whose headings fit come below their headings, and nothing else changes. -/
theorem tagged_placeAll (h : Placeable adds) (hkeep : ∀ a ∈ adds, keep a.2 = true) (hblank : keep "" = false)
    (hfit : ∀ a ∈ adds, Fit (headingLines lines) a.1) :
    (tagged keep "" (placeAll lines adds)).Perm (tagged keep "" lines ++ adds) ∧
      (tagged keep "" lines).Sublist (tagged keep "" (placeAll lines adds)) := by
  induction adds generalizing lines with
  | nil =>
      rw [List.append_nil]
      exact ⟨List.Perm.refl _, List.Sublist.refl _⟩
  | cons a adds ih =>
      obtain ⟨hs, hi⟩ := h a (List.mem_cons_self ..)
      obtain ⟨tag, hplaced⟩ := place_placed keep lines hs hi (hkeep a (List.mem_cons_self ..)) hblank
      have htag := hplaced.fit (hfit a (List.mem_cons_self ..))
      have hrest : ∀ b ∈ adds, Fit (headingLines (place lines a.1 a.2)) b.1 := fun b hb =>
        (hfit b (List.mem_cons_of_mem _ hb)).place (h.tail b hb).1 hs hi
      obtain ⟨hperm, hsub⟩ := ih h.tail (fun b hb => hkeep b (List.mem_cons_of_mem _ hb)) hrest
      have hone := hplaced.perm
      rw [htag] at hone
      refine ⟨hperm.trans ((hone.append_right adds).trans ?_), hplaced.kept.trans hsub⟩
      rw [List.append_assoc, List.singleton_append]

/-- Headings that fit in a later state fit in an earlier one, when no heading is there twice. -/
theorem Fit.of_append {found more : List String} {s : String} (h : Fit (found ++ more) s)
    (hsection : IsSection s) (hnodup : ((found ++ more).map strip).Nodup) : Fit found s := by
  intro hmem
  have hboth : s ∈ (found ++ more).map strip := by
    rw [List.map_append]
    exact List.mem_append_left _ hmem
  obtain ⟨hthere, hnext⟩ := h hboth
  refine ⟨(List.mem_append.mp hthere).resolve_right fun hin => ?_, fun l hl => ?_⟩
  · rw [List.map_append] at hnodup
    exact (List.nodup_append.mp hnodup).2.2 _ hmem _ (List.mem_map.mpr ⟨s, hin, hsection.stripped⟩) rfl
  · exact hnext l (hl.trans (List.prefix_append _ _).isInfix)

/-- Wherever the lines come: one that comes below its heading had a heading that fitted. -/
theorem tagged_placeAll_unfit (h : Placeable adds) (hkeep : ∀ a ∈ adds, keep a.2 = true) (hblank : keep "" = false)
    (hnodup : ((headingLines (placeAll lines adds)).map strip).Nodup) :
    ∃ placed, (tagged keep "" (placeAll lines adds)).Perm (tagged keep "" lines ++ placed) ∧
      List.Forall₂ (fun t a => t.2 = a.2 ∧ (IsSection a.1 → t.1 = a.1 → Fit (headingLines lines) a.1))
        placed adds := by
  induction adds generalizing lines with
  | nil => exact ⟨[], by rw [List.append_nil]; exact List.Perm.refl _, List.Forall₂.nil⟩
  | cons a adds ih =>
      obtain ⟨hs, hi⟩ := h a (List.mem_cons_self ..)
      obtain ⟨tag, hplaced⟩ := place_placed keep lines hs hi (hkeep a (List.mem_cons_self ..)) hblank
      obtain ⟨placed, hperm, hall⟩ := @ih (place lines a.1 a.2) h.tail
        (fun b hb => hkeep b (List.mem_cons_of_mem _ hb)) hnodup
      obtain ⟨more, hmore, -, -⟩ := headingLines_placeAll (place lines a.1 a.2) h.tail
      have hfound : headingLines (placeAll lines (a :: adds)) = headingLines (place lines a.1 a.2) ++ more := hmore
      have hnodup' : ((headingLines (place lines a.1 a.2)).map strip).Nodup := by
        rw [hfound, List.map_append] at hnodup
        exact (List.nodup_append.mp hnodup).1
      refine ⟨(tag, a.2) :: placed, ?_, List.Forall₂.cons ⟨rfl, fun _ htag => hplaced.unfit htag hnodup'⟩ ?_⟩
      · refine hperm.trans ((hplaced.perm.append_right placed).trans ?_)
        rw [List.append_assoc, List.singleton_append]
      · rw [headingLines_place lines hs hi] at hnodup' hall
        exact hall.imp fun t b hboth =>
          ⟨hboth.1, fun hsection htag => (hboth.2 hsection htag).of_append hsection hnodup'⟩

theorem mem_placeAll {l : String} (h : l ∈ placeAll lines adds) :
    l ∈ lines ∨ l = "" ∨ ∃ a ∈ adds, l = a.1 ∨ l = a.2 := by
  induction adds generalizing lines with
  | nil => exact Or.inl h
  | cons a adds ih =>
      rcases ih h with hone | rfl | ⟨b, hb, hl⟩
      · obtain ⟨front, mid, back, hvalues, -, -, -, hplace⟩ := place_spec lines a.1 a.2
        dsimp only at hone
        rw [hplace] at hone
        have hcases : l = a.2 ∨ l ∈ front ++ a.1 :: (mid ++ back) := by
          simp only [List.mem_append, List.mem_cons] at hone ⊢
          tauto
        rcases hcases with rfl | hin
        · exact Or.inr (Or.inr ⟨a, List.mem_cons_self .., Or.inr rfl⟩)
        · rw [← hvalues] at hin
          split at hin
          · exact Or.inl hin
          · rcases List.mem_append.mp hin with hin | hin
            · exact Or.inl hin
            · rcases List.mem_pair.mp hin with rfl | rfl
              · exact Or.inr (Or.inl rfl)
              · exact Or.inr (Or.inr ⟨a, List.mem_cons_self .., Or.inl rfl⟩)
      · exact Or.inr (Or.inl rfl)
      · exact Or.inr (Or.inr ⟨b, List.mem_cons_of_mem _ hb, hl⟩)

theorem mem_placeAll_of_mem {l : String} (h : l ∈ lines) : l ∈ placeAll lines adds := by
  induction adds generalizing lines with
  | nil => exact h
  | cons a adds ih =>
      refine ih ?_
      obtain ⟨front, mid, back, hvalues, -, -, -, hplace⟩ := place_spec lines a.1 a.2
      have hin : l ∈ front ++ a.1 :: (mid ++ back) := by
        rw [← hvalues]
        split
        · exact h
        · exact List.mem_append_left _ h
      dsimp only
      rw [hplace]
      simp only [List.mem_append, List.mem_cons] at hin ⊢
      tauto

theorem IsItem.solid (h : IsItem line) : Solid line := by
  refine solid_of_stripped h.stripped ?_
  rintro rfl
  cases h.dash

theorem IsSection.solid (h : IsSection heading) : Solid heading := by
  refine solid_of_stripped h.stripped ?_
  rintro rfl
  cases h.hash

theorem tidy_place (h : Tidy lines) (hs : IsSection heading) (hi : IsItem line) : Tidy (place lines heading line) := by
  obtain ⟨front, mid, back, hvalues, -, -, -, hplace⟩ := place_spec lines heading line
  have htidy : Tidy (front ++ heading :: (mid ++ back)) := by
    rw [← hvalues]
    split
    · exact h
    · refine ⟨fun l hl => ?_, lines ++ [""], heading, by simp, hs.solid⟩
      rcases List.mem_append.mp hl with hl | hl
      · exact h.unbroken l hl
      · rcases List.mem_pair.mp hl with rfl | rfl
        · intro c hc
          cases hc
        · exact hs.unbroken
  rw [hplace]
  refine ⟨fun l hl => ?_, ?_⟩
  · have hcases : l = line ∨ l ∈ front ++ heading :: (mid ++ back) := by
      simp only [List.mem_append, List.mem_cons] at hl ⊢
      tauto
    rcases hcases with rfl | hin
    · exact hi.unbroken
    · exact htidy.unbroken l hin
  · cases back using List.reverseRecOn with
    | nil => exact ⟨front ++ heading :: mid, line, by simp, hi.solid⟩
    | append_singleton back last =>
        obtain ⟨front', last', hsplit, hsolid⟩ := htidy.solid
        have hparts : (front ++ heading :: (mid ++ back)) ++ [last] = front' ++ [last'] := by rw [← hsplit]; simp
        rw [← List.singleton_inj.mp (List.append_inj' hparts rfl).2] at hsolid
        exact ⟨front ++ heading :: (mid ++ line :: back), last, by simp, hsolid⟩

theorem tidy_placeAll (h : Tidy lines) (hadds : Placeable adds) : Tidy (placeAll lines adds) := by
  induction adds generalizing lines with
  | nil => exact h
  | cons a adds ih =>
      obtain ⟨hs, hi⟩ := hadds a (List.mem_cons_self ..)
      exact ih (tidy_place h hs hi) hadds.tail

end MonoAgent.Profiles
