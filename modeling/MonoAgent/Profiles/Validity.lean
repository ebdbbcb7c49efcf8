import MonoAgent.Profiles.Sections

/-!
# What the checks see of a document

The white space at the end of a document is lost when a line is put in.  Headings and entries
are the same without it (`headings_rstrip`, `entries_rstrip`), but a last line that is only a
dash and a blank is then a fact no more.
-/

namespace MonoAgent.Profiles

open MonoAgent.Lib

variable {content : String} {keep : String → Bool} {heading : String}

/-- The lines that `_append_section_lines` starts from. -/
def trimmedLines (content : String) : List String := splitlines (rstrip content)

theorem isHeading_blank {l : String} (h : Blank l) : isHeading l = false := by
  rw [← isHeading_strip, strip_blank h]
  decide

theorem notBlank_blank {l : String} (h : Blank l) : notBlank l = false := by
  rw [notBlank, strip_blank h]
  decide

theorem tagged_blank {lines : List String} (h : ∀ l ∈ lines, Blank l) (hkeep : ∀ l, Blank l → keep l = false) :
    tagged keep heading lines = [] := by
  induction lines with
  | nil => rfl
  | cons l rest ih =>
      have hl := h l (List.mem_cons_self ..)
      rw [tagged, if_neg (by simp [isHeading_blank hl]), if_neg (by simp [hkeep l hl])]
      exact ih fun m hm => h m (List.mem_cons_of_mem _ hm)

theorem headingLines_blank {lines : List String} (h : ∀ l ∈ lines, Blank l) : headingLines lines = [] :=
  headingLines_none fun l hl => isHeading_blank (h l hl)

theorem isHeading_append {l more : String} (h : Solid l) (hmore : Blank more) : isHeading (l ++ more) = isHeading l := by
  rw [← isHeading_strip, strip_append h hmore, isHeading_strip]

theorem rstrip_ne_of_headings (h : headings content ≠ []) : rstrip content ≠ "" := by
  intro hempty
  have hnil : content.toList.rdropWhile isSpace = [] := by
    have htext := congrArg String.toList hempty
    rwa [rstrip, String.toList_ofList] at htext
  have hspace := List.rdropWhile_eq_nil_iff.mp hnil
  have hblank : ∀ l ∈ splitlines content, Blank l :=
    blank_splitlinesFrom (fun c hc => absurd hc List.not_mem_nil) hspace
  rw [headings_eq, headingLines_blank hblank] at h
  exact h rfl

theorem tidy_trimmed (h : rstrip content ≠ "") : Tidy (trimmedLines content) := by
  obtain ⟨init, last, -, -, hone, -, hsolid, -, -⟩ := splitlines_rstrip h
  exact ⟨fun l hl => splitlines_break hl, init, last, hone, hsolid⟩

theorem headings_rstrip (h : rstrip content ≠ "") :
    headings content = (headingLines (trimmedLines content)).map strip := by
  obtain ⟨init, last, more, blanks, hone, hall, hsolid, hmore, hblanks⟩ := splitlines_rstrip h
  have hlast : (headingLines ((last ++ more) :: blanks)).map strip = (headingLines [last]).map strip := by
    have hcons : headingLines ((last ++ more) :: blanks) = headingLines ([last ++ more] ++ blanks) := rfl
    rw [hcons, headingLines_append, headingLines_blank hblanks, List.append_nil]
    by_cases hheading : isHeading last = true
    · rw [headingLines, List.filter_cons, isHeading_append hsolid hmore, if_pos hheading, headingLines,
        List.filter_cons, if_pos hheading]
      simp [strip_append hsolid hmore]
    · rw [headingLines, List.filter_cons, isHeading_append hsolid hmore, if_neg hheading, headingLines,
        List.filter_cons, if_neg hheading]
  rw [headings_eq, trimmedLines, hone, hall, headingLines_append, headingLines_append, List.map_append,
    List.map_append, hlast]

theorem entries_rstrip (h : rstrip content ≠ "") :
    entries "" (splitlines content) = entries "" (trimmedLines content) := by
  obtain ⟨init, last, more, blanks, hone, hall, hsolid, hmore, hblanks⟩ := splitlines_rstrip h
  have hkeep : notBlank (last ++ more) = notBlank last := by rw [notBlank, notBlank, strip_append hsolid hmore]
  have hblank (tag : String) : tagged notBlank tag blanks = [] := tagged_blank hblanks fun l => notBlank_blank
  have hlast (tag : String) : (tagged notBlank tag ((last ++ more) :: blanks)).map (fun e => (e.1, strip e.2)) =
      (tagged notBlank tag [last]).map fun e => (e.1, strip e.2) := by
    simp only [tagged, isHeading_append hsolid hmore, hkeep, hblank]
    split
    · simp only [List.map_nil]
    · split
      · simp only [List.map_cons, List.map_nil, strip_append hsolid hmore]
      · simp only [List.map_nil]
  rw [entries_eq, entries_eq, trimmedLines, hone, hall, tagged_append, tagged_append, List.map_append,
    List.map_append, hlast]

/-- A line without the white space around it is one of the document. -/
theorem strip_mem_of_trimmed {l : String} (h : l ∈ trimmedLines content) : strip l ∈ (splitlines content).map strip := by
  by_cases hne : rstrip content = ""
  · rw [trimmedLines, hne] at h
    cases h
  · obtain ⟨init, last, more, blanks, hone, hall, hsolid, hmore, -⟩ := splitlines_rstrip hne
    rw [trimmedLines, hone] at h
    rw [hall]
    rcases List.mem_append.mp h with h | h
    · exact List.mem_map_of_mem (List.mem_append_left _ h)
    · rw [List.mem_singleton.mp h, ← strip_append hsolid hmore]
      exact List.mem_map_of_mem (by simp)

/-- A line that ends in no white space is a line of the document without it, too. -/
theorem mem_trimmed {l : String} (h : l ∈ splitlines content) (hsolid : Solid l) : l ∈ trimmedLines content := by
  have hnot : ¬ Blank l := by
    intro hblank
    obtain ⟨front, c, hl, hc⟩ := hsolid
    have hspace := hblank c (by simp [hl])
    rw [hc] at hspace
    cases hspace
  by_cases hne : rstrip content = ""
  · exfalso
    have hnil : content.toList.rdropWhile isSpace = [] := by
      have htext := congrArg String.toList hne
      rwa [rstrip, String.toList_ofList] at htext
    exact hnot (blank_splitlinesFrom (fun c hc => absurd hc List.not_mem_nil) (List.rdropWhile_eq_nil_iff.mp hnil) l h)
  · obtain ⟨init, last, more, blanks, hone, hall, hlast, hmore, hblanks⟩ := splitlines_rstrip hne
    rw [trimmedLines, hone]
    rw [hall] at h
    rcases List.mem_append.mp h with h | h
    · exact List.mem_append_left _ h
    · rcases List.mem_cons.mp h with rfl | h
      · have hempty : more = "" := by
          obtain ⟨front, c, hl, hc⟩ := hsolid
          apply String.toList_inj.mp
          cases hlist : more.toList using List.reverseRecOn with
          | nil => rfl
          | append_singleton m d =>
              rw [String.toList_append, hlist, ← List.append_assoc] at hl
              have hd := hmore d (by simp [hlist])
              rw [List.singleton_inj.mp (List.append_inj' hl rfl).2, hc] at hd
              cases hd
        rw [hempty, String.append_empty]
        simp
      · exact absurd (hblanks l h) hnot

/-! ## The checks -/

theorem validateMemory_ok : validateMemory content = .ok () ↔ content = "" ∨
    headings content ∈ [memoryHeadings, memoryHeadings ++ [memoryOptionalHeading]] ∧ hasFence content = false ∧
      ∃ l ∈ splitlines content, isFact l = true := by
  rw [validateMemory]
  split
  · next h => exact iff_of_true rfl (Or.inl h)
  · next hne =>
      split
      · next h =>
          refine iff_of_false (fun h => by cases h) ?_
          rintro (hempty | ⟨hheadings, hfence, -⟩)
          · exact hne hempty
          · rcases h with h | h
            · exact h hheadings
            · rw [hfence] at h
              cases h
      · next h =>
          rw [not_or, not_not, Bool.not_eq_true] at h
          split
          · next hany =>
              rw [List.any_eq_true] at hany
              exact iff_of_true rfl (Or.inr ⟨h.1, h.2, hany⟩)
          · next hany =>
              refine iff_of_false (fun h => by cases h) ?_
              rintro (hempty | ⟨-, -, hsome⟩)
              · exact hne hempty
              · exact hany (List.any_eq_true.mpr hsome)

/-- The lines of a section are those with its heading. -/
theorem sectionLines_any {lines front mid back : List String} {s : String} {next : Option String} (hs : IsSection s)
    (hsplit : lines = front ++ s :: (mid ++ back)) (hfront : s ∉ (headingLines front).map strip)
    (hback : s ∉ (headingLines back).map strip) (hmid : ∀ l ∈ mid, isHeading l = false)
    (hnext : next = none ∧ back = [] ∨
      ∃ n rest, next = some n ∧ IsSection n ∧ back = n :: rest ∧ n ∉ front ++ s :: mid) :
    (sectionLines lines s next).any isFact = true ↔ ∃ e ∈ tagged isFact "" lines, e.1 = s := by
  have hnot : s ∉ front := fun hin =>
    hfront (List.mem_map.mpr ⟨s, (mem_headingLines hs).mpr hin, hs.stripped⟩)
  have hindex : lines.idxOf s = front.length := by
    rw [hsplit, List.idxOf_append_of_notMem hnot, List.idxOf_cons_self, Nat.add_zero]
  have hlines : sectionLines lines s next = mid := by
    have hparts : lines = (front ++ s :: mid) ++ back := by rw [hsplit]; simp
    have hstop : next.elim lines.length (fun h => lines.idxOf h) = (front ++ s :: mid).length := by
      obtain ⟨rfl, rfl⟩ | ⟨n, rest, rfl, -, rfl, hn⟩ := hnext
      · rw [Option.elim_none, hparts, List.append_nil]
      · rw [Option.elim_some, hparts, List.idxOf_append_of_notMem hn, List.idxOf_cons_self, Nat.add_zero]
    rw [sectionLines, hstop, hindex, hparts, List.take_left]
    have hdrop : front ++ s :: mid = (front ++ [s]) ++ mid := by simp
    rw [hdrop]
    exact List.drop_left' (by simp)
  have hheading : s ≠ "" := by
    rintro rfl
    cases hs.hash
  have hbefore : ∀ e ∈ tagged isFact "" front, e.1 ≠ s := by
    intro e he heq
    rcases (mem_tagged he).2.2 with htag | htag
    · exact hheading (heq.symm.trans htag)
    · exact hfront (heq ▸ htag)
  have hafter : ∀ e ∈ tagged isFact s back, e.1 ≠ s := by
    intro e he heq
    obtain ⟨-, rfl⟩ | ⟨n, rest, -, hsection, rfl, -⟩ := hnext
    · cases he
    · rw [tagged, if_pos hsection.isHeading, hsection.stripped] at he
      rw [headingLines_cons hsection, List.map_cons, hsection.stripped, List.mem_cons, not_or] at hback
      rcases (mem_tagged he).2.2 with htag | htag
      · exact hback.1 (heq.symm.trans htag)
      · exact hback.2 (heq ▸ htag)
  rw [hlines, List.any_eq_true, hsplit, tagged_append, tagged, if_pos hs.isHeading, hs.stripped, tagged_append,
    lastHeading_self hmid]
  constructor
  · rintro ⟨l, hl, hfact⟩
    obtain ⟨tag, htag⟩ : ∃ tag, (tag, l) ∈ tagged isFact s mid := tagged_of_mem hl (hmid l hl) hfact
    refine ⟨(tag, l), List.mem_append_right _ (List.mem_append_left _ htag), ?_⟩
    rcases (mem_tagged htag).2.2 with h | h
    · exact h
    · rw [headingLines_none hmid] at h
      cases h
  · rintro ⟨e, he, heq⟩
    rcases List.mem_append.mp he with he | he
    · exact absurd heq (hbefore e he)
    · rcases List.mem_append.mp he with he | he
      · exact ⟨e.2, (mem_tagged he).1, (mem_tagged he).2.1⟩
      · exact absurd heq (hafter e he)

theorem headingLines_split {lines rest : List String} {h : String} (heq : headingLines lines = h :: rest) :
    ∃ front back, lines = front ++ h :: back ∧ (∀ l ∈ front, isHeading l = false) ∧ headingLines back = rest := by
  obtain ⟨front, back, hlines, hfront, -, hback⟩ := List.filter_eq_cons_iff.mp heq
  exact ⟨front, back, hlines, fun l hl => Bool.not_eq_true _ ▸ hfront l hl, hback⟩

/-- Every section has a fact. -/
def Filled (lines : List String) : Prop := ∀ s ∈ selfSections, ∃ e ∈ tagged isFact "" lines, e.1 = s

theorem validateSections_cons {lines rest : List String} {s : String} : validateSections lines (s :: rest) = .ok () ↔
    (sectionLines lines s rest.head?).any isFact = true ∧ validateSections lines rest = .ok () := by
  rw [validateSections]
  split
  · next h => exact (and_iff_right h).symm
  · next h => exact iff_of_false (fun hinvalid => by cases hinvalid) fun hboth => h hboth.1

theorem headingLines_section {front mid : List String} {s : String} (hs : IsSection s)
    (hmid : ∀ l ∈ mid, isHeading l = false) : headingLines (front ++ s :: mid) = headingLines front ++ [s] := by
  rw [headingLines_append, headingLines_cons hs, headingLines_none hmid]

/-- The sections behind some lines are looked at one after the other. -/
theorem validateSections_from {lines front back sections : List String} (hlines : lines = front ++ back)
    (hfound : headingLines back = sections) (hsections : ∀ s ∈ sections, IsSection s) (hnodup : sections.Nodup)
    (hfront : ∀ s ∈ sections, s ∉ (headingLines front).map strip) :
    validateSections lines sections = .ok () ↔ ∀ s ∈ sections, ∃ e ∈ tagged isFact "" lines, e.1 = s := by
  induction sections generalizing front back with
  | nil => exact iff_of_true rfl (by simp)
  | cons s rest ih =>
      obtain ⟨lead, tail, rfl, hlead, hrest⟩ := headingLines_split hfound
      have hs := hsections s (List.mem_cons_self ..)
      have hmore : ∀ t ∈ rest, IsSection t := fun t ht => hsections t (List.mem_cons_of_mem _ ht)
      have hfresh : s ∉ rest := (List.nodup_cons.mp hnodup).1
      have hbefore : headingLines (front ++ lead) = headingLines front := by
        rw [headingLines_append, headingLines_none hlead, List.append_nil]
      have hnot : s ∉ (headingLines (front ++ lead)).map strip := hbefore ▸ hfront s (List.mem_cons_self ..)
      rw [validateSections_cons]
      cases rest with
      | nil =>
          have hmid : ∀ l ∈ tail, isHeading l = false := fun l hl =>
            Bool.not_eq_true _ ▸ List.filter_eq_nil_iff.mp hrest l hl
          have hsplit : lines = (front ++ lead) ++ s :: (tail ++ []) := by rw [hlines]; simp
          have hany := sectionLines_any hs hsplit hnot (by simp [headingLines]) hmid (Or.inl ⟨rfl, rfl⟩)
          simp [hany, validateSections]
      | cons n rest =>
          obtain ⟨mid, tail, rfl, hmid, hrest⟩ := headingLines_split hrest
          have hn := hmore n (List.mem_cons_self ..)
          have hstrip : (n :: rest).map strip = n :: rest :=
            (List.map_congr_left fun t ht => (hmore t ht).stripped).trans (List.map_id' _)
          have htail : headingLines (n :: tail) = n :: rest := by rw [headingLines_cons hn, hrest]
          have hbehind : headingLines (front ++ lead ++ s :: mid) = headingLines front ++ [s] := by
            rw [headingLines_section hs hmid, hbefore]
          have hnext : n ∉ front ++ lead ++ s :: mid := by
            rw [← mem_headingLines hn, hbehind, List.mem_append, List.mem_singleton, not_or]
            refine ⟨fun hin => hfront n (by simp) ?_, fun heq => hfresh (heq ▸ List.mem_cons_self ..)⟩
            exact List.mem_map.mpr ⟨n, hin, hn.stripped⟩
          have hsplit : lines = (front ++ lead) ++ s :: (mid ++ n :: tail) := by rw [hlines]; simp
          have hany := sectionLines_any hs hsplit hnot (by rw [htail, hstrip]; exact hfresh) hmid
            (Or.inr ⟨n, tail, rfl, hn, rfl, hnext⟩)
          have hlater := @ih (front ++ lead ++ s :: mid) (n :: tail) (by rw [hlines]; simp) htail hmore
            (List.nodup_cons.mp hnodup).2 fun t ht hin => by
              rw [hbehind, List.map_append, List.map_singleton, hs.stripped, List.mem_append, List.mem_singleton] at hin
              rcases hin with hin | rfl
              · exact hfront t (List.mem_cons_of_mem _ ht) hin
              · exact hfresh ht
          rw [List.head?_cons, hany, hlater]
          exact (List.forall_mem_cons (p := fun s => ∃ e ∈ tagged isFact "" lines, e.1 = s)).symm

theorem validateSections_ok {lines : List String} (h : headingLines lines = selfHeadings) :
    validateSections lines selfSections = .ok () ↔ Filled lines := by
  obtain ⟨front, back, rfl, hfront, hback⟩ := headingLines_split h
  have hfirst : IsSection "# Akashic 的自我认知" := self_sections _ (List.mem_cons_self ..)
  have hsplit : front ++ "# Akashic 的自我认知" :: back = (front ++ ["# Akashic 的自我认知"]) ++ back := by simp
  have hbefore : (headingLines (front ++ ["# Akashic 的自我认知"])).map strip = ["# Akashic 的自我认知"] := by
    rw [headingLines_append, headingLines_none hfront, headingLines_cons hfirst, List.nil_append, List.map_cons,
      hfirst.stripped]
    rfl
  have hnodup : selfHeadings.Nodup := by decide
  refine validateSections_from hsplit hback (fun s hs => self_sections s (List.mem_cons_of_mem _ hs))
    (List.nodup_cons.mp hnodup).2 fun s hs hin => ?_
  rw [hbefore, List.mem_singleton] at hin
  exact (List.nodup_cons.mp hnodup).1 (hin ▸ hs)

/-- Lines that are all there as they are spelled. -/
theorem eq_of_stripped {found sections : List String} (h : found.map strip = sections) (hnodup : sections.Nodup)
    (hsections : ∀ s ∈ sections, strip s = s ∧ s ∈ found) : found = sections := by
  rw [← h] at hnodup
  have hself : ∀ l ∈ found, strip l = l := by
    intro l hl
    have hl' := List.mem_map_of_mem (f := strip) hl
    rw [h] at hl'
    obtain ⟨hstrip, hin⟩ := hsections _ hl'
    exact List.inj_on_of_nodup_map hnodup hin hl hstrip
  rw [← h]
  exact ((List.map_congr_left hself).trans (List.map_id' _)).symm

theorem nodup_self : selfHeadings.Nodup := by decide

theorem validateSelf_ok : validateSelf content = .ok () ↔
    headingLines (splitlines content) = selfHeadings ∧ hasFence content = false ∧ Filled (splitlines content) := by
  have hself : selfHeadings.map strip = selfHeadings :=
    (List.map_congr_left fun s hs => (self_sections s hs).stripped).trans (List.map_id' _)
  rw [validateSelf]
  split
  · next h =>
      refine iff_of_false (fun h => by cases h) ?_
      rintro ⟨hlines, hfence, -⟩
      rcases h with h | h
      · exact h (by rw [headings_eq, hlines, hself])
      · rw [hfence] at h
        cases h
  · next h =>
      rw [not_or, not_not, Bool.not_eq_true] at h
      split
      · next hany =>
          refine iff_of_false (fun h => by cases h) ?_
          rintro ⟨hlines, -, -⟩
          obtain ⟨s, hs, hnot⟩ := List.any_eq_true.mp hany
          rw [decide_eq_true_eq, ← mem_headingLines (self_sections s hs), hlines] at hnot
          exact hnot hs
      · next hall =>
          have hlines : headingLines (splitlines content) = selfHeadings := by
            refine eq_of_stripped h.1 nodup_self fun s hs => ⟨(self_sections s hs).stripped, ?_⟩
            rw [mem_headingLines (self_sections s hs)]
            by_contra hnot
            exact hall (List.any_eq_true.mpr ⟨s, hs, decide_eq_true hnot⟩)
          rw [validateSections_ok hlines]
          exact ⟨fun hfilled => ⟨hlines, h.2, hfilled⟩, fun hboth => hboth.2.2⟩

end MonoAgent.Profiles
