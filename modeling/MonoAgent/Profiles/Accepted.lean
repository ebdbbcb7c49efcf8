import MonoAgent.Profiles.Validity

/-!
# Which additions are accepted

Every addition that the model is asked for goes into its document, unless the document itself
stands in the way: a heading with white space around it is not found or ends no section, and a
last line of a dash and a blank is lost.  `Takes` says when it does not.
-/

namespace MonoAgent.Profiles

open MonoAgent.Lib

variable {content : String} {adds : List (String × String)} {additions : List (Addition String)} {sources : List Source}
  {memory self : String}

/-! ## The text with its additions -/

/-- A document with the lines put below their headings. -/
def grown (content : String) (adds : List (String × String)) : String :=
  if adds = [] then content else unlines (placeAll (trimmedLines content) adds)

/-- A line that no line of the document has, white space around it apart. -/
def Fresh {τ : Type} [Textual τ] (content : String) (line : τ) : Prop :=
  line ∉ (splitlines content).map fun l => Textual.literal (strip l)

theorem Fresh.not_mem {line : String} (h : Fresh content line) (hstrip : strip line = line) : line ∉ splitlines content :=
  fun hin => h (List.mem_map.mpr ⟨line, hin, hstrip⟩)

theorem grown_lines (hc : rstrip content ≠ "") (hadds : Placeable adds) (hne : adds ≠ []) :
    splitlines (grown content adds) = placeAll (trimmedLines content) adds := by
  have htidy := tidy_placeAll (tidy_trimmed hc) hadds
  rw [grown, if_neg hne]
  exact splitlines_unlines htidy.unbroken htidy.ne_nil

theorem grown_trimmed (hc : rstrip content ≠ "") (hadds : Placeable adds) :
    trimmedLines (grown content adds) = placeAll (trimmedLines content) adds := by
  rw [grown]
  split
  · next h => rw [h, placeAll, List.foldl_nil]
  · exact splitlines_rstrip_unlines (tidy_placeAll (tidy_trimmed hc) hadds)

theorem grown_ne (hc : rstrip content ≠ "") (hadds : Placeable adds) : grown content adds ≠ "" := by
  intro hempty
  have hlines := grown_trimmed hc hadds
  rw [hempty] at hlines
  exact (tidy_placeAll (tidy_trimmed hc) hadds).ne_nil hlines.symm

theorem grown_fresh {line : String} (hc : rstrip content ≠ "") (hadds : Placeable adds) (hi : IsItem line)
    (hfresh : Fresh content line) (hnew : ∀ a ∈ adds, a.2 ≠ line) : line ∉ splitlines (grown content adds) := by
  by_cases hne : adds = []
  · rw [grown, if_pos hne]
    exact hfresh.not_mem hi.stripped
  · rw [grown_lines hc hadds hne]
    intro hin
    rcases mem_placeAll hin with hin | rfl | ⟨a, ha, heq | heq⟩
    · have hmem := strip_mem_of_trimmed hin
      rw [hi.stripped] at hmem
      exact hfresh hmem
    · cases hi.dash
    · have hheading := (hadds a ha).1.isHeading
      rw [← heq, hi.notHeading] at hheading
      cases hheading
    · exact hnew a ha heq.symm

/-- One line more. -/
theorem append_grown {heading line : String} (hc : rstrip content ≠ "") (hadds : Placeable adds) (hi : IsItem line)
    (hfresh : Fresh content line) (hnew : ∀ a ∈ adds, a.2 ≠ line) :
    appendSectionLines (grown content adds) heading [line] = grown content (adds ++ [(heading, line)]) := by
  have htrimmed : splitlines (rstrip (grown content adds)) = placeAll (trimmedLines content) adds := grown_trimmed hc hadds
  have hmore : grown content (adds ++ [(heading, line)]) =
      unlines (placeAll (trimmedLines content) (adds ++ [(heading, line)])) := if_neg (by simp)
  rw [append_eq (grown_fresh hc hadds hi hfresh hnew), htrimmed, hmore, placeAll, placeAll, List.foldl_append]
  rfl

/-- MEMORY.md with its additions: an empty one begins with its headings. -/
def memoryAfter (memory : String) (adds : List (String × String)) : String :=
  if adds = [] then memory else grown (begun memory) adds

theorem intercalate_blank (a b c d : String) :
    "\n\n".intercalate [a, b, c, d] ++ "\n" = unlines [a, "", b, "", c, "", d] := by
  apply String.toList_inj.mp
  simp [unlines, String.toList_append]

theorem begun_eq (content : String) :
    begun content = if content = "" then "\n\n".intercalate memoryHeadings ++ "\n" else content := rfl

theorem begun_empty : begun "" =
    unlines ["# 用户长期记忆", "", "## 用户事实", "", "## 用户偏好", "", "## 用户明确要求长期记住的关键内容"] := by
  rw [begun_eq, if_pos rfl]
  exact intercalate_blank _ _ _ _

theorem lines_begun_empty : splitlines (begun "") =
    ["# 用户长期记忆", "", "## 用户事实", "", "## 用户偏好", "", "## 用户明确要求长期记住的关键内容"] := by
  rw [begun_empty]
  refine splitlines_unlines ?_ (by simp)
  simp [Unbroken, isLineBreak, isLineBreakPoint]

theorem headings_begun : headings (begun "") = memoryHeadings := by
  rw [headings, lines_begun_empty]
  decide

theorem entries_begun : entries "" (splitlines (begun "")) = [] := by
  rw [lines_begun_empty]
  decide

theorem fresh_begun {line : String} (hi : IsItem line) (h : Fresh memory line) : Fresh (begun memory) line := by
  rw [begun_eq]
  split
  · next hempty =>
      have hlines := lines_begun_empty
      rw [begun_eq, if_pos rfl] at hlines
      rw [Fresh, hlines]
      intro hin
      obtain ⟨l, hl, hline⟩ := List.mem_map.mp hin
      have hstrip : strip l = line := hline
      have hnot : isHeading l = false := by
        rw [← isHeading_strip, hstrip, ← hi.stripped, isHeading_strip]
        exact hi.notHeading
      have hall : ∀ m ∈ ["# 用户长期记忆", "", "## 用户事实", "", "## 用户偏好", "", "## 用户明确要求长期记住的关键内容"],
          isHeading m = true ∨ m = "" := by decide
      rcases hall l hl with hheading | hblank
      · rw [hnot] at hheading
        cases hheading
      · have hdash := hi.dash
        rw [← hstrip, hblank] at hdash
        cases hdash
  · exact h

/-! ## The answer as a whole -/

section Answer

variable {τ : Type}

/-- The additions to one document. -/
def additionsTo (document : String) (additions : List (Addition τ)) : List (Addition τ) :=
  additions.filter fun a => a.document = document

theorem additionsTo_append (document : String) (xs ys : List (Addition τ)) :
    additionsTo document (xs ++ ys) = additionsTo document xs ++ additionsTo document ys := List.filter_append ..

theorem additionsTo_self {a : Addition τ} {document : String} (h : a.document = document) :
    additionsTo document [a] = [a] := by simp [additionsTo, h]

theorem additionsTo_other {a : Addition τ} {document : String} (h : a.document ≠ document) :
    additionsTo document [a] = [] := by simp [additionsTo, h]

theorem additionsTo_map {σ : Type} (f : σ → τ) (document : String) (additions : List (Addition σ)) :
    additionsTo document (additions.map (Addition.map f)) = (additionsTo document additions).map (Addition.map f) := by
  rw [additionsTo, additionsTo, List.filter_map]
  rfl

end Answer

def Addition.entry (a : Addition String) : String × String := (a.heading, a.line)

/-- What the evidence of the draft says about a document. -/
def gathered (adds : List (Addition String)) : Dict String (List String) :=
  adds.foldl (fun cited a => cited.set a.line a.messageIds) []

def sectionsOf (document : String) : List String :=
  if document = "memory" then memorySections ++ [memoryOptionalHeading]
  else if document = "self" then selfSections
  else []

/-- A single entry, as an answer should have it. -/
structure Entry {τ : Type} [Textual τ] (line : τ) : Prop where
  dash : Textual.startsWith "- " line = true
  stripped : Textual.strip line = line
  single : (Textual.splitlines line).length = 1
  fence : ¬ text "```" <:+: Textual.codes line

theorem Entry.isItem {line : String} (h : Entry line) : IsItem line where
  dash := h.dash
  stripped := h.stripped
  unbroken := break_of_stripped h.single h.stripped
  fence := decide_eq_false fun hin => h.fence (hin.map Char.toNat)

/-- Additions as the model is asked for them: the sections are those of the document, the lines
are new single entries, and the messages cited bear them out. -/
structure WellFormed {τ : Type} [Textual τ] (additions : List (Addition τ)) (sources : List Source) (memory ownText : String) : Prop where
  validMemory : validateMemory memory = .ok ()
  validSelf : validateSelf ownText = .ok ()
  heading : ∀ a ∈ additions, a.heading ∈ sectionsOf a.document
  entry : ∀ a ∈ additions, Entry a.line
  distinct : (additions.map fun a => (a.document, a.line)).Nodup
  freshMemory : ∀ a ∈ additionsTo "memory" additions, Fresh memory a.line
  freshSelf : ∀ a ∈ additionsTo "self" additions, Fresh ownText a.line
  ids : ∀ a ∈ additions, a.messageIds ≠ []
  known : ∀ a ∈ additions, ∀ id ∈ a.messageIds, id ∈ sources.map Source.messageId
  user : ∀ a ∈ additions, (a.document = "memory" ∧ isUserFact .memory a.heading = true ∨
      a.document = "self" ∧ isUserFact .self a.heading = true) →
    ∃ m ∈ sources, m.isUserInput = true ∧ m.messageId ∈ a.messageIds

theorem WellFormed.item (h : WellFormed additions sources memory self) : ∀ a ∈ additions, IsItem a.line :=
  fun a ha => (h.entry a ha).isItem

theorem placeable_memory (h : ∀ a ∈ additions, a.heading ∈ sectionsOf a.document) (hi : ∀ a ∈ additions, IsItem a.line) :
    Placeable ((additionsTo "memory" additions).map Addition.entry) := by
  intro e he
  obtain ⟨a, ha, rfl⟩ := List.mem_map.mp he
  obtain ⟨hin, hdoc⟩ := List.mem_filter.mp ha
  have hheading := h a hin
  rw [of_decide_eq_true hdoc] at hheading
  exact ⟨memory_sections _ hheading, hi a hin⟩

theorem placeable_self (h : ∀ a ∈ additions, a.heading ∈ sectionsOf a.document) (hi : ∀ a ∈ additions, IsItem a.line) :
    Placeable ((additionsTo "self" additions).map Addition.entry) := by
  intro e he
  obtain ⟨a, ha, rfl⟩ := List.mem_map.mp he
  obtain ⟨hin, hdoc⟩ := List.mem_filter.mp ha
  have hheading := h a hin
  rw [of_decide_eq_true hdoc] at hheading
  exact ⟨self_sections _ (List.mem_cons_of_mem _ hheading), hi a hin⟩

theorem rstrip_begun (h : validateMemory memory = .ok ()) : rstrip (begun memory) ≠ "" := by
  apply rstrip_ne_of_headings
  rcases validateMemory_ok.mp h with rfl | ⟨hheadings, -, -⟩
  · rw [headings_begun]
    exact List.cons_ne_nil _ _
  · rw [begun_eq]
    split
    · next hempty =>
        have hbegun := headings_begun
        rw [begun_eq, if_pos rfl] at hbegun
        rw [hbegun]
        exact List.cons_ne_nil _ _
    · intro hnil
      rw [hnil] at hheadings
      revert hheadings
      decide

theorem rstrip_self (h : validateSelf self = .ok ()) : rstrip self ≠ "" := by
  obtain ⟨hlines, -, -⟩ := validateSelf_ok.mp h
  apply rstrip_ne_of_headings
  rw [headings_eq, hlines]
  exact List.cons_ne_nil _ _

theorem begun_memoryAfter (h : validateMemory memory = .ok ()) (hadds : Placeable adds) :
    begun (memoryAfter memory adds) = grown (begun memory) adds := by
  by_cases hne : adds = []
  · rw [memoryAfter, grown, if_pos hne, if_pos hne]
  · rw [memoryAfter, if_neg hne, begun_eq, if_neg (grown_ne (rstrip_begun h) hadds)]

theorem memoryAfter_fresh {line : String} (h : validateMemory memory = .ok ()) (hadds : Placeable adds)
    (hi : IsItem line) (hfresh : Fresh memory line) (hnew : ∀ a ∈ adds, a.2 ≠ line) :
    line ∉ splitlines (memoryAfter memory adds) := by
  rw [memoryAfter]
  split
  · exact hfresh.not_mem hi.stripped
  · exact grown_fresh (rstrip_begun h) hadds hi (fresh_begun hi hfresh) hnew

theorem append_memoryAfter {heading line : String} (h : validateMemory memory = .ok ()) (hadds : Placeable adds)
    (hi : IsItem line) (hfresh : Fresh memory line) (hnew : ∀ a ∈ adds, a.2 ≠ line) :
    appendSectionLines (begun (memoryAfter memory adds)) heading [line] =
      memoryAfter memory (adds ++ [(heading, line)]) := by
  rw [begun_memoryAfter h hadds, append_grown (rstrip_begun h) hadds hi (fresh_begun hi hfresh) hnew]
  exact (if_neg (by simp)).symm

/-- What the additions make of the documents. -/
def answered (additions : List (Addition String)) (memory self : String) : Documents String :=
  { memory := memoryAfter memory ((additionsTo "memory" additions).map Addition.entry)
    self := grown self ((additionsTo "self" additions).map Addition.entry)
    evidence := { memory := gathered (additionsTo "memory" additions), self := gathered (additionsTo "self" additions) } }

theorem length_splitlines {line : String} (hi : IsItem line) : (splitlines line).length = 1 := by
  obtain ⟨rest, hrest⟩ := hi.toList
  rw [splitlines, splitlinesFrom_last hi.unbroken (by simp [hrest])]
  rfl

theorem checkAddition_ok {sections : List String} {a : Addition String} (hs : a.heading ∈ sections) (hi : IsItem a.line)
    (hids : a.messageIds ≠ []) (hnew : a.line ∉ splitlines content) : checkAddition content sections a = .ok () := by
  have hline : ¬ (¬ Textual.startsWith "- " a.line ∨ Textual.strip a.line ≠ a.line ∨
      (Textual.splitlines a.line).length ≠ 1) := by
    rw [not_or, not_or, not_not, not_not, not_not]
    exact ⟨hi.dash, hi.stripped, length_splitlines hi⟩
  rw [checkAddition, if_neg (not_not.mpr hs), if_neg hline, if_neg hids]
  exact if_neg hnew

theorem gathered_append (xs : List (Addition String)) (a : Addition String) :
    gathered (xs ++ [a]) = (gathered xs).set a.line a.messageIds := List.foldl_append ..

theorem WellFormed.init {a : Addition String} (h : WellFormed (additions ++ [a]) sources memory self) :
    WellFormed additions sources memory self where
  validMemory := h.validMemory
  validSelf := h.validSelf
  heading b hb := h.heading b (List.mem_append_left _ hb)
  entry b hb := h.entry b (List.mem_append_left _ hb)
  distinct := by
    have hall := h.distinct
    rw [List.map_append] at hall
    exact (List.nodup_append.mp hall).1
  freshMemory b hb := h.freshMemory b (by rw [additionsTo_append]; exact List.mem_append_left _ hb)
  freshSelf b hb := h.freshSelf b (by rw [additionsTo_append]; exact List.mem_append_left _ hb)
  ids b hb := h.ids b (List.mem_append_left _ hb)
  known b hb := h.known b (List.mem_append_left _ hb)
  user b hb := h.user b (List.mem_append_left _ hb)

/-- No line of the document is added twice. -/
theorem WellFormed.unlike {a : Addition String} {document : String} (h : WellFormed (additions ++ [a]) sources memory self)
    (hdoc : a.document = document) : ∀ e ∈ (additionsTo document additions).map Addition.entry, e.2 ≠ a.line := by
  intro e he heq
  obtain ⟨b, hb, rfl⟩ := List.mem_map.mp he
  obtain ⟨hin, hbdoc⟩ := List.mem_filter.mp hb
  have hall := h.distinct
  rw [List.map_append] at hall
  refine (List.nodup_append.mp hall).2.2 (b.document, b.line) (List.mem_map.mpr ⟨b, hin, rfl⟩) (a.document, a.line)
    (by simp) ?_
  rw [of_decide_eq_true hbdoc, hdoc]
  exact congrArg (Prod.mk document) heq

/-- Every addition is put in. -/
theorem foldlM_addLine (h : WellFormed additions sources memory self) :
    additions.foldlM addLine { memory := memory, self := self } = .ok (answered additions memory self) := by
  induction additions using List.reverseRecOn with
  | nil => rfl
  | append_singleton additions a ih =>
      have hbefore := h.init
      have hi : IsItem a.line := h.item a (by simp)
      have hheading := h.heading a (by simp)
      have hids := h.ids a (by simp)
      have hplaceMemory := placeable_memory hbefore.heading hbefore.item
      have hplaceSelf := placeable_self hbefore.heading hbefore.item
      rw [List.foldlM_append, ih hbefore]
      have hstep : addLine (answered additions memory self) a = .ok (answered (additions ++ [a]) memory self) := by
        rw [addLine]
        by_cases hdoc : a.document = "memory"
        · have hfresh := h.freshMemory a (by rw [additionsTo_append, additionsTo_self hdoc]; simp)
          have hother : a.document ≠ "self" := by rw [hdoc]; decide
          rw [hdoc] at hheading
          have hcheck : checkAddition (answered additions memory self).memory (memorySections ++ [memoryOptionalHeading]) a =
              .ok () := checkAddition_ok hheading hi hids
            (memoryAfter_fresh h.validMemory hplaceMemory hi hfresh (h.unlike hdoc))
          rw [if_pos hdoc, hcheck]
          simp only [answered, additionsTo_append, additionsTo_self hdoc, additionsTo_other hother, List.append_nil,
            List.map_append, List.map_singleton, gathered_append]
          rw [append_memoryAfter h.validMemory hplaceMemory hi hfresh (h.unlike hdoc)]
          rfl
        · have hself : a.document = "self" := by
            by_contra hnot
            rw [sectionsOf, if_neg hdoc, if_neg hnot] at hheading
            cases hheading
          have hfresh := h.freshSelf a (by rw [additionsTo_append, additionsTo_self hself]; simp)
          rw [hself] at hheading
          have hcheck : checkAddition (answered additions memory self).self selfSections a = .ok () :=
            checkAddition_ok hheading hi hids
              (grown_fresh (rstrip_self h.validSelf) hplaceSelf hi hfresh (h.unlike hself))
          rw [if_neg hdoc, if_pos hself, hcheck]
          simp only [answered, additionsTo_append, additionsTo_self hself, additionsTo_other hdoc, List.append_nil,
            List.map_append, List.map_singleton, gathered_append]
          rw [append_grown (rstrip_self h.validSelf) hplaceSelf hi hfresh (h.unlike hself)]
          rfl
      rw [← hstep]
      exact bind_pure (addLine (answered additions memory self) a)

/-! ## What the checks say of the new texts -/

theorem map_strip_items (hadds : Placeable adds) : adds.map (fun e => (e.1, strip e.2)) = adds := by
  have hself : ∀ e ∈ adds, ((e.1, strip e.2) : String × String) = e := fun e he => by rw [(hadds e he).2.stripped]
  rw [List.map_congr_left hself, List.map_id']

/-- The entries of a document with lines whose headings fit. -/
theorem entries_grown (hc : rstrip content ≠ "") (hadds : Placeable adds)
    (hfit : ∀ a ∈ adds, Fit (headingLines (trimmedLines content)) a.1) :
    (entries "" (splitlines (grown content adds))).Perm (entries "" (splitlines content) ++ adds) ∧
      (entries "" (splitlines content)).Sublist (entries "" (splitlines (grown content adds))) := by
  by_cases hne : adds = []
  · rw [grown, if_pos hne, hne, List.append_nil]
    exact ⟨List.Perm.refl _, List.Sublist.refl _⟩
  · obtain ⟨hperm, hsub⟩ := @tagged_placeAll _ notBlank _ hadds (fun a ha => (hadds a ha).2.notBlank) (by decide) hfit
    rw [grown_lines hc hadds hne, entries_rstrip hc, entries_eq, entries_eq]
    refine ⟨?_, hsub.map _⟩
    have hmap := hperm.map fun e : String × String => (e.1, strip e.2)
    rw [List.map_append, map_strip_items hadds] at hmap
    exact hmap

/-- Headings are only added, each in the place of one that was not found. -/
theorem headings_grown (hc : rstrip content ≠ "") (hadds : Placeable adds) :
    ∃ more, headings (grown content adds) = headings content ++ more ∧ ∀ h ∈ more, ∃ a ∈ adds, h = a.1 := by
  by_cases hne : adds = []
  · exact ⟨[], by rw [grown, if_pos hne, List.append_nil], by simp⟩
  · obtain ⟨more, hmore, hfrom, -⟩ := headingLines_placeAll (trimmedLines content) hadds
    have hstrip : more.map strip = more := by
      refine (List.map_congr_left fun h hh => ?_).trans (List.map_id' more)
      obtain ⟨a, ha, rfl⟩ := hfrom h hh
      exact (hadds a ha).1.stripped
    refine ⟨more, ?_, hfrom⟩
    rw [headings_eq, grown_lines hc hadds hne, hmore, List.map_append, ← headings_rstrip hc, hstrip]

theorem hasFence_iff : hasFence content = true ↔ "```".toList <:+: content.toList := decide_eq_true_iff

theorem hasFence_unlines {lines : List String} (h : ∀ l ∈ lines, hasFence l = false) : hasFence (unlines lines) = false := by
  rw [Bool.eq_false_iff, ne_eq, hasFence_iff]
  intro hfence
  obtain ⟨l, hl, hin⟩ := infix_unlines (by decide) (by decide) hfence
  have hnot := h l hl
  rw [← hasFence_iff, hnot] at hin
  cases hin

theorem hasFence_grown (hc : hasFence content = false) (hadds : Placeable adds) : hasFence (grown content adds) = false := by
  rw [grown]
  split
  · exact hc
  · refine hasFence_unlines fun l hl => ?_
    rcases mem_placeAll hl with hl | rfl | ⟨a, ha, rfl | rfl⟩
    · have hprefix : (rstrip content).toList <+: content.toList := by
        rw [rstrip, String.toList_ofList]
        exact List.rdropWhile_prefix isSpace content.toList
      by_contra hfence
      rw [Bool.not_eq_false, hasFence_iff] at hfence
      have hwhole := hasFence_iff.mpr ((hfence.trans ( splitlines_infix hl)).trans hprefix.isInfix)
      rw [hc] at hwhole
      cases hwhole
    · decide
    · exact (hadds a ha).1.fence
    · exact (hadds a ha).2.fence

theorem IsSection.notFact {heading : String} (h : IsSection heading) : isFact heading = false := by
  obtain ⟨rest, hrest⟩ := startsWith_hash.mp h.hash
  rw [isFact, lstrip, hrest, List.dropWhile_cons_of_neg (by decide), startsWith, String.toList_ofList]
  simp [List.isPrefixOf]

theorem validatePreservedBullets_ok {before after document : String} :
    validatePreservedBullets before after document = .ok () ↔ ∀ f ∈ facts before, f ∈ facts after := by
  have hnone : ((((facts before).filter fun fact => fact ∉ facts after).dedup.insertionSort (· ≤ ·)) = []) ↔
      ∀ f ∈ facts before, f ∈ facts after := by
    rw [← List.length_eq_zero_iff, List.length_insertionSort, List.length_eq_zero_iff, List.dedup_eq_nil,
      List.filter_eq_nil_iff]
    exact forall₂_congr fun f _ => by rw [decide_eq_true_eq, not_not]
  rw [validatePreservedBullets, ← hnone]
  split
  · next h => exact iff_of_true rfl h
  · next h => exact iff_of_false (fun hok => by cases hok) h

/-- The facts of a document are kept as far as they outlast the white space at its end. -/
theorem facts_grown (hc : rstrip content ≠ "") (hadds : Placeable adds) (hne : adds ≠ [])
    (hfresh : ∀ a ∈ adds, Fresh content a.2) (document : String) :
    validatePreservedBullets content (grown content adds) document = .ok () ↔
      ∀ f ∈ facts content, f ∈ facts (rstrip content) := by
  have hiff : ∀ f ∈ facts content, f ∈ facts (grown content adds) ↔ f ∈ facts (rstrip content) := by
    intro f hf
    rw [facts, grown_lines hc hadds hne]
    constructor
    · intro hin
      obtain ⟨l, hl, rfl⟩ := List.mem_map.mp hin
      obtain ⟨hl, hfact⟩ := List.mem_filter.mp hl
      rcases mem_placeAll hl with hl | rfl | ⟨a, ha, rfl | rfl⟩
      · exact List.mem_map_of_mem (List.mem_filter.mpr ⟨hl, hfact⟩)
      · cases hfact
      · rw [(hadds a ha).1.notFact] at hfact
        cases hfact
      · exfalso
        obtain ⟨l, hl, heq⟩ := List.mem_map.mp hf
        rw [(hadds a ha).2.stripped] at heq
        exact hfresh a ha (heq ▸ List.mem_map_of_mem (List.mem_of_mem_filter hl))
    · intro hin
      obtain ⟨l, hl, rfl⟩ := List.mem_map.mp hin
      obtain ⟨hl, hfact⟩ := List.mem_filter.mp hl
      exact List.mem_map_of_mem (List.mem_filter.mpr ⟨mem_placeAll_of_mem hl, hfact⟩)
  rw [validatePreservedBullets_ok]
  exact forall₂_congr hiff

/-- Fitting headings stay without repetition. -/
theorem nodup_headings_placeAll {lines : List String} (hadds : Placeable adds)
    (hfit : ∀ a ∈ adds, Fit (headingLines lines) a.1) (hnodup : ((headingLines lines).map strip).Nodup) :
    ((headingLines (placeAll lines adds)).map strip).Nodup := by
  induction adds generalizing lines with
  | nil => exact hnodup
  | cons a adds ih =>
      obtain ⟨hs, hi⟩ := hadds a (List.mem_cons_self ..)
      refine ih hadds.tail (fun b hb => (hfit b (List.mem_cons_of_mem _ hb)).place (hadds.tail b hb).1 hs hi) ?_
      rw [headingLines_place lines hs hi]
      split
      · rw [List.append_nil]
        exact hnodup
      · next hnot =>
          rw [List.map_append, List.map_singleton, hs.stripped, List.nodup_append]
          refine ⟨hnodup, List.nodup_singleton _, fun x hx y hy heq => hnot ?_⟩
          rw [heq, List.mem_singleton.mp hy] at hx
          exact (mem_headingLines hs).mp (hfit a (List.mem_cons_self ..) hx).1

theorem exists_of_forall₂ {α β : Type} {R : α → β → Prop} {xs : List α} {ys : List β} (h : List.Forall₂ R xs ys) {x : α}
    (hx : x ∈ xs) : ∃ y ∈ ys, R x y := by
  induction h with
  | nil => cases hx
  | cons hone hrest ih =>
      rcases List.mem_cons.mp hx with rfl | hx
      · exact ⟨_, List.mem_cons_self .., hone⟩
      · obtain ⟨y, hy, hR⟩ := ih hx
        exact ⟨y, List.mem_cons_of_mem _ hy, hR⟩

theorem mem_entries {e : String × String} {heading : String} {lines : List String} (h : e ∈ entries heading lines) :
    e.2 ∈ lines.map strip := by
  rw [entries_eq] at h
  obtain ⟨t, ht, rfl⟩ := List.mem_map.mp h
  exact List.mem_map_of_mem (mem_tagged ht).1

/-- Lines that came below their headings had headings that fitted. -/
theorem fit_of_added (hc : rstrip content ≠ "") (hadds : Placeable adds) (hne : adds ≠ [])
    (hfresh : ∀ a ∈ adds, Fresh content a.2) (hdistinct : (adds.map Prod.snd).Nodup)
    (hnodup : (headings (grown content adds)).Nodup)
    (hperm : (entries "" (splitlines (grown content adds))).Perm (entries "" (splitlines content) ++ adds)) :
    ∀ a ∈ adds, Fit (headingLines (trimmedLines content)) a.1 := by
  rw [headings_eq, grown_lines hc hadds hne] at hnodup
  obtain ⟨placed, hplaced, hall⟩ := @tagged_placeAll_unfit _ notBlank _ hadds
    (fun a ha => (hadds a ha).2.notBlank) (by decide) hnodup
  intro a ha
  -- the addition stands below its heading, and it is one of those that were put in
  have hthere : a ∈ entries "" (splitlines (grown content adds)) := hperm.mem_iff.mpr (List.mem_append_right _ ha)
  rw [grown_lines hc hadds hne, entries_eq, (hplaced.map _).mem_iff, List.map_append, ← entries_eq,
    ← entries_rstrip hc, List.mem_append] at hthere
  rcases hthere with hold | hnew
  · exact absurd (mem_entries hold) (hfresh a ha)
  · obtain ⟨t, ht, heq⟩ := List.mem_map.mp hnew
    obtain ⟨b, hb, hline, hfit⟩ := exists_of_forall₂ hall ht
    have hsame : a.2 = b.2 := by rw [← heq, ← (hadds b hb).2.stripped, ← hline]
    have hab : a = b := List.inj_on_of_nodup_map hdistinct ha hb hsame
    rw [hab]
    refine hfit (hadds b hb).1 ?_
    rw [← hab, ← heq]

/-! ## Texts that extend earlier ones -/

/-- A text with the lines of an earlier one below their headings and in their order, each added
line once in its section, and nothing else but headings that were missing.  Lines count without
the white space around them. -/
structure Extends (before after : String) (adds : List (String × String)) (standard : List String) : Prop where
  kept : (entries "" (splitlines before)).Sublist (entries "" (splitlines after))
  added : (entries "" (splitlines after)).Perm (entries "" (splitlines before) ++ adds)
  once : ∀ a ∈ adds, ((entries "" (splitlines after)).map Prod.snd).count a.2 = 1
  headings : ∃ more, Profiles.headings after = Profiles.headings before ++ more ∧
    ∀ h ∈ more, h ∈ standard ∧ h ∉ Profiles.headings before

variable {standard : List String}

theorem count_added {before after : List (String × String)} (hperm : after.Perm (before ++ adds))
    (hfresh : ∀ a ∈ adds, a.2 ∉ before.map Prod.snd) (hdistinct : (adds.map Prod.snd).Nodup) :
    ∀ a ∈ adds, (after.map Prod.snd).count a.2 = 1 := by
  intro a ha
  rw [(hperm.map Prod.snd).count_eq, List.map_append, List.count_append,
    List.count_eq_zero_of_not_mem (hfresh a ha), List.count_eq_one_of_mem hdistinct (List.mem_map_of_mem ha)]

theorem fresh_entries (hfresh : ∀ a ∈ adds, Fresh content a.2) :
    ∀ a ∈ adds, a.2 ∉ (entries "" (splitlines content)).map Prod.snd := by
  intro a ha hin
  obtain ⟨e, he, heq⟩ := List.mem_map.mp hin
  exact hfresh a ha (heq ▸ mem_entries he)

theorem nodup_headings_grown (hc : rstrip content ≠ "") (hadds : Placeable adds)
    (hfit : ∀ a ∈ adds, Fit (headingLines (trimmedLines content)) a.1) (hnodup : (headings content).Nodup) :
    (headings (grown content adds)).Nodup := by
  by_cases hne : adds = []
  · rw [grown, if_pos hne]
    exact hnodup
  · rw [headings_eq, grown_lines hc hadds hne]
    rw [headings_rstrip hc] at hnodup
    exact nodup_headings_placeAll hadds hfit hnodup

theorem extends_grown (hc : rstrip content ≠ "") (hadds : Placeable adds)
    (hfit : ∀ a ∈ adds, Fit (headingLines (trimmedLines content)) a.1) (hnodup : (headings content).Nodup)
    (hfresh : ∀ a ∈ adds, Fresh content a.2) (hdistinct : (adds.map Prod.snd).Nodup)
    (hstandard : ∀ a ∈ adds, a.1 ∈ standard) : Extends content (grown content adds) adds standard := by
  obtain ⟨hperm, hsub⟩ := entries_grown hc hadds hfit
  obtain ⟨more, hmore, hfrom⟩ := headings_grown hc hadds
  have hafter := nodup_headings_grown hc hadds hfit hnodup
  rw [hmore] at hafter
  refine ⟨hsub, hperm, count_added hperm (fresh_entries hfresh) hdistinct, more, hmore, fun h hh => ⟨?_, fun hin => ?_⟩⟩
  · obtain ⟨a, ha, rfl⟩ := hfrom h hh
    exact hstandard a ha
  · exact (List.nodup_append.mp hafter).2.2 h hin h hh rfl

/-- Headings as they are spelled fit. -/
theorem fit_of_sections {found : List String} (h : ∀ s ∈ found, IsSection s) (s : String) : Fit found s := by
  intro hs
  have hstrip : found.map strip = found :=
    (List.map_congr_left fun s hs => (h s hs).stripped).trans (List.map_id' found)
  rw [hstrip] at hs
  exact ⟨hs, fun l hl => (h l (hl.subset (List.mem_cons_of_mem _ (List.mem_cons_self ..)))).hash⟩

theorem tidy_begun : Tidy ["# 用户长期记忆", "", "## 用户事实", "", "## 用户偏好", "", "## 用户明确要求长期记住的关键内容"] := by
  refine ⟨by simp [Unbroken, isLineBreak, isLineBreakPoint], ["# 用户长期记忆", "", "## 用户事实", "", "## 用户偏好", ""],
    "## 用户明确要求长期记住的关键内容", rfl, ?_⟩
  exact (memory_sections _ (by simp [memorySections])).solid

theorem memory_title : IsSection "# 用户长期记忆" := ⟨by decide, by decide, by simp [Unbroken, isLineBreak, isLineBreakPoint], by decide⟩

theorem fit_begun (s : String) : Fit (headingLines (trimmedLines (begun ""))) s := by
  refine fit_of_sections (fun h hh => ?_) s
  have hlines : trimmedLines (begun "") = _ := begun_empty ▸ splitlines_rstrip_unlines tidy_begun
  rw [hlines] at hh
  have hall : ∀ h ∈ headingLines ["# 用户长期记忆", "", "## 用户事实", "", "## 用户偏好", "",
      "## 用户明确要求长期记住的关键内容"], h = "# 用户长期记忆" ∨ h ∈ memorySections ++ [memoryOptionalHeading] := by decide
  rcases hall h hh with rfl | hsection
  · exact memory_title
  · exact memory_sections h hsection

/-! ## MEMORY.md -/

theorem hasFence_begun : hasFence (begun "") = false := by
  rw [begun_empty]
  refine hasFence_unlines ?_
  decide

theorem begun_of_ne (h : memory ≠ "") : begun memory = memory := if_neg h

/-- A valid MEMORY.md has its headings as soon as lines are put in. -/
theorem headings_of_memory (h : validateMemory memory = .ok ()) :
    headings (begun memory) ∈ [memoryHeadings, memoryHeadings ++ [memoryOptionalHeading]] ∧
      hasFence (begun memory) = false := by
  rcases validateMemory_ok.mp h with rfl | ⟨hheadings, hfence, -⟩
  · rw [headings_begun]
    exact ⟨List.mem_cons_self .., hasFence_begun⟩
  · have hne : memory ≠ "" := by
      rintro rfl
      revert hheadings
      decide
    rw [begun_of_ne hne]
    exact ⟨hheadings, hfence⟩

theorem nodup_memory {found : List String} (h : found ∈ [memoryHeadings, memoryHeadings ++ [memoryOptionalHeading]]) :
    found.Nodup := by
  have hall : ∀ f ∈ [memoryHeadings, memoryHeadings ++ [memoryOptionalHeading]], f.Nodup := by decide
  exact hall found h

/-- Of the headings only the optional one may be missing. -/
theorem headings_more {found more : List String} (h : found ∈ [memoryHeadings, memoryHeadings ++ [memoryOptionalHeading]])
    (hmore : ∀ s ∈ more, s ∈ memorySections ++ [memoryOptionalHeading]) (hnodup : (found ++ more).Nodup) :
    found ++ more ∈ [memoryHeadings, memoryHeadings ++ [memoryOptionalHeading]] := by
  obtain ⟨-, hnodupMore, hdisjoint⟩ := List.nodup_append.mp hnodup
  have hsub : ∀ s ∈ memorySections, s ∈ found := by
    intro s hs
    rcases List.mem_pair.mp h with rfl | rfl
    · exact List.mem_cons_of_mem _ hs
    · exact List.mem_append_left _ (List.mem_cons_of_mem _ hs)
  have honly : ∀ s ∈ more, s = memoryOptionalHeading := by
    intro s hs
    rcases List.mem_append.mp (hmore s hs) with hin | hin
    · exact absurd rfl (hdisjoint s (hsub s hin) s hs)
    · exact List.mem_singleton.mp hin
  cases more with
  | nil =>
      rw [List.append_nil]
      exact h
  | cons s rest =>
      have hs := honly s (List.mem_cons_self ..)
      have hrest : rest = [] := by
        refine List.eq_nil_iff_forall_not_mem.mpr fun t ht => (List.nodup_cons.mp hnodupMore).1 ?_
        rw [hs, ← honly t (List.mem_cons_of_mem _ ht)]
        exact ht
      rcases List.mem_pair.mp h with rfl | rfl
      · rw [hs, hrest]
        simp
      · exact absurd rfl (hdisjoint s (by rw [hs]; simp) s (List.mem_cons_self ..))

theorem fact_grown (hc : rstrip content ≠ "") (hadds : Placeable adds) (hne : adds ≠ [])
    (hfit : ∀ a ∈ adds, Fit (headingLines (trimmedLines content)) a.1) :
    ∃ l ∈ splitlines (grown content adds), isFact l = true := by
  obtain ⟨a, ha⟩ := List.exists_mem_of_ne_nil adds hne
  have hperm := (@tagged_placeAll _ isFact _ hadds (fun a ha => (hadds a ha).2.isFact) (by decide) hfit).1
  have hin := hperm.mem_iff.mpr (List.mem_append_right _ ha)
  rw [grown_lines hc hadds hne]
  exact ⟨a.2, (mem_tagged hin).1, (mem_tagged hin).2.1⟩

theorem validate_memoryAfter (h : validateMemory memory = .ok ()) (hadds : Placeable adds)
    (hsections : ∀ a ∈ adds, a.1 ∈ memorySections ++ [memoryOptionalHeading])
    (hfit : ∀ a ∈ adds, Fit (headingLines (trimmedLines (begun memory))) a.1) :
    validateMemory (memoryAfter memory adds) = .ok () := by
  rw [memoryAfter]
  split
  · exact h
  · next hne =>
      have hc := rstrip_begun h
      obtain ⟨hheadings, hfence⟩ := headings_of_memory h
      obtain ⟨more, hmore, hfrom⟩ := headings_grown hc hadds
      have hnodup := nodup_headings_grown hc hadds hfit (nodup_memory hheadings)
      refine validateMemory_ok.mpr (Or.inr ⟨?_, hasFence_grown hfence hadds, fact_grown hc hadds hne hfit⟩)
      rw [hmore] at hnodup ⊢
      refine headings_more hheadings (fun s hs => ?_) hnodup
      obtain ⟨a, ha, rfl⟩ := hfrom s hs
      exact hsections a ha

theorem extends_refl (content : String) (standard : List String) : Extends content content [] standard :=
  ⟨List.Sublist.refl _, by rw [List.append_nil], by simp, [], (List.append_nil _).symm, by simp⟩

theorem extends_memoryAfter (h : validateMemory memory = .ok ()) (hadds : Placeable adds)
    (hsections : ∀ a ∈ adds, a.1 ∈ memorySections ++ [memoryOptionalHeading])
    (hfit : ∀ a ∈ adds, Fit (headingLines (trimmedLines (begun memory))) a.1)
    (hfresh : ∀ a ∈ adds, Fresh memory a.2) (hdistinct : (adds.map Prod.snd).Nodup) :
    Extends memory (memoryAfter memory adds) adds (memoryHeadings ++ [memoryOptionalHeading]) := by
  by_cases hne : adds = []
  · rw [memoryAfter, if_pos hne, hne]
    exact extends_refl memory _
  · have hgrown : Extends (begun memory) (grown (begun memory) adds) adds (memoryHeadings ++ [memoryOptionalHeading]) :=
      extends_grown (rstrip_begun h) hadds hfit (nodup_memory (headings_of_memory h).1)
        (fun a ha => fresh_begun (hadds a ha).2 (hfresh a ha)) hdistinct
        fun a ha => List.mem_cons_of_mem _ (hsections a ha)
    rw [memoryAfter, if_neg hne]
    by_cases hempty : memory = ""
    · obtain ⟨more, hmore, hfrom⟩ := hgrown.headings
      have hperm := hgrown.added
      subst hempty
      rw [entries_begun] at hperm
      rw [headings_begun] at hmore hfrom
      refine ⟨List.nil_sublist _, hperm, hgrown.once, memoryHeadings ++ more, hmore, fun s hs => ⟨?_, List.not_mem_nil⟩⟩
      rcases List.mem_append.mp hs with hs | hs
      · exact List.mem_append_left _ hs
      · exact (hfrom s hs).1
    · rw [begun_of_ne hempty] at hgrown ⊢
      exact hgrown

/-! ## SELF.md -/

theorem filled_grown (hc : rstrip self ≠ "") (hadds : Placeable adds) (hne : adds ≠ [])
    (hfit : ∀ a ∈ adds, Fit (headingLines (trimmedLines self)) a.1) :
    Filled (splitlines (grown self adds)) ↔
      ∀ s ∈ selfSections, (∃ e ∈ tagged isFact "" (trimmedLines self), e.1 = s) ∨ ∃ a ∈ adds, a.1 = s := by
  have hperm := (@tagged_placeAll _ isFact _ hadds (fun a ha => (hadds a ha).2.isFact) (by decide) hfit).1
  rw [Filled, grown_lines hc hadds hne]
  refine forall₂_congr fun s hs => ?_
  constructor
  · rintro ⟨e, he, heq⟩
    rcases List.mem_append.mp (hperm.mem_iff.mp he) with he | he
    · exact Or.inl ⟨e, he, heq⟩
    · exact Or.inr ⟨e, he, heq⟩
  · rintro (⟨e, he, heq⟩ | ⟨a, ha, heq⟩)
    · exact ⟨e, hperm.mem_iff.mpr (List.mem_append_left _ he), heq⟩
    · exact ⟨a, hperm.mem_iff.mpr (List.mem_append_right _ ha), heq⟩

/-- The headings of a valid SELF.md are spelled as they should be. -/
theorem headingLines_self (h : validateSelf self = .ok ()) : headingLines (trimmedLines self) = selfHeadings := by
  obtain ⟨hlines, -, -⟩ := validateSelf_ok.mp h
  have hself : selfHeadings.map strip = selfHeadings :=
    (List.map_congr_left fun s hs => (self_sections s hs).stripped).trans (List.map_id' _)
  have hmap := headings_rstrip (rstrip_self h)
  rw [headings_eq, hlines, hself] at hmap
  refine eq_of_stripped hmap.symm nodup_self fun s hs => ⟨(self_sections s hs).stripped, ?_⟩
  rw [mem_headingLines (self_sections s hs)]
  refine mem_trimmed ?_ (self_sections s hs).solid
  rw [← mem_headingLines (self_sections s hs), hlines]
  exact hs

theorem fit_self (h : validateSelf self = .ok ()) (s : String) : Fit (headingLines (trimmedLines self)) s := by
  rw [headingLines_self h]
  exact fit_of_sections self_sections s

theorem validate_selfAfter (h : validateSelf self = .ok ()) (hadds : Placeable adds) (hne : adds ≠ [])
    (hsections : ∀ a ∈ adds, a.1 ∈ selfSections) : validateSelf (grown self adds) = .ok () ↔
      ∀ s ∈ selfSections, (∃ e ∈ tagged isFact "" (trimmedLines self), e.1 = s) ∨ ∃ a ∈ adds, a.1 = s := by
  obtain ⟨-, hfence, -⟩ := validateSelf_ok.mp h
  have hc := rstrip_self h
  have hlines : headingLines (splitlines (grown self adds)) = selfHeadings := by
    obtain ⟨more, hmore, hfrom, -⟩ := headingLines_placeAll (trimmedLines self) hadds
    have hself : selfHeadings.map strip = selfHeadings :=
      (List.map_congr_left fun s hs => (self_sections s hs).stripped).trans (List.map_id' _)
    have hnodup := nodup_headings_placeAll hadds (fun a _ => fit_self h a.1)
      (by rw [headingLines_self h, hself]; exact nodup_self)
    rw [hmore, headingLines_self h, List.map_append, hself] at hnodup
    have hnone : more = [] := by
      refine List.eq_nil_iff_forall_not_mem.mpr fun s hs => ?_
      obtain ⟨a, ha, rfl⟩ := hfrom s hs
      have hin : a.1 ∈ more.map strip := List.mem_map.mpr ⟨a.1, hs, (hadds a ha).1.stripped⟩
      exact (List.nodup_append.mp hnodup).2.2 a.1 (List.mem_cons_of_mem _ (hsections a ha)) a.1 hin rfl
    rw [grown_lines hc hadds hne, hmore, hnone, List.append_nil, headingLines_self h]
  rw [validateSelf_ok, filled_grown hc hadds hne fun a _ => fit_self h a.1]
  exact ⟨fun hall => hall.2.2, fun hall => ⟨hlines, hasFence_grown hfence hadds, hall⟩⟩

/-! ## The evidence -/

theorem checkEntries_ok {document : Document} {cited : Dict String (List String)} {list : List (String × String)} :
    checkEntries document cited sources list = .ok () ↔ ∀ e ∈ list, startsWith "- " e.2 = true ∧
      (cited.get? e.2).getD [] ≠ [] ∧ (∀ id ∈ (cited.get? e.2).getD [], id ∈ sources.map Source.messageId) ∧
      (isUserFact document e.1 = true →
        ∃ m ∈ sources, m.isUserInput = true ∧ m.messageId ∈ (cited.get? e.2).getD []) := by
  induction list with
  | nil => exact iff_of_true rfl (by simp)
  | cons e rest ih =>
      obtain ⟨heading, line⟩ := e
      rw [checkEntries, List.forall_mem_cons, ← ih]
      dsimp only
      by_cases hdash : startsWith "- " line = true
      · by_cases hids : (cited.get? line).getD [] = [] ∨
            ((cited.get? line).getD []).any fun id => id ∉ sources.map Source.messageId
        · rw [if_neg (by simp [hdash]), if_pos hids]
          refine iff_of_false (fun h => by cases h) fun h => ?_
          rcases hids with hids | hids
          · exact h.1.2.1 hids
          · obtain ⟨id, hid, hnot⟩ := List.any_eq_true.mp hids
            exact of_decide_eq_true hnot (h.1.2.2.1 id hid)
        · rw [if_neg (by simp [hdash]), if_neg hids]
          rw [not_or, List.any_eq_true] at hids
          have hknown : ∀ id ∈ (cited.get? line).getD [], id ∈ sources.map Source.messageId := fun id hid => by
            by_contra hnot
            exact hids.2 ⟨id, hid, decide_eq_true hnot⟩
          by_cases huser : isUserFact document heading = true ∧
              ¬ sources.any fun m => m.isUserInput ∧ m.messageId ∈ (cited.get? line).getD []
          · rw [if_pos huser]
            refine iff_of_false (fun h => by cases h) fun h => huser.2 ?_
            obtain ⟨m, hm, hboth⟩ := h.1.2.2.2 huser.1
            exact List.any_eq_true.mpr ⟨m, hm, decide_eq_true hboth⟩
          · rw [if_neg huser]
            refine (and_iff_right ⟨hdash, hids.1, hknown, fun hfact => ?_⟩).symm
            by_contra hnone
            refine huser ⟨hfact, fun hany => hnone ?_⟩
            obtain ⟨m, hm, hboth⟩ := List.any_eq_true.mp hany
            exact ⟨m, hm, of_decide_eq_true hboth⟩
      · rw [if_pos (by simp [hdash])]
        exact iff_of_false (fun h => by cases h) fun h => hdash h.1.1

theorem gathered_spec {adds : List (Addition String)} (hdistinct : (adds.map Addition.line).Nodup) :
    (gathered adds).keys = adds.map Addition.line ∧ ∀ a ∈ adds, (gathered adds).get? a.line = some a.messageIds := by
  induction adds using List.reverseRecOn with
  | nil => exact ⟨rfl, by simp⟩
  | append_singleton adds a ih =>
      rw [List.map_append] at hdistinct
      obtain ⟨hkeys, hget⟩ := ih (List.nodup_append.mp hdistinct).1
      have hnew : a.line ∉ (gathered adds).keys := by
        rw [hkeys]
        exact fun hin => (List.nodup_append.mp hdistinct).2.2 a.line hin a.line (by simp) rfl
      have hnodup : (gathered adds).keys.Nodup := hkeys ▸ (List.nodup_append.mp hdistinct).1
      rw [gathered_append]
      refine ⟨?_, fun b hb => ?_⟩
      · rw [Dict.keys_set, if_neg hnew, hkeys, List.map_append]
        rfl
      · rw [Dict.get?_set hnodup]
        rcases List.mem_append.mp hb with hb | hb
        · have hother : b.line ≠ a.line := fun heq => hnew (hkeys ▸ heq ▸ List.mem_map_of_mem hb)
          rw [if_neg hother]
          exact hget b hb
        · rw [List.mem_singleton.mp hb, if_pos rfl]

/-- The added entries of a document are those that were put in. -/
theorem checkEvidenceOf_ok (document : Document) {before after : String} {adds : List (Addition String)}
    (hadds : Placeable (adds.map Addition.entry)) (hdistinct : (adds.map Addition.line).Nodup)
    (hfresh : ∀ a ∈ adds, Fresh before a.line) (hids : ∀ a ∈ adds, a.messageIds ≠ [])
    (hknown : ∀ a ∈ adds, ∀ id ∈ a.messageIds, id ∈ sources.map Source.messageId)
    (huser : ∀ a ∈ adds, isUserFact document a.heading = true →
      ∃ m ∈ sources, m.isUserInput = true ∧ m.messageId ∈ a.messageIds)
    (hextends : Extends before after (adds.map Addition.entry) standard) :
    checkEvidenceOf document before after (gathered adds) sources = .ok () := by
  obtain ⟨hkeys, hget⟩ := gathered_spec hdistinct
  have hold : ∀ e ∈ adds.map Addition.entry, e ∉ entries "" (splitlines before) := by
    intro e he hin
    obtain ⟨a, ha, rfl⟩ := List.mem_map.mp he
    exact hfresh a ha (mem_entries hin)
  have hmem : ∀ e, e ∈ (entries "" (splitlines after)).filter (fun e => e ∉ entries "" (splitlines before)) ↔
      e ∈ adds.map Addition.entry := by
    intro e
    rw [List.mem_filter, decide_eq_true_eq, hextends.added.mem_iff, List.mem_append]
    exact ⟨fun h => h.1.resolve_left h.2, fun h => ⟨Or.inr h, hold e h⟩⟩
  have hchecked : checkEntries document (gathered adds) sources
      ((entries "" (splitlines after)).filter fun e => e ∉ entries "" (splitlines before)) = .ok () := by
    refine checkEntries_ok.mpr fun e he => ?_
    obtain ⟨a, ha, rfl⟩ := List.mem_map.mp ((hmem e).mp he)
    have hcited : ((gathered adds).get? a.entry.2).getD [] = a.messageIds := by
      have h := hget a ha
      rw [Addition.entry, h]
      rfl
    rw [hcited]
    exact ⟨(hadds a.entry ((hmem _).mp he)).2.dash, hids a ha, hknown a ha, huser a ha⟩
  have hlines : ∀ line, line ∈ ((entries "" (splitlines after)).filter fun e => e ∉ entries "" (splitlines before)).map
      Prod.snd ↔ line ∈ (gathered adds).keys := by
    intro line
    rw [hkeys, List.mem_map, List.mem_map]
    constructor
    · rintro ⟨e, he, rfl⟩
      obtain ⟨a, ha, rfl⟩ := List.mem_map.mp ((hmem e).mp he)
      exact ⟨a, ha, rfl⟩
    · rintro ⟨a, ha, rfl⟩
      exact ⟨a.entry, (hmem _).mpr (List.mem_map_of_mem ha), rfl⟩
  rw [checkEvidenceOf, hchecked]
  refine if_pos ⟨List.all_eq_true.mpr fun line hline => ?_, List.all_eq_true.mpr fun line hline => ?_⟩
  · exact decide_eq_true ((hlines line).mpr hline)
  · exact decide_eq_true ((hlines line).mp hline)

/-! ## Acceptance -/

/-- The documents take the additions. -/
structure Takes {τ : Type} (additions : List (Addition τ)) (memory ownText : String) : Prop where
  memoryFit : memory ≠ "" → ∀ a ∈ additionsTo "memory" additions, Fit (headingLines (trimmedLines memory)) a.heading
  memoryFacts : additionsTo "memory" additions ≠ [] → ∀ f ∈ facts memory, f ∈ facts (rstrip memory)
  selfFacts : additionsTo "self" additions ≠ [] → ∀ f ∈ facts ownText, f ∈ facts (rstrip ownText)
  selfFilled : additionsTo "self" additions ≠ [] → ∀ s ∈ selfSections,
    (∃ e ∈ tagged isFact "" (trimmedLines ownText), e.1 = s) ∨ ∃ a ∈ additionsTo "self" additions, a.heading = s

/-- The lines added to a document, below their headings. -/
def addedTo (document : String) (additions : List (Addition Text)) : List (String × String) :=
  (additionsTo document additions).map fun a => (a.heading, decode a.line)

/-- The additions are accepted, and the next documents are the old ones with them. -/
def Accepted (additions : List (Addition Text)) (sources : List Source) (memory self : String) : Prop :=
  ∃ docs, checkProfileResponse additions sources memory self = .ok docs ∧
    Extends memory docs.memory (addedTo "memory" additions) (memoryHeadings ++ [memoryOptionalHeading]) ∧
    Extends self docs.self (addedTo "self" additions) selfHeadings ∧
    validateMemory docs.memory = .ok () ∧ validateSelf docs.self = .ok ()

/-! ## Answers of strings -/

theorem addedTo_strings (document : String) (answer : List (Addition String)) :
    addedTo document (answer.map (Addition.map text)) = (additionsTo document answer).map Addition.entry := by
  rw [addedTo, additionsTo_map, List.map_map]
  refine List.map_congr_left fun a _ => ?_
  rw [Function.comp_apply, Addition.map, decode_text, Addition.entry]

theorem Entry.string {line : String} (h : Entry (text line)) : Entry line where
  dash := (text_hom.startsWith "- " line).symm.trans h.dash
  stripped := text_injective ((text_hom.strip line).symm.trans h.stripped)
  single := by
    have hsingle := h.single
    rwa [text_hom.splitlines, List.length_map] at hsingle
  fence := h.fence

theorem Fresh.string {line : String} (h : Fresh content (text line)) : Fresh content line := by
  intro hin
  obtain ⟨l, hl, heq⟩ := List.mem_map.mp hin
  exact h (List.mem_map.mpr ⟨l, hl, congrArg text heq⟩)

theorem WellFormed.strings {answer : List (Addition String)}
    (h : WellFormed (answer.map (Addition.map text)) sources memory self) : WellFormed answer sources memory self := by
  have hin {a : Addition String} (ha : a ∈ answer) : a.map text ∈ answer.map (Addition.map text) := List.mem_map_of_mem ha
  have hto {a : Addition String} {document : String} (ha : a ∈ additionsTo document answer) :
      a.map text ∈ additionsTo document (answer.map (Addition.map text)) := by
    rw [additionsTo_map]
    exact List.mem_map_of_mem ha
  exact {
    validMemory := h.validMemory
    validSelf := h.validSelf
    heading := fun a ha => h.heading _ (hin ha)
    entry := fun a ha => (h.entry _ (hin ha)).string
    distinct := by
      have hmap : (answer.map (Addition.map text)).map (fun a => (a.document, a.line)) =
          (answer.map fun a => (a.document, a.line)).map (Prod.map id text) := by
        rw [List.map_map, List.map_map]
        rfl
      have hdistinct := h.distinct
      rw [hmap] at hdistinct
      exact hdistinct.of_map
    freshMemory := fun a ha => (h.freshMemory _ (hto ha)).string
    freshSelf := fun a ha => (h.freshSelf _ (hto ha)).string
    ids := fun a ha => h.ids _ (hin ha)
    known := fun a ha => h.known _ (hin ha)
    user := fun a ha => h.user _ (hin ha) }

theorem takes_strings {answer : List (Addition String)} :
    Takes (answer.map (Addition.map text)) memory self ↔ Takes answer memory self := by
  have hnil (document : String) :
      additionsTo document (answer.map (Addition.map text)) = [] ↔ additionsTo document answer = [] := by
    rw [additionsTo_map, List.map_eq_nil_iff]
  have hheadings {P : String → Prop} (document : String) :
      (∀ a ∈ additionsTo document (answer.map (Addition.map text)), P a.heading) ↔
        ∀ a ∈ additionsTo document answer, P a.heading := by
    rw [additionsTo_map, List.forall_mem_map]
    rfl
  have hsome (document s : String) :
      (∃ a ∈ additionsTo document (answer.map (Addition.map text)), a.heading = s) ↔
        ∃ a ∈ additionsTo document answer, a.heading = s := by
    rw [additionsTo_map]
    simp only [List.mem_map, exists_exists_and_eq_and, Addition.map]
  constructor
  · rintro ⟨hfit, hmemory, hself, hfilled⟩
    rw [ne_eq, hnil] at hmemory hself hfilled
    exact ⟨fun hne => (hheadings "memory").mp (hfit hne), hmemory, hself,
      fun hne s hs => (hfilled hne s hs).imp_right (hsome "self" s).mp⟩
  · rintro ⟨hfit, hmemory, hself, hfilled⟩
    rw [ne_eq, ← hnil] at hmemory hself hfilled
    exact ⟨fun hne => (hheadings "memory").mpr (hfit hne), hmemory, hself,
      fun hne s hs => (hfilled hne s hs).imp_right (hsome "self" s).mpr⟩

namespace WellFormed

theorem lines_distinct (h : WellFormed additions sources memory self) (document : String) :
    ((additionsTo document additions).map Addition.line).Nodup := by
  have hsub : ((additionsTo document additions).map fun a => (a.document, a.line)).Nodup :=
    h.distinct.sublist (List.filter_sublist.map _)
  have hmap : ((additionsTo document additions).map fun a => (a.document, a.line)) =
      ((additionsTo document additions).map Addition.line).map (Prod.mk document) := by
    rw [List.map_map]
    refine List.map_congr_left fun a ha => ?_
    rw [of_decide_eq_true (List.mem_filter.mp ha).2]
    rfl
  rw [hmap] at hsub
  exact hsub.of_map

theorem entries_distinct (h : WellFormed additions sources memory self) (document : String) :
    (((additionsTo document additions).map Addition.entry).map Prod.snd).Nodup := by
  rw [List.map_map]
  exact h.lines_distinct document

theorem entries_fresh {additions : List (Addition String)} (h : ∀ a ∈ additions, Fresh content a.line) :
    ∀ e ∈ additions.map Addition.entry, Fresh content e.2 := by
  intro e he
  obtain ⟨a, ha, rfl⟩ := List.mem_map.mp he
  exact h a ha

theorem sections (h : WellFormed additions sources memory self) {document : String} :
    ∀ e ∈ (additionsTo document additions).map Addition.entry, e.1 ∈ sectionsOf document := by
  intro e he
  obtain ⟨a, ha, rfl⟩ := List.mem_map.mp he
  have hheading := h.heading a (List.mem_of_mem_filter ha)
  rwa [of_decide_eq_true (List.mem_filter.mp ha).2] at hheading

theorem fit_memory
    (hfit : memory ≠ "" → ∀ a ∈ additionsTo "memory" additions, Fit (headingLines (trimmedLines memory)) a.heading) :
    ∀ e ∈ (additionsTo "memory" additions).map Addition.entry, Fit (headingLines (trimmedLines (begun memory))) e.1 := by
  intro e he
  obtain ⟨a, ha, rfl⟩ := List.mem_map.mp he
  by_cases hempty : memory = ""
  · rw [hempty]
    exact fit_begun _
  · rw [begun_of_ne hempty]
    exact hfit hempty a ha

/-- What the documents become, when they take the additions. -/
theorem extends_answered (h : WellFormed additions sources memory self) (htakes : Takes additions memory self) :
    Extends memory (answered additions memory self).memory ((additionsTo "memory" additions).map Addition.entry)
        (memoryHeadings ++ [memoryOptionalHeading]) ∧
      Extends self (answered additions memory self).self ((additionsTo "self" additions).map Addition.entry)
        selfHeadings := by
  constructor
  · exact extends_memoryAfter h.validMemory (placeable_memory h.heading h.item) h.sections (fit_memory htakes.memoryFit)
      (entries_fresh h.freshMemory) (h.entries_distinct "memory")
  · refine extends_grown (rstrip_self h.validSelf) (placeable_self h.heading h.item)
      (fun e _ => fit_self h.validSelf e.1) ?_ (entries_fresh h.freshSelf) (h.entries_distinct "self")
      fun e he => List.mem_cons_of_mem _ (h.sections e he)
    rw [headings_rstrip (rstrip_self h.validSelf), headingLines_self h.validSelf]
    exact List.Nodup.map_on (fun x hx y hy heq => by
      rwa [(self_sections x hx).stripped, (self_sections y hy).stripped] at heq) nodup_self

theorem valid_answered (h : WellFormed additions sources memory self) (htakes : Takes additions memory self) :
    validateMemory (answered additions memory self).memory = .ok () ∧
      validateSelf (answered additions memory self).self = .ok () := by
  refine ⟨validate_memoryAfter h.validMemory (placeable_memory h.heading h.item) h.sections
    (fit_memory htakes.memoryFit), ?_⟩
  by_cases hne : additionsTo "self" additions = []
  · rw [answered, hne]
    exact h.validSelf
  · refine (validate_selfAfter h.validSelf (placeable_self h.heading h.item) (by simp [hne]) h.sections).mpr fun s hs => ?_
    rcases htakes.selfFilled hne s hs with hold | ⟨a, ha, heq⟩
    · exact Or.inl hold
    · exact Or.inr ⟨a.entry, List.mem_map_of_mem ha, heq⟩

theorem preserved_refl (content document : String) : validatePreservedBullets content content document = .ok () :=
  validatePreservedBullets_ok.mpr fun _ hf => hf

theorem preserved_memory (h : WellFormed additions sources memory self) (hne : additionsTo "memory" additions ≠ []) :
    validatePreservedBullets memory (answered additions memory self).memory "MEMORY.md" = .ok () ↔
      ∀ f ∈ facts memory, f ∈ facts (rstrip memory) := by
  have hne' : (additionsTo "memory" additions).map Addition.entry ≠ [] := by simp [hne]
  by_cases hempty : memory = ""
  · have hnone : facts "" = [] := by decide
    rw [hempty, validatePreservedBullets, hnone]
    simp
  · rw [answered]
    dsimp only
    rw [memoryAfter, if_neg hne', begun_of_ne hempty]
    have hc := rstrip_begun h.validMemory
    rw [begun_of_ne hempty] at hc
    exact facts_grown hc (placeable_memory h.heading h.item) hne' (entries_fresh h.freshMemory) "MEMORY.md"

theorem preserved_self (h : WellFormed additions sources memory self) (hne : additionsTo "self" additions ≠ []) :
    validatePreservedBullets self (answered additions memory self).self "SELF.md" = .ok () ↔
      ∀ f ∈ facts self, f ∈ facts (rstrip self) :=
  facts_grown (rstrip_self h.validSelf) (placeable_self h.heading h.item) (by simp [hne]) (entries_fresh h.freshSelf)
    "SELF.md"

/-- The draft passes its checks. -/
theorem checkDraft_answered (h : WellFormed additions sources memory self) (htakes : Takes additions memory self)
    (version : Nat) (evidence : Option (Evidence String)) :
    checkDraft { version := version, evidence := evidence, memory := (answered additions memory self).memory,
                 self := (answered additions memory self).self, memoryBefore := memory, selfBefore := self } = .ok () := by
  obtain ⟨hmemory, hself⟩ := h.valid_answered htakes
  have hkeptMemory : validatePreservedBullets memory (answered additions memory self).memory "MEMORY.md" = .ok () := by
    by_cases hne : additionsTo "memory" additions = []
    · rw [answered, hne]
      exact preserved_refl memory _
    · exact (h.preserved_memory hne).mpr (htakes.memoryFacts hne)
  have hkeptSelf : validatePreservedBullets self (answered additions memory self).self "SELF.md" = .ok () := by
    by_cases hne : additionsTo "self" additions = []
    · rw [answered, hne]
      exact preserved_refl self _
    · exact (h.preserved_self hne).mpr (htakes.selfFacts hne)
  rw [checkDraft, hmemory, hself, hkeptMemory, hkeptSelf]
  rfl

theorem checkEvidence_answered (h : WellFormed additions sources memory self) (htakes : Takes additions memory self)
    (version : Nat) :
    checkEvidence { version := version, evidence := some (answered additions memory self).evidence,
                    memory := (answered additions memory self).memory, self := (answered additions memory self).self,
                    memoryBefore := memory, selfBefore := self } sources = .ok () := by
  obtain ⟨hmemory, hself⟩ := h.extends_answered htakes
  have hin {a : Addition String} {document : String} (ha : a ∈ additionsTo document additions) :
      a ∈ additions ∧ a.document = document :=
    ⟨List.mem_of_mem_filter ha, of_decide_eq_true (List.mem_filter.mp ha).2⟩
  have hone := checkEvidenceOf_ok .memory (placeable_memory h.heading h.item) (h.lines_distinct "memory")
    h.freshMemory (fun a ha => h.ids a (hin ha).1) (fun a ha => h.known a (hin ha).1)
    (fun a ha hfact => h.user a (hin ha).1 (Or.inl ⟨(hin ha).2, hfact⟩)) hmemory
  have htwo := checkEvidenceOf_ok .self (placeable_self h.heading h.item) (h.lines_distinct "self")
    h.freshSelf (fun a ha => h.ids a (hin ha).1) (fun a ha => h.known a (hin ha).1)
    (fun a ha hfact => h.user a (hin ha).1 (Or.inr ⟨(hin ha).2, hfact⟩)) hself
  rw [checkEvidence]
  dsimp only [answered] at hone htwo ⊢
  rw [hone, htwo]
  rfl

theorem checked_answered (h : WellFormed additions sources memory self) (htakes : Takes additions memory self) :
    checkProfileResponse (additions.map (Addition.map text)) sources memory self =
      .ok (answered additions memory self) := by
  rw [checkProfileResponse_strings, foldlM_addLine h]
  have hdraft := h.checkDraft_answered htakes 2 (some (answered additions memory self).evidence)
  have hevidence := h.checkEvidence_answered htakes 2
  exact Except.bind_eq_ok.mpr ⟨answered additions memory self, rfl,
    Except.bind_eq_ok.mpr ⟨(), hdraft, Except.bind_eq_ok.mpr ⟨(), hevidence, rfl⟩⟩⟩

theorem accepted_of_takes (h : WellFormed additions sources memory self) (htakes : Takes additions memory self) :
    Accepted (additions.map (Addition.map text)) sources memory self := by
  have hextends := h.extends_answered htakes
  rw [← addedTo_strings, ← addedTo_strings] at hextends
  exact ⟨answered additions memory self, h.checked_answered htakes, hextends.1, hextends.2, h.valid_answered htakes⟩

/-- Nothing but what the documents are stands in the way. -/
theorem takes_of_accepted (h : WellFormed additions sources memory self)
    (haccepted : Accepted (additions.map (Addition.map text)) sources memory self) : Takes additions memory self := by
  obtain ⟨docs, hok, hmemory, hself, hvalidMemory, hvalidSelf⟩ := haccepted
  rw [addedTo_strings] at hmemory hself
  rw [checkProfileResponse_strings, foldlM_addLine h] at hok
  obtain ⟨built, hbuilt, hok⟩ := Except.bind_eq_ok.mp hok
  cases Except.ok.inj hbuilt
  obtain ⟨⟨⟩, hdraft, hok⟩ := Except.bind_eq_ok.mp hok
  obtain ⟨⟨⟩, -, hok⟩ := Except.bind_eq_ok.mp hok
  cases Except.ok.inj hok
  obtain ⟨⟨⟩, -, hdraft⟩ := Except.bind_eq_ok.mp hdraft
  obtain ⟨⟨⟩, -, hdraft⟩ := Except.bind_eq_ok.mp hdraft
  obtain ⟨⟨⟩, hkeptMemory, hkeptSelf⟩ := Except.bind_eq_ok.mp hdraft
  refine ⟨fun hne a ha => ?_, fun hne => (h.preserved_memory hne).mp hkeptMemory,
    fun hne => (h.preserved_self hne).mp hkeptSelf, fun hne s hs => ?_⟩
  · have hadds := placeable_memory h.heading h.item
    have hsome : (additionsTo "memory" additions).map Addition.entry ≠ [] := List.ne_nil_of_mem (List.mem_map_of_mem ha)
    have hafter : (answered additions memory self).memory =
        grown memory ((additionsTo "memory" additions).map Addition.entry) := by
      rw [answered, memoryAfter, if_neg hsome, begun_of_ne hne]
    have hc := rstrip_begun h.validMemory
    have hnodup := nodup_memory (headings_of_memory hvalidMemory).1
    have hperm := hmemory.added
    rw [answered, begun_memoryAfter h.validMemory hadds] at hnodup
    rw [begun_of_ne hne] at hc hnodup
    rw [hafter] at hperm
    exact fit_of_added hc hadds hsome (entries_fresh h.freshMemory) (h.entries_distinct "memory") hnodup hperm a.entry
      (List.mem_map_of_mem ha)
  · rcases (validate_selfAfter h.validSelf (placeable_self h.heading h.item) (by simp [hne]) h.sections).mp hvalidSelf s hs with
      hold | ⟨e, he, heq⟩
    · exact Or.inl hold
    · obtain ⟨a, ha, rfl⟩ := List.mem_map.mp he
      exact Or.inr ⟨a, ha, heq⟩

end WellFormed

/-- An accepted answer is one of strings, and the documents take it. -/
theorem WellFormed.taken {additions : List (Addition Text)} (h : WellFormed additions sources memory self)
    (haccepted : Accepted additions sources memory self) :
    (∀ a ∈ additions, Encodable a.line) ∧ Takes additions memory self := by
  have hstrings : ∃ answer : List (Addition String), additions = answer.map (Addition.map text) :=
    haccepted.elim fun _ hdocs => strings_of_checked hdocs.1
  obtain ⟨answer, rfl⟩ := hstrings
  refine ⟨fun a ha => ?_, takes_strings.mpr (h.strings.takes_of_accepted haccepted)⟩
  obtain ⟨b, -, rfl⟩ := List.mem_map.mp ha
  exact encodable_text b.line

/-- Well-formed additions are accepted, and their documents keep all that they had, exactly when the lines have an
encoding and the documents take them. -/
theorem additions_accepted_iff {additions : List (Addition Text)} (h : WellFormed additions sources memory self) :
    Accepted additions sources memory self ↔
      (∀ a ∈ additions, Encodable a.line) ∧ Takes additions memory self := by
  refine ⟨h.taken, ?_⟩
  rintro ⟨hencodable, htakes⟩
  obtain ⟨answer, rfl⟩ := exists_strings hencodable
  exact h.strings.accepted_of_takes (takes_strings.mp htakes)

def profileMemory (fact : String) : List String :=
  ["# 用户长期记忆", fact, "- 住在杭州", "## 用户偏好", "## 用户明确要求长期记住的关键内容"]

def profileSelf : List String :=
  ["# Akashic 的自我认知", "## 人格与形象", "- 温和", "## 我对当前用户的理解", "- 简洁", "## 我们关系的定义", "- 搭档"]

def newFact (line : Text) : Addition Text :=
  { document := "memory", heading := "## 用户事实", line := line, messageIds := ["m1"] }

theorem splitlines_memory {fact : String} (h : Unbroken fact) :
    splitlines (unlines (profileMemory fact)) = profileMemory fact := by
  refine splitlines_unlines ?_ (List.cons_ne_nil _ _)
  intro l hl
  rcases List.mem_cons.mp hl with rfl | hl
  · simp [Unbroken, isLineBreak, isLineBreakPoint]
  · rcases List.mem_cons.mp hl with rfl | hl
    · exact h
    · have hall : ∀ l ∈ ["- 住在杭州", "## 用户偏好", "## 用户明确要求长期记住的关键内容"], Unbroken l := by
        simp [Unbroken, isLineBreak, isLineBreakPoint]
      exact hall l hl

theorem trimmed_memory {fact : String} (h : Unbroken fact) :
    trimmedLines (unlines (profileMemory fact)) = profileMemory fact := by
  refine splitlines_rstrip_unlines ⟨?_, ["# 用户长期记忆", fact, "- 住在杭州", "## 用户偏好"],
    "## 用户明确要求长期记住的关键内容", rfl, (memory_sections _ (by simp [memorySections])).solid⟩
  intro l hl
  rw [← splitlines_memory h] at hl
  exact splitlines_break hl

theorem splitlines_profileSelf : splitlines (unlines profileSelf) = profileSelf := by
  refine splitlines_unlines ?_ (List.cons_ne_nil _ _)
  simp [profileSelf, Unbroken, isLineBreak, isLineBreakPoint]

theorem validate_profileSelf : validateSelf (unlines profileSelf) = .ok () := by
  rw [validateSelf_ok, splitlines_profileSelf]
  refine ⟨by decide, hasFence_unlines (by decide), ?_⟩
  unfold Filled
  decide

theorem validate_unlines {lines : List String} (hbreak : ∀ l ∈ lines, Unbroken l)
    (hheadings : (headingLines lines).map strip = memoryHeadings) (hfence : ∀ l ∈ lines, hasFence l = false)
    (hfact : ∃ l ∈ lines, isFact l = true) : validateMemory (unlines lines) = .ok () := by
  have hne : lines ≠ [] := hfact.elim fun _ hl => List.ne_nil_of_mem hl.1
  refine validateMemory_ok.mpr (Or.inr ⟨?_, hasFence_unlines hfence, ?_⟩)
  · rw [headings_eq, splitlines_unlines hbreak hne, hheadings]
    exact List.mem_cons_self ..
  · rw [splitlines_unlines hbreak hne]
    exact hfact

theorem validate_profileMemory {fact : String} (h : Unbroken fact) (hstrip : strip fact = "## 用户事实")
    (hfence : hasFence fact = false) : validateMemory (unlines (profileMemory fact)) = .ok () := by
  have hheading : isHeading fact = true := by
    rw [← isHeading_strip, hstrip]
    decide
  refine validate_unlines ?_ ?_ ?_ ⟨"- 住在杭州", by simp [profileMemory], by decide⟩
  · intro l hl
    rw [← splitlines_memory h] at hl
    exact splitlines_break hl
  · rw [profileMemory, headingLines, List.filter_cons, if_pos (by decide), List.filter_cons, if_pos hheading,
      List.map_cons, List.map_cons, hstrip]
    decide
  · intro l hl
    rcases List.mem_cons.mp hl with rfl | hl
    · decide
    · rcases List.mem_cons.mp hl with rfl | hl
      · exact hfence
      · have hall : ∀ l ∈ ["- 住在杭州", "## 用户偏好", "## 用户明确要求长期记住的关键内容"], hasFence l = false := by decide
        exact hall l hl

/-- A new fact for a document whose heading may have white space around it. -/
theorem wellFormed_newFact {fact : String} {line : Text} (h : Unbroken fact) (hstrip : strip fact = "## 用户事实")
    (hfence : hasFence fact = false) (hentry : Entry line)
    (hnew : line ∉ ((profileMemory "## 用户事实").map fun l => text (strip l))) :
    WellFormed [newFact line] [⟨"m1", true⟩] (unlines (profileMemory fact)) (unlines profileSelf) where
  validMemory := validate_profileMemory h hstrip hfence
  validSelf := validate_profileSelf
  heading := by
    intro a ha
    rw [List.mem_singleton.mp ha]
    exact List.mem_cons_self ..
  entry := by
    intro a ha
    rw [List.mem_singleton.mp ha]
    exact hentry
  distinct := List.nodup_singleton _
  freshMemory := by
    intro a ha
    have hfresh : (splitlines (unlines (profileMemory fact))).map (fun l => text (strip l)) =
        (profileMemory "## 用户事实").map fun l => text (strip l) := by
      have hsection : strip "## 用户事实" = "## 用户事实" := by decide
      rw [splitlines_memory h]
      simp only [profileMemory, List.map_cons, hstrip, hsection]
    rw [List.mem_singleton.mp (List.mem_of_mem_filter ha)]
    intro hin
    exact hnew (hfresh ▸ hin)
  freshSelf := by
    intro a ha
    cases ha
  ids := by
    intro a ha
    rw [List.mem_singleton.mp ha]
    exact List.cons_ne_nil _ _
  known := by
    intro a ha id hid
    rw [List.mem_singleton.mp ha] at hid
    exact hid
  user := by
    intro a ha _
    rw [List.mem_singleton.mp ha]
    exact ⟨⟨"m1", true⟩, List.mem_singleton_self _, rfl, List.mem_singleton_self _⟩

theorem unlines_ne (l : String) (rest : List String) : unlines (l :: rest) ≠ "" := by
  intro hempty
  have htext := congrArg String.toList hempty
  simp [unlines, String.toList_append] at htext

theorem unbroken_section : Unbroken "## 用户事实" := by simp [Unbroken, isLineBreak, isLineBreakPoint]

theorem entry_fact : Entry (text "- 养猫") := ⟨by decide, by decide, by decide, by decide⟩

/-- A heading with a blank behind it is a heading for the checks, but no addition comes below it; a
surrogate in a line leaves the next text without an encoding. -/
theorem addition_refused :
    (WellFormed [newFact (text "- 养猫")] [⟨"m1", true⟩] (unlines (profileMemory "## 用户事实 ")) (unlines profileSelf) ∧
      ¬ Accepted [newFact (text "- 养猫")] [⟨"m1", true⟩] (unlines (profileMemory "## 用户事实 "))
        (unlines profileSelf)) ∧
    (WellFormed [newFact (text "- 养猫" ++ [0xD83D])] [⟨"m1", true⟩] (unlines (profileMemory "## 用户事实"))
        (unlines profileSelf) ∧
      ¬ Accepted [newFact (text "- 养猫" ++ [0xD83D])] [⟨"m1", true⟩] (unlines (profileMemory "## 用户事实"))
        (unlines profileSelf)) := by
  have hline : Unbroken "## 用户事实 " := by simp [Unbroken, isLineBreak, isLineBreakPoint]
  have hentry : Entry (text "- 养猫" ++ [0xD83D]) := ⟨by decide, by decide, by decide, by decide⟩
  have hwell := wellFormed_newFact hline (by decide) (by decide) entry_fact (by decide)
  have hwell' := wellFormed_newFact unbroken_section (by decide) (by decide) hentry (by decide)
  refine ⟨⟨hwell, fun haccepted => ?_⟩, ⟨hwell', fun haccepted => ?_⟩⟩
  · have hfit := (hwell.taken haccepted).2.memoryFit (unlines_ne _ _) (newFact (text "- 养猫")) (List.mem_singleton_self _)
    rw [trimmed_memory hline] at hfit
    have hmissing : "## 用户事实" ∉ headingLines (profileMemory "## 用户事实 ") := by decide
    exact hmissing (hfit (by decide)).1
  · have hencodable := (hwell'.taken haccepted).1 (newFact (text "- 养猫" ++ [0xD83D])) (List.mem_singleton_self _)
    revert hencodable
    decide

theorem wellFormed_fact : WellFormed [newFact (text "- 养猫")] [⟨"m1", true⟩] (unlines (profileMemory "## 用户事实"))
    (unlines profileSelf) :=
  wellFormed_newFact unbroken_section (by decide) (by decide) entry_fact (by decide)

theorem takes_fact : Takes [newFact (text "- 养猫")] (unlines (profileMemory "## 用户事实")) (unlines profileSelf) := by
  refine ⟨fun _ a ha => ?_, fun _ => ?_, fun hne => absurd rfl hne, fun hne => absurd rfl hne⟩
  · rw [trimmed_memory unbroken_section]
    have hsections : ∀ h ∈ headingLines (profileMemory "## 用户事实"),
        h = "# 用户长期记忆" ∨ h ∈ memorySections ++ [memoryOptionalHeading] := by decide
    refine fit_of_sections (fun h hh => ?_) _
    rcases hsections h hh with rfl | hsection
    · exact memory_title
    · exact memory_sections h hsection
  · have htrimmed : splitlines (rstrip (unlines (profileMemory "## 用户事实"))) = profileMemory "## 用户事实" :=
      trimmed_memory unbroken_section
    rw [facts, facts, splitlines_memory unbroken_section, htrimmed]
    exact fun f hf => hf

theorem addition_accepted :
    Accepted [newFact (text "- 养猫")] [⟨"m1", true⟩] (unlines (profileMemory "## 用户事实")) (unlines profileSelf) := by
  refine (additions_accepted_iff wellFormed_fact).mpr ⟨fun a ha => ?_, takes_fact⟩
  rw [List.mem_singleton.mp ha]
  exact encodable_text "- 养猫"

end MonoAgent.Profiles
