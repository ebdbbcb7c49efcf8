import MonoAgent.Lib.Lines

/-!
# Texts made of lines

A text that is put together from lines is cut into the same lines.  Taking away the white space
at the end of a text takes blank lines away and shortens one line (`splitlines_rstrip`).
-/

namespace MonoAgent.Lib

/-- The text of the lines, each with its line end. -/
def unlines (lines : List String) : String := "\n".intercalate lines ++ "\n"

/-- Without a line boundary. -/
def Unbroken (s : String) : Prop := ∀ c ∈ s.toList, isLineBreak c = false

def Blank (s : String) : Prop := ∀ c ∈ s.toList, isSpace c = true

/-- The last character is no white space. -/
def Solid (s : String) : Prop := ∃ front c, s.toList = front ++ [c] ∧ isSpace c = false

/-! ## Lines that are put together -/

theorem splitlinesFrom_line {line l cs : List Char} (h : ∀ c ∈ l, isLineBreak c = false) :
    splitlinesFrom false line (l ++ '\n' :: cs) = String.ofList (line.reverse ++ l) :: splitlinesFrom false [] cs := by
  induction l generalizing line with
  | nil =>
      rw [List.nil_append, splitlinesFrom, if_neg (by simp), if_pos (by decide), List.append_nil]
      simp
  | cons c l ih =>
      have hc := h c (List.mem_cons_self ..)
      rw [List.cons_append, splitlinesFrom, if_neg (by simp), if_neg (by simp [hc]),
        ih fun d hd => h d (List.mem_cons_of_mem _ hd)]
      simp

theorem splitlinesFrom_last {line l : List Char} (h : ∀ c ∈ l, isLineBreak c = false) (hne : line.reverse ++ l ≠ []) :
    splitlinesFrom false line l = [String.ofList (line.reverse ++ l)] := by
  induction l generalizing line with
  | nil =>
      rw [List.append_nil] at hne ⊢
      rw [splitlinesFrom, if_neg]
      simpa using hne
  | cons c l ih =>
      have hc := h c (List.mem_cons_self ..)
      rw [splitlinesFrom, if_neg (by simp), if_neg (by simp [hc]),
        ih (fun d hd => h d (List.mem_cons_of_mem _ hd)) (by simp)]
      simp

theorem toList_unlines_cons (l : String) {rest : List String} (h : rest ≠ []) :
    (unlines (l :: rest)).toList = l.toList ++ '\n' :: (unlines rest).toList := by
  obtain ⟨m, ms, rfl⟩ := List.exists_cons_of_ne_nil h
  rw [unlines, String.intercalate_cons_cons, unlines]
  simp [String.toList_append]

theorem toList_unlines_singleton (l : String) : (unlines [l]).toList = l.toList ++ ['\n'] := by
  simp [unlines, String.toList_append]

theorem splitlines_unlines {lines : List String} (h : ∀ l ∈ lines, Unbroken l) (hne : lines ≠ []) :
    splitlines (unlines lines) = lines := by
  induction lines with
  | nil => exact absurd rfl hne
  | cons l rest ih =>
      have hl : ∀ c ∈ l.toList, isLineBreak c = false := h l (List.mem_cons_self ..)
      by_cases hrest : rest = []
      · rw [hrest, splitlines, toList_unlines_singleton, splitlinesFrom_line hl]
        simp [splitlinesFrom]
      · have htail := ih (fun m hm => h m (List.mem_cons_of_mem _ hm)) hrest
        rw [splitlines] at htail
        rw [splitlines, toList_unlines_cons l hrest, splitlinesFrom_line hl, htail]
        simp

/-- Lines whose text ends in the last character of the last line. -/
structure Tidy (lines : List String) : Prop where
  unbroken : ∀ l ∈ lines, Unbroken l
  solid : ∃ front l, lines = front ++ [l] ∧ Solid l

theorem Tidy.ne_nil {lines : List String} (h : Tidy lines) : lines ≠ [] := by
  obtain ⟨front, l, rfl, -⟩ := h.solid
  simp

theorem rstrip_append {s t : List Char} (hs : ∃ front c, s = front ++ [c] ∧ isSpace c = false)
    (ht : ∀ c ∈ t, isSpace c = true) : (s ++ t).rdropWhile isSpace = s := by
  obtain ⟨front, c, rfl, hc⟩ := hs
  induction t using List.reverseRecOn with
  | nil =>
      rw [List.append_nil]
      exact List.rdropWhile_concat_neg _ _ _ (by simp [hc])
  | append_singleton t d ih =>
      have hd : isSpace d = true := ht d (by simp)
      rw [← List.append_assoc, List.rdropWhile_concat_pos _ _ _ hd]
      exact ih fun e he => ht e (List.mem_append_left _ he)

theorem toList_unlines_concat (front : List String) (last : String) :
    (unlines (front ++ [last])).toList = (front.flatMap fun l => l.toList ++ ['\n']) ++ (last.toList ++ ['\n']) := by
  induction front with
  | nil => rw [List.nil_append, toList_unlines_singleton, List.flatMap_nil, List.nil_append]
  | cons l front ih =>
      rw [List.cons_append, toList_unlines_cons l (by simp), ih, List.flatMap_cons]
      simp

theorem toList_rstrip_unlines (front : List String) {last : String} (h : Solid last) :
    (rstrip (unlines (front ++ [last]))).toList = (front.flatMap fun l => l.toList ++ ['\n']) ++ last.toList := by
  rw [rstrip, String.toList_ofList, toList_unlines_concat, ← List.append_assoc]
  refine rstrip_append ?_ ?_
  · obtain ⟨body, c, hlast, hc⟩ := h
    exact ⟨(front.flatMap fun l => l.toList ++ ['\n']) ++ body, c, by rw [hlast, List.append_assoc], hc⟩
  · intro c hc
    rw [List.mem_singleton.mp hc]
    decide

/-- Only the last line end is taken away. -/
theorem rstrip_unlines {lines : List String} (h : Tidy lines) : rstrip (unlines lines) ++ "\n" = unlines lines := by
  obtain ⟨-, front, last, rfl, hsolid⟩ := h
  apply String.toList_inj.mp
  rw [String.toList_append, toList_rstrip_unlines front hsolid, toList_unlines_concat, List.append_assoc]
  rfl

theorem splitlines_rstrip_unlines {lines : List String} (h : Tidy lines) :
    splitlines (rstrip (unlines lines)) = lines := by
  obtain ⟨hunbroken, front, last, rfl, hsolid⟩ := h
  rw [splitlines, toList_rstrip_unlines front hsolid]
  induction front with
  | nil =>
      obtain ⟨body, c, hlast, -⟩ := hsolid
      have hl : ∀ c ∈ last.toList, isLineBreak c = false := hunbroken last (by simp)
      rw [List.flatMap_nil, List.nil_append, splitlinesFrom_last hl (by simp [hlast])]
      simp
  | cons l front ih =>
      have hl : ∀ c ∈ l.toList, isLineBreak c = false := hunbroken l (by simp)
      have htail := ih fun m hm => hunbroken m (by
        rw [List.cons_append]
        exact List.mem_cons_of_mem _ hm)
      rw [List.flatMap_cons, List.append_assoc, List.append_assoc, List.singleton_append, splitlinesFrom_line hl, htail]
      simp

/-! ## Other line ends -/

theorem translateChars_line {l cs : List Char} (h : '\r' ∉ l) :
    translateChars false (l ++ '\r' :: '\n' :: cs) = l ++ '\n' :: translateChars false cs := by
  induction l with
  | nil =>
      rw [List.nil_append, translateChars, if_pos rfl, translateChars, if_neg (by decide), if_pos (by simp)]
      rfl
  | cons c l ih =>
      rw [List.mem_cons, not_or] at h
      rw [List.cons_append, translateChars, if_neg (Ne.symm h.1), if_neg (by simp), ih h.2]
      rfl

theorem translateChars_crlf {lines : List String} (h : ∀ l ∈ lines, Plain l) :
    translateChars false (lines.flatMap fun l => l.toList ++ ['\r', '\n']) = lines.flatMap fun l => l.toList ++ ['\n'] := by
  induction lines with
  | nil => rfl
  | cons l rest ih =>
      have hrest := ih fun m hm => h m (List.mem_cons_of_mem _ hm)
      rw [List.flatMap_cons, List.flatMap_cons, List.append_assoc, List.append_assoc, List.cons_append,
        List.singleton_append, translateChars_line (h l (List.mem_cons_self ..)), hrest]
      rfl

/-- Lines that end in `\r\n` are read as lines. -/
theorem translate_crlf {lines : List String} (h : ∀ l ∈ lines, Plain l) (hne : lines ≠ []) :
    translate (String.ofList (lines.flatMap fun l => l.toList ++ ['\r', '\n'])) = unlines lines := by
  apply String.toList_inj.mp
  obtain ⟨front, last, rfl⟩ := (List.eq_nil_or_concat lines).resolve_left hne
  rw [List.concat_eq_append] at h ⊢
  rw [translate, String.toList_ofList, String.toList_ofList, translateChars_crlf h, toList_unlines_concat,
    List.flatMap_append, List.flatMap_singleton]

/-! ## White space at the end -/

theorem blank_splitlinesFrom {cr : Bool} {line cs : List Char} (hline : ∀ c ∈ line, isSpace c = true)
    (hcs : ∀ c ∈ cs, isSpace c = true) : ∀ l ∈ splitlinesFrom cr line cs, Blank l := by
  induction cs generalizing cr line with
  | nil =>
      intro l hl c hc
      rw [splitlinesFrom] at hl
      split at hl
      · cases hl
      · rw [List.mem_singleton.mp hl, String.toList_ofList, List.mem_reverse] at hc
        exact hline c hc
  | cons d rest ih =>
      have hrest (c : Char) (hc : c ∈ rest) : isSpace c = true := hcs c (List.mem_cons_of_mem _ hc)
      rw [splitlinesFrom]
      split
      · exact ih hline hrest
      · split
        · intro l hl
          rcases List.mem_cons.mp hl with rfl | hl
          · intro c hc
            rw [String.toList_ofList, List.mem_reverse] at hc
            exact hline c hc
          · exact ih (fun c hc => absurd hc List.not_mem_nil) hrest l hl
        · refine ih (fun c hc => ?_) hrest
          rcases List.mem_cons.mp hc with rfl | hc
          · exact hcs _ (List.mem_cons_self ..)
          · exact hline c hc

/-- White space behind a line that was begun: more of the line, and blank lines. -/
theorem splitlinesFrom_blank {line w : List Char} (hline : line ≠ []) (hw : ∀ c ∈ w, isSpace c = true) :
    ∃ more blanks, splitlinesFrom false line w = String.ofList (line.reverse ++ more) :: blanks ∧
      (∀ c ∈ more, isSpace c = true) ∧ ∀ l ∈ blanks, Blank l := by
  induction w generalizing line with
  | nil =>
      refine ⟨[], [], ?_, by simp, by simp⟩
      rw [splitlinesFrom, if_neg hline, List.append_nil]
  | cons c w ih =>
      have hrest (d : Char) (hd : d ∈ w) : isSpace d = true := hw d (List.mem_cons_of_mem _ hd)
      rw [splitlinesFrom, if_neg (by simp)]
      split
      · refine ⟨[], _, by rw [List.append_nil], by simp, ?_⟩
        exact blank_splitlinesFrom (fun c hc => absurd hc List.not_mem_nil) hrest
      · obtain ⟨more, blanks, heq, hmore, hblanks⟩ := ih (List.cons_ne_nil c line) hrest
        refine ⟨c :: more, blanks, ?_, fun d hd => ?_, hblanks⟩
        · rw [heq, List.reverse_cons, List.append_assoc, List.singleton_append]
        · rcases List.mem_cons.mp hd with rfl | hd
          · exact hw _ (List.mem_cons_self ..)
          · exact hmore d hd

theorem splitlinesFrom_rstrip {cr : Bool} {line cs w : List Char} (hw : ∀ c ∈ w, isSpace c = true)
    (hend : (∃ front c, cs = front ++ [c] ∧ isSpace c = false) ∨
      cs = [] ∧ cr = false ∧ ∃ c rest, line = c :: rest ∧ isSpace c = false) :
    ∃ init last more blanks, splitlinesFrom cr line cs = init ++ [String.ofList last] ∧
      splitlinesFrom cr line (cs ++ w) = init ++ String.ofList (last ++ more) :: blanks ∧
      (∃ front c, last = front ++ [c] ∧ isSpace c = false) ∧ (∀ c ∈ more, isSpace c = true) ∧
      ∀ l ∈ blanks, Blank l := by
  induction cs generalizing cr line with
  | nil =>
      obtain ⟨front, c, hnil, -⟩ | ⟨-, rfl, c, rest, rfl, hc⟩ := hend
      · simp at hnil
      · obtain ⟨more, blanks, heq, hmore, hblanks⟩ := splitlinesFrom_blank (List.cons_ne_nil c rest) hw
        refine ⟨[], (c :: rest).reverse, more, blanks, ?_, ?_, ⟨rest.reverse, c, List.reverse_cons, hc⟩, hmore,
          hblanks⟩
        · rw [splitlinesFrom, if_neg (List.cons_ne_nil c rest), List.nil_append]
        · rw [List.nil_append, heq, List.nil_append]
  | cons c cs ih =>
      obtain ⟨front, d, hcs, hd⟩ := hend.resolve_right fun h => List.cons_ne_nil c cs h.1
      -- either `c` is the last character or the rest ends as the whole does
      have hrest : (front = [] ∧ c = d ∧ cs = []) ∨ ∃ front', cs = front' ++ [d] := by
        cases front with
        | nil =>
            cases hcs
            exact Or.inl ⟨rfl, rfl, rfl⟩
        | cons e front =>
            cases hcs
            exact Or.inr ⟨front, rfl⟩
      have hspace (h : isSpace c = true) : ∃ front', cs = front' ++ [d] := by
        rcases hrest with ⟨-, rfl, -⟩ | h'
        · rw [hd] at h
          cases h
        · exact h'
      rw [List.cons_append, splitlinesFrom, splitlinesFrom]
      split
      · next hlf =>
          obtain ⟨front', hfront⟩ := hspace (by rw [hlf.2]; decide)
          exact ih (Or.inl ⟨front', d, hfront, hd⟩)
      · split
        · next hbreak =>
            obtain ⟨front', hfront⟩ := hspace (isSpace_of_isLineBreak hbreak)
            obtain ⟨init, last, more, blanks, hone, hall, hsolid, hmore, hblanks⟩ :=
              @ih (decide (c = '\r')) [] (Or.inl ⟨front', d, hfront, hd⟩)
            refine ⟨String.ofList line.reverse :: init, last, more, blanks, ?_, ?_, hsolid, hmore, hblanks⟩
            · rw [hone, List.cons_append]
            · rw [hall, List.cons_append]
        · refine ih ?_
          rcases hrest with ⟨-, rfl, hnil⟩ | ⟨front', hfront⟩
          · exact Or.inr ⟨hnil, rfl, c, line, rfl, hd⟩
          · exact Or.inl ⟨front', d, hfront, hd⟩

theorem rstrip_ne_nil {s : String} (h : rstrip s ≠ "") : ∃ front c, (rstrip s).toList = front ++ [c] ∧ isSpace c = false := by
  have hne : s.toList.rdropWhile isSpace ≠ [] := by
    intro hnil
    rw [rstrip, hnil] at h
    exact h rfl
  refine ⟨(s.toList.rdropWhile isSpace).dropLast, (s.toList.rdropWhile isSpace).getLast hne, ?_,
    Bool.eq_false_iff.mpr (List.rdropWhile_last_not isSpace _ hne)⟩
  rw [rstrip, String.toList_ofList, List.dropLast_append_getLast hne]

/-- The lines of a text and of the text without the white space at its end. -/
theorem splitlines_rstrip {s : String} (h : rstrip s ≠ "") :
    ∃ init last more blanks, splitlines (rstrip s) = init ++ [last] ∧
      splitlines s = init ++ (last ++ more) :: blanks ∧ Solid last ∧ Blank more ∧ ∀ l ∈ blanks, Blank l := by
  have htext : s.toList = (rstrip s).toList ++ s.toList.rtakeWhile isSpace := by
    rw [rstrip, String.toList_ofList, List.rdropWhile_append_rtakeWhile]
  have hspace : ∀ c ∈ s.toList.rtakeWhile isSpace, isSpace c = true := fun c hc => List.mem_rtakeWhile_imp hc
  obtain ⟨init, last, more, blanks, hone, hall, hsolid, hmore, hblanks⟩ :=
    @splitlinesFrom_rstrip false [] _ _ hspace (Or.inl (rstrip_ne_nil h))
  refine ⟨init, String.ofList last, String.ofList more, blanks, hone, ?_, ?_, ?_, hblanks⟩
  · rw [splitlines, htext, hall]
    simp
  · rw [Solid, String.toList_ofList]
    exact hsolid
  · rw [Blank, String.toList_ofList]
    exact hmore

theorem dropWhile_solid {l m : List Char} (h : ∃ c ∈ l, isSpace c = false) :
    (l ++ m).dropWhile isSpace = l.dropWhile isSpace ++ m := by
  obtain ⟨c, hc, hsolid⟩ := h
  induction l with
  | nil => cases hc
  | cons d l ih =>
      rw [List.cons_append, List.dropWhile_cons, List.dropWhile_cons]
      split
      · next hd =>
          rcases List.mem_cons.mp hc with rfl | hc
          · rw [hsolid] at hd
            cases hd
          · exact ih hc
      · rfl

theorem strip_append {l m : String} (h : Solid l) (hm : Blank m) : strip (l ++ m) = strip l := by
  obtain ⟨front, c, hl, hc⟩ := h
  apply String.toList_inj.mp
  rw [strip_toList, strip_toList, String.toList_append, dropWhile_solid ⟨c, by simp [hl], hc⟩]
  have hsuffix : ∃ front', l.toList.dropWhile isSpace = front' ++ [c] := by
    rw [hl, List.dropWhile_append]
    split
    · exact ⟨[], by rw [List.dropWhile_cons_of_neg (by simp [hc]), List.nil_append]⟩
    · exact ⟨_, rfl⟩
  obtain ⟨front', hfront⟩ := hsuffix
  rw [hfront, rstrip_append ⟨front', c, rfl, hc⟩ hm, List.rdropWhile_concat_neg _ _ _ (by simp [hc])]

theorem strip_blank {s : String} (h : Blank s) : strip s = "" := by
  apply String.toList_inj.mp
  rw [strip_toList, List.dropWhile_eq_nil_iff.mpr h]
  rfl

theorem blank_of_strip {s : String} (h : strip s = "") : Blank s := by
  have hdrop : (s.toList.dropWhile isSpace).rdropWhile isSpace = [] := by rw [← strip_toList, h]; rfl
  intro c hc
  rw [← List.takeWhile_append_dropWhile (p := isSpace) (l := s.toList)] at hc
  rcases List.mem_append.mp hc with hc | hc
  · exact List.mem_takeWhile_imp hc
  · exact List.rdropWhile_eq_nil_iff.mp hdrop c hc

theorem solid_of_stripped {s : String} (h : strip s = s) (hne : s ≠ "") : Solid s := by
  have hlist : (s.toList.dropWhile isSpace).rdropWhile isSpace = s.toList := by rw [← strip_toList, h]
  have hnil : (s.toList.dropWhile isSpace).rdropWhile isSpace ≠ [] := by
    rw [hlist]
    exact fun hnil => hne (String.toList_inj.mp hnil)
  refine ⟨((s.toList.dropWhile isSpace).rdropWhile isSpace).dropLast, _, ?_,
    Bool.eq_false_iff.mpr (List.rdropWhile_last_not isSpace _ hnil)⟩
  rw [List.dropLast_append_getLast, hlist]

/-! ## Pieces of a text -/

theorem splitlinesFrom_infix {cr : Bool} {line cs : List Char} (hcr : cr = true → line = []) :
    ∀ l ∈ splitlinesFrom cr line cs, l.toList <:+: line.reverse ++ cs := by
  induction cs generalizing cr line with
  | nil =>
      intro l hl
      rw [splitlinesFrom] at hl
      split at hl
      · cases hl
      · have hlast : l.toList = line.reverse ++ [] := by
          rw [List.mem_singleton.mp hl, String.toList_ofList, List.append_nil]
        exact hlast ▸ List.infix_rfl
  | cons c rest ih =>
      intro l hl
      rw [splitlinesFrom] at hl
      split at hl
      · next hlf =>
          have hnil := hcr hlf.1
          subst hnil
          exact (ih (by simp) l hl).trans (List.infix_cons List.infix_rfl)
      · split at hl
        · rcases List.mem_cons.mp hl with rfl | hl
          · rw [String.toList_ofList]
            exact (List.prefix_append _ _).isInfix
          · refine (ih (by simp) l hl).trans ?_
            exact (List.suffix_append_of_suffix (List.suffix_cons c rest)).isInfix
        · have hmore := ih (by simp) l hl
          rw [List.reverse_cons, List.append_assoc] at hmore
          exact hmore

theorem splitlines_infix {s l : String} (h : l ∈ splitlines s) : l.toList <:+: s.toList :=
  splitlinesFrom_infix (by simp) l h

/-- A piece without the separator lies on one side of it. -/
theorem infix_separated {α : Type} {p s t : List α} {c : α} (hc : c ∉ p) (h : p <:+: s ++ c :: t) :
    p <:+: s ∨ p <:+: t := by
  obtain ⟨front, back, heq⟩ := h
  rw [List.append_assoc] at heq
  rcases List.append_eq_append_iff.mp heq with ⟨middle, rfl, hrest⟩ | ⟨middle, rfl, hrest⟩
  · rcases List.append_eq_append_iff.mp hrest with ⟨more, rfl, -⟩ | ⟨more, rfl, hmore⟩
    · exact Or.inl ⟨front, more, by simp⟩
    · cases more with
      | nil => exact Or.inl ⟨front, [], by simp⟩
      | cons d more =>
          cases hmore
          exact absurd (by simp) hc
  · cases middle with
    | nil =>
        cases p with
        | nil => exact Or.inl List.nil_infix
        | cons d p =>
            cases hrest
            exact absurd (List.mem_cons_self ..) hc
    | cons d middle =>
        cases hrest
        exact Or.inr ⟨middle, back, by simp⟩

theorem infix_unlines {lines : List String} {p : List Char} (hne : p ≠ []) (hp : '\n' ∉ p)
    (h : p <:+: (unlines lines).toList) : ∃ l ∈ lines, p <:+: l.toList := by
  induction lines with
  | nil =>
      have hsingle : p <:+: [] ++ '\n' :: [] := h
      rcases infix_separated hp hsingle with h | h
      · exact absurd (List.infix_nil.mp h) hne
      · exact absurd (List.infix_nil.mp h) hne
  | cons l rest ih =>
      by_cases hrest : rest = []
      · rw [hrest, toList_unlines_singleton] at h
        rcases infix_separated hp h with h | h
        · exact ⟨l, List.mem_cons_self .., h⟩
        · exact absurd (List.infix_nil.mp h) hne
      · rw [toList_unlines_cons l hrest] at h
        rcases infix_separated hp h with h | h
        · exact ⟨l, List.mem_cons_self .., h⟩
        · obtain ⟨m, hm, hin⟩ := ih h
          exact ⟨m, List.mem_cons_of_mem _ hm, hin⟩

end MonoAgent.Lib
