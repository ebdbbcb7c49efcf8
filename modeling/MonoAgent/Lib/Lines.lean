import MonoAgent.Lib.Text

/-!
# Lines

`splitlines` cuts a text at every character that Unicode counts as a line boundary.  A file
that is read as text has its line ends translated (`translate`), so a text is read back from a
file as it was written exactly when it has no carriage return.
-/

namespace MonoAgent.Lib

/-! ## Line ends of a file -/

/-- `\r\n` and `\r` are read as `\n`; `cr` when the character before was `\r`. -/
def translateChars (cr : Bool) : List Char → List Char
  | [] => []
  | c :: rest =>
      if c = '\r' then '\n' :: translateChars true rest
      else if cr ∧ c = '\n' then translateChars false rest
      else c :: translateChars false rest

/-- What `read_text` gives of a file with the text `s`. -/
def translate (s : String) : String := String.ofList (translateChars false s.toList)

theorem translateChars_no_cr (cr : Bool) (cs : List Char) : '\r' ∉ translateChars cr cs := by
  induction cs generalizing cr with
  | nil => exact List.not_mem_nil
  | cons c rest ih =>
      rw [translateChars]
      split
      · rw [List.mem_cons, not_or]
        exact ⟨by decide, ih true⟩
      · next hc =>
          split
          · exact ih false
          · rw [List.mem_cons, not_or]
            exact ⟨Ne.symm hc, ih false⟩

theorem translateChars_eq_self {cs : List Char} (h : '\r' ∉ cs) : translateChars false cs = cs := by
  induction cs with
  | nil => rfl
  | cons c rest ih =>
      rw [List.mem_cons, not_or] at h
      rw [translateChars, if_neg (Ne.symm h.1), if_neg (by simp), ih h.2]

theorem translate_no_cr (s : String) : '\r' ∉ (translate s).toList := by
  rw [translate, String.toList_ofList]
  exact translateChars_no_cr false _

theorem translate_eq_self {s : String} (h : '\r' ∉ s.toList) : translate s = s := by
  rw [translate, translateChars_eq_self h, String.ofList_toList]

@[simp] theorem translate_translate (s : String) : translate (translate s) = translate s :=
  translate_eq_self (translate_no_cr s)

/-! ## Lines of a text -/

def isLineBreakPoint (n : Nat) : Bool :=
  (10 ≤ n && n ≤ 13) || (28 ≤ n && n ≤ 30) || n = 0x85 || n = 0x2028 || n = 0x2029

def isLineBreak (c : Char) : Bool := isLineBreakPoint c.toNat

theorem isSpacePoint_of_isLineBreakPoint {n : Nat} (h : isLineBreakPoint n = true) : isSpacePoint n = true := by
  simp only [isLineBreakPoint, isSpacePoint, Bool.or_eq_true, Bool.and_eq_true, decide_eq_true_eq] at h ⊢
  omega

theorem isSpace_of_isLineBreak {c : Char} (h : isLineBreak c = true) : isSpace c = true :=
  isSpacePoint_of_isLineBreakPoint h

/-- The lines from the left; `line` is the one that was begun, last character first. -/
def splitlinesFrom (cr : Bool) (line : List Char) : List Char → List String
  | [] => if line = [] then [] else [String.ofList line.reverse]
  | c :: rest =>
      if cr ∧ c = '\n' then splitlinesFrom false line rest
      else if isLineBreak c then String.ofList line.reverse :: splitlinesFrom (c = '\r') [] rest
      else splitlinesFrom false (c :: line) rest

/-- `str.splitlines`. -/
def splitlines (s : String) : List String := splitlinesFrom false [] s.toList

theorem splitlinesFrom_break {cr : Bool} {line cs : List Char} (hline : ∀ c ∈ line, isLineBreak c = false) :
    ∀ l ∈ splitlinesFrom cr line cs, ∀ c ∈ l.toList, isLineBreak c = false := by
  induction cs generalizing cr line with
  | nil =>
      rw [splitlinesFrom]
      split
      · exact fun l hl => absurd hl List.not_mem_nil
      · intro l hl c hc
        rw [List.mem_singleton.mp hl, String.toList_ofList, List.mem_reverse] at hc
        exact hline c hc
  | cons c rest ih =>
      rw [splitlinesFrom]
      split
      · exact ih hline
      · split
        · intro l hl
          rcases List.mem_cons.mp hl with rfl | hl
          · intro c hc
            rw [String.toList_ofList, List.mem_reverse] at hc
            exact hline c hc
          · exact ih (fun c hc => absurd hc List.not_mem_nil) l hl
        · next hc =>
            refine ih fun d hd => ?_
            rcases List.mem_cons.mp hd with rfl | hd
            · exact Bool.eq_false_iff.mpr hc
            · exact hline d hd

/-- A line has no line boundary. -/
theorem splitlines_break {s l : String} (h : l ∈ splitlines s) : ∀ c ∈ l.toList, isLineBreak c = false :=
  splitlinesFrom_break (fun _ hc => absurd hc List.not_mem_nil) l h

theorem splitlinesFrom_eq_nil {cr : Bool} {line cs : List Char} (h : splitlinesFrom cr line cs = []) :
    line = [] ∧ ∀ c ∈ cs, isLineBreak c = true := by
  induction cs generalizing cr line with
  | nil =>
      rw [splitlinesFrom] at h
      split at h
      · next hline => exact ⟨hline, fun _ hc => absurd hc List.not_mem_nil⟩
      · cases h
  | cons c rest ih =>
      rw [splitlinesFrom] at h
      split at h
      · next hc =>
          obtain ⟨hline, hrest⟩ := ih h
          refine ⟨hline, fun d hd => ?_⟩
          rcases List.mem_cons.mp hd with rfl | hd
          · rw [hc.2]
            decide
          · exact hrest d hd
      · split at h
        · cases h
        · cases (ih h).1

/-- A text of one line has a line boundary only at its end. -/
theorem splitlinesFrom_one {line cs : List Char} {c : Char} (hlen : (splitlinesFrom false line cs).length = 1)
    (hc : c ∈ cs) (hbreak : isLineBreak c = true) : ∃ d, cs.getLast? = some d ∧ isLineBreak d = true := by
  have hlast : ∀ {cs : List Char}, cs ≠ [] → (∀ c ∈ cs, isLineBreak c = true) →
      ∃ d, cs.getLast? = some d ∧ isLineBreak d = true := by
    intro cs hne hall
    exact ⟨cs.getLast hne, List.getLast?_eq_some_getLast hne, hall _ (List.getLast_mem hne)⟩
  induction cs generalizing line with
  | nil => exact absurd hc List.not_mem_nil
  | cons b rest ih =>
      have hgrow : (∃ d, rest.getLast? = some d ∧ isLineBreak d = true) →
          ∃ d, (b :: rest).getLast? = some d ∧ isLineBreak d = true := by
        rintro ⟨d, hd, hbr⟩
        exact ⟨d, by rw [List.getLast?_cons, hd]; rfl, hbr⟩
      rw [splitlinesFrom, if_neg (by simp)] at hlen
      split at hlen
      · next hb =>
          rw [List.length_cons, Nat.add_eq_right, List.length_eq_zero_iff] at hlen
          refine hlast (List.cons_ne_nil _ _) fun d hd => ?_
          rcases List.mem_cons.mp hd with rfl | hd
          · exact hb
          · exact (splitlinesFrom_eq_nil hlen).2 d hd
      · next hb =>
          rcases List.mem_cons.mp hc with rfl | hc
          · exact absurd hbreak hb
          · exact hgrow (ih hlen hc)

/-- One line without white space at its ends has no line boundary. -/
theorem break_of_stripped {s : String} (hlen : (splitlines s).length = 1) (hstrip : strip s = s) :
    ∀ c ∈ s.toList, isLineBreak c = false := by
  intro c hc
  by_contra hbreak
  obtain ⟨d, hlast, hd⟩ := splitlinesFrom_one hlen hc ((Bool.not_eq_false _).mp hbreak)
  rw [← hstrip, strip_toList] at hlast
  have hne : (s.toList.dropWhile isSpace).rdropWhile isSpace ≠ [] := by
    intro hnil
    rw [hnil] at hlast
    cases hlast
  rw [List.getLast?_eq_some_getLast hne] at hlast
  have hnot := List.rdropWhile_last_not isSpace _ hne
  rw [Option.some.inj hlast] at hnot
  exact hnot (isSpace_of_isLineBreak hd)

/-- `str.rstrip`. -/
def rstrip (s : String) : String := String.ofList (s.toList.rdropWhile isSpace)

/-- `str.lstrip`. -/
def lstrip (s : String) : String := String.ofList (s.toList.dropWhile isSpace)

theorem mem_of_mem_rstrip {s : String} {c : Char} (h : c ∈ (rstrip s).toList) : c ∈ s.toList := by
  rw [rstrip, String.toList_ofList] at h
  exact (List.rdropWhile_prefix isSpace _).subset h

/-! ## Texts without carriage returns -/

/-- Read back as it was written. -/
def Plain (s : String) : Prop := '\r' ∉ s.toList

theorem plain_translate (s : String) : Plain (translate s) := translate_no_cr s

theorem Plain.translate {s : String} (h : Plain s) : translate s = s := translate_eq_self h

theorem plain_of_break {s : String} (h : ∀ c ∈ s.toList, isLineBreak c = false) : Plain s :=
  fun hmem => absurd (h _ hmem) (by decide)

theorem Plain.append {s t : String} (hs : Plain s) (ht : Plain t) : Plain (s ++ t) := by
  rw [Plain, String.toList_append, List.mem_append, not_or]
  exact ⟨hs, ht⟩

theorem Plain.intercalate {sep : String} {l : List String} (hsep : Plain sep) (h : ∀ s ∈ l, Plain s) :
    Plain (sep.intercalate l) := by
  induction l with
  | nil => simp [Plain]
  | cons s rest ih =>
      have hs := h s (List.mem_cons_self ..)
      have hrest := ih fun t ht => h t (List.mem_cons_of_mem _ ht)
      cases rest with
      | nil => simpa using hs
      | cons t rest =>
          rw [String.intercalate_cons_cons]
          exact (hs.append hsep).append hrest

theorem Plain.splitlines {s l : String} (h : l ∈ splitlines s) : Plain l := plain_of_break (splitlines_break h)

theorem Plain.rstrip {s : String} (h : Plain s) : Plain (rstrip s) := fun hmem => h (mem_of_mem_rstrip hmem)

end MonoAgent.Lib
