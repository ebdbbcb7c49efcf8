import Mathlib

/-!
# White space and fields in strings

`strip` and `words` by the characters that count as white space in Unicode, and the
`fields` of a line between separators.  Fields that are joined again are the same fields.
-/

namespace MonoAgent.Lib

/-- White space, the separators of records and lines included. -/
def isSpacePoint (n : Nat) : Bool :=
  (9 ≤ n && n ≤ 13) || (28 ≤ n && n ≤ 32) || n = 0x85 || n = 0xA0 || n = 0x1680 ||
    (0x2000 ≤ n && n ≤ 0x200A) || n = 0x2028 || n = 0x2029 || n = 0x202F || n = 0x205F || n = 0x3000

def isSpace (c : Char) : Bool := isSpacePoint c.toNat

/-- The string without the white space at its two ends. -/
def strip (s : String) : String :=
  String.ofList (((s.toList.dropWhile isSpace).reverse.dropWhile isSpace).reverse)

/-- Without white space there is nothing to strip. -/
theorem strip_eq_self {s : String} (h : ∀ c ∈ s.toList, isSpace c = false) : strip s = s := by
  have hkeep (l : List Char) (hl : ∀ c ∈ l, isSpace c = false) : l.dropWhile isSpace = l := by
    cases l with
    | nil => rfl
    | cons c rest => rw [List.dropWhile_cons_of_neg (by simp [hl c (List.mem_cons_self ..)])]
  rw [strip, hkeep _ h, hkeep _ fun c hc => h c (List.mem_reverse.mp hc), List.reverse_reverse,
    String.ofList_toList]

theorem strip_toList (s : String) : (strip s).toList = (s.toList.dropWhile isSpace).rdropWhile isSpace := by
  rw [strip, String.toList_ofList, List.rdropWhile]

theorem mem_of_mem_strip {s : String} {c : Char} (h : c ∈ (strip s).toList) : c ∈ s.toList := by
  rw [strip_toList] at h
  exact List.dropWhile_subset _ ((List.rdropWhile_prefix isSpace _).subset h)

theorem strip_strip (s : String) : strip (strip s) = strip s := by
  apply String.toList_inj.mp
  rw [strip_toList, strip_toList]
  have hleft : ((s.toList.dropWhile isSpace).rdropWhile isSpace).dropWhile isSpace =
      (s.toList.dropWhile isSpace).rdropWhile isSpace := by
    rw [List.dropWhile_eq_self_iff]
    intro hpos
    have hpre := List.rdropWhile_prefix isSpace (s.toList.dropWhile isSpace)
    rw [hpre.getElem hpos]
    exact List.dropWhile_get_zero_not _ _ (hpre.length_le.trans_lt' hpos)
  rw [hleft, List.rdropWhile_idempotent]

/-- The fields of a line, without the white space around them; an empty field is none. -/
def fields (c : Char) (s : String) : List String :=
  (((s.toList.splitOn c).map String.ofList).map strip).filter (· ≠ "")

/-- A field between separators `c`. -/
structure IsField (c : Char) (x : String) : Prop where
  nonempty : x ≠ ""
  stripped : strip x = x
  separate : c ∉ x.toList

theorem not_mem_of_mem_splitOn {c : Char} {l m : List Char} (h : m ∈ l.splitOn c) : c ∉ m := by
  induction l generalizing m with
  | nil =>
      rw [List.splitOn_nil, List.mem_singleton] at h
      rw [h]
      exact List.not_mem_nil
  | cons x rest ih =>
      rw [List.splitOn_cons_eq_if_modifyHead] at h
      split at h
      · rcases List.mem_cons.mp h with rfl | h
        · exact List.not_mem_nil
        · exact ih h
      · next hx =>
          obtain ⟨y, ys, hys⟩ := List.exists_cons_of_ne_nil (List.splitOn_ne_nil c rest)
          rw [hys] at h ih
          rcases List.mem_cons.mp h with rfl | h
          · rw [List.mem_cons, not_or]
            exact ⟨fun heq => hx (by simp [heq]), ih List.mem_cons_self⟩
          · exact ih (List.mem_cons_of_mem _ h)

theorem isField_of_mem {c : Char} {s x : String} (h : x ∈ fields c s) : IsField c x := by
  obtain ⟨h, hne⟩ := List.mem_filter.mp h
  obtain ⟨y, hy, rfl⟩ := List.mem_map.mp h
  obtain ⟨m, hm, rfl⟩ := List.mem_map.mp hy
  refine ⟨of_decide_eq_true hne, strip_strip _, fun hc => not_mem_of_mem_splitOn hm ?_⟩
  have hmem := mem_of_mem_strip hc
  rwa [String.toList_ofList] at hmem

theorem fields_intercalate {c : Char} {l : List String} (h : ∀ x ∈ l, IsField c x) :
    fields c ((String.singleton c).intercalate l) = l := by
  cases l with
  | nil => rfl
  | cons x rest =>
      have hsplit : ((String.singleton c).intercalate (x :: rest)).toList.splitOn c = (x :: rest).map String.toList := by
        rw [String.toList_intercalate, String.toList_singleton]
        refine List.splitOn_intercalate c (fun m hm => ?_) (List.cons_ne_nil _ _)
        obtain ⟨y, hy, rfl⟩ := List.mem_map.mp hm
        exact (h y hy).separate
      have hstrip : ((x :: rest).map String.toList).map (strip ∘ String.ofList) = x :: rest := by
        rw [List.map_map]
        refine (List.map_congr_left fun y hy => ?_).trans (List.map_id _)
        change strip (String.ofList y.toList) = y
        rw [String.ofList_toList, (h y hy).stripped]
      rw [fields, hsplit, List.map_map, hstrip, List.filter_eq_self]
      exact fun y hy => decide_eq_true (h y hy).nonempty

/-- The runs of other characters, from the left; `word` is the run that was begun. -/
def wordsFrom (word : List Char) : List Char → List String
  | [] => if word = [] then [] else [String.ofList word.reverse]
  | c :: rest =>
      if isSpace c then
        if word = [] then wordsFrom [] rest else String.ofList word.reverse :: wordsFrom [] rest
      else wordsFrom (c :: word) rest

/-- The words of a string. -/
def words (s : String) : List String := wordsFrom [] s.toList

example : fields ',' "a, b,,c " = ["a", "b", "c"] := by decide

example : words " 0 9 * * 1\n" = ["0", "9", "*", "*", "1"] := by decide

end MonoAgent.Lib
