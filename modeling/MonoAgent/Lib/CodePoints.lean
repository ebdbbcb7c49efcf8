import MonoAgent.Lib.Calendar
import MonoAgent.Lib.Unlines

/-!
# Texts of code points and strings

A text of code points may hold surrogates, a string cannot.  `Textual` has the operations that
work on lines for both, and `text` takes each of them from strings to texts.
-/

namespace MonoAgent.Lib

/-- Texts with an encoding: every code point is a character, so that none is a surrogate. -/
def Encodable (t : Text) : Prop := ∀ n ∈ t, n.isValidChar

instance (t : Text) : Decidable (Encodable t) := inferInstanceAs (Decidable (∀ n ∈ t, n.isValidChar))

/-- The string with these code points. -/
def decode (t : Text) : String := String.ofList (t.map Char.ofNat)

theorem decode_text (s : String) : decode (text s) = s := by
  have hself : Char.ofNat ∘ Char.toNat = id := funext Char.ofNat_toNat
  rw [decode, text, List.map_map, hself, List.map_id, String.ofList_toList]

theorem encodable_text (s : String) : Encodable (text s) := by
  intro n hn
  obtain ⟨c, -, rfl⟩ := List.mem_map.mp hn
  exact c.valid

theorem text_decode {t : Text} (h : Encodable t) : text (decode t) = t := by
  have hself : ∀ n ∈ t, (Char.ofNat n).toNat = n := by
    intro n hn
    rw [Char.ofNat, dif_pos (h n hn)]
    rfl
  rw [text, decode, String.toList_ofList, List.map_map]
  exact (List.map_congr_left hself).trans (List.map_id' t)

theorem isValidChar_of_isSpacePoint {n : Nat} (h : isSpacePoint n = true) : n.isValidChar := by
  simp only [isSpacePoint, Bool.or_eq_true, Bool.and_eq_true, decide_eq_true_eq] at h
  left
  omega

/-! ## Lines of code points -/

namespace Text

def rstrip (t : Text) : Text := t.rdropWhile isSpacePoint

def strip (t : Text) : Text := (t.dropWhile isSpacePoint).rdropWhile isSpacePoint

/-- `Lib.splitlinesFrom`, over code points. -/
def splitlinesFrom (cr : Bool) (line : Text) : Text → List Text
  | [] => if line = [] then [] else [line.reverse]
  | n :: rest =>
      if cr ∧ n = 10 then splitlinesFrom false line rest
      else if isLineBreakPoint n then line.reverse :: splitlinesFrom (n = 13) [] rest
      else splitlinesFrom false (n :: line) rest

def splitlines (t : Text) : List Text := splitlinesFrom false [] t

def unlines (lines : List Text) : Text := [10].intercalate lines ++ [10]

end Text

/-- What the lines of a document are worked on with. -/
class Textual (τ : Type) where
  codes : τ → Text
  literal : String → τ
  startsWith : String → τ → Bool
  strip : τ → τ
  rstrip : τ → τ
  splitlines : τ → List τ
  unlines : List τ → τ

instance : Textual String where
  codes := text
  literal := id
  startsWith start s := start.toList.isPrefixOf s.toList
  strip := strip
  rstrip := rstrip
  splitlines := splitlines
  unlines := unlines

instance : Textual Text where
  codes := id
  literal := text
  startsWith start t := (text start).isPrefixOf t
  strip := Text.strip
  rstrip := Text.rstrip
  splitlines := Text.splitlines
  unlines := Text.unlines

/-- A map that the operations go through. -/
structure Textual.Hom {σ τ : Type} [Textual σ] [Textual τ] (f : σ → τ) : Prop where
  injective : Function.Injective f
  literal (s : String) : f (Textual.literal s) = Textual.literal s
  startsWith (start : String) (s : σ) : Textual.startsWith start (f s) = Textual.startsWith start s
  strip (s : σ) : Textual.strip (f s) = f (Textual.strip s)
  rstrip (s : σ) : Textual.rstrip (f s) = f (Textual.rstrip s)
  splitlines (s : σ) : Textual.splitlines (f s) = (Textual.splitlines s).map f
  unlines (lines : List σ) : Textual.unlines (lines.map f) = f (Textual.unlines lines)

/-! ## From strings to texts -/

theorem rdropWhile_points (l : List Char) :
    (l.map Char.toNat).rdropWhile isSpacePoint = (l.rdropWhile isSpace).map Char.toNat := by
  rw [List.rdropWhile, List.rdropWhile, ← List.map_reverse, List.dropWhile_map, List.map_reverse]
  rfl

theorem rstrip_text (s : String) : Text.rstrip (text s) = text (rstrip s) := by
  rw [Text.rstrip, text, text, rdropWhile_points, rstrip, String.toList_ofList]

theorem strip_text (s : String) : Text.strip (text s) = text (strip s) := by
  have hleft : (s.toList.map Char.toNat).dropWhile isSpacePoint = (s.toList.dropWhile isSpace).map Char.toNat :=
    List.dropWhile_map
  rw [Text.strip, text, text, hleft, rdropWhile_points, strip_toList]

theorem splitlinesFrom_text (cr : Bool) (line cs : List Char) :
    Text.splitlinesFrom cr (line.map Char.toNat) (cs.map Char.toNat) = (splitlinesFrom cr line cs).map text := by
  have hline (l : List Char) : text (String.ofList l.reverse) = (l.map Char.toNat).reverse := by
    rw [text, String.toList_ofList, List.map_reverse]
  induction cs generalizing cr line with
  | nil =>
      rw [List.map_nil, Text.splitlinesFrom, splitlinesFrom]
      by_cases hnil : line = []
      · rw [if_pos hnil, if_pos (by rw [hnil, List.map_nil]), List.map_nil]
      · rw [if_neg hnil, if_neg (mt List.map_eq_nil_iff.mp hnil), List.map_singleton, hline]
  | cons c rest ih =>
      have hnewline : c.toNat = 10 ↔ c = '\n' := Char.toNat_inj (d := '\n')
      have hreturn : c.toNat = 13 ↔ c = '\r' := Char.toNat_inj (d := '\r')
      rw [List.map_cons, Text.splitlinesFrom, splitlinesFrom]
      by_cases hsecond : cr = true ∧ c = '\n'
      · rw [if_pos hsecond, if_pos ⟨hsecond.1, hnewline.mpr hsecond.2⟩]
        exact ih false line
      · rw [if_neg hsecond, if_neg fun hboth => hsecond ⟨hboth.1, hnewline.mp hboth.2⟩]
        have hpoint : isLineBreakPoint c.toNat = isLineBreak c := rfl
        rw [hpoint]
        by_cases hbreak : isLineBreak c = true
        · rw [if_pos hbreak, if_pos hbreak, List.map_cons, hline, ← ih (decide (c = '\r')) []]
          simp only [hreturn, List.map_nil]
        · rw [if_neg hbreak, if_neg hbreak]
          exact ih false (c :: line)

theorem splitlines_text (s : String) : Text.splitlines (text s) = (splitlines s).map text :=
  splitlinesFrom_text false [] s.toList

theorem unlines_text (lines : List String) : Text.unlines (lines.map text) = text (unlines lines) := by
  induction lines with
  | nil => rfl
  | cons l rest ih =>
      cases rest with
      | nil =>
          rw [text, toList_unlines_singleton, List.map_append]
          simp [Text.unlines, text]
      | cons m more =>
          rw [text, toList_unlines_cons l (List.cons_ne_nil _ _), List.map_append, List.map_cons]
          rw [Text.unlines, List.map_cons] at ih ⊢
          rw [List.map_cons, List.intercalate_cons_cons, List.append_assoc, List.append_assoc, ih]
          rfl

theorem startsWith_text (start s : String) :
    Textual.startsWith start (text s) = Textual.startsWith start s := by
  rw [Bool.eq_iff_iff]
  exact List.isPrefixOf_iff_prefix.trans
    ((List.prefix_map_iff_of_injective fun _ _ => Char.toNat_inj.mp).trans List.isPrefixOf_iff_prefix.symm)

theorem text_hom : Textual.Hom text where
  injective _ _ := text_injective
  literal _ := rfl
  startsWith := startsWith_text
  strip := strip_text
  rstrip := rstrip_text
  splitlines := splitlines_text
  unlines := unlines_text

/-! ## Code points that outlast the white space -/

namespace Text

variable {t l : Text} {lines : List Text} {n : Nat}

theorem mem_rstrip (h : n ∈ t) (hn : isSpacePoint n = false) : n ∈ rstrip t := by
  rw [rstrip]
  induction t using List.reverseRecOn with
  | nil => exact h
  | append_singleton t m ih =>
      by_cases hm : isSpacePoint m = true
      · rw [List.rdropWhile_concat_pos _ _ _ hm]
        refine ih ((List.mem_append.mp h).resolve_right fun hlast => ?_)
        rw [List.mem_singleton.mp hlast, hm] at hn
        cases hn
      · rw [List.rdropWhile_concat_neg _ _ _ hm]
        exact h

theorem mem_splitlinesFrom {cr : Bool} {line : Text} (h : n ∈ line ∨ n ∈ t) (hn : isSpacePoint n = false) :
    ∃ l ∈ splitlinesFrom cr line t, n ∈ l := by
  induction t generalizing cr line with
  | nil =>
      have hline : n ∈ line := h.resolve_right List.not_mem_nil
      rw [splitlinesFrom, if_neg (List.ne_nil_of_mem hline)]
      exact ⟨line.reverse, List.mem_singleton_self _, List.mem_reverse.mpr hline⟩
  | cons m rest ih =>
      have hrest (hm : isSpacePoint m = true) : n ∈ line ∨ n ∈ rest :=
        h.imp_right fun hin => (List.mem_cons.mp hin).resolve_left fun heq => by
          rw [heq, hm] at hn
          cases hn
      rw [splitlinesFrom]
      split
      · next hsecond => exact ih (hrest (by rw [hsecond.2]; rfl))
      · split
        · next hbreak =>
            rcases hrest (isSpacePoint_of_isLineBreakPoint hbreak) with hline | hin
            · exact ⟨line.reverse, List.mem_cons_self .., List.mem_reverse.mpr hline⟩
            · obtain ⟨l, hl, hnl⟩ := @ih (m = 13) [] (Or.inr hin)
              exact ⟨l, List.mem_cons_of_mem _ hl, hnl⟩
        · refine ih ?_
          rw [List.mem_cons] at h ⊢
          tauto

theorem mem_splitlines (h : n ∈ t) (hn : isSpacePoint n = false) : ∃ l ∈ splitlines t, n ∈ l :=
  mem_splitlinesFrom (Or.inr h) hn

theorem mem_of_splitlinesFrom {cr : Bool} {line : Text} (hl : l ∈ splitlinesFrom cr line t) (h : n ∈ l) :
    n ∈ line ∨ n ∈ t := by
  induction t generalizing cr line with
  | nil =>
      rw [splitlinesFrom] at hl
      split at hl
      · cases hl
      · rw [List.mem_singleton.mp hl, List.mem_reverse] at h
        exact Or.inl h
  | cons m rest ih =>
      rw [splitlinesFrom] at hl
      split at hl
      · exact (ih hl).imp_right (List.mem_cons_of_mem _)
      · split at hl
        · rcases List.mem_cons.mp hl with rfl | hl
          · exact Or.inl (List.mem_reverse.mp h)
          · exact Or.inr (List.mem_cons_of_mem _ ((ih hl).resolve_left List.not_mem_nil))
        · have hmem := ih hl
          rw [List.mem_cons] at hmem ⊢
          tauto

theorem mem_of_splitlines (hl : l ∈ splitlines t) (h : n ∈ l) : n ∈ t :=
  (mem_of_splitlinesFrom hl h).resolve_left List.not_mem_nil

theorem mem_unlines (hl : l ∈ lines) (h : n ∈ l) : n ∈ unlines lines := by
  refine List.mem_append_left _ ?_
  induction lines with
  | nil => cases hl
  | cons m rest ih =>
      cases rest with
      | nil =>
          rw [List.mem_singleton.mp hl] at h
          simpa using h
      | cons k more =>
          rw [List.intercalate_cons_cons, List.append_assoc]
          rcases List.mem_cons.mp hl with rfl | hl
          · exact List.mem_append_left _ h
          · exact List.mem_append_right _ (List.mem_append_right _ (ih hl))

end Text

end MonoAgent.Lib
