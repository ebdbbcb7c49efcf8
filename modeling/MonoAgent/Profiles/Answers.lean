import MonoAgent.Profiles.Draft

/-!
# Answers as strings and as texts

The additions of an answer are put into texts of code points.  An answer of strings is put in as
the texts of its lines are (`foldlM_map`).  A code point that is no white space stays in its
document, so an answer whose documents have an encoding is one of strings (`strings_of_checked`).
-/

namespace MonoAgent.Profiles

open MonoAgent.Lib

/-! ## Answers of strings -/

def Addition.map {σ τ : Type} (f : σ → τ) (a : Addition σ) : Addition τ :=
  { document := a.document, heading := a.heading, line := f a.line, messageIds := a.messageIds }

section Homs

variable {σ τ : Type} [DecidableEq σ] [DecidableEq τ] {f : σ → τ}

theorem idxOf_map (hf : Function.Injective f) (s : σ) (l : List σ) : (l.map f).idxOf (f s) = l.idxOf s := by
  have hsame : (· == f s) ∘ f = (· == s) := by
    funext m
    rw [Function.comp_apply, Bool.eq_iff_iff, beq_iff_eq, beq_iff_eq, hf.eq_iff]
  rw [List.idxOf, List.findIdx_map, hsame, List.idxOf]

theorem set_map (hf : Function.Injective f) (d : Dict σ (List String)) (line : σ) (ids : List String) :
    Dict.set (d.map fun c => (f c.1, c.2)) (f line) ids = (Dict.set d line ids).map fun c => (f c.1, c.2) := by
  have hkeys : Dict.keys (d.map fun c => (f c.1, c.2)) = (Dict.keys d).map f := by
    simp [Dict.keys]
  rw [Dict.set, Dict.set, hkeys]
  by_cases hin : line ∈ Dict.keys d
  · rw [if_pos hin, if_pos ((List.mem_map_of_injective hf).mpr hin), List.map_map, List.map_map]
    refine List.map_congr_left fun c _ => ?_
    by_cases hc : c.1 = line
    · simp [hc]
    · simp [hc, hf.eq_iff]
  · rw [if_neg hin, if_neg ((List.mem_map_of_injective hf).not.mpr hin), List.map_append]
    rfl

variable [Textual σ] [Textual τ]

theorem append_section_map (hf : Textual.Hom f) (content : σ) (heading : String) (lines : List σ) :
    appendSectionLines (f content) heading (lines.map f) = f (appendSectionLines content heading lines) := by
  have hmem (s : σ) (l : List σ) : f s ∈ l.map f ↔ s ∈ l := List.mem_map_of_injective hf.injective
  have hstart : Textual.startsWith "#" ∘ f = Textual.startsWith "#" := funext fun s => hf.startsWith "#" s
  have hunique : (lines.map f).filter (fun line => line ∉ Textual.splitlines (f content)) =
      (lines.filter fun line => line ∉ Textual.splitlines content).map f := by
    rw [hf.splitlines, List.filter_map]
    refine congrArg _ (List.filter_congr fun line _ => ?_)
    rw [Function.comp_apply, decide_eq_decide, hmem]
  have hvalues (h e : σ) (l : List σ) :
      (if f h ∈ l.map f then l.map f else l.map f ++ [f e, f h]) = (if h ∈ l then l else l ++ [e, h]).map f := by
    by_cases hin : h ∈ l
    · rw [if_pos hin, if_pos ((hmem h l).mpr hin)]
    · rw [if_neg hin, if_neg ((hmem h l).not.mpr hin), List.map_append]
      rfl
  rw [appendSectionLines, appendSectionLines]
  dsimp only
  rw [hunique]
  by_cases hnone : (lines.filter fun line => line ∉ Textual.splitlines content) = []
  · rw [if_pos hnone, if_pos (by rw [hnone, List.map_nil])]
  · rw [if_neg hnone, if_neg (mt List.map_eq_nil_iff.mp hnone), hf.rstrip, hf.splitlines, ← hf.literal, ← hf.literal,
      hvalues, idxOf_map hf.injective, ← List.map_drop, List.findIdx_map, hstart, ← hf.unlines, List.map_append,
      List.map_append, List.map_take, List.map_drop]

theorem check_addition_map (hf : Textual.Hom f) (content : σ) (sections : List String) (a : Addition σ) :
    checkAddition (f content) sections (a.map f) = checkAddition content sections a := by
  have hstart : Textual.startsWith "- " (f a.line) = Textual.startsWith "- " a.line := hf.startsWith "- " a.line
  have hstrip : Textual.strip (f a.line) = f a.line ↔ Textual.strip a.line = a.line := by
    rw [hf.strip, hf.injective.eq_iff]
  have hlength : (Textual.splitlines (f a.line)).length = (Textual.splitlines a.line).length := by
    rw [hf.splitlines, List.length_map]
  have hmem : f a.line ∈ Textual.splitlines (f content) ↔ a.line ∈ Textual.splitlines content := by
    rw [hf.splitlines, List.mem_map_of_injective hf.injective]
  simp only [checkAddition, Addition.map, ne_eq, hstart, hstrip, hlength, hmem]

theorem begun_map (hf : Textual.Hom f) (content : σ) : begun (f content) = f (begun content) := by
  have hempty : f content = Textual.literal "" ↔ content = Textual.literal "" := by
    rw [← hf.literal, hf.injective.eq_iff]
  simp only [begun, hempty]
  split
  · exact (hf.literal _).symm
  · rfl

theorem addLine_map (hf : Textual.Hom f) (docs : Documents σ) (a : Addition σ) :
    addLine (docs.map f) (a.map f) = (addLine docs a).map (Documents.map f) := by
  have happend (content : σ) : appendSectionLines (f content) a.heading [f a.line] =
      f (appendSectionLines content a.heading [a.line]) := append_section_map hf content a.heading [a.line]
  have hdocument : (a.map f).document = a.document := rfl
  rw [addLine, addLine, hdocument]
  by_cases hmemory : a.document = "memory"
  · have hcheck := check_addition_map hf docs.memory (memorySections ++ [memoryOptionalHeading]) a
    rw [if_pos hmemory, if_pos hmemory, Documents.map, hcheck]
    cases checkAddition docs.memory (memorySections ++ [memoryOptionalHeading]) a with
    | error e => rfl
    | ok _ =>
        dsimp only [Addition.map, Evidence.map]
        rw [begun_map hf, happend, set_map hf.injective]
        rfl
  · rw [if_neg hmemory, if_neg hmemory]
    by_cases hself : a.document = "self"
    · have hcheck := check_addition_map hf docs.self selfSections a
      rw [if_pos hself, if_pos hself, Documents.map, hcheck]
      cases checkAddition docs.self selfSections a with
      | error e => rfl
      | ok _ =>
          dsimp only [Addition.map, Evidence.map]
          rw [happend, set_map hf.injective]
          rfl
    · rw [if_neg hself, if_neg hself]
      rfl

/-- An answer of strings is put in as one of texts. -/
theorem foldlM_map (hf : Textual.Hom f) (additions : List (Addition σ)) (docs : Documents σ) :
    (additions.map (Addition.map f)).foldlM addLine (docs.map f) =
      (additions.foldlM addLine docs).map (Documents.map f) := by
  induction additions generalizing docs with
  | nil => rfl
  | cons a rest ih =>
      rw [List.map_cons, List.foldlM_cons, List.foldlM_cons, addLine_map hf]
      cases addLine docs a with
      | error e => rfl
      | ok next => exact ih next

end Homs

theorem encode_map (docs : Documents String) : (docs.map text).encode = .ok docs := by
  have hcited (d : Dict String (List String)) :
      (d.map fun c => (text c.1, c.2)).map (fun c => (decode c.1, c.2)) = d := by
    rw [List.map_map]
    exact (List.map_congr_left fun c _ => by rw [Function.comp_apply, decode_text]).trans (List.map_id' d)
  rw [Documents.encode, if_pos ⟨encodable_text docs.memory, encodable_text docs.self⟩, Documents.map, Documents.map,
    Evidence.map, Evidence.map, decode_text, decode_text, hcited, hcited]

/-! ## What stays in a document -/

/-- A line that the document has is left out, any other stands between the lines of the document. -/
theorem append_section_cases {τ : Type} [DecidableEq τ] [Textual τ] (content : τ) (heading : String) (line : τ) :
    appendSectionLines content heading [line] = content ∧ line ∈ Textual.splitlines content ∨
      ∃ front back, appendSectionLines content heading [line] = Textual.unlines (front ++ [line] ++ back) ∧
        ∀ l ∈ Textual.splitlines (Textual.rstrip content), l ∈ front ++ back := by
  rw [appendSectionLines]
  dsimp only
  by_cases hin : line ∈ Textual.splitlines content
  · rw [if_pos (by simp [hin])]
    exact Or.inl ⟨rfl, hin⟩
  · have hunique : [line].filter (fun l => l ∉ Textual.splitlines content) = [line] := by simp [hin]
    rw [hunique, if_neg (List.cons_ne_nil _ _)]
    refine Or.inr ⟨_, _, rfl, fun l hl => ?_⟩
    rw [List.take_append_drop]
    split
    · exact hl
    · exact List.mem_append_left _ hl

variable {n : Nat} {additions : List (Addition Text)} {docs next last : Documents Text}

theorem mem_append_section {content line : Text} {heading : String} (hn : isSpacePoint n = false)
    (h : n ∈ content ∨ n ∈ line) : n ∈ appendSectionLines content heading [line] := by
  rcases append_section_cases content heading line with ⟨hsame, hin⟩ | ⟨front, back, hlines, hall⟩
  · rw [hsame]
    exact h.elim id (Text.mem_of_splitlines hin)
  · rw [hlines]
    rcases h with h | h
    · obtain ⟨l, hl, hnl⟩ := Text.mem_splitlines (Text.mem_rstrip h hn) hn
      refine Text.mem_unlines (l := l) ?_ hnl
      rcases List.mem_append.mp (hall l hl) with hl | hl
      · exact List.mem_append_left _ (List.mem_append_left _ hl)
      · exact List.mem_append_right _ hl
    · exact Text.mem_unlines (List.mem_append_left _ (List.mem_append_right _ (List.mem_singleton_self _))) h

/-- A document has the code point. -/
def Documents.Has (docs : Documents Text) (n : Nat) : Prop := n ∈ docs.memory ∨ n ∈ docs.self

theorem addLine_has {a : Addition Text} (h : addLine docs a = .ok next) (hn : isSpacePoint n = false)
    (hhas : docs.Has n ∨ n ∈ a.line) : next.Has n := by
  have hbegun (hin : n ∈ docs.memory) : n ∈ begun docs.memory := by
    rw [begun, if_neg]
    · exact hin
    · intro hempty
      rw [hempty] at hin
      cases hin
  rw [addLine] at h
  split at h
  · obtain ⟨⟨⟩, -, hok⟩ := Except.bind_eq_ok.mp h
    cases Except.ok.inj hok
    rcases hhas with (hin | hin) | hin
    · exact Or.inl (mem_append_section hn (Or.inl (hbegun hin)))
    · exact Or.inr hin
    · exact Or.inl (mem_append_section hn (Or.inr hin))
  · split at h
    · obtain ⟨⟨⟩, -, hok⟩ := Except.bind_eq_ok.mp h
      cases Except.ok.inj hok
      rcases hhas with (hin | hin) | hin
      · exact Or.inl hin
      · exact Or.inr (mem_append_section hn (Or.inl hin))
      · exact Or.inr (mem_append_section hn (Or.inr hin))
    · cases h

/-- What is no white space in an addition is in its document in the end. -/
theorem foldlM_has (h : additions.foldlM addLine docs = .ok last) (hn : isSpacePoint n = false)
    (hhas : docs.Has n ∨ ∃ a ∈ additions, n ∈ a.line) : last.Has n := by
  induction additions generalizing docs with
  | nil =>
      cases Except.ok.inj h
      exact hhas.resolve_right (by simp)
  | cons a rest ih =>
      rw [List.foldlM_cons] at h
      obtain ⟨next, hnext, hrest⟩ := Except.bind_eq_ok.mp h
      refine ih hrest ?_
      rcases hhas with hhas | ⟨b, hb, hin⟩
      · exact Or.inl (addLine_has hnext hn (Or.inl hhas))
      · rcases List.mem_cons.mp hb with rfl | hb
        · exact Or.inl (addLine_has hnext hn (Or.inr hin))
        · exact Or.inr ⟨b, hb, hin⟩

theorem encode_eq_ok {docs : Documents Text} {built : Documents String} :
    docs.encode = .ok built ↔ (Encodable docs.memory ∧ Encodable docs.self) ∧ built = docs.map decode := by
  rw [Documents.encode]
  split
  · next h => exact ⟨fun hok => ⟨h, (Except.ok.inj hok).symm⟩, fun hboth => by rw [hboth.2]⟩
  · next h => exact iff_of_false (fun hok => by cases hok) fun hboth => h hboth.1

/-- Documents with an encoding have lines with one. -/
theorem encodable_lines {built : Documents String} (h : additions.foldlM addLine docs = .ok last)
    (hbuilt : last.encode = .ok built) : ∀ a ∈ additions, Encodable a.line := by
  intro a ha n hin
  by_cases hn : isSpacePoint n = true
  · exact isValidChar_of_isSpacePoint hn
  · obtain ⟨⟨hmemory, hself⟩, -⟩ := encode_eq_ok.mp hbuilt
    have hhas := foldlM_has h (Bool.eq_false_iff.mpr hn) (Or.inr ⟨a, ha, hin⟩)
    exact hhas.elim (hmemory n) (hself n)

/-- Additions whose lines have an encoding are additions of strings. -/
theorem exists_strings (h : ∀ a ∈ additions, Encodable a.line) :
    ∃ answer : List (Addition String), additions = answer.map (Addition.map text) := by
  refine ⟨additions.map (Addition.map decode), ?_⟩
  rw [List.map_map]
  refine ((List.map_congr_left fun a ha => ?_).trans (List.map_id' additions)).symm
  rw [Function.comp_apply, Addition.map, Addition.map, text_decode (h a ha)]

/-- An answer of strings, once more. -/
theorem checkProfileResponse_strings (answer : List (Addition String)) (sources : List Source) (memory self : String) :
    checkProfileResponse (answer.map (Addition.map text)) sources memory self = (do
      let docs ← answer.foldlM addLine { memory := memory, self := self }
      let draft : Draft :=
        { version := 2, evidence := some docs.evidence, memory := docs.memory, self := docs.self,
          memoryBefore := memory, selfBefore := self }
      checkDraft draft
      checkEvidence draft sources
      return docs) := by
  have hrun := foldlM_map text_hom answer { memory := memory, self := self }
  have hstart : Documents.map text { memory := memory, self := self } =
      { memory := text memory, self := text self } := rfl
  rw [hstart] at hrun
  rw [checkProfileResponse, hrun]
  cases answer.foldlM addLine { memory := memory, self := self } with
  | error e => rfl
  | ok docs =>
      have hencode := encode_map docs
      dsimp only [Except.map, bind, Except.bind]
      rw [hencode]

/-- An answer that is accepted is one of strings. -/
theorem strings_of_checked {sources : List Source} {memory self : String} {built : Documents String}
    (h : checkProfileResponse additions sources memory self = .ok built) :
    ∃ answer : List (Addition String), additions = answer.map (Addition.map text) := by
  obtain ⟨texts, htexts, hok⟩ := Except.bind_eq_ok.mp h
  obtain ⟨docs, hdocs, -⟩ := Except.bind_eq_ok.mp hok
  exact exists_strings (encodable_lines htexts hdocs)

end MonoAgent.Profiles
