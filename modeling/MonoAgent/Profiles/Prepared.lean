import MonoAgent.Profiles.Accepted
import MonoAgent.Profiles.Store

/-!
# Prepared drafts are read back

New entries are single lines and old text goes through `splitlines`, so the next texts of a draft
have no carriage return.  A file that is given them is read as the draft has them.
-/

namespace MonoAgent.Profiles

open MonoAgent.Lib

/-! ## Texts without carriage returns -/

theorem append_section_eq (content heading : String) (lines : List String) :
    appendSectionLines content heading lines =
      let unique := lines.filter fun line => line ∉ splitlines content
      if unique = [] then content
      else
        let values := splitlines (rstrip content)
        let values := if heading ∈ values then values else values ++ ["", heading]
        let start := values.idxOf heading + 1
        let stop := start + (values.drop start).findIdx (startsWith "#")
        "\n".intercalate (values.take stop ++ unique ++ values.drop stop) ++ "\n" := rfl

theorem plain_append_section {content heading : String} {lines : List String} (hc : Plain content) (hh : Plain heading)
    (hl : ∀ l ∈ lines, Plain l) : Plain (appendSectionLines content heading lines) := by
  have hnewline : Plain "\n" := by simp [Plain]
  rw [append_section_eq]
  dsimp only
  split
  · exact hc
  · refine (Plain.intercalate hnewline fun s hs => ?_).append hnewline
    have hvalues : ∀ s ∈ (if heading ∈ splitlines (rstrip content) then splitlines (rstrip content)
        else splitlines (rstrip content) ++ ["", heading]), Plain s := by
      intro s hs
      split at hs
      · exact Plain.splitlines hs
      · rcases List.mem_append.mp hs with hs | hs
        · exact Plain.splitlines hs
        · rcases List.mem_pair.mp hs with rfl | rfl
          · simp [Plain]
          · exact hh
    rcases List.mem_append.mp hs with hs | hs
    · rcases List.mem_append.mp hs with hs | hs
      · exact hvalues s (List.mem_of_mem_take hs)
      · exact hl s (List.mem_of_mem_filter hs)
    · exact hvalues s (List.mem_of_mem_drop hs)

theorem plain_sections {heading : String} (h : heading ∈ memoryHeadings ++ [memoryOptionalHeading] ++ selfHeadings) :
    Plain heading := by
  have hall : ∀ h ∈ memoryHeadings ++ [memoryOptionalHeading] ++ selfHeadings, '\r' ∉ h.toList := by decide
  exact hall heading h

theorem mem_headings_of_memory {heading : String} (h : heading ∈ memorySections ++ [memoryOptionalHeading]) :
    heading ∈ memoryHeadings ++ [memoryOptionalHeading] ++ selfHeadings := by
  refine List.mem_append_left _ ?_
  rcases List.mem_append.mp h with h | h
  · exact List.mem_append_left _ (List.mem_cons_of_mem _ h)
  · exact List.mem_append_right _ h

theorem plain_headings : Plain ("\n\n".intercalate memoryHeadings ++ "\n") := by
  rw [Plain]
  decide

theorem plain_begun {content : String} (h : Plain content) : Plain (begun content) := by
  rw [begun]
  split
  · exact plain_headings
  · exact h

theorem checkAddition_plain {content : String} {sections : List String} {a : Addition String}
    (h : checkAddition content sections a = .ok ()) : a.heading ∈ sections ∧ Plain a.line := by
  rw [checkAddition] at h
  split at h
  · cases h
  · next hheading =>
      split at h
      · cases h
      · next hline =>
          rw [not_or, not_or, not_not, not_not, not_not] at hline
          exact ⟨not_not.mp hheading, plain_of_break (break_of_stripped hline.2.2 hline.2.1)⟩

/-- What a batch may begin with and leaves. -/
structure Documents.Good (docs : Documents String) : Prop where
  memory : Plain docs.memory
  self : Plain docs.self
  citedMemory : docs.evidence.memory.keys.Nodup
  citedSelf : docs.evidence.self.keys.Nodup

theorem addLine_good {docs next : Documents String} {a : Addition String} (h : addLine docs a = .ok next) (hd : docs.Good) :
    next.Good := by
  rw [addLine] at h
  split at h
  · obtain ⟨⟨⟩, hcheck, hok⟩ := Except.bind_eq_ok.mp h
    cases Except.ok.inj hok
    obtain ⟨hheading, hline⟩ := checkAddition_plain hcheck
    refine ⟨plain_append_section (plain_begun hd.memory) (plain_sections ?_) ?_, hd.self,
      Dict.nodup_keys_set hd.citedMemory _ _, hd.citedSelf⟩
    · exact mem_headings_of_memory hheading
    · simpa using hline
  · split at h
    · obtain ⟨⟨⟩, hcheck, hok⟩ := Except.bind_eq_ok.mp h
      cases Except.ok.inj hok
      obtain ⟨hheading, hline⟩ := checkAddition_plain hcheck
      refine ⟨hd.memory, plain_append_section hd.self (plain_sections ?_) ?_, hd.citedMemory,
        Dict.nodup_keys_set hd.citedSelf _ _⟩
      · exact List.mem_append_right _ (List.mem_cons_of_mem _ hheading)
      · simpa using hline
    · cases h

theorem foldlM_good {α : Type} {f : Documents String → α → Except DraftError (Documents String)}
    (hf : ∀ docs a next, f docs a = .ok next → docs.Good → next.Good) {l : List α} {docs last : Documents String}
    (h : l.foldlM f docs = .ok last) (hd : docs.Good) : last.Good := by
  induction l generalizing docs with
  | nil =>
      cases Except.ok.inj h
      exact hd
  | cons a rest ih =>
      rw [List.foldlM_cons] at h
      obtain ⟨next, hnext, hrest⟩ := Except.bind_eq_ok.mp h
      exact ih hrest (hf docs a next hnext hd)

theorem addBatch_good {docs next : Documents String} {batch : Batch} (h : addBatch docs batch = .ok next) (hd : docs.Good) :
    next.Good := by
  obtain ⟨next', hanswer, hok⟩ := Except.bind_eq_ok.mp h
  split at hok
  · cases hok
  · cases Except.ok.inj hok
    obtain ⟨answer, hstrings⟩ := strings_of_checked hanswer
    rw [hstrings, checkProfileResponse_strings] at hanswer
    obtain ⟨built, hbuilt, hchecks⟩ := Except.bind_eq_ok.mp hanswer
    have hgood : built.Good :=
      foldlM_good (fun _ _ _ => addLine_good) hbuilt ⟨hd.memory, hd.self, List.nodup_nil, List.nodup_nil⟩
    obtain ⟨⟨⟩, -, hchecks⟩ := Except.bind_eq_ok.mp hchecks
    obtain ⟨⟨⟩, -, hchecks⟩ := Except.bind_eq_ok.mp hchecks
    cases Except.ok.inj hchecks
    exact ⟨hgood.memory, hgood.self, Dict.nodup_keys_update hd.citedMemory _, Dict.nodup_keys_update hd.citedSelf _⟩

theorem foldl_plain {α : Type} {f : String → α → String} {l : List α}
    (hf : ∀ s, ∀ a ∈ l, Plain s → Plain (f s a)) {s : String} (h : Plain s) : Plain (l.foldl f s) := by
  induction l generalizing s with
  | nil => exact h
  | cons a rest ih =>
      exact ih (fun s a ha => hf s a (List.mem_cons_of_mem _ ha)) (hf s a (List.mem_cons_self ..) h)

theorem plain_merged {memory pendingItems : String} (h : Plain memory) : Plain (mergeLegacyPending memory pendingItems) := by
  rw [mergeLegacyPending]
  split
  · exact h
  · have hcontent : Plain (if strip memory = "" then "\n\n".intercalate memoryHeadings ++ "\n" else memory) := by
      split
      · exact plain_headings
      · exact h
    have hstrip : ∀ l ∈ (splitlines pendingItems).map strip, Plain l := by
      intro l hl
      obtain ⟨l', hl', rfl⟩ := List.mem_map.mp hl
      exact fun hmem => Plain.splitlines hl' (mem_of_mem_strip hmem)
    have hentry : ∀ l : String, Plain l → Plain (legacyEntry l).2 := by
      intro l hl
      rw [legacyEntry]
      dsimp only
      split
      · exact hl
      · exact Plain.append (by simp [Plain]) hl
    have hitems : ∀ item ∈ (((splitlines pendingItems).map strip).filter (· ≠ "")).map legacyEntry, Plain item.2 := by
      intro item hitem
      obtain ⟨l, hl, rfl⟩ := List.mem_map.mp hitem
      exact hentry l (hstrip l (List.mem_of_mem_filter hl))
    refine (Plain.rstrip ?_).append (by simp [Plain])
    refine foldl_plain (fun content heading hh hcontent => ?_) hcontent
    refine plain_append_section hcontent (plain_sections ?_) fun l hl => ?_
    · exact mem_headings_of_memory hh
    · obtain ⟨item, hitem, rfl⟩ := List.mem_map.mp hl
      exact hitems item (List.mem_of_mem_filter hitem)

/-- Where a draft comes from: the answers of the model, or the retired queue. -/
inductive Origin where
  | profile (batches : List Batch)
  | legacy (pendingItems : String)

def Origin.draft (o : Origin) (memory self : String) : Except DraftError Draft :=
  match o with
  | .profile batches => prepareProfileDraft batches memory self
  | .legacy pendingItems => prepareLegacyDraft pendingItems memory self

/-- What the later steps need of a draft of `memory` and `self`. -/
structure Draft.Good (memory self : String) (d : Draft) : Prop where
  memoryBefore : d.memoryBefore = memory
  selfBefore : d.selfBefore = self
  memory : Plain d.memory
  self : Plain d.self
  cited : ∀ e, d.evidence = some e → e.memory.keys.Nodup ∧ e.self.keys.Nodup

/-- A draft of texts that were read is one of texts that will be read as they are. -/
theorem Origin.good {o : Origin} {memory self : String} {d : Draft} (h : o.draft memory self = .ok d)
    (hm : Plain memory) (hs : Plain self) : d.Good memory self := by
  cases o with
  | profile batches =>
      obtain ⟨docs, hdocs, hok⟩ := Except.bind_eq_ok.mp h
      obtain ⟨⟨⟩, -, hok⟩ := Except.bind_eq_ok.mp hok
      cases Except.ok.inj hok
      have hgood : docs.Good := foldlM_good (fun _ _ _ => addBatch_good) hdocs ⟨hm, hs, List.nodup_nil, List.nodup_nil⟩
      refine ⟨rfl, rfl, hgood.memory, hgood.self, fun e he => ?_⟩
      cases Option.some.inj he
      exact ⟨hgood.citedMemory, hgood.citedSelf⟩
  | legacy pendingItems =>
      obtain ⟨⟨⟩, -, hok⟩ := Except.bind_eq_ok.mp h
      obtain ⟨⟨⟩, -, hok⟩ := Except.bind_eq_ok.mp hok
      cases Except.ok.inj hok
      have hmerged : Plain (mergeLegacyPending memory pendingItems) := plain_merged hm
      refine ⟨rfl, rfl, ?_, hs, fun _ he => nomatch he⟩
      dsimp only
      exact hmerged

/-! ## Files -/

def Draft.before (d : Draft) : Document → String
  | .memory => d.memoryBefore
  | .self => d.selfBefore

def Draft.after (d : Draft) : Document → String
  | .memory => d.memory
  | .self => d.self

theorem Store.read_replace (p : Store) (document other : Document) (content : String) :
    (p.replace document content).read other = if other = document then translate content else p.read other := by
  cases document <;> cases other <;> rfl

/-- A draft of the documents of a store holds them as they are read, and once its documents are
their files they are read as the draft has them. -/
theorem prepared_read_back (p : Store) {o : Origin} {d : Draft}
    (h : o.draft (p.read .memory) (p.read .self) = .ok d) :
    (∀ document, d.before document = p.read document) ∧
      (∀ document, ((p.replace .memory d.memory).replace .self d.self).read document =
        d.after document) ∧
      ∀ e, d.evidence = some e → e.memory.keys.Nodup ∧ e.self.keys.Nodup := by
  obtain ⟨hmemoryBefore, hselfBefore, hmemory, hself, hcited⟩ :=
    o.good h (plain_translate _) (plain_translate _)
  refine ⟨fun document => ?_, fun document => ?_, hcited⟩
  · cases document with
    | memory => exact hmemoryBefore
    | self => exact hselfBefore
  · rw [Store.read_replace, Store.read_replace]
    cases document with
    | memory => exact hmemory.translate
    | self => exact hself.translate

/-! ## A file with other line ends -/

def fact : Addition String := { document := "memory", heading := "## 用户事实", line := "- 养猫", messageIds := ["m1"] }

/-- The profiles of a user, with `\r\n` in one file. -/
def plainProfiles : Store :=
  { memory := String.ofList ((profileMemory "## 用户事实").flatMap fun l => l.toList ++ ['\r', '\n'])
    self := unlines profileSelf }

def factMemory : List String :=
  ["# 用户长期记忆", "## 用户事实", "- 住在杭州", "- 养猫", "## 用户偏好", "## 用户明确要求长期记住的关键内容"]

def queueMemory : List String :=
  ["# 用户长期记忆", "## 用户事实", "- 住在杭州", "## 用户偏好", "- [preference] 喜欢茶",
    "## 用户明确要求长期记住的关键内容"]

theorem tidy_profileMemory : Tidy (profileMemory "## 用户事实") := by
  refine ⟨fun l hl => ?_, ["# 用户长期记忆", "## 用户事实", "- 住在杭州", "## 用户偏好"],
    "## 用户明确要求长期记住的关键内容", rfl, (memory_sections _ (by simp [memorySections])).solid⟩
  rw [← splitlines_memory unbroken_section] at hl
  exact splitlines_break hl

theorem read_memory : plainProfiles.read .memory = unlines (profileMemory "## 用户事实") :=
  translate_crlf (fun l hl => plain_of_break (tidy_profileMemory.unbroken l hl)) (List.cons_ne_nil _ _)

theorem read_self : plainProfiles.read .self = unlines profileSelf := by
  refine Plain.translate (Plain.append (Plain.intercalate (by simp [Plain]) fun l hl => ?_) (by simp [Plain]))
  rw [← splitlines_profileSelf] at hl
  exact Plain.splitlines hl

theorem answered_fact :
    (answered [fact] (unlines (profileMemory "## 用户事实")) (unlines profileSelf)).memory = unlines factMemory := by
  have hlines : placeAll (profileMemory "## 用户事实") [fact.entry] = factMemory := by decide
  have hentries : (additionsTo "memory" [fact]).map Addition.entry = [fact.entry] := by decide
  rw [answered, hentries]
  dsimp only
  rw [memoryAfter, if_neg (List.cons_ne_nil _ _), grown, if_neg (List.cons_ne_nil _ _), profileMemory,
    begun_of_ne (unlines_ne _ _), ← profileMemory, trimmed_memory unbroken_section, hlines]

theorem draft_fact :
    ∃ d, prepareProfileDraft [⟨[⟨"m1", true⟩], [fact.map text]⟩] (unlines (profileMemory "## 用户事实"))
        (unlines profileSelf) = .ok d ∧ d.memory = unlines factMemory := by
  have hanswer : [newFact (text "- 养猫")] = [fact].map (Addition.map text) := rfl
  have hwell : WellFormed [fact] [⟨"m1", true⟩] (unlines (profileMemory "## 用户事实")) (unlines profileSelf) :=
    (hanswer ▸ wellFormed_fact).strings
  have htakes : Takes [fact] (unlines (profileMemory "## 用户事实")) (unlines profileSelf) :=
    takes_strings.mp (hanswer ▸ takes_fact)
  have hbatch : addBatch { memory := unlines (profileMemory "## 用户事实"), self := unlines profileSelf }
      ⟨[⟨"m1", true⟩], [fact.map text]⟩ =
      .ok (answered [fact] (unlines (profileMemory "## 用户事实")) (unlines profileSelf)) := by
    have hmemory : gathered (additionsTo "memory" [fact]) = [("- 养猫", ["m1"])] := by decide
    have hself : gathered (additionsTo "self" [fact]) = [] := by decide
    refine Except.bind_eq_ok.mpr ⟨_, hwell.checked_answered htakes, ?_⟩
    rw [if_neg (by simp [Dict.keys])]
    simp only [answered, hmemory, hself]
    rfl
  have hdocs : [⟨[⟨"m1", true⟩], [fact.map text]⟩].foldlM addBatch
      { memory := unlines (profileMemory "## 用户事实"), self := unlines profileSelf } =
      .ok (answered [fact] (unlines (profileMemory "## 用户事实")) (unlines profileSelf)) := by
    rw [List.foldlM_cons, hbatch]
    rfl
  have hevidence := hwell.checkEvidence_answered htakes 2
  refine ⟨_, Except.bind_eq_ok.mpr ⟨_, hdocs, Except.bind_eq_ok.mpr ⟨(), ?_, rfl⟩⟩, answered_fact⟩
  exact hevidence

theorem tidy_queueMemory : Tidy queueMemory := by
  have hplace : place (profileMemory "## 用户事实") "## 用户偏好" "- [preference] 喜欢茶" = queueMemory := by decide
  rw [← hplace]
  refine tidy_place tidy_profileMemory (memory_sections _ (by simp [memorySections])) ⟨by decide, by decide, ?_, by decide⟩
  simp [Unbroken, isLineBreak, isLineBreakPoint]

theorem merged_queue :
    mergeLegacyPending (unlines (profileMemory "## 用户事实")) "- [preference] 喜欢茶\r\n" = unlines queueMemory := by
  have hqueue : strip "- [preference] 喜欢茶\r\n" ≠ "" := by decide
  have hmemory : strip (unlines (profileMemory "## 用户事实")) ≠ "" := by
    intro hempty
    have hblank := blank_of_strip hempty '#' (by simp [profileMemory, toList_unlines_cons])
    revert hblank
    decide
  have hitems : (((splitlines "- [preference] 喜欢茶\r\n").map strip).filter (· ≠ "")).map legacyEntry =
      [("## 用户偏好", "- [preference] 喜欢茶")] := by decide +kernel
  have hnone (content heading : String) : appendSectionLines content heading [] = content := rfl
  have hnew : "- [preference] 喜欢茶" ∉ splitlines (unlines (profileMemory "## 用户事实")) := by
    rw [splitlines_memory unbroken_section]
    decide
  have hplace : place (profileMemory "## 用户事实") "## 用户偏好" "- [preference] 喜欢茶" = queueMemory := by decide
  have hadded : appendSectionLines (unlines (profileMemory "## 用户事实")) "## 用户偏好" ["- [preference] 喜欢茶"] =
      unlines queueMemory := by
    have hlines : splitlines (rstrip (unlines (profileMemory "## 用户事实"))) = profileMemory "## 用户事实" :=
      trimmed_memory unbroken_section
    rw [append_eq hnew, hlines, hplace]
  rw [mergeLegacyPending, if_neg hqueue]
  dsimp only
  rw [if_neg hmemory, hitems]
  have hfilter (heading : String) :
      ([("## 用户偏好", "- [preference] 喜欢茶")].filter fun item => item.1 = heading).map Prod.snd =
        if "## 用户偏好" = heading then ["- [preference] 喜欢茶"] else [] := by
    by_cases hsame : "## 用户偏好" = heading
    · simp [hsame]
    · simp [hsame]
  simp only [memorySections, memoryOptionalHeading, List.cons_append, List.nil_append, List.foldl_cons, List.foldl_nil,
    hfilter]
  rw [if_neg (by decide), if_pos trivial, if_neg (by decide), if_neg (by decide), hnone, hnone, hnone, hadded]
  exact rstrip_unlines tidy_queueMemory

/-- An addition, and a line of the retired queue. -/
theorem prepared_read_back_example :
    (∃ d, Origin.draft (.profile [⟨[⟨"m1", true⟩], [fact.map text]⟩]) (plainProfiles.read .memory)
        (plainProfiles.read .self) = .ok d ∧ d.before .memory = plainProfiles.read .memory ∧
      ((plainProfiles.replace .memory d.memory).replace .self d.self).read .memory = unlines factMemory) ∧
    ∃ d, Origin.draft (.legacy "- [preference] 喜欢茶\r\n") (plainProfiles.read .memory)
        (plainProfiles.read .self) = .ok d ∧ d.before .memory = plainProfiles.read .memory ∧
      ((plainProfiles.replace .memory d.memory).replace .self d.self).read .memory = unlines queueMemory := by
  constructor
  · obtain ⟨d, hd, hmemory⟩ := draft_fact
    rw [← read_memory, ← read_self] at hd
    have hdraft : Origin.draft (.profile [⟨[⟨"m1", true⟩], [fact.map text]⟩]) (plainProfiles.read .memory)
        (plainProfiles.read .self) = .ok d := hd
    obtain ⟨hbefore, hafter, -⟩ := prepared_read_back plainProfiles hdraft
    exact ⟨d, hdraft, hbefore .memory, (hafter .memory).trans hmemory⟩
  · have hvalid : validateMemory (unlines queueMemory) = .ok () := by
      refine validate_unlines tidy_queueMemory.unbroken ?_ ?_ ⟨"- 住在杭州", by simp [queueMemory], by decide⟩
      · decide
      · decide
    have hdraft : Origin.draft (.legacy "- [preference] 喜欢茶\r\n") (plainProfiles.read .memory)
        (plainProfiles.read .self) = .ok ⟨1, none, unlines queueMemory, plainProfiles.read .self,
          plainProfiles.read .memory, plainProfiles.read .self⟩ := by
      rw [read_memory, read_self, Origin.draft, prepareLegacyDraft]
      rw [merged_queue, hvalid, validate_profileSelf]
      rfl
    obtain ⟨hbefore, hafter, -⟩ := prepared_read_back plainProfiles hdraft
    exact ⟨_, hdraft, hbefore .memory, hafter .memory⟩

end MonoAgent.Profiles
