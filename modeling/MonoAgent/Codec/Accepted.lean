import MonoAgent.Codec.RoundTrip

/-!
# What is read can be written

A text is read by the grammar of JSON, so its objects have different keys and its integers
are within the limit; the constructors refuse the numbers that are not finite.  What
`decodeBody` returns is therefore a body with a text (`decode_fits`), and the two directions
meet: from the second text on nothing changes (`body_round_trip`).
-/

namespace MonoAgent.Codec

open Lib Session
open JsonValue (all allItems allMembers all_and sorted)
open JsonText (fits loads readable admitted Lawful)

variable {F : Type} {fl : FloatText F} {limit : Nat}

/-! ## Values that were read -/

mutual

/-- The copy of a value that was read is the value. -/
theorem freezeJson_admitted :
    ∀ {v w : JsonValue F}, all (admitted limit) v = true → freezeJson fl (.of v) = .ok w → w = v
  | .null, w, _, h | .bool _, w, _, h | .int _, w, _, h | .str _, w, _, h => by cases h; rfl
  | .float x, w, _, h => by
      rw [Raw.of, freezeJson] at h
      split at h
      · cases h
        rfl
      · cases h
  | .arr vs, w, hv, h => by
      rw [all, Bool.and_eq_true] at hv
      rw [Raw.of, freezeJson] at h
      obtain ⟨ws, hws, rfl⟩ := Except.map_eq_ok.mp h
      rw [freezeItems_admitted hv.2 hws]
  | .obj ms, w, hv, h => by
      rw [all, Bool.and_eq_true] at hv
      have hkeys : ((Dict.keys ([] : Dict Text (JsonValue F))) ++ ms.map Prod.fst).Nodup :=
        of_decide_eq_true hv.1
      rw [Raw.of, freezeJson, ofMembers_keys, if_neg Bool.false_ne_true] at h
      obtain ⟨ns, hns, rfl⟩ := Except.map_eq_ok.mp h
      rw [freezeMembers_admitted hv.2 hns, Dict.update_concat hkeys, List.nil_append]

theorem freezeItems_admitted :
    ∀ {vs ws : List (JsonValue F)}, allItems (admitted limit) vs = true →
      freezeItems fl (Raw.ofItems vs) = .ok ws → ws = vs
  | [], ws, _, h => by cases h; rfl
  | v :: vs, ws, hv, h => by
      rw [allItems, Bool.and_eq_true] at hv
      rw [Raw.ofItems, freezeItems] at h
      obtain ⟨w, hw, h⟩ := Except.bind_eq_ok.mp h
      obtain ⟨ws, hws, h⟩ := Except.bind_eq_ok.mp h
      cases h
      rw [freezeJson_admitted hv.1 hw, freezeItems_admitted hv.2 hws]

theorem freezeMembers_admitted :
    ∀ {ms ns : List (Text × JsonValue F)}, allMembers (admitted limit) ms = true →
      freezeMembers fl (Raw.ofMembers ms) = .ok ns → ns = ms
  | [], ns, _, h => by cases h; rfl
  | (k, v) :: ms, ns, hv, h => by
      rw [allMembers, Bool.and_eq_true] at hv
      rw [Raw.ofMembers, freezeMembers] at h
      obtain ⟨w, hw, h⟩ := Except.bind_eq_ok.mp h
      obtain ⟨ws, hws, h⟩ := Except.bind_eq_ok.mp h
      cases h
      rw [freezeJson_admitted hv.1 hw, freezeMembers_admitted hv.2 hws]
      rfl

end

theorem short_of_admitted {v : JsonValue F} (h : all (admitted limit) v = true) :
    all (short limit) v = true :=
  all_and (fun v ha _ => by cases v <;> first | exact ha | rfl) h h

theorem freeze_short {v w : JsonValue F} (hv : all (admitted limit) v = true)
    (h : freezeJson fl (.of v) = .ok w) : all (short limit) w = true :=
  freezeJson_admitted hv h ▸ short_of_admitted hv

theorem get?_admitted {data : Dict Text (JsonValue F)} (name : String)
    (h : all (admitted limit) (.obj data) = true) :
    all (admitted limit) ((data.get? (text name)).getD .null) = true := by
  rw [all, Bool.and_eq_true, JsonValue.allMembers_eq, List.all_eq_true] at h
  cases hget : data.get? (text name) with
  | none => rfl
  | some v => exact h.2 _ (Dict.mem_of_get? hget)

/-! ## What constructors return -/

theorem ContentPart.make_ok {kind value : Raw F} {p : ContentPart fl}
    (h : ContentPart.make kind value = .ok p) : freezeJson fl value = .ok p.value := by
  rw [ContentPart.make] at h
  split at h
  · cases h
  · split at h
    · split at h
      · cases h
      · next hv =>
          cases h
          exact hv
    · cases h

theorem ToolCall.make_ok {bindingId arguments : Raw F} {c : ToolCall fl}
    (h : ToolCall.make bindingId arguments = .ok c) :
    freezeJson fl arguments = .ok (.obj c.arguments) := by
  rw [ToolCall.make] at h
  split at h
  · cases h
  · split at h
    · split at h
      · cases h
      · next hv =>
          cases h
          exact (freezeJson_dict _).trans (congrArg (Except.map JsonValue.obj) hv)
    · cases h

theorem natural_of {v : JsonValue F} {n : Nat} (h : natural (.of v) = some n) : v = .int n := by
  cases v with
  | int m =>
      rw [Raw.of, natural] at h
      split at h
      · cases h
        rw [Int.toNat_of_nonneg (by assumption)]
      · cases h
  | _ => simp [Raw.of, natural] at h

theorem CallRef.make_ok {messageId partIndex : Raw F} {r : CallRef}
    (h : CallRef.make messageId partIndex = .ok r) : natural partIndex = some r.partIndex := by
  rw [CallRef.make] at h
  split at h
  · next hn =>
      cases h
      exact hn
  · cases h

theorem Control.make_ok {action throughSeq reason : Raw F} {c : Control}
    (h : Control.make action throughSeq reason = .ok c) : natural throughSeq = some c.throughSeq := by
  obtain ⟨a, _, h⟩ := Except.bind_eq_ok.mp h
  split at h
  · cases h
  · next hn =>
      obtain ⟨r, _, rfl⟩ := Except.map_eq_ok.mp h
      exact hn

theorem contents_eq {ps : List (Part fl)} {qs : List (ContentPart fl)} (h : contents ps = some qs) :
    ps = qs.map .content := by
  induction ps generalizing qs with
  | nil => cases h; rfl
  | cons p ps ih =>
      cases p with
      | content p =>
          rw [contents] at h
          obtain ⟨rest, hrest, rfl⟩ := Option.map_eq_some_iff.mp h
          rw [ih hrest, List.map_cons]
      | call c => cases h

/-! ## Bodies that were read -/

theorem object_ok {fields : List String} {v : JsonValue F} {data : Dict Text (JsonValue F)}
    (h : object fields v = .ok data) : v = .obj data := by
  cases v with
  | obj ms =>
      rw [object] at h
      split at h
      · cases h
        rfl
      · cases h
  | _ => cases h

theorem part_short {v : JsonValue F} {p : Part fl} (hv : all (admitted limit) v = true)
    (h : part v = .ok p) : p.each (short limit) = true := by
  cases v with
  | obj raw =>
      rw [part] at h
      split at h
      · obtain ⟨data, hdata, h⟩ := Except.bind_eq_ok.mp h
        obtain ⟨call, hcall, h⟩ := Except.bind_eq_ok.mp h
        cases h
        cases object_ok hdata
        exact freeze_short (get?_admitted _ hv) (ToolCall.make_ok hcall)
      · obtain ⟨data, hdata, h⟩ := Except.bind_eq_ok.mp h
        obtain ⟨content, hcontent, h⟩ := Except.bind_eq_ok.mp h
        cases h
        cases object_ok hdata
        exact freeze_short (get?_admitted _ hv) (ContentPart.make_ok hcontent)
  | _ => cases h

theorem parts_short {vs : List (JsonValue F)} {ps : List (Part fl)}
    (hv : allItems (admitted limit) vs = true) (h : vs.mapM part = .ok ps) :
    ps.all (Part.each (short limit)) = true := by
  induction vs generalizing ps with
  | nil => cases h; rfl
  | cons v vs ih =>
      rw [allItems, Bool.and_eq_true] at hv
      rw [List.mapM_cons] at h
      obtain ⟨p, hp, h⟩ := Except.bind_eq_ok.mp h
      obtain ⟨qs, hqs, h⟩ := Except.bind_eq_ok.mp h
      cases h
      rw [List.all_cons, part_short hv.1 hp, ih hv.2 hqs]
      rfl

theorem rowParts_short {row : Dict Text (JsonValue F)} {ps : List (Part fl)}
    (hrow : all (admitted limit) (.obj row) = true) (h : rowParts row = .ok ps) :
    ps.all (Part.each (short limit)) = true := by
  have hget := get?_admitted "parts" hrow
  rw [rowParts] at h
  split at h
  · next hparts =>
      rw [hparts, Option.getD_some, all, Bool.and_eq_true] at hget
      exact parts_short hget.2 h
  · cases h

theorem contents_short {ps : List (Part fl)} {qs : List (ContentPart fl)}
    (h : contents ps = some qs) (hps : ps.all (Part.each (short limit)) = true) :
    (qs.all fun q => all (short limit) q.value) = true := by
  rw [contents_eq h, List.all_map] at hps
  exact hps

/-- What the decoder of a kind returns: short integers, and whether the row was an old one. -/
def Decoded (limit : Nat) (b : Body fl) (old : Bool) : Prop := b.Fits limit ∧ b.legacyUnknown = old

section Kinds

variable {data : Dict Text (JsonValue F)} {b : Body fl}

theorem decodeControl_ok (hdata : all (admitted limit) (.obj data) = true)
    (h : decodeControl (.obj data) = .ok b) : Decoded limit b false := by
  obtain ⟨row, hrow, h⟩ := Except.bind_eq_ok.mp h
  obtain ⟨c, hc, h⟩ := Except.bind_eq_ok.mp h
  cases h
  cases object_ok hrow
  have hseq := natural_of (Control.make_ok hc)
  have hfits := short_of_admitted (get?_admitted "through_seq" hdata)
  rw [hseq] at hfits
  exact ⟨hfits, rfl⟩

theorem decodeInput_ok (hdata : all (admitted limit) (.obj data) = true)
    (h : decodeInput (.obj data) = .ok b) : Decoded limit b false := by
  obtain ⟨row, hrow, h⟩ := Except.bind_eq_ok.mp h
  obtain ⟨ps, hps, h⟩ := Except.bind_eq_ok.mp h
  obtain ⟨input, hinput, h⟩ := Except.bind_eq_ok.mp h
  cases h
  cases object_ok hrow
  rw [Input.make] at hinput
  split at hinput
  · cases hinput
  · next hcontents =>
      cases hinput
      exact ⟨contents_short hcontents (rowParts_short hdata hps), rfl⟩

theorem decodeOutput_ok (hdata : all (admitted limit) (.obj data) = true)
    (h : decodeOutput (.obj data) = .ok b) : Decoded limit b false := by
  obtain ⟨row, hrow, h⟩ := Except.bind_eq_ok.mp h
  obtain ⟨ps, hps, h⟩ := Except.bind_eq_ok.mp h
  obtain ⟨output, houtput, h⟩ := Except.bind_eq_ok.mp h
  cases h
  cases object_ok hrow
  obtain ⟨finish, _, houtput⟩ := Except.bind_eq_ok.mp houtput
  split at houtput
  · cases houtput
    exact ⟨rowParts_short hdata hps, rfl⟩
  · cases houtput

theorem decodeResult_ok (hdata : all (admitted limit) (.obj data) = true)
    (h : decodeResult (.obj data) = .ok b) :
    Decoded limit b (hasText data "outcome" "unknown") := by
  obtain ⟨row, hrow, h⟩ := Except.bind_eq_ok.mp h
  obtain ⟨ps, hps, h⟩ := Except.bind_eq_ok.mp h
  obtain ⟨call, hcall, h⟩ := Except.bind_eq_ok.mp h
  obtain ⟨callRef, hcallRef, h⟩ := Except.bind_eq_ok.mp h
  obtain ⟨result, hresult, h⟩ := Except.bind_eq_ok.mp h
  cases h
  cases object_ok hrow
  have hindex := natural_of (CallRef.make_ok hcallRef)
  have hcallData := get?_admitted "call_ref" hdata
  rw [object_ok hcall] at hcallData
  have hfits := short_of_admitted (get?_admitted "part_index" hcallData)
  rw [hindex] at hfits
  rw [ToolResult.make] at hresult
  split at hresult
  · cases hresult
  · next hcontents =>
      obtain ⟨outcome, _, hresult⟩ := Except.bind_eq_ok.mp hresult
      cases hresult
      have hparts := contents_short hcontents (rowParts_short hdata hps)
      have hshort : (short limit (JsonValue.int (F := F) callRef.partIndex) &&
          (_ : List (ContentPart fl)).all fun q => all (short limit) q.value) = true :=
        Bool.and_eq_true_iff.mpr ⟨hfits, hparts⟩
      cases hasText data "outcome" "unknown" with
      | true => exact ⟨hshort, rfl⟩
      | false => exact ⟨hshort, rfl⟩

end Kinds

/-- A field has one text. -/
theorem hasText_ne {data : Dict Text (JsonValue F)} {name v w : String}
    (h : hasText data name v = true) (hne : text v ≠ text w) : hasText data name w = false := by
  rw [hasText] at h ⊢
  split at h
  · next s hs =>
      have hv := of_decide_eq_true h
      exact decide_eq_false fun hw => hne (hv.symm.trans hw)
  · cases h

theorem decodeObject_ok {data : Dict Text (JsonValue F)} {b : Body fl}
    (hdata : all (admitted limit) (.obj data) = true) (h : decodeObject data = .ok b) :
    Decoded limit b (hasText data "kind" "tool_result" && hasText data "outcome" "unknown") := by
  rw [decodeObject] at h
  split at h
  · next hkind =>
      rw [hasText_ne hkind (by decide)]
      exact decodeControl_ok hdata h
  · split at h
    · next hkind =>
        rw [hasText_ne hkind (by decide)]
        exact decodeInput_ok hdata h
    · split at h
      · next hkind =>
          rw [hasText_ne hkind (by decide)]
          exact decodeOutput_ok hdata h
      · split at h
        · next hkind =>
            rw [hkind, Bool.true_and]
            exact decodeResult_ok hdata h
        · cases h

/-- Where a body comes from. -/
theorem decodeBody_ok {s : Text} {b : Body fl} (h : decodeBody limit s = .ok b) :
    ∃ data, loads fl limit s = some (.obj data) ∧ decodeObject data = .ok b := by
  rw [decodeBody] at h
  split at h
  · cases h
  · next data hloads => exact ⟨data, hloads, h⟩
  · cases h

/-- A body that was read can be written. -/
theorem decode_fits {s : Text} {b : Body fl} (h : decodeBody limit s = .ok b) : b.Fits limit := by
  obtain ⟨data, hloads, hdata⟩ := decodeBody_ok h
  exact (decodeObject_ok (JsonText.loads_admitted hloads) hdata).1

theorem fits_sorted {b : Body fl} (h : b.Fits limit) : b.sorted.Fits limit := by
  have hshallow : JsonValue.Shallow (F := F) (short limit) := ⟨fun _ _ => rfl, fun _ _ _ => rfl⟩
  have hpart : ∀ q : Part fl, q.sorted.each (short limit) = q.each (short limit) := by
    intro q
    cases q with
    | content q => exact JsonValue.all_sorted hshallow q.value
    | call c => exact JsonValue.all_sorted hshallow (.obj c.arguments)
  have hcontents : ∀ qs : List (ContentPart fl),
      ((qs.map ContentPart.sorted).all fun q => all (short limit) q.value) =
        qs.all fun q => all (short limit) q.value := by
    intro qs
    rw [List.all_map]
    exact congrArg qs.all (funext fun q => JsonValue.all_sorted hshallow q.value)
  cases b with
  | input b => exact (hcontents b.parts).trans h
  | output b =>
      have hparts : (b.parts.map Part.sorted).all (Part.each (short limit)) =
          b.parts.all (Part.each (short limit)) := by
        rw [List.all_map]
        exact congrArg b.parts.all (funext hpart)
      exact hparts.trans h
  | toolResult b =>
      rw [Body.Fits, Body.each] at h
      rw [Body.sorted, Body.Fits, Body.each, hcontents]
      exact h
  | control c => exact h

theorem toDict_sorted (p : Part fl) :
    (JsonValue.obj p.sorted.toDict).sorted = (JsonValue.obj p.toDict).sorted := by
  cases p with
  | content p =>
      rw [Part.sorted, sorted_content, sorted_content]
      simp [ContentPart.sorted, JsonValue.sorted_sorted]
  | call c =>
      have hargs : JsonValue.obj c.sorted.sorted.arguments = .obj c.sorted.arguments :=
        JsonValue.sorted_sorted (.obj c.arguments)
      rw [Part.sorted, sorted_call, sorted_call, hargs]
      rfl

theorem partsValue_sorted (ps : List (Part fl)) :
    (partsValue (ps.map Part.sorted)).sorted = (partsValue ps).sorted := by
  rw [parts_sorted, parts_sorted, List.map_map]
  exact congrArg JsonValue.arr (List.map_congr_left fun p _ => toDict_sorted p)

theorem contentsValue_sorted (ps : List (ContentPart fl)) :
    (partsValue ((ps.map ContentPart.sorted).map Part.content)).sorted =
      (partsValue (ps.map Part.content)).sorted := by
  have hmap : (ps.map ContentPart.sorted).map Part.content = (ps.map Part.content).map Part.sorted := by
    rw [List.map_map, List.map_map]
    rfl
  rw [hmap, partsValue_sorted]

/-- The order of members is not written. -/
theorem stored_sorted (b : Body fl) :
    (JsonValue.obj (stored b.sorted)).sorted = (JsonValue.obj (stored b)).sorted := by
  cases b with
  | input b =>
      have hrow : ∀ ps : List (ContentPart fl), (JsonValue.obj (stored (.input ⟨ps⟩))).sorted =
          .obj [(text "kind", .str (text "input")),
            (text "parts", (partsValue (ps.map Part.content)).sorted)] := fun _ => rfl
      exact (hrow _).trans (contentsValue_sorted b.parts ▸ (hrow b.parts).symm)
  | output b =>
      have hrow : ∀ o : Output fl, (JsonValue.obj (stored (.output o))).sorted =
          .obj [(text "finish", .str (text o.finish.text)), (text "kind", .str (text "output")),
            (text "parts", (partsValue o.parts).sorted)] := fun _ => rfl
      rw [Body.sorted, hrow, hrow, partsValue_sorted]
  | toolResult b =>
      rw [Body.sorted, stored_result, stored_result, resultRow, resultRow, contentsValue_sorted]
  | control c => rfl

/-! ## The round trip -/

/-- A body that was accepted and has short integers is written and read back; a text that was
accepted is written again, once, and then stays as it is; a row of the older format keeps its
outcome and is not written as a new one. -/
theorem body_round_trip (limit : Nat) (hfl : Lawful fl) :
    (∀ b : Body fl, b.Fits limit → ∃ t c, encodeBody limit b = .ok t ∧
      decodeBody limit t = .ok c ∧ c.Same b ∧ c.legacyUnknown = b.legacyUnknown) ∧
    (∀ (s : Text) (b : Body fl), decodeBody limit s = .ok b → ∃ t c, encodeBody limit b = .ok t ∧
      decodeBody limit t = .ok c ∧ c.Same b ∧ c.legacyUnknown = b.legacyUnknown ∧
        encodeBody limit c = .ok t) ∧
    (∀ (s : Text) (b : Body fl) (data : Dict Text (JsonValue F)), decodeBody limit s = .ok b →
      loads fl limit s = some (.obj data) →
        (b.legacyUnknown = true ↔ hasText data "kind" "tool_result" = true ∧
          hasText data "outcome" "unknown" = true)) ∧
    (∀ b : Body fl, b.legacyUnknown = true →
      encodeBody limit b false =
        .error ⟨.valueError, "旧 unknown 工具结果只能重放已有消息，不能作为新消息写入"⟩ ∧
      ∀ t, encodeBody limit b = .ok t → ∃ data, loads fl limit t = some (.obj data) ∧
        hasText data "outcome" "unknown" = true) := by
  have hback : ∀ b : Body fl, b.Fits limit → ∃ t c, encodeBody limit b = .ok t ∧
      decodeBody limit t = .ok c ∧ c.Same b ∧ c.legacyUnknown = b.legacyUnknown ∧
        encodeBody limit c = .ok t := by
    intro b hfits
    obtain ⟨hencode, hdecode⟩ := decode_encode hfl hfits
    have hagain := (decode_encode hfl (fits_sorted hfits)).1
    rw [stored_sorted] at hagain
    have hlegacy : b.sorted.legacyUnknown = b.legacyUnknown := by cases b <;> rfl
    exact ⟨_, b.sorted, hencode, hdecode, b.same_sorted, hlegacy, hagain⟩
  refine ⟨fun b hfits => ?_, fun s b h => hback b (decode_fits h), fun s b data h hloads => ?_,
    fun b hlegacy => ⟨if_pos ⟨hlegacy, Bool.false_ne_true⟩, fun t ht => ?_⟩⟩
  · obtain ⟨t, c, hencode, hdecode, hsame, hlegacy, -⟩ := hback b hfits
    exact ⟨t, c, hencode, hdecode, hsame, hlegacy⟩
  · obtain ⟨data', hloads', hdata⟩ := decodeBody_ok h
    rw [hloads] at hloads'
    cases hloads'
    rw [(decodeObject_ok (JsonText.loads_admitted hloads) hdata).2, Bool.and_eq_true]
  · rcases encode_eq limit b with ⟨hfits, hencode⟩ | ⟨-, e, herror⟩
    · rw [ht] at hencode
      cases hencode
      refine ⟨written b, loads_stored hfl hfits, ?_⟩
      cases b with
      | toolResult b =>
          have hrow : written (.toolResult b) =
              resultRow b (if b.legacyUnknown then "unknown" else b.outcome.text) :=
            JsonValue.obj.inj (stored_result b)
          have hold : b.legacyUnknown = true := hlegacy
          rw [hrow, hold, if_pos rfl]
          rfl
      | _ => cases hlegacy
    · rw [ht] at herror
      cases herror

/-- Floating point numbers without a fraction; `none` is what is not finite. -/
def wholeFloats : FloatText (Option Nat) where
  ofText t := some (readNat (t.takeWhile JsonText.isDigit))
  repr x := x.elim (text "nan") fun n => JsonText.decimal n ++ [46, 48]
  finite := Option.isSome
  nan := none
  infinity := none
  negInfinity := none

theorem wholeFloats_lawful : Lawful wholeFloats where
  shape x hx := by
    obtain ⟨n, rfl⟩ := Option.isSome_iff_exists.mp hx
    exact ⟨[], JsonText.decimal n, [46, 48], [], by simp [wholeFloats], Or.inl rfl,
      JsonText.decimal_isDigits n, Or.inr ⟨48, [], rfl, rfl, by simp⟩, Or.inl rfl,
      Or.inl (List.cons_ne_nil _ _)⟩
  back x hx := by
    obtain ⟨n, rfl⟩ := Option.isSome_iff_exists.mp hx
    have htake := (JsonText.takeWhile_digits (r := [46, 48]) (JsonText.decimal_digits n)
      fun c hc => by cases hc; rfl).1
    exact congrArg some ((congrArg readNat htake).trans (JsonText.readNat_decimal n))

/-- One part with an integer. -/
def integerPart (n : Int) : ContentPart wholeFloats where
  kind := text "json"
  value := .arr [.obj [(text "b", .int n), (text "a", .float (some 1))]]
  kind_ok := by decide
  value_ok := rfl

theorem body_round_trip_example : ∃ t c,
    encodeBody 4300 (.input ⟨[integerPart 12]⟩) = .ok t ∧ decodeBody 4300 t = .ok c ∧
      c.Same (.input ⟨[integerPart 12]⟩) ∧ c.legacyUnknown = false :=
  (body_round_trip 4300 wholeFloats_lawful).1 _ rfl

theorem fits_lt {n : Nat} (hpos : limit ≠ 0) (h : fits limit n = true) : n < 10 ^ limit := by
  have hle := (of_decide_eq_true h).resolve_left hpos
  rw [Int.natAbs_natCast, JsonText.decimal] at hle
  split at hle
  · next hn =>
      rw [hn]
      exact Nat.pos_of_ne_zero (pow_ne_zero _ (by decide))
  · rw [List.length_map, List.length_reverse] at hle
    exact (Nat.digits_length_le_iff (by decide) n).mp hle

theorem integerPart_fits {n : Int} (h : Body.Fits limit (.input ⟨[integerPart n]⟩)) :
    fits limit n = true := by
  rw [Body.Fits, Body.each] at h
  simpa [integerPart, all, allItems, allMembers, short] using h

/-- An integer of more digits than the limit is accepted and has no text. -/
theorem long_integer_refused :
    ContentPart.make (.str (text "json")) (.of (integerPart (10 ^ 4300 : Nat)).value) =
      .ok (integerPart (10 ^ 4300 : Nat)) ∧
    Input.make [.content (integerPart (10 ^ 4300 : Nat))] = .ok ⟨[integerPart (10 ^ 4300 : Nat)]⟩ ∧
    ∃ e, encodeBody 4300 (.input ⟨[integerPart (10 ^ 4300 : Nat)]⟩) = .error e := by
  refine ⟨ContentPart.make_fields (integerPart (10 ^ 4300 : Nat)), rfl, ?_⟩
  rcases encode_eq 4300 (.input ⟨[integerPart (10 ^ 4300 : Nat)]⟩) with ⟨hfits, -⟩ | ⟨-, herror⟩
  · exact absurd (fits_lt (by decide) (integerPart_fits hfits)) (lt_irrefl _)
  · exact herror

end MonoAgent.Codec
