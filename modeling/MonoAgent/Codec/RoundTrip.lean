import MonoAgent.Codec.Encoding

/-!
# Bodies survive their text

A body that was written is read as the same body with the members of its objects in the
order of their keys (`decode_encode`), and what is read can be written: its integers came
out of a text (`decode_fits`).
-/

namespace MonoAgent.Codec

open Lib Session
open JsonValue (all allItems allMembers all_and sorted)
open JsonText (fits loads readable admitted Lawful)

variable {F : Type} {fl : FloatText F} {limit : Nat}

/-! ## Equality and order -/

def ContentPart.Same (p q : ContentPart fl) : Prop := p.kind = q.kind ∧ p.value.Same q.value

def ToolCall.Same (c d : ToolCall fl) : Prop :=
  c.bindingId = d.bindingId ∧ (JsonValue.obj c.arguments).Same (.obj d.arguments)

def Part.Same : Part fl → Part fl → Prop
  | .content p, .content q => p.Same q
  | .call c, .call d => c.Same d
  | _, _ => False

/-- Equality of bodies: objects are maps, and the mark of an old row does not count. -/
def Body.Same : Body fl → Body fl → Prop
  | .input b, .input c => List.Forall₂ ContentPart.Same b.parts c.parts
  | .output b, .output c => List.Forall₂ Part.Same b.parts c.parts ∧ b.finish = c.finish
  | .toolResult b, .toolResult c =>
      b.callRef = c.callRef ∧ b.outcome = c.outcome ∧ List.Forall₂ ContentPart.Same b.parts c.parts
  | .control b, .control c => b = c
  | _, _ => False

theorem shallow_frozen : JsonValue.Shallow (frozen fl) where
  arr _ _ := rfl
  obj _ _ hperm := decide_eq_decide.mpr hperm.nodup_iff

def ContentPart.sorted (p : ContentPart fl) : ContentPart fl :=
  { p with
    value := p.value.sorted
    value_ok := (JsonValue.all_sorted shallow_frozen p.value).trans p.value_ok }

def ToolCall.sorted (c : ToolCall fl) : ToolCall fl :=
  { c with
    arguments := (JsonValue.sortedMembers c.arguments).insertionSort JsonValue.keyLe
    arguments_ok := (JsonValue.all_sorted shallow_frozen (.obj c.arguments)).trans c.arguments_ok }

def Part.sorted : Part fl → Part fl
  | .content p => .content p.sorted
  | .call c => .call c.sorted

theorem Part.sorted_isCall (p : Part fl) : p.sorted.isCall = p.isCall := by
  cases p <;> rfl

/-- A body with the members of its objects in the order of their keys. -/
def Body.sorted : Body fl → Body fl
  | .input b => .input ⟨b.parts.map ContentPart.sorted⟩
  | .output b => .output
      { b with
        parts := b.parts.map Part.sorted
        finish_ok := fun h => by
          have hcalls : Part.isCall ∘ Part.sorted = (Part.isCall : Part fl → Bool) :=
            funext Part.sorted_isCall
          rw [List.any_map, hcalls]
          exact b.finish_ok h }
  | .toolResult b => .toolResult { b with parts := b.parts.map ContentPart.sorted }
  | .control c => .control c

theorem forall₂_map {α : Type} {R : α → α → Prop} {f : α → α} (h : ∀ a, R (f a) a) (l : List α) :
    List.Forall₂ R (l.map f) l := by
  induction l with
  | nil => exact .nil
  | cons a l ih => exact .cons (h a) ih

theorem ContentPart.same_sorted (p : ContentPart fl) : p.sorted.Same p :=
  ⟨rfl, JsonValue.same_sorted p.value⟩

theorem Part.same_sorted (p : Part fl) : p.sorted.Same p := by
  cases p with
  | content p => exact p.same_sorted
  | call c => exact ⟨rfl, JsonValue.same_sorted (.obj c.arguments)⟩

theorem Body.same_sorted (b : Body fl) : b.sorted.Same b := by
  cases b with
  | input b => exact forall₂_map ContentPart.same_sorted b.parts
  | output b => exact ⟨forall₂_map Part.same_sorted b.parts, rfl⟩
  | toolResult b => exact ⟨rfl, rfl, forall₂_map ContentPart.same_sorted b.parts⟩
  | control c => rfl

/-! ## Constructors on what they accepted -/

theorem nonempty_str {s : Text} (h : s ≠ []) : nonempty (F := F) (.str s) = some ⟨s, h⟩ :=
  dif_pos h

theorem ContentPart.make_fields (p : ContentPart fl) :
    ContentPart.make (.str p.kind) (.of p.value) = .ok p := by
  have hfreeze := freezeJson_of p.value_ok
  rw [ContentPart.make, nonempty_str p.kind_ok.1]
  dsimp only
  rw [dif_pos p.kind_ok.2]
  split
  · next h => rw [hfreeze] at h; cases h
  · next h => rw [hfreeze] at h; cases h; rfl

theorem ToolCall.make_fields (c : ToolCall fl) :
    ToolCall.make (.str c.bindingId) (.of (.obj c.arguments)) = .ok c := by
  have hfreeze := freezeMapping_of c.arguments_ok
  rw [ToolCall.make, nonempty_str c.binding_ok, Raw.of]
  dsimp only
  split
  · next h => rw [hfreeze] at h; cases h
  · next h => rw [hfreeze] at h; cases h; rfl

theorem CallRef.make_fields (r : CallRef) :
    CallRef.make (F := F) (.str r.messageId) (.int r.partIndex) = .ok r := by
  have hindex : natural (F := F) (.int r.partIndex) = some r.partIndex := by
    rw [natural, if_pos (Int.natCast_nonneg _), Int.toNat_natCast]
  rw [CallRef.make, nonempty_str r.message_ok, hindex]

theorem contents_map (ps : List (ContentPart fl)) : contents (ps.map Part.content) = some ps := by
  induction ps with
  | nil => rfl
  | cons p ps ih => rw [List.map_cons, contents, ih]; rfl

/-! ## Reading what was written -/

theorem sorted_call (c : ToolCall fl) :
    (JsonValue.obj (Part.toDict (.call c))).sorted =
      .obj [(text "arguments", .obj c.sorted.arguments), (text "binding_id", .str c.bindingId),
        (text "kind", .str (text "tool_call"))] := rfl

theorem sorted_content (p : ContentPart fl) :
    (JsonValue.obj (Part.toDict (.content p))).sorted =
      .obj [(text "kind", .str p.kind), (text "value", p.value.sorted)] := rfl

theorem part_sorted (p : Part fl) : part (JsonValue.obj p.toDict).sorted = .ok p.sorted := by
  cases p with
  | content p =>
      have hkind : hasText [(text "kind", .str p.kind), (text "value", p.value.sorted)] "kind"
          "tool_call" = false := decide_eq_false p.kind_ok.2
      have hobject : object ["kind", "value"]
          (.obj [(text "kind", .str p.kind), (text "value", p.value.sorted)]) =
            .ok [(text "kind", .str p.kind), (text "value", p.value.sorted)] := rfl
      have hmake : ContentPart.make
          (field [(text "kind", .str p.kind), (text "value", p.value.sorted)] "kind")
          (field [(text "kind", .str p.kind), (text "value", p.value.sorted)] "value") =
            .ok p.sorted := ContentPart.make_fields p.sorted
      rw [sorted_content, part, hkind]
      exact Except.bind_eq_ok.mpr ⟨_, hobject, Except.bind_eq_ok.mpr ⟨_, hmake, rfl⟩⟩
  | call c =>
      have hmake := ToolCall.make_fields c.sorted
      rw [sorted_call, part]
      exact Except.bind_eq_ok.mpr ⟨_, rfl, Except.bind_eq_ok.mpr ⟨_, hmake, rfl⟩⟩

theorem parts_sorted (ps : List (Part fl)) :
    (partsValue ps).sorted = .arr (ps.map fun p => (JsonValue.obj p.toDict).sorted) := by
  rw [partsValue, sorted, JsonValue.sortedItems_eq, List.map_map]
  rfl

theorem mapM_parts (ps : List (Part fl)) :
    (ps.map fun p => (JsonValue.obj p.toDict).sorted).mapM part = .ok (ps.map Part.sorted) := by
  induction ps with
  | nil => rfl
  | cons p ps ih =>
      rw [List.map_cons, List.mapM_cons]
      exact Except.bind_eq_ok.mpr ⟨_, part_sorted p, Except.bind_eq_ok.mpr ⟨_, ih, rfl⟩⟩

theorem rowParts_sorted {row : Dict Text (JsonValue F)} {ps : List (Part fl)}
    (h : row.get? (text "parts") = some (partsValue ps).sorted) :
    rowParts row = .ok (ps.map Part.sorted) := by
  rw [rowParts, h, parts_sorted]
  exact mapM_parts ps

theorem contents_sorted (ps : List (ContentPart fl)) :
    contents ((ps.map Part.content).map Part.sorted) = some (ps.map ContentPart.sorted) := by
  have hmap : (ps.map Part.content).map Part.sorted = (ps.map ContentPart.sorted).map Part.content := by
    rw [List.map_map, List.map_map]
    rfl
  rw [hmap, contents_map]

theorem oneOf_finish (f : Finish) (message : String) :
    oneOf (F := F) finishes message (.str (text f.text)) = .ok f := by
  cases f <;> rfl

theorem oneOf_outcome (o : Outcome) (message : String) :
    oneOf (F := F) outcomes message (.str (text o.text)) = .ok o := by
  cases o <;> rfl

theorem oneOf_action (a : Action) (message : String) :
    oneOf (F := F) actions message (.str (text a.text)) = .ok a := by
  cases a <;> rfl

theorem decode_input (b : Input fl) :
    decodeInput (JsonValue.obj (stored (.input b))).sorted = .ok (Body.input b).sorted := by
  have hparts : rowParts [(text "kind", .str (text "input")),
      (text "parts", (partsValue (b.parts.map Part.content)).sorted)] =
        .ok ((b.parts.map Part.content).map Part.sorted) := rowParts_sorted rfl
  have hmake : Input.make ((b.parts.map Part.content).map Part.sorted) =
      .ok (⟨b.parts.map ContentPart.sorted⟩ : Input fl) := by
    rw [Input.make, contents_sorted]
  exact Except.bind_eq_ok.mpr ⟨_, rfl, Except.bind_eq_ok.mpr ⟨_, hparts,
    Except.bind_eq_ok.mpr ⟨_, hmake, rfl⟩⟩⟩

theorem decode_output (b : Output fl) :
    decodeOutput (JsonValue.obj (stored (.output b))).sorted = .ok (Body.output b).sorted := by
  have hparts : rowParts [(text "finish", .str (text b.finish.text)),
      (text "kind", .str (text "output")), (text "parts", (partsValue b.parts).sorted)] =
        .ok (b.parts.map Part.sorted) := rowParts_sorted rfl
  have hfinish := oneOf_finish (F := F) b.finish "Output finish 无效"
  have hcalls : b.finish ≠ .continue → (b.parts.map Part.sorted).any Part.isCall = false := by
    intro h
    have hsame : Part.isCall ∘ Part.sorted = (Part.isCall : Part fl → Bool) := funext Part.sorted_isCall
    rw [List.any_map, hsame]
    exact b.finish_ok h
  have hmake : Output.make (b.parts.map Part.sorted) (.str (text b.finish.text)) =
      .ok ⟨b.parts.map Part.sorted, b.finish, hcalls⟩ :=
    Except.bind_eq_ok.mpr ⟨_, hfinish, dif_pos hcalls⟩
  exact Except.bind_eq_ok.mpr ⟨_, rfl, Except.bind_eq_ok.mpr ⟨_, hparts,
    Except.bind_eq_ok.mpr ⟨_, hmake, rfl⟩⟩⟩

theorem decode_control (c : Control) :
    decodeControl (JsonValue.obj (stored (.control c : Body fl))).sorted =
      .ok (Body.control c : Body fl) := by
  obtain ⟨action, throughSeq, reason⟩ := c
  have haction := oneOf_action (F := F) action "Control action 无效"
  have hseq : natural (F := F) (.int throughSeq) = some throughSeq := by
    rw [natural, if_pos (Int.natCast_nonneg _), Int.toNat_natCast]
  have hreason : optionalText (F := F) (.of (reason.elim .null .str)) = .ok reason := by
    cases reason <;> rfl
  have hmake : Control.make (F := F) (.str (text action.text)) (.int throughSeq)
      (.of (reason.elim .null .str)) = .ok ⟨action, throughSeq, reason⟩ := by
    rw [Control.make, haction]
    refine Except.bind_eq_ok.mpr ⟨_, rfl, ?_⟩
    rw [hseq, hreason]
    rfl
  have hsorted : (reason.elim JsonValue.null JsonValue.str : JsonValue F).sorted =
      reason.elim .null .str := by
    cases reason <;> rfl
  have hvalue : (JsonValue.obj (stored (.control ⟨action, throughSeq, reason⟩ : Body fl))).sorted =
      .obj [(text "action", .str (text action.text)), (text "kind", .str (text "control")),
        (text "reason", reason.elim .null .str), (text "through_seq", .int throughSeq)] := by
    have hrfl : (JsonValue.obj (stored (.control ⟨action, throughSeq, reason⟩ : Body fl))).sorted =
        .obj [(text "action", .str (text action.text)), (text "kind", .str (text "control")),
          (text "reason", (reason.elim JsonValue.null JsonValue.str : JsonValue F).sorted),
          (text "through_seq", .int throughSeq)] := rfl
    rw [hrfl, hsorted]
  rw [hvalue]
  exact Except.bind_eq_ok.mpr ⟨_, rfl, Except.bind_eq_ok.mpr ⟨_, hmake, rfl⟩⟩

/-- The fields of a result with the text `outcome` for its outcome. -/
def resultRow (b : ToolResult fl) (outcome : String) : Dict Text (JsonValue F) :=
  [(text "call_ref", .obj [(text "message_id", .str b.callRef.messageId),
      (text "part_index", .int b.callRef.partIndex)]),
    (text "kind", .str (text "tool_result")), (text "outcome", .str (text outcome)),
    (text "parts", (partsValue (b.parts.map Part.content)).sorted)]

theorem stored_result (b : ToolResult fl) :
    (JsonValue.obj (stored (.toolResult b))).sorted =
      .obj (resultRow b (if b.legacyUnknown then "unknown" else b.outcome.text)) := by
  obtain ⟨callRef, outcome, parts, legacy, hlegacy⟩ := b
  cases legacy with
  | true => rfl
  | false => rfl

/-- How a row with an outcome is read. -/
theorem decode_row (b : ToolResult fl) (outcome : String) {result : ToolResult fl}
    (hmake : ToolResult.make b.callRef
      (if hasText (resultRow b outcome) "outcome" "unknown" then .str (text "error")
        else .str (text outcome)) ((b.parts.map Part.content).map Part.sorted) = .ok result) :
    decodeResult (.obj (resultRow b outcome)) = .ok (.toolResult
      (if hasText (resultRow b outcome) "outcome" "unknown" then .old result.callRef result.parts
        else result)) := by
  have hparts : rowParts (resultRow b outcome) = .ok ((b.parts.map Part.content).map Part.sorted) :=
    rowParts_sorted rfl
  have hcallRef := CallRef.make_fields (F := F) b.callRef
  exact Except.bind_eq_ok.mpr ⟨_, rfl, Except.bind_eq_ok.mpr ⟨_, hparts, Except.bind_eq_ok.mpr
    ⟨_, rfl, Except.bind_eq_ok.mpr ⟨_, hcallRef, Except.bind_eq_ok.mpr ⟨_, hmake, rfl⟩⟩⟩⟩⟩

theorem make_result (b : ToolResult fl) (outcome : Outcome) :
    ToolResult.make b.callRef (.str (text outcome.text))
      ((b.parts.map Part.content).map Part.sorted) =
        .ok { callRef := b.callRef, outcome, parts := b.parts.map ContentPart.sorted,
              legacy_ok := fun h => by cases h } := by
  rw [ToolResult.make, contents_sorted]
  exact Except.bind_eq_ok.mpr ⟨_, oneOf_outcome outcome _, rfl⟩

theorem decode_result (b : ToolResult fl) :
    decodeResult (JsonValue.obj (stored (.toolResult b))).sorted =
      .ok (Body.toolResult b).sorted := by
  rw [stored_result]
  obtain ⟨callRef, outcome, parts, legacy, hlegacy⟩ := b
  cases legacy with
  | true =>
      cases hlegacy rfl
      exact decode_row _ "unknown" (make_result _ .error)
  | false =>
      -- no outcome of a result that was built is called so
      have hknown : hasText (resultRow ⟨callRef, outcome, parts, false, hlegacy⟩ outcome.text)
          "outcome" "unknown" = false := by
        cases outcome <;> rfl
      have hrow := decode_row ⟨callRef, outcome, parts, false, hlegacy⟩ outcome.text
        (by rw [hknown]; exact make_result _ outcome)
      rw [hknown] at hrow
      exact hrow

/-- The members that are written, in their order. -/
def written (b : Body fl) : Dict Text (JsonValue F) :=
  (JsonValue.sortedMembers (stored b)).insertionSort JsonValue.keyLe

theorem decode_written (b : Body fl) : decodeObject (written b) = .ok b.sorted := by
  cases b with
  | input b => exact (if_neg Bool.false_ne_true).trans ((if_pos rfl).trans (decode_input b))
  | output b =>
      exact (if_neg Bool.false_ne_true).trans ((if_neg Bool.false_ne_true).trans
        ((if_pos rfl).trans (decode_output b)))
  | control c => exact (if_pos rfl).trans (decode_control c)
  | toolResult b =>
      have hrow : written (.toolResult b) =
          resultRow b (if b.legacyUnknown then "unknown" else b.outcome.text) :=
        JsonValue.obj.inj (stored_result b)
      have hkind : ∀ outcome, (decodeObject (resultRow b outcome) : Except Error (Body fl)) =
          decodeResult (.obj (resultRow b outcome)) := fun outcome =>
        (if_neg Bool.false_ne_true).trans ((if_neg Bool.false_ne_true).trans
          ((if_neg Bool.false_ne_true).trans (if_pos rfl)))
      have hread := decode_result b
      rw [stored_result] at hread
      rw [hrow, hkind, hread]

/-! ## What has a text -/

/-- An integer of no more digits than the limit. -/
def short (limit : Nat) : JsonValue F → Bool
  | .int n => fits limit n
  | _ => true

def Part.each (p : JsonValue F → Bool) : Part fl → Bool
  | .content q => all p q.value
  | .call c => all p (.obj c.arguments)

/-- Every JSON value in a body, and its number, has the property. -/
def Body.each (p : JsonValue F → Bool) : Body fl → Bool
  | .input b => b.parts.all fun q => all p q.value
  | .output b => b.parts.all (Part.each p)
  | .toolResult b => p (.int b.callRef.partIndex) && b.parts.all fun q => all p q.value
  | .control c => p (.int c.throughSeq)

/-- Every integer of a body is short. -/
def Body.Fits (limit : Nat) (b : Body fl) : Prop := b.each (short limit) = true

/-- A property that texts, lists and objects with different keys have. -/
structure Plain (p : JsonValue F → Bool) : Prop where
  null : p .null = true
  str : ∀ s, p (.str s) = true
  arr : ∀ vs, p (.arr vs) = true
  obj : ∀ ms, (ms.map Prod.fst).Nodup → p (.obj ms) = true

section Plain

variable {p : JsonValue F → Bool}

theorem all_part (hp : Plain p) (q : Part fl) : all p (.obj q.toDict) = q.each p := by
  cases q with
  | content q =>
      have hobj := hp.obj (Part.toDict (.content q)) (of_decide_eq_true rfl)
      rw [all, hobj]
      simp [Part.toDict, Part.each, allMembers, all, hp.str]
  | call c =>
      have hobj := hp.obj (Part.toDict (.call c)) (of_decide_eq_true rfl)
      rw [all, hobj]
      simp [Part.toDict, Part.each, allMembers, all, hp.str]

theorem all_parts (hp : Plain p) (qs : List (Part fl)) :
    all p (partsValue qs) = qs.all (Part.each p) := by
  have hitems : allItems p (qs.map fun q => .obj q.toDict) = qs.all (Part.each p) := by
    induction qs with
    | nil => rfl
    | cons q qs ih => rw [List.map_cons, allItems, all_part hp, ih, List.all_cons]
  rw [partsValue, all, hp.arr, hitems, Bool.true_and]

theorem all_contents (hp : Plain p) (qs : List (ContentPart fl)) :
    all p (partsValue (qs.map Part.content)) = qs.all fun q => all p q.value := by
  rw [all_parts hp, List.all_map]
  rfl

/-- What holds of everything that is written. -/
theorem all_stored (hp : Plain p) (b : Body fl) : all p (.obj (stored b)) = b.each p := by
  have hstr : ∀ s, all p (.str s) = true := hp.str
  cases b with
  | input b =>
      have hobj := hp.obj (stored (.input b)) (of_decide_eq_true rfl)
      have hmembers : allMembers p (stored (.input b)) =
          (all p (.str (text "input")) &&
            (all p (partsValue (b.parts.map Part.content)) && true)) := rfl
      rw [all, hobj, hmembers, all_contents hp, hstr]
      simp [Body.each]
  | output b =>
      have hobj := hp.obj (stored (.output b)) (of_decide_eq_true rfl)
      have hmembers : allMembers p (stored (.output b)) =
          (all p (.str (text "output")) && (all p (partsValue b.parts) &&
            (all p (.str (text b.finish.text)) && true))) := rfl
      rw [all, hobj, hmembers, all_parts hp, hstr, hstr]
      simp [Body.each]
  | toolResult b =>
      obtain ⟨callRef, outcome, parts, legacy, hlegacy⟩ := b
      have hcall : all p (.obj [(text "message_id", .str callRef.messageId),
          (text "part_index", .int callRef.partIndex)]) = p (.int callRef.partIndex) := by
        rw [all, hp.obj _ (of_decide_eq_true rfl), allMembers, allMembers, allMembers, hstr, all]
        · simp
        · simp
        · simp
      have hwritten : ∀ outcome : String, all p (.obj [(text "kind", .str (text "tool_result")),
          (text "parts", partsValue (parts.map Part.content)), (text "outcome", .str (text outcome)),
          (text "call_ref", .obj [(text "message_id", .str callRef.messageId),
            (text "part_index", .int callRef.partIndex)])]) =
              (p (.int callRef.partIndex) && parts.all fun q => all p q.value) := by
        intro outcome
        rw [all, hp.obj _ (of_decide_eq_true rfl)]
        simp [allMembers, hstr, all_contents hp, hcall, Bool.and_comm]
      cases legacy with
      | true => exact hwritten "unknown"
      | false => exact hwritten outcome.text
  | control c =>
      have hobj := hp.obj (stored (.control c : Body fl)) (of_decide_eq_true rfl)
      have hreason : all p (c.reason.elim .null .str) = true := by
        cases c.reason with
        | none => exact hp.null
        | some s => exact hp.str s
      have hmembers : allMembers p (stored (.control c : Body fl)) =
          (all p (.str (text "control")) && (all p (.str (text c.action.text)) &&
            (p (.int c.throughSeq) && (all p (c.reason.elim .null .str) && true)))) := rfl
      rw [all, hobj, hmembers, hstr, hstr, hreason]
      simp [Body.each]

end Plain

theorem plain_frozen : Plain (frozen fl) where
  null := rfl
  str _ := rfl
  arr _ := rfl
  obj _ h := decide_eq_true h

theorem plain_short : Plain (F := F) (short limit) where
  null := rfl
  str _ := rfl
  arr _ := rfl
  obj _ _ := rfl

theorem each_frozen (b : Body fl) : b.each (frozen fl) = true := by
  have hpart : ∀ q : Part fl, q.each (frozen fl) = true := by
    intro q
    cases q with
    | content q => exact q.value_ok
    | call c => exact c.arguments_ok
  have hcontent : ∀ q : ContentPart fl, all (frozen fl) q.value = true := fun q => q.value_ok
  cases b with
  | input b => exact List.all_eq_true.mpr fun q _ => hcontent q
  | output b => exact List.all_eq_true.mpr fun q _ => hpart q
  | toolResult b => exact List.all_eq_true.mpr fun q _ => hcontent q
  | control c => rfl

/-- A body has a text when its integers are short. -/
theorem encode_eq (limit : Nat) (b : Body fl) : (b.Fits limit ∧
    encodeBody limit b = .ok ((JsonValue.obj (stored b)).sorted.text fl)) ∨
      ¬ b.Fits limit ∧ ∃ e, encodeBody limit b = .error e := by
  have hencode : encodeBody limit b = dumps limit fl (.obj (stored b)) :=
    if_neg fun h => h.2 rfl
  have hfrozen : all (frozen fl) (.obj (stored b)) = true := by
    rw [all_stored plain_frozen, each_frozen]
  by_cases hfits : b.Fits limit
  · have hshort : all (short limit) (.obj (stored b)) = true := by
      rw [all_stored plain_short]
      exact hfits
    have hwritable : all (writable limit fl) (.obj (stored b)) = true := by
      refine all_and (fun v hf hs => ?_) hfrozen hshort
      cases v <;> first | exact hf | exact hs
    exact Or.inl ⟨hfits, hencode.trans (if_pos hwritable)⟩
  · have hwritable : ¬ all (writable limit fl) (.obj (stored b)) = true := by
      intro h
      refine hfits ?_
      rw [Body.Fits, ← all_stored plain_short]
      refine all_and (fun v hw _ => ?_) h h
      cases v <;> first | exact hw | rfl
    exact Or.inr ⟨hfits, _, hencode.trans (if_neg hwritable)⟩

theorem loads_stored (hfl : Lawful fl) {b : Body fl} (hfits : b.Fits limit) :
    loads fl limit ((JsonValue.obj (stored b)).sorted.text fl) = some (.obj (written b)) := by
  have hfrozen : all (frozen fl) (JsonValue.obj (stored b)).sorted = true := by
    rw [JsonValue.all_sorted shallow_frozen, all_stored plain_frozen, each_frozen]
  have hshort : all (short limit) (JsonValue.obj (stored b)).sorted = true := by
    have hshallow : JsonValue.Shallow (F := F) (short limit) := ⟨fun _ _ => rfl, fun _ _ _ => rfl⟩
    rw [JsonValue.all_sorted hshallow, all_stored plain_short]
    exact hfits
  have hreadable : all (readable fl limit) (JsonValue.obj (stored b)).sorted = true := by
    refine all_and (fun v hf hs => ?_) hfrozen hshort
    cases v <;> first | exact hf | exact hs
  exact JsonText.loads_text hfl hreadable

/-- A body with short integers is read back from its text. -/
theorem decode_encode (hfl : Lawful fl) {b : Body fl} (hfits : b.Fits limit) :
    encodeBody limit b = .ok ((JsonValue.obj (stored b)).sorted.text fl) ∧
      decodeBody limit ((JsonValue.obj (stored b)).sorted.text fl) = .ok b.sorted := by
  constructor
  · rcases encode_eq limit b with ⟨-, h⟩ | ⟨h, -⟩
    · exact h
    · exact absurd hfits h
  · rw [decodeBody, loads_stored hfl hfits]
    exact decode_written b

end MonoAgent.Codec
