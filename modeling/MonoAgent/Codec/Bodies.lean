import MonoAgent.Lib.Dict
import MonoAgent.Lib.Exec
import MonoAgent.Lib.JsonFuel
import MonoAgent.Lib.JsonOrder
import MonoAgent.Session.MessageCodec

/-!
# Bodies and their constructors

`Session.Message` takes a body as it stands in a log.  Here it is built: a constructor is
given Python values (`Raw`), refuses what it refuses in the source and keeps a copy of the
rest (`freezeJson`).  What it checks is a field of what it returns, so a `Body` is a body
that a constructor accepted, and each one is (`Raw.of`: `freezeJson` returns a value that
was read as it is).

Texts are code points, numbers are a parameter (`Lib.FloatText`).
-/

namespace MonoAgent.Codec

open Lib Session
open JsonValue (all allItems allMembers)

variable {F : Type}

/-! ## Values before they are frozen -/

/-- A Python value, as far as `freeze_json` tells them apart. -/
inductive Raw (F : Type) where
  | none
  | bool (b : Bool)
  | int (n : Int)
  | float (x : F)
  | str (s : Text)
  | list (items : List (Raw F))
  | tuple (items : List (Raw F))
  | dict (items : List (Raw F × Raw F))
  | other (typeName : String)

namespace Raw

def isStr : Raw F → Bool
  | .str _ => true
  | _ => false

/-- The text of a key that was checked. -/
def key : Raw F → Text
  | .str s => s
  | _ => []

mutual

/-- What `json.loads` returns for a value. -/
def of : JsonValue F → Raw F
  | .null => .none
  | .bool b => .bool b
  | .int n => .int n
  | .float x => .float x
  | .str s => .str s
  | .arr vs => .list (ofItems vs)
  | .obj ms => .dict (ofMembers ms)

def ofItems : List (JsonValue F) → List (Raw F)
  | [] => []
  | v :: vs => of v :: ofItems vs

def ofMembers : List (Text × JsonValue F) → List (Raw F × Raw F)
  | [] => []
  | (k, v) :: ms => (.str k, of v) :: ofMembers ms

end

end Raw

variable (fl : FloatText F)

mutual

/-- `freeze_json`. -/
def freezeJson : Raw F → Except Error (JsonValue F)
  | .none => .ok .null
  | .bool b => .ok (.bool b)
  | .int n => .ok (.int n)
  | .str s => .ok (.str s)
  | .float x =>
      if fl.finite x then .ok (.float x)
      else .error ⟨.valueError, "消息 JSON 不接受非有限浮点数"⟩
  | .dict ms =>
      if ms.any fun m => !m.1.isStr then
        .error ⟨.typeError, "消息 JSON 对象的 key 必须是字符串"⟩
      else (freezeMembers ms).map fun entries => .obj (Dict.update [] entries)
  | .list vs => (freezeItems vs).map .arr
  | .tuple vs => (freezeItems vs).map .arr
  | .other typeName => .error ⟨.typeError, "消息内容必须是 JSON 值，实际为 " ++ typeName⟩

def freezeItems : List (Raw F) → Except Error (List (JsonValue F))
  | [] => .ok []
  | v :: vs => do
      let w ← freezeJson v
      return w :: (← freezeItems vs)

def freezeMembers : List (Raw F × Raw F) → Except Error (List (Text × JsonValue F))
  | [] => .ok []
  | (k, v) :: ms => do
      let w ← freezeJson v
      return (k.key, w) :: (← freezeMembers ms)

end

/-- `freeze_json` of a mapping. -/
def freezeMapping (ms : List (Raw F × Raw F)) : Except Error (Dict Text (JsonValue F)) :=
  if ms.any fun m => !m.1.isStr then
    .error ⟨.typeError, "消息 JSON 对象的 key 必须是字符串"⟩
  else (freezeMembers fl ms).map fun entries => Dict.update [] entries

/-- What is known of one value that was frozen. -/
def frozen : JsonValue F → Bool
  | .float x => fl.finite x
  | .obj ms => decide (ms.map Prod.fst).Nodup
  | _ => true

variable {fl}

theorem freezeJson_dict (ms : List (Raw F × Raw F)) :
    freezeJson fl (.dict ms) = (freezeMapping fl ms).map .obj := by
  rw [freezeJson, freezeMapping]
  split
  · rfl
  · cases freezeMembers fl ms with
    | ok entries => rfl
    | error e => rfl

theorem frozen_update {p : JsonValue F → Bool} {entries : List (Text × JsonValue F)}
    (h : allMembers p entries = true) : allMembers p (Dict.update [] entries) = true := by
  rw [JsonValue.allMembers_eq, List.all_eq_true] at h ⊢
  intro e he
  rcases Dict.mem_of_mem_update he with hnil | he
  · cases hnil
  · exact h e he

mutual

theorem freezeJson_frozen :
    ∀ {v : Raw F} {w : JsonValue F}, freezeJson fl v = .ok w → all (frozen fl) w = true
  | .none, w, h | .bool _, w, h | .int _, w, h | .str _, w, h => by cases h; rfl
  | .float x, w, h => by
      rw [freezeJson] at h
      split at h
      · next hx =>
          cases h
          exact hx
      · cases h
  | .dict ms, w, h => by
      rw [freezeJson] at h
      split at h
      · cases h
      · obtain ⟨entries, hentries, rfl⟩ := Except.map_eq_ok.mp h
        have hkeys : (Dict.keys (Dict.update [] entries)).Nodup :=
          Dict.nodup_keys_update (d := []) List.nodup_nil entries
        rw [all, frozen_update (freezeMembers_frozen hentries), Bool.and_true]
        exact decide_eq_true hkeys
  | .list vs, w, h | .tuple vs, w, h => by
      rw [freezeJson] at h
      obtain ⟨ws, hws, rfl⟩ := Except.map_eq_ok.mp h
      rw [all, freezeItems_frozen hws]
      rfl
  | .other _, w, h => by cases h

theorem freezeItems_frozen :
    ∀ {vs : List (Raw F)} {ws : List (JsonValue F)}, freezeItems fl vs = .ok ws →
      allItems (frozen fl) ws = true
  | [], ws, h => by cases h; rfl
  | v :: vs, ws, h => by
      rw [freezeItems] at h
      obtain ⟨w, hw, h⟩ := Except.bind_eq_ok.mp h
      obtain ⟨ws, hws, h⟩ := Except.bind_eq_ok.mp h
      cases h
      rw [allItems, freezeJson_frozen hw, freezeItems_frozen hws]
      rfl

theorem freezeMembers_frozen :
    ∀ {ms : List (Raw F × Raw F)} {ns : List (Text × JsonValue F)}, freezeMembers fl ms = .ok ns →
      allMembers (frozen fl) ns = true
  | [], ns, h => by cases h; rfl
  | (k, v) :: ms, ns, h => by
      rw [freezeMembers] at h
      obtain ⟨w, hw, h⟩ := Except.bind_eq_ok.mp h
      obtain ⟨ws, hws, h⟩ := Except.bind_eq_ok.mp h
      cases h
      rw [allMembers, freezeJson_frozen hw, freezeMembers_frozen hws]
      rfl

end

theorem freezeMapping_frozen {ms : List (Raw F × Raw F)} {ns : Dict Text (JsonValue F)}
    (h : freezeMapping fl ms = .ok ns) : all (frozen fl) (.obj ns) = true := by
  have hobj : freezeJson fl (.dict ms) = .ok (.obj ns) := by
    rw [freezeJson_dict, h]
    rfl
  exact freezeJson_frozen hobj

theorem ofMembers_keys (ms : List (Text × JsonValue F)) :
    (Raw.ofMembers ms).any (fun m => !m.1.isStr) = false := by
  induction ms with
  | nil => rfl
  | cons m ms ih => rw [Raw.ofMembers, List.any_cons, ih]; rfl

mutual

/-- A frozen value that was read again is frozen to itself. -/
theorem freezeJson_of :
    ∀ {v : JsonValue F}, all (frozen fl) v = true → freezeJson fl (.of v) = .ok v
  | .null, _ | .bool _, _ | .int _, _ | .str _, _ => rfl
  | .float x, h => by
      rw [Raw.of, freezeJson]
      exact if_pos h
  | .arr vs, h => by
      rw [all, Bool.and_eq_true] at h
      rw [Raw.of, freezeJson, freezeItems_of h.2]
      rfl
  | .obj ms, h => by
      rw [all, Bool.and_eq_true] at h
      have hkeys : ((Dict.keys ([] : Dict Text (JsonValue F))) ++ ms.map Prod.fst).Nodup :=
        of_decide_eq_true h.1
      rw [Raw.of, freezeJson, ofMembers_keys, freezeMembers_of h.2]
      simp [Except.map, Dict.update_concat hkeys]

theorem freezeItems_of :
    ∀ {vs : List (JsonValue F)}, allItems (frozen fl) vs = true →
      freezeItems fl (Raw.ofItems vs) = .ok vs
  | [], _ => rfl
  | v :: vs, h => by
      rw [allItems, Bool.and_eq_true] at h
      rw [Raw.ofItems, freezeItems, freezeJson_of h.1, freezeItems_of h.2]
      rfl

theorem freezeMembers_of :
    ∀ {ms : List (Text × JsonValue F)}, allMembers (frozen fl) ms = true →
      freezeMembers fl (Raw.ofMembers ms) = .ok ms
  | [], _ => rfl
  | (k, v) :: ms, h => by
      rw [allMembers, Bool.and_eq_true] at h
      rw [Raw.ofMembers, freezeMembers, freezeJson_of h.1, freezeMembers_of h.2]
      rfl

end

theorem freezeMapping_of {ms : Dict Text (JsonValue F)} (h : all (frozen fl) (.obj ms) = true) :
    freezeMapping fl (Raw.ofMembers ms) = .ok ms := by
  have hobj : freezeJson fl (.dict (Raw.ofMembers ms)) = .ok (.obj ms) := freezeJson_of h
  rw [freezeJson_dict] at hobj
  obtain ⟨ns, hns, heq⟩ := Except.map_eq_ok.mp hobj
  cases heq
  exact hns

/-! ## Bodies -/

variable (fl)

structure ContentPart where
  kind : Text
  value : JsonValue F
  kind_ok : kind ≠ [] ∧ kind ≠ text "tool_call"
  value_ok : all (frozen fl) value = true

structure ToolCall where
  bindingId : Text
  arguments : Dict Text (JsonValue F)
  binding_ok : bindingId ≠ []
  arguments_ok : all (frozen fl) (.obj arguments) = true

structure CallRef where
  messageId : Text
  partIndex : Nat
  message_ok : messageId ≠ []
deriving DecidableEq

inductive Part where
  | content (part : ContentPart fl)
  | call (call : ToolCall fl)

variable {fl} in
def Part.isCall : Part fl → Bool
  | .content _ => false
  | .call _ => true

variable {fl} in
/-- `isinstance(part, ContentPart)` for every part. -/
def contents : List (Part fl) → Option (List (ContentPart fl))
  | [] => some []
  | .content p :: parts => (contents parts).map (p :: ·)
  | .call _ :: _ => none

structure Input where
  parts : List (ContentPart fl)

structure Output where
  parts : List (Part fl)
  finish : Finish
  finish_ok : finish ≠ .continue → parts.any Part.isCall = false

/-- `legacyUnknown` is set by the decoder only, which then has the outcome `error`. -/
structure ToolResult where
  callRef : CallRef
  outcome : Outcome
  parts : List (ContentPart fl)
  legacyUnknown : Bool := false
  legacy_ok : legacyUnknown = true → outcome = .error

structure Control where
  action : Action
  throughSeq : Nat
  reason : Option Text
deriving DecidableEq

inductive Body where
  | input (body : Input fl)
  | output (body : Output fl)
  | toolResult (body : ToolResult fl)
  | control (body : Control)

/-! ## Constructors -/

variable {fl}

/-- A name out of a few.  What cannot be hashed cannot be looked for in a set either. -/
def oneOf {α : Type} (names : List (String × α)) (message : String) : Raw F → Except Error α
  | .str s =>
      match names.find? fun n => text n.1 = s with
      | some n => .ok n.2
      | none => .error ⟨.valueError, message⟩
  | .list _ => .error ⟨.typeError, "unhashable type: 'list'"⟩
  | .dict _ => .error ⟨.typeError, "unhashable type: 'dict'"⟩
  | _ => .error ⟨.valueError, message⟩

/-- `isinstance(value, str)` and not empty. -/
def nonempty : Raw F → Option {s : Text // s ≠ []}
  | .str s => if h : s ≠ [] then some ⟨s, h⟩ else none
  | _ => none

/-- `type(value) is int` and not negative. -/
def natural : Raw F → Option Nat
  | .int n => if 0 ≤ n then some n.toNat else none
  | _ => none

def ContentPart.make (kind value : Raw F) : Except Error (ContentPart fl) :=
  match nonempty kind with
  | none => .error ⟨.valueError, "内容类型不能为空"⟩
  | some k =>
      if hcall : k.1 ≠ text "tool_call" then
        match hv : freezeJson fl value with
        | .error e => .error e
        | .ok v => .ok ⟨k.1, v, ⟨k.2, hcall⟩, freezeJson_frozen hv⟩
      else .error ⟨.valueError, "内容类型不能为空"⟩

def ToolCall.make (bindingId arguments : Raw F) : Except Error (ToolCall fl) :=
  match nonempty bindingId with
  | none => .error ⟨.valueError, "工具调用必须固定 binding_id"⟩
  | some b =>
      match arguments with
      | .dict ms =>
          match hv : freezeMapping fl ms with
          | .error e => .error e
          | .ok ns => .ok ⟨b.1, ns, b.2, freezeMapping_frozen hv⟩
      | _ => .error ⟨.typeError, "工具参数必须是 JSON 对象"⟩

def CallRef.make (messageId partIndex : Raw F) : Except Error CallRef :=
  match nonempty messageId, natural partIndex with
  | some m, some n => .ok ⟨m.1, n, m.2⟩
  | _, _ => .error ⟨.valueError, "调用引用需要 message_id 和非负 part_index"⟩

def Input.make (parts : List (Part fl)) : Except Error (Input fl) :=
  match contents parts with
  | none => .error ⟨.typeError, "Input 只能包含内容块"⟩
  | some parts => .ok ⟨parts⟩

def finishes : List (String × Finish) :=
  [Finish.continue, .complete, .quiet].map fun f => (f.text, f)

def outcomes : List (String × Outcome) :=
  [Outcome.success, .denied, .error, .interrupted].map fun o => (o.text, o)

def actions : List (String × Action) :=
  [Action.pause, .resume, .abandon, .failure].map fun a => (a.text, a)

def Output.make (parts : List (Part fl)) (finish : Raw F) : Except Error (Output fl) := do
  let finish ← oneOf finishes "Output finish 无效" finish
  if h : finish ≠ .continue → parts.any Part.isCall = false then
    .ok ⟨parts, finish, h⟩
  else .error ⟨.valueError, "含工具调用的 Output 必须是 continue"⟩

def ToolResult.make (callRef : CallRef) (outcome : Raw F) (parts : List (Part fl)) :
    Except Error (ToolResult fl) :=
  match contents parts with
  | none => .error ⟨.typeError, "ToolResult 只能包含内容块"⟩
  | some parts => do
      let outcome ← oneOf outcomes "ToolResult outcome 无效" outcome
      return { callRef, outcome, parts, legacy_ok := fun h => by cases h }

/-- `reason is None or isinstance(reason, str)`. -/
def optionalText : Raw F → Except Error (Option Text)
  | .none => .ok none
  | .str s => .ok (some s)
  | _ => .error ⟨.typeError, "Control reason 必须是文本"⟩

def Control.make (action throughSeq reason : Raw F) : Except Error Control := do
  let action ← oneOf actions "Control action 无效" action
  match natural throughSeq with
  | none => .error ⟨.valueError, "Control through_seq 必须非负"⟩
  | some throughSeq => (optionalText reason).map fun reason => ⟨action, throughSeq, reason⟩

end MonoAgent.Codec
