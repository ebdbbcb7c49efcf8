import Mathlib
import MonoAgent.Lib.Dict

/-!
# JSON texts

`dump` writes a value as text with sorted keys, `load` reads it back.  A text is a `Doc`, the
value with its members in the order they are written; `Doc.text` are its characters, without
white space, and `Doc.size` the bytes of those.

Keys are sorted before they become text.  Numbers come in the order of their values, and
once they are read back they are strings.
-/

namespace MonoAgent.Lib

/-- A key of a mapping.  Integers, floats and Booleans are numbers. -/
inductive Key where
  | none
  | num (value : Rat) (text : String)
  | str (s : String)
deriving DecidableEq

/-- A value that is to be written. -/
inductive PyValue where
  | null
  | bool (b : Bool)
  | int (n : Int)
  /-- A number with a fraction or an exponent. -/
  | num (text : String)
  | str (s : String)
  | list (items : List PyValue)
  | dict (items : List (Key × PyValue))
  /-- What JSON has no text for. -/
  | other

/-- A JSON text. -/
inductive Doc where
  | null
  | bool (b : Bool)
  | int (n : Int)
  /-- A number with a fraction or an exponent. -/
  | num (text : String)
  | str (s : String)
  | arr (items : List Doc)
  | obj (members : List (String × Doc))

namespace Doc

mutual

/-- Two texts are the same. -/
def same : Doc → Doc → Bool
  | .null, .null => true
  | .bool a, .bool b => decide (a = b)
  | .int a, .int b => decide (a = b)
  | .num a, .num b => decide (a = b)
  | .str a, .str b => decide (a = b)
  | .arr a, .arr b => sameList a b
  | .obj a, .obj b => sameMembers a b
  | _, _ => false

def sameList : List Doc → List Doc → Bool
  | [], [] => true
  | a :: as, b :: bs => same a b && sameList as bs
  | _, _ => false

def sameMembers : List (String × Doc) → List (String × Doc) → Bool
  | [], [] => true
  | a :: as, b :: bs => sameMember a b && sameMembers as bs
  | _, _ => false

def sameMember : String × Doc → String × Doc → Bool
  | (s, a), (t, b) => decide (s = t) && same a b

end

mutual

theorem same_iff : ∀ a b : Doc, same a b = true ↔ a = b
  | .null, b => by cases b <;> simp [same]
  | .bool _, b => by cases b <;> simp [same]
  | .int _, b => by cases b <;> simp [same]
  | .num _, b => by cases b <;> simp [same]
  | .str _, b => by cases b <;> simp [same]
  | .arr a, b => by
      cases b with
      | arr b => simp [same, sameList_iff a b]
      | _ => simp [same]
  | .obj a, b => by
      cases b with
      | obj b => simp [same, sameMembers_iff a b]
      | _ => simp [same]

theorem sameList_iff : ∀ a b : List Doc, sameList a b = true ↔ a = b
  | [], b => by cases b <;> simp [sameList]
  | a :: as, [] => by simp [sameList]
  | a :: as, b :: bs => by simp [sameList, same_iff a b, sameList_iff as bs]

theorem sameMembers_iff : ∀ a b : List (String × Doc), sameMembers a b = true ↔ a = b
  | [], b => by cases b <;> simp [sameMembers]
  | a :: as, [] => by simp [sameMembers]
  | a :: as, b :: bs => by simp [sameMembers, sameMember_iff a b, sameMembers_iff as bs]

theorem sameMember_iff : ∀ a b : String × Doc, sameMember a b = true ↔ a = b
  | (s, a), (t, b) => by simp [sameMember, same_iff a b]

end

instance : DecidableEq Doc := fun a b => decidable_of_iff _ (same_iff a b)

end Doc

/-! ## Characters and bytes -/

def hexDigit (n : Nat) : Char := (n % 16).digitChar

/-- A character inside the quotes. -/
def escape (c : Char) : String :=
  let n := c.toNat
  if n = 34 then "\\\""
  else if n = 92 then "\\\\"
  else if n = 10 then "\\n"
  else if n = 13 then "\\r"
  else if n = 9 then "\\t"
  else if n = 8 then "\\b"
  else if n = 12 then "\\f"
  else if n < 32 then "\\u00" ++ String.ofList [hexDigit (n / 16), hexDigit n]
  else String.singleton c

def quoted (s : String) : String := "\"" ++ String.join (s.toList.map escape) ++ "\""

mutual

/-- The characters of a text, with neither white space nor `\u` escapes for what is not ASCII. -/
def Doc.text : Doc → String
  | .null => "null"
  | .bool b => if b then "true" else "false"
  | .int n => toString n
  | .num text => text
  | .str s => quoted s
  | .arr items => "[" ++ ",".intercalate (textList items) ++ "]"
  | .obj members => "\x7b" ++ ",".intercalate (memberTexts members) ++ "\x7d"

def textList : List Doc → List String
  | [] => []
  | d :: rest => d.text :: textList rest

def memberTexts : List (String × Doc) → List String
  | [] => []
  | e :: rest => textMember e :: memberTexts rest

def textMember : String × Doc → String
  | (s, d) => quoted s ++ ":" ++ d.text

end

/-- The bytes of a text in UTF-8. -/
def Doc.size (d : Doc) : Nat := d.text.utf8ByteSize

/-- The bytes of a member and of the comma or bracket behind it. -/
def memberSize (e : String × Doc) : Nat := (quoted e.1).utf8ByteSize + 2 + e.2.size

theorem memberTexts_eq (members : List (String × Doc)) : memberTexts members = members.map textMember := by
  induction members with
  | nil => rfl
  | cons e rest ih => rw [memberTexts, ih, List.map_cons]

theorem utf8ByteSize_intercalate {t : String} {l : List String} :
    (",".intercalate (t :: l)).utf8ByteSize + 1 = ((t :: l).map fun u => u.utf8ByteSize + 1).sum := by
  induction l generalizing t with
  | nil => simp
  | cons u l ih =>
      have hcomma : ",".utf8ByteSize = 1 := rfl
      rw [String.intercalate_cons_cons, String.utf8ByteSize_append, String.utf8ByteSize_append, List.map_cons,
        List.sum_cons, ← ih, hcomma]
      omega

/-- The text of an object that is not empty is as long as its members. -/
theorem Doc.size_obj {members : List (String × Doc)} (h : members ≠ []) :
    (Doc.obj members).size = 1 + (members.map memberSize).sum := by
  obtain ⟨e, rest, rfl⟩ := List.exists_cons_of_ne_nil h
  have hbraces : "\x7b".utf8ByteSize = 1 ∧ "\x7d".utf8ByteSize = 1 := ⟨rfl, rfl⟩
  have hmember (e : String × Doc) : (textMember e).utf8ByteSize + 1 = memberSize e := by
    obtain ⟨s, d⟩ := e
    have hcolon : ":".utf8ByteSize = 1 := rfl
    change (quoted s ++ ":" ++ d.text).utf8ByteSize + 1 = (quoted s).utf8ByteSize + 2 + d.text.utf8ByteSize
    rw [String.utf8ByteSize_append, String.utf8ByteSize_append, hcolon]
    omega
  have hsum : ((textMember e :: memberTexts rest).map fun u => u.utf8ByteSize + 1) = (e :: rest).map memberSize := by
    rw [memberTexts_eq, ← List.map_cons, List.map_map]
    exact List.map_congr_left fun e _ => hmember e
  have hinner := utf8ByteSize_intercalate (t := textMember e) (l := memberTexts rest)
  rw [hsum] at hinner
  rw [Doc.size, Doc.text, memberTexts, String.utf8ByteSize_append, String.utf8ByteSize_append]
  omega

namespace Key

def text : Key → String
  | .none => "null"
  | .num _ text => text
  | .str s => s

def isStr : Key → Bool
  | .str _ => true
  | _ => false

def isNum : Key → Bool
  | .num _ _ => true
  | _ => false

/-- The order of keys that can be compared, and some order of the others. -/
def le : Key → Key → Bool
  | .str a, .str b => decide (a ≤ b)
  | .num a _, .num b _ => decide (a ≤ b)
  | .none, _ => true
  | .num _ _, .str _ => true
  | _, _ => false

end Key

/-- Members by their keys. -/
def memberLe (a b : Key × Doc) : Prop := a.1.le b.1 = true

instance : DecidableRel memberLe := fun a b => inferInstanceAs (Decidable (a.1.le b.1 = true))

/-- Members in the order of their keys, `none` when keys cannot be compared. -/
def sortMembers (members : List (Key × Doc)) : Option (List (String × Doc)) :=
  if members.all (·.1.isStr) ∨ members.all (·.1.isNum) ∨ members.length ≤ 1 then
    some ((members.insertionSort memberLe).map fun e => (e.1.text, e.2))
  else none

mutual

/-- `json.dumps(value, sort_keys=True)`. -/
def dump : PyValue → Option Doc
  | .null => some .null
  | .bool b => some (.bool b)
  | .int n => some (.int n)
  | .num text => some (.num text)
  | .str s => some (.str s)
  | .list items => (dumpList items).map .arr
  | .dict items => ((dumpItems items).bind sortMembers).map .obj
  | .other => none

def dumpList : List PyValue → Option (List Doc)
  | [] => some []
  | v :: rest => (dump v).bind fun d => (dumpList rest).map (d :: ·)

def dumpItems : List (Key × PyValue) → Option (List (Key × Doc))
  | [] => some []
  | e :: rest => (dumpItem e).bind fun d => (dumpItems rest).map (d :: ·)

def dumpItem : Key × PyValue → Option (Key × Doc)
  | (k, v) => (dump v).map (k, ·)

end

mutual

/-- `json.loads`: the last of the members with one key remains. -/
def load : Doc → PyValue
  | .null => .null
  | .bool b => .bool b
  | .int n => .int n
  | .num text => .num text
  | .str s => .str s
  | .arr items => .list (loadList items)
  | .obj members => .dict (Dict.update [] (loadMembers members))

def loadList : List Doc → List PyValue
  | [] => []
  | d :: rest => load d :: loadList rest

def loadMembers : List (String × Doc) → List (Key × PyValue)
  | [] => []
  | e :: rest => loadMember e :: loadMembers rest

def loadMember : String × Doc → Key × PyValue
  | (s, d) => (.str s, load d)

end

/-! ## Repeated keys -/

/-- The first key that stands behind the same key. -/
def repeatedKey : List String → List String → Option String
  | _, [] => none
  | seen, k :: rest => if k ∈ seen then some k else repeatedKey (k :: seen) rest

mutual

/-- The key that `object_pairs_hook` refuses: the objects inside come first. -/
def Doc.repeated : Doc → Option String
  | .arr items => repeatedList items
  | .obj members => (repeatedMembers members).or (repeatedKey [] (members.map Prod.fst))
  | _ => none

def repeatedList : List Doc → Option String
  | [] => none
  | d :: rest => d.repeated.or (repeatedList rest)

def repeatedMembers : List (String × Doc) → Option String
  | [] => none
  | e :: rest => (repeatedMember e).or (repeatedMembers rest)

def repeatedMember : String × Doc → Option String
  | (_, d) => d.repeated

end

/-! ## Fields -/

/-- The value at a string key. -/
def field (body : Dict Key PyValue) (name : String) : Option PyValue := body.get? (.str name)

@[simp] theorem field_nil (name : String) : field [] name = none := rfl

@[simp] theorem field_cons (body : Dict Key PyValue) (s name : String) (v : PyValue) :
    field ((.str s, v) :: body) name = if name = s then some v else field body name := by
  by_cases h : name = s
  · simp [field, Dict.get?, List.lookup, h]
  · have hne : (Key.str name == Key.str s) = false := by simp [h]
    simp [field, Dict.get?, List.lookup, hne, h]

/-! ## Objects that are read -/

theorem loadMembers_keys (members : List (String × Doc)) :
    (loadMembers members).map Prod.fst = members.map fun e => .str e.1 := by
  induction members with
  | nil => rfl
  | cons e rest ih =>
      obtain ⟨s, d⟩ := e
      simp [loadMembers, loadMember, ih]

/-- Members in the order of different keys are the entries of a dictionary. -/
theorem load_obj {members : List (String × Doc)} (h : members.Pairwise fun a b => a.1 < b.1) :
    load (.obj members) = .dict (loadMembers members) := by
  have hnodup : (members.map fun e => Key.str e.1).Nodup := by
    rw [List.nodup_iff_pairwise_ne, List.pairwise_map]
    exact h.imp fun hlt heq => absurd (Key.str.inj heq) (ne_of_lt hlt)
  rw [load, Dict.update_concat]
  · rfl
  · rw [loadMembers_keys]
    simpa [Dict.keys] using hnodup

end MonoAgent.Lib
