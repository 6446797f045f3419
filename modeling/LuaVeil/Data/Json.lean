/-
# JSON

`Json.read` reads a text that holds one value and blanks, and `Json.write`
writes a value on one line. Whole numbers between `-2 ^ 63` and `2 ^ 64` are
integers and all other numbers are rounded to binary64; minus zero is such a
number, since an integer has no sign of zero.
-/
import LuaVeil.Data.Value
import LuaVeil.Number.Shortest

namespace LuaVeil.Data.Json

/-! ## Strings -/

/-- The code point of a surrogate pair. -/
def pairValue (high low : Nat) : Nat :=
  0x10000 + (high - 0xD800) * 0x400 + (low - 0xDC00)

/-- A text from code units in which a character above U+FFFF may be a surrogate pair. -/
def joinSurrogates : List Nat → Option Text
  | [] => some []
  | [u] => if 0xD800 ≤ u ∧ u ≤ 0xDFFF then none else some [Char.ofNat u]
  | u :: v :: units =>
    if 0xD800 ≤ u ∧ u ≤ 0xDBFF ∧ 0xDC00 ≤ v ∧ v ≤ 0xDFFF then
      (joinSurrogates units).map (Char.ofNat (pairValue u v) :: ·)
    else if 0xD800 ≤ u ∧ u ≤ 0xDFFF then none
    else (joinSurrogates (v :: units)).map (Char.ofNat u :: ·)

/-- The character that a one-letter escape stands for. -/
def simpleEscape? : Char → Option Char
  | '"' => some '"'
  | '\\' => some '\\'
  | '/' => some '/'
  | 'b' => some '\x08'
  | 'f' => some '\x0c'
  | 'n' => some '\n'
  | 'r' => some '\r'
  | 't' => some '\t'
  | _ => none

/-- The code units of a string up to its closing quote, and what follows the quote. -/
def readUnits : Text → Option (List Nat × Text)
  | [] => none
  | '"' :: t => some ([], t)
  | '\\' :: 'u' :: a :: b :: c :: d :: t =>
    match Number.readDigits 16 [a, b, c, d] with
    | some unit => (readUnits t).map fun (units, rest) => (unit :: units, rest)
    | none => none
  | '\\' :: c :: t =>
    match simpleEscape? c with
    | some e => (readUnits t).map fun (units, rest) => (e.toNat :: units, rest)
    | none => none
  | c :: t =>
    if c.toNat < 0x20 then none
    else (readUnits t).map fun (units, rest) => (c.toNat :: units, rest)

/-! ## Numbers -/

/-- The digits at the start of a text, at least one, and what follows them. -/
def readDigitRun (t : Text) : Option (Text × Text) :=
  let run := t.takeWhile Char.isDigit
  if run.isEmpty then none else some (run, t.dropWhile Char.isDigit)

/-- The fraction at the start of a text, if there is one. -/
def readFraction : Text → Option (Text × Text)
  | '.' :: t => readDigitRun t
  | t => some ([], t)

/-- The exponent at the start of a text, if there is one. -/
def readExponent : Text → Option (Option Int × Text)
  | c :: t =>
    if c = 'e' ∨ c = 'E' then
      let (negative, t) :=
        match t with
        | '-' :: t => (true, t)
        | '+' :: t => (false, t)
        | t => (false, t)
      (readDigitRun t).map fun (run, rest) =>
        let size : Int := ((Number.readDigits 10 run).getD 0 : Nat)
        (some (if negative then -size else size), rest)
    else some (none, c :: t)
  | [] => some (none, [])

/-- The value of a numeral. -/
def numberValue (negative : Bool) (whole fraction : Text) (exponent : Option Int) : Value :=
  let coefficient := (Number.readDigits 10 (whole ++ fraction)).getD 0
  let signed : Int := if negative then -(coefficient : Int) else coefficient
  let least : Int := -(Nat.pow 2 63)
  let limit : Int := Nat.pow 2 64
  let fits := least ≤ signed && signed < limit && !(negative && coefficient == 0)
  if fraction.isEmpty && exponent.isNone && fits then .integer signed
  else
    match Binary64.ofDecimal negative coefficient (exponent.getD 0 - (fraction.length : Int)) with
    | x@(.finite _ _ _) => .float x
    | _ => .hugeNumber

/-- The number at the start of a text. No numeral begins with a needless zero. -/
def readNumber (t : Text) : Option (Value × Text) := do
  let (negative, t) :=
    match t with
    | '-' :: t => (true, t)
    | t => (false, t)
  let (whole, t) ← readDigitRun t
  if whole.length > 1 && whole.head? == some '0' then none
  else
    let (fraction, t) ← readFraction t
    let (exponent, t) ← readExponent t
    return (numberValue negative whole fraction exponent, t)

/-! ## Values -/

/-- The blanks of JSON. -/
def isBlank (c : Char) : Bool :=
  c == ' ' || c == '\n' || c == '\t' || c == '\r'

/-- A text without the blanks at its start. -/
def skipBlanks (t : Text) : Text :=
  t.dropWhile isBlank

/-- What follows a word at the start of a text. -/
def afterWord? (word : String) (t : Text) : Option Text :=
  if word.toList.isPrefixOf t then some (t.drop word.length) else none

mutual

/-- The value at the start of a text. Each step of `fuel` pays for a part of a value. -/
def readValue : Nat → Text → Option (Value × Text)
  | 0, _ => none
  | fuel + 1, t =>
    match skipBlanks t with
    | '"' :: t => (readUnits t).map fun (units, rest) =>
        (((joinSurrogates units).map .text).getD .brokenText, rest)
    | '[' :: t =>
      match skipBlanks t with
      | ']' :: t => some (.list [], t)
      | t => (readItems fuel t).map fun (items, rest) => (.list items, rest)
    | '{' :: t =>
      match skipBlanks t with
      | '}' :: t => some (.record [], t)
      | t => (readFields fuel t).map fun (fields, rest) => (.record fields, rest)
    | 't' :: t => (afterWord? "rue" t).map (.bool true, ·)
    | 'f' :: t => (afterWord? "alse" t).map (.bool false, ·)
    | 'n' :: t => (afterWord? "ull" t).map (.null, ·)
    | t => readNumber t

/-- The items of a list up to its closing bracket. -/
def readItems : Nat → Text → Option (List Value × Text)
  | 0, _ => none
  | fuel + 1, t =>
    match readValue fuel t with
    | none => none
    | some (item, t) =>
      match skipBlanks t with
      | ',' :: t => (readItems fuel t).map fun (items, rest) => (item :: items, rest)
      | ']' :: t => some ([item], t)
      | _ => none

/-- The fields of a record up to its closing brace. -/
def readFields : Nat → Text → Option (List (Option Text × Value) × Text)
  | 0, _ => none
  | fuel + 1, t =>
    match skipBlanks t with
    | '"' :: t =>
      match readUnits t with
      | none => none
      | some (units, t) =>
        match skipBlanks t with
        | ':' :: t =>
          match readValue fuel t with
          | none => none
          | some (value, t) =>
            let field := (joinSurrogates units, value)
            match skipBlanks t with
            | ',' :: t => (readFields fuel t).map fun (fields, rest) => (field :: fields, rest)
            | '}' :: t => some ([field], t)
            | _ => none
        | _ => none
    | _ => none

end

/-- The value that a text holds, with nothing but blanks around it. -/
def read (t : Text) : Option Value :=
  match readValue (2 * t.length + 2) t with
  | some (value, rest) => if (skipBlanks rest).isEmpty then some value else none
  | none => none

/-! ## Writing -/

/-- A character in a written string. -/
def writeChar (c : Char) : String :=
  if c = '"' then "\\\""
  else if c = '\\' then "\\\\"
  else if c.toNat < 0x20 then
    "\\u00" ++ String.ofList (Number.hexByte (UInt8.ofNat c.toNat))
  else c.toString

/-- A text in quotes. -/
def writeText (t : Text) : String :=
  "\"" ++ t.foldl (fun written c => written ++ writeChar c) "" ++ "\""

mutual

/-- A value on one line. Numbers without a notation in JSON, and broken texts, become null. -/
def write : Value → String
  | .null => "null"
  | .bool b => if b then "true" else "false"
  | .integer n => String.ofList (Number.decimalInt n)
  | .float x => if x.isFinite then String.ofList x.positional else "null"
  | .hugeNumber => "null"
  | .text t => writeText t
  | .brokenText => "null"
  | .moment t => writeText t
  | .list items => "[" ++ writeItems items ++ "]"
  | .record fields => "\x7b" ++ writeFields fields ++ "\x7d"

/-- The items of a list with commas between them. -/
def writeItems : List Value → String
  | [] => ""
  | [v] => write v
  | v :: items => write v ++ "," ++ writeItems items

/-- The fields of a record with commas between them. -/
def writeFields : List (Option Text × Value) → String
  | [] => ""
  | [(name, v)] => writeText (name.getD []) ++ ":" ++ write v
  | (name, v) :: fields => writeText (name.getD []) ++ ":" ++ write v ++ "," ++ writeFields fields

end

end LuaVeil.Data.Json
