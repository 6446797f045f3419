/-
# Lines, keys and scalars of TOML

The parts of a TOML document that contain no other values: the ends of lines,
keys, strings, numbers, dates and times. A string is read in two steps: its raw
content up to the closing quotes, in which line breaks have become line feeds,
and then the escapes in it.
-/
import LuaVeil.Data.Value
import LuaVeil.Number.Digits

namespace LuaVeil.Data.Toml

/-! ## Lines -/

/-- The blanks within a line. -/
def isSpace (c : Char) : Bool :=
  c == ' ' || c == '\t'

/-- The characters of comments and strings: all but the control characters, of which only a tab is allowed. -/
def isPlain (c : Char) : Bool :=
  c == '\t' || 0x20 ≤ c.toNat && c.toNat != 0x7F

/-- A text without the blanks at its start. -/
def skipSpaces (t : Text) : Text :=
  t.dropWhile isSpace

/-- What follows a line break at the start of a text. -/
def afterBreak? : Text → Option Text
  | '\n' :: t => some t
  | '\r' :: '\n' :: t => some t
  | _ => none

/-- What follows a line that holds nothing more than blanks and a comment. -/
def afterLine? (t : Text) : Option Text :=
  let rest :=
    match skipSpaces t with
    | '#' :: t => t.dropWhile isPlain
    | t => t
  if rest.isEmpty then some [] else afterBreak? rest

/-- A text without the blanks, line breaks and comments at its start. -/
def skipGap : Text → Text
  | '\r' :: '\n' :: t => skipGap t
  | c :: t =>
    if isSpace c || c == '\n' then skipGap t
    else if c = '#' then skipGap (t.dropWhile isPlain)
    else c :: t
  | [] => []
termination_by t => t.length
decreasing_by
  · simp only [List.length_cons]; omega
  · simp only [List.length_cons]; omega
  · have := (List.dropWhile_suffix (l := t) isPlain).length_le
    simp only [List.length_cons]; omega

/-! ## Strings -/

/-- The raw content of a string of one line up to its closing quote. -/
def readShort (quote : Char) : Reader Text
  | [] => none
  | '\\' :: '\\' :: t => (readShort quote t).map fun (raw, rest) => ('\\' :: '\\' :: raw, rest)
  | '\\' :: '"' :: t => (readShort quote t).map fun (raw, rest) => ('\\' :: '"' :: raw, rest)
  | c :: t =>
    if c = quote then some ([], t)
    else if isPlain c then (readShort quote t).map fun (raw, rest) => (c :: raw, rest)
    else none

/--
The raw content of a string of many lines up to its three closing quotes. Up to two quotes more
belong to the content.
-/
def readLong (quote : Char) : Reader Text
  | [] => none
  | '\\' :: '\\' :: t => (readLong quote t).map fun (raw, rest) => ('\\' :: '\\' :: raw, rest)
  | '\\' :: '"' :: t => (readLong quote t).map fun (raw, rest) => ('\\' :: '"' :: raw, rest)
  | '\r' :: '\n' :: t => (readLong quote t).map fun (raw, rest) => ('\n' :: raw, rest)
  | c :: t =>
    if c = quote && [quote, quote].isPrefixOf t then
      let more := (((t.drop 2).take 2).takeWhile (· == quote)).length
      some (List.replicate more quote, t.drop (2 + more))
    else if c = '\n' || isPlain c then (readLong quote t).map fun (raw, rest) => (c :: raw, rest)
    else none

/-- The character that an escape of one letter stands for. -/
def simpleEscape? : Char → Option Char
  | 'b' => some '\x08'
  | 't' => some '\t'
  | 'n' => some '\n'
  | 'f' => some '\x0c'
  | 'r' => some '\r'
  | '"' => some '"'
  | '\\' => some '\\'
  | _ => none

/--
The text that a raw content with escapes stands for. A backslash at the end of a line removes the
blanks and line breaks after it; `skipping` says that this is going on.
-/
def unescape (skipping : Bool) : Text → Option Text
  | [] => some []
  | ['\\'] => none
  | '\\' :: 'u' :: a :: b :: c :: d :: t => do
    let e ← Number.hexChar? [a, b, c, d]
    return e :: (← unescape false t)
  | '\\' :: 'U' :: a :: b :: c :: d :: e :: f :: g :: h :: t => do
    let e ← Number.hexChar? [a, b, c, d, e, f, g, h]
    return e :: (← unescape false t)
  | '\\' :: c :: t =>
    match simpleEscape? c with
    | some e => (unescape false t).map (e :: ·)
    | none => if (skipSpaces (c :: t)).head? = some '\n' then unescape true t else none
  | c :: t =>
    if skipping && (isSpace c || c == '\n') then unescape true t
    else (unescape false t).map (c :: ·)

/-- Read a string with escapes, given how its raw content is read. -/
def readEscaped (raw : Reader Text) : Reader Text := fun t => do
  let (content, rest) ← raw t
  return (← unescape false content, rest)

/-- A string of any of the four kinds. -/
def readString : Reader Text
  | '"' :: '"' :: '"' :: t => readEscaped (readLong '"') ((afterBreak? t).getD t)
  | '\'' :: '\'' :: '\'' :: t => readLong '\'' ((afterBreak? t).getD t)
  | '"' :: t => readEscaped (readShort '"') t
  | '\'' :: t => readShort '\'' t
  | _ => none

/-! ## Keys -/

/-- The characters of keys without quotes. -/
def isBare (c : Char) : Bool :=
  c.isAlphanum || c == '_' || c == '-'

/-- One part of a key. -/
def readKeyPart : Reader Text
  | '"' :: t => readEscaped (readShort '"') t
  | '\'' :: t => readShort '\'' t
  | t =>
    let bare := t.takeWhile isBare
    if bare.isEmpty then none else some (bare, t.dropWhile isBare)

/-- The parts of a key with dots between them, at most as many as the given limit. -/
def readParts : Nat → Reader (List Text)
  | 0, _ => none
  | limit + 1, t => do
    let (part, t) ← readKeyPart (skipSpaces t)
    match skipSpaces t with
    | '.' :: t =>
      let (parts, t) ← readParts limit t
      return (part :: parts, t)
    | t => return ([part], t)

/-- The largest number of parts of a key. -/
def maxKeyParts : Nat := 79

/-- A key. -/
def readKey : Reader (List Text) :=
  readParts maxKeyParts

/-! ## Numbers -/

/-- Whether a character is a digit in a base. -/
def isDigit (base : Nat) (c : Char) : Bool :=
  (Number.digitValue? base c).isSome

/-- The digits that follow a digit; a single underscore may stand between two of them. -/
def moreDigits (base : Nat) : Text → Text × Text
  | '_' :: c :: t =>
    if isDigit base c then
      let (more, rest) := moreDigits base t
      (c :: more, rest)
    else ([], '_' :: c :: t)
  | c :: t =>
    if isDigit base c then
      let (more, rest) := moreDigits base t
      (c :: more, rest)
    else ([], c :: t)
  | [] => ([], [])

/-- At least one digit. -/
def readDigits (base : Nat) : Reader Text
  | c :: t =>
    if isDigit base c then
      let (more, rest) := moreDigits base t
      some (c :: more, rest)
    else none
  | [] => none

/-- A sign, if there is one: whether it is a minus. -/
def readSign : Text → Bool × Text
  | '-' :: t => (true, t)
  | '+' :: t => (false, t)
  | t => (false, t)

/-- The integer of some digits, if it fits in 64 bits with a sign. -/
def integer? (negative : Bool) (base : Nat) (digits : Text) : Option Value := do
  let size : Int := ((← Number.readDigits base digits) : Nat)
  let n := if negative then -size else size
  let limit : Int := Nat.pow 2 63
  if -limit ≤ n ∧ n < limit then some (.integer n) else none

/-- An integer in another base than ten, after the letter that tells the base. -/
def readBased (base : Nat) : Reader Value := fun t => do
  let (digits, t) ← readDigits base t
  return (← integer? false base digits, t)

/-- The fraction at the start of a text, if there is one. -/
def readFraction : Text → Option (Option Text × Text)
  | '.' :: t => (readDigits 10 t).map fun (digits, rest) => (some digits, rest)
  | t => some (none, t)

/-- The exponent at the start of a text, if there is one. -/
def readExponent : Text → Option (Option Int × Text)
  | c :: t =>
    if c = 'e' ∨ c = 'E' then do
      let (negative, t) := readSign t
      let (digits, t) ← readDigits 10 t
      let size : Int := ((← Number.readDigits 10 digits) : Nat)
      return (some (if negative then -size else size), t)
    else some (none, c :: t)
  | [] => some (none, [])

/--
A decimal number without its sign. No number begins with a needless zero, and no fraction is so
large that it rounds to positive infinity. One as far below zero is negative infinity.
-/
def readDecimal (negative : Bool) (t : Text) : Option (Value × Text) := do
  let (whole, t) ← readDigits 10 t
  if whole.length > 1 && whole.head? == some '0' then none
  else
    let (fraction, t) ← readFraction t
    let (exponent, t) ← readExponent t
    if fraction.isNone && exponent.isNone then return (← integer? negative 10 whole, t)
    let fraction := fraction.getD []
    let coefficient ← Number.readDigits 10 (whole ++ fraction)
    let x := Binary64.ofDecimal negative coefficient (exponent.getD 0 - (fraction.length : Int))
    if x = .infinite false then none else some (.float x, t)

/-- A number. -/
def readNumber : Reader Value
  | '0' :: 'x' :: t => readBased 16 t
  | '0' :: 'o' :: t => readBased 8 t
  | '0' :: 'b' :: t => readBased 2 t
  | t =>
    match readSign t with
    | (negative, 'i' :: 'n' :: 'f' :: t) => some (.float (.infinite negative), t)
    | (_, 'n' :: 'a' :: 'n' :: t) => some (.float .notANumber, t)
    | (negative, t) => readDecimal negative t

/-! ## Dates and times -/

/-- A number of two digits from `low` to `high`. -/
def readPair (low high : Nat) : Reader Nat
  | a :: b :: t => do
    let n ← Number.readDigits 10 [a, b]
    if low ≤ n ∧ n ≤ high then some (n, t) else none
  | _ => none

/-- What follows a character at the start of a text. -/
def after? (c : Char) : Text → Option Text
  | d :: t => if d = c then some t else none
  | [] => none

/-- The days of a month. -/
def daysInMonth (year month : Nat) : Nat :=
  if month = 2 then
    if year % 4 = 0 ∧ (year % 100 ≠ 0 ∨ year % 400 = 0) then 29 else 28
  else if month ∈ [4, 6, 9, 11] then 30
  else 31

/-- What follows a date at the start of a text. -/
def afterDate? (t : Text) : Option Text := do
  let (century, t) ← readPair 0 99 t
  let (year, t) ← readPair 0 99 t
  let (month, t) ← readPair 1 12 (← after? '-' t)
  let (_, t) ← readPair 1 (daysInMonth (100 * century + year) month) (← after? '-' t)
  return t

/-- What follows a time of day at the start of a text. -/
def afterTime? (t : Text) : Option Text := do
  let (_, t) ← readPair 0 23 t
  let (_, t) ← readPair 0 59 (← after? ':' t)
  let (_, t) ← readPair 0 60 (← after? ':' t)
  match t with
  | '.' :: t =>
    let rest := t.dropWhile Char.isDigit
    if rest.length < t.length then some rest else none
  | t => some t

/-- What follows the offset from universal time at the start of a text, if there is one. -/
def afterOffset? (t : Text) : Option Text :=
  let pair (t : Text) : Option Text := do
    let (_, t) ← readPair 0 23 t
    let (_, t) ← readPair 0 59 (← after? ':' t)
    return t
  match t with
  | 'Z' :: t => some t
  | 'z' :: t => some t
  | '+' :: t => pair t
  | '-' :: t => pair t
  | t => some t

/-- What follows a date, a time, or a date and a time. -/
def afterMoment? (t : Text) : Option Text :=
  match afterDate? t with
  | none => afterTime? t
  | some rest =>
    match rest with
    | c :: t =>
      if c ∈ ['T', 't', ' '] then
        match afterTime? t with
        | some rest => afterOffset? rest
        | none => some rest
      else some rest
    | [] => some []

/-- A date, a time or both. -/
def readMoment : Reader Value := fun t =>
  (afterMoment? t).map fun rest => (.moment (t.take (t.length - rest.length)), rest)

end LuaVeil.Data.Toml
