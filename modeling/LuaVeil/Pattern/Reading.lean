/-
# Reading patterns

`Pattern.read?` reads the usual notation of regular expressions: alternatives,
groups, classes in brackets, repetitions, escapes and assertions, with the flags
`i`, `m` and `s` for small and capital letters alike, anchors at lines, and a dot
for line feeds too. It gives `none` for a text that is no pattern.
-/
import LuaVeil.Number.Digits
import LuaVeil.Pattern.Basic
import LuaVeil.Text.Blank

namespace LuaVeil.Pattern

/-- How the characters of a pattern are understood. -/
structure Flags where
  anyCase : Bool
  manyLines : Bool
  dotAll : Bool

/-- The flags in force where a pattern begins. -/
def Flags.initial : Flags :=
  ⟨false, false, false⟩

/-! ## Characters -/

/-- The characters that differ from `c` only in case. Two letters have a third form. -/
def caseForms (c : Char) : List Char :=
  let forms := [c, c.toLower, c.toUpper]
  if forms.contains 'k' then '\u212A' :: forms
  else if forms.contains 's' then '\u017F' :: forms
  else if c = '\u212A' then ['k', 'K', c]
  else if c = '\u017F' then ['s', 'S', c]
  else forms

/-- The characters that a class accepts under some flags. -/
def underFlags (flags : Flags) (accepts : Char → Bool) (c : Char) : Bool :=
  if flags.anyCase then (caseForms c).any accepts else accepts c

/-- The class that a letter after a backslash names. -/
def namedClass? : Char → Option (Char → Bool)
  | 's' => some Text.isBlank
  | 'S' => some fun c => !Text.isBlank c
  | 'd' => some Char.isDigit
  | 'D' => some fun c => !c.isDigit
  | 'w' => some Text.isWordChar
  | 'W' => some fun c => !Text.isWordChar c
  | _ => none

/-- The control character that a letter after a backslash names. -/
def namedControl? : Char → Option Char
  | 'n' => some '\n'
  | 't' => some '\t'
  | 'r' => some '\r'
  | 'f' => some '\x0c'
  | 'v' => some '\x0b'
  | 'a' => some '\x07'
  | _ => none

/-- The character that an escape in hexadecimal stands for, after its letter; `width` digits or braces. -/
def readHex (width : Nat) : Reader Char
  | '{' :: t =>
    match t.dropWhile (· != '}') with
    | _ :: rest => (Number.hexChar? (t.takeWhile (· != '}'))).map fun c => (c, rest)
    | [] => none
  | t =>
    if t.length < width then none
    else (Number.hexChar? (t.take width)).map fun c => (c, t.drop width)

/-- Whether a backslash before a character stands for the character. -/
def isEscapable (c : Char) : Bool :=
  c.toNat < 0x80 && 0x20 ≤ c.toNat && c.toNat != 0x7F && !c.isAlphanum && c != '<' && c != '>'

/-- The character that an escape stands for, after its backslash. -/
def readEscapedChar : Reader Char
  | [] => none
  | 'x' :: t => readHex 2 t
  | 'u' :: t => readHex 4 t
  | 'U' :: t => readHex 8 t
  | c :: t =>
    match namedControl? c with
    | some control => some (control, t)
    | none => if isEscapable c then some (c, t) else none

/-! ## Classes -/

/-- An item of a class: a character, which can begin a range, or a class. -/
inductive ClassItem where
  | char (c : Char)
  | set (accepts : Char → Bool)

/-- The item of a class that begins with `c`. -/
def readClassItem (c : Char) : Reader ClassItem := fun t =>
  if c = '\\' then
    match t with
    | d :: rest =>
      match namedClass? d with
      | some accepts => some (.set accepts, rest)
      | none => (readEscapedChar t).map fun (e, rest) => (.char e, rest)
    | [] => none
  else some (.char c, t)

/--
The rest of a class up to its closing bracket, as the test for its characters. A bracket at the
start of a class stands for itself. Each step of `fuel` pays for an item.
-/
def readClassItems (start : Bool) : Nat → Reader (Char → Bool)
  | 0, _ => none
  | _, [] => none
  | fuel + 1, c :: t =>
    if c = ']' ∧ !start then some (fun _ => false, t)
    else if c = '[' then none
    else do
      let (item, rest) ← readClassItem c t
      let (accepts, rest) ←
        match item, rest with
        | .set accepts, rest => some (accepts, rest)
        | .char low, '-' :: d :: rest =>
          if d = ']' then some ((· == low), '-' :: d :: rest)
          else do
            let (item, rest) ← readClassItem d rest
            match item with
            | .set _ => none
            | .char high =>
              if high < low then none
              else some ((fun c => decide (low ≤ c) && decide (c ≤ high)), rest)
        | .char c, rest => some ((· == c), rest)
      let (others, rest) ← readClassItems false fuel rest
      return (fun c => accepts c || others c, rest)

/-- The rest of a class after its opening bracket. -/
def readClass (flags : Flags) : Reader Pattern := fun t =>
  let (negated, t) :=
    match t with
    | '^' :: t => (true, t)
    | t => (false, t)
  (readClassItems true (t.length + 1) t).map fun (accepts, rest) =>
    (.one fun c => underFlags flags accepts c != negated, rest)

/-! ## Repetitions -/

/-- A number at the start of a text. -/
def readNumber : Reader Nat := fun t =>
  let run := t.takeWhile Char.isDigit
  if run.isEmpty then none
  else (Number.readDigits 10 run).map fun n => (n, t.dropWhile Char.isDigit)

/-- The bounds of a repetition after its opening brace. -/
def readBounds : Reader (Nat × Option Nat) := fun t => do
  let (least, rest) ← readNumber t
  match rest with
  | '}' :: rest => some ((least, some 0), rest)
  | ',' :: '}' :: rest => some ((least, none), rest)
  | ',' :: rest =>
    let (most, rest) ← readNumber rest
    match rest with
    | '}' :: rest => if most < least then none else some ((least, some (most - least)), rest)
    | _ => none
  | _ => none

/-- A text without the mark that makes a repetition prefer fewer times, which matters for no answer. -/
def skipLazy : Text → Text
  | '?' :: t => t
  | t => t

/-- The repetitions after a part. Each step of `fuel` pays for one of them. -/
def readRepetitions : Nat → Pattern → Reader Pattern
  | 0, _, _ => none
  | fuel + 1, p, t =>
    match t with
    | '*' :: t => readRepetitions fuel (.repeated p 0 none) (skipLazy t)
    | '+' :: t => readRepetitions fuel (.repeated p 1 none) (skipLazy t)
    | '?' :: t => readRepetitions fuel (.repeated p 0 (some 1)) (skipLazy t)
    | '{' :: t => do
      let ((least, extra), rest) ← readBounds t
      readRepetitions fuel (.repeated p least extra) (skipLazy rest)
    | t => some (p, t)

/-! ## Groups -/

/-- The flags that some letters set, or clear after a minus sign, up to a colon or parenthesis. -/
def readFlags (set : Bool) (flags : Flags) : Text → Option (Flags × Text)
  | 'i' :: t => readFlags set { flags with anyCase := set } t
  | 'm' :: t => readFlags set { flags with manyLines := set } t
  | 's' :: t => readFlags set { flags with dotAll := set } t
  | '-' :: t => if set then readFlags false flags t else none
  | t => some (flags, t)

/-- What follows the name of a group. -/
def skipGroupName (t : Text) : Option Text :=
  let name := t.takeWhile fun c => c.isAlphanum || c == '_'
  match t.drop name.length with
  | '>' :: rest => if name.isEmpty || name.head?.any Char.isDigit then none else some rest
  | _ => none

/-- What an opening parenthesis begins. -/
inductive GroupStart where
  /-- a group with its own flags -/
  | group (flags : Flags)
  /-- a change of flags up to the end of the group around it -/
  | change (flags : Flags)

/-- What begins after an opening parenthesis. -/
def readGroupStart (flags : Flags) : Reader GroupStart
  | '?' :: 'P' :: '<' :: t => (skipGroupName t).map fun rest => (.group flags, rest)
  | '?' :: '<' :: t => (skipGroupName t).map fun rest => (.group flags, rest)
  | '?' :: t =>
    match readFlags true flags t with
    | some (flags, ':' :: rest) => some (.group flags, rest)
    | some (flags, ')' :: rest) => if t.head? = some ')' then none else some (.change flags, rest)
    | _ => none
  | t => some (.group flags, t)

/-- What an escape outside a class stands for, after its backslash. -/
def readEscape (flags : Flags) : Reader Pattern
  | 'b' :: t => some (.wordBoundary false, t)
  | 'B' :: t => some (.wordBoundary true, t)
  | 'A' :: t => some (.textStart, t)
  | 'z' :: t => some (.textEnd, t)
  | [] => none
  | c :: t =>
    match namedClass? c with
    | some accepts => some (.one accepts, t)
    | none => (readEscapedChar (c :: t)).map fun (e, rest) => (.one (underFlags flags (· == e)), rest)

mutual

/-- Alternatives up to a closing parenthesis or the end. Each step of `fuel` pays for a part. -/
def readAlternatives : Nat → Flags → Reader Pattern
  | 0, _, _ => none
  | fuel + 1, flags, t =>
    match readSequence fuel flags t with
    | none => none
    | some ((p, flags), '|' :: rest) =>
      (readAlternatives fuel flags rest).map fun (q, rest) => (.either p q, rest)
    | some ((p, _), rest) => some (p, rest)

/-- Parts one after another, and the flags after them. -/
def readSequence : Nat → Flags → Reader (Pattern × Flags)
  | 0, _, _ => none
  | fuel + 1, flags, t =>
    match t with
    | [] => some ((.empty, flags), [])
    | '|' :: t => some ((.empty, flags), '|' :: t)
    | ')' :: t => some ((.empty, flags), ')' :: t)
    | '(' :: t =>
      match readGroupStart flags t with
      | none => none
      | some (.change flags, rest) =>
        if rest.head?.any fun c => c == '*' || c == '+' || c == '?' || c == '{' then none
        else readSequence fuel flags rest
      | some (.group inner, rest) =>
        match readAlternatives fuel inner rest with
        | some (p, ')' :: rest) => readRest fuel flags p rest
        | _ => none
    | '[' :: t =>
      match readClass flags t with
      | some (p, rest) => readRest fuel flags p rest
      | none => none
    | '\\' :: t =>
      match readEscape flags t with
      | some (p, rest) => readRest fuel flags p rest
      | none => none
    | '.' :: t => readRest fuel flags (.one fun c => flags.dotAll || c != '\n') t
    | '^' :: t => readRest fuel flags (if flags.manyLines then .lineStart else .textStart) t
    | '$' :: t => readRest fuel flags (if flags.manyLines then .lineEnd else .textEnd) t
    | c :: t =>
      if c = '*' ∨ c = '+' ∨ c = '?' ∨ c = '{' then none
      else readRest fuel flags (.one (underFlags flags (· == c))) t

/-- The repetitions of a part, and the parts after it. -/
def readRest : Nat → Flags → Pattern → Reader (Pattern × Flags)
  | 0, _, _, _ => none
  | fuel + 1, flags, p, t =>
    match readRepetitions (t.length + 1) p t with
    | none => none
    | some (p, rest) =>
      (readSequence fuel flags rest).map fun ((q, flags), rest) => ((.sequence p q, flags), rest)

end

/-- The pattern that a text stands for. -/
def read? (t : Text) : Option Pattern :=
  match readAlternatives (4 * t.length + 4) .initial t with
  | some (p, []) => some p
  | _ => none

end LuaVeil.Pattern
