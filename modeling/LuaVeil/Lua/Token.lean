/-
# Tokens of Lua code

A token is a word, a number, a symbol, a run of separators or a line feed.
`lexeme` finds the first token of a text and `tokenize` all of them, with the
byte offset of each. Strings and comments are not tokens: a script is cut into
spans before its code is tokenized.

Main statement: `flatMap_text_tokenize`, the texts of the tokens put together
are the tokenized text.
-/
import LuaVeil.Text.Blank

namespace LuaVeil

/-! ## Words -/

/-- The words that Lua 5.1, later versions and Luau keep for themselves. -/
def keywords : List Text :=
  ["and", "break", "do", "else", "elseif", "end", "false", "for", "function", "goto", "if",
   "in", "local", "nil", "not", "or", "repeat", "return", "then", "true", "until", "while",
   "continue"].map String.toList

/-- Whether a word is a keyword of the language. -/
def isKeyword (word : Text) : Bool :=
  keywords.contains word

/-- A character that can begin a word: an ASCII letter or an underscore. -/
def isWordStart (c : Char) : Bool :=
  c.isAlpha || c == '_'

/-- A character that can stand in a word: an ASCII letter or digit or an underscore. -/
def isWordChar (c : Char) : Bool :=
  c.isAlphanum || c == '_'

/-! ## Kinds of tokens -/

/-- The kinds of tokens. -/
inductive TokenKind where
  /-- a keyword or a name -/
  | word
  | number
  | symbol
  /-- separators on one line -/
  | blank
  | newline
  deriving DecidableEq

/-- A token, with the byte offset of its first character. -/
structure Token where
  kind : TokenKind
  text : Text
  offset : Nat
  deriving DecidableEq

namespace Token

/-- Whether a token only separates others. -/
def isTrivia (t : Token) : Bool :=
  t.kind == .blank || t.kind == .newline

/-- Whether a token is the word `w`. -/
def isWord (t : Token) (w : Text) : Bool :=
  t.kind == .word && t.text == w

/-- Whether a token is the symbol `s`. -/
def isSymbol (t : Token) (s : Text) : Bool :=
  t.kind == .symbol && t.text == s

end Token

/-! ## The first token of a text -/

/-- The first token of a text without its first character, and what follows the token. -/
structure Lexeme where
  kind : TokenKind
  tail : Text
  rest : Text

/-- The symbols of more than one character; of two that fit, the earlier is taken. -/
def longSymbols : List Text :=
  ["...", "..=", "..", "==", "~=", "<=", ">=", "::", "//", "+=", "-=", "*=", "/=", "%=", "^=",
   "->"].map String.toList

/-- A character that a numeral can hold: digits and letters of any kind, underscore and point. -/
def isNumeralChar (c : Char) : Bool :=
  c.isAlphanum || c == '_' || c == '.'

/-- The letters after which a numeral may go on with a sign. -/
def isExponentMark (hex : Bool) (c : Char) : Bool :=
  if hex then c == 'p' || c == 'P' else c == 'e' || c == 'E'

/--
The rest of a numeral whose first character is already read, and what follows it. A point
directly before another point is no part of a numeral, since two points join strings.
-/
def numeralTail (hex : Bool) : Text → Text × Text
  | [] => ([], [])
  | [c] => if isNumeralChar c then ([c], []) else ([], [c])
  | c :: d :: t =>
    if isExponentMark hex c && (d == '+' || d == '-') then
      let (more, rest) := numeralTail hex t
      (c :: d :: more, rest)
    else if isNumeralChar c && !(c == '.' && d == '.') then
      let (more, rest) := numeralTail hex (d :: t)
      (c :: more, rest)
    else ([], c :: d :: t)

theorem numeralTail_append (hex : Bool) (t : Text) :
    (numeralTail hex t).1 ++ (numeralTail hex t).2 = t := by
  fun_induction numeralTail hex t <;> simp_all

/-- Whether a numeral that begins with `c` and goes on with `t` is hexadecimal. -/
def isHexStart (c : Char) (t : Text) : Bool :=
  c == '0' && t.head?.any fun d => d == 'x' || d == 'X'

/-- Whether a numeral begins with `c`, which `t` follows. -/
def isNumeralStart (c : Char) (t : Text) : Bool :=
  c.isDigit || (c == '.' && t.head?.any Char.isDigit)

/-- The symbol that begins with `c`, without `c`, in a text that goes on with `t`. -/
def symbolTail (c : Char) (t : Text) : Text :=
  match longSymbols.find? (·.isPrefixOf (c :: t)) with
  | some symbol => symbol.drop 1
  | none => []

theorem prefix_symbolTail (c : Char) (t : Text) : symbolTail c t <+: t := by
  unfold symbolTail
  split
  · next symbol h =>
    have hp := List.find?_some h
    obtain ⟨rest, hrest⟩ := List.isPrefixOf_iff_prefix.1 hp
    cases symbol with
    | nil => exact List.nil_prefix
    | cons d symbol =>
      simp only [List.cons_append, List.cons.injEq] at hrest
      exact ⟨rest, hrest.2⟩
  · exact List.nil_prefix

/-- The first token of the text `c :: t`. -/
def lexeme (c : Char) (t : Text) : Lexeme :=
  if c == '\n' then ⟨.newline, [], t⟩
  else if Text.isSeparator c then
    ⟨.blank, t.takeWhile Text.isSeparator, t.dropWhile Text.isSeparator⟩
  else if isWordStart c then ⟨.word, t.takeWhile isWordChar, t.dropWhile isWordChar⟩
  else if isNumeralStart c t then
    let (tail, rest) := numeralTail (isHexStart c t) t
    ⟨.number, tail, rest⟩
  else ⟨.symbol, symbolTail c t, t.drop (symbolTail c t).length⟩

/-- A token and what follows it make up the text. -/
theorem lexeme_append (c : Char) (t : Text) : (lexeme c t).tail ++ (lexeme c t).rest = t := by
  unfold lexeme
  split
  · rfl
  split
  · exact List.takeWhile_append_dropWhile
  split
  · exact List.takeWhile_append_dropWhile
  split
  · exact numeralTail_append _ t
  · exact List.prefix_iff_eq_append.1 (prefix_symbolTail c t)

theorem length_rest_lexeme (c : Char) (t : Text) : (lexeme c t).rest.length ≤ t.length := by
  have h := congrArg List.length (lexeme_append c t)
  simp only [List.length_append] at h
  omega

/-! ## All tokens of a text -/

/-- The tokens of a text that begins at byte `offset`. -/
def tokenizeFrom (offset : Nat) : Text → List Token
  | [] => []
  | c :: t =>
    let first := lexeme c t
    let text := c :: first.tail
    ⟨first.kind, text, offset⟩ :: tokenizeFrom (offset + Text.byteSize text) first.rest
termination_by t => t.length
decreasing_by
  have := length_rest_lexeme c t
  simp only [List.length_cons]
  omega

/-- The tokens of a text. -/
def tokenize (code : Text) : List Token :=
  tokenizeFrom 0 code

theorem flatMap_text_tokenizeFrom (offset : Nat) (code : Text) :
    (tokenizeFrom offset code).flatMap Token.text = code := by
  fun_induction tokenizeFrom offset code with
  | case1 => rfl
  | case2 offset c t first text ih =>
    simp only [List.flatMap_cons, ih, text, List.cons_append, lexeme_append, first]

/-- The tokens of a text, put together, are the text. -/
theorem flatMap_text_tokenize (code : Text) : (tokenize code).flatMap Token.text = code :=
  flatMap_text_tokenizeFrom 0 code

/-- The tokens of a text that are not trivia. -/
def significantTokens (code : Text) : List Token :=
  (tokenize code).filter fun t => !t.isTrivia

end LuaVeil
