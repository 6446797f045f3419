/-
# Logical lines

A logical line ends at a line feed in plain code, so that a string or comment of
several lines stays on the line where it begins. `splitRows` cuts a sequence of
spans into lines, `analyze` notes what the tokens of each tell about statements,
and `joinLines` puts lines together again.

Two questions are asked about a line. `isWrappable`: does it hold complete
statements of its own, so that it can stand in a block? `isBoundaryAfter`: may a
new statement follow it?
-/
import LuaVeil.Lua.Span
import LuaVeil.Lua.Token

namespace LuaVeil

/-! ## Marks: what a line is judged by -/

/-- A token of code, or a string, as far as statements are concerned. -/
inductive Mark where
  | word (text : Text)
  | symbol (text : Text)
  | number
  /-- a string of any form -/
  | string
  deriving DecidableEq

/-- The mark of a token; trivia has none. -/
def Token.mark? (t : Token) : Option Mark :=
  match t.kind with
  | .word => some (.word t.text)
  | .symbol => some (.symbol t.text)
  | .number => some .number
  | .blank | .newline => none

/-- The marks of a span. -/
def Span.marks (s : Span) : List Mark :=
  match s.kind with
  | .code => (tokenize s.text).filterMap Token.mark?
  | .string => [.string]
  | .comment => []

namespace Mark

/-- Whether a mark is one of the given words. -/
def isWordOf (words : List String) : Mark → Bool
  | word w => words.any fun v => v.toList == w
  | _ => false

/-- Whether a mark is one of the given symbols. -/
def isSymbolOf (symbols : List String) : Mark → Bool
  | symbol s => symbols.any fun v => v.toList == s
  | _ => false

/-- Words that belong to the frame of a block. -/
def isBlockWord : Mark → Bool :=
  isWordOf ["if", "then", "else", "elseif", "end", "for", "while", "do", "repeat", "until",
    "function"]

/-- Words that open a block. -/
def opensBlock : Mark → Bool :=
  isWordOf ["function", "do", "if", "repeat"]

/-- Words that close a block. -/
def closesBlock : Mark → Bool :=
  isWordOf ["end", "until"]

/-- Words that leave a block; nothing may follow such a statement in its block. -/
def leavesBlock : Mark → Bool :=
  isWordOf ["return", "break", "continue"]

/-- By how much a mark changes the number of open brackets. -/
def bracketChange (m : Mark) : Int :=
  if m.isSymbolOf ["(", "[", "\x7b"] then 1
  else if m.isSymbolOf [")", "]", "\x7d"] then -1
  else 0

/-- Whether a line that begins with this mark goes on with what was before it. -/
def continuesStatement : Mark → Bool
  | m@(word _) => m.isWordOf ["and", "or", "then", "do", "in"]
  | m@(symbol _) => !m.isSymbolOf ["::", ";"]
  | number => true
  | string => true

/-- Whether a line that ends in this mark waits for more. -/
def awaitsMore : Mark → Bool
  | m@(word _) =>
    m.isWordOf ["and", "or", "not", "local", "return", "function", "if", "elseif", "while", "until",
      "for", "in", "goto"]
  | m@(symbol _) => !m.isSymbolOf [")", "]", "\x7d", ";", "..."]
  | number => false
  | string => false

end Mark

/-! ## What is known about a line -/

/-- Brackets and blocks that are open at the end of a line. -/
structure Nesting where
  /-- open brackets less closed ones -/
  brackets : Int
  /-- opened blocks less closed ones -/
  blocks : Int
  /-- the number of blocks at the last statement that leaves its block, until that block ends -/
  exitAt : Option Int
  deriving DecidableEq

namespace Nesting

/-- Nothing is open. -/
def empty : Nesting :=
  ⟨0, 0, none⟩

/-- The nesting after one more mark. -/
def step (n : Nesting) (m : Mark) : Nesting :=
  let brackets := n.brackets + m.bracketChange
  if m.opensBlock then { n with brackets, blocks := n.blocks + 1 }
  else if m.closesBlock then
    let blocks := n.blocks - 1
    { brackets, blocks, exitAt := n.exitAt.filter fun depth => depth ≤ blocks }
  else if m.leavesBlock then { n with brackets, exitAt := some n.blocks }
  else { n with brackets }

/-- The nesting after some marks. -/
def run (n : Nesting) (marks : List Mark) : Nesting :=
  marks.foldl step n

end Nesting

/-- What the marks of a line tell about it. -/
structure LineFacts where
  first : Option Mark
  second : Option Mark
  last : Option Mark
  /-- open brackets before the line -/
  depthBefore : Int
  /-- open brackets after the line -/
  depthAfter : Int
  hasBlockWord : Bool
  hasLocal : Bool
  hasLabel : Bool
  /-- a statement that leaves its block was met, and the block has not ended -/
  exitPending : Bool
  deriving DecidableEq

namespace LineFacts

/-- What is known about a line without marks. -/
def none : LineFacts :=
  ⟨.none, .none, .none, 0, 0, false, false, false, false⟩

/-- What the marks of a line tell, given the nesting before the line. -/
def ofMarks (before : Nesting) (marks : List Mark) : LineFacts where
  first := marks.head?
  second := marks[1]?
  last := marks.getLast?
  depthBefore := before.brackets
  depthAfter := (before.run marks).brackets
  hasBlockWord := marks.any Mark.isBlockWord
  hasLocal := marks.any (Mark.isWordOf ["local"])
  hasLabel := marks.any (Mark.isSymbolOf ["::"])
  exitPending := (before.run marks).exitAt.isSome

end LineFacts

/-! ## Rows and lines -/

/-- The spans of a line, with the byte offset of the line feed that ended it. -/
structure Row where
  spans : List Span
  newlineAt : Option Nat
  deriving DecidableEq

/-- A row with what is known about it. -/
structure Line extends Row where
  facts : LineFacts
  deriving DecidableEq

/-- Put a span in front of the first row. -/
def consSpan (s : Span) : List Row → List Row
  | [] => [⟨[s], none⟩]
  | row :: rows => { row with spans := s :: row.spans } :: rows

/--
Put pieces of code that are separated by line feeds in front of the first row: each line feed ends
a row, and an empty piece leaves no span. The first piece begins at byte `start`.
-/
def consPieces (start : Nat) : List Text → List Row → List Row
  | [], rows => rows
  | [piece], rows => (codeSpans start piece).foldr consSpan rows
  | piece :: pieces, rows =>
    let stop := start + Text.byteSize piece
    ⟨codeSpans start piece, some stop⟩ :: consPieces (stop + 1) pieces rows

/-- The rows of a sequence of spans. There is always at least one. -/
def splitRows (spans : List Span) : List Row :=
  spans.foldr
    (fun s rows =>
      if s.isCode && s.text.contains '\n' then consPieces s.start (Text.splitLines s.text) rows
      else consSpan s rows)
    [⟨[], none⟩]

/-- The lines of a sequence of rows, given the nesting before the first. -/
def analyze (before : Nesting) : List Row → List Line
  | [] => []
  | row :: rows =>
    let marks := row.spans.flatMap Span.marks
    ⟨row, .ofMarks before marks⟩ :: analyze (before.run marks) rows

/-- The lines of a sequence of spans. -/
def splitLines (spans : List Span) : List Line :=
  analyze .empty (splitRows spans)

namespace Line

/-- A new line of code, placed at byte `place`. Nothing is known about it. -/
def synthetic (text : Text) (place : Nat) : Line :=
  ⟨⟨[.codeAt text place], none⟩, .none⟩

/-- Whether a line holds code or a string. -/
def hasCode (l : Line) : Bool :=
  l.facts.first.isSome

/-- The spaces and tabs at the start of a line. -/
def indent (l : Line) : Text :=
  match l.spans with
  | s :: _ => if s.isCode then s.text.takeWhile fun c => c == ' ' || c == '\t' else []
  | [] => []

/-- The byte offset at which a line begins. -/
def start (l : Line) : Nat :=
  (l.spans.head?.map Span.start).getD 0

/-- The byte offset at which a line ends. -/
def stop (l : Line) : Nat :=
  (l.spans.getLast?.map Span.stop).getD 0

/-- Whether a line goes on with the statement before it. -/
def startsContinuation (l : Line) : Bool :=
  l.facts.first.any Mark.continuesStatement

/-- Whether a line leaves its last statement unfinished. -/
def endsOpen (l : Line) : Bool :=
  l.facts.last.any Mark.awaitsMore

/-- Whether a line declares a type. -/
def isTypeDeclaration (l : Line) : Bool :=
  l.facts.first.any (Mark.isWordOf ["type", "export"]) &&
    match l.facts.second with
    | some (.word _) => true
    | _ => false

/-- The line feed between a line and the next. It takes no room after a synthetic line. -/
def lineFeed (l : Line) : Span :=
  match l.newlineAt with
  | some place => ⟨.code, ['\n'], place, place + 1⟩
  | none => .codeAt ['\n'] l.stop

/-! ## Statements on lines -/

/-- Whether a line, seen alone, holds complete simple statements and declares nothing. -/
def isSelfContained (l : Line) : Bool :=
  l.hasCode && l.facts.depthBefore == 0 && l.facts.depthAfter == 0 && !l.facts.hasBlockWord &&
    !l.facts.hasLocal && !l.facts.hasLabel && !l.isTypeDeclaration && !l.startsContinuation &&
    !l.endsOpen

end Line

/-- The lines with a line feed between neighbours. -/
def joinLines : List Line → List Span
  | [] => []
  | [l] => l.spans
  | l :: lines => l.spans ++ l.lineFeed :: joinLines lines

/-- The nearest line with code before line `i`. -/
def codeBefore (lines : List Line) (i : Nat) : Option Line :=
  (lines.take i).reverse.find? Line.hasCode

/-- The nearest line with code after line `i`. -/
def codeAfter (lines : List Line) (i : Nat) : Option Line :=
  (lines.drop (i + 1)).find? Line.hasCode

/--
Whether line `i` can stand in a block of its own: it is self-contained, it does not go on with
the code before it, and the code after it does not go on with it.
-/
def isWrappable (lines : List Line) (i : Nat) : Bool :=
  lines[i]?.any Line.isSelfContained &&
    !((codeBefore lines i).any fun l => l.endsOpen || l.facts.depthAfter != 0) &&
    !(codeAfter lines i).any Line.startsContinuation

/-- Whether a new statement may follow line `i`. -/
def isBoundaryAfter (lines : List Line) (i : Nat) : Bool :=
  (lines[i]?.any fun l =>
    l.hasCode && l.facts.depthAfter == 0 && !l.endsOpen && !l.facts.exitPending) &&
    !(codeAfter lines i).any Line.startsContinuation

end LuaVeil
