/-
# Stripping

The part of the work that every preset does first: comments, blank lines,
indentation and repeated blanks are removed, and so are debug statements, which
are the statements on lines of their own whose text satisfies a given predicate.
-/
import LuaVeil.Lua.Line

namespace LuaVeil

/-- How much was removed. -/
structure StripReport where
  comments : Nat
  debugLines : Nat
  deriving DecidableEq

namespace Strip

/-- A comment as a blank, since it may stand between two tokens; other spans stay. -/
def blankComment (s : Span) : Span :=
  if s.isComment then { s with kind := .code, text := [' '] } else s

/-- Put a span in front of others, joined with the first if both are code. -/
def consMerged (s : Span) : List Span → List Span
  | [] => [s]
  | next :: spans =>
    if s.isCode && next.isCode then
      { s with text := s.text ++ next.text, stop := next.stop } :: spans
    else s :: next :: spans

/-- The spans with comments made blank and neighbouring code joined. -/
def uncomment (spans : List Span) : List Span :=
  (spans.map blankComment).foldr consMerged []

/-- The blanks of which one stands for many. -/
def isSqueezable (c : Char) : Bool :=
  c == ' ' || c == '\t' || c == '\r'

/-- A text with each run of blanks replaced by one space, given whether a blank came before it. -/
def squeezeAfter (blank : Bool) : Text → Text
  | [] => []
  | c :: t =>
    if isSqueezable c then
      if blank then squeezeAfter true t else ' ' :: squeezeAfter true t
    else c :: squeezeAfter false t

/-- A text with each run of blanks replaced by one space. -/
def squeeze (t : Text) : Text :=
  squeezeAfter false t

/-- Apply a function to the text of a span if it is code. -/
def mapCode (f : Text → Text) (s : Span) : Span :=
  if s.isCode then { s with text := f s.text } else s

/-- The spans of a line without needless blanks and without empty spans. -/
def tidySpans (spans : List Span) : List Span :=
  let squeezed := spans.map (mapCode squeeze)
  let started := squeezed.modifyHead (mapCode Text.trimStart)
  let ended := started.modify (started.length - 1) (mapCode Text.trimEnd)
  ended.filter fun s => !s.text.isEmpty

/-- A line without needless blanks. -/
def tidy (l : Line) : Line :=
  { l with spans := tidySpans l.spans }

/-- Whether line `i` is a debug statement. -/
def isDebugLine (isDebug : Text → Bool) (lines : List Line) (i : Nat) : Bool :=
  isWrappable lines i && lines[i]?.any fun l => isDebug (render l.spans)

end Strip

/-- The stripped spans of a script, given which texts of lines are debug statements. -/
def strip (isDebug : Text → Bool) (spans : List Span) : List Span × StripReport :=
  let lines := splitLines (Strip.uncomment spans)
  let judged := lines.zipIdx.map fun (l, i) => (l, Strip.isDebugLine isDebug lines i)
  let kept := judged.filterMap fun (l, debug) => if debug then none else some (Strip.tidy l)
  (joinLines (kept.filter fun l => !l.spans.isEmpty),
    ⟨spans.countP Span.isComment, judged.countP Prod.snd⟩)

end LuaVeil
