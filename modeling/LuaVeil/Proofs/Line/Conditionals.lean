/-
# Conditional expressions on lines

A conditional expression `if c then v else w` has no `end`, and its branches are
values. Lines are judged as if each `if` began a statement: `then` and `else` end
no open line, and `else` and `elseif` begin a line like any statement.

`Expression` is the grammar of expressions without type annotations, in which
functions and brackets hold marks that are only asked to be balanced. Between two
pieces of an expression outside of brackets one mark waits for the other, or the
other goes on with the first, except next to a word that parts the branches of a
conditional.

Main statements:

* `Expression.isChain_pieces`, what meets in an expression, and from it
  `Expression.opensExpression_of_if`, scopes know every conditional in an expression;
* `conditional_parted_iff`, inside a conditional expression lines are parted only
  next to the words of its branches. There they can be (`branch_parted`).
-/
import LuaVeil.Proofs.Line.Statements
import LuaVeil.Proofs.Line.WaitingExit
import LuaVeil.Scope.Resolution
import Mathlib.Data.List.Chain

namespace LuaVeil

/-! ## Pieces of expressions -/

/-- Marks with balanced brackets. -/
structure Enclosed where
  marks : List Mark
  nonneg : ∀ xs ys, marks = xs ++ ys → 0 ≤ bracketDepth xs
  closed : bracketDepth marks = 0

/-- The kinds of brackets. -/
inductive Bracket where
  | round
  | square
  | curly

namespace Bracket

/-- The mark that opens a bracket. -/
def opening : Bracket → Mark
  | round => .symbol ['(']
  | square => .symbol ['[']
  | curly => .symbol ['\x7b']

/-- The mark that closes a bracket. -/
def closing : Bracket → Mark
  | round => .symbol [')']
  | square => .symbol [']']
  | curly => .symbol ['\x7d']

end Bracket

/-- A piece of an expression, which the grammar of expressions takes as a whole. -/
inductive Piece where
  | mark (m : Mark) (h : m.bracketChange = 0)
  | brackets (b : Bracket) (inside : Enclosed)
  /-- the parameters of a function, its statements and its `end` -/
  | body (parameters statements : Enclosed)

namespace Piece

/-- A word as a piece. -/
def word (w : String) : Piece :=
  mark (.word w.toList) rfl

/-- The marks of a piece. -/
def marks : Piece → List Mark
  | mark m _ => [m]
  | brackets b inside => b.opening :: inside.marks ++ [b.closing]
  | body parameters statements =>
    Bracket.round.opening :: parameters.marks ++ Bracket.round.closing :: statements.marks ++
      [.word "end".toList]

/-- The first mark of a piece. -/
def first : Piece → Mark
  | mark m _ => m
  | brackets b _ => b.opening
  | body _ _ => Bracket.round.opening

/-- The last mark of a piece. -/
def last : Piece → Mark
  | mark m _ => m
  | brackets b _ => b.closing
  | body _ _ => .word "end".toList

end Piece

namespace Mark

/-- Words after which a branch of a conditional begins. -/
def opensBranch : Mark → Bool :=
  isWordOf ["then", "else"]

/-- Words that end a branch of a conditional. -/
def closesBranch : Mark → Bool :=
  isWordOf ["elseif", "else"]

/-- Whether a mark is a value by itself. -/
def isAtom : Mark → Bool
  | m@(word _) => m.isWordOf ["nil", "true", "false"]
  | m@(symbol _) => m.isSymbolOf ["..."]
  | number => true
  | string => true

/-- Whether a mark is an operator in front of a value. -/
def isUnary (m : Mark) : Bool :=
  m.isWordOf ["not"] || m.isSymbolOf ["-", "#"]

/-- Whether a mark is an operator between two values. -/
def isBinary (m : Mark) : Bool :=
  m.isWordOf ["and", "or"] ||
    m.isSymbolOf ["+", "-", "*", "/", "//", "%", "^", "..", "==", "~=", "<=", ">=", "<", ">"]

theorem bracketChange_of_isAtom {m : Mark} (h : m.isAtom = true) : m.bracketChange = 0 := by
  cases m with
  | symbol s =>
    have hs : "...".toList = s := by simpa [isAtom, isSymbolOf] using h
    subst hs
    rfl
  | _ => rfl

/-- An operator in front of a value is no bracket, waits for more and opens an expression. -/
theorem of_isUnary {m : Mark} (h : m.isUnary = true) :
    m.bracketChange = 0 ∧ m.awaitsMore = true ∧ m.opensExpression = true :=
  Mark.isOf_cases h (by decide) (by decide)

/-- An operator between two values goes on with the first and leads to the second. -/
theorem of_isBinary {m : Mark} (h : m.isBinary = true) : m.bracketChange = 0 ∧
    m.continuesStatement = true ∧ m.awaitsMore = true ∧ m.opensExpression = true :=
  Mark.isOf_cases h (by decide) (by decide)

end Mark

/-! ## Expressions -/

/-- What the trees of expressions are of. -/
inductive ExpressionKind where
  | value
  /-- a variable, a call or a value in parentheses -/
  | operand
  /-- what follows the first branch of a conditional -/
  | branches

/-- Whether a word can name something; not all words that are set apart are keywords of Luau. -/
def isLuauName (w : Text) : Bool :=
  !isKeyword w || (Mark.word w).isWordOf ["goto", "continue"]

/-- What a call is given. -/
inductive Arguments where
  | listed (inside : Enclosed)
  | table (inside : Enclosed)
  | string

/-- Arguments as a piece. -/
def Arguments.piece : Arguments → Piece
  | listed inside => .brackets .round inside
  | table inside => .brackets .curly inside
  | string => .mark .string rfl

/-- The derivation trees of expressions without type annotations. -/
inductive Expression : ExpressionKind → Type
  | atom (m : Mark) (h : m.isAtom = true) : Expression .value
  | operand (p : Expression .operand) : Expression .value
  | table (fields : Enclosed) : Expression .value
  | lambda (parameters statements : Enclosed) : Expression .value
  | unary (operator : Mark) (h : operator.isUnary = true) (e : Expression .value) :
      Expression .value
  | binary (a : Expression .value) (operator : Mark) (h : operator.isBinary = true)
      (b : Expression .value) : Expression .value
  | conditional (condition value : Expression .value) (rest : Expression .branches) :
      Expression .value
  -- the other branches of a conditional
  | otherwise (value : Expression .value) : Expression .branches
  | elseIf (condition value : Expression .value) (rest : Expression .branches) :
      Expression .branches
  -- operands
  | name (n : Text) (h : isLuauName n = true) : Expression .operand
  | group (inside : Enclosed) : Expression .operand
  | member (p : Expression .operand) (n : Text) (h : isLuauName n = true) : Expression .operand
  | index (p : Expression .operand) (inside : Enclosed) : Expression .operand
  | call (p : Expression .operand) (arguments : Arguments) : Expression .operand
  | method (p : Expression .operand) (n : Text) (h : isLuauName n = true)
      (arguments : Arguments) : Expression .operand

namespace Expression

/-- The pieces of an expression from left to right. -/
def pieces : {k : ExpressionKind} → Expression k → List Piece
  | _, atom m h => [.mark m (Mark.bracketChange_of_isAtom h)]
  | _, operand p => p.pieces
  | _, table fields => [.brackets .curly fields]
  | _, lambda parameters statements => [.word "function", .body parameters statements]
  | _, unary operator h e => .mark operator (Mark.of_isUnary h).1 :: e.pieces
  | _, binary a operator h b => a.pieces ++ .mark operator (Mark.of_isBinary h).1 :: b.pieces
  | _, conditional c v rest =>
    .word "if" :: (c.pieces ++ .word "then" :: (v.pieces ++ rest.pieces))
  | _, otherwise v => .word "else" :: v.pieces
  | _, elseIf c v rest =>
    .word "elseif" :: (c.pieces ++ .word "then" :: (v.pieces ++ rest.pieces))
  | _, name n _ => [.mark (.word n) rfl]
  | _, group inside => [.brackets .round inside]
  | _, member p n _ => p.pieces ++ [.mark (.symbol ['.']) rfl, .mark (.word n) rfl]
  | _, index p inside => p.pieces ++ [.brackets .square inside]
  | _, call p arguments => p.pieces ++ [arguments.piece]
  | _, method p n _ arguments =>
    p.pieces ++ [.mark (.symbol [':']) rfl, .mark (.word n) rfl, arguments.piece]

/-- The marks of an expression from left to right. -/
def marks {k : ExpressionKind} (e : Expression k) : List Mark :=
  e.pieces.flatMap Piece.marks

/--
Whether the place after the first marks `inner` of an expression is among the statements of a
function, or before the first or after the last of them.
-/
def InFunction {k : ExpressionKind} (e : Expression k) (inner : List Mark) : Prop :=
  ∃ front parameters statements back xs ys,
    e.pieces = front ++ .body parameters statements :: back ∧ statements.marks = xs ++ ys ∧
      inner = front.flatMap Piece.marks ++
        (Bracket.round.opening :: parameters.marks ++ Bracket.round.closing :: xs)

end Expression

/-! ## Neighbours -/

namespace Piece

/-- Whether a value must follow a piece, in which an `if` is a conditional. -/
def Leads (p : Piece) : Prop :=
  p.last.opensBranch = true ∨ p.last.awaitsMore = true ∧ p.last.opensExpression = true

/-- Whether a piece goes on with what is before it. -/
def Follows (q : Piece) : Prop :=
  q.first.closesBranch = true ∨ q.first.continuesStatement = true

/-- Whether one of two neighbours leads to the other or follows it. -/
def Joins (p q : Piece) : Prop :=
  p.Leads ∨ q.Follows

theorem head?_marks (p : Piece) : p.marks.head? = some p.first := by
  cases p <;> rfl

theorem getLast?_marks (p : Piece) : p.marks.getLast? = some p.last := by
  cases p with
  | mark m h => rfl
  | brackets b inside => exact List.getLast?_concat
  | body parameters statements =>
    rw [marks, List.getLast?_append]
    rfl

theorem closed (p : Piece) : bracketDepth p.marks = 0 := by
  cases p with
  | mark m h => simp [marks, h]
  | brackets b inside =>
    have hb : b.opening.bracketChange + b.closing.bracketChange = 0 := by cases b <;> decide
    simp [marks, inside.closed, hb]
  | body parameters statements =>
    simp [marks, parameters.closed, statements.closed]
    decide

/-- Arguments go on with what is called. -/
theorem follows_arguments (a : Arguments) : a.piece.Follows := by
  cases a with
  | listed inside | table inside | string => exact .inr rfl

variable {p q : Piece} {ps qs : List Piece}

theorem isChain_cons (hp : p.Leads) (h : List.IsChain Joins ps) : List.IsChain Joins (p :: ps) :=
  List.isChain_cons.2 ⟨fun _ _ => .inl hp, h⟩

theorem isChain_append (hps : List.IsChain Joins ps) (h : List.IsChain Joins (q :: qs))
    (hq : q.Follows) : List.IsChain Joins (ps ++ q :: qs) := by
  refine List.isChain_append.2 ⟨hps, h, fun x _ y hy => ?_⟩
  obtain rfl : q = y := by simpa using hy
  exact .inr hq

end Piece

namespace Expression

/-- The other branches of a conditional begin with a word that ends the branch before them. -/
theorem exists_branch (e : Expression .branches) :
    ∃ q qs, e.pieces = q :: qs ∧ q.Follows := by
  cases e with
  | otherwise v => exact ⟨_, _, rfl, .inl (by decide)⟩
  | elseIf c v rest => exact ⟨_, _, rfl, .inl (by decide)⟩

/-- The pieces of one branch of a conditional and of what follows it. -/
theorem isChain_branch {word : Piece} {c v : List Piece} {rest : Expression .branches}
    (hword : word.Leads) (hc : List.IsChain Piece.Joins c) (hv : List.IsChain Piece.Joins v)
    (hrest : List.IsChain Piece.Joins rest.pieces) :
    List.IsChain Piece.Joins (word :: (c ++ .word "then" :: (v ++ rest.pieces))) := by
  have hleads : (Piece.word "then").Leads := .inl (by decide)
  have hfollows : (Piece.word "then").Follows := .inr (by decide)
  obtain ⟨q, qs, hpieces, hq⟩ := exists_branch rest
  rw [hpieces] at hrest ⊢
  refine Piece.isChain_cons hword (Piece.isChain_append hc ?_ hfollows)
  exact Piece.isChain_cons hleads (Piece.isChain_append hv hrest hq)

/-- Of two neighbours in an expression, one leads to the other or follows it. -/
theorem isChain_pieces {k : ExpressionKind} (e : Expression k) :
    List.IsChain Piece.Joins e.pieces := by
  induction e with
  | atom m h | table fields | name n h | group inside => exact .singleton _
  | operand p ih => exact ih
  | lambda parameters statements => exact .cons_cons (.inr (.inr rfl)) (.singleton _)
  | unary operator h e ih => exact Piece.isChain_cons (.inr (Mark.of_isUnary h).2) ih
  | binary a operator h b iha ihb =>
    obtain ⟨-, hgoes, hleads⟩ := Mark.of_isBinary h
    exact Piece.isChain_append iha (Piece.isChain_cons (.inr hleads) ihb) (.inr hgoes)
  | conditional c v rest ihc ihv ihrest =>
    exact isChain_branch (.inr (by decide)) ihc ihv ihrest
  | otherwise v ih => exact Piece.isChain_cons (.inl (by decide)) ih
  | elseIf c v rest ihc ihv ihrest => exact isChain_branch (.inr (by decide)) ihc ihv ihrest
  | member p n h ih =>
    refine Piece.isChain_append ih ?_ (.inr rfl)
    exact Piece.isChain_cons (.inr ⟨rfl, rfl⟩) (.singleton _)
  | index p inside ih => exact Piece.isChain_append ih (.singleton _) (.inr rfl)
  | call p arguments ih =>
    exact Piece.isChain_append ih (.singleton _) (Piece.follows_arguments arguments)
  | method p n h arguments ih =>
    refine Piece.isChain_append ih ?_ (.inr rfl)
    refine Piece.isChain_cons (.inr ⟨rfl, rfl⟩) (.cons_cons ?_ (.singleton _))
    exact .inr (Piece.follows_arguments arguments)

/-- An `if` after another piece of an expression begins a conditional for the scopes too. -/
theorem opensExpression_of_if {k : ExpressionKind} {e : Expression k} {front back : List Piece}
    {p : Piece} (h : e.pieces = front ++ p :: .word "if" :: back) :
    p.last.opensBranch = true ∨ p.last.opensExpression = true := by
  have hchain := e.isChain_pieces
  rw [h] at hchain
  have hjoins : p.Joins (.word "if") := (List.isChain_append_cons_cons.1 hchain).2.1
  have hif : ¬ (Piece.word "if").Follows := by
    rintro (hcloses | hgoes)
    · exact absurd hcloses (by decide)
    · exact absurd hgoes (by decide)
  exact (hjoins.resolve_right hif).imp_right And.right

end Expression

/-! ## Places in expressions -/

/-- A place after the mark that opens a bracket is inside of the bracket or behind it. -/
theorem Bracket.inside_or_behind {b : Bracket} {inside : Enclosed} {more xs ys : List Mark}
    (h : b.opening :: inside.marks ++ b.closing :: more = xs ++ ys) (hxs : xs ≠ []) :
    0 < bracketDepth xs ∨
      ∃ us, more = us ++ ys ∧ xs = b.opening :: inside.marks ++ b.closing :: us := by
  have hb : b.opening.bracketChange = 1 := by cases b <;> decide
  obtain ⟨x, xs, rfl⟩ := List.exists_cons_of_ne_nil hxs
  obtain ⟨rfl, hmore⟩ := List.cons.inj h
  rcases List.append_eq_append_iff.1 hmore with ⟨us, rfl, hclosing⟩ | ⟨us, hinside, -⟩
  · cases us with
    | nil =>
      left
      simp [hb, inside.closed]
    | cons u us =>
      obtain ⟨rfl, rfl⟩ := List.cons.inj hclosing
      exact .inr ⟨us, rfl, rfl⟩
  · left
    have hnonneg := inside.nonneg xs us hinside
    rw [bracketDepth_cons, hb]
    omega

/-- A place inside a piece is inside brackets, or among the statements of a function. -/
theorem Piece.inside {p : Piece} {xs ys : List Mark} (h : p.marks = xs ++ ys) (hxs : xs ≠ [])
    (hys : ys ≠ []) : 0 < bracketDepth xs ∨
      ∃ parameters statements us vs, p = .body parameters statements ∧
        statements.marks = us ++ vs ∧
        xs = Bracket.round.opening :: parameters.marks ++ Bracket.round.closing :: us := by
  cases p with
  | mark m hm =>
    obtain ⟨x, xs, rfl⟩ := List.exists_cons_of_ne_nil hxs
    obtain ⟨-, hnil⟩ := List.cons.inj h
    exact absurd (List.append_eq_nil_iff.1 hnil.symm).2 hys
  | brackets b enclosed =>
    refine (Bracket.inside_or_behind h hxs).imp_right ?_
    rintro ⟨us, hnil, -⟩
    exact absurd (List.append_eq_nil_iff.1 hnil.symm).2 hys
  | body parameters statements =>
    rw [marks, List.append_assoc, List.cons_append] at h
    refine (Bracket.inside_or_behind h hxs).imp_right ?_
    rintro ⟨us, hmore, hxs⟩
    rcases List.append_eq_append_iff.1 hmore with ⟨vs, rfl, hend⟩ | ⟨vs, hstatements, -⟩
    · cases vs with
      | nil => exact ⟨parameters, statements, _, [], rfl, by simp, hxs⟩
      | cons v vs =>
        obtain ⟨-, hnil⟩ := List.cons.inj hend
        exact absurd (List.append_eq_nil_iff.1 hnil.symm).2 hys
    · exact ⟨parameters, statements, us, vs, rfl, hstatements, hxs⟩

theorem bracketDepth_pieces (ps : List Piece) : bracketDepth (ps.flatMap Piece.marks) = 0 := by
  induction ps with
  | nil => rfl
  | cons p ps ih => rw [List.flatMap_cons, bracketDepth_append, p.closed, ih, Int.add_zero]

/-- A place in an expression is inside brackets, in a function, or between two pieces. -/
theorem Expression.place {k : ExpressionKind} {e : Expression k} {inner later : List Mark}
    (h : e.marks = inner ++ later) : 0 < bracketDepth inner ∨ e.InFunction inner ∨
      ∃ front back, e.pieces = front ++ back ∧ inner = front.flatMap Piece.marks ∧
        later = back.flatMap Piece.marks := by
  rw [marks, List.flatMap_def] at h
  rcases List.flatten_eq_append_iff.1 h with ⟨front, back, hmap, rfl, rfl⟩ |
    ⟨front, xs, y, ys, back, hmap, rfl, rfl⟩
  · obtain ⟨front, back, hpieces, rfl, rfl⟩ := List.map_eq_append_iff.1 hmap
    exact .inr (.inr ⟨front, back, hpieces, rfl, rfl⟩)
  · obtain ⟨front, back, hpieces, rfl, hback⟩ := List.map_eq_append_iff.1 hmap
    obtain ⟨p, back, rfl, hp, rfl⟩ := List.map_eq_cons_iff.1 hback
    by_cases hxs : xs = []
    · subst hxs
      refine .inr (.inr ⟨front, p :: back, hpieces, ?_, ?_⟩)
      · rw [List.append_nil, ← List.flatMap_def]
      · rw [List.flatMap_cons, hp, ← List.flatMap_def]
        rfl
    · rcases Piece.inside hp hxs (List.cons_ne_nil y ys) with hdepth |
        ⟨parameters, statements, us, vs, rfl, hstatements, rfl⟩
      · left
        rw [bracketDepth_append, ← List.flatMap_def, bracketDepth_pieces, Int.zero_add]
        exact hdepth
      · exact .inr (.inl ⟨front, parameters, statements, back, us, vs, hpieces, hstatements,
          by rw [← List.flatMap_def]⟩)

/-! ## Lines -/

/-- Line `j` is the next line with code after line `i`. -/
structure NextCode (lines : List Line) (i j : Nat) : Prop where
  lt : i < j
  hasCode : lines[j]?.any Line.hasCode = true
  between : ∀ k, i < k → k < j → lines[k]?.any Line.hasCode = false

namespace NextCode

variable {lines : List Line} {i j : Nat}

/-- Between the two lines there is no code. -/
theorem hasCode_between (h : NextCode lines i j) {k : Nat} (hk : k < lines.length) (hik : i < k)
    (hkj : k < j) : lines[k].hasCode = false := by
  have hbetween := h.between k hik hkj
  rwa [List.getElem?_eq_getElem hk, Option.any_some] at hbetween

theorem codeAfter_eq (h : NextCode lines i j) : codeAfter lines i = lines[j]? := by
  obtain ⟨l, hl, hcode⟩ := (Option.any_eq_true _ _).1 h.hasCode
  obtain ⟨hj, rfl⟩ := List.getElem?_eq_some_iff.1 hl
  have hij := h.lt
  rw [hl, codeAfter, List.find?_eq_some_iff_getElem]
  refine ⟨hcode, j - (i + 1), by rw [List.length_drop]; omega, ?_, fun k hk => ?_⟩
  · rw [List.getElem_drop]
    congr 1
    omega
  · rw [List.getElem_drop, h.hasCode_between (by omega) (by omega) (by omega)]
    rfl

theorem codeBefore_eq (h : NextCode lines i j) (hi : lines[i]?.any Line.hasCode = true) :
    codeBefore lines j = lines[i]? := by
  obtain ⟨l, hl, hcode⟩ := (Option.any_eq_true _ _).1 hi
  obtain ⟨hlt, rfl⟩ := List.getElem?_eq_some_iff.1 hl
  obtain ⟨next, hnext, -⟩ := (Option.any_eq_true _ _).1 h.hasCode
  obtain ⟨hj, -⟩ := List.getElem?_eq_some_iff.1 hnext
  have hij := h.lt
  have hlength : (lines.take j).length = j := by
    rw [List.length_take]
    omega
  rw [hl, codeBefore, List.find?_eq_some_iff_getElem]
  refine ⟨hcode, j - 1 - i, by rw [List.length_reverse]; omega, ?_, fun k hk => ?_⟩
  · rw [List.getElem_reverse, List.getElem_take]
    congr 1
    omega
  · rw [List.getElem_reverse, List.getElem_take, h.hasCode_between (by omega) (by omega) (by omega)]
    rfl

end NextCode

/-! ## Conditionals on lines -/

/--
Line `i` of a script ends inside an expression, after the marks `inner` of it and before the marks
`later`. The expression stands after the marks `before` of the script, in which no bracket is closed
that was not opened.
-/
structure EndsInside (spans : List Span) (i : Nat) {k : ExpressionKind} (e : Expression k)
    (before inner later : List Mark) : Prop where
  script : ∃ after, spans.flatMap Span.marks = before ++ e.marks ++ after
  depth : 0 ≤ bracketDepth before
  marks_eq : e.marks = inner ++ later
  through : marksThrough (splitLines spans) i = before ++ inner
  hasCode : (splitLines spans)[i]?.any Line.hasCode = true
  inner_ne : inner ≠ []
  later_ne : later ≠ []

namespace EndsInside

variable {spans : List Span} {i : Nat} {k : ExpressionKind} {e : Expression k}
  {before inner later : List Mark}

/-- What is known about a line that ends inside an expression, and about the code after it. -/
theorem facts (h : EndsInside spans i e before inner later) :
    ∃ l next t u, (splitLines spans)[i]? = some l ∧ l.hasCode = true ∧
      codeAfter (splitLines spans) i = some next ∧
      inner.getLast? = some t ∧ later.head? = some u ∧
      l.facts.depthAfter = bracketDepth (before ++ inner) ∧ l.endsOpen = t.awaitsMore ∧
      next.startsContinuation = u.continuesStatement := by
  obtain ⟨l, hl, hcode⟩ := (Option.any_eq_true _ _).1 h.hasCode
  obtain ⟨hfirst, hlast⟩ := facts_of_line (List.mem_of_getElem? hl)
  obtain ⟨t, ht⟩ : ∃ t, inner.getLast? = some t := ⟨_, List.getLast?_eq_some_getLast h.inner_ne⟩
  obtain ⟨u, hu⟩ : ∃ u, later.head? = some u := ⟨_, List.head?_eq_some_head h.later_ne⟩
  -- the last mark of the line is the last before the place
  have hends : l.facts.last = some t := by
    have hne : l.marks ≠ [] := by
      intro hnil
      simp [Line.hasCode, hfirst, hnil] at hcode
    have hthrough := congrArg List.getLast? ((marksThrough_eq hl).symm.trans h.through)
    rw [List.getLast?_append_of_ne_nil _ hne, List.getLast?_append_of_ne_nil _ h.inner_ne, ht,
      ← hlast] at hthrough
    exact hthrough
  -- the code after the line begins with the first mark after the place
  obtain ⟨next, hnext, hstarts⟩ : ∃ next, codeAfter (splitLines spans) i = some next ∧
      next.facts.first = some u := by
    obtain ⟨after, hscript⟩ := h.script
    have haround := marks_around spans (i + 1)
    rw [hscript, h.marks_eq, ← marksThrough, h.through, ← List.append_assoc, List.append_assoc]
      at haround
    rw [← Option.bind_eq_some_iff, first_codeAfter, ← List.append_cancel_left haround,
      List.head?_append, hu]
    rfl
  refine ⟨l, next, t, u, hl, hcode, hnext, ht, hu, ?_, ?_, ?_⟩
  · rw [(depths_of_line hl).2, h.through]
  · rw [Line.endsOpen, hends]
    rfl
  · rw [Line.startsContinuation, hstarts]
    rfl

end EndsInside

/--
Whether lines that part two marks `t` and `u` are judged to part statements, after the marks
`before` of a script up to `t`: no bracket is open, `t` does not wait and `u` does not go on.
-/
structure PartsLines (before : List Mark) (t u : Mark) : Prop where
  depth : bracketDepth before = 0
  closed : t.awaitsMore = false
  starts : u.continuesStatement = false

/-- Outside of functions, lines in an expression are parted only next to the words of branches. -/
theorem EndsInside.branch_of_partsLines {spans : List Span} {i : Nat} {k : ExpressionKind}
    {e : Expression k} {before inner later : List Mark} {t u : Mark}
    (h : EndsInside spans i e before inner later) (hplace : ¬ e.InFunction inner)
    (ht : inner.getLast? = some t) (hu : later.head? = some u)
    (hparts : PartsLines (before ++ inner) t u) : t.opensBranch = true ∨ u.closesBranch = true := by
  obtain ⟨hdepth, hclosed, hstarts⟩ := hparts
  rw [bracketDepth_append] at hdepth
  have hbefore := h.depth
  rcases Expression.place h.marks_eq with hpos | hin | ⟨front, back, hpieces, rfl, rfl⟩
  · omega
  · exact absurd hin hplace
  · rcases List.eq_nil_or_concat front with rfl | ⟨front, p, rfl⟩
    · cases ht
    cases back with
    | nil => cases hu
    | cons q back =>
      have hchain := e.isChain_pieces
      rw [hpieces, List.concat_eq_append, List.append_assoc, List.singleton_append] at hchain
      have hjoins : p.Joins q := (List.isChain_append_cons_cons.1 hchain).2.1
      obtain rfl : p.last = t := by
        rw [List.concat_eq_append, List.flatMap_append, List.flatMap_singleton,
          List.getLast?_append, p.getLast?_marks] at ht
        exact Option.some.inj ht
      obtain rfl : q.first = u := by
        rw [List.flatMap_cons, List.head?_append, q.head?_marks] at hu
        exact Option.some.inj hu
      rcases hjoins with (hopens | ⟨hawaits, -⟩) | hcloses | hgoes
      · exact .inl hopens
      · rw [hawaits] at hclosed
        cases hclosed
      · exact .inr hcloses
      · rw [hgoes] at hstarts
        cases hstarts

/--
A line that ends inside a conditional expression, outside of the functions in it, goes on with the
next line of code: nothing may be put between them, and the next line cannot stand in a block of its
own. The exceptions are lines that end in `then` or `else` and lines before an `elseif` or `else`.
These are judged like statements, by the brackets, the marks at the place and the exits that wait.
-/
theorem conditional_parted_iff {spans : List Span} {i : Nat} {c v : Expression .value}
    {rest : Expression .branches} {before inner later : List Mark}
    (h : EndsInside spans i (.conditional c v rest) before inner later)
    (hplace : ¬ (Expression.conditional c v rest).InFunction inner) :
    let lines := splitLines spans
    ∃ t u, inner.getLast? = some t ∧ later.head? = some u ∧
      (t.opensBranch = false → u.closesBranch = false → isBoundaryAfter lines i = false ∧
        ∀ j, NextCode lines i j → isWrappable lines j = false) ∧
      (isBoundaryAfter lines i = true ↔
        PartsLines (before ++ inner) t u ∧ ¬ LastExitWaits (marksThrough lines i)) ∧
      ∀ j, NextCode lines i j → (isWrappable lines j = true ↔ PartsLines (before ++ inner) t u ∧
        lines[j]?.any Line.isSelfContained = true ∧
        (codeAfter lines j).any Line.startsContinuation = false) := by
  intro lines
  obtain ⟨l, next, t, u, hl, hcode, hnext, ht, hu, hdepth, hends, hstarts⟩ := h.facts
  have hboundary : isBoundaryAfter lines i = true ↔
      PartsLines (before ++ inner) t u ∧ ¬ LastExitWaits (marksThrough lines i) := by
    rw [isBoundaryAfter_iff]
    refine and_congr_left fun _ => ?_
    rw [isStatementEnd, hl, hnext, Option.any_some, Option.any_some, hcode, hdepth, hends, hstarts]
    constructor
    · intro hend
      simp only [Bool.true_and, Bool.and_eq_true, beq_iff_eq, Bool.not_eq_true'] at hend
      exact ⟨hend.1.1, hend.1.2, hend.2⟩
    · rintro ⟨hzero, hclosed, hgoes⟩
      simp [hzero, hclosed, hgoes]
  have hwrappable : ∀ j, NextCode lines i j → (isWrappable lines j = true ↔
      PartsLines (before ++ inner) t u ∧ lines[j]?.any Line.isSelfContained = true ∧
        (codeAfter lines j).any Line.startsContinuation = false) := by
    intro j hj
    have hline : lines[j]? = some next := hj.codeAfter_eq.symm.trans hnext
    have hgoes : next.isSelfContained = true → next.startsContinuation = false := by
      intro hself
      simp only [Line.isSelfContained, Bool.and_eq_true, Bool.not_eq_true'] at hself
      exact hself.1.2
    rw [isWrappable, hj.codeBefore_eq h.hasCode, hl, hline, Option.any_some, Option.any_some,
      hdepth, hends]
    constructor
    · intro hwrap
      simp only [Bool.and_eq_true, Bool.not_eq_true', Bool.or_eq_false_iff, bne_eq_false_iff_eq]
        at hwrap
      obtain ⟨⟨hself, hclosed, hzero⟩, hmore⟩ := hwrap
      exact ⟨⟨hzero, hclosed, hstarts ▸ hgoes hself⟩, hself, hmore⟩
    · rintro ⟨⟨hzero, hclosed, -⟩, hself, hmore⟩
      simp [hzero, hclosed, hself, hmore]
  refine ⟨t, u, ht, hu, fun hopens hcloses => ?_, hboundary, hwrappable⟩
  have hjoined : ¬ PartsLines (before ++ inner) t u := by
    intro hparts
    rcases h.branch_of_partsLines hplace ht hu hparts with hword | hword
    · rw [hopens] at hword
      cases hword
    · rw [hcloses] at hword
      cases hword
  refine ⟨Bool.eq_false_iff.2 fun htrue => hjoined (hboundary.1 htrue).1, fun j hj => ?_⟩
  exact Bool.eq_false_iff.2 fun htrue => hjoined ((hwrappable j hj).1 htrue).1

/-! ## Branches on lines of their own -/

/-- Marks without brackets are enclosed. -/
def Enclosed.empty : Enclosed :=
  ⟨[], fun xs ys h => by simp [(List.append_eq_nil_iff.1 h.symm).1], rfl⟩

/-- A variable. -/
def Expression.variable (n : Text) (h : isLuauName n = true) : Expression .value :=
  .operand (.name n h)

/-- The conditional `if a then f() else c`. -/
def callOrValue : Expression .value :=
  .conditional (.variable ['a'] (by decide))
    (.operand (.call (.name ['f'] (by decide)) (.listed .empty)))
    (.otherwise (.variable ['c'] (by decide)))

theorem callOrValue_not_inFunction (inner : List Mark) : ¬ callOrValue.InFunction inner := by
  rintro ⟨front, parameters, statements, back, -, -, hpieces, -⟩
  have hmem : Piece.body parameters statements ∈ callOrValue.pieces := by simp [hpieces]
  simp [callOrValue, Expression.variable, Expression.pieces, Arguments.piece, Piece.word] at hmem

/-- The marks of `local x =`. -/
def assigned : List Mark :=
  [.word "local".toList, .word ['x'], .symbol ['=']]

/-- A script with a line that ends in the condition of the conditional. -/
def conditionFirst : List Span :=
  codeSpans 0 "local x = if a\nthen f() else c".toList

/-- Nothing may follow the line with the condition. -/
theorem condition_goes_on : ∃ inner later,
    EndsInside conditionFirst 0 callOrValue assigned inner later ∧
      isBoundaryAfter (splitLines conditionFirst) 0 = false := by
  have hinside : EndsInside conditionFirst 0 callOrValue assigned [.word "if".toList, .word ['a']]
      [.word "then".toList, .word ['f'], .symbol ['('], .symbol [')'], .word "else".toList,
        .word ['c']] :=
    ⟨⟨[], by decide +kernel⟩, by decide, by decide +kernel, by decide +kernel, by decide +kernel,
      by decide, by decide⟩
  obtain ⟨t, u, ht, hu, hkept, -⟩ :=
    conditional_parted_iff hinside (callOrValue_not_inFunction _)
  obtain rfl := Option.some.inj ht
  obtain rfl := Option.some.inj hu
  exact ⟨_, _, hinside, (hkept (by decide) (by decide)).1⟩

/-- A script whose lines break the conditional after `then` and before `else`. -/
def brokenConditional : List Span :=
  codeSpans 0 "local x = if a then\nf()\nelse c".toList

/--
After `then` a statement may follow, and the value of the branch can stand in a block of its own,
as if the conditional were a statement.
-/
theorem branch_parted : scan "local x = if a then\nf()\nelse c".toList = .ok brokenConditional ∧
    (∃ inner later, EndsInside brokenConditional 0 callOrValue assigned inner later ∧
      .word "else".toList ∈ later) ∧
    isBoundaryAfter (splitLines brokenConditional) 0 = true ∧
    NextCode (splitLines brokenConditional) 0 1 ∧
    isWrappable (splitLines brokenConditional) 1 = true := by
  have hinside : EndsInside brokenConditional 0 callOrValue assigned
      [.word "if".toList, .word ['a'], .word "then".toList]
      [.word ['f'], .symbol ['('], .symbol [')'], .word "else".toList, .word ['c']] :=
    ⟨⟨[], by decide +kernel⟩, by decide, by decide +kernel, by decide +kernel, by decide +kernel,
      by decide, by decide⟩
  refine ⟨by decide +kernel, ⟨_, _, hinside, by decide⟩, by decide +kernel,
    ⟨by decide, by decide +kernel, fun k hk hk' => ?_⟩, by decide +kernel⟩
  omega

end LuaVeil
