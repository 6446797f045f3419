/-
# Resolution of names

One walk over the occurrences of a script finds where its local variables are
declared and used. A stack of scopes says which names are visible:

* `function`, `do`, `then` and `repeat` open a scope, `end` closes one, and so
  does the end of the condition after `until`;
* the names of a `local` statement become visible after its expressions, a local
  function in its own body, parameters in the body of their function, and the
  variables of a loop in the body of the loop.

An `if` where an expression begins has no scope. Reserved names are declared by
nobody. Names of fields and keys are no variables.

`resolve` gives the declared names and the occurrences to rename.
-/
import LuaVeil.Names.Reserved
import LuaVeil.Scope.Phrase

namespace LuaVeil

/-! ## What marks say about expressions -/

namespace Mark

/-- Whether an expression can end in this mark. -/
def endsOperand : Mark → Bool
  | m@(word w) => !isKeyword w || m.isWordOf ["nil", "true", "false", "end"]
  | m@(symbol _) => m.isSymbolOf [")", "]", "\x7d", "..."]
  | number => true
  | string => true

/-- Whether an expression that could have ended goes on with this mark. -/
def continuesExpression : Mark → Bool
  | m@(word _) => m.isWordOf ["and", "or"]
  | m@(symbol _) =>
    m.isSymbolOf ["+", "-", "*", "/", "//", "%", "^", "..", "==", "~=", "<", ">", "<=", ">=", ".",
      ":", "::", "[", "(", "\x7b", ","]
  | number => false
  | string => true

/-- Whether an `if` directly after this mark begins an expression. -/
def opensExpression : Mark → Bool
  | m@(word _) =>
    m.isWordOf ["return", "and", "or", "not", "in", "until", "while", "if", "elseif"]
  | m@(symbol _) => !m.isSymbolOf [")", "]", "\x7d", ";", "..."]
  | number => false
  | string => false

end Mark

/-! ## The state of a walk -/

/-- What is done when an expression has ended. -/
inductive Deferred where
  /-- The names of a `local` statement become visible. -/
  | bind (names : List Name)
  /-- The scope of a `repeat` ends with the condition after its `until`. -/
  | close
  deriving DecidableEq

/-- A deferred action, with how many scopes, brackets and conditional expressions were open. -/
structure Pending where
  depth : Nat
  brackets : Nat
  conditionals : Nat
  action : Deferred
  deriving DecidableEq

/-- What is known at a place of a script. Stacks have their newest item first. -/
structure ScopeState where
  /-- the names of the innermost scope -/
  scope : List Name
  /-- the names of the scopes around it -/
  outer : List (List Name)
  /-- the open brackets -/
  brackets : List Text
  /-- for each open conditional expression, how many scopes were open before it -/
  conditionals : List Nat
  /-- names of loops that wait for their `do`, with how many scopes were open before it -/
  loops : List (Nat × List Name)
  /-- actions that wait for the end of an expression -/
  pending : List Pending
  /-- a branch of a conditional expression has just begun -/
  inBranch : Bool
  /-- the declared names, the newest first -/
  declared : List Name
  /-- the occurrences to rename, the newest first -/
  sites : List Occurrence

namespace ScopeState

/-- The state before a script. -/
def initial : ScopeState :=
  ⟨[], [], [], [], [], [], false, [], []⟩

/-- The number of open scopes. -/
def depth (s : ScopeState) : Nat :=
  s.outer.length + 1

/-- Whether a name is visible. -/
def isVisible (s : ScopeState) (name : Name) : Bool :=
  s.scope.contains name || s.outer.any fun scope => scope.contains name

/-- Open a scope. -/
def openScope (s : ScopeState) : ScopeState :=
  { s with scope := [], outer := s.scope :: s.outer }

/-- Close the innermost scope, unless it is the only one. -/
def closeScope (s : ScopeState) : ScopeState :=
  match s.outer with
  | [] => s
  | scope :: outer => { s with scope, outer }

/-- Make names visible in the innermost scope. -/
def bind (names : List Name) (s : ScopeState) : ScopeState :=
  { s with scope := names ++ s.scope }

/-- Note the declaration of a name. -/
def declare (s : ScopeState) (o : Occurrence) : ScopeState :=
  let name := o.mark.text
  { s with
    declared := if s.declared.contains name then s.declared else name :: s.declared
    sites := o :: s.sites }

/-- Note the use of a name, which is a site if the name is visible. -/
def use (s : ScopeState) (o : Occurrence) : ScopeState :=
  if s.isVisible o.mark.text then { s with sites := o :: s.sites } else s

/-- An action that waits for the end of the expression that begins here. -/
def defer (action : Deferred) (s : ScopeState) : ScopeState :=
  { s with
    pending := ⟨s.depth, s.brackets.length, s.conditionals.length, action⟩ :: s.pending }

/-- Do a deferred action. -/
def perform (s : ScopeState) : Deferred → ScopeState
  | .bind names => s.bind names
  | .close => s.closeScope

/-! ### Ends of expressions -/

/-- Whether the scope or bracket of a pending action has been left. -/
def hasLeft (s : ScopeState) (p : Pending) : Bool :=
  decide (s.depth < p.depth) || decide (s.brackets.length < p.brackets)

/-- Whether the expression of a pending action ends between two marks. -/
def hasEnded (s : ScopeState) (p : Pending) (before : Option Mark) (next : Mark) : Bool :=
  s.depth == p.depth && s.brackets.length == p.brackets && s.conditionals.length == p.conditionals &&
    before.any Mark.endsOperand && !next.continuesExpression

/-- Do or drop the given pending actions, the newest first, up to one that still waits. -/
def settlePending (before : Option Mark) (next : Mark) : List Pending → ScopeState → ScopeState
  | [], s => { s with pending := [] }
  | p :: pending, s =>
    if s.hasLeft p then settlePending before next pending s
    else if s.hasEnded p before next then settlePending before next pending (s.perform p.action)
    else { s with pending := p :: pending }

/-- Do the pending actions whose expression ends between two marks. -/
def settle (s : ScopeState) (before : Option Mark) (next : Mark) : ScopeState :=
  settlePending before next s.pending s

/-! ### Words -/

/-- Note declarations of names; those that are not reserved. -/
def declareAll (reserved : Reserved) (s : ScopeState) (names : List Occurrence) :
    ScopeState × List Name :=
  let free := names.filter fun o => !reserved.contains o.mark.text
  (free.foldl declare s, free.map fun o => o.mark.text)

/-- Open the scope of a function whose parameters are next. -/
def enterFunction (reserved : Reserved) (s : ScopeState) (c : Cursor) : ScopeState × Cursor :=
  let (names, body) := c.parameters
  let (s, bound) := s.openScope.declareAll reserved names
  (s.bind bound, body)

/-- After `local function`: the name is visible in the function. -/
def localFunction (reserved : Reserved) (s : ScopeState) (c : Cursor) : ScopeState × Cursor :=
  match c.name? with
  | none => s.enterFunction reserved c
  | some (o, c) =>
    let (s, bound) := s.declareAll reserved [o]
    (s.bind bound).enterFunction reserved c

/-- After `local`: the names are visible after the expressions, if there are any. -/
def localNames (reserved : Reserved) (s : ScopeState) (c : Cursor) : ScopeState × Cursor :=
  let (names, c) := c.names
  let (s, bound) := s.declareAll reserved names
  if c.sees 0 ["="] then (s.defer (.bind bound), c.advance) else (s.bind bound, c)

/-- After `for`: the names wait for the `do` of the loop. -/
def loopNames (reserved : Reserved) (s : ScopeState) (c : Cursor) : ScopeState × Cursor :=
  let (names, c) := c.names
  let depth := s.depth
  let (s, bound) := s.declareAll reserved names
  ({ s with loops := (depth, bound) :: s.loops }, c)

/-- After `function`: a function with a name uses that name. -/
def function (reserved : Reserved) (s : ScopeState) (c : Cursor) : ScopeState × Cursor :=
  match c.name? with
  | none => s.enterFunction reserved c
  | some (o, c) => (s.use o).enterFunction reserved c.skipFields

/-- At `do`: a block, perhaps of a loop whose names become visible in it. -/
def enterDo (s : ScopeState) : ScopeState :=
  let depth := s.depth
  let s := s.openScope
  match s.loops with
  | (d, names) :: loops => if d = depth then { s with loops }.bind names else s
  | [] => s

/-- At `if`: a conditional expression is noted. -/
def enterIf (s : ScopeState) (branch : Bool) (before : Option Mark) : ScopeState :=
  if branch || before.any Mark.opensExpression then
    { s with conditionals := s.depth :: s.conditionals }
  else s

/-- Whether the innermost `if` is a conditional expression. -/
def inConditional (s : ScopeState) : Bool :=
  s.conditionals.head? == some s.depth

/-- At a keyword that declares nothing, given the mark before it and whether a branch began there. -/
def keyword (s : ScopeState) (word : Text) (branch : Bool) (before : Option Mark) : ScopeState :=
  match String.ofList word with
  | "do" => s.enterDo
  | "if" => s.enterIf branch before
  | "then" => if s.inConditional then { s with inBranch := true } else s.openScope
  | "elseif" => if s.inConditional then { s with inBranch := true } else s.closeScope
  | "else" =>
    if s.inConditional then { s with conditionals := s.conditionals.tail, inBranch := true }
    else s.closeScope.openScope
  | "repeat" => s.openScope
  | "until" => s.defer .close
  | "end" => s.closeScope
  | _ => s

/-! ### Steps -/

/-- Whether a mark leads to a field or method. -/
def leadsToField (m : Mark) : Bool :=
  m.isSymbolOf [".", ":"]

/-- Whether the name ahead of `c` is the key of a field in a table constructor. -/
def isConstructorKey (s : ScopeState) (c : Cursor) : Bool :=
  s.brackets.head? == some ['\x7b'] && c.frame.any (Mark.isSymbolOf ["\x7b", ",", ";"]) &&
    c.sees 1 ["="]

/-- Note the name `o` ahead of `c`. -/
def atName (s : ScopeState) (c : Cursor) (o : Occurrence) : ScopeState :=
  if c.before.any leadsToField || s.isConstructorKey c then s else s.use o

/-- At the keyword `word`, which `next` follows. -/
def atKeyword (reserved : Reserved) (s : ScopeState) (word : Text) (branch : Bool)
    (before : Option Mark) (next : Cursor) : ScopeState × Cursor :=
  if word = "local".toList then
    if (next.peek 0).any (Mark.isWordOf ["function"]) then s.localFunction reserved next.advance
    else s.localNames reserved next
  else if word = "for".toList then s.loopNames reserved next
  else if word = "function".toList then s.function reserved next
  else (s.keyword word branch before, next)

/-- At a symbol, which `next` follows. Two colons begin a type. -/
def atSymbol (s : ScopeState) (symbol : Text) (next : Cursor) : ScopeState × Cursor :=
  let m := Mark.symbol symbol
  if m.isSymbolOf Cursor.openBrackets then ({ s with brackets := symbol :: s.brackets }, next)
  else if m.isSymbolOf Cursor.closeBrackets then ({ s with brackets := s.brackets.tail }, next)
  else if m.isSymbolOf ["::"] then (s, next.skipType)
  else (s, next)

/-- Go on past the occurrence `o` ahead of `c`, which is in no hole; `next` is the place after it. -/
def step (reserved : Reserved) (s : ScopeState) (c : Cursor) (o : Occurrence) (next : Cursor) :
    ScopeState × Cursor :=
  let s := s.settle c.frame o.mark
  let branch := s.inBranch
  let s := { s with inBranch := false }
  match o.mark with
  | .word w =>
    if o.mark.isName then (s.atName c o, next) else s.atKeyword reserved w branch c.frame next
  | .symbol t => s.atSymbol t next
  | .number => (s, next)
  | .string => (s, next)

/-- Note the occurrence `o` ahead of `c`, which is in a hole. -/
def atHole (s : ScopeState) (c : Cursor) (o : Occurrence) : ScopeState :=
  if o.mark.isName && !c.before.any leadsToField then s.use o else s

/-! ### A step moves forward -/

theorem length_enterFunction_le (reserved : Reserved) (s : ScopeState) (c : Cursor) :
    (s.enterFunction reserved c).2.ahead.length ≤ c.ahead.length :=
  c.length_parameters_le

theorem length_localFunction_le (reserved : Reserved) (s : ScopeState) (c : Cursor) :
    (s.localFunction reserved c).2.ahead.length ≤ c.ahead.length := by
  unfold localFunction
  split
  · exact length_enterFunction_le reserved s c
  · next h =>
    exact Nat.le_trans (length_enterFunction_le _ _ _) (Nat.le_of_lt (Cursor.length_name?_lt h))

theorem length_localNames_le (reserved : Reserved) (s : ScopeState) (c : Cursor) :
    (s.localNames reserved c).2.ahead.length ≤ c.ahead.length := by
  unfold localNames
  dsimp only
  split
  · exact Nat.le_trans (Cursor.length_advance_le _) c.length_names_le
  · exact c.length_names_le

theorem length_function_le (reserved : Reserved) (s : ScopeState) (c : Cursor) :
    (s.function reserved c).2.ahead.length ≤ c.ahead.length := by
  unfold function
  split
  · exact length_enterFunction_le reserved s c
  · next h =>
    exact Nat.le_trans (length_enterFunction_le _ _ _)
      (Nat.le_trans (Cursor.length_skipFields_le _) (Nat.le_of_lt (Cursor.length_name?_lt h)))

theorem length_atKeyword_le (reserved : Reserved) (s : ScopeState) (word : Text) (branch : Bool)
    (before : Option Mark) (next : Cursor) :
    (s.atKeyword reserved word branch before next).2.ahead.length ≤ next.ahead.length := by
  unfold atKeyword
  split
  · split
    · exact Nat.le_trans (length_localFunction_le _ _ _) (Cursor.length_advance_le _)
    · exact length_localNames_le reserved s next
  split
  · exact next.length_names_le
  split
  · exact length_function_le reserved s next
  · exact Nat.le_refl _

theorem length_atSymbol_le (s : ScopeState) (symbol : Text) (next : Cursor) :
    (s.atSymbol symbol next).2.ahead.length ≤ next.ahead.length := by
  unfold atSymbol
  dsimp only
  repeat' split
  all_goals
    first
      | exact Cursor.length_skipType_le _
      | exact Nat.le_refl _

/-- A step ends after the occurrence at which it begins. -/
theorem length_step_le (reserved : Reserved) (s : ScopeState) (c : Cursor) (o : Occurrence)
    (next : Cursor) : (s.step reserved c o next).2.ahead.length ≤ next.ahead.length := by
  unfold step
  dsimp only
  split
  · split
    · exact Nat.le_refl _
    · exact length_atKeyword_le _ _ _ _ _ _
  · exact length_atSymbol_le _ _ _
  · exact Nat.le_refl _
  · exact Nat.le_refl _

/-! ### The walk -/

/-- The state after all occurrences ahead of `c`. -/
def walk (reserved : Reserved) (s : ScopeState) (c : Cursor) : ScopeState :=
  match _ : c.ahead with
  | [] => s
  | o :: ahead =>
    let next := c.past o ahead
    if o.inHole then walk reserved (s.atHole c o) next
    else
      let after := s.step reserved c o next
      walk reserved after.1 after.2
termination_by c.ahead.length
decreasing_by
  · simp_all [Cursor.past]
  · have h := length_step_le reserved s c o (c.past o ahead)
    have h' : (c.past o ahead).ahead.length < c.ahead.length := by simp_all [Cursor.past]
    omega

end ScopeState

/-! ## The result -/

/-- The local variables of a script. -/
structure Resolution where
  /-- the declared names that are not reserved, in the order of their first declarations -/
  declared : List Name
  /-- the declarations and uses of these names, in the order of the script -/
  sites : List Occurrence

/-- The local variables of a script, given by its occurrences. -/
def resolve (reserved : Reserved) (occurrences : List Occurrence) : Resolution :=
  let s := ScopeState.initial.walk reserved (.start occurrences)
  ⟨s.declared.reverse, s.sites.reverse⟩

end LuaVeil
