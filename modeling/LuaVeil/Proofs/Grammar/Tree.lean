/-
# The grammar of Lua 5.1

A script is a sequence of terminals: words, numerals, symbols and string
literals. `Tree c` is the type of derivation trees of category `c`, with one
constructor for each production of the grammar, and `Tree.terminals` lists the
terminals of a tree from left to right. A chunk is a tree of category `block`.

The grammar is ambiguous, and a tree fixes one reading. Operators have no
precedence here, since a tree says what the operands of each are. The two or
three values of a numeric `for` are listed like other expressions.

Main statements:

* `terminals_eq_flatMap_parts`, the terminals of a tree are those of its parts;
* `Tree.induction_on_parts`, what holds of a tree as soon as it holds of the
  trees among its parts holds of all trees.
-/
import LuaVeil.Lua.Delimiter
import LuaVeil.Lua.Line

namespace LuaVeil

/-! ## Terminals -/

/-- Whether a text is a word. -/
def isWord : Text → Bool
  | [] => false
  | c :: t => isWordStart c && t.all isWordChar

/-- A decimal numeral: digits, perhaps with a point among them, and perhaps an exponent. -/
structure IsDecimal (t : Text) : Prop where
  shape : ∃ whole fraction exponent, t = whole ++ fraction ++ exponent ∧
    (∀ c ∈ whole, c.isDigit = true) ∧
    (fraction = [] ∧ whole ≠ [] ∨ ∃ digits, fraction = '.' :: digits ∧
      (∀ c ∈ digits, c.isDigit = true) ∧ (whole ≠ [] ∨ digits ≠ [])) ∧
    (exponent = [] ∨ ∃ mark sign digits, exponent = mark :: (sign ++ digits) ∧
      (mark = 'e' ∨ mark = 'E') ∧ (sign = [] ∨ sign = ['+'] ∨ sign = ['-']) ∧ digits ≠ [] ∧
      ∀ c ∈ digits, c.isDigit = true)

/-- A character of a hexadecimal number. -/
def isHexDigit (c : Char) : Bool :=
  c.isDigit || "abcdefABCDEF".toList.contains c

/-- Whether a text is a numeral. -/
def IsNumeral (t : Text) : Prop :=
  IsDecimal t ∨ ∃ mark digits, t = '0' :: mark :: digits ∧ (mark = 'x' ∨ mark = 'X') ∧
    digits ≠ [] ∧ ∀ c ∈ digits, isHexDigit c = true

/-- The symbols of the language. -/
def luaSymbols : List Text :=
  ["+", "-", "*", "/", "%", "^", "#", "==", "~=", "<=", ">=", "<", ">", "=", "(", ")", "\x7b",
   "\x7d", "[", "]", ";", ":", ",", ".", "..", "..."].map String.toList

/-- The content of a string between two `mark`s; a backslash takes the next character with it. -/
inductive QuotedContent (mark : Char) : Text → Prop
  | nil : QuotedContent mark []
  | plain {c : Char} {t : Text} (hmark : c ≠ mark) (hslash : c ≠ '\\') (hline : c ≠ '\n')
      (h : QuotedContent mark t) : QuotedContent mark (c :: t)
  | escape {c : Char} {t : Text} (h : QuotedContent mark t) : QuotedContent mark ('\\' :: c :: t)

/-- Whether a closing bracket of a level stands only at the end of a content and the bracket. -/
def LongContent (level : Nat) (content : Text) : Prop :=
  ¬ (Delimiter.long level).closing <:+: (content ++ (Delimiter.long level).closing).dropLast

/-- Whether a text is a string literal. -/
inductive IsStringLiteral : Text → Prop
  | quoted {mark : Char} {content : Text} (hmark : mark = '"' ∨ mark = '\'')
      (h : QuotedContent mark content) : IsStringLiteral ((Delimiter.quote mark).enclose content)
  | long {level : Nat} {content : Text} (h : LongContent level content) :
      IsStringLiteral ((Delimiter.long level).enclose content)

/-- A terminal of the grammar. -/
inductive Terminal where
  | word (text : Text) (h : isWord text = true)
  | number (text : Text) (h : IsNumeral text)
  | symbol (text : Text) (h : text ∈ luaSymbols)
  | string (text : Text) (h : IsStringLiteral text)

namespace Terminal

/-- A terminal as it is written. -/
def text : Terminal → Text
  | word t _ => t
  | number t _ => t
  | symbol t _ => t
  | string t _ => t

/-- What lines and scopes know of a terminal. -/
def mark : Terminal → Mark
  | word t _ => .word t
  | number _ _ => .number
  | symbol t _ => .symbol t
  | string _ _ => .string

/-- A keyword. -/
def keyword (w : String) (h : isWord w.toList = true := by decide) : Terminal :=
  word w.toList h

/-- A symbol. -/
def sign (s : String) (h : s.toList ∈ luaSymbols := by decide) : Terminal :=
  symbol s.toList h

/-- Whether a terminal is an expression. -/
def isAtom (t : Terminal) : Bool :=
  match t with
  | word _ _ => t.mark.isWordOf ["nil", "true", "false"]
  | number _ _ => true
  | symbol _ _ => t.mark.isSymbolOf ["..."]
  | string _ _ => true

/-- Whether a terminal is an operator between two operands. -/
def isBinary (t : Terminal) : Bool :=
  t.mark.isWordOf ["and", "or"] ||
    t.mark.isSymbolOf ["+", "-", "*", "/", "%", "^", "..", "==", "~=", "<=", ">=", "<", ">"]

/-- Whether a terminal is an operator in front of an operand. -/
def isUnary (t : Terminal) : Bool :=
  t.mark.isWordOf ["not"] || t.mark.isSymbolOf ["-", "#"]

end Terminal

/-- A word that can name something. -/
structure Identifier where
  text : Text
  isWord : isWord text = true
  notKeyword : isKeyword text = false

/-- A name as a terminal. -/
def Identifier.terminal (n : Identifier) : Terminal :=
  .word n.text n.isWord

/-- Names with commas between them. -/
def commaNames (n : Identifier) (ns : List Identifier) : List Terminal :=
  n.terminal :: ns.flatMap fun m => [.sign ",", m.terminal]

/-- The parameters of a function. -/
structure Parameters where
  names : List Identifier
  vararg : Bool

/-- What stands between the parentheses of parameters. -/
def Parameters.listed (ps : Parameters) : List Terminal :=
  match ps.names, ps.vararg with
  | [], false => []
  | [], true => [.sign "..."]
  | n :: ns, false => commaNames n ns
  | n :: ns, true => commaNames n ns ++ [.sign ",", .sign "..."]

/-- The terminals of parameters, with their parentheses. -/
def Parameters.terminals (ps : Parameters) : List Terminal :=
  .sign "(" :: ps.listed ++ [.sign ")"]

/-- The name of a function that is not local: a name, fields of it, and perhaps a method. -/
structure FunctionName where
  root : Identifier
  fields : List Identifier
  method : Option Identifier

/-- The terminals of the method in the name of a function. -/
def FunctionName.methodTerminals (n : FunctionName) : List Terminal :=
  match n.method with
  | none => []
  | some m => [.sign ":", m.terminal]

/-- The terminals of the name of a function. -/
def FunctionName.terminals (n : FunctionName) : List Terminal :=
  n.root.terminal :: (n.fields.flatMap fun m => [.sign ".", m.terminal]) ++ n.methodTerminals

/-! ## Trees -/

/-- What an operand without operators is. -/
inductive Primary where
  | variable
  | call
  /-- an expression in parentheses -/
  | group
  deriving DecidableEq

/-- The categories of the grammar. -/
inductive Cat where
  | block
  | stat
  /-- the last statement of a block -/
  | final
  /-- what follows the first branch of an `if` -/
  | clauses
  | exp
  /-- expressions with commas between them -/
  | exps
  | primary (kind : Primary)
  | args
  | fields
  | field
  /-- variables with commas between them -/
  | targets
  deriving DecidableEq

/-- The derivation trees of a category. -/
inductive Tree : Cat → Type
  -- blocks; a statement may have a semicolon after it
  | done : Tree .block
  | next (s : Tree .stat) (semicolon : Bool) (rest : Tree .block) : Tree .block
  | last (s : Tree .final) (semicolon : Bool) : Tree .block
  | leave : Tree .final
  | giveNothing : Tree .final
  | give (es : Tree .exps) : Tree .final
  -- statements
  | assign (ts : Tree .targets) (es : Tree .exps) : Tree .stat
  | run (call : Tree (.primary .call)) : Tree .stat
  | doBlock (b : Tree .block) : Tree .stat
  | whileLoop (e : Tree .exp) (b : Tree .block) : Tree .stat
  | repeatLoop (b : Tree .block) (e : Tree .exp) : Tree .stat
  | branch (e : Tree .exp) (b : Tree .block) (rest : Tree .clauses) : Tree .stat
  | countLoop (n : Identifier) (es : Tree .exps) (b : Tree .block) : Tree .stat
  | eachLoop (n : Identifier) (ns : List Identifier) (es : Tree .exps) (b : Tree .block) :
      Tree .stat
  | function (fn : FunctionName) (ps : Parameters) (b : Tree .block) : Tree .stat
  | localFunction (n : Identifier) (ps : Parameters) (b : Tree .block) : Tree .stat
  | localNames (n : Identifier) (ns : List Identifier) : Tree .stat
  | localValues (n : Identifier) (ns : List Identifier) (es : Tree .exps) : Tree .stat
  -- the other branches of an `if`
  | endIf : Tree .clauses
  | elseBlock (b : Tree .block) : Tree .clauses
  | elseIf (e : Tree .exp) (b : Tree .block) (rest : Tree .clauses) : Tree .clauses
  -- expressions
  | one (e : Tree .exp) : Tree .exps
  | more (e : Tree .exp) (es : Tree .exps) : Tree .exps
  | atom (t : Terminal) (h : t.isAtom = true) : Tree .exp
  | lambda (ps : Parameters) (b : Tree .block) : Tree .exp
  | operand {kind : Primary} (p : Tree (.primary kind)) : Tree .exp
  | table (fs : Tree .fields) : Tree .exp
  | binary (a : Tree .exp) (operator : Terminal) (h : operator.isBinary = true) (b : Tree .exp) :
      Tree .exp
  | unary (operator : Terminal) (h : operator.isUnary = true) (e : Tree .exp) : Tree .exp
  -- operands
  | name (n : Identifier) : Tree (.primary .variable)
  | index {kind : Primary} (p : Tree (.primary kind)) (e : Tree .exp) : Tree (.primary .variable)
  | member {kind : Primary} (p : Tree (.primary kind)) (n : Identifier) :
      Tree (.primary .variable)
  | call {kind : Primary} (p : Tree (.primary kind)) (as : Tree .args) : Tree (.primary .call)
  | method {kind : Primary} (p : Tree (.primary kind)) (n : Identifier) (as : Tree .args) :
      Tree (.primary .call)
  | group (e : Tree .exp) : Tree (.primary .group)
  | noArgs : Tree .args
  | listArgs (es : Tree .exps) : Tree .args
  | tableArgs (fs : Tree .fields) : Tree .args
  | stringArgs (t : Text) (h : IsStringLiteral t) : Tree .args
  -- table constructors; fields are separated by semicolons or commas
  | noFields : Tree .fields
  | lastField (f : Tree .field) : Tree .fields
  | moreFields (f : Tree .field) (semicolon : Bool) (fs : Tree .fields) : Tree .fields
  | keyed (k v : Tree .exp) : Tree .field
  | named (n : Identifier) (v : Tree .exp) : Tree .field
  | item (e : Tree .exp) : Tree .field
  -- targets of an assignment
  | oneTarget (v : Tree (.primary .variable)) : Tree .targets
  | moreTargets (v : Tree (.primary .variable)) (ts : Tree .targets) : Tree .targets

/-- The semicolon after a statement, if there is one. -/
def semicolonIf (semicolon : Bool) : List Terminal :=
  if semicolon then [.sign ";"] else []

/-- The sign between two fields. -/
def fieldSign (semicolon : Bool) : Terminal :=
  if semicolon then .sign ";" else .sign ","

namespace Tree

open Terminal in
/-- The terminals of a tree from left to right. -/
def terminals : {c : Cat} → Tree c → List Terminal
  | _, done => []
  | _, next s semicolon rest => s.terminals ++ semicolonIf semicolon ++ rest.terminals
  | _, last s semicolon => s.terminals ++ semicolonIf semicolon
  | _, leave => [keyword "break"]
  | _, giveNothing => [keyword "return"]
  | _, give es => keyword "return" :: es.terminals
  | _, assign ts es => ts.terminals ++ sign "=" :: es.terminals
  | _, run p => p.terminals
  | _, doBlock b => keyword "do" :: b.terminals ++ [keyword "end"]
  | _, whileLoop e b =>
    keyword "while" :: e.terminals ++ keyword "do" :: b.terminals ++ [keyword "end"]
  | _, repeatLoop b e => keyword "repeat" :: b.terminals ++ keyword "until" :: e.terminals
  | _, branch e b rest =>
    keyword "if" :: e.terminals ++ keyword "then" :: b.terminals ++ rest.terminals
  | _, countLoop n es b =>
    keyword "for" :: n.terminal :: sign "=" :: es.terminals ++ keyword "do" :: b.terminals ++
      [keyword "end"]
  | _, eachLoop n ns es b =>
    keyword "for" :: commaNames n ns ++ keyword "in" :: es.terminals ++
      keyword "do" :: b.terminals ++ [keyword "end"]
  | _, function fn ps b =>
    keyword "function" :: fn.terminals ++ ps.terminals ++ b.terminals ++ [keyword "end"]
  | _, localFunction n ps b =>
    keyword "local" :: keyword "function" :: n.terminal :: ps.terminals ++ b.terminals ++
      [keyword "end"]
  | _, localNames n ns => keyword "local" :: commaNames n ns
  | _, localValues n ns es => keyword "local" :: commaNames n ns ++ sign "=" :: es.terminals
  | _, endIf => [keyword "end"]
  | _, elseBlock b => keyword "else" :: b.terminals ++ [keyword "end"]
  | _, elseIf e b rest =>
    keyword "elseif" :: e.terminals ++ keyword "then" :: b.terminals ++ rest.terminals
  | _, one e => e.terminals
  | _, more e es => e.terminals ++ sign "," :: es.terminals
  | _, atom t _ => [t]
  | _, lambda ps b => keyword "function" :: ps.terminals ++ b.terminals ++ [keyword "end"]
  | _, operand p => p.terminals
  | _, table fs => sign "\x7b" :: fs.terminals ++ [sign "\x7d"]
  | _, binary a operator _ b => a.terminals ++ operator :: b.terminals
  | _, unary operator _ e => operator :: e.terminals
  | _, name n => [n.terminal]
  | _, index p e => p.terminals ++ sign "[" :: e.terminals ++ [sign "]"]
  | _, member p n => p.terminals ++ [sign ".", n.terminal]
  | _, call p as => p.terminals ++ as.terminals
  | _, method p n as => p.terminals ++ sign ":" :: n.terminal :: as.terminals
  | _, group e => sign "(" :: e.terminals ++ [sign ")"]
  | _, noArgs => [sign "(", sign ")"]
  | _, listArgs es => sign "(" :: es.terminals ++ [sign ")"]
  | _, tableArgs fs => sign "\x7b" :: fs.terminals ++ [sign "\x7d"]
  | _, stringArgs t h => [.string t h]
  | _, noFields => []
  | _, lastField f => f.terminals
  | _, moreFields f semicolon fs => f.terminals ++ fieldSign semicolon :: fs.terminals
  | _, keyed k v => sign "[" :: k.terminals ++ sign "]" :: sign "=" :: v.terminals
  | _, named n v => n.terminal :: sign "=" :: v.terminals
  | _, item e => e.terminals
  | _, oneTarget v => v.terminals
  | _, moreTargets v ts => v.terminals ++ sign "," :: ts.terminals

/-- The number of terminals of a tree. -/
def size {c : Cat} (t : Tree c) : Nat :=
  t.terminals.length

end Tree

/-! ## Parts -/

/-- A terminal or a tree. -/
inductive Part where
  | terminal (t : Terminal)
  | tree {c : Cat} (t : Tree c)

/-- Some terminals as parts. -/
def Part.ofTerminals (ts : List Terminal) : List Part :=
  ts.map Part.terminal

@[simp] theorem Part.ofTerminals_nil : ofTerminals [] = [] := rfl

@[simp] theorem Part.ofTerminals_cons (t : Terminal) (ts : List Terminal) :
    ofTerminals (t :: ts) = terminal t :: ofTerminals ts := rfl

theorem Part.ofTerminals_append (ts us : List Terminal) :
    ofTerminals (ts ++ us) = ofTerminals ts ++ ofTerminals us := by
  simp [ofTerminals]

open LuaVeil.Part LuaVeil.Terminal in
/-- The parts that a tree is put together from. Those of a block are its statements and semicolons. -/
def Tree.parts : {c : Cat} → Tree c → List Part
  | _, done => []
  | _, next s semicolon rest => tree s :: ofTerminals (semicolonIf semicolon) ++ rest.parts
  | _, last s semicolon => tree s :: ofTerminals (semicolonIf semicolon)
  | _, leave => [terminal (keyword "break")]
  | _, giveNothing => [terminal (keyword "return")]
  | _, give es => [terminal (keyword "return"), tree es]
  | _, assign ts es => [tree ts, terminal (sign "="), tree es]
  | _, run p => [tree p]
  | _, doBlock b => [terminal (keyword "do"), tree b, terminal (keyword "end")]
  | _, whileLoop e b =>
    [terminal (keyword "while"), tree e, terminal (keyword "do"), tree b, terminal (keyword "end")]
  | _, repeatLoop b e => [terminal (keyword "repeat"), tree b, terminal (keyword "until"), tree e]
  | _, branch e b rest =>
    [terminal (keyword "if"), tree e, terminal (keyword "then"), tree b, tree rest]
  | _, countLoop n es b =>
    ofTerminals [keyword "for", n.terminal, sign "="] ++
      [tree es, terminal (keyword "do"), tree b, terminal (keyword "end")]
  | _, eachLoop n ns es b =>
    ofTerminals (keyword "for" :: commaNames n ns ++ [keyword "in"]) ++
      [tree es, terminal (keyword "do"), tree b, terminal (keyword "end")]
  | _, function fn ps b =>
    ofTerminals (keyword "function" :: fn.terminals ++ ps.terminals) ++
      [tree b, terminal (keyword "end")]
  | _, localFunction n ps b =>
    ofTerminals (keyword "local" :: keyword "function" :: n.terminal :: ps.terminals) ++
      [tree b, terminal (keyword "end")]
  | _, localNames n ns => ofTerminals (keyword "local" :: commaNames n ns)
  | _, localValues n ns es =>
    ofTerminals (keyword "local" :: commaNames n ns ++ [sign "="]) ++ [tree es]
  | _, endIf => [terminal (keyword "end")]
  | _, elseBlock b => [terminal (keyword "else"), tree b, terminal (keyword "end")]
  | _, elseIf e b rest =>
    [terminal (keyword "elseif"), tree e, terminal (keyword "then"), tree b, tree rest]
  | _, one e => [tree e]
  | _, more e es => [tree e, terminal (sign ","), tree es]
  | _, atom t _ => [terminal t]
  | _, lambda ps b =>
    ofTerminals (keyword "function" :: ps.terminals) ++ [tree b, terminal (keyword "end")]
  | _, operand p => [tree p]
  | _, table fs => [terminal (sign "\x7b"), tree fs, terminal (sign "\x7d")]
  | _, binary a operator _ b => [tree a, terminal operator, tree b]
  | _, unary operator _ e => [terminal operator, tree e]
  | _, name n => [terminal n.terminal]
  | _, index p e => [tree p, terminal (sign "["), tree e, terminal (sign "]")]
  | _, member p n => [tree p, terminal (sign "."), terminal n.terminal]
  | _, call p as => [tree p, tree as]
  | _, method p n as => [tree p, terminal (sign ":"), terminal n.terminal, tree as]
  | _, group e => [terminal (sign "("), tree e, terminal (sign ")")]
  | _, noArgs => [terminal (sign "("), terminal (sign ")")]
  | _, listArgs es => [terminal (sign "("), tree es, terminal (sign ")")]
  | _, tableArgs fs => [terminal (sign "\x7b"), tree fs, terminal (sign "\x7d")]
  | _, stringArgs t h => [terminal (.string t h)]
  | _, noFields => []
  | _, lastField f => [tree f]
  | _, moreFields f semicolon fs => [tree f, terminal (fieldSign semicolon), tree fs]
  | _, keyed k v =>
    [terminal (sign "["), tree k, terminal (sign "]"), terminal (sign "="), tree v]
  | _, named n v => [terminal n.terminal, terminal (sign "="), tree v]
  | _, item e => [tree e]
  | _, oneTarget v => [tree v]
  | _, moreTargets v ts => [tree v, terminal (sign ","), tree ts]

/-- The terminals of a part. -/
def Part.terminals : Part → List Terminal
  | terminal t => [t]
  | tree t => t.terminals

/-- Whether a part is a terminal or a tree with property `P`. -/
def Part.Satisfies (P : ∀ {c : Cat}, Tree c → Prop) : Part → Prop
  | terminal _ => True
  | tree t => P t

@[simp] theorem Part.satisfies_terminal {P : ∀ {c : Cat}, Tree c → Prop} {t : Terminal} :
    (terminal t).Satisfies P ↔ True := Iff.rfl

@[simp] theorem Part.satisfies_tree {P : ∀ {c : Cat}, Tree c → Prop} {c : Cat} {t : Tree c} :
    (tree t).Satisfies P ↔ P t := Iff.rfl

@[simp] theorem Part.forall_satisfies_ofTerminals {P : ∀ {c : Cat}, Tree c → Prop}
    {ts : List Terminal} : (∀ p ∈ ofTerminals ts, p.Satisfies P) ↔ True := by
  simp [ofTerminals]

@[simp] theorem Part.flatMap_terminals_ofTerminals (ts : List Terminal) :
    (ofTerminals ts).flatMap Part.terminals = ts := by
  simp [ofTerminals, List.flatMap_map, Part.terminals]

namespace Tree

/-- The terminals of a tree are those of its parts. -/
theorem terminals_eq_flatMap_parts {c : Cat} (t : Tree c) :
    t.terminals = t.parts.flatMap Part.terminals := by
  induction t with
  | next s semicolon rest _ ih =>
    simp [terminals, parts, Part.terminals, ih]
  | _ => simp [terminals, parts, Part.terminals]

/-- What holds of a tree if it holds of the trees among its parts holds of all trees. -/
theorem induction_on_parts {P : ∀ {c : Cat}, Tree c → Prop}
    (step : ∀ {c : Cat} (t : Tree c), (∀ p ∈ t.parts, p.Satisfies P) → P t) {c : Cat}
    (t : Tree c) : P t := by
  -- the parts of a block are those of its rest and more, so the parts are carried along
  suffices h : P t ∧ ∀ p ∈ t.parts, p.Satisfies P from h.1
  suffices h : ∀ p ∈ t.parts, p.Satisfies P from ⟨step t h, h⟩
  induction t with
  | next s semicolon rest ihs ihrest =>
    simp only [parts, List.cons_append, List.forall_mem_cons, List.forall_mem_append]
    exact ⟨step s ihs, Part.forall_satisfies_ofTerminals.2 trivial, ihrest⟩
  | _ =>
    simp_all [parts, or_imp]

end Tree
end LuaVeil
