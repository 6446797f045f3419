/-
# Lexical scoping

Every name that stands in a script has a role: it declares a local variable, it
is bound to one that is visible where it stands, or it is anything else, such as
a global, a field or a key. `Tree.roles` gives the role of each terminal of a
tree, in an environment that lists the names visible around the tree.

* The names of a `local` statement are visible after it, and not in its
  expressions; a local function is visible in itself as well.
* Parameters and the variables of a loop are visible in the body, and a method has
  the parameter `self` too.
* What the body of a `repeat` declares is visible in the condition after `until`.

Main statement: `length_roles`, a tree has as many roles as terminals.
-/
import LuaVeil.Proofs.Grammar.Tree
import LuaVeil.Scope.Resolution

namespace LuaVeil

/-! ## Roles -/

/-- What a terminal is for the scopes around it. -/
inductive Role where
  /-- a name that declares a local variable -/
  | declaration
  /-- a name that stands for a local variable -/
  | bound
  | other
  deriving DecidableEq

/-- The role of a name that stands for a variable. -/
def useRole (env : List Name) (n : Identifier) : Role :=
  if env.contains n.text then .bound else .other

/-- The roles of terminals among which the names are declared. -/
def declaredRoles (ts : List Terminal) : List Role :=
  ts.map fun t => if t.mark.isName then .declaration else .other

/-- The roles of terminals that have nothing to do with scopes. -/
def otherRoles (ts : List Terminal) : List Role :=
  ts.map fun _ => .other

/-- The texts of some names. -/
def texts (ns : List Identifier) : List Name :=
  ns.map Identifier.text

/-- The name of the parameter that a function with this name has without writing it. -/
def FunctionName.receiver (fn : FunctionName) : List Name :=
  if fn.method.isSome then ["self".toList] else []

namespace Tree

/-- The names that a statement makes visible after it, and a block at its end. -/
def binds : {c : Cat} → Tree c → List Name
  | _, next s _ rest => rest.binds ++ s.binds
  | _, localFunction n _ _ => [n.text]
  | _, localNames n ns => texts (n :: ns)
  | _, localValues n ns _ => texts (n :: ns)
  | _, _ => []

/-- The roles of the terminals of a tree, given the names that are visible around it. -/
def roles (env : List Name) : {c : Cat} → Tree c → List Role
  | _, done => []
  | _, next s semicolon rest =>
    s.roles env ++ otherRoles (semicolonIf semicolon) ++ rest.roles (s.binds ++ env)
  | _, last s semicolon => s.roles env ++ otherRoles (semicolonIf semicolon)
  | _, leave => [.other]
  | _, giveNothing => [.other]
  | _, give es => .other :: es.roles env
  | _, assign ts es => ts.roles env ++ .other :: es.roles env
  | _, run p => p.roles env
  | _, doBlock b => .other :: b.roles env ++ [.other]
  | _, whileLoop e b => .other :: e.roles env ++ .other :: b.roles env ++ [.other]
  | _, repeatLoop b e => .other :: b.roles env ++ .other :: e.roles (b.binds ++ env)
  | _, branch e b rest => .other :: e.roles env ++ .other :: b.roles env ++ rest.roles env
  | _, countLoop n es b =>
    .other :: .declaration :: .other :: es.roles env ++ .other :: b.roles (n.text :: env) ++ [.other]
  | _, eachLoop n ns es b =>
    .other :: declaredRoles (commaNames n ns) ++ .other :: es.roles env ++
      .other :: b.roles (texts (n :: ns) ++ env) ++ [.other]
  | _, function fn ps b =>
    .other :: useRole env fn.root :: otherRoles fn.terminals.tail ++ declaredRoles ps.terminals ++
      b.roles (texts ps.names ++ fn.receiver ++ env) ++ [.other]
  | _, localFunction n ps b =>
    .other :: .other :: .declaration :: declaredRoles ps.terminals ++
      b.roles (texts ps.names ++ n.text :: env) ++ [.other]
  | _, localNames n ns => .other :: declaredRoles (commaNames n ns)
  | _, localValues n ns es =>
    .other :: declaredRoles (commaNames n ns) ++ .other :: es.roles env
  | _, endIf => [.other]
  | _, elseBlock b => .other :: b.roles env ++ [.other]
  | _, elseIf e b rest => .other :: e.roles env ++ .other :: b.roles env ++ rest.roles env
  | _, one e => e.roles env
  | _, more e es => e.roles env ++ .other :: es.roles env
  | _, atom _ _ => [.other]
  | _, lambda ps b =>
    .other :: declaredRoles ps.terminals ++ b.roles (texts ps.names ++ env) ++ [.other]
  | _, operand p => p.roles env
  | _, table fs => .other :: fs.roles env ++ [.other]
  | _, binary a _ _ b => a.roles env ++ .other :: b.roles env
  | _, unary _ _ e => .other :: e.roles env
  | _, name n => [useRole env n]
  | _, index p e => p.roles env ++ .other :: e.roles env ++ [.other]
  | _, member p _ => p.roles env ++ [.other, .other]
  | _, call p as => p.roles env ++ as.roles env
  | _, method p _ as => p.roles env ++ .other :: .other :: as.roles env
  | _, group e => .other :: e.roles env ++ [.other]
  | _, noArgs => [.other, .other]
  | _, listArgs es => .other :: es.roles env ++ [.other]
  | _, tableArgs fs => .other :: fs.roles env ++ [.other]
  | _, stringArgs _ _ => [.other]
  | _, noFields => []
  | _, lastField f => f.roles env
  | _, moreFields f _ fs => f.roles env ++ .other :: fs.roles env
  | _, keyed k v => .other :: k.roles env ++ .other :: .other :: v.roles env
  | _, named _ v => .other :: .other :: v.roles env
  | _, item e => e.roles env
  | _, oneTarget v => v.roles env
  | _, moreTargets v ts => v.roles env ++ .other :: ts.roles env

/-- A tree has as many roles as terminals. -/
theorem length_roles {c : Cat} (t : Tree c) (env : List Name) :
    (t.roles env).length = t.terminals.length := by
  induction t generalizing env with
  | function fn ps b ih =>
    simp [roles, terminals, otherRoles, declaredRoles, FunctionName.terminals, ih, Nat.add_assoc]
  | _ => simp_all [roles, terminals, otherRoles, declaredRoles]

/-! ## Scripts with one reading -/

/--
Whether the statements of a tree are told apart. A statement that begins with a parenthesis has a
semicolon in front of it, unless it is first in its block. Where the innermost open bracket is the
brace of a table, as `braces` says, no semicolon follows a statement and an assignment has one
target.
-/
def IsPlain : (braces : Bool) → {c : Cat} → Tree c → Prop
  | braces, _, next s semicolon rest => s.IsPlain braces ∧ rest.IsPlain braces ∧
      (semicolon = true ∨ rest.terminals.head?.any (fun t => t.mark.isSymbolOf ["("]) = false) ∧
      (braces = true → semicolon = false)
  | braces, _, last s semicolon => s.IsPlain braces ∧ (braces = true → semicolon = false)
  | braces, _, give es => es.IsPlain braces
  | braces, _, assign ts es => ts.IsPlain braces ∧ es.IsPlain braces
  | braces, _, run p => p.IsPlain braces
  | braces, _, doBlock b => b.IsPlain braces
  | braces, _, whileLoop e b => e.IsPlain braces ∧ b.IsPlain braces
  | braces, _, repeatLoop b e => b.IsPlain braces ∧ e.IsPlain braces
  | braces, _, branch e b rest => e.IsPlain braces ∧ b.IsPlain braces ∧ rest.IsPlain braces
  | braces, _, countLoop _ es b => es.IsPlain braces ∧ b.IsPlain braces
  | braces, _, eachLoop _ _ es b => es.IsPlain braces ∧ b.IsPlain braces
  | braces, _, function _ _ b => b.IsPlain braces
  | braces, _, localFunction _ _ b => b.IsPlain braces
  | braces, _, localValues _ _ es => es.IsPlain braces
  | braces, _, elseBlock b => b.IsPlain braces
  | braces, _, elseIf e b rest => e.IsPlain braces ∧ b.IsPlain braces ∧ rest.IsPlain braces
  | braces, _, one e => e.IsPlain braces
  | braces, _, more e es => e.IsPlain braces ∧ es.IsPlain braces
  | braces, _, lambda _ b => b.IsPlain braces
  | braces, _, operand p => p.IsPlain braces
  | _, _, table fs => fs.IsPlain true
  | braces, _, binary a _ _ b => a.IsPlain braces ∧ b.IsPlain braces
  | braces, _, unary _ _ e => e.IsPlain braces
  | braces, _, index p e => p.IsPlain braces ∧ e.IsPlain false
  | braces, _, member p _ => p.IsPlain braces
  | braces, _, call p as => p.IsPlain braces ∧ as.IsPlain braces
  | braces, _, method p _ as => p.IsPlain braces ∧ as.IsPlain braces
  | _, _, group e => e.IsPlain false
  | _, _, listArgs es => es.IsPlain false
  | _, _, tableArgs fs => fs.IsPlain true
  | braces, _, lastField f => f.IsPlain braces
  | braces, _, moreFields f _ fs => f.IsPlain braces ∧ fs.IsPlain braces
  | braces, _, keyed k v => k.IsPlain false ∧ v.IsPlain braces
  | braces, _, named _ v => v.IsPlain braces
  | braces, _, item e => e.IsPlain braces
  | braces, _, oneTarget v => v.IsPlain braces
  | braces, _, moreTargets v ts => braces = false ∧ v.IsPlain braces ∧ ts.IsPlain braces
  | _, _, _ => True

end Tree

/-! ## Sites -/

/-- Whether an occurrence with a role is a site: it is local, and its name is not reserved. -/
def isLocalSite (reserved : Reserved) (o : Occurrence) (role : Role) : Bool :=
  role != .other && !reserved.contains o.mark.text

/-- The occurrences that are sites, given the role of each. -/
def localSites (reserved : Reserved) : List Occurrence → List Role → List Occurrence
  | o :: os, role :: roles =>
    if isLocalSite reserved o role then o :: localSites reserved os roles
    else localSites reserved os roles
  | _, _ => []

theorem localSites_append {reserved : Reserved} {os : List Occurrence} {rs : List Role}
    (h : os.length = rs.length) (os' : List Occurrence) (rs' : List Role) :
    localSites reserved (os ++ os') (rs ++ rs') =
      localSites reserved os rs ++ localSites reserved os' rs' := by
  induction os generalizing rs with
  | nil =>
    obtain rfl : rs = [] := List.length_eq_zero_iff.1 h.symm
    rfl
  | cons o os ih =>
    cases rs with
    | nil => simp at h
    | cons r rs =>
      have ih := ih (Nat.succ.inj h)
      simp only [List.cons_append, localSites, ih]
      split <;> rfl

end LuaVeil
