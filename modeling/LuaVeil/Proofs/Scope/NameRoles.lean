/-
# Roles of names

In the grammar a name is the key of a field in a table constructor, the name of a
field or method, or a variable. A walk takes a name for a key if the innermost open
bracket is the brace of a table, a brace, comma or semicolon stands in front of the
name, and `=` behind it. The body of a function opens no bracket, and so the last
target of an assignment in a function in a table is taken for a key as well, if it
is a plain name behind a comma or a semicolon.

`Tree.nameRoles` says of each terminal of a tree which kind of name it is, and
`Tree.IsRead` that a walk reads the names of a tree by their roles. It is proved here
for expressions and what they are made of, from the same for their parts.

Main statements: `isRead_name`, `isRead_table`, `isRead_named`, `isRead_moreTargets`
and their like, one for each production.
-/
import LuaVeil.Proofs.Scope.Readings
import LuaVeil.Proofs.Scope.Statements

namespace LuaVeil

open ScopeState

/-! ## Roles of names -/

/-- The part of a terminal among the names of a chunk. -/
inductive NameRole where
  /-- no name, or a name that a phrase takes without reading it -/
  | unread
  /-- the key of a field in a table constructor -/
  | key
  /-- the name of a field or a method -/
  | field
  | variable
  /-- the last target of an assignment, at a place where a field could begin -/
  | target
  deriving DecidableEq

namespace NameRole

/-- What a name with a role is taken for. -/
def reading? : NameRole → Option Reading
  | .unread => none
  | .key => some .key
  | .field => some .field
  | .variable => some .variable
  | .target => some .key

end NameRole

/-- The roles of terminals that are not read. -/
def unread (ts : List Terminal) : List NameRole :=
  ts.map fun _ => .unread

@[simp] theorem length_unread (ts : List Terminal) : (unread ts).length = ts.length :=
  List.length_map _

namespace Tree

/--
The roles of the terminals of a tree. The flag `braces` tells whether the innermost bracket around
the tree is the brace of a table. For blocks, statements and targets `leads` tells whether a field
could begin where the tree does; for an operand, whether it would be a key if it is a name.
-/
def nameRoles (braces leads : Bool) : {c : Cat} → Tree c → List NameRole
  | _, done => []
  | _, next s semicolon rest =>
    s.nameRoles braces leads ++ unread (semicolonIf semicolon) ++
      rest.nameRoles braces (braces && semicolon)
  | _, last s semicolon => s.nameRoles braces false ++ unread (semicolonIf semicolon)
  | _, leave => [.unread]
  | _, giveNothing => [.unread]
  | _, give es => .unread :: es.nameRoles braces false
  | _, assign ts es => ts.nameRoles braces leads ++ .unread :: es.nameRoles braces false
  | _, run p => p.nameRoles braces false
  | _, doBlock b => .unread :: b.nameRoles braces false ++ [.unread]
  | _, whileLoop e b =>
    .unread :: e.nameRoles braces false ++ .unread :: b.nameRoles braces false ++ [.unread]
  | _, repeatLoop b e =>
    .unread :: b.nameRoles braces false ++ .unread :: e.nameRoles braces false
  | _, branch e b rest =>
    .unread :: e.nameRoles braces false ++ .unread :: b.nameRoles braces false ++
      rest.nameRoles braces false
  | _, countLoop _ es b =>
    .unread :: .unread :: .unread :: es.nameRoles braces false ++
      .unread :: b.nameRoles braces false ++ [.unread]
  | _, eachLoop n ns es b =>
    .unread :: unread (commaNames n ns) ++ .unread :: es.nameRoles braces false ++
      .unread :: b.nameRoles braces false ++ [.unread]
  | _, function fn ps b =>
    .unread :: unread fn.terminals ++ unread ps.terminals ++ b.nameRoles braces false ++ [.unread]
  | _, localFunction _ ps b =>
    .unread :: .unread :: .unread :: unread ps.terminals ++ b.nameRoles braces false ++ [.unread]
  | _, localNames n ns => .unread :: unread (commaNames n ns)
  | _, localValues n ns es =>
    .unread :: unread (commaNames n ns) ++ .unread :: es.nameRoles braces false
  | _, endIf => [.unread]
  | _, elseBlock b => .unread :: b.nameRoles braces false ++ [.unread]
  | _, elseIf e b rest =>
    .unread :: e.nameRoles braces false ++ .unread :: b.nameRoles braces false ++
      rest.nameRoles braces false
  | _, one e => e.nameRoles braces false
  | _, more e es => e.nameRoles braces false ++ .unread :: es.nameRoles braces false
  | _, atom _ _ => [.unread]
  | _, lambda ps b => .unread :: unread ps.terminals ++ b.nameRoles braces false ++ [.unread]
  | _, operand p => p.nameRoles braces false
  | _, table fs => .unread :: fs.nameRoles true false ++ [.unread]
  | _, binary a _ _ b => a.nameRoles braces false ++ .unread :: b.nameRoles braces false
  | _, unary _ _ e => .unread :: e.nameRoles braces false
  | _, name _ => [if leads then .target else .variable]
  | _, index p e => p.nameRoles braces false ++ .unread :: e.nameRoles false false ++ [.unread]
  | _, member p _ => p.nameRoles braces false ++ [.unread, .field]
  | _, call p as => p.nameRoles braces false ++ as.nameRoles braces false
  | _, method p _ as =>
    p.nameRoles braces false ++ .unread :: .field :: as.nameRoles braces false
  | _, group e => .unread :: e.nameRoles false false ++ [.unread]
  | _, noArgs => [.unread, .unread]
  | _, listArgs es => .unread :: es.nameRoles false false ++ [.unread]
  | _, tableArgs fs => .unread :: fs.nameRoles true false ++ [.unread]
  | _, stringArgs _ _ => [.unread]
  | _, noFields => []
  | _, lastField f => f.nameRoles braces false
  | _, moreFields f _ fs => f.nameRoles braces false ++ .unread :: fs.nameRoles braces false
  | _, keyed k v =>
    .unread :: k.nameRoles false false ++ .unread :: .unread :: v.nameRoles braces false
  | _, named _ v => .key :: .unread :: v.nameRoles braces false
  | _, item e => e.nameRoles braces false
  | _, oneTarget v => v.nameRoles braces leads
  | _, moreTargets v ts => v.nameRoles braces false ++ .unread :: ts.nameRoles braces braces

/-- A tree has as many roles as terminals. -/
theorem length_nameRoles {c : Cat} (t : Tree c) (braces leads : Bool) :
    (t.nameRoles braces leads).length = t.terminals.length := by
  induction t generalizing braces leads with
  | _ => simp [nameRoles, terminals, Nat.add_assoc, *]

end Tree

/-- The occurrences that are read, and what they are taken for, given the role of each. -/
def readAs : List Occurrence → List NameRole → List (Occurrence × Reading)
  | o :: os, role :: roles => (role.reading?.map (Prod.mk o)).toList ++ readAs os roles
  | _, _ => []

section

variable {o : Occurrence} {os : List Occurrence}

@[simp] theorem readAs_nil (roles : List NameRole) : readAs [] roles = [] := rfl

@[simp] theorem readAs_unread (o : Occurrence) (os : List Occurrence) (roles : List NameRole) :
    readAs (o :: os) (.unread :: roles) = readAs os roles := rfl

theorem readAs_append {rs : List NameRole} (h : os.length = rs.length) (os' : List Occurrence)
    (rs' : List NameRole) : readAs (os ++ os') (rs ++ rs') = readAs os rs ++ readAs os' rs' := by
  induction os generalizing rs with
  | nil =>
    obtain rfl : rs = [] := List.length_eq_zero_iff.1 h.symm
    rfl
  | cons o os ih =>
    cases rs with
    | nil => simp at h
    | cons r rs => simp only [List.cons_append, readAs, ih (Nat.succ.inj h), List.append_assoc]

/-- The names of a tree come first. -/
theorem readAs_tree {c : Cat} {t : Tree c} (hos : Spells os t.terminals) (braces leads : Bool)
    (os' : List Occurrence) (rs : List NameRole) :
    readAs (os ++ os') (t.nameRoles braces leads ++ rs) =
      readAs os (t.nameRoles braces leads) ++ readAs os' rs :=
  readAs_append (hos.length_eq.trans (t.length_nameRoles braces leads).symm) os' rs

/-- In a phrase that is not read there is nothing. -/
theorem readAs_of_unread (os : List Occurrence) (ts : List Terminal) :
    readAs os (unread ts) = [] := by
  induction ts generalizing os with
  | nil => cases os <;> rfl
  | cons t ts ih =>
    cases os with
    | nil => rfl
    | cons o os => exact ih os

theorem readAs_phrase {ts : List Terminal} (hos : Spells os ts) (os' : List Occurrence)
    (rs : List NameRole) : readAs (os ++ os') (unread ts ++ rs) = readAs os' rs := by
  rw [readAs_append (by rw [hos.length_eq, length_unread]), readAs_of_unread,
    List.nil_append]

end

/-! ## Where trees begin and end -/

namespace Cat

/--
Where a walk comes upon a tree of a category, which `rest` follows. The flag `leads` is that of
`Tree.nameRoles`.
-/
def Begins (brackets : List Text) (f : Option Mark) (leads : Bool) (rest : List Occurrence) :
    Cat → Prop
  | .block | .stat =>
    f.any leadsToField = false ∧ leads = startsField (bare brackets) f ∧
      (firstMark rest).any (Mark.isSymbolOf ["<", ":", ",", "="]) = false
  | .final | .exp | .exps =>
    f.any leadsToField = false ∧ (firstMark rest).any (Mark.isSymbolOf ["="]) = false
  | .primary _ =>
    f.any leadsToField = false ∧
      leads = (startsField (bare brackets) f && (firstMark rest).any (Mark.isSymbolOf ["="]))
  | .targets =>
    f.any leadsToField = false ∧ leads = startsField (bare brackets) f ∧
      (firstMark rest).any (Mark.isSymbolOf ["="]) = true
  | .fields | .field =>
    startsField (bare brackets) f = true ∧ (firstMark rest).any (Mark.isSymbolOf ["="]) = false
  | .clauses | .args => True

/-- Which marks can stand at the end of a tree of a category. -/
def Ends (f : Option Mark) : Cat → Prop
  | .block | .final | .fields | .field => True
  | _ => f.any Mark.endsOperand = true

end Cat

/-- Whether a walk over a tree reads its names by their roles. -/
def Tree.IsRead (reserved : Reserved) {c : Cat} (t : Tree c) : Prop :=
  ∀ (brackets f rest leads) ⦃os⦄, c.Begins brackets f leads rest → Spells os t.terminals →
    ∃ f', c.Ends f' ∧ readings reserved brackets f (os ++ rest) =
      readAs os (t.nameRoles (bare brackets).inBraces leads) ++ readings reserved brackets f' rest

section

variable {reserved : Reserved} {brackets : List Text} {f : Option Mark} {m : Mark} {o : Occurrence}
  {os rest : List Occurrence} {leads : Bool}

theorem firstMark_any {p : Mark → Bool} {t : Terminal} {b : Bool} (hmark : o.mark = t.mark)
    (hp : p t.mark = b) (os : List Occurrence) : (firstMark (o :: os)).any p = b := by
  rw [firstMark_cons, hmark]
  exact hp

/-- A mark that is one of some symbols is none of others. -/
theorem Mark.isSymbolOf_of_disjoint {symbols others : List String} (h : m.isSymbolOf symbols = true)
    (hdisjoint : ∀ s ∈ symbols, s ∉ others) : m.isSymbolOf others = false := by
  cases m with
  | symbol t =>
    simp only [isSymbolOf, List.any_eq_true, List.any_eq_false, beq_iff_eq] at h ⊢
    obtain ⟨s, hs, hst⟩ := h
    intro other hother heq
    exact hdisjoint s hs (String.toList_inj.1 (hst.trans heq.symm) ▸ hother)
  | word _ | number | string => rfl

/-- Behind what ends an operand no field is named and none begins. -/
theorem not_leadsToField_of_endsOperand (brackets : List Text) (h : f.any Mark.endsOperand = true) :
    f.any leadsToField = false ∧ startsField (bare brackets) f = false := by
  obtain ⟨m, rfl, hm⟩ := (Option.any_eq_true _ _).1 h
  refine ⟨?_, startsField_of_not (Mark.of_endsOperand hm).2⟩
  cases m with
  | symbol t =>
    have hcloses : (Mark.symbol t).isSymbolOf [")", "]", "\x7d", "..."] = true := hm
    exact Mark.isSymbolOf_of_disjoint hcloses (by decide)
  | word _ | number | string => rfl

/-- Where a field begins, none is named. -/
theorem not_leadsToField_of_startsField (h : startsField (bare brackets) f = true) :
    f.any leadsToField = false := by
  obtain ⟨-, hsign⟩ := Bool.and_eq_true_iff.1 h
  obtain ⟨m, rfl, hm⟩ := (Option.any_eq_true _ _).1 hsign
  exact Mark.isSymbolOf_of_disjoint hm (by decide)

/-! ## Names by the marks around them -/

theorem readings_variable {n : Identifier} (hhole : o.inHole = false)
    (hmark : o.mark = n.terminal.mark) (hfield : f.any leadsToField = false)
    (hleads : leads =
      (startsField (bare brackets) f && (firstMark os).any (Mark.isSymbolOf ["="]))) :
    readings reserved brackets f (o :: os) =
      readAs [o] [if leads then .target else .variable] ++
        readings reserved brackets (some o.mark) os := by
  have hname : o.mark.isName = true := by rw [hmark, isName_terminal]
  have hread : (bare brackets).read (.after f (o :: os)) = if leads then .key else .variable := by
    rw [ScopeState.read, isConstructorKey_after, ← hleads]
    show (if leads = true then _ else if f.any leadsToField = true then _ else _) = _
    rw [hfield]
    rfl
  rw [readings_name hhole hname, hread]
  cases leads <;> rfl

/-- A name behind a point or a colon is one of a field. -/
theorem readings_field {n : Identifier} (hhole : o.inHole = false)
    (hmark : o.mark = n.terminal.mark) (hm : leadsToField m = true) :
    readings reserved brackets (some m) (o :: os) =
      (o, .field) :: readings reserved brackets (some o.mark) os := by
  have hname : o.mark.isName = true := by rw [hmark, isName_terminal]
  have hstarts : startsField (bare brackets) (some m) = false :=
    startsField_of_not (Mark.isSymbolOf_of_disjoint hm (by decide))
  rw [readings_name hhole hname, ScopeState.read, isConstructorKey_after, hstarts]
  show (o, if leadsToField m = true then _ else _) :: _ = _
  rw [if_pos hm]

theorem readings_key {n : Identifier} (hhole : o.inHole = false) (hmark : o.mark = n.terminal.mark)
    (hstarts : startsField (bare brackets) f = true)
    (hequals : (firstMark os).any (Mark.isSymbolOf ["="]) = true) :
    readings reserved brackets f (o :: os) =
      (o, .key) :: readings reserved brackets (some o.mark) os := by
  have hname : o.mark.isName = true := by rw [hmark, isName_terminal]
  rw [readings_name hhole hname, ScopeState.read, isConstructorKey_after, hstarts, hequals]
  rfl

namespace Tree

/-! ## Brackets and blocks -/

/-- What is read in a tree between brackets. -/
theorem readings_enclosed {c : Cat} {t : Tree c} {a b : Text} {ha : a ∈ luaSymbols}
    {hb : b ∈ luaSymbols} (leads : Bool) (ht : t.IsRead reserved)
    (hos : Spells os (.symbol a ha :: t.terminals ++ [.symbol b hb]))
    (hopen : Mark.isSymbolOf Cursor.openBrackets (.symbol a) = true)
    (hnot : Mark.isSymbolOf Cursor.openBrackets (.symbol b) = false)
    (hclose : Mark.isSymbolOf Cursor.closeBrackets (.symbol b) = true)
    (hbegins : ∀ o, o.mark = (Terminal.symbol b hb).mark →
      c.Begins (a :: brackets) (some (.symbol a)) leads (o :: rest)) :
    readings reserved brackets f (os ++ rest) =
      readAs os (.unread :: t.nameRoles (bare (a :: brackets)).inBraces leads ++ [.unread]) ++
        readings reserved brackets (some (.symbol b)) rest := by
  obtain ⟨o, os₁, o', os₂, rfl, hmark, hhole, hos₁, hmark', hhole', hos₂⟩ := hos.between
  obtain rfl := spells_nil.1 hos₂
  obtain ⟨f', -, hread⟩ := ht _ _ _ _ (hbegins o' hmark') hos₁
  simp only [List.cons_append, List.append_assoc, readAs_unread, readAs_tree hos₁, readAs_nil,
    List.nil_append]
  rw [readings_open hhole hmark hopen, hmark]
  refine hread.trans (congrArg _ ?_)
  rw [readings_close hhole' hmark' hnot hclose, hmark']
  rfl

/-- A block begins behind a mark that belongs to no expression. -/
theorem IsRead.block {b : Tree .block} (hb : b.IsRead reserved) (brackets : List Text) (m : Mark)
    (rest : List Occurrence) (hfield : leadsToField m = false)
    (hsign : m.isSymbolOf ["\x7b", ",", ";"] = false) (hos : Spells os b.terminals)
    (hrest : (firstMark rest).any (Mark.isSymbolOf ["<", ":", ",", "="]) = false) :
    ∃ f', readings reserved brackets (some m) (os ++ rest) =
      readAs os (b.nameRoles (bare brackets).inBraces false) ++
        readings reserved brackets f' rest := by
  have hfield : (some m).any leadsToField = false := hfield
  obtain ⟨f', -, hread⟩ := hb brackets _ _ _ ⟨hfield, (startsField_of_not hsign).symm, hrest⟩ hos
  exact ⟨f', hread⟩

/-- What is read in a block up to its `end`. -/
theorem readings_body {b : Tree .block} (hb : b.IsRead reserved) (hfield : leadsToField m = false)
    (hsign : m.isSymbolOf ["\x7b", ",", ";"] = false)
    (hos : Spells os (b.terminals ++ [.keyword "end"])) :
    readings reserved brackets (some m) (os ++ rest) =
      readAs os (b.nameRoles (bare brackets).inBraces false ++ [.unread]) ++
        readings reserved brackets (some (Terminal.keyword "end").mark) rest := by
  obtain ⟨os₁, os₂, rfl, hos₁, hos₂⟩ := spells_append.1 hos
  obtain ⟨o, os₂, rfl, hmark, hhole, hos₂⟩ := spells_cons.1 hos₂
  obtain rfl := spells_nil.1 hos₂
  obtain ⟨f', hread⟩ := hb.block brackets m (o :: rest) hfield hsign hos₁
    (firstMark_any hmark (by decide) _)
  rw [List.append_assoc, List.singleton_append, hread, readAs_tree hos₁, readAs_unread, readAs_nil,
    List.append_nil, readings_passed hhole hmark (by decide), hmark]

/-! ## Operands -/

/-- A terminal that is no name is not read. -/
theorem isRead_single {c : Cat} {t : Tree c} {a : Terminal} (hterminals : t.terminals = [a])
    (hroles : ∀ braces leads, t.nameRoles braces leads = [.unread])
    (ha : passesOver a.mark = true) (hends : c.Ends (some a.mark)) : t.IsRead reserved := by
  rintro brackets f rest leads os - hos
  rw [hterminals] at hos
  obtain ⟨o, os, rfl, hmark, hhole, hos⟩ := spells_cons.1 hos
  obtain rfl := spells_nil.1 hos
  refine ⟨some o.mark, by rwa [hmark], ?_⟩
  rw [hroles, List.singleton_append, readings_passed hhole hmark ha, readAs_unread]
  rfl

theorem isRead_name (n : Identifier) : (name n).IsRead reserved := by
  rintro brackets f rest leads os ⟨hfield, hleads⟩ hos
  obtain ⟨o, os, rfl, hmark, hhole, hos⟩ := spells_cons.1 hos
  obtain rfl := spells_nil.1 hos
  refine ⟨some o.mark, Mark.endsOperand_of_isName (by rw [hmark, isName_terminal]), ?_⟩
  exact readings_variable hhole hmark hfield hleads

/-- What is read in an operand in front of a mark that is not `=`. -/
theorem IsRead.primary {kind : Primary} {p : Tree (.primary kind)} (hp : p.IsRead reserved)
    (brackets : List Text) (rest : List Occurrence) (hfield : f.any leadsToField = false)
    (hos : Spells os p.terminals)
    (hrest : (firstMark rest).any (Mark.isSymbolOf ["="]) = false) :
    ∃ f', f'.any Mark.endsOperand = true ∧ readings reserved brackets f (os ++ rest) =
      readAs os (p.nameRoles (bare brackets).inBraces false) ++
        readings reserved brackets f' rest :=
  hp brackets f rest false ⟨hfield, by rw [hrest, Bool.and_false]⟩ hos

theorem isRead_index {kind : Primary} {p : Tree (.primary kind)} {e : Tree .exp}
    (hp : p.IsRead reserved) (he : e.IsRead reserved) : (index p e).IsRead reserved := by
  rintro brackets f rest leads os ⟨hfield, -⟩ hos
  simp only [terminals, List.append_assoc] at hos
  obtain ⟨os₁, os₂, rfl, hos₁, hos₂⟩ := spells_append.1 hos
  have hnext : (firstMark (os₂ ++ rest)).any (Mark.isSymbolOf ["="]) = false := by
    obtain ⟨o, os₂, rfl, hmark, -, -⟩ := spells_cons.1 hos₂
    exact firstMark_any hmark (by decide) _
  obtain ⟨f₁, -, hread⟩ := hp.primary brackets (os₂ ++ rest) hfield hos₁ hnext
  refine ⟨some (Terminal.sign "]").mark, rfl, ?_⟩
  simp only [nameRoles, List.append_assoc, readAs_tree hos₁]
  rw [hread]
  refine congrArg _ (readings_enclosed false he hos₂ (by decide) (by decide) (by decide) ?_)
  intro o hmark
  exact ⟨by decide, firstMark_any hmark (by decide) _⟩

theorem isRead_member {kind : Primary} {p : Tree (.primary kind)} {n : Identifier}
    (hp : p.IsRead reserved) : (member p n).IsRead reserved := by
  rintro brackets f rest leads os ⟨hfield, -⟩ hos
  obtain ⟨os₁, os₂, rfl, hos₁, hos₂⟩ := spells_append.1 hos
  obtain ⟨o, os₂, rfl, hmark, hhole, hos₂⟩ := spells_cons.1 hos₂
  obtain ⟨o', os₂, rfl, hmark', hhole', hos₂⟩ := spells_cons.1 hos₂
  obtain rfl := spells_nil.1 hos₂
  obtain ⟨f₁, -, hread⟩ := hp.primary brackets (o :: o' :: rest) hfield hos₁
    (firstMark_any hmark (by decide) _)
  refine ⟨some o'.mark, Mark.endsOperand_of_isName (by rw [hmark', isName_terminal]), ?_⟩
  simp only [nameRoles, List.append_assoc, List.cons_append, List.nil_append, readAs_tree hos₁,
    readAs_unread]
  rw [hread, readings_passed hhole hmark (by decide), hmark,
    readings_field hhole' hmark' (by decide)]
  rfl

theorem isRead_call {kind : Primary} {p : Tree (.primary kind)} {as : Tree .args}
    (hp : p.IsRead reserved) (has : as.IsRead reserved) : (call p as).IsRead reserved := by
  rintro brackets f rest leads os ⟨hfield, -⟩ hos
  obtain ⟨os₁, os₂, rfl, hos₁, hos₂⟩ := spells_append.1 hos
  have hnext : (firstMark (os₂ ++ rest)).any (Mark.isSymbolOf ["="]) = false := by
    obtain ⟨t, ts, hterminals, -, ht⟩ := head_args as
    rw [hterminals] at hos₂
    obtain ⟨o, os₂, rfl, hmark, -, -⟩ := spells_cons.1 hos₂
    exact firstMark_any hmark (by simpa [Mark.followsExps] using ht) _
  obtain ⟨f₁, -, hread⟩ := hp.primary brackets (os₂ ++ rest) hfield hos₁ hnext
  obtain ⟨f₂, hf₂, hread'⟩ :=
    has brackets f₁ rest false trivial hos₂
  refine ⟨f₂, hf₂, ?_⟩
  simp only [nameRoles, List.append_assoc, readAs_tree hos₁]
  rw [hread, hread']

theorem isRead_method {kind : Primary} {p : Tree (.primary kind)} {n : Identifier}
    {as : Tree .args} (hp : p.IsRead reserved) (has : as.IsRead reserved) :
    (method p n as).IsRead reserved := by
  rintro brackets f rest leads os ⟨hfield, -⟩ hos
  obtain ⟨os₁, os₂, rfl, hos₁, hos₂⟩ := spells_append.1 hos
  obtain ⟨o, os₂, rfl, hmark, hhole, hos₂⟩ := spells_cons.1 hos₂
  obtain ⟨o', os₂, rfl, hmark', hhole', hos₂⟩ := spells_cons.1 hos₂
  obtain ⟨f₁, -, hread⟩ := hp.primary brackets (o :: o' :: (os₂ ++ rest))
    hfield hos₁ (firstMark_any hmark (by decide) _)
  obtain ⟨f₂, hf₂, hread'⟩ :=
    has brackets (some o'.mark) rest false trivial hos₂
  refine ⟨f₂, hf₂, ?_⟩
  simp only [nameRoles, List.append_assoc, List.cons_append, readAs_tree hos₁, readAs_unread]
  rw [hread, readings_passed hhole hmark (by decide), hmark,
    readings_field hhole' hmark' (by decide), hread']
  rfl

theorem isRead_group {e : Tree .exp} (he : e.IsRead reserved) : (group e).IsRead reserved := by
  rintro brackets f rest leads os - hos
  refine ⟨some (Terminal.sign ")").mark, rfl, ?_⟩
  refine readings_enclosed false he hos (by decide) (by decide) (by decide) ?_
  intro o hmark
  exact ⟨by decide, firstMark_any hmark (by decide) _⟩

/-! ## Arguments -/

theorem isRead_noArgs : noArgs.IsRead reserved := by
  rintro brackets f rest leads os - hos
  obtain ⟨o, os, rfl, hmark, hhole, hos⟩ := spells_cons.1 hos
  obtain ⟨o', os, rfl, hmark', hhole', hos⟩ := spells_cons.1 hos
  obtain rfl := spells_nil.1 hos
  refine ⟨some (Terminal.sign ")").mark, rfl, ?_⟩
  show readings reserved brackets f (o :: o' :: rest) = _
  rw [readings_open hhole hmark (by decide), readings_close hhole' hmark' (by decide) (by decide),
    hmark']
  rfl

theorem isRead_listArgs {es : Tree .exps} (hes : es.IsRead reserved) :
    (listArgs es).IsRead reserved := by
  rintro brackets f rest leads os - hos
  refine ⟨some (Terminal.sign ")").mark, rfl, ?_⟩
  refine readings_enclosed false hes hos (by decide) (by decide) (by decide) ?_
  intro o hmark
  exact ⟨by decide, firstMark_any hmark (by decide) _⟩

/-- What is read in a table. -/
theorem readings_table {fs : Tree .fields} (hfs : fs.IsRead reserved)
    (hos : Spells os (.sign "\x7b" :: fs.terminals ++ [.sign "\x7d"])) :
    readings reserved brackets f (os ++ rest) =
      readAs os (.unread :: fs.nameRoles true false ++ [.unread]) ++
        readings reserved brackets (some (Terminal.sign "\x7d").mark) rest := by
  refine readings_enclosed false hfs hos (by decide) (by decide) (by decide) ?_
  intro o hmark
  exact ⟨rfl, firstMark_any hmark (by decide) _⟩

theorem isRead_tableArgs {fs : Tree .fields} (hfs : fs.IsRead reserved) :
    (tableArgs fs).IsRead reserved := by
  rintro brackets f rest leads os - hos
  exact ⟨some (Terminal.sign "\x7d").mark, rfl, readings_table hfs hos⟩

/-! ## Expressions -/

theorem isRead_atom {t : Terminal} (h : t.isAtom = true) : (atom t h).IsRead reserved := by
  have ht : passesOver t.mark = true ∧ t.mark.endsOperand = true :=
    Terminal.isAtom_cases (motive := fun m => passesOver m = true ∧ m.endsOperand = true) h
      (by decide) (by decide) (by decide) (by decide)
  exact isRead_single rfl (fun _ _ => rfl) ht.1 ht.2

theorem isRead_lambda {ps : Parameters} {b : Tree .block} (hb : b.IsRead reserved) :
    (lambda ps b).IsRead reserved := by
  rintro brackets f rest leads os - hos
  simp only [terminals, List.append_assoc, List.cons_append] at hos
  obtain ⟨o, os, rfl, hmark, hhole, hos⟩ := spells_cons.1 hos
  obtain ⟨os₁, os₂, rfl, hos₁, hos₂⟩ := spells_append.1 hos
  refine ⟨some (Terminal.keyword "end").mark, rfl, ?_⟩
  simp only [nameRoles, List.append_assoc, List.cons_append, readAs_unread, readAs_phrase hos₁]
  rw [readings_lambda hhole hmark hos₁ (no_colon_of_body hos₂),
    readings_body hb (by decide) (by decide) hos₂]

theorem isRead_operand {kind : Primary} {p : Tree (.primary kind)} (hp : p.IsRead reserved) :
    (operand p).IsRead reserved := by
  rintro brackets f rest leads os ⟨hfield, hrest⟩ hos
  exact hp.primary brackets rest hfield hos hrest

theorem isRead_table {fs : Tree .fields} (hfs : fs.IsRead reserved) :
    (table fs).IsRead reserved := by
  rintro brackets f rest leads os - hos
  exact ⟨some (Terminal.sign "\x7d").mark, rfl, readings_table hfs hos⟩

/-- An operator is passed over, and an operand is next. -/
theorem passesOver_of_isBinary {t : Terminal} (h : t.isBinary = true) :
    passesOver t.mark = true ∧ leadsToField t.mark = false ∧
      t.mark.isSymbolOf ["="] = false :=
  Mark.isOf_cases h (by decide) (by decide)

theorem passesOver_of_isUnary {t : Terminal} (h : t.isUnary = true) :
    passesOver t.mark = true ∧ leadsToField t.mark = false :=
  Mark.isOf_cases h (by decide) (by decide)

/-- What is read in expressions behind a mark that leads to no field. -/
theorem IsRead.values {c : Cat} {t : Tree c} {a : Terminal} (ht : t.IsRead reserved)
    (brackets : List Text) (rest : List Occurrence) (hc : c = .exp ∨ c = .exps)
    (hmark : o.mark = a.mark) (ha : leadsToField a.mark = false)
    (hos : Spells os t.terminals) (hrest : (firstMark rest).any (Mark.isSymbolOf ["="]) = false) :
    ∃ f', f'.any Mark.endsOperand = true ∧ readings reserved brackets (some o.mark) (os ++ rest) =
      readAs os (t.nameRoles (bare brackets).inBraces false) ++
        readings reserved brackets f' rest := by
  have hfield : (some o.mark).any leadsToField = false := by rwa [hmark]
  rcases hc with rfl | rfl
  · exact ht brackets _ rest false ⟨hfield, hrest⟩ hos
  · exact ht brackets _ rest false ⟨hfield, hrest⟩ hos

theorem isRead_binary {a b : Tree .exp} {operator : Terminal} (h : operator.isBinary = true)
    (ha : a.IsRead reserved) (hb : b.IsRead reserved) :
    (binary a operator h b).IsRead reserved := by
  rintro brackets f rest leads os ⟨hfield, hrest⟩ hos
  obtain ⟨os₁, os₂, rfl, hos₁, hos₂⟩ := spells_append.1 hos
  obtain ⟨o, os₂, rfl, hmark, hhole, hos₂⟩ := spells_cons.1 hos₂
  obtain ⟨hpass, hnext, hequals⟩ := passesOver_of_isBinary h
  obtain ⟨f₁, -, hread⟩ := ha brackets f (o :: (os₂ ++ rest)) false
    ⟨hfield, firstMark_any hmark hequals _⟩ hos₁
  obtain ⟨f₂, hf₂, hread'⟩ := hb.values brackets rest (.inl rfl) hmark hnext hos₂ hrest
  refine ⟨f₂, hf₂, ?_⟩
  simp only [nameRoles, List.append_assoc, List.cons_append, readAs_tree hos₁, readAs_unread]
  rw [hread, readings_passed hhole hmark hpass, hread']

theorem isRead_unary {e : Tree .exp} {operator : Terminal} (h : operator.isUnary = true)
    (he : e.IsRead reserved) : (unary operator h e).IsRead reserved := by
  rintro brackets f rest leads os ⟨-, hrest⟩ hos
  obtain ⟨o, os, rfl, hmark, hhole, hos⟩ := spells_cons.1 hos
  obtain ⟨hpass, hnext⟩ := passesOver_of_isUnary h
  obtain ⟨f', hf', hread⟩ := he.values brackets rest (.inl rfl) hmark hnext hos hrest
  refine ⟨f', hf', ?_⟩
  rw [List.cons_append, readings_passed hhole hmark hpass, hread, nameRoles, readAs_unread]

theorem isRead_one {e : Tree .exp} (he : e.IsRead reserved) : (one e).IsRead reserved := by
  rintro brackets f rest leads os hbegins hos
  exact he brackets f rest false hbegins hos

theorem isRead_more {e : Tree .exp} {es : Tree .exps} (he : e.IsRead reserved)
    (hes : es.IsRead reserved) : (more e es).IsRead reserved := by
  rintro brackets f rest leads os ⟨hfield, hrest⟩ hos
  obtain ⟨os₁, os₂, rfl, hos₁, hos₂⟩ := spells_append.1 hos
  obtain ⟨o, os₂, rfl, hmark, hhole, hos₂⟩ := spells_cons.1 hos₂
  obtain ⟨f₁, -, hread⟩ := he brackets f (o :: (os₂ ++ rest)) false
    ⟨hfield, firstMark_any hmark (by decide) _⟩ hos₁
  obtain ⟨f₂, hf₂, hread'⟩ :=
    hes.values brackets rest (.inr rfl) hmark (by decide) hos₂ hrest
  refine ⟨f₂, hf₂, ?_⟩
  simp only [nameRoles, List.append_assoc, List.cons_append, readAs_tree hos₁, readAs_unread]
  rw [hread, readings_passed hhole hmark (by decide), hread']

/-! ## Fields and targets -/

theorem isRead_noFields : noFields.IsRead reserved := by
  rintro brackets f rest leads os - hos
  obtain rfl := spells_nil.1 hos
  exact ⟨f, trivial, rfl⟩

theorem isRead_lastField {e : Tree .field} (he : e.IsRead reserved) :
    (lastField e).IsRead reserved := by
  rintro brackets f rest leads os hbegins hos
  exact he brackets f rest false hbegins hos

theorem isRead_moreFields {e : Tree .field} {semicolon : Bool} {fs : Tree .fields}
    (he : e.IsRead reserved) (hfs : fs.IsRead reserved) :
    (moreFields e semicolon fs).IsRead reserved := by
  rintro brackets f rest leads os ⟨hstarts, hrest⟩ hos
  obtain ⟨os₁, os₂, rfl, hos₁, hos₂⟩ := spells_append.1 hos
  obtain ⟨o, os₂, rfl, hmark, hhole, hos₂⟩ := spells_cons.1 hos₂
  have hsign : passesOver (fieldSign semicolon).mark = true ∧
      (fieldSign semicolon).mark.isSymbolOf ["="] = false ∧
      (fieldSign semicolon).mark.isSymbolOf ["\x7b", ",", ";"] = true := by
    cases semicolon <;> decide
  have hstarts' : startsField (bare brackets) (some o.mark) = true := by
    obtain ⟨hbraces, -⟩ := Bool.and_eq_true_iff.1 hstarts
    rw [startsField, hbraces, hmark]
    exact hsign.2.2
  obtain ⟨f₁, -, hread⟩ := he brackets f (o :: (os₂ ++ rest)) false
    ⟨hstarts, firstMark_any hmark hsign.2.1 _⟩ hos₁
  obtain ⟨f₂, -, hread'⟩ := hfs brackets _ rest false ⟨hstarts', hrest⟩ hos₂
  refine ⟨f₂, trivial, ?_⟩
  simp only [nameRoles, List.append_assoc, List.cons_append, readAs_tree hos₁, readAs_unread]
  rw [hread, readings_passed hhole hmark hsign.1, hread']

theorem isRead_item {e : Tree .exp} (he : e.IsRead reserved) : (item e).IsRead reserved := by
  rintro brackets f rest leads os ⟨hstarts, hrest⟩ hos
  obtain ⟨f', -, hread⟩ :=
    he brackets f rest false ⟨not_leadsToField_of_startsField hstarts, hrest⟩ hos
  exact ⟨f', trivial, hread⟩

theorem isRead_named {n : Identifier} {v : Tree .exp} (hv : v.IsRead reserved) :
    (named n v).IsRead reserved := by
  rintro brackets f rest leads os ⟨hstarts, hrest⟩ hos
  obtain ⟨o, os, rfl, hmark, hhole, hos⟩ := spells_cons.1 hos
  obtain ⟨o', os, rfl, hmark', hhole', hos⟩ := spells_cons.1 hos
  obtain ⟨f', -, hread⟩ :=
    hv.values brackets rest (.inl rfl) hmark' (by decide) hos hrest
  have hequals : (firstMark (o' :: (os ++ rest))).any (Mark.isSymbolOf ["="]) = true :=
    firstMark_any hmark' (by decide) _
  refine ⟨f', trivial, ?_⟩
  rw [List.cons_append, List.cons_append, readings_key hhole hmark hstarts hequals,
    readings_passed hhole' hmark' (by decide), hread]
  rfl

theorem isRead_keyed {k v : Tree .exp} (hk : k.IsRead reserved) (hv : v.IsRead reserved) :
    (keyed k v).IsRead reserved := by
  rintro brackets f rest leads os ⟨hstarts, hrest⟩ hos
  have hterminals : (keyed k v).terminals =
      (.sign "[" :: k.terminals ++ [.sign "]"]) ++ .sign "=" :: v.terminals := by
    simp only [terminals, List.cons_append, List.nil_append, List.append_assoc]
  have hroles : (keyed k v).nameRoles (bare brackets).inBraces leads =
      (.unread :: k.nameRoles false false ++ [.unread]) ++
        .unread :: v.nameRoles (bare brackets).inBraces false := by
    simp [nameRoles]
  rw [hterminals] at hos
  obtain ⟨os₁, os₂, rfl, hos₁, hos₂⟩ := spells_append.1 hos
  obtain ⟨o, os₂, rfl, hmark, hhole, hos₂⟩ := spells_cons.1 hos₂
  obtain ⟨f', -, hread⟩ :=
    hv.values brackets rest (.inl rfl) hmark (by decide) hos₂ hrest
  have hlength : os₁.length =
      (NameRole.unread :: k.nameRoles false false ++ [NameRole.unread]).length := by
    simpa [length_nameRoles] using hos₁.length_eq
  refine ⟨f', trivial, ?_⟩
  rw [hroles, readAs_append hlength, readAs_unread, List.append_assoc, List.append_assoc, ← hread,
    ← readings_passed (f := some (Terminal.sign "]").mark) hhole hmark (by decide)]
  refine readings_enclosed false hk hos₁ (by decide) (by decide) (by decide) ?_
  intro o hmark
  exact ⟨by decide, firstMark_any hmark (by decide) _⟩

theorem isRead_oneTarget {v : Tree (.primary .variable)} (hv : v.IsRead reserved) :
    (oneTarget v).IsRead reserved := by
  rintro brackets f rest leads os ⟨hfield, hleads, hrest⟩ hos
  exact hv brackets f rest leads ⟨hfield, by rw [hrest, Bool.and_true, hleads]⟩ hos

/-- Behind a comma a field could begin, if the innermost bracket is a brace. -/
theorem isRead_moreTargets {v : Tree (.primary .variable)} {ts : Tree .targets}
    (hv : v.IsRead reserved) (hts : ts.IsRead reserved) : (moreTargets v ts).IsRead reserved := by
  rintro brackets f rest leads os ⟨hfield, -, hrest⟩ hos
  obtain ⟨os₁, os₂, rfl, hos₁, hos₂⟩ := spells_append.1 hos
  obtain ⟨o, os₂, rfl, hmark, hhole, hos₂⟩ := spells_cons.1 hos₂
  obtain ⟨f₁, -, hread⟩ := hv.primary brackets (o :: (os₂ ++ rest)) hfield
    hos₁ (firstMark_any hmark (by decide) _)
  have hfield' : (some o.mark).any leadsToField = false := by
    rw [hmark]
    decide
  have hstarts : (bare brackets).inBraces = startsField (bare brackets) (some o.mark) := by
    rw [startsField, hmark]
    exact (Bool.and_true _).symm
  obtain ⟨f₂, hf₂, hread'⟩ := hts brackets _ rest _ ⟨hfield', hstarts, hrest⟩ hos₂
  refine ⟨f₂, hf₂, ?_⟩
  simp only [nameRoles, List.append_assoc, List.cons_append, readAs_tree hos₁, readAs_unread]
  rw [hread, readings_passed hhole hmark (by decide), hread']

end Tree

end

end LuaVeil
