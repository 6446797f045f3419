/-
# Walks over expressions

`Tree.Walked` says of a tree of any category that a walk over it finds its sites
and nothing else, and in which state it arrives behind the tree. It is proved
here for expressions and what they are made of, from the same for their parts.

Main statements: `walked_lambda`, `walked_table`, `walked_name`, `walked_index`
and their like, one for each production.
-/
import LuaVeil.Proofs.Grammar.Brackets
import LuaVeil.Proofs.Scope.Steps

namespace LuaVeil

open ScopeState

/-! ## Where trees begin and end -/

/-- Whether an operand can begin behind the mark `f`. -/
structure AtOperand (reserved : Reserved) (env : List Name) (s : ScopeState) (f : Option Mark) :
    Prop where
  fits : Fits reserved env s
  still : Still s f
  field : f.any leadsToField = false

/-- Whether a field can begin behind the mark `f`. -/
structure AtField (reserved : Reserved) (env : List Name) (s : ScopeState) (f : Option Mark) :
    Prop where
  fits : Fits reserved env s
  still : ∀ f, Still s f
  starts : startsField s f = true

/-- Whether a statement can begin behind the mark `f`. -/
structure AtStatement (reserved : Reserved) (env : List Name) (s : ScopeState) (f : Option Mark) :
    Prop where
  fits : Fits reserved env s
  settled : Settled s
  opens : f.any Mark.opensExpression = false
  noField : startsField s f = false

/-- Where a field can begin, an operand can. -/
theorem AtField.atOperand {reserved : Reserved} {env : List Name} {s : ScopeState}
    {f : Option Mark} (h : AtField reserved env s f) : AtOperand reserved env s f := by
  refine ⟨h.fits, h.still f, ?_⟩
  obtain ⟨-, hsign⟩ := Bool.and_eq_true_iff.1 h.starts
  obtain ⟨m, rfl, hm⟩ := (Option.any_eq_true _ _).1 hsign
  have hm : (m.isWordOf [] || m.isSymbolOf ["\x7b", ",", ";"]) = true := by rw [hm, Bool.or_true]
  exact Mark.isOf_cases hm (by decide) (by decide)

namespace Tree

/-- Where a walk comes upon a tree, which `rest` follows. -/
def Begins (reserved : Reserved) (env : List Name) (s : ScopeState) (f : Option Mark)
    (rest : List Occurrence) : {c : Cat} → Tree c → Prop
  | .block, t => AtStatement reserved env s f ∧ t.IsPlain s.inBraces ∧ Follows Mark.followsBlock rest
  | .stat, t => AtStatement reserved env s f ∧ t.IsPlain s.inBraces ∧ Follows Mark.followsStat rest
  | .final, t => AtStatement reserved env s f ∧ t.IsPlain s.inBraces ∧ Follows Mark.followsExps rest
  | .clauses, t => ∃ s' names, s = s'.inner names ∧ Fits reserved env s' ∧ Settled s' ∧
      t.IsPlain s'.inBraces
  | .exp, t => AtOperand reserved env s f ∧ t.IsPlain s.inBraces ∧ Follows Mark.followsExps rest
  | .exps, t => AtOperand reserved env s f ∧ t.IsPlain s.inBraces ∧ Follows Mark.followsExps rest
  | .primary _, t => AtOperand reserved env s f ∧ t.IsPlain s.inBraces ∧ KeyFree s f rest
  | .args, t => Fits reserved env s ∧ t.IsPlain s.inBraces
  | .fields, t => AtField reserved env s f ∧ t.IsPlain s.inBraces ∧ Follows Mark.followsExps rest
  | .field, t => AtField reserved env s f ∧ t.IsPlain s.inBraces ∧ Follows Mark.followsExps rest
  | .targets, t => AtOperand reserved env s f ∧ t.IsPlain s.inBraces ∧ startsField s f = false

/-- Where a walk that came upon a tree in the state `s` is behind it. -/
def Ends (reserved : Reserved) (env : List Name) (s s' : ScopeState) (f : Option Mark) :
    {c : Cat} → Tree c → Prop
  | .block, t => Fits reserved (t.binds ++ env) s' ∧ ∃ names, s' = { s with scope := names }
  | .stat, t => f.any Mark.endsOperand = true ∧ Fits reserved (t.binds ++ env) s' ∧
      ∃ names, s' = { s with scope := names }
  | .final, _ => s = s'
  | .clauses, _ => f.any Mark.endsOperand = true ∧ s' = s.closeScope
  | .fields, _ => s = s'
  | .field, _ => s = s'
  | _, _ => f.any Mark.endsOperand = true ∧ s = s'

/-- Whether a walk over a tree finds the sites that the roles of its terminals give. -/
def Walked (reserved : Reserved) {c : Cat} (t : Tree c) : Prop :=
  ∀ ⦃env s f os rest⦄, t.Begins reserved env s f rest → Spells os t.terminals →
    ∃ s' f', t.Ends reserved env s s' f' ∧
      found reserved s f (os ++ rest) =
        localSites reserved os (t.roles env) ++ found reserved s' f' rest

end Tree

section

variable {reserved : Reserved} {env : List Name} {s : ScopeState} {f : Option Mark}
  {m : Mark} {t : Terminal} {o o' : Occurrence} {os rest : List Occurrence}

@[simp] theorem localSites_nil (roles : List Role) : localSites reserved [] roles = [] := rfl

/-- The sites of a tree come first. -/
theorem localSites_tree {c : Cat} {t : Tree c} (hos : Spells os t.terminals) (env : List Name)
    (os' : List Occurrence) (rs : List Role) :
    localSites reserved (os ++ os') (t.roles env ++ rs) =
      localSites reserved os (t.roles env) ++ localSites reserved os' rs :=
  localSites_append (hos.length_eq.trans (t.length_roles env).symm) os' rs

/-- The sites of a phrase that declares its names come first. -/
theorem localSites_declared {ts : List Terminal} (hos : Spells os ts) (os' : List Occurrence)
    (rs : List Role) :
    localSites reserved (os ++ os') (declaredRoles ts ++ rs) =
      freeNames reserved os ++ localSites reserved os' rs := by
  rw [localSites_append (by rw [hos.length_eq, declaredRoles, List.length_map]),
    localSites_declaredRoles hos]

/-- A name ends an operand. -/
theorem Mark.endsOperand_of_isName (h : m.isName = true) : m.endsOperand = true := by
  cases m with
  | word w =>
    have hw : isKeyword w = false := by simpa [Mark.isName] using h
    simp [Mark.endsOperand, hw]
  | symbol t => simp [Mark.isName] at h
  | number => rfl
  | string => rfl

namespace ScopeState.Fits

/-- An operand can begin behind an operator. -/
theorem atOperand (h : Fits reserved env s) (hmark : o.mark = t.mark)
    (ht : t.mark.endsOperand = false) (hfield : leadsToField t.mark = false) :
    AtOperand reserved env s (some o.mark) :=
  ⟨h, h.still_of_not_endsOperand hmark ht, by rw [hmark]; exact hfield⟩

theorem atOperand_bracket (h : Fits reserved env s) (b : Text)
    (hfield : leadsToField (.symbol b) = false) :
    AtOperand reserved env { s with brackets := b :: s.brackets } (some (.symbol b)) :=
  ⟨h.bracket b, h.still_bracket b _, hfield⟩

theorem atField_brace (h : Fits reserved env s) :
    AtField reserved env { s with brackets := ['\x7b'] :: s.brackets } (some (.symbol ['\x7b'])) :=
  ⟨h.bracket _, h.still_bracket _, rfl⟩

end ScopeState.Fits

/-! ## How statements begin -/

/-- Whether a category is begun by what begins statements. -/
def Cat.beginsStat : Cat → Bool
  | .stat | .final | .primary _ | .targets => true
  | _ => false

theorem Identifier.beginsStat (n : Identifier) : n.terminal.mark.beginsStat = true := by
  have hnot : (Mark.word n.text).isWordOf ["and", "or"] = false := by
    simp only [Mark.isWordOf, List.any_cons, List.any_nil, Bool.or_false, Bool.or_eq_false_iff,
      beq_eq_false_iff_ne]
    constructor <;>
      (intro h; exact absurd (h ▸ n.notKeyword) (by decide))
  exact congrArg Bool.not hnot

namespace Tree

/-- Statements and what they begin with begin with a word or a parenthesis. -/
theorem head_terminals {c : Cat} (t : Tree c) (hc : c.beginsStat = true) :
    ∃ a as, t.terminals = a :: as ∧ a.mark.beginsStat = true := by
  induction t with
  | name n => exact ⟨_, _, rfl, n.beginsStat⟩
  | assign p _ ih _ | run p ih | index p _ ih _ | member p _ ih | call p _ ih _ | method p _ _ ih _
  | oneTarget p ih | moreTargets p _ ih _ =>
    obtain ⟨a, as, hterminals, ha⟩ := ih rfl
    rw [terminals, hterminals]
    exact ⟨a, _, rfl, ha⟩
  | leave | giveNothing | give | doBlock | whileLoop | repeatLoop | branch | countLoop | eachLoop
  | function | localFunction | localNames | localValues | group =>
    exact ⟨_, _, rfl, by decide⟩
  | _ => simp [Cat.beginsStat] at hc

/-- A block is empty or begins like a statement. -/
theorem head_block (b : Tree .block) :
    b.terminals = [] ∨ ∃ a as, b.terminals = a :: as ∧ a.mark.beginsStat = true := by
  cases b with
  | done => exact .inl rfl
  | next s semicolon rest =>
    obtain ⟨a, as, hterminals, ha⟩ := s.head_terminals rfl
    exact .inr ⟨a, _, by rw [terminals, hterminals]; rfl, ha⟩
  | last s semicolon =>
    obtain ⟨a, as, hterminals, ha⟩ := s.head_terminals rfl
    exact .inr ⟨a, _, by rw [terminals, hterminals]; rfl, ha⟩

/-! ## Brackets and blocks -/

/-- What is found in a tree between brackets. -/
theorem found_enclosed {c : Cat} {t : Tree c} {a b : Text} {ha : a ∈ luaSymbols}
    {hb : b ∈ luaSymbols} (ht : t.Walked reserved)
    (hos : Spells os (.symbol a ha :: t.terminals ++ [.symbol b hb])) (hfits : Fits reserved env s)
    (hsettle : s.settle f (.symbol a) = s)
    (hopen : Mark.isSymbolOf Cursor.openBrackets (.symbol a) = true)
    (hnot : Mark.isSymbolOf Cursor.openBrackets (.symbol b) = false)
    (hclose : Mark.isSymbolOf Cursor.closeBrackets (.symbol b) = true)
    (hbegins : ∀ o, o.mark = (Terminal.symbol b hb).mark → o.inHole = false →
      t.Begins reserved env { s with brackets := a :: s.brackets } (some (.symbol a)) (o :: rest))
    (hends : ∀ s s' f, t.Ends reserved env s s' f → s = s') :
    found reserved s f (os ++ rest) =
      localSites reserved os (.other :: t.roles env ++ [.other]) ++
        found reserved s (some (.symbol b)) rest := by
  obtain ⟨o, os₁, o', os₂, rfl, hmark, hhole, hos₁, hmark', hhole', hos₂⟩ := hos.between
  obtain rfl := spells_nil.1 hos₂
  obtain ⟨s', f', hend, hwalk⟩ := ht (hbegins o' hmark' hhole') hos₁
  obtain rfl := hends _ _ _ hend
  simp only [List.cons_append, List.append_assoc, localSites_other, localSites_tree hos₁,
    localSites_nil, List.nil_append]
  rw [found_open hhole hmark hopen (by rw [hmark]; exact hsettle) hfits.branch]
  rw [hmark]
  refine Eq.trans hwalk ?_
  rw [found_close hhole' hmark' hnot hclose hfits, hmark']
  rfl

/-- No type follows the parameters of a function. -/
theorem no_colon_of_body {b : Tree .block} (hos : Spells os (b.terminals ++ [.keyword "end"])) :
    (firstMark (os ++ rest)).any (Mark.isSymbolOf [":"]) = false := by
  rcases b.head_block with hb | ⟨a, as, hb, ha⟩
  · rw [hb] at hos
    obtain ⟨o, os, rfl, hmark, -⟩ := spells_cons.1 hos
    rw [List.cons_append, firstMark_cons, hmark]
    decide
  · rw [hb] at hos
    obtain ⟨o, os, rfl, hmark, -⟩ := spells_cons.1 hos
    rw [List.cons_append, firstMark_cons, hmark]
    exact Mark.isSymbolOf_of_isWordOr ha (by decide)

/-- What is found in a block that has a scope of its own up to its `end`. -/
theorem found_body {b : Tree .block} {env' names : List Name} (hb : b.Walked reserved)
    (hfits : Fits reserved env s) (hinner : Fits reserved env' (s.inner names))
    (hplain : b.IsPlain s.inBraces) (hopens : m.opensExpression = false)
    (hfield : m.isSymbolOf ["\x7b", ",", ";"] = false)
    (hos : Spells os (b.terminals ++ [.keyword "end"])) :
    found reserved (s.inner names) (some m) (os ++ rest) =
      localSites reserved os (b.roles env' ++ [.other]) ++
        found reserved s (some (Terminal.keyword "end").mark) rest := by
  obtain ⟨os₁, os₂, rfl, hos₁, hos₂⟩ := spells_append.1 hos
  obtain ⟨o, os₂, rfl, hmark, hhole, hos₂⟩ := spells_cons.1 hos₂
  obtain rfl := spells_nil.1 hos₂
  have hat : AtStatement reserved env' (s.inner names) (some m) :=
    ⟨hinner, hfits.settled_inner names, hopens, startsField_of_not hfield⟩
  obtain ⟨_, f', ⟨-, names', rfl⟩, hwalk⟩ :=
    hb ⟨hat, hplain, follows_cons hhole hmark (by decide) rest⟩ hos₁
  rw [List.append_assoc, List.singleton_append, hwalk, localSites_tree hos₁, localSites_other,
    localSites_nil, List.append_nil]
  exact congrArg _ (found_end hhole hmark hfits names')

/-! ## Operands -/

theorem walked_name (n : Identifier) : (name n).Walked reserved := by
  rintro env s f os rest ⟨hat, -, hkey⟩ hos
  obtain ⟨o, os, rfl, hmark, hhole, hos⟩ := spells_cons.1 hos
  obtain rfl := spells_nil.1 hos
  refine ⟨s, some o.mark, ⟨?_, rfl⟩, ?_⟩
  · exact Mark.endsOperand_of_isName (by rw [hmark, isName_terminal])
  · exact found_name hhole hmark hat.fits (hat.still _) hat.field hkey

theorem walked_index {kind : Primary} {p : Tree (.primary kind)} {e : Tree .exp}
    (hp : p.Walked reserved) (he : e.Walked reserved) : (index p e).Walked reserved := by
  rintro env s f os rest ⟨hat, hplain, -⟩ hos
  simp only [terminals, List.append_assoc] at hos
  obtain ⟨os₁, os₂, rfl, hos₁, hos₂⟩ := spells_append.1 hos
  have hkey : Follows Mark.followsExps (os₂ ++ rest) := by
    obtain ⟨o, os₂, rfl, hmark, hhole, -⟩ := spells_cons.1 hos₂
    exact follows_cons hhole hmark (by decide) _
  obtain ⟨_, f₁, ⟨-, rfl⟩, hwalk⟩ := hp ⟨hat, hplain.1, keyFree_of_follows hkey⟩ hos₁
  refine ⟨s, some (Terminal.sign "]").mark, ⟨by decide, rfl⟩, ?_⟩
  simp only [roles, List.append_assoc, localSites_tree hos₁]
  rw [hwalk]
  refine congrArg _ (found_enclosed he hos₂ hat.fits (hat.fits.settle_of_continues (by decide))
    (by decide) (by decide) (by decide) ?_ fun _ _ _ h => h.2)
  intro o hmark hhole
  exact ⟨hat.fits.atOperand_bracket _ (by decide), hplain.2, follows_cons hhole hmark (by decide) _⟩

theorem walked_member {kind : Primary} {p : Tree (.primary kind)} {n : Identifier}
    (hp : p.Walked reserved) : (member p n).Walked reserved := by
  rintro env s f os rest ⟨hat, hplain, -⟩ hos
  obtain ⟨os₁, os₂, rfl, hos₁, hos₂⟩ := spells_append.1 hos
  obtain ⟨o, os₂, rfl, hmark, hhole, hos₂⟩ := spells_cons.1 hos₂
  obtain ⟨o', os₂, rfl, hmark', hhole', hos₂⟩ := spells_cons.1 hos₂
  obtain rfl := spells_nil.1 hos₂
  have hname : o'.mark.isName = true := by rw [hmark', isName_terminal]
  have hkey : Follows Mark.followsExps (o :: o' :: rest) := follows_cons hhole hmark (by decide) _
  obtain ⟨_, f₁, ⟨-, rfl⟩, hwalk⟩ := hp ⟨hat, hplain, keyFree_of_follows hkey⟩ hos₁
  have hstill : Still s (some o.mark) := hat.fits.still_of_not_endsOperand hmark (by decide)
  have hfield : (some o.mark).any leadsToField = true := by
    rw [hmark]
    decide
  refine ⟨s, some o'.mark, ⟨Mark.endsOperand_of_isName hname, rfl⟩, ?_⟩
  simp only [roles, List.append_assoc, List.cons_append, List.nil_append, localSites_tree hos₁,
    localSites_other, localSites_nil]
  rw [hwalk, found_neutral hhole hmark (by decide) (hat.fits.settle_before hmark (by decide))
    hat.fits.branch, found_field hhole' hname (hstill _) hat.fits.branch (.inl hfield)]

/-- Arguments continue what they are applied to. -/
theorem head_args (as : Tree .args) :
    ∃ t ts, as.terminals = t :: ts ∧ t.mark.continuesExpression = true ∧
      t.mark.followsExps = true := by
  cases as with
  | noArgs => exact ⟨_, _, rfl, by decide, by decide⟩
  | listArgs es => exact ⟨_, _, rfl, by decide, by decide⟩
  | tableArgs fs => exact ⟨_, _, rfl, by decide, by decide⟩
  | stringArgs t h => exact ⟨_, _, rfl, rfl, rfl⟩

theorem walked_call {kind : Primary} {p : Tree (.primary kind)} {as : Tree .args}
    (hp : p.Walked reserved) (has : as.Walked reserved) : (call p as).Walked reserved := by
  rintro env s f os rest ⟨hat, hplain, -⟩ hos
  obtain ⟨os₁, os₂, rfl, hos₁, hos₂⟩ := spells_append.1 hos
  have hkey : Follows Mark.followsExps (os₂ ++ rest) := by
    obtain ⟨t, ts, hts, -, ht⟩ := head_args as
    rw [hts] at hos₂
    obtain ⟨o, os₂, rfl, hmark, hhole, -⟩ := spells_cons.1 hos₂
    exact follows_cons hhole hmark ht _
  obtain ⟨_, f₁, ⟨-, rfl⟩, hwalk⟩ := hp ⟨hat, hplain.1, keyFree_of_follows hkey⟩ hos₁
  obtain ⟨_, f₂, ⟨hf₂, rfl⟩, hwalk'⟩ := has ⟨hat.fits, hplain.2⟩ hos₂
  refine ⟨s, f₂, ⟨hf₂, rfl⟩, ?_⟩
  rw [List.append_assoc, hwalk, hwalk', roles, localSites_tree hos₁, List.append_assoc]

theorem walked_method {kind : Primary} {p : Tree (.primary kind)} {n : Identifier}
    {as : Tree .args} (hp : p.Walked reserved) (has : as.Walked reserved) :
    (method p n as).Walked reserved := by
  rintro env s f os rest ⟨hat, hplain, -⟩ hos
  obtain ⟨os₁, os₂, rfl, hos₁, hos₂⟩ := spells_append.1 hos
  obtain ⟨o, os₂, rfl, hmark, hhole, hos₂⟩ := spells_cons.1 hos₂
  obtain ⟨o', os₂, rfl, hmark', hhole', hos₂⟩ := spells_cons.1 hos₂
  have hname : o'.mark.isName = true := by rw [hmark', isName_terminal]
  have hkey : Follows Mark.followsExps (o :: o' :: (os₂ ++ rest)) :=
    follows_cons hhole hmark (by decide) _
  obtain ⟨_, f₁, ⟨-, rfl⟩, hwalk⟩ := hp ⟨hat, hplain.1, keyFree_of_follows hkey⟩ hos₁
  obtain ⟨_, f₂, ⟨hf₂, rfl⟩, hwalk'⟩ := has (f := some o'.mark) ⟨hat.fits, hplain.2⟩ hos₂
  have hstill : Still s (some o.mark) := hat.fits.still_of_not_endsOperand hmark (by decide)
  have hfield : (some o.mark).any leadsToField = true := by
    rw [hmark]
    decide
  refine ⟨s, f₂, ⟨hf₂, rfl⟩, ?_⟩
  simp only [roles, List.append_assoc, List.cons_append, localSites_tree hos₁, localSites_other]
  rw [hwalk, found_neutral hhole hmark (by decide) (hat.fits.settle_before hmark (by decide))
    hat.fits.branch, found_field hhole' hname (hstill _) hat.fits.branch (.inl hfield), hwalk']

theorem walked_group {e : Tree .exp} (he : e.Walked reserved) : (group e).Walked reserved := by
  rintro env s f os rest ⟨hat, hplain, -⟩ hos
  refine ⟨s, some (Terminal.sign ")").mark, ⟨by decide, rfl⟩, ?_⟩
  refine found_enclosed he hos hat.fits (hat.still _) (by decide) (by decide) (by decide) ?_
    fun _ _ _ h => h.2
  intro o hmark hhole
  exact ⟨hat.fits.atOperand_bracket _ (by decide), hplain, follows_cons hhole hmark (by decide) _⟩

/-! ## Arguments -/

theorem walked_noArgs : noArgs.Walked reserved := by
  rintro env s f os rest ⟨hfits, -⟩ hos
  obtain ⟨o, os, rfl, hmark, hhole, hos⟩ := spells_cons.1 hos
  obtain ⟨o', os, rfl, hmark', hhole', hos⟩ := spells_cons.1 hos
  obtain rfl := spells_nil.1 hos
  refine ⟨s, some o'.mark, ⟨by rw [hmark']; decide, rfl⟩, ?_⟩
  show found reserved s f (o :: o' :: rest) = found reserved s (some o'.mark) rest
  rw [found_open hhole hmark (by decide) (hfits.settle_before hmark (by decide)) hfits.branch,
    found_close hhole' hmark' (by decide) (by decide) hfits]

theorem walked_listArgs {es : Tree .exps} (hes : es.Walked reserved) :
    (listArgs es).Walked reserved := by
  rintro env s f os rest ⟨hfits, hplain⟩ hos
  refine ⟨s, some (Terminal.sign ")").mark, ⟨by decide, rfl⟩, ?_⟩
  refine found_enclosed hes hos hfits (hfits.settle_of_continues (by decide)) (by decide)
    (by decide) (by decide) ?_ fun _ _ _ h => h.2
  intro o hmark hhole
  exact ⟨hfits.atOperand_bracket _ (by decide), hplain, follows_cons hhole hmark (by decide) _⟩

theorem walked_tableArgs {fs : Tree .fields} (hfs : fs.Walked reserved) :
    (tableArgs fs).Walked reserved := by
  rintro env s f os rest ⟨hfits, hplain⟩ hos
  refine ⟨s, some (Terminal.sign "\x7d").mark, ⟨by decide, rfl⟩, ?_⟩
  refine found_enclosed hfs hos hfits (hfits.settle_of_continues (by decide)) (by decide)
    (by decide) (by decide) ?_ fun _ _ _ h => h
  intro o hmark hhole
  exact ⟨hfits.atField_brace, hplain, follows_cons hhole hmark (by decide) _⟩

theorem walked_stringArgs {t : Text} (h : IsStringLiteral t) :
    (stringArgs t h).Walked reserved := by
  rintro env s f os rest ⟨hfits, -⟩ hos
  obtain ⟨o, os, rfl, hmark, hhole, hos⟩ := spells_cons.1 hos
  obtain rfl := spells_nil.1 hos
  refine ⟨s, some o.mark, ⟨by rw [hmark]; rfl, rfl⟩, ?_⟩
  exact found_neutral hhole hmark rfl (hfits.settle_before hmark rfl) hfits.branch

/-! ## Expressions -/

theorem walked_atom {t : Terminal} (h : t.isAtom = true) : (atom t h).Walked reserved := by
  rintro env s f os rest ⟨hat, -, -⟩ hos
  obtain ⟨o, os, rfl, hmark, hhole, hos⟩ := spells_cons.1 hos
  obtain rfl := spells_nil.1 hos
  have hends : t.mark.isNeutral = true ∧ t.mark.endsOperand = true :=
    Terminal.isAtom_cases (motive := fun m => m.isNeutral = true ∧ m.endsOperand = true) h
      (by decide) (by decide) (by decide) (by decide)
  refine ⟨s, some o.mark, ⟨by rw [hmark]; exact hends.2, rfl⟩, ?_⟩
  exact found_neutral hhole hmark hends.1 (hat.still _) hat.fits.branch

theorem walked_lambda {ps : Parameters} {b : Tree .block} (hb : b.Walked reserved) :
    (lambda ps b).Walked reserved := by
  rintro env s f os rest ⟨hat, hplain, -⟩ hos
  simp only [terminals, List.append_assoc, List.cons_append] at hos
  obtain ⟨o, os, rfl, hmark, hhole, hos⟩ := spells_cons.1 hos
  obtain ⟨os₁, os₂, rfl, hos₁, hos₂⟩ := spells_append.1 hos
  have hinner := hat.fits.inner (contains_boundNames hos₁ reserved)
  rw [terminalNames_parameters] at hinner
  refine ⟨s, some (Terminal.keyword "end").mark, ⟨by decide, rfl⟩, ?_⟩
  simp only [roles, List.append_assoc, List.cons_append, localSites_other,
    localSites_declared hos₁]
  rw [found_lambda hhole hmark hos₁ (no_colon_of_body hos₂) (hat.still _) hat.fits.branch,
    found_body hb hat.fits hinner hplain (by decide) (by decide) hos₂]

theorem walked_operand {kind : Primary} {p : Tree (.primary kind)} (hp : p.Walked reserved) :
    (operand p).Walked reserved := by
  rintro env s f os rest ⟨hat, hplain, hrest⟩ hos
  exact hp ⟨hat, hplain, keyFree_of_follows hrest⟩ hos

theorem walked_table {fs : Tree .fields} (hfs : fs.Walked reserved) :
    (table fs).Walked reserved := by
  rintro env s f os rest ⟨hat, hplain, -⟩ hos
  refine ⟨s, some (Terminal.sign "\x7d").mark, ⟨by decide, rfl⟩, ?_⟩
  refine found_enclosed hfs hos hat.fits (hat.still _) (by decide) (by decide) (by decide) ?_
    fun _ _ _ h => h
  intro o hmark hhole
  exact ⟨hat.fits.atField_brace, hplain, follows_cons hhole hmark (by decide) _⟩

/-- An operator goes on with an expression, and an operand is next. -/
theorem neutral_of_isBinary {t : Terminal} (h : t.isBinary = true) :
    t.mark.isNeutral = true ∧ t.mark.continuesExpression = true ∧ t.mark.followsExps = true ∧
      t.mark.endsOperand = false ∧ leadsToField t.mark = false :=
  Mark.isOf_cases h (by decide) (by decide)

theorem neutral_of_isUnary {t : Terminal} (h : t.isUnary = true) :
    t.mark.isNeutral = true ∧ t.mark.endsOperand = false ∧ leadsToField t.mark = false :=
  Mark.isOf_cases h (by decide) (by decide)

theorem walked_binary {a b : Tree .exp} {operator : Terminal} (h : operator.isBinary = true)
    (ha : a.Walked reserved) (hb : b.Walked reserved) : (binary a operator h b).Walked reserved := by
  rintro env s f os rest ⟨hat, hplain, hrest⟩ hos
  obtain ⟨os₁, os₂, rfl, hos₁, hos₂⟩ := spells_append.1 hos
  obtain ⟨o, os₂, rfl, hmark, hhole, hos₂⟩ := spells_cons.1 hos₂
  obtain ⟨hneutral, hcontinues, hfollows, hoperand, hfield⟩ := neutral_of_isBinary h
  have hnext : Follows Mark.followsExps (o :: (os₂ ++ rest)) := follows_cons hhole hmark hfollows _
  obtain ⟨_, f₁, ⟨-, rfl⟩, hwalk⟩ := ha ⟨hat, hplain.1, hnext⟩ hos₁
  obtain ⟨_, f₂, ⟨hf₂, rfl⟩, hwalk'⟩ :=
    hb ⟨hat.fits.atOperand hmark hoperand hfield, hplain.2, hrest⟩ hos₂
  refine ⟨s, f₂, ⟨hf₂, rfl⟩, ?_⟩
  simp only [roles, List.append_assoc, List.cons_append, localSites_tree hos₁, localSites_other]
  rw [hwalk, found_neutral hhole hmark hneutral (hat.fits.settle_before hmark hcontinues)
    hat.fits.branch, hwalk']

theorem walked_unary {e : Tree .exp} {operator : Terminal} (h : operator.isUnary = true)
    (he : e.Walked reserved) : (unary operator h e).Walked reserved := by
  rintro env s f os rest ⟨hat, hplain, hrest⟩ hos
  obtain ⟨o, os, rfl, hmark, hhole, hos⟩ := spells_cons.1 hos
  obtain ⟨hneutral, hoperand, hfield⟩ := neutral_of_isUnary h
  obtain ⟨_, f', ⟨hf', rfl⟩, hwalk⟩ :=
    he ⟨hat.fits.atOperand hmark hoperand hfield, hplain, hrest⟩ hos
  refine ⟨s, f', ⟨hf', rfl⟩, ?_⟩
  rw [List.cons_append, found_neutral hhole hmark hneutral (hat.still _) hat.fits.branch, hwalk]
  rfl

theorem walked_one {e : Tree .exp} (he : e.Walked reserved) : (one e).Walked reserved := by
  rintro env s f os rest hbegins hos
  exact he hbegins hos

theorem walked_more {e : Tree .exp} {es : Tree .exps} (he : e.Walked reserved)
    (hes : es.Walked reserved) : (more e es).Walked reserved := by
  rintro env s f os rest ⟨hat, hplain, hrest⟩ hos
  obtain ⟨os₁, os₂, rfl, hos₁, hos₂⟩ := spells_append.1 hos
  obtain ⟨o, os₂, rfl, hmark, hhole, hos₂⟩ := spells_cons.1 hos₂
  have hnext : Follows Mark.followsExps (o :: (os₂ ++ rest)) :=
    follows_cons hhole hmark (by decide) _
  obtain ⟨_, f₁, ⟨-, rfl⟩, hwalk⟩ := he ⟨hat, hplain.1, hnext⟩ hos₁
  obtain ⟨_, f₂, ⟨hf₂, rfl⟩, hwalk'⟩ :=
    hes ⟨hat.fits.atOperand hmark (by decide) (by decide), hplain.2, hrest⟩ hos₂
  refine ⟨s, f₂, ⟨hf₂, rfl⟩, ?_⟩
  simp only [roles, List.append_assoc, List.cons_append, localSites_tree hos₁, localSites_other]
  rw [hwalk, found_neutral hhole hmark (by decide) (hat.fits.settle_before hmark (by decide))
    hat.fits.branch, hwalk']

/-! ## Fields and targets -/

theorem walked_noFields : noFields.Walked reserved := by
  rintro env s f os rest - hos
  obtain rfl := spells_nil.1 hos
  exact ⟨s, f, rfl, rfl⟩

theorem walked_lastField {e : Tree .field} (he : e.Walked reserved) :
    (lastField e).Walked reserved := by
  rintro env s f os rest hbegins hos
  exact he hbegins hos

theorem walked_moreFields {e : Tree .field} {semicolon : Bool} {fs : Tree .fields}
    (he : e.Walked reserved) (hfs : fs.Walked reserved) :
    (moreFields e semicolon fs).Walked reserved := by
  rintro env s f os rest ⟨hat, hplain, hrest⟩ hos
  obtain ⟨os₁, os₂, rfl, hos₁, hos₂⟩ := spells_append.1 hos
  obtain ⟨o, os₂, rfl, hmark, hhole, hos₂⟩ := spells_cons.1 hos₂
  have hsign : (fieldSign semicolon).mark.isNeutral = true ∧
      (fieldSign semicolon).mark.followsExps = true ∧
      (fieldSign semicolon).mark.isSymbolOf ["\x7b", ",", ";"] = true := by
    cases semicolon <;> decide
  have hnext : Follows Mark.followsExps (o :: (os₂ ++ rest)) :=
    follows_cons hhole hmark hsign.2.1 _
  have hat' : AtField reserved env s (some o.mark) := by
    refine ⟨hat.fits, hat.still, ?_⟩
    obtain ⟨hbraces, -⟩ := Bool.and_eq_true_iff.1 hat.starts
    rw [startsField, hbraces, hmark]
    exact hsign.2.2
  obtain ⟨_, f₁, rfl, hwalk⟩ := he ⟨hat, hplain.1, hnext⟩ hos₁
  obtain ⟨_, f₂, rfl, hwalk'⟩ := hfs ⟨hat', hplain.2, hrest⟩ hos₂
  refine ⟨s, f₂, rfl, ?_⟩
  simp only [roles, List.append_assoc, List.cons_append, localSites_tree hos₁, localSites_other]
  rw [hwalk, found_neutral hhole hmark hsign.1 (hat.still _ _) hat.fits.branch, hwalk']

theorem walked_item {e : Tree .exp} (he : e.Walked reserved) : (item e).Walked reserved := by
  rintro env s f os rest ⟨hat, hplain, hrest⟩ hos
  obtain ⟨_, f', ⟨-, rfl⟩, hwalk⟩ := he ⟨hat.atOperand, hplain, hrest⟩ hos
  exact ⟨s, f', rfl, hwalk⟩

theorem walked_named {n : Identifier} {v : Tree .exp} (hv : v.Walked reserved) :
    (named n v).Walked reserved := by
  rintro env s f os rest ⟨hat, hplain, hrest⟩ hos
  obtain ⟨o, os, rfl, hmark, hhole, hos⟩ := spells_cons.1 hos
  obtain ⟨o', os, rfl, hmark', hhole', hos⟩ := spells_cons.1 hos
  have hname : o.mark.isName = true := by rw [hmark, isName_terminal]
  have hkey : ¬ KeyFree s f (o' :: (os ++ rest)) := by
    rw [KeyFree, hat.starts, firstMark_cons, hmark']
    decide
  obtain ⟨_, f', ⟨-, rfl⟩, hwalk⟩ :=
    hv ⟨hat.fits.atOperand hmark' (by decide) (by decide), hplain, hrest⟩ hos
  refine ⟨s, f', rfl, ?_⟩
  simp only [roles, List.cons_append, localSites_other]
  rw [found_field hhole hname (hat.still _ _) hat.fits.branch (.inr hkey),
    found_neutral hhole' hmark' (by decide) (hat.still _ _) hat.fits.branch, hwalk]

theorem walked_keyed {k v : Tree .exp} (hk : k.Walked reserved) (hv : v.Walked reserved) :
    (keyed k v).Walked reserved := by
  rintro env s f os rest ⟨hat, hplain, hrest⟩ hos
  have hterminals : (keyed k v).terminals =
      (.sign "[" :: k.terminals ++ [.sign "]"]) ++ .sign "=" :: v.terminals := by
    simp [terminals]
  rw [hterminals] at hos
  obtain ⟨os₁, os₂, rfl, hos₁, hos₂⟩ := spells_append.1 hos
  obtain ⟨o, os₂, rfl, hmark, hhole, hos₂⟩ := spells_cons.1 hos₂
  obtain ⟨_, f', ⟨-, rfl⟩, hwalk⟩ :=
    hv ⟨hat.fits.atOperand hmark (by decide) (by decide), hplain.2, hrest⟩ hos₂
  have hroles : (keyed k v).roles env =
      (.other :: k.roles env ++ [.other]) ++ .other :: v.roles env := by
    simp [roles]
  have hlength : os₁.length = (Role.other :: k.roles env ++ [Role.other]).length := by
    simpa [length_roles] using hos₁.length_eq
  refine ⟨s, f', rfl, ?_⟩
  rw [hroles, localSites_append hlength, localSites_other, List.append_assoc, List.append_assoc,
    ← hwalk, ← found_neutral hhole hmark (by decide) (hat.still (some (Terminal.sign "]").mark) _)
      hat.fits.branch]
  refine found_enclosed hk hos₁ hat.fits (hat.still f _) (by decide) (by decide) (by decide) ?_
    fun _ _ _ h => h.2
  intro o hmark hhole
  exact ⟨hat.fits.atOperand_bracket _ (by decide), hplain.1, follows_cons hhole hmark (by decide) _⟩

theorem walked_oneTarget {v : Tree (.primary .variable)} (hv : v.Walked reserved) :
    (oneTarget v).Walked reserved := by
  rintro env s f os rest ⟨hat, hplain, hstarts⟩ hos
  exact hv ⟨hat, hplain, keyFree_of_startsField hstarts⟩ hos

theorem walked_moreTargets {v : Tree (.primary .variable)} {ts : Tree .targets}
    (hv : v.Walked reserved) (hts : ts.Walked reserved) : (moreTargets v ts).Walked reserved := by
  rintro env s f os rest ⟨hat, hplain, hstarts⟩ hos
  obtain ⟨os₁, os₂, rfl, hos₁, hos₂⟩ := spells_append.1 hos
  obtain ⟨o, os₂, rfl, hmark, hhole, hos₂⟩ := spells_cons.1 hos₂
  obtain ⟨hbraces, hplain, hplain'⟩ := hplain
  have hstarts' : startsField s (some o.mark) = false := by
    rw [startsField, hbraces, Bool.false_and]
  obtain ⟨_, f₁, ⟨-, rfl⟩, hwalk⟩ := hv ⟨hat, hplain, keyFree_of_startsField hstarts⟩ hos₁
  obtain ⟨_, f₂, ⟨hf₂, rfl⟩, hwalk'⟩ :=
    hts ⟨hat.fits.atOperand hmark (by decide) (by decide), hplain', hstarts'⟩ hos₂
  refine ⟨s, f₂, ⟨hf₂, rfl⟩, ?_⟩
  simp only [roles, List.append_assoc, List.cons_append, localSites_tree hos₁, localSites_other]
  rw [hwalk, found_neutral hhole hmark (by decide) (hat.fits.settle_before hmark (by decide))
    hat.fits.branch, hwalk']

end Tree
end
end LuaVeil
