/-
# Steps over phrases

One lemma for each kind of phrase says what a walk finds in it, and in which
state it goes on behind the phrase.

Main statements:

* `found_neutral`, `found_open`, `found_close`, `found_keyword` and `found_name`,
  steps over one occurrence;
* `found_lambda`, `found_function`, `found_localFunction`, `found_localNames`,
  `found_localValues` and `found_loop`, steps over phrases that declare names.
-/
import LuaVeil.Proofs.Scope.Settling

namespace LuaVeil

/-! ## Names that are declared -/

/-- The names among some occurrences that are not reserved. -/
def freeNames (reserved : Reserved) (os : List Occurrence) : List Occurrence :=
  (nameOccurrences os).filter fun o => !reserved.contains o.mark.text

/-- The texts of the names among some occurrences that are not reserved. -/
def boundNames (reserved : Reserved) (os : List Occurrence) : List Name :=
  (freeNames reserved os).map fun o => o.mark.text

/-- The names among some terminals. -/
def terminalNames (ts : List Terminal) : List Name :=
  (ts.filter fun t => t.mark.isName).map fun t => t.mark.text

theorem terminalNames_append (ts us : List Terminal) :
    terminalNames (ts ++ us) = terminalNames ts ++ terminalNames us := by
  simp [terminalNames]

theorem terminalNames_identifier (n : Identifier) (ts : List Terminal) :
    terminalNames (n.terminal :: ts) = n.text :: terminalNames ts := by
  simp only [terminalNames, List.filter_cons, isName_terminal, if_true, List.map_cons]
  rfl

theorem terminalNames_sign {t : String} {h : t.toList ∈ luaSymbols} (ts : List Terminal) :
    terminalNames (.sign t h :: ts) = terminalNames ts := rfl

theorem terminalNames_commaNames (n : Identifier) (ns : List Identifier) :
    terminalNames (commaNames n ns) = texts (n :: ns) := by
  rw [commaNames, terminalNames_identifier]
  refine congrArg (n.text :: ·) ?_
  induction ns with
  | nil => rfl
  | cons m ns ih =>
    rw [List.flatMap_cons, terminalNames_append, terminalNames_sign, terminalNames_identifier, ih]
    rfl

theorem terminalNames_parameters (ps : Parameters) :
    terminalNames ps.terminals = texts ps.names := by
  rw [Parameters.terminals, List.cons_append, terminalNames_sign, terminalNames_append,
    terminalNames_sign, Parameters.listed]
  split
  · next h _ => rw [h]; rfl
  · next h _ => rw [h]; rfl
  · next h _ => rw [h, terminalNames_commaNames]; exact List.append_nil _
  · next h _ =>
    rw [h, terminalNames_append, terminalNames_commaNames]
    exact (List.append_nil _).trans (List.append_nil _)

theorem texts_nameOccurrences {os : List Occurrence} {ts : List Terminal} (h : Spells os ts) :
    (nameOccurrences os).map (fun o => o.mark.text) = terminalNames ts := by
  have hmarks := congrArg (fun ms => (ms.filter Mark.isName).map Mark.text) h.1
  simpa [nameOccurrences, terminalNames, List.filter_map, Function.comp_def] using hmarks

/-- The names that a phrase makes visible are those it holds, without the reserved ones. -/
theorem contains_boundNames {os : List Occurrence} {ts : List Terminal} (h : Spells os ts)
    (reserved : Reserved) (n : Name) :
    (boundNames reserved os).contains n =
      ((terminalNames ts).contains n && !reserved.contains n) := by
  rw [← texts_nameOccurrences h, Bool.eq_iff_iff]
  simp only [boundNames, freeNames, List.contains_iff_mem, Bool.and_eq_true, List.mem_map,
    List.mem_filter]
  constructor
  · rintro ⟨o, ⟨ho, hfree⟩, rfl⟩
    exact ⟨⟨o, ho, rfl⟩, hfree⟩
  · rintro ⟨⟨o, ho, rfl⟩, hfree⟩
    exact ⟨o, ⟨ho, hfree⟩, rfl⟩

/-- The sites of a phrase that declares its names. -/
theorem localSites_declaredRoles {os : List Occurrence} {ts : List Terminal} (h : Spells os ts)
    (reserved : Reserved) :
    localSites reserved os (declaredRoles ts) = freeNames reserved os := by
  induction ts generalizing os with
  | nil =>
    obtain rfl := spells_nil.1 h
    rfl
  | cons t ts ih =>
    obtain ⟨o, os, rfl, hmark, -, hos⟩ := spells_cons.1 h
    have ih := ih hos
    simp only [declaredRoles, freeNames, nameOccurrences] at ih ⊢
    by_cases hname : o.mark.isName = true
    · simp only [List.map_cons, ← hmark, hname, if_true, localSites, isLocalSite, ih,
        List.filter_cons]
      rfl
    · simp only [List.map_cons, ← hmark, hname, localSites, isLocalSite, ih, List.filter_cons]
      rfl

theorem localSites_other (reserved : Reserved) (o : Occurrence) (os : List Occurrence)
    (rs : List Role) : localSites reserved (o :: os) (.other :: rs) = localSites reserved os rs :=
  rfl

/-- A phrase that neither declares nor uses local variables has no sites. -/
theorem localSites_otherRoles (reserved : Reserved) (os : List Occurrence) (ts : List Terminal) :
    localSites reserved os (otherRoles ts) = [] := by
  induction ts generalizing os with
  | nil => cases os <;> rfl
  | cons t ts ih =>
    cases os with
    | nil => rfl
    | cons o os => exact ih os

/-- Whether a step at a mark leaves scopes and brackets alone. -/
def Mark.isNeutral : Mark → Bool
  | m@(.word _) =>
    m.isWordOf ["and", "or", "not", "nil", "true", "false", "break", "return", "in", "while"]
  | m@(.symbol _) => !m.isSymbolOf ["(", "[", "\x7b", ")", "]", "\x7d", "::"]
  | .number => true
  | .string => true

namespace ScopeState

variable {reserved : Reserved} {env : List Name} {s : ScopeState} {f : Option Mark}
  {o : Occurrence} {os rest : List Occurrence}

/-! ## Steps without deferred actions -/

theorem step_name (hname : o.mark.isName = true) (hsettle : s.settle f o.mark = s)
    (hbranch : s.inBranch = false) (next : Cursor) :
    s.step reserved (.after f os) o next = (s.atName (.after f os) o, next) := by
  rw [step_of_name hname]
  exact congrArg (fun t => (atName t _ o, next)) (arrive_of_settled hsettle hbranch)

theorem step_keyword {w : Text} (hmark : o.mark = .word w) (hw : isKeyword w = true)
    (hsettle : s.settle f o.mark = s) (hbranch : s.inBranch = false) (next : Cursor) :
    s.step reserved (.after f os) o next = s.atKeyword reserved w false f next := by
  have hname : o.mark.isName = false := by rw [hmark, Mark.isName, hw]; rfl
  rw [step_of_keyword hmark hname, Cursor.after, arrive_of_settled hsettle hbranch, hsettle,
    hbranch]

theorem step_symbol {t : Text} (hmark : o.mark = .symbol t)
    (hsettle : s.settle f o.mark = s) (hbranch : s.inBranch = false) (next : Cursor) :
    s.step reserved (.after f os) o next = s.atSymbol t next := by
  rw [step_of_symbol hmark, Cursor.after, arrive_of_settled hsettle hbranch]

theorem step_literal (hmark : o.mark = .number ∨ o.mark = .string)
    (hsettle : s.settle f o.mark = s) (hbranch : s.inBranch = false) (next : Cursor) :
    s.step reserved (.after f os) o next = (s, next) := by
  rw [step_of_literal hmark, Cursor.after, arrive_of_settled hsettle hbranch]

/-! ## Steps over one occurrence -/

theorem found_neutral {t : Terminal} (hhole : o.inHole = false) (hmark : o.mark = t.mark)
    (hneutral : t.mark.isNeutral = true) (hsettle : s.settle f o.mark = s)
    (hbranch : s.inBranch = false) :
    found reserved s f (o :: os) = found reserved s (some o.mark) os := by
  rw [← hmark] at hneutral
  refine found_step [] hhole ?_ rfl
  cases hmark : o.mark with
  | word w =>
    rw [hmark] at hneutral
    simp only [Mark.isNeutral, Mark.isWordOf, List.any_cons, List.any_nil, Bool.or_false,
      Bool.or_eq_true, beq_iff_eq] at hneutral
    rcases hneutral with rfl | rfl | rfl | rfl | rfl | rfl | rfl | rfl | rfl | rfl <;>
      exact step_keyword hmark (by decide) hsettle hbranch _
  | symbol t =>
    rw [hmark] at hneutral
    have hother : (some (Mark.symbol t)).any
        (Mark.isSymbolOf ["(", "[", "\x7b", ")", "]", "\x7d", "::"]) = false := by
      simpa [Mark.isNeutral] using hneutral
    have hopen := any_isSymbolOf_of_subset hother Cursor.openBrackets (by simp [Cursor.openBrackets])
    have hclose :=
      any_isSymbolOf_of_subset hother Cursor.closeBrackets (by simp [Cursor.closeBrackets])
    have htype := any_isSymbolOf_of_subset hother ["::"] (by simp)
    rw [Option.any_some] at hopen hclose htype
    rw [step_symbol hmark hsettle hbranch]
    simp [atSymbol, hopen, hclose, htype]
  | number => exact step_literal (.inl hmark) hsettle hbranch _
  | string => exact step_literal (.inr hmark) hsettle hbranch _

theorem found_open {b : Text} (hhole : o.inHole = false) (hmark : o.mark = .symbol b)
    (hb : Mark.isSymbolOf Cursor.openBrackets (.symbol b) = true)
    (hsettle : s.settle f o.mark = s) (hbranch : s.inBranch = false) :
    found reserved s f (o :: os) =
      found reserved { s with brackets := b :: s.brackets } (some o.mark) os := by
  refine found_step [] hhole ?_ rfl
  rw [step_symbol hmark hsettle hbranch, atSymbol]
  simp only [hb, if_true]

/-- The brackets after a closing one are those before the bracket that it closes. -/
theorem found_close {b b' : Text} (hhole : o.inHole = false) (hmark : o.mark = .symbol b)
    (hb : Mark.isSymbolOf Cursor.openBrackets (.symbol b) = false)
    (hb' : Mark.isSymbolOf Cursor.closeBrackets (.symbol b) = true)
    (hfits : Fits reserved env s) :
    found reserved { s with brackets := b' :: s.brackets } f (o :: os) =
      found reserved s (some o.mark) os := by
  refine found_step [] hhole ?_ rfl
  rw [step_symbol hmark (hfits.still_bracket b' f _) hfits.branch, atSymbol]
  simp only [hb, hb', Bool.false_eq_true, if_false, if_true, List.tail_cons]

/-- A step at a keyword that declares nothing. -/
theorem found_keyword {w : Text} {s' : ScopeState} (hhole : o.inHole = false)
    (hmark : o.mark = .word w) (hw : isKeyword w = true) (hsettle : s.settle f o.mark = s)
    (hbranch : s.inBranch = false)
    (hat : ∀ next, s.atKeyword reserved w false f next = (s.keyword w false f, next))
    (hkeyword : s.keyword w false f = s') (hsites : s'.sites = s.sites) :
    found reserved s f (o :: os) = found reserved s' (some (.word w)) os := by
  refine found_step [] hhole ?_ hsites
  rw [step_keyword hmark hw hsettle hbranch, hat, hkeyword, hmark]

/-- After the `end` of a scope the walk goes on in the state around it. -/
theorem found_end (hhole : o.inHole = false) (hmark : o.mark = (Terminal.keyword "end").mark)
    (hfits : Fits reserved env s) (names : List Name) :
    found reserved (s.inner names) f (o :: os) =
      found reserved s (some (Terminal.keyword "end").mark) os :=
  found_keyword hhole hmark (by decide) (hfits.still_inner names f _) hfits.branch (fun _ => rfl)
    rfl rfl

/-! ### Names -/

/-- Whether a name behind the mark `f` can be the key of a field. -/
def startsField (s : ScopeState) (f : Option Mark) : Bool :=
  s.inBraces && f.any (Mark.isSymbolOf ["\x7b", ",", ";"])

/-- Whether a name between the mark `f` and some occurrences is no key of a field. -/
def KeyFree (s : ScopeState) (f : Option Mark) (os : List Occurrence) : Prop :=
  (startsField s f && (firstMark os).any (Mark.isSymbolOf ["="])) = false

theorem startsField_of_not {m : Mark} (h : m.isSymbolOf ["\x7b", ",", ";"] = false) :
    startsField s (some m) = false := by
  rw [startsField, Option.any_some, h, Bool.and_false]

theorem keyFree_of_follows (h : Follows Mark.followsExps os) : KeyFree s f os := by
  have hequals : (firstMark os).any (Mark.isSymbolOf ["="]) = false :=
    h.any_eq_false fun m hm => by simpa [Mark.followsExps] using hm
  rw [KeyFree, hequals, Bool.and_false]

theorem keyFree_of_startsField (h : startsField s f = false) : KeyFree s f os := by
  rw [KeyFree, h, Bool.false_and]

theorem isConstructorKey_after :
    s.isConstructorKey (.after f (o :: os)) =
      (startsField s f && (firstMark os).any (Mark.isSymbolOf ["="])) := by
  cases os <;> rfl

/-- The use of a name is a site if the name stands for a local variable. -/
theorem sites_use {n : Identifier} (hfits : Fits reserved env s) (hmark : o.mark = n.terminal.mark) :
    (s.use o).sites = (localSites reserved [o] [useRole env n]).reverse ++ s.sites := by
  have htext : o.mark.text = n.text := by
    rw [hmark]
    rfl
  rw [use, htext, hfits.visible, useRole]
  cases henv : env.contains n.text <;> cases hreserved : reserved.contains n.text <;>
    simp [localSites, isLocalSite, htext, hreserved]

theorem found_use (s : ScopeState) (o : Occurrence) :
    found reserved (s.use o) f os = found reserved s f os := by
  rw [use]
  split <;> rfl

theorem found_name {n : Identifier} (hhole : o.inHole = false) (hmark : o.mark = n.terminal.mark)
    (hfits : Fits reserved env s) (hsettle : s.settle f o.mark = s)
    (hfield : f.any leadsToField = false) (hkey : KeyFree s f os) :
    found reserved s f (o :: os) =
      localSites reserved [o] [useRole env n] ++ found reserved s (some o.mark) os := by
  have hname : o.mark.isName = true := by rw [hmark, isName_terminal]
  rw [← found_use (f := some o.mark) s o]
  refine found_step _ hhole ?_ (sites_use hfits hmark)
  rw [step_name hname hsettle hfits.branch, atName, isConstructorKey_after, hkey]
  show (if f.any leadsToField || false then s else s.use o, _) = _
  rw [hfield]
  rfl

/-- The name of a field, of a method or of a key is no site. -/
theorem found_field (hhole : o.inHole = false) (hname : o.mark.isName = true)
    (hsettle : s.settle f o.mark = s) (hbranch : s.inBranch = false)
    (hfield : f.any leadsToField = true ∨ ¬ KeyFree s f os) :
    found reserved s f (o :: os) = found reserved s (some o.mark) os := by
  refine found_step [] hhole ?_ rfl
  rw [step_name hname hsettle hbranch, atName, isConstructorKey_after]
  rcases hfield with hfield | hkey
  · show (if f.any leadsToField || _ then s else s.use o, _) = _
    rw [hfield]
    rfl
  · rw [Bool.of_not_eq_false hkey, Bool.or_true]
    rfl

/-! ## Steps over declarations -/

/-- What a step over a phrase notes is found first. -/
theorem found_phrase {s' : ScopeState} {f' : Option Mark} (new : List Occurrence)
    (hhole : o.inHole = false)
    (hstep : ∃ declared, s.step reserved (.after f (o :: os)) o (.after (some o.mark) os) =
      ({ s' with declared, sites := new.reverse ++ s.sites }, .after f' rest)) :
    found reserved s f (o :: os) = new ++ found reserved s' f' rest := by
  obtain ⟨declared, hstep⟩ := hstep
  have hfound := found_step new hhole hstep rfl
  exact hfound

/-- The names that a phrase declares are noted, those that are not reserved. -/
theorem declareAll_nameOccurrences (reserved : Reserved) (s : ScopeState) (os : List Occurrence) :
    ∃ declared, s.declareAll reserved (nameOccurrences os) =
      ({ s with declared, sites := (freeNames reserved os).reverse ++ s.sites },
        boundNames reserved os) := by
  have hfold : ∀ (free : List Occurrence) (s : ScopeState), ∃ declared,
      free.foldl declare s = { s with declared, sites := free.reverse ++ s.sites } := by
    intro free
    induction free with
    | nil => exact fun s => ⟨s.declared, rfl⟩
    | cons o free ih =>
      intro s
      obtain ⟨declared, h⟩ := ih (s.declare o)
      refine ⟨declared, h.trans ?_⟩
      rw [List.reverse_cons, List.append_assoc]
      rfl
  obtain ⟨declared, h⟩ := hfold (freeNames reserved os) s
  exact ⟨declared, Prod.ext h rfl⟩

/-- A function is entered behind its parameters. -/
theorem enterFunction_of_spells (reserved : Reserved) {ps : Parameters} (hos : Spells os ps.terminals)
    (hrest : (firstMark rest).any (Mark.isSymbolOf [":"]) = false) (s : ScopeState)
    (f : Option Mark) :
    ∃ declared, s.enterFunction reserved (.after f (os ++ rest)) =
      ({ s.inner (boundNames reserved os) with
          declared, sites := (freeNames reserved os).reverse ++ s.sites },
        .after (some (Terminal.sign ")").mark) rest) := by
  obtain ⟨declared, h⟩ := declareAll_nameOccurrences reserved s.openScope os
  refine ⟨declared, ?_⟩
  rw [enterFunction, Cursor.parameters_of_spells hos hrest]
  dsimp only
  rw [h]
  simp [bind, openScope, inner]

theorem firstMark_parameters {ps : Parameters} (hos : Spells os ps.terminals) :
    firstMark (os ++ rest) = some (Terminal.sign "(").mark := by
  obtain ⟨o, os, rfl, hmark, -⟩ := spells_cons.1 hos
  rw [List.cons_append, firstMark_cons, hmark]

theorem found_lambda {ps : Parameters} (hhole : o.inHole = false)
    (hmark : o.mark = (Terminal.keyword "function").mark) (hos : Spells os ps.terminals)
    (hrest : (firstMark rest).any (Mark.isSymbolOf [":"]) = false)
    (hsettle : s.settle f o.mark = s) (hbranch : s.inBranch = false) :
    found reserved s f (o :: (os ++ rest)) =
      freeNames reserved os ++
        found reserved (s.inner (boundNames reserved os)) (some (Terminal.sign ")").mark) rest := by
  obtain ⟨declared, henter⟩ :=
    enterFunction_of_spells reserved hos hrest s (some o.mark)
  have hname : (Cursor.after (some o.mark) (os ++ rest)).name? = none := by
    obtain ⟨o', os, rfl, hmark', -⟩ := spells_cons.1 hos
    simp [Cursor.name?, Cursor.after, hmark', Terminal.sign, Terminal.mark, Mark.isName]
  refine found_phrase _ hhole ⟨declared, ?_⟩
  rw [step_keyword hmark (by decide) hsettle hbranch]
  show s.function reserved _ = _
  rw [function, hname]
  exact henter

theorem found_function {fn : FunctionName} {ps : Parameters} {root : Occurrence}
    {os₁ os₂ : List Occurrence} (hhole : o.inHole = false)
    (hmark : o.mark = (Terminal.keyword "function").mark) (hroothole : root.inHole = false)
    (hroot : root.mark = fn.root.terminal.mark) (hos₁ : Spells os₁ fn.terminals.tail)
    (hos₂ : Spells os₂ ps.terminals) (hrest : (firstMark rest).any (Mark.isSymbolOf [":"]) = false)
    (hfits : Fits reserved env s) (hsettle : s.settle f o.mark = s) :
    found reserved s f (o :: root :: (os₁ ++ (os₂ ++ rest))) =
      localSites reserved [root] [useRole env fn.root] ++ (freeNames reserved os₂ ++
        found reserved (s.inner (boundNames reserved os₂)) (some (Terminal.sign ")").mark) rest) := by
  have hname : root.mark.isName = true := by rw [hroot, isName_terminal]
  have hskip : (firstMark (os₂ ++ rest)).any (Mark.isSymbolOf [".", ":"]) = false := by
    rw [firstMark_parameters hos₂]
    decide
  obtain ⟨f', hskip⟩ := Cursor.skipFields_of_spells hos₁ hskip (some root.mark)
  obtain ⟨declared, henter⟩ :=
    enterFunction_of_spells reserved hos₂ hrest (s.use root) f'
  rw [← List.append_assoc (localSites _ _ _)]
  refine found_phrase _ hhole ⟨declared, ?_⟩
  rw [step_keyword hmark (by decide) hsettle hfits.branch, List.reverse_append, List.append_assoc,
    ← sites_use hfits hroot]
  show s.function reserved _ = _
  rw [function, Cursor.name?_after hroothole hname]
  dsimp only
  rw [hskip, henter, use]
  split <;> rfl

theorem found_localFunction {n : Identifier} {ps : Parameters} {o' name : Occurrence}
    (hhole : o.inHole = false) (hmark : o.mark = (Terminal.keyword "local").mark)
    (hhole' : o'.inHole = false) (hmark' : o'.mark = (Terminal.keyword "function").mark)
    (hnamehole : name.inHole = false) (hname : name.mark = n.terminal.mark)
    (hos : Spells os ps.terminals) (hrest : (firstMark rest).any (Mark.isSymbolOf [":"]) = false)
    (hsettle : s.settle f o.mark = s) (hbranch : s.inBranch = false) :
    found reserved s f (o :: o' :: name :: (os ++ rest)) =
      freeNames reserved [name] ++ (freeNames reserved os ++
        found reserved
          ({ s with scope := boundNames reserved [name] ++ s.scope }.inner (boundNames reserved os))
          (some (Terminal.sign ")").mark) rest) := by
  have hisName : name.mark.isName = true := by rw [hname, isName_terminal]
  obtain ⟨declared, hdeclare⟩ := declareAll_nameOccurrences reserved s [name]
  have hsingle : nameOccurrences [name] = [name] := by simp [nameOccurrences, hisName]
  rw [hsingle] at hdeclare
  obtain ⟨declared', henter⟩ := enterFunction_of_spells reserved hos hrest
    ((s.declareAll reserved [name]).1.bind (s.declareAll reserved [name]).2) (some name.mark)
  rw [← List.append_assoc]
  refine found_phrase _ hhole ⟨declared', ?_⟩
  have hfunction : ((Cursor.after (some o.mark) (o' :: name :: (os ++ rest))).peek 0).any
      (Mark.isWordOf ["function"]) = true := by
    show o'.mark.isWordOf ["function"] = true
    rw [hmark']
    decide
  rw [step_localFunction hmark hfunction, Cursor.advance_after hhole', Cursor.after,
    arrive_of_settled hsettle hbranch, localFunction, Cursor.name?_after hnamehole hisName]
  dsimp only
  rw [henter, hdeclare]
  simp [bind, inner]

/-- Names after `local` are not those of a function. -/
theorem step_local_names {n : Identifier} {ns : List Identifier}
    (hmark : o.mark = (Terminal.keyword "local").mark) (hos : Spells os (commaNames n ns))
    (hsettle : s.settle f o.mark = s) (hbranch : s.inBranch = false) (as : List Occurrence) :
    s.step reserved (.after f as) o (.after (some o.mark) (os ++ rest)) =
      s.localNames reserved (.after (some o.mark) (os ++ rest)) := by
  obtain ⟨name, os, rfl, hname, -⟩ := spells_cons.1 hos
  have hfirst : (firstMark (name :: os ++ rest)).any Mark.isName = true := by
    rw [List.cons_append, firstMark_cons, Option.any_some, hname, isName_terminal]
  rw [step_local hmark (Cursor.not_function_of_isName _ hfirst), Cursor.after,
    arrive_of_settled hsettle hbranch]

theorem found_localNames {n : Identifier} {ns : List Identifier} (hhole : o.inHole = false)
    (hmark : o.mark = (Terminal.keyword "local").mark) (hos : Spells os (commaNames n ns))
    (hrest : (firstMark rest).any (Mark.isSymbolOf ["<", ":", ",", "="]) = false)
    (hsettle : s.settle f o.mark = s) (hbranch : s.inBranch = false) :
    ∃ m, m.isName = true ∧ found reserved s f (o :: (os ++ rest)) =
      freeNames reserved os ++
        found reserved { s with scope := boundNames reserved os ++ s.scope } (some m) rest := by
  obtain ⟨m, hm, hnames⟩ := Cursor.names_of_spells hos
    (any_isSymbolOf_of_subset hrest _ (by simp)) (some o.mark)
  obtain ⟨declared, hdeclare⟩ := declareAll_nameOccurrences reserved s os
  have hvalues := any_isSymbolOf_of_subset hrest ["="] (by simp)
  refine ⟨m, hm, found_phrase _ hhole ⟨declared, ?_⟩⟩
  rw [step_local_names hmark hos hsettle hbranch]
  simp only [localNames, hnames, hdeclare, Cursor.sees_after, hvalues]
  rfl

theorem found_localValues {n : Identifier} {ns : List Identifier} {eq : Occurrence}
    (hhole : o.inHole = false) (hmark : o.mark = (Terminal.keyword "local").mark)
    (hos : Spells os (commaNames n ns)) (heqhole : eq.inHole = false)
    (heq : eq.mark = (Terminal.sign "=").mark) (hsettle : s.settle f o.mark = s)
    (hbranch : s.inBranch = false) :
    found reserved s f (o :: (os ++ eq :: rest)) =
      freeNames reserved os ++
        found reserved (s.defer (.bind (boundNames reserved os))) (some eq.mark) rest := by
  have hends : Cursor.endsNames (firstMark (eq :: rest)) := by
    rw [firstMark_cons, heq]
    show Option.any _ _ = false
    decide
  obtain ⟨m, -, hnames⟩ := Cursor.names_of_spells hos hends (some o.mark)
  obtain ⟨declared, hdeclare⟩ := declareAll_nameOccurrences reserved s os
  have hvalues : (firstMark (eq :: rest)).any (Mark.isSymbolOf ["="]) = true := by
    rw [firstMark_cons, heq]
    decide
  refine found_phrase _ hhole ⟨declared, ?_⟩
  rw [step_local_names hmark hos hsettle hbranch]
  simp only [localNames, hnames, hdeclare, Cursor.sees_after, hvalues, Cursor.advance_after heqhole]
  rfl

theorem found_loop {n : Identifier} {ns : List Identifier} (hhole : o.inHole = false)
    (hmark : o.mark = (Terminal.keyword "for").mark) (hos : Spells os (commaNames n ns))
    (hrest : (firstMark rest).any (Mark.isSymbolOf ["<", ":", ","]) = false)
    (hsettle : s.settle f o.mark = s) (hbranch : s.inBranch = false) :
    ∃ m, m.isName = true ∧ found reserved s f (o :: (os ++ rest)) =
      freeNames reserved os ++
        found reserved { s with loops := (s.depth, boundNames reserved os) :: s.loops } (some m)
          rest := by
  obtain ⟨m, hm, hnames⟩ := Cursor.names_of_spells hos hrest (some o.mark)
  obtain ⟨declared, hdeclare⟩ := declareAll_nameOccurrences reserved s os
  refine ⟨m, hm, found_phrase _ hhole ⟨declared, ?_⟩⟩
  rw [step_for hmark, Cursor.after, arrive_of_settled hsettle hbranch]
  simp only [loopNames, hnames, hdeclare]

end ScopeState
end LuaVeil
