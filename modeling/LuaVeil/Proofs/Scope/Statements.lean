/-
# Walks over statements

A walk over a statement leaves the state as it was, but for the names that the
statement makes visible in the innermost scope, and for an action that is done
before whatever follows the statement.

Main statements: `walked_repeatLoop`, `walked_branch`, `walked_function`,
`walked_localValues` and their like, one for each production.
-/
import LuaVeil.Proofs.Scope.Expressions

namespace LuaVeil

open ScopeState

variable {reserved : Reserved} {env names : List Name} {s : ScopeState} {f : Option Mark}
  {m : Mark} {o : Occurrence} {os rest : List Occurrence}

/-! ## Behind a statement -/

/-- Behind what ends an operand no operand and no field begins. -/
theorem Mark.of_endsOperand (h : m.endsOperand = true) :
    m.opensExpression = false ∧ m.isSymbolOf ["\x7b", ",", ";"] = false := by
  cases m with
  | word w =>
    refine ⟨?_, rfl⟩
    rw [← Bool.not_eq_true]
    intro hopens
    simp only [opensExpression, isWordOf, List.any_eq_true, beq_iff_eq] at hopens
    obtain ⟨v, hv, rfl⟩ := hopens
    have hall : (["return", "and", "or", "not", "in", "until", "while", "if", "elseif"].all
      fun v => !(Mark.word v.toList).endsOperand) = true := by decide
    have hnot := List.all_eq_true.1 hall v hv
    rw [h] at hnot
    exact absurd hnot (by decide)
  | symbol t =>
    simp only [endsOperand, isSymbolOf, List.any_eq_true, beq_iff_eq] at h
    obtain ⟨v, hv, rfl⟩ := h
    have hall : ([")", "]", "\x7d", "..."].all fun v =>
      !(Mark.symbol v.toList).opensExpression &&
        !(Mark.symbol v.toList).isSymbolOf ["\x7b", ",", ";"]) = true := by decide
    simpa using List.all_eq_true.1 hall v hv
  | number => exact ⟨rfl, rfl⟩
  | string => exact ⟨rfl, rfl⟩

theorem AtStatement.still (h : AtStatement reserved env s f) (f' : Option Mark) : Still s f' :=
  h.fits.still h.settled f'

/-- Where a statement can begin, an operand can. -/
theorem AtStatement.atOperand (h : AtStatement reserved env s f) :
    AtOperand reserved env s f := by
  refine ⟨h.fits, h.still f, ?_⟩
  have hopens := h.opens
  cases f with
  | none => rfl
  | some m =>
    cases m with
    | symbol t =>
      rw [← Bool.not_eq_true]
      intro hfield
      simp only [Option.any_some, leadsToField, Mark.isSymbolOf, List.any_eq_true, beq_iff_eq]
        at hfield
      obtain ⟨v, hv, rfl⟩ := hfield
      have hall : ([".", ":"].all fun v => (Mark.symbol v.toList).opensExpression) = true := by
        decide
      exact Bool.eq_false_iff.1 hopens (List.all_eq_true.1 hall v hv)
    | word w => rfl
    | number => rfl
    | string => rfl

/-- Behind a statement another one can begin. -/
theorem AtStatement.next {env' : List Name} (h : AtStatement reserved env s f)
    (hfits : Fits reserved env' { s with scope := names }) {f' : Option Mark}
    (hf' : f'.any Mark.endsOperand = true) :
    AtStatement reserved env' { s with scope := names } f' := by
  obtain ⟨m, rfl, hm⟩ := (Option.any_eq_true _ _).1 hf'
  obtain ⟨hopens, hfield⟩ := Mark.of_endsOperand hm
  exact ⟨hfits, ⟨h.settled.loops, h.settled.pending⟩, hopens, startsField_of_not hfield⟩

/-- The state of a scope that has just begun. -/
theorem ScopeState.Fits.inner_nil (h : Fits reserved env s) : Fits reserved env (s.inner []) where
  conditionals := h.conditionals
  branch := h.branch
  loops := fun l hl => Nat.le_succ_of_le (h.loops l hl)
  pending := fun p hp => ⟨Nat.le_succ_of_le (h.pending p hp).1, (h.pending p hp).2⟩
  visible := h.visible

/-! ## Keywords of blocks -/

/-- A `do` that belongs to no loop over names opens a scope without names. -/
theorem found_do (hhole : o.inHole = false) (hmark : o.mark = (Terminal.keyword "do").mark)
    (hfits : Fits reserved env s) (hsettled : Settled s) :
    found reserved s f (o :: os) =
      found reserved (s.inner []) (some (Terminal.keyword "do").mark) os := by
  have hdo : s.enterDo = s.inner [] := by
    have hloops := hsettled.loops
    unfold enterDo
    cases h : s.loops with
    | nil => simp [openScope, ScopeState.inner, h]
    | cons l loops =>
      rw [h] at hloops
      have hne : l.1 ≠ s.depth := Nat.ne_of_lt (hloops l rfl)
      simp [openScope, ScopeState.inner, h, hne]
  exact found_keyword hhole hmark (by decide) (hfits.still hsettled f _) hfits.branch (fun _ => rfl)
    hdo rfl

/-- The `do` of a loop makes its names visible. -/
theorem found_loopDo (hhole : o.inHole = false) (hmark : o.mark = (Terminal.keyword "do").mark)
    (hfits : Fits reserved env s) (hsettled : Settled s) (names : List Name) :
    found reserved { s with loops := (s.depth, names) :: s.loops } f (o :: os) =
      found reserved (s.inner names) (some (Terminal.keyword "do").mark) os := by
  have hdo : ({ s with loops := (s.depth, names) :: s.loops } : ScopeState).enterDo =
      s.inner names := by
    simp [enterDo, openScope, ScopeState.inner, depth, ScopeState.bind]
  have hstill : Still { s with loops := (s.depth, names) :: s.loops } f :=
    fun _ => settle_eq_self fun p hp => waits_of_lt (hsettled.pending p hp) (hfits.pending p hp).2
  exact found_keyword hhole hmark (by decide) (hstill _) hfits.branch (fun _ => rfl) hdo rfl

/-- The `then` of a statement opens a scope. -/
theorem found_then (hhole : o.inHole = false) (hmark : o.mark = (Terminal.keyword "then").mark)
    (hfits : Fits reserved env s) (hsettled : Settled s) :
    found reserved s f (o :: os) =
      found reserved (s.inner []) (some (Terminal.keyword "then").mark) os := by
  have hthen : s.keyword "then".toList false f = s.inner [] := by
    have hnot : s.inConditional = false := by
      rw [inConditional, hfits.conditionals]
      rfl
    show (if s.inConditional then _ else _) = _
    rw [hnot]
    rfl
  exact found_keyword hhole hmark (by decide) (hfits.still hsettled f _) hfits.branch (fun _ => rfl)
    hthen rfl

theorem found_repeat (hhole : o.inHole = false)
    (hmark : o.mark = (Terminal.keyword "repeat").mark) (hat : AtStatement reserved env s f) :
    found reserved s f (o :: os) =
      found reserved (s.inner []) (some (Terminal.keyword "repeat").mark) os :=
  found_keyword hhole hmark (by decide) (hat.still f _) hat.fits.branch (fun _ => rfl) rfl rfl

theorem found_until (hhole : o.inHole = false) (hmark : o.mark = (Terminal.keyword "until").mark)
    (hfits : Fits reserved env s) (names : List Name) :
    found reserved (s.inner names) f (o :: os) =
      found reserved ((s.inner names).defer .close) (some (Terminal.keyword "until").mark) os :=
  found_keyword hhole hmark (by decide) (hfits.still_inner names f _) hfits.branch (fun _ => rfl)
    rfl rfl

/-- What was deferred to the end of an expression is done before what follows the statement. -/
theorem found_defer {s' : ScopeState} {action : Deferred} (hconditionals : s.conditionals = [])
    (hperform : (s.defer action).perform action = { s' with pending := (s.defer action).pending })
    (hpending : s'.pending = s.pending) (hsites : s'.sites = s.sites)
    (hfits : Fits reserved env s') (hsettled : Settled s') (hf : f.any Mark.endsOperand = true)
    (hrest : Follows Mark.followsStat rest) :
    found reserved (s.defer action) f rest = found reserved s' f rest := by
  refine found_congr hsites.symm fun o ho => ?_
  obtain ⟨hhole, hfollows⟩ := hrest o ho
  have hnext := Mark.continuesExpression_of_followsStat hfollows
  refine ⟨hhole, ?_⟩
  rw [settle_defer hconditionals hperform hpending hfits hsettled hf hnext,
    hfits.still hsettled f o.mark]

namespace Tree

/-! ## Simple statements -/

theorem walked_assign {ts : Tree .targets} {es : Tree .exps} (hts : ts.Walked reserved)
    (hes : es.Walked reserved) : (assign ts es).Walked reserved := by
  rintro env s f os rest ⟨hat, hplain, hrest⟩ hos
  obtain ⟨os₁, os₂, rfl, hos₁, hos₂⟩ := spells_append.1 hos
  obtain ⟨o, os₂, rfl, hmark, hhole, hos₂⟩ := spells_cons.1 hos₂
  have hbegins : ts.Begins reserved env s f (o :: (os₂ ++ rest)) :=
    ⟨hat.atOperand, hplain.1, hat.noField⟩
  obtain ⟨_, f₁, ⟨-, rfl⟩, hwalk⟩ := hts hbegins hos₁
  obtain ⟨_, f₂, ⟨hf₂, rfl⟩, hwalk'⟩ :=
    hes ⟨hat.fits.atOperand hmark (by decide) (by decide), hplain.2,
      hrest.mono fun _ => Mark.followsExps_of_followsStat⟩ hos₂
  refine ⟨s, f₂, ⟨hf₂, hat.fits, s.scope, rfl⟩, ?_⟩
  simp only [roles, List.append_assoc, List.cons_append, localSites_tree hos₁, localSites_other]
  rw [hwalk, found_neutral hhole hmark (by decide) (hat.still _ _) hat.fits.branch, hwalk']

theorem walked_run {p : Tree (.primary .call)} (hp : p.Walked reserved) :
    (run p).Walked reserved := by
  rintro env s f os rest ⟨hat, hplain, -⟩ hos
  obtain ⟨_, f', ⟨hf', rfl⟩, hwalk⟩ :=
    hp ⟨hat.atOperand, hplain, keyFree_of_startsField hat.noField⟩ hos
  exact ⟨s, f', ⟨hf', hat.fits, s.scope, rfl⟩, hwalk⟩

theorem walked_doBlock {b : Tree .block} (hb : b.Walked reserved) :
    (doBlock b).Walked reserved := by
  rintro env s f os rest ⟨hat, hplain, -⟩ hos
  obtain ⟨o, os, rfl, hmark, hhole, hos⟩ := spells_cons.1 hos
  refine ⟨s, some (Terminal.keyword "end").mark, ⟨by decide, hat.fits, s.scope, rfl⟩, ?_⟩
  rw [List.cons_append, found_do hhole hmark hat.fits hat.settled]
  exact found_body hb hat.fits hat.fits.inner_nil hplain (by decide) (by decide) hos

theorem walked_whileLoop {e : Tree .exp} {b : Tree .block} (he : e.Walked reserved)
    (hb : b.Walked reserved) : (whileLoop e b).Walked reserved := by
  rintro env s f os rest ⟨hat, hplain, -⟩ hos
  simp only [terminals, List.append_assoc, List.cons_append] at hos
  obtain ⟨o, os₁, o', os₂, rfl, hmark, hhole, hos₁, hmark', hhole', hos₂⟩ := hos.between
  have hdo : Follows Mark.followsExps (o' :: (os₂ ++ rest)) :=
    follows_cons hhole' hmark' (by decide) _
  obtain ⟨_, f₁, ⟨-, rfl⟩, hwalk⟩ :=
    he ⟨hat.fits.atOperand hmark (by decide) (by decide), hplain.1, hdo⟩ hos₁
  refine ⟨s, some (Terminal.keyword "end").mark, ⟨by decide, hat.fits, s.scope, rfl⟩, ?_⟩
  simp only [roles, List.append_assoc, List.cons_append, localSites_tree hos₁, localSites_other]
  rw [found_neutral hhole hmark (by decide) (hat.still _ _) hat.fits.branch, hwalk,
    found_do hhole' hmark' hat.fits hat.settled]
  exact congrArg _ (found_body hb hat.fits hat.fits.inner_nil hplain.2 (by decide) (by decide) hos₂)

/-- The names of the body of a `repeat` are visible up to the end of its condition. -/
theorem walked_repeatLoop {b : Tree .block} {e : Tree .exp} (hb : b.Walked reserved)
    (he : e.Walked reserved) : (repeatLoop b e).Walked reserved := by
  rintro env s f os rest ⟨hat, hplain, hrest⟩ hos
  simp only [terminals, List.cons_append] at hos
  obtain ⟨o, os₁, o', os₂, rfl, hmark, hhole, hos₁, hmark', hhole', hos₂⟩ := hos.between
  have hbegin : AtStatement reserved env (s.inner []) (some (Terminal.keyword "repeat").mark) :=
    ⟨hat.fits.inner_nil, hat.fits.settled_inner [], by decide, startsField_of_not (by decide)⟩
  have huntil : Follows Mark.followsBlock (o' :: (os₂ ++ rest)) :=
    follows_cons hhole' hmark' (by decide) _
  obtain ⟨_, f₁, ⟨hfits, names, rfl⟩, hwalk⟩ := hb ⟨hbegin, hplain.1, huntil⟩ hos₁
  have hfits : Fits reserved (b.binds ++ env) (s.inner names) := hfits
  obtain ⟨_, f₂, ⟨hf₂, rfl⟩, hwalk'⟩ :=
    he ⟨(hfits.defer .close).atOperand hmark' (by decide) (by decide), hplain.2,
      hrest.mono fun _ => Mark.followsExps_of_followsStat⟩ hos₂
  have hclose : found reserved ((s.inner names).defer .close) f₂ rest = found reserved s f₂ rest :=
    found_defer hfits.conditionals rfl rfl rfl hat.fits hat.settled hf₂ hrest
  refine ⟨s, f₂, ⟨hf₂, hat.fits, s.scope, rfl⟩, ?_⟩
  simp only [roles, List.append_assoc, List.cons_append, localSites_tree hos₁, localSites_other]
  rw [found_repeat hhole hmark hat, hwalk, ← hclose, ← hwalk', hmark']
  exact congrArg _ (found_until hhole' hmark' hat.fits names)

/-! ## Branches -/

/-- What follows a branch closes its block. -/
theorem head_clauses (cs : Tree .clauses) :
    ∃ a as, cs.terminals = a :: as ∧ a.mark.followsBlock = true := by
  cases cs with
  | endIf => exact ⟨_, _, rfl, by decide⟩
  | elseBlock b => exact ⟨_, _, rfl, by decide⟩
  | elseIf e b cs => exact ⟨_, _, rfl, by decide⟩

/-- What is found from a condition to the `end`, in the state around its branch. -/
theorem found_conditional {e : Tree .exp} {b : Tree .block} {cs : Tree .clauses}
    (rest : List Occurrence) (he : e.Walked reserved) (hb : b.Walked reserved) (hcs : cs.Walked reserved)
    (hat : AtOperand reserved env s f) (hsettled : Settled s)
    (hplain : e.IsPlain s.inBraces ∧ b.IsPlain s.inBraces ∧ cs.IsPlain s.inBraces)
    (hos : Spells os (e.terminals ++ .keyword "then" :: (b.terminals ++ cs.terminals))) :
    ∃ f', f'.any Mark.endsOperand = true ∧ found reserved s f (os ++ rest) =
      localSites reserved os (e.roles env ++ .other :: (b.roles env ++ cs.roles env)) ++
        found reserved s f' rest := by
  obtain ⟨os₁, os₂, rfl, hos₁, hos₂⟩ := spells_append.1 hos
  obtain ⟨o, os₂, rfl, hmark, hhole, hos₂⟩ := spells_cons.1 hos₂
  obtain ⟨os₂, os₃, rfl, hos₂, hos₃⟩ := spells_append.1 hos₂
  have hthen : Follows Mark.followsExps (o :: (os₂ ++ (os₃ ++ rest))) :=
    follows_cons hhole hmark (by decide) _
  obtain ⟨_, f₁, ⟨-, rfl⟩, hwalk₁⟩ := he ⟨hat, hplain.1, hthen⟩ hos₁
  have hclauses : Follows Mark.followsBlock (os₃ ++ rest) := by
    obtain ⟨a, as, hterminals, ha⟩ := head_clauses cs
    rw [hterminals] at hos₃
    obtain ⟨o', os₃, rfl, hmark', hhole', -⟩ := spells_cons.1 hos₃
    exact follows_cons hhole' hmark' ha _
  have hbegin : AtStatement reserved env (s.inner []) (some (Terminal.keyword "then").mark) :=
    ⟨hat.fits.inner_nil, hat.fits.settled_inner [], by decide, startsField_of_not (by decide)⟩
  obtain ⟨_, f₂, ⟨-, names, rfl⟩, hwalk₂⟩ := hb ⟨hbegin, hplain.2.1, hclauses⟩ hos₂
  have hopen : cs.Begins reserved env (s.inner names) f₂ rest :=
    ⟨s, names, rfl, hat.fits, hsettled, hplain.2.2⟩
  obtain ⟨_, f₃, ⟨hf₃, rfl⟩, hwalk₃⟩ := hcs hopen hos₃
  refine ⟨f₃, hf₃, ?_⟩
  simp only [List.append_assoc, List.cons_append, localSites_tree hos₁, localSites_other,
    localSites_tree hos₂]
  rw [hwalk₁, found_then hhole hmark hat.fits hsettled, hwalk₂]
  exact congrArg _ (congrArg _ hwalk₃)

theorem walked_branch {e : Tree .exp} {b : Tree .block} {cs : Tree .clauses}
    (he : e.Walked reserved) (hb : b.Walked reserved) (hcs : cs.Walked reserved) :
    (branch e b cs).Walked reserved := by
  rintro env s f os rest ⟨hat, hplain, -⟩ hos
  simp only [terminals, List.append_assoc, List.cons_append] at hos
  obtain ⟨o, os, rfl, hmark, hhole, hos⟩ := spells_cons.1 hos
  have hif : s.keyword "if".toList false f = s := by
    show s.enterIf false f = s
    rw [enterIf, hat.opens]
    rfl
  obtain ⟨f', hf', hwalk⟩ := found_conditional rest he hb hcs
    (hat.fits.atOperand hmark (by decide) (by decide)) hat.settled hplain hos
  refine ⟨s, f', ⟨hf', hat.fits, s.scope, rfl⟩, ?_⟩
  simp only [roles, List.append_assoc, List.cons_append, localSites_other]
  rw [← hwalk, hmark]
  exact found_keyword hhole hmark (by decide) (hat.still f _) hat.fits.branch (fun _ => rfl) hif rfl

/-! ### Other branches -/

/-- A branch that another one follows leaves the state around it. -/
theorem keyword_inner (hfits : Fits reserved env s) (names : List Name) :
    (s.inner names).keyword "elseif".toList false f = s ∧
      (s.inner names).keyword "else".toList false f = s.inner [] := by
  have hnot : (s.inner names).inConditional = false := by
    rw [inConditional, ScopeState.inner, hfits.conditionals]
    rfl
  constructor
  · show (if (s.inner names).inConditional then _ else _) = _
    rw [hnot]
    rfl
  · show (if (s.inner names).inConditional then _ else _) = _
    rw [hnot]
    rfl

theorem walked_endIf : endIf.Walked reserved := by
  rintro env _ f os rest ⟨s, names, rfl, hfits, -, -⟩ hos
  obtain ⟨o, os, rfl, hmark, hhole, hos⟩ := spells_cons.1 hos
  obtain rfl := spells_nil.1 hos
  exact ⟨s, some (Terminal.keyword "end").mark, ⟨by decide, rfl⟩, found_end hhole hmark hfits names⟩

theorem walked_elseBlock {b : Tree .block} (hb : b.Walked reserved) :
    (elseBlock b).Walked reserved := by
  rintro env _ f os rest ⟨s, names, rfl, hfits, hsettled, hplain⟩ hos
  obtain ⟨o, os, rfl, hmark, hhole, hos⟩ := spells_cons.1 hos
  refine ⟨s, some (Terminal.keyword "end").mark, ⟨by decide, rfl⟩, ?_⟩
  simp only [roles, List.cons_append, localSites_other]
  rw [found_keyword hhole hmark (by decide) (hfits.still_inner names f _) hfits.branch
    (fun _ => rfl) (keyword_inner hfits names).2 rfl]
  exact found_body hb hfits hfits.inner_nil hplain (by decide) (by decide) hos

theorem walked_elseIf {e : Tree .exp} {b : Tree .block} {cs : Tree .clauses}
    (he : e.Walked reserved) (hb : b.Walked reserved) (hcs : cs.Walked reserved) :
    (elseIf e b cs).Walked reserved := by
  rintro env _ f os rest ⟨s, names, rfl, hfits, hsettled, hplain⟩ hos
  simp only [terminals, List.append_assoc, List.cons_append] at hos
  obtain ⟨o, os, rfl, hmark, hhole, hos⟩ := spells_cons.1 hos
  obtain ⟨f', hf', hwalk⟩ := found_conditional rest he hb hcs
    (hfits.atOperand hmark (by decide) (by decide)) hsettled hplain hos
  refine ⟨s, f', ⟨hf', rfl⟩, ?_⟩
  simp only [roles, List.append_assoc, List.cons_append, localSites_other]
  rw [← hwalk, hmark]
  exact found_keyword hhole hmark (by decide) (hfits.still_inner names f _) hfits.branch
    (fun _ => rfl) (keyword_inner hfits names).1 rfl

/-! ## Loops over names -/

/-- What is found from the sign behind the names of a loop to its `end`. -/
theorem found_loopBody {es : Tree .exps} {b : Tree .block} {t : Terminal} {env' : List Name}
    (hes : es.Walked reserved) (hb : b.Walked reserved) (hat : AtStatement reserved env s f)
    (hinner : Fits reserved env' (s.inner names)) (hplain : es.IsPlain s.inBraces ∧ b.IsPlain s.inBraces)
    (ht : t.mark.isNeutral = true ∧ t.mark.endsOperand = false ∧ leadsToField t.mark = false)
    (hos : Spells os (t :: (es.terminals ++ .keyword "do" :: (b.terminals ++ [.keyword "end"])))) :
    found reserved { s with loops := (s.depth, names) :: s.loops } (some m) (os ++ rest) =
      localSites reserved os (.other :: (es.roles env ++ .other :: (b.roles env' ++ [.other]))) ++
        found reserved s (some (Terminal.keyword "end").mark) rest := by
  obtain ⟨o, os₁, o', os₂, rfl, hmark, hhole, hos₁, hmark', hhole', hos₂⟩ := hos.between
  have hstill : Still { s with loops := (s.depth, names) :: s.loops } (some m) :=
    fun _ => settle_eq_self fun p hp =>
      waits_of_lt (hat.settled.pending p hp) (hat.fits.pending p hp).2
  have hdo : Follows Mark.followsExps (o' :: (os₂ ++ rest)) :=
    follows_cons hhole' hmark' (by decide) _
  obtain ⟨_, f₁, ⟨-, rfl⟩, hwalk⟩ :=
    hes ⟨(hat.fits.loop names).atOperand hmark ht.2.1 ht.2.2, hplain.1, hdo⟩ hos₁
  simp only [List.append_assoc, List.cons_append, localSites_tree hos₁, localSites_other]
  rw [found_neutral hhole hmark ht.1 (hstill _) hat.fits.branch, hwalk,
    found_loopDo hhole' hmark' hat.fits hat.settled]
  exact congrArg _ (found_body hb hat.fits hinner hplain.2 (by decide) (by decide) hos₂)

theorem walked_countLoop {n : Identifier} {es : Tree .exps} {b : Tree .block}
    (hes : es.Walked reserved) (hb : b.Walked reserved) : (countLoop n es b).Walked reserved := by
  rintro env s f os rest ⟨hat, hplain, -⟩ hos
  have hterminals : (countLoop n es b).terminals = .keyword "for" :: (commaNames n [] ++
      .sign "=" :: (es.terminals ++ .keyword "do" :: (b.terminals ++ [.keyword "end"]))) := by
    simp [terminals, commaNames]
  rw [hterminals] at hos
  obtain ⟨o, os, rfl, hmark, hhole, hos⟩ := spells_cons.1 hos
  obtain ⟨os₁, os₂, rfl, hos₁, hos₂⟩ := spells_append.1 hos
  have hequals : (firstMark (os₂ ++ rest)).any (Mark.isSymbolOf ["<", ":", ","]) = false := by
    obtain ⟨o', os₂, rfl, hmark', -⟩ := spells_cons.1 hos₂
    rw [List.cons_append, firstMark_cons, hmark']
    decide
  have hinner := hat.fits.inner (contains_boundNames hos₁ reserved)
  rw [terminalNames_commaNames] at hinner
  obtain ⟨m, -, hwalk⟩ := found_loop hhole hmark hos₁ hequals (hat.still f _) hat.fits.branch
  refine ⟨s, some (Terminal.keyword "end").mark, ⟨by decide, hat.fits, s.scope, rfl⟩, ?_⟩
  have hroles : (countLoop n es b).roles env = .other :: (declaredRoles (commaNames n []) ++
      .other :: (es.roles env ++ .other :: (b.roles (texts [n] ++ env) ++ [.other]))) := by
    simp [roles, commaNames, declaredRoles, isName_terminal, texts]
  rw [hroles, List.cons_append, localSites_other, localSites_declared hos₁, List.append_assoc,
    hwalk, found_loopBody hes hb hat hinner hplain (by decide) hos₂, List.append_assoc]

theorem walked_eachLoop {n : Identifier} {ns : List Identifier} {es : Tree .exps} {b : Tree .block}
    (hes : es.Walked reserved) (hb : b.Walked reserved) : (eachLoop n ns es b).Walked reserved := by
  rintro env s f os rest ⟨hat, hplain, -⟩ hos
  simp only [terminals, List.append_assoc, List.cons_append] at hos
  obtain ⟨o, os, rfl, hmark, hhole, hos⟩ := spells_cons.1 hos
  obtain ⟨os₁, os₂, rfl, hos₁, hos₂⟩ := spells_append.1 hos
  have hin : (firstMark (os₂ ++ rest)).any (Mark.isSymbolOf ["<", ":", ","]) = false := by
    obtain ⟨o', os₂, rfl, hmark', -⟩ := spells_cons.1 hos₂
    rw [List.cons_append, firstMark_cons, hmark']
    decide
  have hinner := hat.fits.inner (contains_boundNames hos₁ reserved)
  rw [terminalNames_commaNames] at hinner
  obtain ⟨m, -, hwalk⟩ := found_loop hhole hmark hos₁ hin (hat.still f _) hat.fits.branch
  refine ⟨s, some (Terminal.keyword "end").mark, ⟨by decide, hat.fits, s.scope, rfl⟩, ?_⟩
  simp only [roles, List.cons_append, List.append_assoc, localSites_other,
    localSites_declared hos₁]
  rw [hwalk, found_loopBody hes hb hat hinner hplain (by decide) hos₂]

/-! ## Functions and local names -/

theorem localSites_cons (o : Occurrence) (os : List Occurrence) (r : Role) (rs : List Role) :
    localSites reserved (o :: os) (r :: rs) =
      localSites reserved [o] [r] ++ localSites reserved os rs := by
  have hlength : [o].length = [r].length := rfl
  exact localSites_append hlength os rs

theorem walked_function {fn : FunctionName} {ps : Parameters} {b : Tree .block}
    (hself : reserved.contains "self".toList = true) (hb : b.Walked reserved) :
    (function fn ps b).Walked reserved := by
  rintro env s f os rest ⟨hat, hplain, -⟩ hos
  have hterminals : (function fn ps b).terminals = .keyword "function" :: fn.root.terminal ::
      (fn.terminals.tail ++ (ps.terminals ++ (b.terminals ++ [.keyword "end"]))) := by
    simp [terminals, FunctionName.terminals]
  rw [hterminals] at hos
  obtain ⟨o, os, rfl, hmark, hhole, hos⟩ := spells_cons.1 hos
  obtain ⟨root, os, rfl, hroot, hroothole, hos⟩ := spells_cons.1 hos
  obtain ⟨os₁, os₂, rfl, hos₁, hos₂⟩ := spells_append.1 hos
  obtain ⟨os₂, os₃, rfl, hos₂, hos₃⟩ := spells_append.1 hos₂
  -- the parameter `self` of a method is reserved
  have hreceiver : Fits reserved (fn.receiver ++ env) s := by
    unfold FunctionName.receiver
    split
    · exact hat.fits.of_reserved hself
    · exact hat.fits
  have hinner := hreceiver.inner (contains_boundNames hos₂ reserved)
  rw [terminalNames_parameters] at hinner
  refine ⟨s, some (Terminal.keyword "end").mark, ⟨by decide, hat.fits, s.scope, rfl⟩, ?_⟩
  have hother := localSites_otherRoles reserved os₁ fn.terminals.tail
  have hlength : os₁.length = (otherRoles fn.terminals.tail).length := by
    rw [hos₁.length_eq, otherRoles, List.length_map]
  have hroles : (function fn ps b).roles env = .other :: useRole env fn.root ::
      (otherRoles fn.terminals.tail ++ (declaredRoles ps.terminals ++
        (b.roles (texts ps.names ++ (fn.receiver ++ env)) ++ [.other]))) := by
    simp [roles]
  have hsites : localSites reserved (o :: root :: (os₁ ++ (os₂ ++ os₃)))
      ((function fn ps b).roles env) = localSites reserved [root] [useRole env fn.root] ++
        (freeNames reserved os₂ ++ localSites reserved os₃
          (b.roles (texts ps.names ++ (fn.receiver ++ env)) ++ [.other])) := by
    rw [hroles, localSites_other, localSites_cons, localSites_append hlength, hother,
      List.nil_append, localSites_declared hos₂]
  simp only [hsites, List.cons_append, List.append_assoc]
  rw [found_function hhole hmark hroothole hroot hos₁ hos₂ (no_colon_of_body hos₃) hat.fits
    (hat.still f _), found_body hb hat.fits hinner hplain (by decide) (by decide) hos₃]

theorem walked_localFunction {n : Identifier} {ps : Parameters} {b : Tree .block}
    (hb : b.Walked reserved) : (localFunction n ps b).Walked reserved := by
  rintro env s f os rest ⟨hat, hplain, -⟩ hos
  simp only [terminals, List.append_assoc, List.cons_append] at hos
  obtain ⟨o, os, rfl, hmark, hhole, hos⟩ := spells_cons.1 hos
  obtain ⟨o', os, rfl, hmark', hhole', hos⟩ := spells_cons.1 hos
  obtain ⟨name, os, rfl, hname, hnamehole, hos⟩ := spells_cons.1 hos
  obtain ⟨os₁, os₂, rfl, hos₁, hos₂⟩ := spells_append.1 hos
  have hspells : Spells [name] [n.terminal] := spells_cons.2 ⟨name, [], rfl, hname, hnamehole, by simp⟩
  have hbound : Fits reserved (n.text :: env)
      { s with scope := boundNames reserved [name] ++ s.scope } := by
    have hbind := hat.fits.bind (contains_boundNames hspells reserved)
    rwa [terminalNames_identifier] at hbind
  have hinner := hbound.inner (contains_boundNames hos₁ reserved)
  rw [terminalNames_parameters] at hinner
  refine ⟨_, some (Terminal.keyword "end").mark, ⟨by decide, hbound, _, rfl⟩, ?_⟩
  have hroles : (localFunction n ps b).roles env = .other :: .other ::
      (declaredRoles [n.terminal] ++ (declaredRoles ps.terminals ++
        (b.roles (texts ps.names ++ n.text :: env) ++ [.other]))) := by
    simp [roles, declaredRoles, isName_terminal]
  have hsites : localSites reserved (o :: o' :: ([name] ++ (os₁ ++ os₂)))
      ((localFunction n ps b).roles env) = freeNames reserved [name] ++ (freeNames reserved os₁ ++
        localSites reserved os₂ (b.roles (texts ps.names ++ n.text :: env) ++ [.other])) := by
    rw [hroles, localSites_other, localSites_other, localSites_declared hspells,
      localSites_declared hos₁]
  rw [List.singleton_append] at hsites
  simp only [hsites, List.cons_append, List.append_assoc]
  rw [found_localFunction hhole hmark hhole' hmark' hnamehole hname hos₁ (no_colon_of_body hos₂)
    (hat.still f _) hat.fits.branch,
    found_body hb hbound hinner hplain (by decide) (by decide) hos₂]

theorem walked_localNames (n : Identifier) (ns : List Identifier) :
    (localNames n ns).Walked reserved := by
  rintro env s f os rest ⟨hat, -, hrest⟩ hos
  obtain ⟨o, os, rfl, hmark, hhole, hos⟩ := spells_cons.1 hos
  have hends : (firstMark rest).any (Mark.isSymbolOf ["<", ":", ",", "="]) = false :=
    hrest.any_eq_false fun _ hm => Mark.isSymbolOf_of_isWordOr hm (by decide)
  have hbound := hat.fits.bind (contains_boundNames hos reserved)
  rw [terminalNames_commaNames] at hbound
  obtain ⟨m, hm, hwalk⟩ := found_localNames hhole hmark hos hends (hat.still f _) hat.fits.branch
  refine ⟨_, some m, ⟨Mark.endsOperand_of_isName hm, hbound, _, rfl⟩, ?_⟩
  rw [List.cons_append, hwalk, roles, localSites_other, localSites_declaredRoles hos]

/-- The names of a `local` statement are visible behind its values. -/
theorem walked_localValues {n : Identifier} {ns : List Identifier} {es : Tree .exps}
    (hes : es.Walked reserved) : (localValues n ns es).Walked reserved := by
  rintro env s f os rest ⟨hat, hplain, hrest⟩ hos
  simp only [terminals, List.cons_append] at hos
  obtain ⟨o, os₁, o', os₂, rfl, hmark, hhole, hos₁, hmark', hhole', hos₂⟩ := hos.between
  have hbound := hat.fits.bind (contains_boundNames hos₁ reserved)
  rw [terminalNames_commaNames] at hbound
  obtain ⟨_, f', ⟨hf', rfl⟩, hwalk⟩ :=
    hes ⟨(hat.fits.defer (.bind (boundNames reserved os₁))).atOperand hmark' (by decide) (by decide),
      hplain, hrest.mono fun _ => Mark.followsExps_of_followsStat⟩ hos₂
  have hbind : found reserved (s.defer (.bind (boundNames reserved os₁))) f' rest =
      found reserved { s with scope := boundNames reserved os₁ ++ s.scope } f' rest :=
    found_defer hat.fits.conditionals rfl rfl rfl hbound
      ⟨hat.settled.loops, hat.settled.pending⟩ hf' hrest
  refine ⟨_, f', ⟨hf', hbound, _, rfl⟩, ?_⟩
  simp only [roles, List.append_assoc, List.cons_append, localSites_declared hos₁, localSites_other]
  rw [← hbind, found_localValues hhole hmark hos₁ hhole' hmark' (hat.still f _) hat.fits.branch,
    hwalk]

end Tree
end LuaVeil
