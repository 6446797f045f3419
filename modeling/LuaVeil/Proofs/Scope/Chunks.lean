/-
# Local variables of chunks

A walk over a chunk finds what lexical scoping says: the names that declare a
local variable and those that are bound to one, and of these all that are not
reserved. The layout makes no difference, as long as it separates tokens by
blanks that the scan knows.

Main statements:

* `Tree.walked`, a walk over a tree of any category finds its sites;
* `sites_of_layout`, the sites of a chunk are the names with a local role.
-/
import LuaVeil.Proofs.Grammar.Layout
import LuaVeil.Proofs.Scope.Statements

namespace LuaVeil

open ScopeState

variable {reserved : Reserved} {env names : List Name} {s : ScopeState} {f : Option Mark}
  {os rest : List Occurrence}

namespace Tree

/-! ## Last statements -/

theorem walked_leave : leave.Walked reserved := by
  rintro env s f os rest ⟨hat, -, -⟩ hos
  obtain ⟨o, os, rfl, hmark, hhole, hos⟩ := spells_cons.1 hos
  obtain rfl := spells_nil.1 hos
  exact ⟨s, some o.mark, rfl,
    found_neutral hhole hmark (by decide) (hat.still f _) hat.fits.branch⟩

theorem walked_giveNothing : giveNothing.Walked reserved := by
  rintro env s f os rest ⟨hat, -, -⟩ hos
  obtain ⟨o, os, rfl, hmark, hhole, hos⟩ := spells_cons.1 hos
  obtain rfl := spells_nil.1 hos
  exact ⟨s, some o.mark, rfl,
    found_neutral hhole hmark (by decide) (hat.still f _) hat.fits.branch⟩

theorem walked_give {es : Tree .exps} (hes : es.Walked reserved) : (give es).Walked reserved := by
  rintro env s f os rest ⟨hat, hplain, hrest⟩ hos
  obtain ⟨o, os, rfl, hmark, hhole, hos⟩ := spells_cons.1 hos
  obtain ⟨_, f', ⟨-, rfl⟩, hwalk⟩ :=
    hes ⟨hat.fits.atOperand hmark (by decide) (by decide), hplain, hrest⟩ hos
  refine ⟨s, f', rfl, ?_⟩
  rw [List.cons_append, found_neutral hhole hmark (by decide) (hat.still f _) hat.fits.branch,
    hwalk, roles, localSites_other]

/-! ## Blocks -/

theorem walked_done : done.Walked reserved := by
  rintro env s f os rest ⟨hat, -, -⟩ hos
  obtain rfl := spells_nil.1 hos
  exact ⟨s, f, ⟨hat.fits, s.scope, rfl⟩, rfl⟩

/-- The semicolon that may stand behind a statement is passed over. -/
theorem found_semicolonIf {semicolon : Bool} (hos : Spells os (semicolonIf semicolon))
    (hfits : Fits reserved env s) (hsettled : Settled s) (f : Option Mark) (rest : List Occurrence) :
    ∃ f', (semicolon = false → f' = f) ∧ (semicolon = true → f' = some (Terminal.sign ";").mark) ∧
      found reserved s f (os ++ rest) = found reserved s f' rest := by
  cases semicolon with
  | false =>
    obtain rfl := spells_nil.1 hos
    exact ⟨f, fun _ => rfl, by simp, rfl⟩
  | true =>
    obtain ⟨o, os, rfl, hmark, hhole, hos⟩ := spells_cons.1 hos
    obtain rfl := spells_nil.1 hos
    refine ⟨some o.mark, by simp, fun _ => by rw [hmark], ?_⟩
    exact found_neutral hhole hmark (by decide) (hfits.still hsettled f _) hfits.branch

theorem walked_last {st : Tree .final} {semicolon : Bool} (hst : st.Walked reserved) :
    (last st semicolon).Walked reserved := by
  rintro env s f os rest ⟨hat, hplain, hrest⟩ hos
  obtain ⟨os₁, os₂, rfl, hos₁, hos₂⟩ := spells_append.1 hos
  have hnext : Follows Mark.followsExps (os₂ ++ rest) := by
    cases semicolon with
    | false =>
      obtain rfl := spells_nil.1 hos₂
      exact hrest.mono fun _ hm =>
        Mark.followsExps_of_followsStat (Mark.followsStat_of_followsBlock hm)
    | true =>
      obtain ⟨o, os₂, rfl, hmark, hhole, -⟩ := spells_cons.1 hos₂
      exact follows_cons hhole hmark (by decide) _
  obtain ⟨_, f₁, rfl, hwalk⟩ := hst ⟨hat, hplain.1, hnext⟩ hos₁
  obtain ⟨f₂, -, -, hskip⟩ := found_semicolonIf hos₂ hat.fits hat.settled f₁ rest
  refine ⟨s, f₂, ⟨hat.fits, s.scope, rfl⟩, ?_⟩
  have hother := localSites_otherRoles reserved os₂ (semicolonIf semicolon)
  rw [roles, localSites_tree hos₁, hother, List.append_nil, List.append_assoc, hwalk, hskip]

/-- Behind a statement and its semicolon another statement can begin. -/
theorem walked_next {st : Tree .stat} {semicolon : Bool} {b : Tree .block}
    (hst : st.Walked reserved) (hb : b.Walked reserved) : (next st semicolon b).Walked reserved := by
  rintro env s f os rest ⟨hat, ⟨hplain, hplain', hfirst, hbraces⟩, hrest⟩ hos
  simp only [terminals, List.append_assoc] at hos
  obtain ⟨os₁, os₂, rfl, hos₁, hos₂⟩ := spells_append.1 hos
  obtain ⟨os₂, os₃, rfl, hos₂, hos₃⟩ := spells_append.1 hos₂
  have hnext : Follows Mark.followsStat (os₂ ++ (os₃ ++ rest)) := by
    cases semicolon with
    | true =>
      obtain ⟨o, os₂, rfl, hmark, hhole, -⟩ := spells_cons.1 hos₂
      exact follows_cons hhole hmark (by decide) _
    | false =>
      obtain rfl := spells_nil.1 hos₂
      rcases b.head_block with hnil | ⟨a, as, hterminals, ha⟩
      · rw [hnil] at hos₃
        obtain rfl := spells_nil.1 hos₃
        exact hrest.mono fun _ => Mark.followsStat_of_followsBlock
      · rw [hterminals] at hos₃ hfirst
        obtain ⟨o, os₃, rfl, hmark, hhole, -⟩ := spells_cons.1 hos₃
        refine follows_cons hhole hmark ?_ _
        exact Mark.followsStat_of_beginsStat ha (hfirst.resolve_left (by simp))
  obtain ⟨_, f₁, ⟨hf₁, hfits, names, rfl⟩, hwalk₁⟩ := hst ⟨hat, hplain, hnext⟩ hos₁
  have hat₁ := hat.next hfits hf₁
  obtain ⟨f₂, hsame, hsign, hskip⟩ :=
    found_semicolonIf hos₂ hfits hat₁.settled f₁ (os₃ ++ rest)
  have hat₂ : AtStatement reserved (st.binds ++ env) { s with scope := names } f₂ := by
    cases semicolon with
    | false =>
      obtain rfl := hsame rfl
      exact hat₁
    | true =>
      obtain rfl := hsign rfl
      refine ⟨hfits, hat₁.settled, by decide, ?_⟩
      have hnot : s.inBraces = false := by
        rw [← Bool.not_eq_true]
        exact fun h => absurd (hbraces h) (by simp)
      show (s.inBraces && _) = false
      rw [hnot, Bool.false_and]
  obtain ⟨_, f₃, ⟨hfits', names', rfl⟩, hwalk₃⟩ := hb ⟨hat₂, hplain', hrest⟩ hos₃
  refine ⟨_, f₃, ⟨?_, names', rfl⟩, ?_⟩
  · rw [binds, List.append_assoc]
    exact hfits'
  · have hother := localSites_otherRoles reserved os₂ (semicolonIf semicolon)
    have hlength : os₂.length = (otherRoles (semicolonIf semicolon)).length := by
      rw [hos₂.length_eq, otherRoles, List.length_map]
    simp only [roles, List.append_assoc, localSites_tree hos₁, localSites_append hlength, hother,
      List.nil_append]
    rw [hwalk₁, hskip, hwalk₃]

/-! ## All trees -/

/-- A walk over a tree finds its sites, where the parameter `self` of methods is reserved. -/
theorem walked (hself : reserved.contains "self".toList = true) {c : Cat} (t : Tree c) :
    t.Walked reserved := by
  induction t with
  | done => exact walked_done
  | next _ _ _ hst hb => exact walked_next hst hb
  | last _ _ hst => exact walked_last hst
  | leave => exact walked_leave
  | giveNothing => exact walked_giveNothing
  | give _ hes => exact walked_give hes
  | assign _ _ hts hes => exact walked_assign hts hes
  | run _ hp => exact walked_run hp
  | doBlock _ hb => exact walked_doBlock hb
  | whileLoop _ _ he hb => exact walked_whileLoop he hb
  | repeatLoop _ _ hb he => exact walked_repeatLoop hb he
  | branch _ _ _ he hb hcs => exact walked_branch he hb hcs
  | countLoop _ _ _ hes hb => exact walked_countLoop hes hb
  | eachLoop _ _ _ _ hes hb => exact walked_eachLoop hes hb
  | function _ _ _ hb => exact walked_function hself hb
  | localFunction _ _ _ hb => exact walked_localFunction hb
  | localNames n ns => exact walked_localNames n ns
  | localValues _ _ _ hes => exact walked_localValues hes
  | endIf => exact walked_endIf
  | elseBlock _ hb => exact walked_elseBlock hb
  | elseIf _ _ _ he hb hcs => exact walked_elseIf he hb hcs
  | one _ he => exact walked_one he
  | more _ _ he hes => exact walked_more he hes
  | atom _ h => exact walked_atom h
  | lambda _ _ hb => exact walked_lambda hb
  | operand _ hp => exact walked_operand hp
  | table _ hfs => exact walked_table hfs
  | binary _ _ h _ ha hb => exact walked_binary h ha hb
  | unary _ h _ he => exact walked_unary h he
  | name n => exact walked_name n
  | index _ _ hp he => exact walked_index hp he
  | member _ _ hp => exact walked_member hp
  | call _ _ hp has => exact walked_call hp has
  | method _ _ _ hp has => exact walked_method hp has
  | group _ he => exact walked_group he
  | noArgs => exact walked_noArgs
  | listArgs _ hes => exact walked_listArgs hes
  | tableArgs _ hfs => exact walked_tableArgs hfs
  | stringArgs _ h => exact walked_stringArgs h
  | noFields => exact walked_noFields
  | lastField _ he => exact walked_lastField he
  | moreFields _ _ _ he hfs => exact walked_moreFields he hfs
  | keyed _ _ hk hv => exact walked_keyed hk hv
  | named _ _ hv => exact walked_named hv
  | item _ he => exact walked_item he
  | oneTarget _ hv => exact walked_oneTarget hv
  | moreTargets _ _ hv hts => exact walked_moreTargets hv hts

end Tree

/-! ## Scripts -/

/-- Nothing is visible and nothing waits in front of a script. -/
theorem atStatement_initial (reserved : Reserved) : AtStatement reserved [] .initial none where
  fits := ⟨rfl, rfl, by simp [initial], by simp [initial], fun _ => rfl⟩
  settled := ⟨by simp [initial], by simp [initial]⟩
  opens := rfl
  noField := rfl

/-- The occurrences of a chunk that its roles make local are those that the walk finds. -/
theorem sites_of_spells (hself : reserved.contains "self".toList = true) {chunk : Tree .block}
    (hplain : chunk.IsPlain false) (h : Spells os chunk.terminals) :
    (resolve reserved os).sites = localSites reserved os (chunk.roles []) := by
  obtain ⟨s', f', -, hwalk⟩ :=
    chunk.walked hself ⟨atStatement_initial reserved, hplain, follows_nil⟩ h
  rw [List.append_nil, found_nil, List.append_nil] at hwalk
  show ((initial.walk reserved (.after none os)).sites).reverse = _
  rw [sites_walk, hwalk]
  simp [initial]

/--
The sites of a chunk, whatever its layout, are the names that lexical scoping makes local and that
are not reserved: the declarations, and the names bound to one of them.
-/
theorem sites_of_layout (reserved : Reserved) (hself : reserved.contains "self".toList = true)
    {chunk : Tree .block} (hplain : chunk.IsPlain false) {source : Text}
    (h : Layout Text.isSeparator chunk.terminals source) :
    ∃ spans, scan source = .ok spans ∧
      (occurrences spans).map Occurrence.mark = chunk.terminals.map Terminal.mark ∧
      (resolve reserved (occurrences spans)).sites =
        localSites reserved (occurrences spans) (chunk.roles []) := by
  have hblank : ∀ c, Text.isSeparator c = true → isLuaBlank c = true := fun c hc => by
    rw [isLuaBlank, hc, Bool.true_or]
  obtain ⟨spans, hscan, hmarks, hsame, hholes⟩ := scan_of_layout hblank h
  have hnone : ∀ m : Mark, (!m.isStray Text.isSeparator) = true := by
    intro m
    unfold Mark.isStray
    split
    · simp
    · rfl
  rw [List.filter_eq_self.2 fun m _ => hnone m, ← hsame] at hmarks
  exact ⟨spans, hscan, hmarks, sites_of_spells hself hplain ⟨hmarks, hholes⟩⟩

/-- The name `x`. -/
def nameX : Identifier :=
  ⟨['x'], by decide, by decide⟩

/-- The value of a local variable is an outer variable of its name; later uses are the local one. -/
theorem value_is_outer_name :
    let use : Tree .exp := .operand (.name nameX)
    let chunk : Tree .block := .next (.localValues nameX [] (.one use)) false
      (.last (.give (.one use)) false)
    Reserved.default.contains "self".toList = true ∧ chunk.IsPlain false ∧
      Layout Text.isSeparator chunk.terminals "local x = x return x".toList ∧
      ∃ spans, scan "local x = x return x".toList = .ok spans ∧
        (resolve .default (occurrences spans)).sites.map Occurrence.offset = [6, 19] := by
  intro use chunk
  have hself : Reserved.default.contains "self".toList = true := by decide
  have hplain : chunk.IsPlain false := by
    simp [chunk, use, Tree.IsPlain, Tree.terminals, Terminal.keyword, Terminal.mark,
      Mark.isSymbolOf]
  have hspace : isLuaBlank ' ' = true := by decide
  have hblank : Text.isSeparator ' ' = true := by decide
  have hlast : nameX.terminal.EndsBefore [] := by
    intro c hc
    simp at hc
  have hend : ∀ t : Terminal, ∀ rest, t.EndsBefore (' ' :: rest) :=
    fun t rest => t.endsBefore_of_isLuaBlank hspace rest
  have hlayout : Layout Text.isSeparator chunk.terminals "local x = x return x".toList :=
    .next (.keyword "local") (.space (.blank ' ' hblank) (.next nameX.terminal
      (.space (.blank ' ' hblank) (.next (.sign "=") (.space (.blank ' ' hblank)
        (.next nameX.terminal (.space (.blank ' ' hblank) (.next (.keyword "return")
          (.space (.blank ' ' hblank) (.next nameX.terminal .done hlast)) (hend _ _)))
          (hend _ _))) (hend _ _))) (hend _ _))) (hend _ _)
  refine ⟨hself, hplain, hlayout, ?_⟩
  obtain ⟨spans, hscan, -, hsites⟩ := sites_of_layout .default hself hplain hlayout
  have hspans : scan "local x = x return x".toList =
      .ok [⟨.code, "local x = x return x".toList, 0, 20⟩] := by
    decide +kernel
  obtain rfl := Except.ok.inj (hspans.symm.trans hscan)
  refine ⟨_, hscan, ?_⟩
  rw [hsites]
  decide +kernel

/--
A vertical tab is a blank of the language, but the scan takes it for a symbol. Behind it the value
of a local variable seems to have ended, and the rest of the value is read as the new variable.
-/
theorem value_ends_at_vertical_tab :
    let use : Tree .exp := .operand (.name nameX)
    let chunk : Tree .block :=
      .next (.localValues nameX [] (.one (.binary use (.sign "+") (by decide) use))) false .done
    let source := "local x = x\x0b+ x".toList
    Reserved.default.contains "self".toList = true ∧ chunk.IsPlain false ∧
      Layout isLuaBlank chunk.terminals source ∧ ∃ spans, scan source = .ok spans ∧
        let os := (occurrences spans).filter fun o => !o.mark.isStray isLuaBlank
        os.map Occurrence.mark = chunk.terminals.map Terminal.mark ∧
          (resolve .default (occurrences spans)).sites ≠ localSites .default os (chunk.roles []) := by
  intro use chunk source
  have hspace : isLuaBlank ' ' = true := by decide
  have htab : isLuaBlank '\x0b' = true := by decide
  have hlast : nameX.terminal.EndsBefore [] := by
    intro c hc
    simp at hc
  have hend : ∀ t : Terminal, ∀ rest, t.EndsBefore (' ' :: rest) :=
    fun t rest => t.endsBefore_of_isLuaBlank hspace rest
  have hlayout : Layout isLuaBlank chunk.terminals source :=
    .next (.keyword "local") (.space (.blank ' ' hspace) (.next nameX.terminal
      (.space (.blank ' ' hspace) (.next (.sign "=") (.space (.blank ' ' hspace)
        (.next nameX.terminal (.space (.blank '\x0b' htab) (.next (.sign "+")
          (.space (.blank ' ' hspace) (.next nameX.terminal .done hlast)) (hend _ _)))
          (nameX.terminal.endsBefore_of_isLuaBlank htab _))) (hend _ _))) (hend _ _))) (hend _ _)
  have hspans : scan source = .ok [⟨.code, source, 0, 15⟩] := by
    decide +kernel
  refine ⟨by decide, ?_, hlayout, _, hspans, ?_⟩
  · simp [chunk, use, Tree.IsPlain, Tree.terminals]
  · decide +kernel

end LuaVeil
