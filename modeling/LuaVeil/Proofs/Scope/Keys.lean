/-
# Keys of table constructors

A walk over a chunk takes for keys the keys of its table constructors, and besides
them only targets of assignments in functions in tables, at places where a field
could begin.

Main statements:

* `Tree.isRead`, a walk over a tree of any category reads its names by their roles;
* `keys_of_layout`, what the names of a chunk are taken for, whatever its layout.
-/
import LuaVeil.Proofs.Scope.Chunks
import LuaVeil.Proofs.Scope.NameRoles

namespace LuaVeil

open ScopeState

variable {reserved : Reserved} {brackets : List Text} {f : Option Mark} {o : Occurrence}
  {os rest : List Occurrence}

namespace Tree

/-! ## Statements -/

theorem isRead_assign {ts : Tree .targets} {es : Tree .exps} (hts : ts.IsRead reserved)
    (hes : es.IsRead reserved) : (assign ts es).IsRead reserved := by
  rintro brackets f rest leads os ⟨hfield, hleads, hrest⟩ hos
  obtain ⟨os₁, os₂, rfl, hos₁, hos₂⟩ := spells_append.1 hos
  obtain ⟨o, os₂, rfl, hmark, hhole, hos₂⟩ := spells_cons.1 hos₂
  obtain ⟨f₁, -, hread⟩ := hts brackets f (o :: (os₂ ++ rest)) leads
    ⟨hfield, hleads, firstMark_any hmark (by decide) _⟩ hos₁
  obtain ⟨f₂, hf₂, hread'⟩ := hes.values brackets rest (.inr rfl) hmark (by decide) hos₂
    (any_isSymbolOf_of_subset hrest _ (by simp))
  refine ⟨f₂, hf₂, ?_⟩
  simp only [nameRoles, List.append_assoc, List.cons_append, readAs_tree hos₁, readAs_unread]
  rw [hread, readings_passed hhole hmark (by decide), hread']

/-- A call begins with a name only if its arguments or a field of it follow. -/
theorem isRead_run {p : Tree (.primary .call)} (hp : p.IsRead reserved) :
    (run p).IsRead reserved := by
  rintro brackets f rest leads os ⟨hfield, -, hrest⟩ hos
  exact hp.primary brackets rest hfield hos (any_isSymbolOf_of_subset hrest _ (by simp))

theorem isRead_doBlock {b : Tree .block} (hb : b.IsRead reserved) :
    (doBlock b).IsRead reserved := by
  rintro brackets f rest leads os - hos
  obtain ⟨o, os, rfl, hmark, hhole, hos⟩ := spells_cons.1 hos
  refine ⟨some (Terminal.keyword "end").mark, rfl, ?_⟩
  rw [List.cons_append, readings_passed hhole hmark (by decide), hmark]
  exact readings_body hb (by decide) (by decide) hos

/-- What is read in the values and the block of a loop. -/
theorem readings_loopBody {c : Cat} {es : Tree c} {b : Tree .block} {a : Terminal}
    (hes : es.IsRead reserved) (hc : c = .exp ∨ c = .exps) (hb : b.IsRead reserved)
    (ha : passesOver a.mark = true) (hfield : leadsToField a.mark = false)
    (hos : Spells os (a :: (es.terminals ++ .keyword "do" :: (b.terminals ++ [.keyword "end"])))) :
    readings reserved brackets f (os ++ rest) =
      readAs os (.unread :: (es.nameRoles (bare brackets).inBraces false ++
        .unread :: (b.nameRoles (bare brackets).inBraces false ++ [.unread]))) ++
        readings reserved brackets (some (Terminal.keyword "end").mark) rest := by
  obtain ⟨o, os₁, o', os₂, rfl, hmark, hhole, hos₁, hmark', hhole', hos₂⟩ := hos.between
  obtain ⟨f₁, -, hread⟩ := hes.values brackets (o' :: (os₂ ++ rest)) hc hmark
    hfield hos₁ (firstMark_any hmark' (by decide) _)
  simp only [List.append_assoc, List.cons_append, readAs_tree hos₁, readAs_unread]
  rw [readings_passed hhole hmark ha, hread, readings_passed hhole' hmark' (by decide), hmark',
    readings_body hb (by decide) (by decide) hos₂]

theorem isRead_whileLoop {e : Tree .exp} {b : Tree .block} (he : e.IsRead reserved)
    (hb : b.IsRead reserved) : (whileLoop e b).IsRead reserved := by
  rintro brackets f rest leads os - hos
  simp only [terminals, List.append_assoc, List.cons_append] at hos
  refine ⟨some (Terminal.keyword "end").mark, rfl, ?_⟩
  simp only [nameRoles, List.append_assoc, List.cons_append]
  exact readings_loopBody he (.inl rfl) hb (by decide) (by decide) hos

theorem isRead_repeatLoop {b : Tree .block} {e : Tree .exp} (hb : b.IsRead reserved)
    (he : e.IsRead reserved) : (repeatLoop b e).IsRead reserved := by
  rintro brackets f rest leads os ⟨-, -, hrest⟩ hos
  simp only [terminals, List.cons_append] at hos
  obtain ⟨o, os₁, o', os₂, rfl, hmark, hhole, hos₁, hmark', hhole', hos₂⟩ := hos.between
  obtain ⟨f₁, hread⟩ := hb.block brackets (Terminal.keyword "repeat").mark (o' :: (os₂ ++ rest))
    (by decide) (by decide) hos₁ (firstMark_any hmark' (by decide) _)
  obtain ⟨f₂, hf₂, hread'⟩ := he.values brackets rest (.inl rfl) hmark' (by decide) hos₂
    (any_isSymbolOf_of_subset hrest _ (by simp))
  refine ⟨f₂, hf₂, ?_⟩
  simp only [nameRoles, List.append_assoc, List.cons_append, readAs_tree hos₁, readAs_unread]
  rw [readings_passed hhole hmark (by decide), hmark, hread,
    readings_passed hhole' hmark' (by decide), hread']

/-! ### Branches -/

/-- What is read in a branch, its condition and what follows it. -/
theorem readings_branch {e : Tree .exp} {b : Tree .block} {cs : Tree .clauses} {a : Terminal}
    (rest : List Occurrence) (he : e.IsRead reserved) (hb : b.IsRead reserved)
    (hcs : cs.IsRead reserved) (ha : passesOver a.mark = true)
    (hfield : leadsToField a.mark = false)
    (hos : Spells os (a :: (e.terminals ++ .keyword "then" :: (b.terminals ++ cs.terminals)))) :
    ∃ f', f'.any Mark.endsOperand = true ∧ readings reserved brackets f (os ++ rest) =
      readAs os (.unread :: (e.nameRoles (bare brackets).inBraces false ++
        .unread :: (b.nameRoles (bare brackets).inBraces false ++
          cs.nameRoles (bare brackets).inBraces false))) ++ readings reserved brackets f' rest := by
  obtain ⟨o, os₁, o', os₂, rfl, hmark, hhole, hos₁, hmark', hhole', hos₂⟩ := hos.between
  obtain ⟨os₂, os₃, rfl, hos₂, hos₃⟩ := spells_append.1 hos₂
  obtain ⟨f₁, -, hread₁⟩ := he.values brackets (o' :: (os₂ ++ (os₃ ++ rest)))
    (.inl rfl) hmark hfield hos₁ (firstMark_any hmark' (by decide) _)
  have hclauses : (firstMark (os₃ ++ rest)).any (Mark.isSymbolOf ["<", ":", ",", "="]) = false := by
    obtain ⟨a', as, hterminals, ha'⟩ := head_clauses cs
    rw [hterminals] at hos₃
    obtain ⟨o'', os₃, rfl, hmark'', -, -⟩ := spells_cons.1 hos₃
    exact firstMark_any hmark''
      (Mark.isSymbolOf_of_isWordOr (Mark.followsStat_of_followsBlock ha') (by decide)) _
  obtain ⟨f₂, hread₂⟩ := hb.block brackets (Terminal.keyword "then").mark (os₃ ++ rest)
    (by decide) (by decide) hos₂ hclauses
  obtain ⟨f₃, hf₃, hread₃⟩ :=
    hcs brackets f₂ rest false trivial hos₃
  refine ⟨f₃, hf₃, ?_⟩
  simp only [List.append_assoc, List.cons_append, readAs_tree hos₁, readAs_tree hos₂, readAs_unread]
  rw [readings_passed hhole hmark ha, hread₁, readings_passed hhole' hmark' (by decide), hmark',
    hread₂, hread₃]

theorem isRead_branch {e : Tree .exp} {b : Tree .block} {cs : Tree .clauses}
    (he : e.IsRead reserved) (hb : b.IsRead reserved) (hcs : cs.IsRead reserved) :
    (branch e b cs).IsRead reserved := by
  rintro brackets f rest leads os - hos
  simp only [terminals, List.append_assoc, List.cons_append] at hos
  simp only [nameRoles, List.append_assoc, List.cons_append]
  exact readings_branch rest he hb hcs (by decide) (by decide) hos

theorem isRead_elseBlock {b : Tree .block} (hb : b.IsRead reserved) :
    (elseBlock b).IsRead reserved := by
  rintro brackets f rest leads os - hos
  obtain ⟨o, os, rfl, hmark, hhole, hos⟩ := spells_cons.1 hos
  refine ⟨some (Terminal.keyword "end").mark, rfl, ?_⟩
  rw [List.cons_append, readings_passed hhole hmark (by decide), hmark]
  exact readings_body hb (by decide) (by decide) hos

theorem isRead_elseIf {e : Tree .exp} {b : Tree .block} {cs : Tree .clauses}
    (he : e.IsRead reserved) (hb : b.IsRead reserved) (hcs : cs.IsRead reserved) :
    (elseIf e b cs).IsRead reserved := by
  rintro brackets f rest leads os - hos
  simp only [terminals, List.append_assoc, List.cons_append] at hos
  simp only [nameRoles, List.append_assoc, List.cons_append]
  exact readings_branch rest he hb hcs (by decide) (by decide) hos

/-! ### Phrases that declare names -/

theorem isRead_countLoop {n : Identifier} {es : Tree .exps} {b : Tree .block}
    (hes : es.IsRead reserved) (hb : b.IsRead reserved) : (countLoop n es b).IsRead reserved := by
  rintro brackets f rest leads os - hos
  have hterminals : (countLoop n es b).terminals = .keyword "for" :: (commaNames n [] ++
      .sign "=" :: (es.terminals ++ .keyword "do" :: (b.terminals ++ [.keyword "end"]))) := by
    simp only [terminals, commaNames, List.flatMap_nil, List.cons_append, List.nil_append,
      List.append_assoc]
  rw [hterminals] at hos
  obtain ⟨o, os, rfl, hmark, hhole, hos⟩ := spells_cons.1 hos
  obtain ⟨os₁, os₂, rfl, hos₁, hos₂⟩ := spells_append.1 hos
  have hequals : (firstMark (os₂ ++ rest)).any (Mark.isSymbolOf ["<", ":", ","]) = false := by
    obtain ⟨o', os₂, rfl, hmark', -, -⟩ := spells_cons.1 hos₂
    exact firstMark_any hmark' (by decide) _
  obtain ⟨m, -, hread⟩ := readings_loop reserved brackets f hhole hmark hos₁ hequals
  have hroles : (countLoop n es b).nameRoles (bare brackets).inBraces leads =
      .unread :: (unread (commaNames n []) ++ .unread ::
        (es.nameRoles (bare brackets).inBraces false ++
          .unread :: (b.nameRoles (bare brackets).inBraces false ++ [.unread]))) := by
    have hname : unread (commaNames n []) = [.unread] := rfl
    simp only [nameRoles, hname, List.cons_append, List.nil_append, List.append_assoc]
  refine ⟨some (Terminal.keyword "end").mark, rfl, ?_⟩
  rw [hroles, List.cons_append, List.append_assoc, readAs_unread, readAs_phrase hos₁, hread]
  exact readings_loopBody hes (.inr rfl) hb (by decide) (by decide) hos₂

theorem isRead_eachLoop {n : Identifier} {ns : List Identifier} {es : Tree .exps} {b : Tree .block}
    (hes : es.IsRead reserved) (hb : b.IsRead reserved) : (eachLoop n ns es b).IsRead reserved := by
  rintro brackets f rest leads os - hos
  simp only [terminals, List.append_assoc, List.cons_append] at hos
  obtain ⟨o, os, rfl, hmark, hhole, hos⟩ := spells_cons.1 hos
  obtain ⟨os₁, os₂, rfl, hos₁, hos₂⟩ := spells_append.1 hos
  have hin : (firstMark (os₂ ++ rest)).any (Mark.isSymbolOf ["<", ":", ","]) = false := by
    obtain ⟨o', os₂, rfl, hmark', -, -⟩ := spells_cons.1 hos₂
    exact firstMark_any hmark' (by decide) _
  obtain ⟨m, -, hread⟩ := readings_loop reserved brackets f hhole hmark hos₁ hin
  refine ⟨some (Terminal.keyword "end").mark, rfl, ?_⟩
  simp only [nameRoles, List.append_assoc, List.cons_append, readAs_unread, readAs_phrase hos₁]
  rw [hread]
  exact readings_loopBody hes (.inr rfl) hb (by decide) (by decide) hos₂

theorem isRead_function {fn : FunctionName} {ps : Parameters} {b : Tree .block}
    (hb : b.IsRead reserved) : (function fn ps b).IsRead reserved := by
  rintro brackets f rest leads os - hos
  have hterminals : (function fn ps b).terminals = .keyword "function" :: fn.root.terminal ::
      (fn.terminals.tail ++ (ps.terminals ++ (b.terminals ++ [.keyword "end"]))) := by
    simp only [terminals, FunctionName.terminals, List.cons_append, List.append_assoc,
      List.tail_cons]
  have hroles : (function fn ps b).nameRoles (bare brackets).inBraces leads =
      .unread :: .unread :: (unread fn.terminals.tail ++ (unread ps.terminals ++
        (b.nameRoles (bare brackets).inBraces false ++ [.unread]))) := by
    have hname : unread fn.terminals = .unread :: unread fn.terminals.tail := rfl
    simp only [nameRoles, hname, List.cons_append, List.append_assoc]
  rw [hterminals] at hos
  obtain ⟨o, os, rfl, hmark, hhole, hos⟩ := spells_cons.1 hos
  obtain ⟨root, os, rfl, hroot, hroothole, hos⟩ := spells_cons.1 hos
  obtain ⟨os₁, os₂, rfl, hos₁, hos₂⟩ := spells_append.1 hos
  obtain ⟨os₂, os₃, rfl, hos₂, hos₃⟩ := spells_append.1 hos₂
  refine ⟨some (Terminal.keyword "end").mark, rfl, ?_⟩
  rw [hroles, readAs_unread, readAs_unread, readAs_phrase hos₁, readAs_phrase hos₂]
  simp only [List.cons_append, List.append_assoc]
  rw [readings_function hhole hmark hroothole hroot hos₁ hos₂ (no_colon_of_body hos₃),
    readings_body hb (by decide) (by decide) hos₃]

theorem isRead_localFunction {n : Identifier} {ps : Parameters} {b : Tree .block}
    (hb : b.IsRead reserved) : (localFunction n ps b).IsRead reserved := by
  rintro brackets f rest leads os - hos
  simp only [terminals, List.append_assoc, List.cons_append] at hos
  obtain ⟨o, os, rfl, hmark, hhole, hos⟩ := spells_cons.1 hos
  obtain ⟨o', os, rfl, hmark', hhole', hos⟩ := spells_cons.1 hos
  obtain ⟨name, os, rfl, hname, hnamehole, hos⟩ := spells_cons.1 hos
  obtain ⟨os₁, os₂, rfl, hos₁, hos₂⟩ := spells_append.1 hos
  refine ⟨some (Terminal.keyword "end").mark, rfl, ?_⟩
  simp only [nameRoles, List.append_assoc, List.cons_append, readAs_unread, readAs_phrase hos₁]
  rw [readings_localFunction hhole hmark hhole' hmark' hnamehole hname hos₁
    (no_colon_of_body hos₂), readings_body hb (by decide) (by decide) hos₂]

theorem isRead_localNames (n : Identifier) (ns : List Identifier) :
    (localNames n ns).IsRead reserved := by
  rintro brackets f rest leads os ⟨-, -, hrest⟩ hos
  obtain ⟨o, os, rfl, hmark, hhole, hos⟩ := spells_cons.1 hos
  obtain ⟨m, hm, hread⟩ := readings_localNames reserved brackets f hhole hmark hos hrest
  refine ⟨some m, Mark.endsOperand_of_isName hm, ?_⟩
  rw [List.cons_append, hread, nameRoles, readAs_unread, readAs_of_unread, List.nil_append]

theorem isRead_localValues {n : Identifier} {ns : List Identifier} {es : Tree .exps}
    (hes : es.IsRead reserved) : (localValues n ns es).IsRead reserved := by
  rintro brackets f rest leads os ⟨-, -, hrest⟩ hos
  simp only [terminals, List.cons_append] at hos
  obtain ⟨o, os₁, o', os₂, rfl, hmark, hhole, hos₁, hmark', hhole', hos₂⟩ := hos.between
  obtain ⟨f', hf', hread⟩ := hes.values brackets rest (.inr rfl) hmark' (by decide) hos₂
    (any_isSymbolOf_of_subset hrest _ (by simp))
  refine ⟨f', hf', ?_⟩
  simp only [nameRoles, List.append_assoc, List.cons_append, readAs_unread, readAs_phrase hos₁]
  rw [readings_localValues hhole hmark hos₁ hhole' hmark', hread]

/-! ## Blocks -/

theorem isRead_give {es : Tree .exps} (hes : es.IsRead reserved) : (give es).IsRead reserved := by
  rintro brackets f rest leads os ⟨-, hrest⟩ hos
  obtain ⟨o, os, rfl, hmark, hhole, hos⟩ := spells_cons.1 hos
  obtain ⟨f', -, hread⟩ := hes.values brackets rest (.inr rfl) hmark (by decide) hos hrest
  refine ⟨f', trivial, ?_⟩
  rw [List.cons_append, readings_passed hhole hmark (by decide), hread, nameRoles, readAs_unread]

theorem isRead_done : done.IsRead reserved := by
  rintro brackets f rest leads os - hos
  obtain rfl := spells_nil.1 hos
  exact ⟨f, trivial, rfl⟩

/-- The semicolon that may stand behind a statement is passed over. -/
theorem readings_semicolonIf {semicolon : Bool} (hos : Spells os (semicolonIf semicolon))
    (brackets : List Text) (f : Option Mark) (rest : List Occurrence) :
    readings reserved brackets f (os ++ rest) =
      readings reserved brackets (if semicolon then some (Terminal.sign ";").mark else f) rest := by
  cases semicolon with
  | false =>
    obtain rfl := spells_nil.1 hos
    rfl
  | true =>
    obtain ⟨o, os, rfl, hmark, hhole, hos⟩ := spells_cons.1 hos
    obtain rfl := spells_nil.1 hos
    rw [List.singleton_append, readings_passed hhole hmark (by decide), hmark, if_pos rfl]

/-- What goes on behind a statement is its semicolon, or what goes on behind that. -/
theorem any_semicolonIf {semicolon : Bool} {p : Mark → Bool}
    (hos : Spells os (semicolonIf semicolon)) (hp : p (Terminal.sign ";").mark = false)
    (hrest : (firstMark rest).any p = false) : (firstMark (os ++ rest)).any p = false := by
  cases semicolon with
  | false =>
    obtain rfl := spells_nil.1 hos
    exact hrest
  | true =>
    obtain ⟨o, os, rfl, hmark, -, -⟩ := spells_cons.1 hos
    exact firstMark_any hmark hp _

theorem isRead_last {st : Tree .final} {semicolon : Bool} (hst : st.IsRead reserved) :
    (last st semicolon).IsRead reserved := by
  rintro brackets f rest leads os ⟨hfield, -, hrest⟩ hos
  obtain ⟨os₁, os₂, rfl, hos₁, hos₂⟩ := spells_append.1 hos
  have hnext : (firstMark (os₂ ++ rest)).any (Mark.isSymbolOf ["="]) = false :=
    any_semicolonIf hos₂ (by decide) (any_isSymbolOf_of_subset hrest _ (by simp))
  obtain ⟨f₁, -, hread⟩ := hst brackets f _ false ⟨hfield, hnext⟩ hos₁
  refine ⟨if semicolon then some (Terminal.sign ";").mark else f₁, trivial, ?_⟩
  rw [nameRoles, readAs_tree hos₁, readAs_of_unread, List.append_nil, List.append_assoc, hread,
    readings_semicolonIf hos₂]

/-- Behind the semicolon of a statement a field could begin, if the innermost bracket is a brace. -/
theorem isRead_next {st : Tree .stat} {semicolon : Bool} {b : Tree .block}
    (hst : st.IsRead reserved) (hb : b.IsRead reserved) :
    (next st semicolon b).IsRead reserved := by
  rintro brackets f rest leads os ⟨hfield, hleads, hrest⟩ hos
  simp only [terminals, List.append_assoc] at hos
  obtain ⟨os₁, os₂, rfl, hos₁, hos₂⟩ := spells_append.1 hos
  obtain ⟨os₂, os₃, rfl, hos₂, hos₃⟩ := spells_append.1 hos₂
  have hblock : (firstMark (os₃ ++ rest)).any (Mark.isSymbolOf ["<", ":", ",", "="]) = false := by
    rcases b.head_block with hnil | ⟨a, as, hterminals, ha⟩
    · rw [hnil] at hos₃
      obtain rfl := spells_nil.1 hos₃
      exact hrest
    · rw [hterminals] at hos₃
      obtain ⟨o, os₃, rfl, hmark, -, -⟩ := spells_cons.1 hos₃
      exact firstMark_any hmark (Mark.isSymbolOf_of_isWordOr ha (by decide)) _
  obtain ⟨f₁, hf₁, hread₁⟩ :=
    hst brackets f _ leads ⟨hfield, hleads, any_semicolonIf hos₂ (by decide) hblock⟩ hos₁
  have hbegins : Cat.block.Begins brackets
      (if semicolon then some (Terminal.sign ";").mark else f₁)
      ((bare brackets).inBraces && semicolon) rest := by
    cases semicolon with
    | false =>
      obtain ⟨hfield₁, hstarts₁⟩ := not_leadsToField_of_endsOperand brackets hf₁
      exact ⟨hfield₁, by rw [Bool.and_false]; exact hstarts₁.symm, hrest⟩
    | true => exact ⟨rfl, rfl, hrest⟩
  obtain ⟨f₂, -, hread₂⟩ := hb brackets _ rest _ hbegins hos₃
  refine ⟨f₂, trivial, ?_⟩
  simp only [nameRoles, List.append_assoc, readAs_tree hos₁, readAs_phrase hos₂]
  rw [hread₁, readings_semicolonIf hos₂, hread₂]

/-! ## All trees -/

/-- A walk over a tree reads its names by their roles. -/
theorem isRead (reserved : Reserved) {c : Cat} (t : Tree c) : t.IsRead reserved := by
  induction t with
  | done => exact isRead_done
  | next _ _ _ hst hb => exact isRead_next hst hb
  | last _ _ hst => exact isRead_last hst
  | leave | giveNothing => exact isRead_single rfl (fun _ _ => rfl) (by decide) trivial
  | give _ hes => exact isRead_give hes
  | assign _ _ hts hes => exact isRead_assign hts hes
  | run _ hp => exact isRead_run hp
  | doBlock _ hb => exact isRead_doBlock hb
  | whileLoop _ _ he hb => exact isRead_whileLoop he hb
  | repeatLoop _ _ hb he => exact isRead_repeatLoop hb he
  | branch _ _ _ he hb hcs => exact isRead_branch he hb hcs
  | countLoop _ _ _ hes hb => exact isRead_countLoop hes hb
  | eachLoop _ _ _ _ hes hb => exact isRead_eachLoop hes hb
  | function _ _ _ hb => exact isRead_function hb
  | localFunction _ _ _ hb => exact isRead_localFunction hb
  | localNames n ns => exact isRead_localNames n ns
  | localValues _ _ _ hes => exact isRead_localValues hes
  | endIf => exact isRead_single rfl (fun _ _ => rfl) (by decide) rfl
  | elseBlock _ hb => exact isRead_elseBlock hb
  | elseIf _ _ _ he hb hcs => exact isRead_elseIf he hb hcs
  | one _ he => exact isRead_one he
  | more _ _ he hes => exact isRead_more he hes
  | atom _ h => exact isRead_atom h
  | lambda _ _ hb => exact isRead_lambda hb
  | operand _ hp => exact isRead_operand hp
  | table _ hfs => exact isRead_table hfs
  | binary _ _ h _ ha hb => exact isRead_binary h ha hb
  | unary _ h _ he => exact isRead_unary h he
  | name n => exact isRead_name n
  | index _ _ hp he => exact isRead_index hp he
  | member _ _ hp => exact isRead_member hp
  | call _ _ hp has => exact isRead_call hp has
  | method _ _ _ hp has => exact isRead_method hp has
  | group _ he => exact isRead_group he
  | noArgs => exact isRead_noArgs
  | listArgs _ hes => exact isRead_listArgs hes
  | tableArgs _ hfs => exact isRead_tableArgs hfs
  | stringArgs _ h => exact isRead_single rfl (fun _ _ => rfl) rfl rfl
  | noFields => exact isRead_noFields
  | lastField _ he => exact isRead_lastField he
  | moreFields _ _ _ he hfs => exact isRead_moreFields he hfs
  | keyed _ _ hk hv => exact isRead_keyed hk hv
  | named _ _ hv => exact isRead_named hv
  | item _ he => exact isRead_item he
  | oneTarget _ hv => exact isRead_oneTarget hv
  | moreTargets _ _ hv hts => exact isRead_moreTargets hv hts

end Tree

/-! ## Keys -/

/-- The occurrences with a role. -/
def withRole (role : NameRole) (os : List Occurrence) (roles : List NameRole) : List Occurrence :=
  ((os.zip roles).filter fun p => p.2 = role).map Prod.fst

/-- The occurrences that are read as keys. -/
def readAsKeys (reads : List (Occurrence × Reading)) : List Occurrence :=
  (reads.filter fun p => p.2 = .key).map Prod.fst

theorem readAsKeys_cons (o : Occurrence) (os : List Occurrence) (role : NameRole)
    (roles : List NameRole) :
    readAsKeys (readAs (o :: os) (role :: roles)) =
      (if role = .key ∨ role = .target then [o] else []) ++ readAsKeys (readAs os roles) := by
  cases role <;> rfl

theorem withRole_key_cons (o : Occurrence) (os : List Occurrence) (role : NameRole)
    (roles : List NameRole) :
    withRole .key (o :: os) (role :: roles) =
      (if role = .key then [o] else []) ++ withRole .key os roles := by
  cases role <;> rfl

/-- All keys are read as keys. -/
theorem withRole_sublist (os : List Occurrence) (roles : List NameRole) :
    (withRole .key os roles).Sublist (readAsKeys (readAs os roles)) := by
  induction os generalizing roles with
  | nil => simp [withRole]
  | cons o os ih =>
    cases roles with
    | nil => simp [withRole]
    | cons role roles =>
      rw [withRole_key_cons, readAsKeys_cons]
      refine List.Sublist.append ?_ (ih roles)
      by_cases hkey : role = .key
      · simp [hkey]
      · simp [hkey]

/-- Only keys are read as keys if there is no target where a field could begin. -/
theorem readAsKeys_eq_iff {roles : List NameRole} (h : os.length = roles.length) :
    readAsKeys (readAs os roles) = withRole .key os roles ↔ NameRole.target ∉ roles := by
  induction os generalizing roles with
  | nil =>
    obtain rfl : roles = [] := List.length_eq_zero_iff.1 h.symm
    simp [readAsKeys, withRole]
  | cons o os ih =>
    cases roles with
    | nil => simp at h
    | cons role roles =>
      have ih := ih (Nat.succ.inj h)
      rw [readAsKeys_cons, withRole_key_cons, List.mem_cons, not_or, ← ih]
      by_cases htarget : role = .target
      · subst htarget
        -- the target is one key too many
        have hlength := (withRole_sublist os roles).length_le
        constructor
        · intro heq
          have hsame := congrArg List.length heq
          simp at hsame
          omega
        · intro hne
          exact absurd rfl hne.1
      · simp [htarget, Ne.symm htarget]

/-- The occurrences of a layout without stray blanks spell its terminals. -/
theorem spells_of_layout {ts : List Terminal} {source : Text}
    (h : Layout Text.isSeparator ts source) :
    ∃ spans, scan source = .ok spans ∧ Spells (occurrences spans) ts := by
  have hblank : ∀ c, Text.isSeparator c = true → isLuaBlank c = true := by
    intro c hc
    rw [isLuaBlank, hc, Bool.true_or]
  obtain ⟨spans, hscan, hmarks, hsame, hholes⟩ := scan_of_layout hblank h
  have hnone : ∀ m ∈ spans.flatMap Span.marks, (!m.isStray Text.isSeparator) = true := by
    intro m _
    unfold Mark.isStray
    split
    · simp
    · rfl
  rw [List.filter_eq_self.2 hnone, ← hsame] at hmarks
  exact ⟨spans, hscan, hmarks, hholes⟩

/--
What the names of a chunk are taken for, whatever its layout: the keys of table constructors for
keys, the names behind points and colons for fields, and targets of assignments for keys where a
field could begin. If there is no such target, the names taken for keys are the keys. A variable
that is visible where it stands is a site.
-/
theorem keys_of_layout (reserved : Reserved) {chunk : Tree .block} {source : Text}
    (h : Layout Text.isSeparator chunk.terminals source) :
    ∃ spans, scan source = .ok spans ∧
      (occurrences spans).map Occurrence.mark = chunk.terminals.map Terminal.mark ∧
      let os := occurrences spans
      let roles := chunk.nameRoles false false
      let visits := initial.visits reserved (.start os)
      visits.map Visit.outcome = readAs os roles ∧
        (readAsKeys (visits.map Visit.outcome) = withRole .key os roles ↔
          NameRole.target ∉ roles) ∧
        ∀ v ∈ visits, v.reading = .variable → v.isVisible = true →
          v.occurrence ∈ (resolve reserved os).sites := by
  obtain ⟨spans, hscan, hspells⟩ := spells_of_layout h
  have hread : (initial.visits reserved (.start (occurrences spans))).map Visit.outcome =
      readAs (occurrences spans) (chunk.nameRoles false false) := by
    obtain ⟨f', -, hread⟩ := chunk.isRead reserved [] none [] false ⟨rfl, rfl, rfl⟩ hspells
    rw [List.append_nil, readings_nil, List.append_nil] at hread
    exact (outcomes_visits reserved initial none _).trans hread
  have hlength := hspells.length_eq.trans (chunk.length_nameRoles false false).symm
  refine ⟨spans, hscan, hspells.1, hread, ?_, ?_⟩
  · rw [hread]
    exact readAsKeys_eq_iff hlength
  · intro v hv hreading hvisible
    exact List.mem_reverse.2 (site_of_visit hv hreading hvisible)

/-- Two local variables, and a function in a table that swaps them. -/
def swapInTable : Tree .block :=
  let a : Identifier := ⟨['a'], by decide, by decide⟩
  let b : Identifier := ⟨['b'], by decide, by decide⟩
  let f : Identifier := ⟨['f'], by decide, by decide⟩
  let t : Identifier := ⟨['t'], by decide, by decide⟩
  let swap : Tree .stat := .assign (.moreTargets (.name a) (.oneTarget (.name b)))
    (.more (.operand (.name b)) (.one (.operand (.name a))))
  let table : Tree .exp :=
    .table (.lastField (.named f (.lambda ⟨[], false⟩ (.next swap false .done))))
  .next (.localNames a [b]) false (.next (.assign (.oneTarget (.name t)) (.one table)) false .done)

/-- The swap with a space behind each token. -/
def swapSource : Text :=
  "local a , b t = \x7b f = function ( ) a , b = b , a end \x7d ".toList

theorem layout_swapSource : Layout Text.isSeparator swapInTable.terminals swapSource :=
  layout_spaced (by decide) swapInTable.terminals

theorem scan_swapSource : scan swapSource = .ok [⟨.code, swapSource, 0, 55⟩] := by
  decide +kernel

/-- The second target of the swap is taken for a key. -/
theorem swap_read_as_key :
    Layout Text.isSeparator swapInTable.terminals swapSource ∧
      ∃ spans, scan swapSource = .ok spans ∧
      (initial.visits .default (.start (occurrences spans))).map
          (fun v => (v.occurrence.offset, v.reading)) =
        [(12, .variable), (18, .key), (35, .variable), (39, .key), (43, .variable),
          (47, .variable)] := by
  obtain ⟨spans, hscan, -, hread, -, -⟩ := keys_of_layout .default layout_swapSource
  obtain rfl := Except.ok.inj (scan_swapSource.symm.trans hscan)
  refine ⟨layout_swapSource, _, hscan, ?_⟩
  have hpairs := congrArg (List.map fun p : Occurrence × Reading => (p.1.offset, p.2)) hread
  rw [List.map_map] at hpairs
  refine hpairs.trans ?_
  decide +kernel

/--
A visible variable that is assigned to is no site, although it is no key: the names that are taken
for keys are not the keys.
-/
theorem swapped_variable_is_no_site :
    Layout Text.isSeparator swapInTable.terminals swapSource ∧
      ∃ spans, scan swapSource = .ok spans ∧
      let os := occurrences spans
      let visits := initial.visits .default (.start os)
      readAsKeys (visits.map Visit.outcome) ≠ withRole .key os (swapInTable.nameRoles false false) ∧
        ∃ v ∈ visits, v.occurrence ∈ withRole .target os (swapInTable.nameRoles false false) ∧
          v.isVisible = true ∧ v.occurrence ∉ (resolve .default os).sites := by
  refine ⟨layout_swapSource, _, scan_swapSource, ?_⟩
  decide +kernel

end LuaVeil
