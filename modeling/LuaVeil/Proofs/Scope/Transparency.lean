/-
# Annotations and scopes

A walk passes over annotations without noting anything. What is left of them is
the mark that was passed last, and that decides whether a deferred action is done
and whether an `if` begins an expression.

Main statements:

* `Alike.step_plain` and its like, one step with annotations does what the step
  without them does;
* `finds_walk`, so does a whole walk;
* `annotations_transparent`, with annotations the declared names are the same, and
  so are the sites among the occurrences that were there before;
* `optional_type_hides_if`, which an annotation that ends in a question mark breaks.
-/
import LuaVeil.Proofs.Scope.Likeness

namespace LuaVeil
namespace ScopeState

open Insertion

/-! ## Steps -/

variable {e : Insertion} {idle : Bool} {reserved : Reserved} {s s' : ScopeState}
  {f f' : Option Mark} {m : Mark}

theorem Alike.settle {c c' : Cursor} {o : Occurrence} {os : List Occurrence}
    (h : Alike e idle s s' c c') (hc : c.ahead = o :: os) :
    Same e (s.settle c.frame o.mark) (s'.settle c'.frame o.mark) := by
  have hframe : s.settle c'.frame o.mark = s.settle c.frame o.mark := by
    rcases h.frame with hframe | hframe
    · rw [hframe]
    · exact (hframe o (by rw [hc]; rfl)).2.settle
  have hsame := h.state.settle c'.frame o.mark
  rwa [settle_prune, settle_prune, hframe] at hsame

theorem Alike.arrive {c c' : Cursor} {o : Occurrence} {os : List Occurrence}
    (h : Alike e idle s s' c c') (hc : c.ahead = o :: os) :
    Same e (s.arrive c.frame o.mark) (s'.arrive c'.frame o.mark) :=
  (h.settle hc).leaveBranch

/-- The names that are declared are noted, and nothing else changes. -/
theorem declareAll_eq (reserved : Reserved) (s : ScopeState) (names : List Occurrence) :
    ∃ declared sites, (s.declareAll reserved names).1 = { s with declared, sites } := by
  have hfold : ∀ (os : List Occurrence) (s : ScopeState),
      ∃ declared sites, os.foldl declare s = { s with declared, sites } := by
    intro os
    induction os with
    | nil => exact fun s => ⟨s.declared, s.sites, rfl⟩
    | cons o os ih =>
      intro s
      obtain ⟨declared, sites, hos⟩ := ih (s.declare o)
      exact ⟨declared, sites, hos⟩
  exact hfold _ s

/-- A conditional expression begins a branch after a word in which no expression ends. -/
theorem inBranch_keyword {w : Text} {branch : Bool} (hw : (Mark.word w).isName = false)
    (hs : s.inBranch = false) (hend : (Mark.word w).endsOperand = true) :
    (s.keyword w branch f).inBranch = false := by
  rw [Mark.isName] at hw
  rw [Mark.endsOperand, hw, Bool.false_or] at hend
  obtain ⟨v, hv, hvw⟩ := List.any_eq_true.1 hend
  obtain rfl := beq_iff_eq.1 hvw
  simp only [List.mem_cons, List.not_mem_nil, or_false] at hv
  rcases hv with rfl | rfl | rfl | rfl
  · exact hs
  · exact hs
  · exact hs
  · show s.closeScope.inBranch = false
    cases s with
    | mk scope outer => cases outer <;> exact hs

theorem Alike.key {c c' : Cursor} {o : Occurrence} {os : List Occurrence}
    (h : Alike e idle s s' c c') (hc : c.ahead = o :: os) :
    c'.frame.any (Mark.isSymbolOf keySigns) = c.frame.any (Mark.isSymbolOf keySigns) := by
  rcases h.frame with hframe | hframe
  · rw [hframe]
  · exact (hframe o (by rw [hc]; rfl)).2.key

/-- A name is noted as a use in both places, or in none. -/
theorem Alike.atName {t t' : ScopeState} {c c' : Cursor} {o : Occurrence} {os os' : List Occurrence}
    (h : Alike e idle s s' c c') (ht : Same e t t') (hc : c.ahead = o :: os)
    (hc' : c'.ahead = e.move o :: os')
    (hassigns : (firstMark os').any (Mark.isSymbolOf ["="]) =
      (firstMark os).any (Mark.isSymbolOf ["="])) :
    Same e (t.atName c o) (t'.atName c' (e.move o)) := by
  have hnext : c'.sees 1 ["="] = c.sees 1 ["="] := by
    rw [Cursor.sees_one hc', Cursor.sees_one hc, hassigns]
  have hkey : t'.isConstructorKey c' = t.isConstructorKey c := by
    obtain ⟨sites, rfl, -⟩ := ht
    have hframe := h.key hc
    simp only [isConstructorKey, keySigns, hnext] at hframe ⊢
    rw [hframe]
  rw [ScopeState.atName, ScopeState.atName, h.field, hkey]
  split
  · exact ht
  · exact ht.use o

theorem inBranch_atName (s : ScopeState) (c : Cursor) (o : Occurrence) :
    (s.atName c o).inBranch = s.inBranch := by
  unfold atName ScopeState.use
  split
  · rfl
  split <;> rfl

/-- An occurrence that begins no phrase is passed alike. -/
theorem Alike.step_plain {c c' : Cursor} {o : Occurrence} {os os' : List Occurrence}
    (h : Alike e idle s s' c c') (reserved : Reserved) (hc : c.ahead = o :: os)
    (hc' : c'.ahead = e.move o :: os')
    (hword : o.mark.isWordOf ["local", "for", "function"] = false)
    (hsymbol : o.mark.isSymbolOf ["::"] = false)
    (hassigns : (firstMark os').any (Mark.isSymbolOf ["="]) =
      (firstMark os).any (Mark.isSymbolOf ["="])) (next next' : Cursor) :
    ∃ t t', s.step reserved c o next = (t, next) ∧
      s'.step reserved c' (e.move o) next' = (t', next') ∧ Same e t t' ∧
      (t.inBranch = true → o.mark.endsOperand = false) := by
  have harrive := h.arrive hc
  have hmove := e.mark_move o
  cases hmark : o.mark with
  | word w =>
    by_cases hname : o.mark.isName = true
    · refine ⟨_, _, step_of_name hname, step_of_name (by rw [hmove, hname]), ?_, ?_⟩
      · rw [hmove]
        exact h.atName harrive hc hc' hassigns
      · intro hbranch
        rw [inBranch_atName] at hbranch
        cases hbranch
    · rw [Bool.not_eq_true] at hname
      have hkeyword : ∀ (t : ScopeState) (branch : Bool) (f : Option Mark) (d : Cursor),
          t.atKeyword reserved w branch f d = (t.keyword w branch f, d) := by
        intro t branch f d
        rw [hmark, Mark.isWordOf] at hword
        simp only [List.any_cons, List.any_nil, Bool.or_false, Bool.or_eq_false_iff,
          beq_eq_false_iff_ne, ne_eq] at hword
        rw [atKeyword, if_neg (Ne.symm hword.1), if_neg (Ne.symm hword.2.1),
          if_neg (Ne.symm hword.2.2)]
      have hbranch := (h.settle hc).inBranch_eq
      have hname' : (e.move o).mark.isName = false := by rw [hmove, hname]
      refine ⟨_, _, (step_of_keyword hmark hname).trans (hkeyword _ _ _ _),
        (step_of_keyword (hmove.trans hmark) hname').trans (hkeyword _ _ _ _), ?_, ?_⟩
      · rw [hmove, hbranch]
        refine harrive.keyword w _ fun hw => ?_
        rcases h.frame with hframe | hframe
        · rw [hframe]
        · exact (hframe o (by rw [hc]; rfl)).2.opens (by rw [hmark, hw])
      · intro hin
        rw [hmark] at hname
        refine Bool.eq_false_iff.2 fun hend => ?_
        rw [inBranch_keyword hname rfl hend] at hin
        cases hin
  | symbol b =>
    have hb : (Mark.symbol b).isSymbolOf ["::"] = false := by rw [← hmark, hsymbol]
    obtain ⟨t, t', ht, ht', hsame, hbranch⟩ := harrive.atSymbol hb next next'
    refine ⟨t, t', (step_of_symbol hmark).trans ht, ?_, hsame, ?_⟩
    · rw [step_of_symbol (hmove.trans hmark), hmove]
      exact ht'
    · intro hin
      rw [hbranch] at hin
      cases hin
  | number =>
    refine ⟨_, _, step_of_literal (.inl hmark), step_of_literal (.inl (hmove.trans hmark)), ?_,
      fun hin => (by cases hin)⟩
    rwa [hmove]
  | string =>
    refine ⟨_, _, step_of_literal (.inr hmark), step_of_literal (.inr (hmove.trans hmark)), ?_,
      fun hin => (by cases hin)⟩
    rwa [hmove]

/-! ## Phrases -/

open Cursor

section Phrases

variable {c c' : Cursor} {names os os' : List Occurrence} {l last : Mark}

theorem Waits.declareAll (h : Waits s) (reserved : Reserved) (names : List Occurrence) :
    Waits (s.declareAll reserved names).1 := by
  obtain ⟨declared, sites, hs⟩ := declareAll_eq reserved s names
  rw [hs]
  exact h

theorem inBranch_declareAll (reserved : Reserved) (s : ScopeState) (names : List Occurrence) :
    (s.declareAll reserved names).1.inBranch = s.inBranch := by
  obtain ⟨declared, sites, hs⟩ := declareAll_eq reserved s names
  rw [hs]

theorem Same.localNames (h : Same e s s') (reserved : Reserved)
    (hc : c.names = (names, after (some l) os))
    (hc' : c'.names = (names.map e.move, after (some last) os'))
    (hos : (firstMark os).any (Mark.isSymbolOf ["="]) = false)
    (hos' : (firstMark os').any (Mark.isSymbolOf ["="]) = false) :
    ∃ t t', s.localNames reserved c = (t, after (some l) os) ∧
      s'.localNames reserved c' = (t', after (some last) os') ∧ Same e t t' ∧
      t.inBranch = s.inBranch ∧ (Waits s → Waits t) := by
  obtain ⟨hsame, hbound⟩ := h.declareAll reserved names
  simp only [ScopeState.localNames, hc, hc', sees_after, hos, hos', hbound]
  exact ⟨_, _, rfl, rfl, hsame.bind _, inBranch_declareAll reserved s names,
    fun hs => hs.declareAll reserved names⟩

theorem Same.localValues {eq : Occurrence} (h : Same e s s') (reserved : Reserved)
    (heq : eq.mark = .sign "=")
    (hhole : eq.inHole = false) (hc : c.names = (names, after (some l) (eq :: os)))
    (hc' : c'.names = (names.map e.move, after (some last) (e.move eq :: os'))) :
    ∃ t t', s.localNames reserved c = (t, after (some eq.mark) os) ∧
      s'.localNames reserved c' = (t', after (some eq.mark) os') ∧ Same e t t' ∧
      t.inBranch = s.inBranch := by
  have hsees : ∀ (m : Mark) (o : Occurrence) (rest : List Occurrence), o.mark = .sign "=" →
      (after (some m) (o :: rest)).sees 0 ["="] = true := by
    intro m o rest ho
    rw [sees_after, firstMark_cons, ho]
    decide
  have hmove : (e.move eq).mark = .sign "=" := by rw [e.mark_move, heq]
  obtain ⟨hsame, hbound⟩ := h.declareAll reserved names
  have hbranch := inBranch_declareAll reserved s names
  simp only [ScopeState.localNames, hc, hc', hsees _ _ _ heq, hsees _ _ _ hmove, hbound, if_true]
  rw [advance_after hhole, advance_after (by rw [e.inHole_move, hhole]), e.mark_move]
  obtain ⟨sites, hs, hsites⟩ := hsame
  rw [hs]
  exact ⟨_, _, rfl, rfl, ⟨sites, rfl, hsites⟩, hbranch⟩

theorem Same.loopNames (h : Same e s s') (reserved : Reserved)
    (hc : c.names = (names, after (some l) os))
    (hc' : c'.names = (names.map e.move, after (some last) os')) :
    ∃ t t', s.loopNames reserved c = (t, after (some l) os) ∧
      s'.loopNames reserved c' = (t', after (some last) os') ∧ Same e t t' ∧
      t.inBranch = s.inBranch ∧ (Waits s → Waits t) := by
  have hdepth : s'.depth = s.depth := by
    obtain ⟨sites, rfl, -⟩ := h
    rfl
  obtain ⟨hsame, hbound⟩ := h.declareAll reserved names
  have hbranch := inBranch_declareAll reserved s names
  have hwaits : Waits s → Waits (s.declareAll reserved names).1 :=
    fun hs => hs.declareAll reserved names
  simp only [ScopeState.loopNames, hc, hc', hbound, hdepth]
  obtain ⟨sites, hs, hsites⟩ := hsame
  rw [hs]
  exact ⟨_, _, rfl, rfl, ⟨sites, rfl, hsites⟩, hbranch, hwaits⟩

theorem Same.enterFunction {d d' : Cursor} (h : Same e s s') (reserved : Reserved)
    (hc : c.parameters = (names, d))
    (hc' : c'.parameters = (names.map e.move, d')) :
    ∃ t t', s.enterFunction reserved c = (t, d) ∧ s'.enterFunction reserved c' = (t', d') ∧
      Same e t t' ∧ t.inBranch = s.inBranch ∧ (Waits s.openScope → Waits t) := by
  obtain ⟨hsame, hbound⟩ := h.openScope.declareAll reserved names
  simp only [ScopeState.enterFunction, hc, hc', hbound]
  exact ⟨_, _, rfl, rfl, hsame.bind _, inBranch_declareAll reserved s.openScope names,
    fun hs => hs.declareAll reserved names⟩

theorem use_eq (s : ScopeState) (o : Occurrence) : ∃ sites, s.use o = { s with sites } := by
  unfold ScopeState.use
  split
  · exact ⟨_, rfl⟩
  · exact ⟨s.sites, rfl⟩

/-- A function that is not local, with or without a name. -/
theorem Same.function {path head head' : List Occurrence} (h : Same e s s') (reserved : Reserved)
    (hpath : NamePath path) (hhead : e.FunctionHead head head' last)
    (hos : (firstMark os).any (Mark.isSymbolOf [":"]) = false)
    (hos' : (firstMark os').any (Mark.isSymbolOf [":"]) = false)
    (hgo : goesOn (some last) (firstMark os') = false) (f f' : Option Mark) :
    ∃ t t',
      s.function reserved (after f (path ++ head ++ os)) = (t, after (some (.sign ")")) os) ∧
      s'.function reserved (after f' (path.map e.move ++ head' ++ os')) =
        (t', after (some last) os') ∧
      Same e t t' ∧ t.inBranch = s.inBranch ∧ (Waits s.openScope → Waits t) := by
  have hfirst := hhead.firstMark os
  have hfirst' := hhead.firstMark os'
  cases hpath with
  | none =>
    have hnone : ∀ (g : Option Mark) (rest : List Occurrence),
        firstMark rest = some (.sign "<") ∨ firstMark rest = some (.sign "(") →
        (after g rest).name? = none := by
      intro g rest hrest
      cases rest with
      | nil => rfl
      | cons o rest =>
        have hname : o.mark.isName = false := by
          rcases hrest with hrest | hrest
          all_goals
            rw [Option.some.inj hrest]
            rfl
        simp [name?, after, hname]
    obtain ⟨names, hnames, hnames'⟩ := parameters_of_functionHead hhead hos hos' hgo f f'
    rw [List.nil_append, List.map_nil, List.nil_append, ScopeState.function, ScopeState.function,
      hnone f _ hfirst.1, hnone f' _ hfirst'.2]
    exact h.enterFunction reserved hnames hnames'
  | @path o fields hname hhole hfields =>
    have hnot : ∀ rest : List Occurrence,
        firstMark rest = some (.sign "<") ∨ firstMark rest = some (.sign "(") →
        (firstMark rest).any (Mark.isSymbolOf [".", ":"]) = false := by
      intro rest hrest
      rcases hrest with hrest | hrest
      all_goals
        rw [hrest]
        decide
    obtain ⟨g, hskip⟩ := skipFields_of hfields (hnot _ hfirst.1) (some o.mark)
    obtain ⟨g', hskip'⟩ :=
      skipFields_of (fields_move (e := e) hfields) (hnot _ hfirst'.2) (some (e.move o).mark)
    obtain ⟨names, hnames, hnames'⟩ := parameters_of_functionHead hhead hos hos' hgo g g'
    rw [List.cons_append, List.cons_append, List.map_cons, List.cons_append, List.cons_append,
      List.append_assoc, List.append_assoc, ScopeState.function, ScopeState.function,
      name?_after hhole hname,
      name?_after (by rw [e.inHole_move, hhole]) (by rw [e.mark_move, hname])]
    obtain ⟨sites, huse⟩ := use_eq s o
    rw [← hskip] at hnames
    rw [← hskip'] at hnames'
    obtain ⟨t, t', ht, ht', hsame, hbranch, hwaits⟩ :=
      (h.use o).enterFunction reserved hnames hnames'
    rw [huse] at hbranch hwaits
    exact ⟨t, t', ht, ht', hsame, hbranch, hwaits⟩

/-- A local function. -/
theorem Same.localFunction {name : Occurrence} {head head' : List Occurrence} (h : Same e s s')
    (reserved : Reserved)
    (hname : name.mark.isName = true) (hhole : name.inHole = false)
    (hhead : e.FunctionHead head head' last)
    (hos : (firstMark os).any (Mark.isSymbolOf [":"]) = false)
    (hos' : (firstMark os').any (Mark.isSymbolOf [":"]) = false)
    (hgo : goesOn (some last) (firstMark os') = false) (f f' : Option Mark) :
    ∃ t t', s.localFunction reserved (after f (name :: (head ++ os))) =
        (t, after (some (.sign ")")) os) ∧
      s'.localFunction reserved (after f' (e.move name :: (head' ++ os'))) =
        (t', after (some last) os') ∧
      Same e t t' ∧ t.inBranch = s.inBranch ∧ (Waits s.openScope → Waits t) := by
  obtain ⟨names, hnames, hnames'⟩ := parameters_of_functionHead hhead hos hos' hgo
    (some name.mark) (some (e.move name).mark)
  obtain ⟨hsame, hbound⟩ := h.declareAll reserved [name]
  obtain ⟨declared, sites, hdeclared⟩ := declareAll_eq reserved s [name]
  rw [List.map_singleton] at hsame hbound
  obtain ⟨t, t', ht, ht', hsame, hbranch, hwaits⟩ :=
    (hsame.bind (s.declareAll reserved [name]).2).enterFunction reserved hnames hnames'
  rw [hdeclared] at hbranch hwaits
  refine ⟨t, t', ?_, ?_, hsame, hbranch, hwaits⟩
  · rw [ScopeState.localFunction, name?_after hhole hname]
    exact ht
  · rw [ScopeState.localFunction,
      name?_after (by rw [e.inHole_move, hhole]) (by rw [e.mark_move, hname])]
    simp only [hbound]
    exact ht'

end Phrases

/-! ## Walks -/

/-- Whether a state has the declared names of another, and its sites but for inserted ones. -/
def Finds (e : Insertion) (s s' : ScopeState) : Prop :=
  s'.declared = s.declared ∧ s'.sites.filter (fun o => !e.isNew o) = s.sites.map e.move

/-- In front of an occurrence in a hole, nothing differs. -/
theorem Alike.atHole {b b' : Option Mark} {o : Occurrence} {os os' : List Occurrence}
    (h : Alike e idle s s' ⟨b, f, o :: os⟩ ⟨b', f', e.move o :: os'⟩) (hhole : o.inHole = true) :
    f' = f ∧ Same e (s.atHole ⟨b, f, o :: os⟩ o).prune
      (s'.atHole ⟨b', f', e.move o :: os'⟩ (e.move o)).prune ∧
      (s.atHole ⟨b, f, o :: os⟩ o).inBranch = s.inBranch ∧
      (idle = true → Waits (s.atHole ⟨b, f, o :: os⟩ o).prune) := by
  refine ⟨?_, ?_, ?_, fun hidle => ?_⟩
  · rcases h.frame with hframe | hframe
    · exact hframe
    · rw [(hframe o rfl).1] at hhole
      cases hhole
  · unfold ScopeState.atHole
    rw [e.mark_move, h.field]
    split
    · rw [prune_use, prune_use]
      exact h.state.use o
    · exact h.state
  · unfold ScopeState.atHole
    split
    · obtain ⟨sites, huse⟩ := use_eq s o
      rw [huse]
    · rfl
  · unfold ScopeState.atHole
    split
    · rw [prune_use]
      exact (h.waits hidle).use o
    · exact h.waits hidle

/-- Inserted occurrences in a hole note nothing but themselves. -/
theorem walk_inserted {ns : List Occurrence} (hhole : ∀ o ∈ ns, o.inHole = true)
    (hnew : ∀ o ∈ ns, e.isNew o = true) (h : Same e s s'.prune) (reserved : Reserved)
    (b' : Option Mark) (rest : List Occurrence) :
    ∃ t : ScopeState, s'.walk reserved ⟨b', f', ns ++ rest⟩ =
        t.walk reserved ⟨lastMark b' (ns.map Occurrence.mark), f', rest⟩ ∧ Same e s t.prune := by
  induction ns generalizing s' b' with
  | nil => exact ⟨s', rfl, h⟩
  | cons o ns ih =>
    obtain ⟨hhole, hholes⟩ := List.forall_mem_cons.1 hhole
    obtain ⟨hnew, hnews⟩ := List.forall_mem_cons.1 hnew
    have hstep : Same e s (s'.atHole ⟨b', f', o :: (ns ++ rest)⟩ o).prune := by
      unfold ScopeState.atHole
      split
      · rw [prune_use]
        exact h.use_new hnew
      · exact h
    obtain ⟨t, ht, hsame⟩ := ih hholes hnews hstep (some o.mark)
    refine ⟨t, ?_, hsame⟩
    rw [List.cons_append, walk_cons rfl, if_pos hhole, List.map_cons, lastMark_cons, ← ht, past,
      if_pos hhole]

/-- A type behind an operand is passed over, and only what has been left is dropped. -/
theorem walk_cast {ns os : List Occurrence} {last : Mark} (htype : e.Typing "::" false ns last)
    (hos : goesOn (some last) (firstMark os) = false) (b' : Option Mark) :
    s'.walk reserved ⟨b', f', ns ++ os⟩ =
      ({ s'.prune with inBranch := false }).walk reserved (after (some last) os) := by
  obtain ⟨o, ts, rfl, ho, hhole, hskip⟩ := htype.skipType
  refine walk_of_step rfl hhole ((step_colons ho).trans ?_)
  exact congrArg (Prod.mk s'.goOn) (hskip os hos _)

/-- Behind a phrase two places are alike if it ends alike. -/
theorem Same.alike {os os' : List Occurrence} {l last : Mark} (h : Same e s s')
    (hbranch : s.inBranch = false) (hl : l.endsType = true) (hlast : last.endsType = true)
    (hhole : ∀ o ∈ os.head?, o.inHole = false) (hwaits : idle = true → Waits s)
    (hlike : EndsLike idle l last os) :
    Alike e idle s s' (after (some l) os) (after (some last) os') := by
  have hpruned : idle = true → Waits s.prune := fun hidle => by
    rw [(hwaits hidle).prune_eq]
    exact hwaits hidle
  have hagree := agree_of_endsLike hlike hpruned (of_endsType hl).2 hlast
  exact {
    state := h.prune
    waits := hpruned
    field := by simp [after, (of_endsType hl).1, (of_endsType hlast).1]
    frame := .inr fun o ho => ⟨hhole o ho, hagree o ho⟩
    branch := fun hin => by rw [hbranch] at hin; cases hin }

/-- Whether walks from two places go on from two places behind that are alike. -/
def LeadTo (e : Insertion) (idle : Bool) (reserved : Reserved) (s s' : ScopeState)
    (c c' d d' : Cursor) : Prop :=
  ∃ t t' : ScopeState, s.walk reserved c = t.walk reserved d ∧
    s'.walk reserved c' = t'.walk reserved d' ∧ Alike e idle t t' d d'

/-- What one step of each walk leads to. -/
theorem LeadTo.of_step {c c' d d' : Cursor} {o : Occurrence} {os os' : List Occurrence}
    (t t' : ScopeState) (hc : c.ahead = o :: os) (hc' : c'.ahead = e.move o :: os')
    (hhole : o.inHole = false) (hstep : s.step reserved c o (after (some o.mark) os) = (t, d))
    (hstep' : s'.step reserved c' (e.move o) (after (some (e.move o).mark) os') = (t', d'))
    (halike : Alike e idle t t' d d') : LeadTo e idle reserved s s' c c' d d' :=
  ⟨t, t', walk_of_step hc hhole hstep, walk_of_step hc' (by rw [e.inHole_move, hhole]) hstep',
    halike⟩

section Alike

variable {b b' : Option Mark} {o : Occurrence} {os os' ns ns' head head' : List Occurrence}
  {l last : Mark}

theorem Alike.walk_localNames
    (halike : Alike e idle s s' ⟨b, f, o :: (ns ++ os)⟩ ⟨b', f', e.move o :: (ns' ++ os')⟩)
    (ho : o.mark = .word "local".toList) (hhole : o.inHole = false)
    (hnames : e.NameList ns ns' l last) (hends : Ends os)
    (hassigns : (firstMark os).any (Mark.isSymbolOf ["="]) = false)
    (hlike : EndsLike (idleAt idle f o.mark) l last os)
    (h : e.Annotated (idleAt idle f o.mark) (some l) (some l) os os') :
    LeadTo e (idleAt idle f o.mark) reserved s s' ⟨b, f, o :: (ns ++ os)⟩ ⟨b', f', e.move o :: (ns' ++ os')⟩
      (after (some l) os) (after (some last) os') := by
  have hmove : (e.move o).mark = .word "local".toList := by rw [e.mark_move, ho]
  have hassigns' : (firstMark os').any (Mark.isSymbolOf ["="]) = false := by
    rw [h.first_assigns, hassigns]
  obtain ⟨names, hc, hc'⟩ := names_of_nameList hnames hends.sign
    (h.not_first (by decide) hends.sign) (some o.mark) (some (e.move o).mark)
  obtain ⟨t, t', ht, ht', hsame, hbranch, hwaits⟩ :=
    (halike.arrive rfl).localNames reserved hc hc' hassigns hassigns'
  rw [← e.mark_move o] at ht'
  refine .of_step t t' rfl rfl hhole ?_ ?_ ?_
  · exact (step_local ho (not_function_of_isName _ (hnames.firstMark os).1)).trans ht
  · exact (step_local hmove (not_function_of_isName _ (hnames.firstMark os').2)).trans ht'
  · exact hsame.alike hbranch hnames.endsType.1 hnames.endsType.2 hends.hole
      (fun hidle => hwaits (waits_arrive halike.waits hidle)) hlike

theorem Alike.walk_localValues {eq : Occurrence}
    (halike : Alike e idle s s' ⟨b, f, o :: (ns ++ eq :: os)⟩
      ⟨b', f', e.move o :: (ns' ++ e.move eq :: os')⟩)
    (ho : o.mark = .word "local".toList) (hhole : o.inHole = false)
    (hnames : e.NameList ns ns' l last) (heq : eq.mark = .sign "=") (heqhole : eq.inHole = false) :
    LeadTo e false reserved s s' ⟨b, f, o :: (ns ++ eq :: os)⟩
      ⟨b', f', e.move o :: (ns' ++ e.move eq :: os')⟩
      (after (some eq.mark) os) (after (some eq.mark) os') := by
  have hmove : (e.move o).mark = .word "local".toList := by rw [e.mark_move, ho]
  have hends : ∀ (eq : Occurrence) (os : List Occurrence), eq.mark = .sign "=" →
      (firstMark (eq :: os)).any (Mark.isSymbolOf goOnSigns) = false := by
    intro eq os heq
    rw [firstMark_cons, heq]
    decide
  obtain ⟨names, hc, hc'⟩ := names_of_nameList hnames (hends eq os heq)
    (hends (e.move eq) os' (by rw [e.mark_move, heq])) (some o.mark) (some (e.move o).mark)
  obtain ⟨t, t', ht, ht', hsame, hbranch⟩ :=
    (halike.arrive rfl).localValues reserved heq heqhole hc hc'
  rw [← e.mark_move o] at ht'
  refine .of_step t t' rfl rfl hhole ?_ ?_ ?_
  · exact (step_local ho (not_function_of_isName _ (hnames.firstMark _).1)).trans ht
  · exact (step_local hmove (not_function_of_isName _ (hnames.firstMark _).2)).trans ht'
  · exact ⟨hsame.prune, nofun, rfl, .inl rfl, fun hin => by rw [hbranch] at hin; cases hin⟩

theorem Alike.walk_loopNames
    (halike : Alike e idle s s' ⟨b, f, o :: (ns ++ os)⟩ ⟨b', f', e.move o :: (ns' ++ os')⟩)
    (ho : o.mark = .word "for".toList) (hhole : o.inHole = false)
    (hnames : e.NameList ns ns' l last) (hends : Ends os)
    (hlike : EndsLike (idleAt idle f o.mark) l last os)
    (h : e.Annotated (idleAt idle f o.mark) (some l) (some l) os os') :
    LeadTo e (idleAt idle f o.mark) reserved s s' ⟨b, f, o :: (ns ++ os)⟩ ⟨b', f', e.move o :: (ns' ++ os')⟩
      (after (some l) os) (after (some last) os') := by
  have hmove : (e.move o).mark = .word "for".toList := by rw [e.mark_move, ho]
  obtain ⟨names, hc, hc'⟩ := names_of_nameList hnames hends.sign
    (h.not_first (by decide) hends.sign) (some o.mark) (some (e.move o).mark)
  obtain ⟨t, t', ht, ht', hsame, hbranch, hwaits⟩ := (halike.arrive rfl).loopNames reserved hc hc'
  rw [← e.mark_move o] at ht'
  refine .of_step t t' rfl rfl hhole ?_ ?_ ?_
  · exact (step_for ho).trans ht
  · exact (step_for hmove).trans ht'
  · exact hsame.alike hbranch hnames.endsType.1 hnames.endsType.2 hends.hole
      (fun hidle => hwaits (waits_arrive halike.waits hidle)) hlike

/-- In the body of a function everything waits. -/
theorem Same.alike_body (hsame : Same e s s') (hbranch : s.inBranch = false) (hwaits : Waits s)
    (hhead : e.FunctionHead head head' last) (hends : Ends os)
    (hlike : EndsLike true (.sign ")") last os) :
    Alike e true s s' (after (some (.sign ")")) os) (after (some last) os') :=
  hsame.alike hbranch (by decide) hhead.endsType hends.hole (fun _ => hwaits) hlike

theorem Alike.walk_function {path : List Occurrence}
    (halike : Alike e idle s s' ⟨b, f, o :: (path ++ head ++ os)⟩
      ⟨b', f', e.move o :: (path.map e.move ++ head' ++ os')⟩)
    (ho : o.mark = .word "function".toList) (hhole : o.inHole = false) (hpath : NamePath path)
    (hhead : e.FunctionHead head head' last) (hends : Ends os)
    (hlike : EndsLike true (.sign ")") last os)
    (h : e.Annotated true (some (.sign ")")) (some (.sign ")")) os os') :
    LeadTo e true reserved s s' ⟨b, f, o :: (path ++ head ++ os)⟩
      ⟨b', f', e.move o :: (path.map e.move ++ head' ++ os')⟩
      (after (some (.sign ")")) os) (after (some last) os') := by
  have hmove : (e.move o).mark = .word "function".toList := by rw [e.mark_move, ho]
  have hplain := any_isSymbolOf_of_subset hends.sign
  have hplain' := any_isSymbolOf_of_subset (h.not_first (by decide) hends.sign)
  obtain ⟨t, t', ht, ht', hsame, hbranch, hwaits⟩ :=
    (halike.arrive rfl).function reserved hpath hhead (hplain _ (by decide)) (hplain' _ (by decide))
      (goesOn_eq_false _ (hplain' _ (by decide))) (some o.mark) (some (e.move o).mark)
  rw [← e.mark_move o] at ht'
  refine .of_step t t' rfl rfl hhole ?_ ?_ ?_
  · exact (step_function ho).trans ht
  · exact (step_function hmove).trans ht'
  · exact hsame.alike_body hbranch (hwaits (waits_openScope s f o.mark)) hhead hends hlike

theorem Alike.walk_localFunction {o' name : Occurrence}
    (halike : Alike e idle s s' ⟨b, f, o :: o' :: name :: (head ++ os)⟩
      ⟨b', f', e.move o :: e.move o' :: e.move name :: (head' ++ os')⟩)
    (ho : o.mark = .word "local".toList) (hhole : o.inHole = false)
    (ho' : o'.mark = .word "function".toList) (hhole' : o'.inHole = false)
    (hname : name.mark.isName = true) (hnamehole : name.inHole = false)
    (hhead : e.FunctionHead head head' last) (hends : Ends os)
    (hlike : EndsLike true (.sign ")") last os)
    (h : e.Annotated true (some (.sign ")")) (some (.sign ")")) os os') :
    LeadTo e true reserved s s' ⟨b, f, o :: o' :: name :: (head ++ os)⟩
      ⟨b', f', e.move o :: e.move o' :: e.move name :: (head' ++ os')⟩
      (after (some (.sign ")")) os) (after (some last) os') := by
  have hmove : (e.move o).mark = .word "local".toList := by rw [e.mark_move, ho]
  have hkeyword : ∀ (g : Option Mark) (o : Occurrence) (rest : List Occurrence),
      o.mark = .word "function".toList →
      ((after g (o :: rest)).peek 0).any (Mark.isWordOf ["function"]) = true := by
    intro g o rest hmark
    show o.mark.isWordOf ["function"] = true
    rw [hmark]
    decide
  have hplain := any_isSymbolOf_of_subset hends.sign
  have hplain' := any_isSymbolOf_of_subset (h.not_first (by decide) hends.sign)
  obtain ⟨t, t', ht, ht', hsame, hbranch, hwaits⟩ :=
    (halike.arrive rfl).localFunction reserved hname hnamehole hhead (hplain _ (by decide))
      (hplain' _ (by decide)) (goesOn_eq_false _ (hplain' _ (by decide))) (some o'.mark)
      (some (e.move o').mark)
  rw [← e.mark_move o] at ht'
  refine .of_step t t' rfl rfl hhole ?_ ?_ ?_
  · rw [step_localFunction ho (hkeyword _ _ _ ho'), advance_after hhole']
    exact ht
  · rw [step_localFunction hmove (hkeyword _ _ _ (by rw [e.mark_move, ho'])),
      advance_after (by rw [e.inHole_move, hhole'])]
    exact ht'
  · exact hsame.alike_body hbranch (hwaits (waits_openScope s f o.mark)) hhead hends hlike

/-- What walks from two places find is what they find from the places behind. -/
theorem LeadTo.finds {c c' d d' : Cursor} (h : LeadTo e idle reserved s s' c c' d d')
    (hfinds : ∀ {t t' : ScopeState}, Alike e idle t t' d d' →
      Finds e (t.walk reserved d) (t'.walk reserved d')) :
    Finds e (s.walk reserved c) (s'.walk reserved c') := by
  obtain ⟨t, t', ht, ht', hnext⟩ := h
  rw [ht, ht']
  exact hfinds hnext

end Alike

/-- A walk with annotations finds what a walk without them finds. -/
theorem finds_walk {b : Option Mark} {os os' : List Occurrence} (h : e.Annotated idle b f os os')
    {b' : Option Mark} (halike : Alike e idle s s' ⟨b, f, os⟩ ⟨b', f', os'⟩) :
    Finds e (s.walk reserved ⟨b, f, os⟩) (s'.walk reserved ⟨b', f', os'⟩) := by
  induction h generalizing s s' b' f' with
  | nil =>
    obtain ⟨sites, hs, hsites⟩ := halike.state
    have hdeclared : s'.prune.declared = s.prune.declared := by rw [hs]
    have hfound : s'.prune.sites = sites := by rw [hs]
    rw [walk_nil rfl, walk_nil rfl]
    refine ⟨hdeclared, ?_⟩
    rw [← hfound] at hsites
    exact hsites
  | @hole idle b f o os os' hhole _ ih =>
    obtain ⟨hframe, hstate, hbranch, hwaits⟩ := halike.atHole hhole
    have hleft : s.walk reserved ⟨b, f, o :: os⟩ = _ := walk_of_hole rfl hhole
    have hright : s'.walk reserved ⟨b', f', e.move o :: os'⟩ = _ :=
      walk_of_hole rfl (by rw [e.inHole_move, hhole])
    rw [hleft, hright]
    refine ih ⟨hstate, hwaits, by rw [e.mark_move], .inl hframe, fun hin => halike.branch ?_⟩
    rw [← hbranch, hin]
  | @holeType idle b f o sign last ns os os' hhole hfield htype _ ih =>
    obtain ⟨hframe, hstate, hbranch, hwaits⟩ := halike.atHole hhole
    obtain ⟨t, ht, hsame⟩ := walk_inserted htype.place htype.new hstate reserved
      (some (e.move o).mark) os'
    have hleft : s.walk reserved ⟨b, f, o :: os⟩ = _ := walk_of_hole rfl hhole
    have hright : s'.walk reserved ⟨b', f', e.move o :: (ns ++ os')⟩ = _ :=
      walk_of_hole rfl (by rw [e.inHole_move, hhole])
    rw [hleft, hright, ht, htype.lastMark_eq]
    refine ih ⟨hsame, hwaits, ?_, .inl hframe, fun hin => halike.branch ?_⟩
    · simp [hfield, (of_endsType htype.endsType).1]
    · rw [← hbranch, hin]
  | @cast idle b l last ns os os' hb hl htype hhole hgo hassigned hlike h ih =>
    have hgo' : goesOn (some last) (firstMark os') = false := by
      rcases h.firstMark_eq with hfirst | ⟨hfirst, -⟩
      · rw [hfirst, hgo]
      · rw [hfirst]
        exact goesOn_eq_false _ (by decide)
    have hin : s.inBranch = false := by
      refine Bool.eq_false_iff.2 fun hin => ?_
      cases hl.symm.trans (halike.branch hin)
    have hleave : ({ s'.prune with inBranch := false }) = s'.prune := by
      have hin' : s'.prune.inBranch = false := halike.state.inBranch_eq.trans hin
      rw [← hin']
    have hagree := agree_of_endsLike hlike halike.waits (not_key_of_endsOperand hl) htype.endsType
    rw [walk_cast htype hgo', hleave]
    refine ih ⟨?_, halike.waits, ?_, .inr fun o ho => ⟨hhole o ho, hagree o ho⟩, halike.branch⟩
    · rw [prune_prune]
      exact halike.state
    · simp [hb, (of_endsType htype.endsType).1]
  | @plain idle b f o os os' hhole hword hsymbol h ih =>
    obtain ⟨t, t', ht, ht', hsame, hbranch⟩ := halike.step_plain reserved rfl rfl
      hword hsymbol h.first_assigns (after (some o.mark) os) (after (some o.mark) os')
    rw [← e.mark_move o] at ht'
    rw [walk_of_step rfl hhole ht, walk_of_step rfl (by rw [e.inHole_move, hhole]) ht']
    rw [e.mark_move]
    refine ih ⟨hsame.prune, fun hidle => ?_, rfl, .inl rfl, fun hin => by simp [hbranch hin]⟩
    have hwaits := @waits_step_plain s idle reserved ⟨b, f, o :: os⟩ (after (some o.mark) os) o
      halike.waits hword hsymbol hidle
    rw [ht] at hwaits
    rw [hwaits.prune_eq]
    exact hwaits
  | localNames ho hhole hnames hends hassigns hlike h ih =>
    exact (halike.walk_localNames ho hhole hnames hends hassigns hlike h).finds ih
  | localValues ho hhole hnames heq heqhole h ih =>
    exact (halike.walk_localValues ho hhole hnames heq heqhole).finds ih
  | loopNames ho hhole hnames hends hlike h ih =>
    exact (halike.walk_loopNames ho hhole hnames hends hlike h).finds ih
  | function ho hhole hpath hhead hends hlike h ih =>
    exact (halike.walk_function ho hhole hpath hhead hends hlike h).finds ih
  | localFunction ho hhole ho' hhole' hname hnamehole hhead hends hlike h ih =>
    exact (halike.walk_localFunction ho hhole ho' hhole' hname hnamehole hhead hends hlike h).finds ih

end ScopeState

/-! ## Transparency -/

/--
Annotations are transparent: with them a script declares the same names in the same order, and the
sites among the occurrences that it has without them are the same.
-/
theorem annotations_transparent (reserved : Reserved) {e : Insertion} {os os' : List Occurrence}
    (h : e.Annotated true none none os os') :
    (resolve reserved os').declared = (resolve reserved os).declared ∧
      (resolve reserved os').sites.filter (fun o => !e.isNew o) =
        (resolve reserved os).sites.map e.move := by
  have hstart : ScopeState.Alike e true .initial .initial (.start os) (.start os') :=
    ⟨⟨[], rfl, rfl⟩, fun _ => nofun, rfl, .inl rfl, nofun⟩
  have hfinds : ScopeState.Finds e (ScopeState.initial.walk reserved (.start os))
      (ScopeState.initial.walk reserved (.start os')) := ScopeState.finds_walk h hstart
  obtain ⟨hdeclared, hsites⟩ := hfinds
  refine ⟨congrArg List.reverse hdeclared, ?_⟩
  show List.filter _ (List.reverse _) = List.map _ (List.reverse _)
  rw [List.filter_reverse, hsites, List.map_reverse]

/-- A text of `length` bytes, inserted at byte `start` of a script that is one span. -/
def Insertion.gap (start length : Nat) : Insertion where
  move o := if o.offset < start then o else { o with offset := o.offset + length }
  isNew o := decide (start ≤ o.offset ∧ o.offset < start + length)
  mark_move o := by split <;> rfl
  inHole_move o := by split <;> rfl
  isNew_move o := by
    rw [decide_eq_false_iff_not]
    split
    · omega
    · dsimp only
      omega

/-- The type that a function returns is passed over, and `return` is in its body. -/
theorem return_type_ignored :
    let e := Insertion.gap 19 11
    let os := occurrences [⟨.code, "local function f(a) return a end".toList, 0, 32⟩]
    let os' := occurrences
      [⟨.code, "local function f(a): \x7b[T]: N?\x7d return a end".toList, 0, 43⟩]
    e.Annotated true none none os os' ∧
      (resolve .default os').declared = (resolve .default os).declared ∧
      (resolve .default os').sites.filter (fun o => !e.isNew o) =
        (resolve .default os).sites.map e.move := by
  intro e os os'
  let at' (offset : Nat) (m : Mark) : Occurrence := ⟨m, 0, offset, false⟩
  let ns : List Occurrence := [at' 19 (.sign ":"), at' 21 (.sign "\x7b"), at' 22 (.sign "["),
    at' 23 (.word "T".toList), at' 24 (.sign "]"), at' 25 (.sign ":"), at' 27 (.word "N".toList),
    at' 28 (.sign "?"), at' 29 (.sign "\x7d")]
  have htype : e.Typing ":" false ns (.sign "\x7d") :=
    { exists_type := ⟨_, .table (.last (.keyed (.word "T" (by decide))
        (.optional (.word "N" (by decide))))), by decide, by decide⟩
      new := by decide
      place := by decide }
  have hhead : e.FunctionHead [at' 16 (.sign "("), at' 17 (.word "a".toList), at' 18 (.sign ")")]
      (e.move (at' 16 (.sign "(")) :: e.move (at' 17 (.word "a".toList)) ::
        e.move (at' 18 (.sign ")")) :: ns) (.sign "\x7d") :=
    @Insertion.FunctionHead.mk e [] _ _ _ _ _ .none rfl rfl
      (.parameter (.inl (by decide)) rfl .none (.close rfl rfl)) (.type htype)
  have hbody : e.Annotated true (some (.sign ")")) (some (.sign ")"))
      [at' 20 (.word "return".toList), at' 27 (.word "a".toList), at' 29 (.word "end".toList)]
      [at' 31 (.word "return".toList), at' 38 (.word "a".toList), at' 40 (.word "end".toList)] :=
    .plain rfl (by decide) (by decide) (.plain rfl (by decide) (by decide)
      (.plain rfl (by decide) (by decide) .nil))
  have hos : os = at' 0 (.word "local".toList) :: at' 6 (.word "function".toList) ::
      at' 15 (.word "f".toList) :: ([at' 16 (.sign "("), at' 17 (.word "a".toList),
        at' 18 (.sign ")")] ++ [at' 20 (.word "return".toList), at' 27 (.word "a".toList),
        at' 29 (.word "end".toList)]) := by
    decide +kernel
  have hos' : os' = e.move (at' 0 (.word "local".toList)) ::
      e.move (at' 6 (.word "function".toList)) :: e.move (at' 15 (.word "f".toList)) ::
      ((e.move (at' 16 (.sign "(")) :: e.move (at' 17 (.word "a".toList)) ::
        e.move (at' 18 (.sign ")")) :: ns) ++ [at' 31 (.word "return".toList),
        at' 38 (.word "a".toList), at' 40 (.word "end".toList)]) := by
    decide +kernel
  have h : e.Annotated true none none os os' := by
    rw [hos, hos']
    exact .localFunction rfl rfl rfl rfl (by decide) rfl hhead ⟨by decide, by decide⟩
      ⟨.inl rfl, by decide⟩ hbody
  exact ⟨h, annotations_transparent .default h⟩

/--
An optional type in front of `if` is not transparent: behind the question mark the `if` is taken for
an expression, and the local variable of its branch is found after its end.
-/
theorem optional_type_hides_if :
    let e := Insertion.gap 7 9
    let os := occurrences
      [⟨.code, "local x\nif a then local y = 1 end\nprint(y)".toList, 0, 42⟩]
    let os' := occurrences
      [⟨.code, "local x: number?\nif a then local y = 1 end\nprint(y)".toList, 0, 51⟩]
    (∃ ns, e.Typing ":" false ns (.sign "?") ∧
      os' = (os.take 2).map e.move ++ ns ++ (os.drop 2).map e.move) ∧
      (resolve .default os').sites.filter (fun o => !e.isNew o) ≠
        (resolve .default os).sites.map e.move := by
  intro e os os'
  let ns : List Occurrence := [⟨.sign ":", 0, 7, false⟩, ⟨.word "number".toList, 0, 9, false⟩,
    ⟨.sign "?", 0, 15, false⟩]
  have htype : e.Typing ":" false ns (.sign "?") :=
    { exists_type := ⟨_, .optional (.word "number" (by decide)), by decide, by decide⟩
      new := by decide
      place := by decide }
  exact ⟨⟨ns, htype, by decide +kernel⟩, by decide +kernel⟩

end LuaVeil
