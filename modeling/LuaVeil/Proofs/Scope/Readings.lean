/-
# How names are read

At a name that no phrase declares a walk stops and takes it for the key of a field,
for the name of a field or method, or for a variable. It is a site only if it is
taken for a variable that is visible.

What a name is taken for depends on the marks around it and on the open brackets
alone. Main statements:

* `outcomes_visits`, two states with the same open brackets read names alike;
* `readings_name`, `readings_passed`, `readings_open`, `readings_lambda` and their
  like, what is read in each kind of phrase;
* `site_of_visit`, a variable that is visible where it is read is a site.
-/
import LuaVeil.Proofs.Scope.Steps

namespace LuaVeil

/-- What a name is taken for. -/
inductive Reading where
  /-- the key of a field of a table -/
  | key
  /-- the name of a field or method -/
  | field
  | variable
  deriving DecidableEq

/-- A name at which a walk stops. -/
structure Visit where
  occurrence : Occurrence
  reading : Reading
  /-- whether the name is visible at this place -/
  isVisible : Bool
  deriving DecidableEq

/-- The name of a visit and what it is taken for. -/
def Visit.outcome (v : Visit) : Occurrence × Reading :=
  (v.occurrence, v.reading)

namespace ScopeState

/-- What the name ahead of `c` is taken for. -/
def read (s : ScopeState) (c : Cursor) : Reading :=
  if s.isConstructorKey c then .key
  else if c.before.any leadsToField then .field
  else .variable

/-- The visit of the name `o` ahead of `c`. -/
def visit (s : ScopeState) (c : Cursor) (o : Occurrence) : Visit :=
  ⟨o, s.read c, s.isVisible o.mark.text⟩

/-- The names outside of holes at which a walk stops, in the order of the script. -/
def visits (reserved : Reserved) (s : ScopeState) (c : Cursor) : List Visit :=
  match _ : c.ahead with
  | [] => []
  | o :: ahead =>
    let next := c.past o ahead
    if o.inHole then visits reserved (s.atHole c o) next
    else
      let after := s.step reserved c o next
      if o.mark.isName then
        (s.arrive c.frame o.mark).visit c o :: visits reserved after.1 after.2
      else visits reserved after.1 after.2
termination_by c.ahead.length
decreasing_by
  · simp_all [Cursor.past]
  all_goals
    have h := length_step_le reserved s c o (c.past o ahead)
    have h' : (c.past o ahead).ahead.length < c.ahead.length := by simp_all [Cursor.past]
    omega

/-! ## Open brackets -/

section Brackets

variable {reserved : Reserved} {s s' : ScopeState} {f : Option Mark} {m : Mark} {c next : Cursor}
  {o : Occurrence}

theorem brackets_closeScope (s : ScopeState) : s.closeScope.brackets = s.brackets := by
  unfold closeScope
  split <;> rfl

theorem brackets_settle (s : ScopeState) (f : Option Mark) (m : Mark) :
    (s.settle f m).brackets = s.brackets := by
  have hpending : ∀ (ps : List Pending) (s : ScopeState),
      (settlePending f m ps s).brackets = s.brackets := by
    intro ps
    induction ps with
    | nil => exact fun _ => rfl
    | cons p ps ih =>
      intro s
      rw [settlePending]
      split
      · exact ih s
      split
      · rw [ih]
        cases p.action with
        | bind names => rfl
        | close => exact brackets_closeScope s
      · rfl
  exact hpending s.pending s

theorem brackets_use (s : ScopeState) (o : Occurrence) : (s.use o).brackets = s.brackets := by
  unfold use
  split <;> rfl

theorem brackets_declareAll (reserved : Reserved) (s : ScopeState) (names : List Occurrence) :
    (s.declareAll reserved names).1.brackets = s.brackets := by
  have hfold : ∀ (os : List Occurrence) (s : ScopeState),
      (os.foldl declare s).brackets = s.brackets := by
    intro os
    induction os with
    | nil => exact fun _ => rfl
    | cons o os ih => exact fun s => ih (s.declare o)
  exact hfold _ s

theorem brackets_enterFunction (s : ScopeState) (c : Cursor) :
    (s.enterFunction reserved c).1.brackets = s.brackets :=
  brackets_declareAll reserved s.openScope _

theorem brackets_keyword (s : ScopeState) (word : Text) (branch : Bool) (before : Option Mark) :
    (s.keyword word branch before).brackets = s.brackets := by
  unfold keyword
  split
  · unfold enterDo
    dsimp only
    split
    · split <;> rfl
    · rfl
  · unfold enterIf
    split <;> rfl
  · split <;> rfl
  · split
    · rfl
    · exact brackets_closeScope s
  · split
    · rfl
    · exact brackets_closeScope s
  · rfl
  · rfl
  · exact brackets_closeScope s
  · rfl

/-- A keyword leaves the brackets alone, and where it leads to does not depend on the state. -/
theorem atKeyword_spec (s s' : ScopeState) (word : Text) (branch branch' : Bool)
    (before : Option Mark) (next : Cursor) :
    (s.atKeyword reserved word branch before next).1.brackets = s.brackets ∧
      (s.atKeyword reserved word branch before next).2 =
        (s'.atKeyword reserved word branch' before next).2 := by
  unfold atKeyword
  split
  · split
    · unfold localFunction
      cases next.advance.name? with
      | none => exact ⟨brackets_enterFunction s _, rfl⟩
      | some out =>
        refine ⟨?_, rfl⟩
        rw [brackets_enterFunction]
        exact brackets_declareAll reserved s _
    · unfold localNames
      dsimp only
      split <;> exact ⟨brackets_declareAll reserved s _, rfl⟩
  split
  · exact ⟨brackets_declareAll reserved s _, rfl⟩
  split
  · unfold function
    cases next.name? with
    | none => exact ⟨brackets_enterFunction s _, rfl⟩
    | some out =>
      refine ⟨?_, rfl⟩
      rw [brackets_enterFunction]
      exact brackets_use s _
  · exact ⟨brackets_keyword s word branch before, rfl⟩

/-- States with the same open brackets have the same ones after a step, and at the same place. -/
theorem step_congr (h : s.brackets = s'.brackets) (reserved : Reserved) (c : Cursor)
    (o : Occurrence) (next : Cursor) :
    (s.step reserved c o next).1.brackets = (s'.step reserved c o next).1.brackets ∧
      (s.step reserved c o next).2 = (s'.step reserved c o next).2 := by
  have hsettle : (s.settle c.frame o.mark).brackets = (s'.settle c.frame o.mark).brackets := by
    rw [brackets_settle, brackets_settle, h]
  unfold step
  dsimp only
  split
  · split
    · have hname : ∀ s : ScopeState, (s.atName c o).brackets = s.brackets := by
        intro s
        unfold atName
        split
        · rfl
        · exact brackets_use s o
      exact ⟨by rw [hname, hname]; exact hsettle, rfl⟩
    · refine ⟨?_, (atKeyword_spec _ _ _ _ _ _ _).2⟩
      rw [(atKeyword_spec _ initial _ _ false _ _).1, (atKeyword_spec _ initial _ _ false _ _).1]
      exact hsettle
  · unfold atSymbol
    dsimp only
    rw [hsettle]
    split
    · exact ⟨rfl, rfl⟩
    split
    · exact ⟨rfl, rfl⟩
    split <;> exact ⟨rfl, rfl⟩
  · exact ⟨hsettle, rfl⟩
  · exact ⟨hsettle, rfl⟩

end Brackets

/-! ## Visits -/

section Visits

variable {reserved : Reserved} {s s' : ScopeState} {c : Cursor} {o : Occurrence}

theorem visits_nil (hc : c.ahead = []) : s.visits reserved c = [] := by
  rw [visits]
  split
  · rfl
  · next h => simp [hc] at h

theorem visits_cons {ahead : List Occurrence} (hc : c.ahead = o :: ahead) :
    s.visits reserved c =
      if o.inHole then (s.atHole c o).visits reserved (c.past o ahead)
      else
        let after := s.step reserved c o (c.past o ahead)
        if o.mark.isName then
          (s.arrive c.frame o.mark).visit c o :: after.1.visits reserved after.2
        else after.1.visits reserved after.2 := by
  rw [visits]
  split
  · next h => simp [hc] at h
  · next o' ahead' h =>
    obtain ⟨rfl, rfl⟩ := List.cons.inj (hc.symm.trans h)
    rfl

/-- What a name is taken for depends on the open brackets and the marks around it. -/
theorem read_congr (h : s.brackets = s'.brackets) (c : Cursor) : s.read c = s'.read c := by
  rw [read, read, isConstructorKey, isConstructorKey, h]

/-- States with the same open brackets read names alike. -/
theorem outcomes_congr (h : s.brackets = s'.brackets) (c : Cursor) :
    (s.visits reserved c).map Visit.outcome = (s'.visits reserved c).map Visit.outcome := by
  fun_induction visits reserved s c generalizing s' with
  | case1 s c hc => rw [visits_nil hc]
  | case2 s c o ahead hc next hhole =>
    rename_i ih
    rw [visits_cons hc, if_pos hhole]
    have hhole : ∀ s : ScopeState, (s.atHole c o).brackets = s.brackets := by
      intro s
      unfold atHole
      split
      · exact brackets_use s o
      · rfl
    exact ih (by rw [hhole, hhole, h])
  | case3 s c o ahead hc next hhole after hname =>
    rename_i ih
    obtain ⟨hbrackets, hcursor⟩ := step_congr h reserved c o next
    have hread : (s.arrive c.frame o.mark).read c = (s'.arrive c.frame o.mark).read c := by
      refine read_congr ?_ c
      rw [arrive, arrive]
      simpa [brackets_settle] using h
    rw [visits_cons hc, if_neg hhole, if_pos hname, ← hcursor, List.map_cons, List.map_cons,
      ih hbrackets]
    exact congrArg (· :: _) (congrArg (Prod.mk o) hread)
  | case4 s c o ahead hc next hhole after hname =>
    rename_i ih
    obtain ⟨hbrackets, hcursor⟩ := step_congr h reserved c o next
    rw [visits_cons hc, if_neg hhole, if_neg hname, ← hcursor]
    exact ih hbrackets

/-- What is noted stays noted. -/
theorem mem_sites_walk (h : o ∈ s.sites) (reserved : Reserved) (c : Cursor) :
    o ∈ (s.walk reserved c).sites := by
  have hover : Over s.sites { s with declared := [], sites := [] } s := ⟨s.declared, rfl⟩
  obtain ⟨declared, hwalk⟩ := hover.walk reserved c
  rw [hwalk]
  exact List.mem_append_right _ h

/-- A variable that is visible where it is read is a site. -/
theorem site_of_visit {v : Visit} (hv : v ∈ s.visits reserved c) (hreading : v.reading = .variable)
    (hvisible : v.isVisible = true) : v.occurrence ∈ (s.walk reserved c).sites := by
  fun_induction visits reserved s c with
  | case1 s c hc => cases hv
  | case2 s c o ahead hc next hhole =>
    rename_i ih
    rw [walk_cons hc, if_pos hhole]
    exact ih hv
  | case3 s c o ahead hc next hhole after hname =>
    rename_i ih
    rw [walk_cons hc, if_neg hhole]
    rcases List.mem_cons.1 hv with rfl | hv
    · refine mem_sites_walk ?_ reserved _
      have hnotKey : (s.arrive c.frame o.mark).isConstructorKey c = false := by
        rw [← Bool.not_eq_true]
        intro hkey
        simp [visit, read, hkey] at hreading
      have hnotField : c.before.any leadsToField = false := by
        rw [← Bool.not_eq_true]
        intro hfield
        simp [visit, read, hnotKey, hfield] at hreading
      have hseen : (s.arrive c.frame o.mark).isVisible o.mark.text = true := hvisible
      rw [step_of_name hname, atName, hnotKey, hnotField, Bool.or_self, if_neg (by decide), use,
        if_pos hseen]
      exact List.mem_cons_self
    · exact ih hv
  | case4 s c o ahead hc next hhole after hname =>
    rename_i ih
    rw [walk_cons hc, if_neg hhole]
    exact ih hv

end Visits

/-! ## Readings -/

/-- A state of which only the open brackets are known. -/
def bare (brackets : List Text) : ScopeState :=
  { initial with brackets }

/-- The names that are read from a place on, and what they are taken for. -/
def readings (reserved : Reserved) (brackets : List Text) (f : Option Mark)
    (os : List Occurrence) : List (Occurrence × Reading) :=
  ((bare brackets).visits reserved (.after f os)).map Visit.outcome

/-- States with the same open brackets read names alike. -/
theorem outcomes_visits (reserved : Reserved) (s : ScopeState) (f : Option Mark)
    (os : List Occurrence) :
    (s.visits reserved (.after f os)).map Visit.outcome = readings reserved s.brackets f os :=
  @outcomes_congr reserved s (bare s.brackets) rfl _

variable {reserved : Reserved} {brackets : List Text} {f : Option Mark} {o : Occurrence}
  {os rest : List Occurrence}

@[simp] theorem readings_nil : readings reserved brackets f [] = [] := by
  rw [readings, visits_nil rfl]
  rfl

/-- The first occurrence behind a mark is visited if it is a name. -/
theorem visits_after (hhole : o.inHole = false) (s : ScopeState) (f : Option Mark)
    (os : List Occurrence) :
    s.visits reserved (.after f (o :: os)) =
      let after := s.step reserved (.after f (o :: os)) o (.after (some o.mark) os)
      if o.mark.isName then
        (s.arrive f o.mark).visit (.after f (o :: os)) o :: after.1.visits reserved after.2
      else after.1.visits reserved after.2 := by
  have hahead : (Cursor.after f (o :: os)).ahead = o :: os := rfl
  rw [visits_cons hahead, if_neg (by simp [hhole]), Cursor.past_of_plain hhole]
  rfl

/-- Nothing is read in a step that is not at a name. -/
theorem readings_step (s' : ScopeState) {f' : Option Mark} (hhole : o.inHole = false)
    (hname : o.mark.isName = false)
    (hstep : (bare brackets).step reserved (.after f (o :: os)) o (.after (some o.mark) os) =
      (s', .after f' rest)) :
    readings reserved brackets f (o :: os) = readings reserved s'.brackets f' rest := by
  rw [readings, visits_after hhole, hstep]
  dsimp only
  rw [if_neg (by simp [hname])]
  exact outcomes_visits reserved s' f' rest

/-- A keyword leaves the brackets alone, so that only the place behind its phrase matters. -/
theorem readings_keyword {w : Text} {f' : Option Mark} (hhole : o.inHole = false)
    (hmark : o.mark = .word w) (hw : isKeyword w = true)
    (hnext : ((bare brackets).atKeyword reserved w false f (.after (some o.mark) os)).2 =
      .after f' rest) :
    readings reserved brackets f (o :: os) = readings reserved brackets f' rest := by
  have hname : o.mark.isName = false := by rw [hmark, Mark.isName, hw]; rfl
  have hbrackets : ((bare brackets).atKeyword reserved w false f
      (.after (some o.mark) os)).1.brackets = brackets :=
    (atKeyword_spec (bare brackets) initial w false false f _).1
  rw [readings_step _ hhole hname ((step_keyword hmark hw rfl rfl _).trans (Prod.ext rfl hnext)),
    hbrackets]

/-- A name is read by the marks around it. -/
theorem readings_name (hhole : o.inHole = false) (hname : o.mark.isName = true) :
    readings reserved brackets f (o :: os) =
      (o, (bare brackets).read (.after f (o :: os))) ::
        readings reserved brackets (some o.mark) os := by
  have hbrackets : ((bare brackets).atName (.after f (o :: os)) o).brackets = brackets := by
    unfold atName
    split
    · rfl
    · exact brackets_use _ o
  rw [readings, visits_after hhole, step_name hname rfl rfl]
  dsimp only
  rw [if_pos hname, List.map_cons, outcomes_visits, hbrackets]
  rfl

/-! ## Phrases -/

/-- Whether a walk goes past a mark, which is no name, to the next one and leaves brackets alone. -/
def passesOver : Mark → Bool
  | m@(.word w) => isKeyword w && !m.isWordOf ["local", "for", "function"]
  | m@(.symbol _) => !m.isSymbolOf ["(", "[", "\x7b", ")", "]", "\x7d", "::"]
  | .number => true
  | .string => true

theorem readings_passed {t : Terminal} (hhole : o.inHole = false) (hmark : o.mark = t.mark)
    (ht : passesOver t.mark = true) :
    readings reserved brackets f (o :: os) = readings reserved brackets (some o.mark) os := by
  rw [← hmark] at ht
  cases hmark : o.mark with
  | word w =>
    rw [hmark, passesOver, Bool.and_eq_true, Bool.not_eq_true'] at ht
    obtain ⟨hkeyword, hother⟩ := ht
    simp only [Mark.isWordOf, List.any_cons, List.any_nil, Bool.or_false, Bool.or_eq_false_iff,
      beq_eq_false_iff_ne] at hother
    obtain ⟨hlocal, hfor, hfunction⟩ := hother
    rw [← hmark]
    refine readings_keyword hhole hmark hkeyword ?_
    rw [atKeyword, if_neg (Ne.symm hlocal), if_neg (Ne.symm hfor), if_neg (Ne.symm hfunction)]
  | symbol b =>
    have hname : o.mark.isName = false := by rw [hmark]; rfl
    rw [hmark] at ht
    have hother : (some (Mark.symbol b)).any
        (Mark.isSymbolOf ["(", "[", "\x7b", ")", "]", "\x7d", "::"]) = false := by
      simpa [passesOver] using ht
    have hopen :=
      any_isSymbolOf_of_subset hother Cursor.openBrackets (by simp [Cursor.openBrackets])
    have hclose :=
      any_isSymbolOf_of_subset hother Cursor.closeBrackets (by simp [Cursor.closeBrackets])
    have htype := any_isSymbolOf_of_subset hother ["::"] (by simp)
    rw [Option.any_some] at hopen hclose htype
    rw [← hmark]
    refine readings_step (bare brackets) hhole hname ?_
    rw [step_symbol hmark rfl rfl]
    simp [atSymbol, hopen, hclose, htype]
  | number =>
    rw [← hmark]
    exact readings_step _ hhole (by rw [hmark]; rfl) (step_literal (.inl hmark) rfl rfl _)
  | string =>
    rw [← hmark]
    exact readings_step _ hhole (by rw [hmark]; rfl) (step_literal (.inr hmark) rfl rfl _)

theorem readings_open {b : Text} (hhole : o.inHole = false) (hmark : o.mark = .symbol b)
    (hb : Mark.isSymbolOf Cursor.openBrackets (.symbol b) = true) :
    readings reserved brackets f (o :: os) =
      readings reserved (b :: brackets) (some o.mark) os := by
  refine readings_step (bare (b :: brackets)) hhole (by rw [hmark]; rfl) ?_
  rw [step_symbol hmark rfl rfl, atSymbol]
  simp only [hb, if_true]
  rfl

theorem readings_close {b b' : Text} (hhole : o.inHole = false) (hmark : o.mark = .symbol b)
    (hb : Mark.isSymbolOf Cursor.openBrackets (.symbol b) = false)
    (hb' : Mark.isSymbolOf Cursor.closeBrackets (.symbol b) = true) :
    readings reserved (b' :: brackets) f (o :: os) =
      readings reserved brackets (some o.mark) os := by
  refine readings_step (bare brackets) hhole (by rw [hmark]; rfl) ?_
  rw [step_symbol hmark rfl rfl, atSymbol]
  simp only [hb, hb', Bool.false_eq_true, if_false, if_true]
  rfl

/-- The parameters of a function are not read. -/
theorem readings_lambda {ps : Parameters} (hhole : o.inHole = false)
    (hmark : o.mark = (Terminal.keyword "function").mark) (hos : Spells os ps.terminals)
    (hrest : (firstMark rest).any (Mark.isSymbolOf [":"]) = false) :
    readings reserved brackets f (o :: (os ++ rest)) =
      readings reserved brackets (some (Terminal.sign ")").mark) rest := by
  have hname : (Cursor.after (some o.mark) (os ++ rest)).name? = none := by
    obtain ⟨o', os, rfl, hmark', -⟩ := spells_cons.1 hos
    simp [Cursor.name?, Cursor.after, hmark', Terminal.sign, Terminal.mark, Mark.isName]
  refine readings_keyword hhole hmark (by decide) ?_
  show ((bare brackets).function reserved _).2 = _
  rw [function, hname]
  show (Cursor.parameters _).2 = _
  rw [Cursor.parameters_of_spells hos hrest]

/-- The name of a function is not read, nor are its parameters. -/
theorem readings_function {fn : FunctionName} {ps : Parameters} {root : Occurrence}
    {os₁ os₂ : List Occurrence} (hhole : o.inHole = false)
    (hmark : o.mark = (Terminal.keyword "function").mark) (hroothole : root.inHole = false)
    (hroot : root.mark = fn.root.terminal.mark) (hos₁ : Spells os₁ fn.terminals.tail)
    (hos₂ : Spells os₂ ps.terminals)
    (hrest : (firstMark rest).any (Mark.isSymbolOf [":"]) = false) :
    readings reserved brackets f (o :: root :: (os₁ ++ (os₂ ++ rest))) =
      readings reserved brackets (some (Terminal.sign ")").mark) rest := by
  have hname : root.mark.isName = true := by rw [hroot, isName_terminal]
  have hskip : (firstMark (os₂ ++ rest)).any (Mark.isSymbolOf [".", ":"]) = false := by
    rw [firstMark_parameters hos₂]
    decide
  obtain ⟨f', hskip⟩ := Cursor.skipFields_of_spells hos₁ hskip (some root.mark)
  refine readings_keyword hhole hmark (by decide) ?_
  show ((bare brackets).function reserved _).2 = _
  rw [function, Cursor.name?_after hroothole hname]
  show (Cursor.parameters (Cursor.skipFields _)).2 = _
  rw [hskip, Cursor.parameters_of_spells hos₂ hrest]

theorem readings_localFunction {n : Identifier} {ps : Parameters} {o' name : Occurrence}
    (hhole : o.inHole = false) (hmark : o.mark = (Terminal.keyword "local").mark)
    (hhole' : o'.inHole = false) (hmark' : o'.mark = (Terminal.keyword "function").mark)
    (hnamehole : name.inHole = false) (hname : name.mark = n.terminal.mark)
    (hos : Spells os ps.terminals)
    (hrest : (firstMark rest).any (Mark.isSymbolOf [":"]) = false) :
    readings reserved brackets f (o :: o' :: name :: (os ++ rest)) =
      readings reserved brackets (some (Terminal.sign ")").mark) rest := by
  have hisName : name.mark.isName = true := by rw [hname, isName_terminal]
  have hfunction : ((Cursor.after (some o.mark) (o' :: name :: (os ++ rest))).peek 0).any
      (Mark.isWordOf ["function"]) = true := by
    show o'.mark.isWordOf ["function"] = true
    rw [hmark']
    decide
  refine readings_keyword hhole hmark (by decide) ?_
  rw [atKeyword, if_pos rfl, if_pos hfunction, Cursor.advance_after hhole', localFunction,
    Cursor.name?_after hnamehole hisName]
  show (Cursor.parameters _).2 = _
  rw [Cursor.parameters_of_spells hos hrest]

/-- Behind `local` and in front of names the names are taken. -/
theorem atKeyword_local_names {n : Identifier} {ns : List Identifier}
    (hos : Spells os (commaNames n ns)) (s : ScopeState) (m : Mark) :
    s.atKeyword reserved "local".toList false f (.after (some m) (os ++ rest)) =
      s.localNames reserved (.after (some m) (os ++ rest)) := by
  obtain ⟨name, os, rfl, hname, -⟩ := spells_cons.1 hos
  have hfirst : (firstMark (name :: os ++ rest)).any Mark.isName = true := by
    rw [List.cons_append, firstMark_cons, Option.any_some, hname, isName_terminal]
  rw [atKeyword, if_pos rfl, Cursor.not_function_of_isName _ hfirst, if_neg (by decide)]

theorem readings_localNames (reserved : Reserved) (brackets : List Text) (f : Option Mark)
    {n : Identifier} {ns : List Identifier} (hhole : o.inHole = false)
    (hmark : o.mark = (Terminal.keyword "local").mark) (hos : Spells os (commaNames n ns))
    (hrest : (firstMark rest).any (Mark.isSymbolOf ["<", ":", ",", "="]) = false) :
    ∃ m, m.isName = true ∧ readings reserved brackets f (o :: (os ++ rest)) =
      readings reserved brackets (some m) rest := by
  obtain ⟨m, hm, hnames⟩ := Cursor.names_of_spells hos
    (any_isSymbolOf_of_subset hrest _ (by simp)) (some o.mark)
  have hvalues := any_isSymbolOf_of_subset hrest ["="] (by simp)
  refine ⟨m, hm, readings_keyword hhole hmark (by decide) ?_⟩
  rw [atKeyword_local_names hos]
  simp [localNames, hnames, Cursor.sees_after, hvalues]

theorem readings_localValues {n : Identifier} {ns : List Identifier} {eq : Occurrence}
    (hhole : o.inHole = false) (hmark : o.mark = (Terminal.keyword "local").mark)
    (hos : Spells os (commaNames n ns)) (heqhole : eq.inHole = false)
    (heq : eq.mark = (Terminal.sign "=").mark) :
    readings reserved brackets f (o :: (os ++ eq :: rest)) =
      readings reserved brackets (some eq.mark) rest := by
  have hends : Cursor.endsNames (firstMark (eq :: rest)) := by
    rw [firstMark_cons, heq]
    show Option.any _ _ = false
    decide
  obtain ⟨m, -, hnames⟩ := Cursor.names_of_spells hos hends (some o.mark)
  have hvalues : (firstMark (eq :: rest)).any (Mark.isSymbolOf ["="]) = true := by
    rw [firstMark_cons, heq]
    decide
  refine readings_keyword hhole hmark (by decide) ?_
  rw [atKeyword_local_names hos]
  simp only [localNames, hnames, Cursor.sees_after, hvalues, Cursor.advance_after heqhole, if_true]

theorem readings_loop (reserved : Reserved) (brackets : List Text) (f : Option Mark)
    {n : Identifier} {ns : List Identifier} (hhole : o.inHole = false)
    (hmark : o.mark = (Terminal.keyword "for").mark) (hos : Spells os (commaNames n ns))
    (hrest : (firstMark rest).any (Mark.isSymbolOf ["<", ":", ","]) = false) :
    ∃ m, m.isName = true ∧ readings reserved brackets f (o :: (os ++ rest)) =
      readings reserved brackets (some m) rest := by
  obtain ⟨m, hm, hnames⟩ := Cursor.names_of_spells hos hrest (some o.mark)
  refine ⟨m, hm, readings_keyword hhole hmark (by decide) ?_⟩
  show ((bare brackets).loopNames reserved _).2 = _
  rw [loopNames, hnames]

end ScopeState
end LuaVeil
