/-
# Phrases of the grammar

The occurrences of a script spell its terminals. Of the phrases that a cursor
moves over, the grammar of Lua 5.1 has lists of names, names of functions and
parameters, and the cursor ends right behind them.

Main statements: `names_of_spells`, `skipFields_of_spells` and
`parameters_of_spells`.
-/
import LuaVeil.Proofs.Grammar.Scoping

namespace LuaVeil

/-! ## Spelling -/

/-- Whether occurrences, none of them in a hole, are some terminals. -/
def Spells (os : List Occurrence) (ts : List Terminal) : Prop :=
  os.map Occurrence.mark = ts.map Terminal.mark ∧ ∀ o ∈ os, o.inHole = false

@[simp] theorem spells_nil {os : List Occurrence} : Spells os [] ↔ os = [] := by
  simp only [Spells, List.map_nil, List.map_eq_nil_iff]
  refine ⟨fun h => h.1, ?_⟩
  rintro rfl
  simp

theorem spells_cons {os : List Occurrence} {t : Terminal} {ts : List Terminal} :
    Spells os (t :: ts) ↔
      ∃ o os', os = o :: os' ∧ o.mark = t.mark ∧ o.inHole = false ∧ Spells os' ts := by
  constructor
  · rintro ⟨hmarks, hholes⟩
    cases os with
    | nil => simp at hmarks
    | cons o os =>
      simp only [List.map_cons, List.cons.injEq] at hmarks
      obtain ⟨ho, hos⟩ := List.forall_mem_cons.1 hholes
      exact ⟨o, os, rfl, hmarks.1, ho, hmarks.2, hos⟩
  · rintro ⟨o, os, rfl, hmark, hhole, hmarks, hholes⟩
    exact ⟨by simp [hmark, hmarks], List.forall_mem_cons.2 ⟨hhole, hholes⟩⟩

theorem spells_append {os : List Occurrence} {ts us : List Terminal} :
    Spells os (ts ++ us) ↔ ∃ os₁ os₂, os = os₁ ++ os₂ ∧ Spells os₁ ts ∧ Spells os₂ us := by
  constructor
  · rintro ⟨hmarks, hholes⟩
    rw [List.map_append, List.map_eq_append_iff] at hmarks
    obtain ⟨os₁, os₂, rfl, hts, hus⟩ := hmarks
    obtain ⟨h₁, h₂⟩ := List.forall_mem_append.1 hholes
    exact ⟨os₁, os₂, rfl, ⟨hts, h₁⟩, hus, h₂⟩
  · rintro ⟨os₁, os₂, rfl, ⟨hts, h₁⟩, hus, h₂⟩
    exact ⟨by simp [hts, hus], List.forall_mem_append.2 ⟨h₁, h₂⟩⟩

/-- The occurrences that spell what stands between two terminals, and behind them. -/
theorem Spells.between {os : List Occurrence} {t t' : Terminal} {ts us : List Terminal}
    (h : Spells os (t :: (ts ++ t' :: us))) :
    ∃ o os₁ o' os₂, os = o :: (os₁ ++ o' :: os₂) ∧ o.mark = t.mark ∧ o.inHole = false ∧
      Spells os₁ ts ∧ o'.mark = t'.mark ∧ o'.inHole = false ∧ Spells os₂ us := by
  obtain ⟨o, os, rfl, hmark, hhole, h⟩ := spells_cons.1 h
  obtain ⟨os₁, os₂, rfl, hos₁, h⟩ := spells_append.1 h
  obtain ⟨o', os₂, rfl, hmark', hhole', hos₂⟩ := spells_cons.1 h
  exact ⟨o, os₁, o', os₂, rfl, hmark, hhole, hos₁, hmark', hhole', hos₂⟩

theorem Spells.length_eq {os : List Occurrence} {ts : List Terminal} (h : Spells os ts) :
    os.length = ts.length := by
  simpa using congrArg List.length h.1

/-- The mark of the first of some occurrences. -/
def firstMark (os : List Occurrence) : Option Mark :=
  os.head?.map Occurrence.mark

@[simp] theorem firstMark_nil : firstMark [] = none := rfl

@[simp] theorem firstMark_cons (o : Occurrence) (os : List Occurrence) :
    firstMark (o :: os) = some o.mark := rfl

/-- A mark that is none of some symbols is none of fewer symbols. -/
theorem any_isSymbolOf_of_subset {m : Option Mark} {symbols : List String}
    (h : m.any (Mark.isSymbolOf symbols) = false) (fewer : List String) (hsub : fewer ⊆ symbols) :
    m.any (Mark.isSymbolOf fewer) = false := by
  match m with
  | none => rfl
  | some (.symbol t) =>
    simp only [Option.any_some, Mark.isSymbolOf, List.any_eq_false] at h ⊢
    exact fun s hs => h s (hsub hs)
  | some (.word _) | some .number | some .string => rfl

theorem isName_terminal (n : Identifier) : n.terminal.mark.isName = true := by
  simp [Identifier.terminal, Terminal.mark, Mark.isName, n.notKeyword]

/-- The names among some occurrences. -/
def nameOccurrences (os : List Occurrence) : List Occurrence :=
  os.filter fun o => o.mark.isName

/-! ## Cursors -/

namespace Cursor

/-- The place after the mark `f` and in front of `os`. -/
def after (f : Option Mark) (os : List Occurrence) : Cursor :=
  ⟨f, f, os⟩

theorem past_of_plain {f : Option Mark} {o : Occurrence} {os : List Occurrence}
    (h : o.inHole = false) : (after f (o :: os)).past o os = after (some o.mark) os := by
  simp [past, after, h]

theorem advance_after {f : Option Mark} {o : Occurrence} {os : List Occurrence}
    (h : o.inHole = false) : (after f (o :: os)).advance = after (some o.mark) os :=
  past_of_plain h

/-! ### Looking ahead -/

variable {c : Cursor} {o : Occurrence} {ahead : List Occurrence}

theorem peek_zero (c : Cursor) : c.peek 0 = firstMark c.ahead := by
  rw [peek, firstMark, List.head?_eq_getElem?]

theorem peek_one (hc : c.ahead = o :: ahead) : c.peek 1 = firstMark ahead := by
  rw [peek, hc, firstMark, List.head?_eq_getElem?]
  rfl

theorem sees_zero (c : Cursor) (symbols : List String) :
    c.sees 0 symbols = (firstMark c.ahead).any (Mark.isSymbolOf symbols) := by
  rw [sees, peek_zero]

theorem sees_after (f : Option Mark) (os : List Occurrence) (symbols : List String) :
    (after f os).sees 0 symbols = (firstMark os).any (Mark.isSymbolOf symbols) :=
  sees_zero _ _

theorem sees_one (hc : c.ahead = o :: ahead) (symbols : List String) :
    c.sees 1 symbols = (firstMark ahead).any (Mark.isSymbolOf symbols) := by
  rw [sees, peek_one hc]

theorem sees_iff {k : Nat} {symbols : List String} :
    c.sees k symbols = true ↔ ∃ o ∈ c.ahead[k]?, o.mark.isSymbolOf symbols = true := by
  rw [sees, peek, Option.any_eq_true]
  constructor
  · rintro ⟨m, hm, hs⟩
    obtain ⟨o, ho, rfl⟩ := Option.map_eq_some_iff.1 hm
    exact ⟨o, ho, hs⟩
  · rintro ⟨o, ho, hs⟩
    exact ⟨o.mark, Option.map_eq_some_iff.2 ⟨o, ho, rfl⟩, hs⟩

theorem lt_of_peek {k : Nat} {m : Mark} (h : c.peek k = some m) : k < c.ahead.length := by
  obtain ⟨o, ho, -⟩ := Option.map_eq_some_iff.1 h
  exact (List.getElem?_eq_some_iff.1 ho).1

theorem lt_of_sees {k : Nat} {symbols : List String} (h : c.sees k symbols = true) :
    k < c.ahead.length := by
  obtain ⟨m, hm, -⟩ := (Option.any_eq_true _ _).1 h
  exact lt_of_peek hm

theorem length_advance (c : Cursor) : c.advance.ahead.length = c.ahead.length - 1 := by
  unfold advance
  split
  · next h => simp [h]
  · next h => simp [past, h]

theorem length_advanceBy (n : Nat) (c : Cursor) :
    (c.advanceBy n).ahead.length = c.ahead.length - n := by
  induction n with
  | zero => rfl
  | succ n ih =>
    show (c.advanceBy n).advance.ahead.length = _
    rw [length_advance, ih]
    omega

/-! ### Names -/

/-- Nothing of a name's phrase follows if no sign of it does. -/
theorem skipAscription_after {f : Option Mark} {os : List Occurrence}
    (h : (firstMark os).any (Mark.isSymbolOf [":"]) = false) :
    skipAscription (after f os) = after f os := by
  rw [ skipAscription, sees_after, h, if_neg (by decide)]

theorem skipAttribute_after {f : Option Mark} {os : List Occurrence}
    (h : (firstMark os).any (Mark.isSymbolOf ["<"]) = false) :
    (after f os).skipAttribute = after f os := by
  rw [skipAttribute, sees_after, h, if_neg (by simp)]

theorem name?_after {f : Option Mark} {o : Occurrence} {os : List Occurrence}
    (hhole : o.inHole = false) (hname : o.mark.isName = true) :
    (after f (o :: os)).name? = some (o, after (some o.mark) os) := by
  have hpast : (after f (o :: os)).past o os = after (some o.mark) os := past_of_plain hhole
  simp only [name?, after, hname, if_true] at hpast ⊢
  rw [hpast]

/-- Where a name is next, `function` is not. -/
theorem not_function_of_isName {os : List Occurrence} (f : Option Mark)
    (h : (firstMark os).any Mark.isName = true) :
    ((after f os).peek 0).any (Mark.isWordOf ["function"]) = false := by
  cases os with
  | nil => rfl
  | cons o os =>
    show o.mark.isWordOf ["function"] = false
    rw [firstMark_cons, Option.any_some] at h
    cases hmark : o.mark with
    | word w =>
      simp only [Mark.isWordOf, List.any_cons, List.any_nil, Bool.or_false, beq_eq_false_iff_ne]
      rintro rfl
      rw [hmark] at h
      exact absurd h (by decide)
    | symbol | number | string => rfl

theorem name?_eq_none : c.name? = none ↔ (firstMark c.ahead).any Mark.isName = false := by
  obtain ⟨b, f, os⟩ := c
  cases os with
  | nil => simp [name?]
  | cons o os => simp [name?]

theorem names_of_none (h : c.name? = none) : c.names = ([], c) := by
  rw [ names]
  split
  · rfl
  · next h' => cases h.symm.trans h'

/-- The first of some names, with what stands behind it. -/
theorem names_of_name {d : Cursor} (h : c.name? = some (o, d)) :
    c.names =
      if d.skipAttribute.skipAscription.sees 0 [","] then
        (o :: d.skipAttribute.skipAscription.advance.names.1,
          d.skipAttribute.skipAscription.advance.names.2)
      else ([o], d.skipAttribute.skipAscription) := by
  rw [ names]
  split
  · next h' => cases h.symm.trans h'
  · next h' =>
    obtain ⟨rfl, rfl⟩ := Prod.mk.inj (Option.some.inj (h.symm.trans h'))
    rfl

/-- The first of some names, which the others follow after a comma. -/
theorem names_after {f : Option Mark} {o : Occurrence} {os : List Occurrence}
    (hhole : o.inHole = false) (hname : o.mark.isName = true)
    (hrest : (firstMark os).any (Mark.isSymbolOf ["<", ":"]) = false) :
    (after f (o :: os)).names =
      if (firstMark os).any (Mark.isSymbolOf [","]) then
        (o :: (after (some o.mark) os).advance.names.1, (after (some o.mark) os).advance.names.2)
      else ([o], after (some o.mark) os) := by
  have hplain : (firstMark os).any (Mark.isSymbolOf ["<"]) = false ∧
      (firstMark os).any (Mark.isSymbolOf [":"]) = false :=
    ⟨any_isSymbolOf_of_subset hrest _ (by simp), any_isSymbolOf_of_subset hrest _ (by simp)⟩
  rw [names_of_name (name?_after hhole hname), skipAttribute_after hplain.1,
    skipAscription_after hplain.2, sees_after]

/-- Whether a list of names does not go on with a mark. -/
def endsNames (m : Option Mark) : Prop :=
  m.any (Mark.isSymbolOf ["<", ":", ","]) = false

/-- The names between commas are read to the end. -/
theorem names_of_spells {n : Identifier} {ns : List Identifier} {os rest : List Occurrence}
    (h : Spells os (commaNames n ns)) (hrest : endsNames (firstMark rest)) (f : Option Mark) :
    ∃ last, last.isName = true ∧
      (after f (os ++ rest)).names = (nameOccurrences os, after (some last) rest) := by
  induction ns generalizing n os f with
  | nil =>
    obtain ⟨o, os, rfl, hmark, hhole, hos⟩ := spells_cons.1 h
    obtain rfl := spells_nil.1 hos
    have hname : o.mark.isName = true := by rw [hmark, isName_terminal]
    refine ⟨o.mark, hname, ?_⟩
    rw [List.singleton_append, names_after hhole hname ?_]
    · have hcomma := any_isSymbolOf_of_subset hrest [","] (by simp)
      simp [hcomma, nameOccurrences, hname]
    · exact any_isSymbolOf_of_subset hrest _ (by simp)
  | cons m ns ih =>
    obtain ⟨o, os, rfl, hmark, hhole, hos⟩ := spells_cons.1 h
    obtain ⟨comma, os, rfl, hcomma, hcommahole, hos⟩ := spells_cons.1 hos
    have hname : o.mark.isName = true := by rw [hmark, isName_terminal]
    obtain ⟨last, hlast, hnames⟩ := ih (n := m) hos (some comma.mark)
    refine ⟨last, hlast, ?_⟩
    rw [List.cons_append, names_after hhole hname ?_]
    · have hfirst : (firstMark (comma :: os ++ rest)).any (Mark.isSymbolOf [","]) = true := by
        rw [List.cons_append, firstMark_cons, hcomma]
        decide
      have hnot : comma.mark.isName = false := by
        rw [hcomma]
        rfl
      rw [if_pos hfirst, List.cons_append, advance_after hcommahole, hnames]
      simp [nameOccurrences, hname, hnot]
    · rw [List.cons_append, firstMark_cons, hcomma]
      decide

/-- A field or method of a function's name is passed over. -/
theorem skipFields_after {f : Option Mark} {sign word : Occurrence} {os : List Occurrence}
    (hsign : sign.mark.isSymbolOf [".", ":"] = true) (hsignhole : sign.inHole = false)
    (hword : word.mark.isName = true) (hwordhole : word.inHole = false) :
    (after f (sign :: word :: os)).skipFields = (after (some word.mark) os).skipFields := by
  have hsees : (after f (sign :: word :: os)).sees 0 [".", ":"] ∧
      (after f (sign :: word :: os)).seesWord 1 := by
    refine ⟨by rw [sees_after]; exact hsign, ?_⟩
    cases hmark : word.mark with
    | word w => simp [seesWord, peek, after, hmark]
    | symbol t => simp [hmark, Mark.isName] at hword
    | number => simp [hmark, Mark.isName] at hword
    | string => simp [hmark, Mark.isName] at hword
  have htwo : (after f (sign :: word :: os)).advanceBy 2 = after (some word.mark) os := by
    show (after f (sign :: word :: os)).advance.advance = _
    rw [advance_after hsignhole, advance_after hwordhole]
  rw [skipFields, dif_pos hsees, htwo]

theorem skipFields_done {f : Option Mark} {os : List Occurrence}
    (h : (firstMark os).any (Mark.isSymbolOf [".", ":"]) = false) :
    (after f os).skipFields = after f os := by
  rw [skipFields, sees_after, h, dif_neg (by simp)]

/-- The fields and the method in the name of a function are passed over. -/
theorem skipFields_of_spells {fn : FunctionName} {os rest : List Occurrence}
    (h : Spells os fn.terminals.tail)
    (hrest : (firstMark rest).any (Mark.isSymbolOf [".", ":"]) = false) (f : Option Mark) :
    ∃ f', (after f (os ++ rest)).skipFields = after f' rest := by
  obtain ⟨root, fields, method⟩ := fn
  simp only [FunctionName.terminals, List.cons_append, List.tail_cons] at h
  induction fields generalizing os f with
  | nil =>
    cases method with
    | none =>
      obtain rfl := spells_nil.1 h
      exact ⟨f, skipFields_done hrest⟩
    | some m =>
      obtain ⟨sign, os, rfl, hsign, hsignhole, hos⟩ := spells_cons.1 h
      obtain ⟨word, os, rfl, hword, hwordhole, hos⟩ := spells_cons.1 hos
      obtain rfl := spells_nil.1 hos
      refine ⟨_, (skipFields_after ?_ hsignhole ?_ hwordhole).trans (skipFields_done hrest)⟩
      · rw [hsign]
        decide
      · rw [hword, isName_terminal]
  | cons m fields ih =>
    obtain ⟨sign, os, rfl, hsign, hsignhole, hos⟩ := spells_cons.1 h
    obtain ⟨word, os, rfl, hword, hwordhole, hos⟩ := spells_cons.1 hos
    obtain ⟨f', hskip⟩ := ih (some word.mark) hos
    refine ⟨f', (skipFields_after ?_ hsignhole ?_ hwordhole).trans hskip⟩
    · rw [hsign]
      decide
    · rw [hword, isName_terminal]

/-! ## Parameters -/

/-- Whether a terminal can stand between the parentheses of parameters. -/
def isListed (t : Terminal) : Bool :=
  t.mark.isName || t.mark.isSymbolOf ["...", ","]

/-- What is listed is neither a colon nor a closing parenthesis. -/
theorem of_isListed {t : Terminal} (h : isListed t = true) :
    t.mark.isSymbolOf [":"] = false ∧ t.mark.isSymbolOf [")"] = false := by
  rw [isListed, Bool.or_eq_true] at h
  cases hmark : t.mark with
  | symbol s =>
    rw [hmark] at h
    have hs : Mark.isSymbolOf ["...", ","] (.symbol s) = true := h.resolve_left (by simp [Mark.isName])
    simp only [Mark.isSymbolOf, List.any_cons, List.any_nil, Bool.or_false, Bool.or_eq_true,
      beq_iff_eq] at hs
    rcases hs with rfl | rfl <;> decide
  | word w => simp [Mark.isSymbolOf]
  | number => simp [Mark.isSymbolOf]
  | string => simp [Mark.isSymbolOf]

theorem isListed_of_mem {ps : Parameters} {t : Terminal} (h : t ∈ ps.listed) : isListed t = true := by
  have hnames : ∀ n ns, t ∈ commaNames n ns → isListed t = true := by
    intro n ns ht
    simp only [commaNames, List.mem_cons, List.mem_flatMap, List.not_mem_nil, or_false] at ht
    rcases ht with rfl | ⟨m, -, rfl | rfl⟩
    · rw [isListed, isName_terminal, Bool.true_or]
    · decide
    · rw [isListed, isName_terminal, Bool.true_or]
  unfold Parameters.listed at h
  split at h
  · simp at h
  · rw [List.mem_singleton.1 h]
    decide
  · exact hnames _ _ h
  · rcases List.mem_append.1 h with h | h
    · exact hnames _ _ h
    · simp only [List.mem_cons, List.not_mem_nil, or_false] at h
      rcases h with rfl | rfl <;> decide

/-- One step through parameters, with what stands behind the parameter. -/
theorem parameterNames_cons (hc : c.ahead = o :: ahead) :
    c.parameterNames =
      if o.mark.isName then
        (o :: (c.past o ahead).skipAscription.parameterNames.1,
          (c.past o ahead).skipAscription.parameterNames.2)
      else if o.mark.isSymbolOf [")"] then ([], c.past o ahead)
      else if o.mark.isSymbolOf ["...", ","] then (c.past o ahead).skipAscription.parameterNames
      else ([], c) := by
  rw [parameterNames]
  split
  · next h => cases h.symm.trans hc
  · next o' ahead' h =>
    obtain ⟨rfl, rfl⟩ := List.cons.inj (h.symm.trans hc)
    rfl

theorem parameterNames_stop (hname : (firstMark c.ahead).any Mark.isName = false)
    (hclose : (firstMark c.ahead).any (Mark.isSymbolOf [")"]) = false)
    (hlist : (firstMark c.ahead).any (Mark.isSymbolOf ["...", ","]) = false) :
    c.parameterNames = ([], c) := by
  cases hc : c.ahead with
  | nil =>
    rw [parameterNames]
    split
    · rfl
    · next h => cases h.symm.trans hc
  | cons o ahead =>
    rw [hc, firstMark_cons, Option.any_some] at hname hclose hlist
    rw [parameterNames_cons hc, hname, hclose, hlist]
    rfl

/-- One step through parameters that have no types. -/
theorem parameterNames_after {f : Option Mark} {o : Occurrence} {os : List Occurrence}
    (hhole : o.inHole = false) (hrest : (firstMark os).any (Mark.isSymbolOf [":"]) = false) :
    (after f (o :: os)).parameterNames =
      if o.mark.isName then
        (o :: (after (some o.mark) os).parameterNames.1, (after (some o.mark) os).parameterNames.2)
      else if o.mark.isSymbolOf [")"] then ([], after (some o.mark) os)
      else if o.mark.isSymbolOf ["...", ","] then (after (some o.mark) os).parameterNames
      else ([], after f (o :: os)) := by
  rw [parameterNames_cons rfl, past_of_plain hhole, skipAscription_after hrest]

/-- The parameters up to the closing parenthesis are read to the end. -/
theorem parameterNames_of_spells {ts : List Terminal} (hts : ∀ t ∈ ts, isListed t = true)
    {os rest : List Occurrence} (h : Spells os (ts ++ [.sign ")"]))
    (hrest : (firstMark rest).any (Mark.isSymbolOf [":"]) = false) (f : Option Mark) :
    (after f (os ++ rest)).parameterNames =
      (nameOccurrences os, after (some (Terminal.sign ")").mark) rest) := by
  induction ts generalizing os f with
  | nil =>
    obtain ⟨o, os, rfl, hmark, hhole, hos⟩ := spells_cons.1 h
    obtain rfl := spells_nil.1 hos
    have hname : o.mark.isName = false := by
      rw [hmark]
      rfl
    have hclose : o.mark.isSymbolOf [")"] = true := by
      rw [hmark]
      decide
    rw [List.singleton_append, parameterNames_after hhole hrest, ← hmark]
    simp [hname, hclose, nameOccurrences]
  | cons t ts ih =>
    obtain ⟨ht, hts⟩ := List.forall_mem_cons.1 hts
    obtain ⟨o, os, rfl, hmark, hhole, hos⟩ := spells_cons.1 h
    have hnext : (firstMark (os ++ rest)).any (Mark.isSymbolOf [":"]) = false := by
      cases ts with
      | nil =>
        obtain ⟨o', os, rfl, hmark', -⟩ := spells_cons.1 hos
        rw [List.cons_append, firstMark_cons, hmark']
        decide
      | cons t' ts =>
        obtain ⟨o', os, rfl, hmark', -⟩ := spells_cons.1 hos
        rw [List.cons_append, firstMark_cons, hmark']
        exact (of_isListed (hts t' List.mem_cons_self)).1
    have hclose : o.mark.isSymbolOf [")"] = false := by
      rw [hmark]
      exact (of_isListed ht).2
    rw [List.cons_append, parameterNames_after hhole hnext, ih hts hos]
    rw [isListed, ← hmark, Bool.or_eq_true] at ht
    by_cases hname : o.mark.isName = true
    · simp [hname, nameOccurrences]
    · have hsign := ht.resolve_left hname
      simp [hname, hsign, hclose, nameOccurrences]

/-- The parameters of a function are read to the end, and its body follows. -/
theorem parameters_of_spells {ps : Parameters} {os rest : List Occurrence}
    (h : Spells os ps.terminals) (hrest : (firstMark rest).any (Mark.isSymbolOf [":"]) = false)
    (f : Option Mark) :
    (after f (os ++ rest)).parameters =
      (nameOccurrences os, after (some (Terminal.sign ")").mark) rest) := by
  obtain ⟨o, os, rfl, hmark, hhole, hos⟩ := spells_cons.1 h
  have hname : o.mark.isName = false := by
    rw [hmark]
    rfl
  have hopen : o.mark.isSymbolOf ["("] = true := by
    rw [hmark]
    decide
  have hgenerics : o.mark.isSymbolOf ["<"] = false := by
    rw [hmark]
    decide
  rw [List.cons_append, parameters, skipGenerics]
  simp only [sees_after, firstMark_cons, Option.any_some, hgenerics, Bool.false_eq_true, if_false,
    hopen, if_true, advance_after hhole]
  rw [parameterNames_of_spells (fun t => isListed_of_mem) hos hrest]
  simp [skipAscription_after hrest, nameOccurrences, hname]

end Cursor
end LuaVeil
