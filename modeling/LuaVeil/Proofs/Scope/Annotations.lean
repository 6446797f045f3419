/-
# Annotations

Annotations are inserted into the occurrences of a script behind names,
parameters and operands. They change what a cursor has passed last, and that is
all it can tell of them later.

Main statements:

* `names_of_nameList` and `parameters_of_functionHead`, the phrases with
  annotations declare the same names and end at the same place.
-/
import LuaVeil.Proofs.Scope.Types
import LuaVeil.Proofs.Scope.Walk

namespace LuaVeil

/-! ## Insertions -/

/-- How the occurrences of a script stand in a script that has more of them. -/
structure Insertion where
  /-- what an occurrence has become -/
  move : Occurrence → Occurrence
  /-- whether an occurrence was inserted -/
  isNew : Occurrence → Bool
  mark_move : ∀ o, (move o).mark = o.mark
  inHole_move : ∀ o, (move o).inHole = o.inHole
  isNew_move : ∀ o, isNew (move o) = false

attribute [simp] Insertion.mark_move Insertion.inHole_move Insertion.isNew_move

namespace Insertion

/-- Inserted occurrences that are a type behind a sign; its last mark is `last`. -/
structure Typing (e : Insertion) (sign : String) (hole : Bool) (ns : List Occurrence)
    (last : Mark) : Prop where
  exists_type : ∃ ms, TypePhrase .type ms ∧ ms.getLast? = some last ∧
    ns.map Occurrence.mark = .sign sign :: ms
  new : ∀ o ∈ ns, e.isNew o = true
  place : ∀ o ∈ ns, o.inHole = hole

/-- Nothing, or a colon and a type, behind the mark `m`; the last mark is `last`. -/
inductive Tag (e : Insertion) (m : Mark) : List Occurrence → Mark → Prop
  | none : Tag e m [] m
  | type {ns : List Occurrence} {last : Mark} : e.Typing ":" false ns last → Tag e m ns last

end Insertion

/-- Nothing, or an attribute between `<` and `>`, behind the mark `m`; the last mark is `last`. -/
inductive Attribute (m : Mark) : List Occurrence → Mark → Prop
  | none : Attribute m [] m
  | word {as : List Occurrence} {w : Text} :
      ReadsAs as [.sign "<", .word w, .sign ">"] → Attribute m as (.sign ">")

theorem Mark.endsType_of_isName {m : Mark} (h : m.isName = true) : m.endsType = true := by
  cases m with
  | word w => rfl
  | symbol | number | string => cases h

/-- A name is none of some keywords. -/
theorem Mark.isWordOf_of_not_isKeyword {w : Name} (h : isKeyword w = false) {words : List String}
    (hwords : ∀ v ∈ words, isKeyword v.toList = true) : (Mark.word w).isWordOf words = false := by
  refine List.any_eq_false.2 fun v hv hsame => ?_
  rw [← beq_iff_eq.1 hsame, hwords v hv] at h
  cases h

theorem Attribute.endsType {m l : Mark} {as : List Occurrence} (h : Attribute m as l)
    (hm : m.isName = true) : l.endsType = true := by
  cases h with
  | none => exact Mark.endsType_of_isName hm
  | word => decide

/-- Nothing, or generic parameters between `<` and `>`. -/
inductive Generics : List Occurrence → Prop
  | none : Generics []
  | list {gs : List Occurrence} {ms : List Mark} :
      Balanced true ms → ReadsAs gs (.sign "<" :: ms ++ [.sign ">"]) → Generics gs

/-- The fields and the method in the name of a function. -/
inductive Fields : List Occurrence → Prop
  | nil : Fields []
  | cons {sign word : Occurrence} {os : List Occurrence} :
      sign.mark.isSymbolOf [".", ":"] = true → sign.inHole = false →
      word.mark.isName = true → word.inHole = false → Fields os → Fields (sign :: word :: os)

namespace Insertion

variable (e : Insertion)

/--
The names of a `local` or `for`, and the same with annotations; `l` and `l'` are the last marks
without them and with them.
-/
inductive NameList : List Occurrence → List Occurrence → Mark → Mark → Prop
  | last {o : Occurrence} {as ns : List Occurrence} {l l' : Mark} :
      o.mark.isName = true → o.inHole = false → Attribute o.mark as l → e.Tag l ns l' →
      NameList (o :: as) (e.move o :: (as.map e.move ++ ns)) l l'
  | more {o comma : Occurrence} {as ns os os' : List Occurrence} {m m' l l' : Mark} :
      o.mark.isName = true → o.inHole = false → Attribute o.mark as m → e.Tag m ns m' →
      comma.mark = .sign "," → comma.inHole = false → NameList os os' l l' →
      NameList (o :: (as ++ comma :: os))
        (e.move o :: (as.map e.move ++ ns ++ e.move comma :: os')) l l'

/-- Parameters up to the closing parenthesis, and the same with annotations. -/
inductive Parameters : List Occurrence → List Occurrence → Prop
  | close {o : Occurrence} :
      o.mark = .sign ")" → o.inHole = false → Parameters [o] [e.move o]
  | comma {o : Occurrence} {os os' : List Occurrence} :
      o.mark = .sign "," → o.inHole = false → Parameters os os' →
      Parameters (o :: os) (e.move o :: os')
  | parameter {o : Occurrence} {ns os os' : List Occurrence} {last : Mark} :
      o.mark.isName = true ∨ o.mark = .sign "..." → o.inHole = false → e.Tag o.mark ns last →
      Parameters os os' → Parameters (o :: os) (e.move o :: (ns ++ os'))

/-- What stands before the body of a function, and the same with annotations that end in `last`. -/
inductive FunctionHead : List Occurrence → List Occurrence → Mark → Prop
  | mk {gs ps ps' ns : List Occurrence} {o : Occurrence} {last : Mark} :
      Generics gs → o.mark = .sign "(" → o.inHole = false → e.Parameters ps ps' →
      e.Tag (.sign ")") ns last →
      FunctionHead (gs ++ o :: ps) (gs.map e.move ++ e.move o :: (ps' ++ ns)) last

variable {e}

/-! ## Last marks -/

theorem Typing.endsType {sign : String} {hole : Bool} {ns : List Occurrence} {last : Mark}
    (h : e.Typing sign hole ns last) : last.endsType = true := by
  obtain ⟨ms, htype, hlast, -⟩ := h.exists_type
  have hend := htype.chain.endsType none
  rw [lastMark, hlast] at hend
  exact hend

theorem Typing.lastMark_eq {sign : String} {hole : Bool} {ns : List Occurrence} {last : Mark}
    (h : e.Typing sign hole ns last) (f : Option Mark) :
    lastMark f (ns.map Occurrence.mark) = some last := by
  obtain ⟨ms, -, hlast, hmarks⟩ := h.exists_type
  rw [hmarks, lastMark_cons, lastMark, hlast, Option.some_or]

theorem Tag.endsType {m : Mark} {ns : List Occurrence} {last : Mark} (h : e.Tag m ns last)
    (hm : m.endsType = true) : last.endsType = true := by
  cases h with
  | none => exact hm
  | type h => exact h.endsType

/-- A list of names ends like a type does. -/
theorem NameList.endsType {os os' : List Occurrence} {l l' : Mark} (h : e.NameList os os' l l') :
    l.endsType = true ∧ l'.endsType = true := by
  induction h with
  | last hname _ hattribute htag =>
    exact ⟨hattribute.endsType hname, htag.endsType (hattribute.endsType hname)⟩
  | more _ _ _ _ _ _ _ ih => exact ih

theorem FunctionHead.endsType {os os' : List Occurrence} {last : Mark}
    (h : e.FunctionHead os os' last) : last.endsType = true := by
  cases h with
  | mk _ _ _ _ htag => exact htag.endsType (by decide)

/-! ## Moving over annotations -/

open Cursor

theorem readsAs_map {os : List Occurrence} {ms : List Mark} (h : ReadsAs os ms) :
    ReadsAs (os.map e.move) ms := by
  obtain ⟨rfl, hholes⟩ := h
  refine ⟨by simp [Function.comp_def], ?_⟩
  intro o ho
  obtain ⟨o', ho', rfl⟩ := List.mem_map.1 ho
  rw [e.inHole_move, hholes o' ho']

theorem nameOccurrences_move (os : List Occurrence) :
    nameOccurrences (os.map e.move) = (nameOccurrences os).map e.move := by
  simp [nameOccurrences, List.filter_map, Function.comp_def]

theorem attribute_move {o : Occurrence} {l : Mark} {as : List Occurrence}
    (h : Attribute o.mark as l) : Attribute (e.move o).mark (as.map e.move) l := by
  rw [e.mark_move]
  cases h with
  | none => exact .none
  | word has => exact .word (readsAs_map has)

theorem generics_move {gs : List Occurrence} (h : Generics gs) : Generics (gs.map e.move) := by
  cases h with
  | none => exact .none
  | list hms hgs => exact .list hms (readsAs_map hgs)

/-- A type behind a sign is passed over, unless it goes on. -/
theorem Typing.skipType {sign : String} {ns : List Occurrence} {last : Mark}
    (h : e.Typing sign false ns last) :
    ∃ o os, ns = o :: os ∧ o.mark = .sign sign ∧ o.inHole = false ∧
      ∀ rest, goesOn (some last) (firstMark rest) = false →
        ∀ f, (after f (os ++ rest)).skipType = after (some last) rest := by
  obtain ⟨ms, htype, hlast, hmarks⟩ := h.exists_type
  obtain ⟨o, os, rfl, ho, hhole, hos⟩ := readsAs_cons.1 ⟨hmarks, h.place⟩
  exact ⟨o, os, rfl, ho, hhole, fun rest hrest => skipType_of_phrase htype hlast hos hrest⟩

/-- An annotation is passed over, unless its type goes on. -/
theorem Tag.skipAscription {m last : Mark} {ns rest : List Occurrence} (h : e.Tag m ns last)
    (hcolon : (firstMark rest).any (Mark.isSymbolOf [":"]) = false)
    (hrest : goesOn (some last) (firstMark rest) = false) :
    (after (some m) (ns ++ rest)).skipAscription = after (some last) rest := by
  cases h with
  | none => exact skipAscription_after hcolon
  | type h =>
    obtain ⟨o, os, rfl, ho, hhole, hskip⟩ := h.skipType
    have hsees : (after (some m) (o :: os ++ rest)).sees 0 [":"] = true := by
      rw [sees_after, List.cons_append, firstMark_cons, ho]
      decide
    rw [Cursor.skipAscription, if_pos hsees, List.cons_append, advance_after hhole,
      hskip rest hrest]

theorem Tag.firstMark_ne_angle {m last : Mark} {ns rest : List Occurrence} (h : e.Tag m ns last)
    (hrest : (firstMark rest).any (Mark.isSymbolOf ["<"]) = false) :
    (firstMark (ns ++ rest)).any (Mark.isSymbolOf ["<"]) = false := by
  cases h with
  | none => exact hrest
  | type h =>
    obtain ⟨o, os, rfl, ho, -⟩ := h.skipType
    rw [List.cons_append, firstMark_cons, ho]
    decide

/-- An attribute is passed over. -/
theorem skipAttribute_of {m l : Mark} {as rest : List Occurrence} (h : Attribute m as l)
    (hrest : (firstMark rest).any (Mark.isSymbolOf ["<"]) = false) :
    (after (some m) (as ++ rest)).skipAttribute = after (some l) rest := by
  cases h with
  | none => exact skipAttribute_after hrest
  | word has =>
    obtain ⟨o, as, rfl, ho, hhole, has⟩ := readsAs_cons.1 has
    obtain ⟨word, as, rfl, hword, hwordhole, has⟩ := readsAs_cons.1 has
    obtain ⟨o', as, rfl, ho', hhole', has⟩ := readsAs_cons.1 has
    obtain rfl := readsAs_nil.1 has
    have hsees : (after (some m) ([o, word, o'] ++ rest)).sees 0 ["<"] ∧
        (after (some m) ([o, word, o'] ++ rest)).sees 2 [">"] := by
      constructor
      · rw [sees_after, List.cons_append, firstMark_cons, ho]
        decide
      · show o'.mark.isSymbolOf [">"] = true
        rw [ho']
        decide
    rw [skipAttribute, if_pos hsees]
    show (after (some m) (o :: word :: o' :: rest)).advance.advance.advance = _
    rw [advance_after hhole, advance_after hwordhole, advance_after hhole', ho']

/-! ## Names -/

/-- The first of some names, with what stands behind it. -/
theorem names_eq {f : Option Mark} {o : Occurrence} {os : List Occurrence} {d : Cursor}
    (hhole : o.inHole = false) (hname : o.mark.isName = true)
    (hd : (after (some o.mark) os).skipAttribute.skipAscription = d) :
    (after f (o :: os)).names =
      if d.sees 0 [","] then (o :: d.advance.names.1, d.advance.names.2) else ([o], d) := by
  rw [names_of_name (name?_after hhole hname), hd]

/-- Signs that go on with names or with a type. -/
def goOnSigns : List String :=
  ["<", ":", ",", "?", "|", "&", "->", "."]

/-- The last name, with what stands behind it. -/
theorem names_last {f : Option Mark} {o : Occurrence} {as ns rest : List Occurrence} {l l' : Mark}
    (hhole : o.inHole = false) (hname : o.mark.isName = true) (hattribute : Attribute o.mark as l)
    (htag : e.Tag l ns l') (hrest : (firstMark rest).any (Mark.isSymbolOf goOnSigns) = false) :
    (after f (o :: (as ++ ns) ++ rest)).names = ([o], after (some l') rest) := by
  have hplain := any_isSymbolOf_of_subset hrest
  have hskip : (after (some o.mark) (as ++ ns ++ rest)).skipAttribute.skipAscription =
      after (some l') rest := by
    rw [List.append_assoc,
      skipAttribute_of hattribute (htag.firstMark_ne_angle (hplain _ (by decide))),
      htag.skipAscription (hplain _ (by decide)) (goesOn_eq_false _ (hplain _ (by decide)))]
  rw [List.cons_append, names_eq hhole hname hskip, sees_after, hplain [","] (by decide),
    if_neg (by simp)]

/-- A name before a comma, with what stands behind it. -/
theorem names_comma (f : Option Mark) {o comma : Occurrence} {as ns : List Occurrence}
    {m m' : Mark} (rest : List Occurrence) (hhole : o.inHole = false) (hname : o.mark.isName = true)
    (hattribute : Attribute o.mark as m) (htag : e.Tag m ns m') (hcomma : comma.mark = .sign ",")
    (hcommahole : comma.inHole = false) :
    (after f (o :: (as ++ ns ++ comma :: rest))).names =
      (o :: (after (some (.sign ",")) rest).names.1, (after (some (.sign ",")) rest).names.2) := by
  have hnot : ∀ symbols ⊆ ["<", ":", "?", "|", "&", "->", "."],
      (firstMark (comma :: rest)).any (Mark.isSymbolOf symbols) = false := by
    intro symbols hsub
    refine any_isSymbolOf_of_subset ?_ symbols hsub
    rw [firstMark_cons, hcomma]
    decide
  have hskip : (after (some o.mark) (as ++ ns ++ comma :: rest)).skipAttribute.skipAscription =
      after (some m') (comma :: rest) := by
    rw [List.append_assoc, skipAttribute_of hattribute (htag.firstMark_ne_angle (hnot _ (by simp))),
      htag.skipAscription (hnot _ (by simp)) (goesOn_eq_false _ (hnot _ (by simp)))]
  have hsees : (after (some m') (comma :: rest)).sees 0 [","] = true := by
    rw [sees_after, firstMark_cons, hcomma]
    decide
  rw [names_eq hhole hname hskip, if_pos hsees, advance_after hcommahole, hcomma]

/-- The names are the same with and without annotations. -/
theorem names_of_nameList {os os' rest rest' : List Occurrence} {l l' : Mark}
    (h : e.NameList os os' l l')
    (hrest : (firstMark rest).any (Mark.isSymbolOf goOnSigns) = false)
    (hrest' : (firstMark rest').any (Mark.isSymbolOf goOnSigns) = false) (f f' : Option Mark) :
    ∃ names, (after f (os ++ rest)).names = (names, after (some l) rest) ∧
      (after f' (os' ++ rest')).names = (names.map e.move, after (some l') rest') := by
  induction h generalizing f f' with
  | @last o as ns l l' hname hhole hattribute htag =>
    have hnames := names_last (f := f) hhole hname hattribute (.none (e := e)) hrest
    rw [List.append_nil] at hnames
    refine ⟨[o], hnames, ?_⟩
    exact names_last (by simpa) (by simpa) (attribute_move hattribute) htag hrest'
  | @more o comma as ns os os' m m' l l' hname hhole hattribute htag hcomma hcommahole _ ih =>
    obtain ⟨names, hnames, hnames'⟩ := ih (some (.sign ",")) (some (.sign ","))
    refine ⟨o :: names, ?_, ?_⟩
    · have hfirst := names_comma f (os ++ rest) hhole hname hattribute (.none (e := e))
        hcomma hcommahole
      rw [hnames, List.append_nil] at hfirst
      simpa using hfirst
    · have hhole' : (e.move o).inHole = false := by rw [e.inHole_move, hhole]
      have hname' : (e.move o).mark.isName = true := by rw [e.mark_move, hname]
      have hcomma' : (e.move comma).mark = .sign "," := by rw [e.mark_move, hcomma]
      have hcommahole' : (e.move comma).inHole = false := by rw [e.inHole_move, hcommahole]
      have hfirst := names_comma f' (os' ++ rest') hhole' hname'
        (attribute_move hattribute) htag hcomma' hcommahole'
      rw [hnames'] at hfirst
      simpa using hfirst

/-- A list of names begins with a name. -/
theorem NameList.firstMark {os os' : List Occurrence} {l l' : Mark} (h : e.NameList os os' l l')
    (rest : List Occurrence) :
    (firstMark (os ++ rest)).any Mark.isName = true ∧
      (firstMark (os' ++ rest)).any Mark.isName = true := by
  cases h with
  | last hname => exact ⟨hname, by simpa using hname⟩
  | more hname => exact ⟨hname, by simpa using hname⟩

/-! ## Parameters -/

/-- One step through parameters, with what stands behind the parameter. -/
theorem parameterNames_eq {f : Option Mark} {o : Occurrence} {os : List Occurrence}
    (hhole : o.inHole = false) :
    (after f (o :: os)).parameterNames =
      if o.mark.isName then
        (o :: (after (some o.mark) os).skipAscription.parameterNames.1,
          (after (some o.mark) os).skipAscription.parameterNames.2)
      else if o.mark.isSymbolOf [")"] then ([], after (some o.mark) os)
      else if o.mark.isSymbolOf ["...", ","] then
        (after (some o.mark) os).skipAscription.parameterNames
      else ([], after f (o :: os)) := by
  rw [parameterNames_cons rfl, past_of_plain hhole]

/-- Signs that an annotation begins with, or that a type goes on with. -/
def annotationSigns : List String :=
  [":", "?", "|", "&", "->", ".", "<"]

/-- No parameter begins with a mark that an annotation could begin or go on with. -/
theorem Parameters.not_first {os os' : List Occurrence} (h : e.Parameters os os')
    (rest : List Occurrence) :
    (firstMark (os ++ rest)).any (Mark.isSymbolOf annotationSigns) = false ∧
      (firstMark (os' ++ rest)).any (Mark.isSymbolOf annotationSigns) = false := by
  cases h with
  | close ho =>
    simp only [List.cons_append, firstMark_cons, ho, e.mark_move]
    decide
  | comma ho =>
    simp only [List.cons_append, firstMark_cons, ho, e.mark_move]
    decide
  | @parameter o ns os os' last ho =>
    simp only [List.cons_append, firstMark_cons, e.mark_move, and_self]
    rcases ho with ho | ho
    · cases hmark : o.mark with
      | word w => rfl
      | symbol | number | string => simp [hmark, Mark.isName] at ho
    · rw [ho]
      decide

/-- One parameter is a name or not, and an annotation may stand behind it. -/
theorem parameterNames_parameter (f : Option Mark) {o : Occurrence} {ns os : List Occurrence}
    {last : Mark} (ho : o.mark.isName = true ∨ o.mark = .sign "...") (hhole : o.inHole = false)
    (htag : e.Tag o.mark ns last)
    (hos : (firstMark os).any (Mark.isSymbolOf annotationSigns) = false) :
    (after f (o :: (ns ++ os))).parameterNames =
      (nameOccurrences [o] ++ (after (some last) os).parameterNames.1,
        (after (some last) os).parameterNames.2) := by
  have hskip := htag.skipAscription (any_isSymbolOf_of_subset hos _ (by decide))
    (goesOn_eq_false _ (any_isSymbolOf_of_subset hos _ (by decide)))
  rw [parameterNames_eq hhole, hskip]
  rcases ho with ho | ho
  · simp [nameOccurrences, ho]
  · have hname : (Mark.sign "...").isName = false := rfl
    rw [ho, if_neg (by decide), if_neg (by decide), if_pos (by decide)]
    simp [nameOccurrences, ho, hname]

theorem parameterNames_comma (f : Option Mark) {o : Occurrence} {os : List Occurrence}
    (ho : o.mark = .sign ",") (hhole : o.inHole = false)
    (hos : (firstMark os).any (Mark.isSymbolOf annotationSigns) = false) :
    (after f (o :: os)).parameterNames = (after (some (.sign ",")) os).parameterNames := by
  have hskip : (after (some (.sign ",")) os).skipAscription = after (some (.sign ",")) os :=
    skipAscription_after (any_isSymbolOf_of_subset hos _ (by decide))
  rw [parameterNames_eq hhole, ho, hskip, if_neg (by decide), if_neg (by decide),
    if_pos (by decide)]

theorem parameterNames_close (f : Option Mark) {o : Occurrence} (os : List Occurrence)
    (ho : o.mark = .sign ")") (hhole : o.inHole = false) :
    (after f (o :: os)).parameterNames = ([], after (some (.sign ")")) os) := by
  rw [parameterNames_eq hhole, ho, if_neg (by decide), if_pos (by decide)]

/-- The parameters are the same with and without annotations. -/
theorem parameterNames_of_parameters {os os' : List Occurrence} (h : e.Parameters os os')
    (rest rest' : List Occurrence) (f f' : Option Mark) :
    ∃ names, (after f (os ++ rest)).parameterNames = (names, after (some (.sign ")")) rest) ∧
      (after f' (os' ++ rest')).parameterNames =
        (names.map e.move, after (some (.sign ")")) rest') := by
  induction h generalizing f f' with
  | @close o ho hhole =>
    refine ⟨[], parameterNames_close f rest ho hhole, ?_⟩
    exact parameterNames_close f' rest' (by rw [e.mark_move, ho]) (by rw [e.inHole_move, hhole])
  | @comma o os os' ho hhole hos ih =>
    obtain ⟨names, hnames, hnames'⟩ := ih (some (.sign ",")) (some (.sign ","))
    refine ⟨names, ?_, ?_⟩
    · rw [List.cons_append, parameterNames_comma f ho hhole (hos.not_first rest).1, hnames]
    · rw [List.cons_append, parameterNames_comma f' (by rw [e.mark_move, ho])
        (by rw [e.inHole_move, hhole]) (hos.not_first rest').2, hnames']
  | @parameter o ns os os' last ho hhole htag hos ih =>
    obtain ⟨names, hnames, hnames'⟩ := ih (some o.mark) (some last)
    refine ⟨nameOccurrences [o] ++ names, ?_, ?_⟩
    · have hfirst := parameterNames_parameter f ho hhole (.none (e := e)) (hos.not_first rest).1
      rw [hnames] at hfirst
      exact hfirst
    · have ho' : (e.move o).mark.isName = true ∨ (e.move o).mark = .sign "..." := by
        rwa [e.mark_move]
      have htag' : e.Tag (e.move o).mark ns last := by rwa [e.mark_move]
      have hfirst := parameterNames_parameter f' ho' (by rw [e.inHole_move, hhole]) htag'
        (hos.not_first rest').2
      rw [hnames'] at hfirst
      rw [List.cons_append, List.append_assoc, hfirst, List.map_append, ← nameOccurrences_move,
        List.map_singleton]

/-! ## Heads of functions -/

theorem fields_move {os : List Occurrence} (h : Fields os) : Fields (os.map e.move) := by
  induction h with
  | nil => exact .nil
  | cons hsign hsignhole hword hwordhole _ ih =>
    exact .cons (by simpa) (by simpa) (by simpa) (by simpa) ih

theorem skipFields_of {os rest : List Occurrence} (h : Fields os)
    (hrest : (firstMark rest).any (Mark.isSymbolOf [".", ":"]) = false) (f : Option Mark) :
    ∃ f', (after f (os ++ rest)).skipFields = after f' rest := by
  induction h generalizing f with
  | nil => exact ⟨f, skipFields_done hrest⟩
  | cons hsign hsignhole hword hwordhole _ ih =>
    obtain ⟨f', hskip⟩ := ih _
    exact ⟨f', (skipFields_after hsign hsignhole hword hwordhole).trans hskip⟩

/-- The head of a function begins with a bracket. -/
theorem FunctionHead.firstMark {os os' : List Occurrence} {last : Mark}
    (h : e.FunctionHead os os' last) (rest : List Occurrence) :
    (firstMark (os ++ rest) = some (.sign "<") ∨ firstMark (os ++ rest) = some (.sign "(")) ∧
      (firstMark (os' ++ rest) = some (.sign "<") ∨
        firstMark (os' ++ rest) = some (.sign "(")) := by
  cases h with
  | @mk gs ps ps' ns o _ hgs ho hhole hps htag =>
    cases hgs with
    | none => simp [ho]
    | list hms hgs =>
      rw [List.append_assoc, List.append_assoc, ReadsAs.firstMark_append hgs,
        ReadsAs.firstMark_append (readsAs_map hgs)]
      exact ⟨.inl rfl, .inl rfl⟩

theorem skipGenerics_of {gs rest : List Occurrence} (h : Generics gs) (f : Option Mark)
    (hrest : (firstMark rest).any (Mark.isSymbolOf ["<"]) = false) :
    ∃ f', (after f (gs ++ rest)).skipGenerics = after f' rest := by
  cases h with
  | none => exact ⟨f, by rw [List.nil_append, skipGenerics, sees_after, hrest, if_neg (by simp)]⟩
  | list hms hgs =>
    have hsees : (after f (gs ++ rest)).sees 0 ["<"] = true := by
      rw [sees_after, ReadsAs.firstMark_append hgs]
      decide
    refine ⟨some (.sign ">"), ?_⟩
    rw [skipGenerics, if_pos hsees]
    exact skipBalanced_of_enclosed (isSymbolOf_sign (List.mem_singleton.2 rfl)) hms
      (isSymbolOf_sign (List.mem_singleton.2 rfl)) hgs f rest

/-- Behind generic parameters the parameters of a function are read, and the type it returns. -/
theorem parameters_eq {gs rest : List Occurrence} {o : Occurrence} {names : List Occurrence}
    {d : Cursor} (hgs : Generics gs) (ho : o.mark = .sign "(") (hhole : o.inHole = false)
    (hnames : (after (some (.sign "(")) rest).parameterNames = (names, d)) (f : Option Mark) :
    (after f (gs ++ o :: rest)).parameters = (names, d.skipAscription) := by
  have hfirst : firstMark (o :: rest) = some (.sign "(") := by rw [firstMark_cons, ho]
  have hangle : (firstMark (o :: rest)).any (Mark.isSymbolOf ["<"]) = false := by
    rw [hfirst]
    decide
  obtain ⟨f', hgenerics⟩ := skipGenerics_of hgs f hangle
  have hsees : (after f' (o :: rest)).sees 0 ["("] = true := by
    rw [sees_after, hfirst]
    decide
  rw [parameters, hgenerics]
  simp only [hsees, if_true, advance_after hhole, ho, hnames]

/-- The parameters of a function are the same with and without annotations, and so is its body. -/
theorem parameters_of_functionHead {os os' rest rest' : List Occurrence} {last : Mark}
    (h : e.FunctionHead os os' last)
    (hrest : (firstMark rest).any (Mark.isSymbolOf [":"]) = false)
    (hrest' : (firstMark rest').any (Mark.isSymbolOf [":"]) = false)
    (hgo : goesOn (some last) (firstMark rest') = false) (f f' : Option Mark) :
    ∃ names, (after f (os ++ rest)).parameters = (names, after (some (.sign ")")) rest) ∧
      (after f' (os' ++ rest')).parameters = (names.map e.move, after (some last) rest') := by
  cases h with
  | @mk gs ps ps' ns o _ hgs ho hhole hps htag =>
    obtain ⟨names, hnames, hnames'⟩ :=
      parameterNames_of_parameters hps rest (ns ++ rest') (some (.sign "(")) (some (.sign "("))
    refine ⟨names, ?_, ?_⟩
    · rw [List.append_assoc, List.cons_append, parameters_eq hgs ho hhole hnames,
        skipAscription_after hrest]
    · have hhead := parameters_eq (generics_move (e := e) hgs) (by rw [e.mark_move, ho])
        (by rw [e.inHole_move, hhole]) hnames' f'
      rw [htag.skipAscription hrest' hgo] at hhead
      simpa using hhead

/-! ## Annotations in a script -/

/-- Whether names or the head of a function end before some occurrences. -/
structure Ends (os : List Occurrence) : Prop where
  hole : ∀ o ∈ os.head?, o.inHole = false
  sign : (firstMark os).any (Mark.isSymbolOf goOnSigns) = false

/--
Whether nothing waits for the end of an expression at the mark `m` behind `f`: nothing did before,
or an expression ends here.
-/
def idleAt (idle : Bool) (f : Option Mark) (m : Mark) : Bool :=
  idle || f.any Mark.endsOperand && !m.continuesExpression

/--
Whether nothing waits behind a mark if nothing does at it. Nothing waits in a scope or bracket that
has just been opened. Where one is left, something may wait again, and so around the branches of a
conditional expression; and a scope waits for the end of the condition after `until`.
-/
def idleAfter (idle : Bool) : Mark → Bool
  | m@(.word _) =>
    m.isWordOf ["do", "repeat"] || idle && !m.isWordOf ["if", "elseif", "else", "end", "until"]
  | m@(.symbol _) => m.isSymbolOf openBrackets || idle && !m.isSymbolOf closeBrackets
  | .number => idle
  | .string => idle

/--
Whether a phrase that ends in `last` with annotations, and in `l` without them, leaves nothing
different in front of `os`. An expression has ended behind both or behind neither, unless nothing
waits for its end or it goes on; and an `if` begins an expression behind both or behind neither.
-/
structure EndsLike (idle : Bool) (l last : Mark) (os : List Occurrence) : Prop where
  operand : idle = true ∨ last.endsOperand = l.endsOperand ∨
    (firstMark os).all Mark.continuesExpression = true
  opens : (firstMark os).any (Mark.isWordOf ["if"]) = true →
    last.opensExpression = l.opensExpression

/-- Nothing, or the name of a function. -/
inductive NamePath : List Occurrence → Prop
  | none : NamePath []
  | path {o : Occurrence} {fields : List Occurrence} :
      o.mark.isName = true → o.inHole = false → Fields fields → NamePath (o :: fields)

variable (e)

/--
Occurrences without annotations, and the same with annotations. Without them, the mark before the
occurrences is `b`, and `f` is the last one before that is in no hole; if `idle` is set, nothing
waits for the end of an expression.
-/
inductive Annotated :
    Bool → Option Mark → Option Mark → List Occurrence → List Occurrence → Prop
  | nil {idle : Bool} {b f : Option Mark} : Annotated idle b f [] []
  | hole {idle : Bool} {b f : Option Mark} {o : Occurrence} {os os' : List Occurrence} :
      o.inHole = true → Annotated idle (some o.mark) f os os' →
      Annotated idle b f (o :: os) (e.move o :: os')
  | holeType {idle : Bool} {b f : Option Mark} {o : Occurrence} {sign : String} {last : Mark}
      {ns os os' : List Occurrence} :
      o.inHole = true → ScopeState.leadsToField o.mark = false → e.Typing sign true ns last →
      Annotated idle (some o.mark) f os os' → Annotated idle b f (o :: os) (e.move o :: (ns ++ os'))
  | cast {idle : Bool} {b : Option Mark} {l last : Mark} {ns os os' : List Occurrence} :
      b.any ScopeState.leadsToField = false → l.endsOperand = true →
      e.Typing "::" false ns last → (∀ o ∈ os.head?, o.inHole = false) →
      goesOn (some last) (firstMark os) = false →
      (firstMark os).any (Mark.isSymbolOf ["="]) = false → EndsLike idle l last os →
      Annotated idle b (some l) os os' → Annotated idle b (some l) os (ns ++ os')
  | plain {idle : Bool} {b f : Option Mark} {o : Occurrence} {os os' : List Occurrence} :
      o.inHole = false → o.mark.isWordOf ["local", "for", "function"] = false →
      o.mark.isSymbolOf ["::"] = false →
      Annotated (idleAfter (idleAt idle f o.mark) o.mark) (some o.mark) (some o.mark) os os' →
      Annotated idle b f (o :: os) (e.move o :: os')
  | localNames {idle : Bool} {b f : Option Mark} {o : Occurrence} {l last : Mark}
      {ns ns' os os' : List Occurrence} :
      o.mark = .word "local".toList → o.inHole = false → e.NameList ns ns' l last → Ends os →
      (firstMark os).any (Mark.isSymbolOf ["="]) = false →
      EndsLike (idleAt idle f o.mark) l last os →
      Annotated (idleAt idle f o.mark) (some l) (some l) os os' →
      Annotated idle b f (o :: (ns ++ os)) (e.move o :: (ns' ++ os'))
  | localValues {idle : Bool} {b f : Option Mark} {o eq : Occurrence} {l last : Mark}
      {ns ns' os os' : List Occurrence} :
      o.mark = .word "local".toList → o.inHole = false → e.NameList ns ns' l last →
      eq.mark = .sign "=" → eq.inHole = false →
      Annotated false (some eq.mark) (some eq.mark) os os' →
      Annotated idle b f (o :: (ns ++ eq :: os)) (e.move o :: (ns' ++ e.move eq :: os'))
  | loopNames {idle : Bool} {b f : Option Mark} {o : Occurrence} {l last : Mark}
      {ns ns' os os' : List Occurrence} :
      o.mark = .word "for".toList → o.inHole = false → e.NameList ns ns' l last → Ends os →
      EndsLike (idleAt idle f o.mark) l last os →
      Annotated (idleAt idle f o.mark) (some l) (some l) os os' →
      Annotated idle b f (o :: (ns ++ os)) (e.move o :: (ns' ++ os'))
  | function {idle : Bool} {b f : Option Mark} {o : Occurrence} {last : Mark}
      {path head head' os os' : List Occurrence} :
      o.mark = .word "function".toList → o.inHole = false → NamePath path →
      e.FunctionHead head head' last → Ends os → EndsLike true (.sign ")") last os →
      Annotated true (some (.sign ")")) (some (.sign ")")) os os' →
      Annotated idle b f (o :: (path ++ head ++ os))
        (e.move o :: (path.map e.move ++ head' ++ os'))
  | localFunction {idle : Bool} {b f : Option Mark} {o o' name : Occurrence} {last : Mark}
      {head head' os os' : List Occurrence} :
      o.mark = .word "local".toList → o.inHole = false →
      o'.mark = .word "function".toList → o'.inHole = false →
      name.mark.isName = true → name.inHole = false → e.FunctionHead head head' last → Ends os →
      EndsLike true (.sign ")") last os →
      Annotated true (some (.sign ")")) (some (.sign ")")) os os' →
      Annotated idle b f (o :: o' :: name :: (head ++ os))
        (e.move o :: e.move o' :: e.move name :: (head' ++ os'))

variable {e}

namespace Annotated

variable {idle : Bool} {b f : Option Mark} {os os' : List Occurrence}

/-- With annotations, nothing else is first, but perhaps a type behind an operand. -/
theorem firstMark_eq (h : e.Annotated idle b f os os') :
    firstMark os' = firstMark os ∨
      firstMark os' = some (.sign "::") ∧ (firstMark os).any (Mark.isSymbolOf ["="]) = false := by
  cases h with
  | nil => exact .inl rfl
  | cast _ _ htype _ _ hassigned =>
    obtain ⟨o, ts, rfl, ho, -⟩ := htype.skipType
    exact .inr ⟨by rw [List.cons_append, firstMark_cons, ho], hassigned⟩
  | hole | holeType | plain | localNames | localValues | loopNames | function | localFunction =>
    exact .inl (by simp)

theorem not_first (h : e.Annotated idle b f os os') {symbols : List String}
    (hsymbols : (Mark.sign "::").isSymbolOf symbols = false)
    (hos : (firstMark os).any (Mark.isSymbolOf symbols) = false) :
    (firstMark os').any (Mark.isSymbolOf symbols) = false := by
  rcases h.firstMark_eq with h | ⟨h, -⟩
  · rw [h, hos]
  · rw [h, Option.any_some, hsymbols]

theorem first_assigns (h : e.Annotated idle b f os os') :
    (firstMark os').any (Mark.isSymbolOf ["="]) = (firstMark os).any (Mark.isSymbolOf ["="]) := by
  rcases h.firstMark_eq with h | ⟨h, hassigned⟩
  · rw [h]
  · rw [h, hassigned]
    decide

end Annotated
end Insertion
end LuaVeil
