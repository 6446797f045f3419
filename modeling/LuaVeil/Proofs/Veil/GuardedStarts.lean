/-
# What a guard holds

After the `then` of a guard comes what the line begins with. Lines that go on with the line
before, that hold a frame of a block, a label or a declaration get no guard. So a guarded line
begins with a word that can begin a statement, but for two things that are not looked for: a
separator, and a word that begins an expression.

Main statements:

* `Mark.beginsStatement_iff`, with what a line begins that can be wrapped;
* `guarded_starts`, with what the lines in guards begin.
-/
import LuaVeil.Proofs.Veil.Guarded

namespace LuaVeil

namespace Mark

/-! ## Words that begin statements -/

/-- Whether a statement can begin with a word: with a name, or with a keyword of a statement. -/
def beginsStatement : Mark → Bool
  | m@(word w) => !isKeyword w || m.isWordOf
      ["break", "continue", "do", "for", "function", "goto", "if", "local", "repeat", "return",
        "while"]
  | _ => false

/-- Whether an expression, and no statement, can begin with a word. -/
def isOperandWord : Mark → Bool :=
  isWordOf ["false", "nil", "not", "true"]

/-- What stands between statements and is none. -/
def isSeparator : Mark → Bool :=
  isSymbolOf [";"]

/-- Whether no line begins with a mark that can be wrapped: it is a frame, a declaration or a label,
or goes on with the line before. -/
def barsGuard (m : Mark) : Bool :=
  m.isBlockWord || m.isWordOf ["local"] || m.isSymbolOf ["::"] || m.continuesStatement

theorem mem_of_isWordOf {words : List String} {w : Text} (h : (word w).isWordOf words = true) :
    w ∈ words.map String.toList := by
  simp only [isWordOf, List.any_eq_true, beq_iff_eq] at h
  obtain ⟨v, hv, rfl⟩ := h
  exact List.mem_map_of_mem hv

/-- What is left of the marks that can begin a line: a word of a statement, a separator, or a word
of an expression. -/
theorem beginsStatement_iff {m : Mark} (h : m.barsGuard = false) :
    m.beginsStatement = true ↔ m.isSeparator = false ∧ m.isOperandWord = false := by
  cases m with
  | word w =>
    have hsymbol : (word w).isSeparator = false := rfl
    by_cases hkeyword : isKeyword w = true
    · -- the keywords are few enough to look at each
      have hall : ∀ w ∈ keywords, (word w).barsGuard = false →
          ((word w).beginsStatement = true ↔ (word w).isOperandWord = false) := by decide +kernel
      rw [hall w (List.contains_iff_mem.1 hkeyword) h]
      simp [hsymbol]
    · have hbegins : (word w).beginsStatement = true := by simp [beginsStatement, hkeyword]
      have hoperand : (word w).isOperandWord = false := by
        by_contra hmem
        have hwords : ∀ v ∈ ["false", "nil", "not", "true"].map String.toList,
            isKeyword v = true := by decide
        exact hkeyword (hwords w (mem_of_isWordOf (Bool.not_eq_false _ ▸ hmem)))
      simp [hbegins, hoperand, hsymbol]
  | symbol s =>
    have hseparator : (symbol s).isSeparator = true := by
      simp only [barsGuard, continuesStatement, isSymbolOf, List.any_cons, List.any_nil,
        Bool.or_false, Bool.or_eq_false_iff, Bool.not_eq_false', Bool.or_eq_true] at h
      obtain ⟨⟨-, hlabel⟩, hstart⟩ := h
      have hfirst := hstart.resolve_left (by rw [hlabel]; exact Bool.false_ne_true)
      simpa [isSeparator, isSymbolOf] using hfirst
    simp [hseparator, beginsStatement]
  | number => simp [barsGuard, continuesStatement] at h
  | string => simp [barsGuard, continuesStatement] at h

end Mark

/-! ## Lines that can be wrapped -/

/-- A line that can be wrapped begins with a mark that bars no guard. -/
theorem exists_first_of_isWrappable {spans : List Span} {i : Nat} {l : Line}
    (hl : (splitLines spans)[i]? = some l) (h : isWrappable (splitLines spans) i = true) :
    ∃ m rest, l.marks = m :: rest ∧ m.barsGuard = false := by
  have hself := isSelfContained_of_isWrappable hl h
  simp only [Line.isSelfContained, Bool.and_eq_true, Bool.not_eq_true', Line.hasCode,
    Line.startsContinuation, facts_of_splitLines hl, LineFacts.ofMarks] at hself
  obtain ⟨⟨⟨⟨⟨⟨⟨⟨hcode, -⟩, -⟩, hblock⟩, hlocal⟩, hlabel⟩, -⟩, hstart⟩, -⟩ := hself
  obtain ⟨m, hm⟩ := Option.isSome_iff_exists.1 hcode
  obtain ⟨rest, hmarks⟩ := List.head?_eq_some_iff.1 hm
  rw [hmarks, List.any_cons, Bool.or_eq_false_iff] at hblock hlocal hlabel
  rw [hm, Option.any_some] at hstart
  refine ⟨m, rest, hmarks, ?_⟩
  rw [Mark.barsGuard, hblock.1, hlocal.1, hlabel.1, hstart]
  rfl

/-! ## Lines in guards -/

/--
The guards of a script are around whole lines. What comes right after the `then` of a guard can begin
a statement exactly if it is no separator and no word of an expression.
-/
theorem guarded_starts {predicate : OpaquePredicate} (hname : isWord predicate.name = true)
    (p : Probability) (spans : List Span) (source : Source) :
    ∃ chosen : List Nat, (guardLines p predicate spans source).1.2 = chosen.length ∧
      LinesGuarded predicate.name chosen (splitLines spans)
        (splitLines (guardLines p predicate spans source).1.1) ∧
      ∀ i ∈ chosen, ∃ l l' m rest, (splitLines spans)[i]? = some l ∧
        (splitLines (guardLines p predicate spans source).1.1)[i]? = some l' ∧
        l.marks = m :: rest ∧ l'.marks = guardMarks predicate.name (m :: rest) ∧
        (m.beginsStatement = true ↔ m.isSeparator = false ∧ m.isOperandWord = false) := by
  have hguarded := linesGuarded_guardLines p spans source hname
  refine ⟨(Guard.chosen p spans source).1, rfl, hguarded, fun i hi => ?_⟩
  have hwrap : isWrappable (splitLines spans) i = true :=
    mem_wrappableLines.1 ((Guard.choose_sublist p (wrappableLines spans) source).subset hi)
  obtain ⟨l, hl⟩ : ∃ l, (splitLines spans)[i]? = some l := by
    cases hl : (splitLines spans)[i]? with
    | none => rw [isWrappable, hl] at hwrap; cases hwrap
    | some l => exact ⟨l, rfl⟩
  have hlt := (List.getElem?_eq_some_iff.1 hl).1
  have hl' := List.getElem?_eq_getElem (hguarded.length_eq.symm ▸ hlt)
  obtain ⟨m, rest, hmarks, hbars⟩ := exists_first_of_isWrappable hl hwrap
  refine ⟨l, _, m, rest, hl, hl', hmarks, ?_, Mark.beginsStatement_iff hbars⟩
  rw [hguarded.wrapped i l _ hl hl' hi, hmarks]

/-- A line that begins with the keyword of a statement. -/
theorem return_guarded : isWord "_p".toList = true ∧ ∀ source,
    ∃ l' rest, (splitLines (guardLines ⟨1, by decide, by decide⟩ ⟨"_p".toList, .evenProduct⟩
        [⟨.code, "return o:m()".toList, 0, 12⟩] source).1.1)[0]? = some l' ∧
      l'.marks = guardMarks "_p".toList (.word "return".toList :: rest) ∧
      (Mark.word "return".toList).beginsStatement = true := by
  have hname : isWord (OpaquePredicate.mk "_p".toList .evenProduct).name = true := by decide
  refine ⟨hname, fun source => ?_⟩
  obtain ⟨chosen, hcount, -, hstarts⟩ := guarded_starts hname ⟨1, by decide, by decide⟩
    [⟨.code, "return o:m()".toList, 0, 12⟩] source
  have hone : chosen.length = 1 := by
    rw [← hcount]
    show (Guard.chosen _ _ _).1.length = 1
    rw [Guard.chosen, Guard.choose_of_one rfl]
    decide +kernel
  obtain ⟨i, rfl⟩ := List.length_eq_one_iff.1 hone
  obtain ⟨l, l', m, rest, hl, hl', hmarks, hwrapped, hbegins⟩ :=
    hstarts i (List.mem_singleton_self i)
  have hlines : (splitLines [⟨.code, "return o:m()".toList, 0, 12⟩]).map (fun l => l.marks.head?) =
      [some (.word "return".toList)] := by decide +kernel
  have hfirst := congrArg (·[i]?) hlines
  simp only [List.getElem?_map, hl, Option.map_some, hmarks, List.head?_cons] at hfirst
  cases i with
  | zero =>
    obtain rfl : m = .word "return".toList := by simpa using hfirst
    exact ⟨l', rest, hl', hwrapped, hbegins.2 (by decide)⟩
  | succ i => cases hfirst

/-- A line that begins with a separator is guarded, and nothing in Lua can begin with that. -/
theorem separator_guarded :
    let spans : List Span := [⟨.code, "local x = 1\n;(f or g)()".toList, 0, 23⟩]
    let out := (guardLines ⟨1, by decide, by decide⟩ ⟨"_p".toList, .evenProduct⟩ spans
      ⟨fun _ => 0, 0⟩).1
    scan "local x = 1\n;(f or g)()".toList = .ok spans ∧ out.2 = 1 ∧
      render out.1 = "local x = 1\nif _p(1) then ;(f or g)() end".toList ∧
      (splitLines out.1)[1]?.map (fun l => l.marks) =
        some (guardMarks "_p".toList (.symbol [';'] :: codeMarks "(f or g)()".toList)) ∧
      (Mark.symbol [';']).beginsStatement = false := by
  decide +kernel

end LuaVeil
