/-
# Brackets of trees

The brackets of a tree are balanced: none is closed that the tree has not opened,
and all are closed in the end. What a production adds to its trees is checked
part by part.

Main statements:

* `nested_parts`, the brackets among the parts of a tree are nested;
* `balanced`, the brackets of a tree are balanced.
-/
import LuaVeil.Proofs.Grammar.Tree
import LuaVeil.Proofs.Line.Marks

namespace LuaVeil

/-! ## Depth -/

/-- The brackets that some terminals open, less those that they close. -/
def termDepth (ts : List Terminal) : Int :=
  bracketDepth (ts.map Terminal.mark)

@[simp] theorem termDepth_nil : termDepth [] = 0 := rfl

@[simp] theorem termDepth_cons (t : Terminal) (ts : List Terminal) :
    termDepth (t :: ts) = t.mark.bracketChange + termDepth ts := rfl

@[simp] theorem termDepth_append (xs ys : List Terminal) :
    termDepth (xs ++ ys) = termDepth xs + termDepth ys := by
  simp [termDepth]

/-- Some parts as terminals. -/
def flatten (ps : List Part) : List Terminal :=
  ps.flatMap Part.terminals

@[simp] theorem flatten_nil : flatten [] = [] := rfl

@[simp] theorem flatten_cons (p : Part) (ps : List Part) :
    flatten (p :: ps) = p.terminals ++ flatten ps := rfl

@[simp] theorem flatten_append (ps qs : List Part) : flatten (ps ++ qs) = flatten ps ++ flatten qs := by
  simp [flatten]

namespace Part

/-- By how much a part changes the number of open brackets, given that trees are balanced. -/
def bracketChange : Part → Int
  | terminal t => t.mark.bracketChange
  | tree _ => 0

/-- Whether a part is a tree of category `c`. -/
def isOf (c : Cat) : Part → Bool
  | terminal _ => false
  | @tree d _ => d == c

end Part

/-- Whether no bracket is closed among the parts that is not opened, given `d` open brackets. -/
def Nested (d : Int) : List Part → Prop
  | [] => d = 0
  | p :: ps => 0 ≤ d ∧ Nested (d + p.bracketChange) ps

/-- Whether the brackets of a tree are balanced. -/
structure IsBalanced {c : Cat} (t : Tree c) : Prop where
  nonneg : ∀ xs ys, t.terminals = xs ++ ys → 0 ≤ termDepth xs
  closed : termDepth t.terminals = 0

@[simp] theorem bracketChange_identifier (n : Identifier) : n.terminal.mark.bracketChange = 0 := by
  simp [Identifier.terminal, Terminal.mark, Mark.bracketChange, Mark.isSymbolOf]

theorem bracketChange_of_mem_commaNames {n : Identifier} {ns : List Identifier} {t : Terminal}
    (h : t ∈ commaNames n ns) : t.mark.bracketChange = 0 := by
  simp only [commaNames, List.mem_cons, List.mem_flatMap, List.not_mem_nil, or_false] at h
  rcases h with rfl | ⟨m, -, rfl | rfl⟩
  · exact bracketChange_identifier _
  · decide
  · exact bracketChange_identifier _

theorem bracketChange_of_mem_functionName {fn : FunctionName} {t : Terminal}
    (h : t ∈ fn.terminals) : t.mark.bracketChange = 0 := by
  simp only [FunctionName.terminals, List.mem_append, List.mem_cons, List.mem_flatMap,
    List.not_mem_nil, or_false] at h
  rcases h with (rfl | ⟨m, -, rfl | rfl⟩) | h
  · exact bracketChange_identifier _
  · decide
  · exact bracketChange_identifier _
  · unfold FunctionName.methodTerminals at h
    cases hm : fn.method with
    | none => simp [hm] at h
    | some m =>
      rw [hm] at h
      simp only [List.mem_cons, List.not_mem_nil, or_false] at h
      rcases h with rfl | rfl
      · decide
      · exact bracketChange_identifier _

theorem bracketChange_of_mem_listed {ps : Parameters} {t : Terminal} (h : t ∈ ps.listed) :
    t.mark.bracketChange = 0 := by
  unfold Parameters.listed at h
  split at h
  · simp at h
  · rw [List.mem_singleton.1 h]
    decide
  · exact bracketChange_of_mem_commaNames h
  · rcases List.mem_append.1 h with h | h
    · exact bracketChange_of_mem_commaNames h
    · simp only [List.mem_cons, List.not_mem_nil, or_false] at h
      rcases h with rfl | rfl <;> decide

/-- What holds of some words and symbols holds of a mark that is one of them. -/
@[elab_as_elim]
theorem Mark.isOf_cases {motive : Mark → Prop} {m : Mark} {words symbols : List String}
    (h : (m.isWordOf words || m.isSymbolOf symbols) = true)
    (word : ∀ w ∈ words, motive (.word w.toList))
    (symbol : ∀ s ∈ symbols, motive (.symbol s.toList)) : motive m := by
  cases m with
  | word w =>
    simp only [isWordOf, isSymbolOf, Bool.or_false, List.any_eq_true, beq_iff_eq] at h
    obtain ⟨v, hv, rfl⟩ := h
    exact word v hv
  | symbol s =>
    simp only [isWordOf, isSymbolOf, Bool.false_or, List.any_eq_true, beq_iff_eq] at h
    obtain ⟨v, hv, rfl⟩ := h
    exact symbol v hv
  | number => simp [isWordOf, isSymbolOf] at h
  | string => simp [isWordOf, isSymbolOf] at h

/-- What holds of numbers, strings, `...` and the words of values holds of an atom. -/
theorem Terminal.isAtom_cases {motive : Mark → Prop} {t : Terminal} (h : t.isAtom = true)
    (number : motive .number) (string : motive .string) (dots : motive (.symbol "...".toList))
    (word : ∀ w ∈ ["nil", "true", "false"], motive (.word w.toList)) : motive t.mark := by
  cases t with
  | word w hw =>
    obtain ⟨v, hv, hsame⟩ := List.any_eq_true.1 h
    obtain rfl := beq_iff_eq.1 hsame
    exact word v hv
  | symbol s hs =>
    obtain rfl : "...".toList = s := by simpa [isAtom, mark, Mark.isSymbolOf] using h
    exact dots
  | number => exact number
  | string => exact string

/-- An operator is no bracket, goes on with a statement and waits for more. -/
theorem of_isBinary {t : Terminal} (h : t.isBinary = true) :
    t.mark.bracketChange = 0 ∧ t.mark.continuesStatement = true ∧ t.mark.awaitsMore = true :=
  Mark.isOf_cases h (by decide) (by decide)

theorem of_isUnary {t : Terminal} (h : t.isUnary = true) :
    t.mark.bracketChange = 0 ∧ t.mark.awaitsMore = true :=
  Mark.isOf_cases h (by decide) (by decide)

theorem bracketChange_of_isAtom {t : Terminal} (h : t.isAtom = true) :
    t.mark.bracketChange = 0 :=
  Terminal.isAtom_cases (motive := fun m => m.bracketChange = 0) h rfl rfl (by decide) (by decide)

section Nested

variable {d : Int} {ps : List Part}

@[simp] theorem nested_nil : Nested d [] ↔ d = 0 := Iff.rfl

@[simp] theorem nested_terminal {t : Terminal} (ht : t.mark.bracketChange = 0) (hd : 0 ≤ d) :
    Nested d (.terminal t :: ps) ↔ Nested d ps := by
  simp [Nested, Part.bracketChange, ht, hd]

@[simp] theorem nested_tree {c : Cat} {t : Tree c} (hd : 0 ≤ d) :
    Nested d (.tree t :: ps) ↔ Nested d ps := by
  simp [Nested, Part.bracketChange, hd]

/-- Terminals that are no brackets keep the depth. -/
theorem nested_ofTerminals {ts : List Terminal} (h : ∀ t ∈ ts, t.mark.bracketChange = 0)
    (hd : 0 ≤ d) : Nested d (Part.ofTerminals ts ++ ps) ↔ Nested d ps := by
  induction ts with
  | nil => simp
  | cons t ts ih =>
    obtain ⟨ht, hts⟩ := List.forall_mem_cons.1 h
    rw [Part.ofTerminals_cons, List.cons_append, nested_terminal ht hd, ih hts]

/-- Parameters keep the depth. -/
theorem nested_parameters {names : Parameters} (hd : 0 ≤ d) :
    Nested d (Part.ofTerminals names.terminals ++ ps) ↔ Nested d ps := by
  have hopen : (Terminal.sign "(").mark.bracketChange = 1 := by decide
  have hclose : (Terminal.sign ")").mark.bracketChange = -1 := by decide
  have hd' : 0 ≤ d + 1 := by omega
  simp only [Parameters.terminals, List.cons_append, Part.ofTerminals_cons,
    Part.ofTerminals_append, List.append_assoc, Nested, Part.bracketChange, hopen, hd, true_and]
  rw [nested_ofTerminals (fun t => bracketChange_of_mem_listed) hd']
  have hd'' : d + 1 + -1 = d := by omega
  simp [Nested, Part.bracketChange, hclose, hd', hd'']

end Nested

@[simp] theorem bracketChange_keyword (w : String) (h : isWord w.toList = true) :
    (Terminal.keyword w h).mark.bracketChange = 0 := by
  simp [Terminal.keyword, Terminal.mark, Mark.bracketChange, Mark.isSymbolOf]

theorem bracketChange_semicolonIf {semicolon : Bool} {t : Terminal} (h : t ∈ semicolonIf semicolon) :
    t.mark.bracketChange = 0 := by
  cases semicolon with
  | false => simp [semicolonIf] at h
  | true =>
    rw [semicolonIf, if_pos rfl, List.mem_singleton] at h
    rw [h]
    decide

@[simp] theorem bracketChange_fieldSign (semicolon : Bool) :
    (fieldSign semicolon).mark.bracketChange = 0 := by
  cases semicolon <;> decide

/-- The brackets among the parts of a tree are nested. -/
theorem nested_parts {c : Cat} (t : Tree c) : Nested 0 t.parts := by
  have hsign : (Terminal.sign "=").mark.bracketChange = 0 ∧
      (Terminal.sign ".").mark.bracketChange = 0 ∧ (Terminal.sign ":").mark.bracketChange = 0 ∧
      (Terminal.sign ",").mark.bracketChange = 0 := by
    decide
  have hends : ∀ ts : List Terminal, (∀ t ∈ ts, t.mark.bracketChange = 0) →
      Nested 0 (Part.ofTerminals ts) := by
    intro ts hts
    have hnil : Nested 0 (Part.ofTerminals ts ++ []) :=
      (nested_ofTerminals hts (Int.le_refl 0)).2 rfl
    rwa [List.append_nil] at hnil
  induction t with
  | next s semicolon rest _ ih =>
    simpa [Tree.parts, nested_ofTerminals fun t => bracketChange_semicolonIf] using ih
  | last s semicolon => simpa [Tree.parts] using hends _ fun t => bracketChange_semicolonIf
  | countLoop n es b => simp [Tree.parts, hsign]
  | eachLoop n ns es b =>
    simp [Tree.parts, Part.ofTerminals_append,
      nested_ofTerminals fun t => bracketChange_of_mem_commaNames]
  | function fn ps b =>
    simp [Tree.parts, Part.ofTerminals_append, nested_parameters,
      nested_ofTerminals fun t => bracketChange_of_mem_functionName]
  | localFunction n ps b => simp [Tree.parts, nested_parameters]
  | localNames n ns => simpa [Tree.parts] using hends _ fun t => bracketChange_of_mem_commaNames
  | localValues n ns es =>
    simp [Tree.parts, Part.ofTerminals_append, hsign,
      nested_ofTerminals fun t => bracketChange_of_mem_commaNames]
  | atom t h => simp [Tree.parts, bracketChange_of_isAtom h]
  | lambda ps b => simp [Tree.parts, nested_parameters]
  | binary a operator h b => simp [Tree.parts, of_isBinary h]
  | unary operator h e => simp [Tree.parts, of_isUnary h]
  | stringArgs t h =>
    simp [Tree.parts, show (Terminal.string t h).mark.bracketChange = 0 by rfl]
  | moreFields f semicolon fs => simp [Tree.parts]
  | index p e | table fs | group e | noArgs | listArgs es | tableArgs fs | keyed k v =>
    simp only [Tree.parts, Nested, Part.bracketChange]
    decide
  | _ => simp [Tree.parts, hsign]

/-- Balanced parts that are nested keep the depth, and never go below it. -/
theorem Nested.balanced {ps : List Part} {d : Int} (h : Nested d ps)
    (hps : ∀ p ∈ ps, p.Satisfies IsBalanced) :
    (∀ xs ys, flatten ps = xs ++ ys → 0 ≤ d + termDepth xs) ∧ d + termDepth (flatten ps) = 0 := by
  induction ps generalizing d with
  | nil =>
    obtain rfl : d = 0 := h
    refine ⟨fun xs ys hxs => ?_, by simp⟩
    obtain ⟨rfl, -⟩ := List.append_eq_nil_iff.1 hxs.symm
    simp
  | cons p ps ih =>
    obtain ⟨hp, hps⟩ := List.forall_mem_cons.1 hps
    obtain ⟨hd, hrest⟩ := h
    obtain ⟨ihsplit, ihall⟩ := ih hrest hps
    have hchange : termDepth p.terminals = p.bracketChange := by
      cases p with
      | terminal t => simp [Part.terminals, Part.bracketChange]
      | tree t => exact hp.closed
    refine ⟨fun xs ys hxs => ?_, ?_⟩
    · rcases List.append_eq_append_iff.1 hxs with ⟨as, rfl, hys⟩ | ⟨as, hp', -⟩
      · have hnonneg := ihsplit as ys hys
        rw [termDepth_append, hchange]
        omega
      · cases p with
        | tree t =>
          have hnonneg := hp.nonneg xs as hp'
          omega
        | terminal t =>
          -- one terminal has no prefix but nothing and itself
          cases xs with
          | nil => simpa using hd
          | cons x xs =>
            obtain ⟨rfl, hnil⟩ := List.cons.inj hp'
            obtain ⟨rfl, rfl⟩ := List.append_eq_nil_iff.1 hnil.symm
            have hnonneg := ihsplit [] _ rfl
            simpa [Part.bracketChange] using hnonneg
    · rw [flatten_cons, termDepth_append, hchange]
      omega

theorem flatten_parts {c : Cat} (t : Tree c) : flatten t.parts = t.terminals :=
  t.terminals_eq_flatMap_parts.symm

/-- The brackets of a tree are balanced. -/
theorem balanced {c : Cat} (t : Tree c) : IsBalanced t := by
  induction t using Tree.induction_on_parts with
  | step t ih =>
    obtain ⟨hsplit, hall⟩ := (nested_parts t).balanced ih
    rw [flatten_parts] at hall hsplit
    refine ⟨fun xs ys h => ?_, by simpa using hall⟩
    simpa using hsplit xs ys h

end LuaVeil
