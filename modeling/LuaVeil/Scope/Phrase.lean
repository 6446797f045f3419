/-
# Phrases that declare names

Around the names that a script declares there are phrases that only Luau or
newer versions of Lua have: types, attributes and generic parameters. The
functions of this module move a cursor over them. None of them checks that a
phrase is well formed; each of them ends at the first occurrence that cannot
belong to the phrase.

Main statements: `length_skipType_le` and its like, no phrase moves backwards.
-/
import LuaVeil.Scope.Occurrence

namespace LuaVeil.Cursor

/-- The symbols that open brackets. -/
def openBrackets : List String :=
  ["(", "[", "\x7b"]

/-- The symbols that close brackets. -/
def closeBrackets : List String :=
  [")", "]", "\x7d"]

/-! ## Balanced brackets -/

/--
Move past the symbol that closes the last of `depth` open brackets, or to the end. The brackets are
those between `<` and `>` if `angle` is set, and all others if not.
-/
def skipBalanced (angle : Bool) (depth : Nat) (c : Cursor) : Cursor :=
  match _ : c.ahead with
  | [] => c
  | o :: ahead =>
    let next := c.past o ahead
    if o.mark.isSymbolOf (if angle then ["<"] else openBrackets) then
      skipBalanced angle (depth + 1) next
    else if o.mark.isSymbolOf (if angle then [">"] else closeBrackets) then
      if depth ≤ 1 then next else skipBalanced angle (depth - 1) next
    else skipBalanced angle depth next
termination_by c.ahead.length
decreasing_by all_goals simp_all [past]

theorem length_skipBalanced_le (angle : Bool) (depth : Nat) (c : Cursor) :
    (c.skipBalanced angle depth).ahead.length ≤ c.ahead.length := by
  fun_induction skipBalanced angle depth c with
  | case1 => exact Nat.le_refl _
  | case2 depth c o ahead hc next _ ih =>
    have : next.ahead.length < c.ahead.length := by simp [next, hc, past]
    omega
  | case3 depth c o ahead hc next => simp [next, hc, past]
  | case4 depth c o ahead hc next _ _ _ ih =>
    have : next.ahead.length < c.ahead.length := by simp [next, hc, past]
    omega
  | case5 depth c o ahead hc next _ _ ih =>
    have : next.ahead.length < c.ahead.length := by simp [next, hc, past]
    omega

/-- Brackets that are not skipped from their middle end after where they begin. -/
theorem length_skipBalanced_lt {angle : Bool} {depth : Nat} {c : Cursor} {o : Occurrence}
    {ahead : List Occurrence} (h : c.ahead = o :: ahead) :
    (c.skipBalanced angle depth).ahead.length < c.ahead.length := by
  have hnext : (c.past o ahead).ahead.length < c.ahead.length := by simp [h, past]
  unfold skipBalanced
  split
  · simp_all
  · next o' ahead' h' =>
    rw [h] at h'
    obtain ⟨rfl, rfl⟩ := List.cons.inj h'
    dsimp only
    repeat' split
    all_goals
      first
        | exact hnext
        | exact Nat.lt_of_le_of_lt (length_skipBalanced_le _ _ _) hnext

/-! ## Types -/

/-- Move past `.Word` as often as it follows. -/
def skipPath (c : Cursor) : Cursor :=
  if _ : c.sees 0 ["."] ∧ c.seesWord 1 then skipPath (c.advanceBy 2) else c
termination_by c.ahead.length
decreasing_by
  rename_i h
  obtain ⟨o, ahead, ho⟩ := exists_of_sees h.1
  exact Nat.lt_of_le_of_lt (length_advance_le _) (length_advance_lt ho)

theorem length_skipPath_le (c : Cursor) : c.skipPath.ahead.length ≤ c.ahead.length := by
  fun_induction skipPath c with
  | case1 c h ih => exact Nat.le_trans ih (length_advanceBy_le 2 c)
  | case2 => exact Nat.le_refl _

/-- Move past question marks. -/
def skipOptional (c : Cursor) : Cursor :=
  if _ : c.sees 0 ["?"] then skipOptional c.advance else c
termination_by c.ahead.length
decreasing_by
  rename_i h
  obtain ⟨o, ahead, ho⟩ := exists_of_sees h
  exact length_advance_lt ho

theorem length_skipOptional_le (c : Cursor) : c.skipOptional.ahead.length ≤ c.ahead.length := by
  fun_induction skipOptional c with
  | case1 c h ih => exact Nat.le_trans ih (length_advance_le c)
  | case2 => exact Nat.le_refl _

/-- Move past the parameters of a type with the given name. -/
def skipTypeArguments (name : Text) (c : Cursor) : Cursor :=
  if c.sees 0 ["<"] then c.skipBalanced true 0
  else if name = "typeof".toList ∧ c.sees 0 ["("] then c.skipBalanced false 0
  else c

theorem length_skipTypeArguments_le (name : Text) (c : Cursor) :
    (c.skipTypeArguments name).ahead.length ≤ c.ahead.length := by
  unfold skipTypeArguments
  repeat' split
  all_goals
    first
      | exact length_skipBalanced_le _ _ _
      | exact Nat.le_refl _

/-- Move past a type without operators; `none` where none begins. -/
def skipSimpleType? (c : Cursor) : Option Cursor :=
  match c.ahead with
  | [] => none
  | o :: ahead =>
    match o.mark with
    | .word name => some ((c.past o ahead).skipPath.skipTypeArguments name)
    | .string => some (c.past o ahead)
    | .symbol s =>
      if (Mark.symbol s).isSymbolOf openBrackets then some (c.skipBalanced false 0)
      else if s = "...".toList then some (c.past o ahead)
      else none
    | .number => none

theorem length_skipSimpleType?_lt {c d : Cursor} (h : c.skipSimpleType? = some d) :
    d.ahead.length < c.ahead.length := by
  unfold skipSimpleType? at h
  split at h
  · simp at h
  · next o ahead ho =>
    have hnext : (c.past o ahead).ahead.length < c.ahead.length := by simp [ho, past]
    split at h
    · simp only [Option.some.injEq] at h
      subst h
      exact Nat.lt_of_le_of_lt
        (Nat.le_trans (length_skipTypeArguments_le _ _) (length_skipPath_le _)) hnext
    · simp only [Option.some.injEq] at h
      subst h
      exact hnext
    · split at h
      · simp only [Option.some.injEq] at h
        subst h
        exact length_skipBalanced_lt ho
      · split at h
        · simp only [Option.some.injEq] at h
          subst h
          exact hnext
        · simp at h
    · simp at h

/-- Move past a type: simple types, each perhaps optional, with operators between them. -/
def skipType (c : Cursor) : Cursor :=
  match _ : c.skipSimpleType? with
  | none => c
  | some d =>
    let e := d.skipOptional
    if e.sees 0 ["|", "&", "->"] then skipType e.advance else e
termination_by c.ahead.length
decreasing_by
  have h := length_skipSimpleType?_lt (by assumption)
  have h' := length_skipOptional_le d
  have h'' := length_advance_le d.skipOptional
  omega

theorem length_skipType_le (c : Cursor) : c.skipType.ahead.length ≤ c.ahead.length := by
  fun_induction skipType c with
  | case1 => exact Nat.le_refl _
  | case2 c d hd e _ ih =>
    have h := length_skipSimpleType?_lt hd
    have h' : e.ahead.length ≤ d.ahead.length := length_skipOptional_le d
    have h'' := length_advance_le e
    omega
  | case3 c d hd e _ =>
    have h := length_skipSimpleType?_lt hd
    have h' : e.ahead.length ≤ d.ahead.length := length_skipOptional_le d
    omega

/-- Move past a colon and a type, if a colon is next. -/
def skipAscription (c : Cursor) : Cursor :=
  if c.sees 0 [":"] then c.advance.skipType else c

theorem length_skipAscription_le (c : Cursor) :
    c.skipAscription.ahead.length ≤ c.ahead.length := by
  unfold skipAscription
  split
  · exact Nat.le_trans (length_skipType_le _) (length_advance_le _)
  · exact Nat.le_refl _

/-! ## Names -/

/-- Move past an attribute of one word between `<` and `>`. -/
def skipAttribute (c : Cursor) : Cursor :=
  if c.sees 0 ["<"] ∧ c.sees 2 [">"] then c.advanceBy 3 else c

theorem length_skipAttribute_le (c : Cursor) : c.skipAttribute.ahead.length ≤ c.ahead.length := by
  unfold skipAttribute
  split
  · exact length_advanceBy_le 3 c
  · exact Nat.le_refl _

/-- The next occurrence if it is a name, and the place after it. -/
def name? (c : Cursor) : Option (Occurrence × Cursor) :=
  match c.ahead with
  | [] => none
  | o :: ahead => if o.mark.isName then some (o, c.past o ahead) else none

theorem length_name?_lt {c d : Cursor} {o : Occurrence} (h : c.name? = some (o, d)) :
    d.ahead.length < c.ahead.length := by
  unfold name? at h
  split at h
  · simp at h
  · next o' ahead ho =>
    split at h
    · simp only [Option.some.injEq, Prod.mk.injEq] at h
      simp [← h.2, ho, past]
    · simp at h

/-- The names between commas, as after `local` or `for`, and the place after them. -/
def names (c : Cursor) : List Occurrence × Cursor :=
  match _ : c.name? with
  | none => ([], c)
  | some (o, d) =>
    let e := d.skipAttribute.skipAscription
    if e.sees 0 [","] then
      let (more, last) := names e.advance
      (o :: more, last)
    else ([o], e)
termination_by c.ahead.length
decreasing_by
  have h := length_name?_lt (by assumption)
  have h' := Nat.le_trans (length_skipAscription_le _) (length_skipAttribute_le d)
  have h'' := length_advance_le d.skipAttribute.skipAscription
  omega

theorem length_names_le (c : Cursor) : c.names.2.ahead.length ≤ c.ahead.length := by
  fun_induction names c with
  | case1 => exact Nat.le_refl _
  | case2 c o d hd e _ more last hm ih =>
    have h := length_name?_lt hd
    have h' : e.ahead.length ≤ d.ahead.length :=
      Nat.le_trans (length_skipAscription_le _) (length_skipAttribute_le d)
    have h'' := length_advance_le e
    rw [hm] at ih
    dsimp only at ih ⊢
    omega
  | case3 c o d hd e _ =>
    have h := length_name?_lt hd
    have h' : e.ahead.length ≤ d.ahead.length :=
      Nat.le_trans (length_skipAscription_le _) (length_skipAttribute_le d)
    dsimp only
    omega

/-- Move past a name, and the fields and method after it, of a function that is not local. -/
def skipFields (c : Cursor) : Cursor :=
  if _ : c.sees 0 [".", ":"] ∧ c.seesWord 1 then skipFields (c.advanceBy 2) else c
termination_by c.ahead.length
decreasing_by
  rename_i h
  obtain ⟨o, ahead, ho⟩ := exists_of_sees h.1
  exact Nat.lt_of_le_of_lt (length_advance_le _) (length_advance_lt ho)

theorem length_skipFields_le (c : Cursor) : c.skipFields.ahead.length ≤ c.ahead.length := by
  fun_induction skipFields c with
  | case1 c h ih => exact Nat.le_trans ih (length_advanceBy_le 2 c)
  | case2 => exact Nat.le_refl _

/-! ## Parameters -/

/-- The names of parameters, after the opening parenthesis, and the place after the closing one. -/
def parameterNames (c : Cursor) : List Occurrence × Cursor :=
  match _ : c.ahead with
  | [] => ([], c)
  | o :: ahead =>
    let next := c.past o ahead
    if o.mark.isName then
      let (more, last) := parameterNames next.skipAscription
      (o :: more, last)
    else if o.mark.isSymbolOf [")"] then ([], next)
    else if o.mark.isSymbolOf ["...", ","] then parameterNames next.skipAscription
    else ([], c)
termination_by c.ahead.length
decreasing_by
  all_goals
    have hc : c.ahead = o :: ahead := by assumption
    have hn : (c.past o ahead).ahead.length < c.ahead.length := by simp [hc, past]
    exact Nat.lt_of_le_of_lt (length_skipAscription_le (c.past o ahead)) hn

theorem length_parameterNames_le (c : Cursor) :
    c.parameterNames.2.ahead.length ≤ c.ahead.length := by
  fun_induction parameterNames c with
  | case1 => exact Nat.le_refl _
  | case2 c o ahead ho next _ more last hm ih =>
    have h := length_skipAscription_le next
    rw [hm] at ih
    have : next.ahead.length < c.ahead.length := by simp [next, ho, past]
    dsimp only at ih ⊢
    omega
  | case3 c o ahead ho next => simp [next, ho, past]
  | case4 c o ahead ho next _ _ _ ih =>
    have h := length_skipAscription_le next
    have : next.ahead.length < c.ahead.length := by simp [next, ho, past]
    omega
  | case5 => exact Nat.le_refl _

/-- Move past generic parameters. -/
def skipGenerics (c : Cursor) : Cursor :=
  if c.sees 0 ["<"] then c.skipBalanced true 0 else c

theorem length_skipGenerics_le (c : Cursor) : c.skipGenerics.ahead.length ≤ c.ahead.length := by
  unfold skipGenerics
  split
  · exact length_skipBalanced_le _ _ _
  · exact Nat.le_refl _

/-- The names of the parameters of a function, and the place where its body begins. -/
def parameters (c : Cursor) : List Occurrence × Cursor :=
  let d := c.skipGenerics
  if d.sees 0 ["("] then
    let (names, e) := d.advance.parameterNames
    (names, e.skipAscription)
  else ([], d)

theorem length_parameters_le (c : Cursor) : c.parameters.2.ahead.length ≤ c.ahead.length := by
  unfold parameters
  have hd := length_skipGenerics_le c
  dsimp only
  split
  · have h := length_skipAscription_le c.skipGenerics.advance.parameterNames.2
    have h' := length_parameterNames_le c.skipGenerics.advance
    have h'' := length_advance_le c.skipGenerics
    dsimp only
    omega
  · exact hd

end LuaVeil.Cursor
