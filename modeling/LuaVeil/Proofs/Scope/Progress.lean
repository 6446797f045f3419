/-
# Walks over any script

A script may hold stray keywords, brackets that match nothing and declarations that are cut off.
A walk goes on all the same. Every reader ends at a place of the script, a step ends behind the
occurrence at which it begins, and so a walk has ended after as many turns as there are
occurrences. On the way the outermost scope stays open, and brackets that are skipped are closed
only while one of them is open.

Main statements:

* `Cursor.StandsAt.onward`, whoever moves forward ends at a place of the script;
* `Cursor.skipBalanced?_of_sees`, from an opening bracket on no closing one comes too early;
* `ScopeState.onward_step`, a step ends behind the occurrence at which it begins;
* `ScopeState.keepsOutermost_turn`, what the outermost scope holds at one turn it holds after it;
* `ScopeState.afterTurns_of_length_le`, a walk has ended after as many turns as there are
  occurrences.
-/
import LuaVeil.Proofs.Scope.Order
import LuaVeil.Proofs.Scope.Types
import Mathlib.Logic.Function.Iterate

namespace LuaVeil

/-! ## Places of a script -/

namespace Cursor

/-- Whether a cursor stands behind the first `i` occurrences of a script. -/
def StandsAt (os : List Occurrence) (i : Nat) (c : Cursor) : Prop :=
  i ≤ os.length ∧ c.ahead = os.drop i

/-- Whether a cursor stands there or at a later place of the script. -/
def StandsFrom (os : List Occurrence) (i : Nat) (c : Cursor) : Prop :=
  ∃ j, i ≤ j ∧ c.StandsAt os j

variable {os : List Occurrence} {i : Nat} {c d : Cursor}

theorem standsAt_start (os : List Occurrence) : (start os).StandsAt os 0 :=
  ⟨Nat.zero_le _, rfl⟩

/-- Whoever moves forward comes to a place of the script. -/
theorem StandsAt.onward (h : c.StandsAt os i) (hcd : Onward c d) : d.StandsFrom os i := by
  obtain ⟨hle, hahead⟩ := h
  obtain ⟨passed, hpassed, -⟩ := hcd
  rw [hahead] at hpassed
  have hlength := congrArg List.length hpassed
  rw [List.length_drop, List.length_append] at hlength
  refine ⟨i + passed.length, Nat.le_add_right _ _, by omega, ?_⟩
  rw [← List.drop_drop, hpassed, List.drop_left]

/-- Behind the next occurrence is the next place. -/
theorem StandsAt.past (h : c.StandsAt os i) {o : Occurrence} {ahead : List Occurrence}
    (hc : c.ahead = o :: ahead) : (c.past o ahead).StandsAt os (i + 1) := by
  have hdrop : os.drop i = o :: ahead := h.2.symm.trans hc
  have hlt : i < os.length := by
    by_contra hlt
    rw [List.drop_eq_nil_of_le (Nat.le_of_not_lt hlt)] at hdrop
    cases hdrop
  refine ⟨hlt, ?_⟩
  show ahead = os.drop (i + 1)
  rw [← List.tail_drop, hdrop, List.tail_cons]

/-! ## Brackets that balance -/

/-- `skipBalanced`, but `none` where a bracket is closed while none is open. -/
def skipBalanced? (angle : Bool) (depth : Nat) (c : Cursor) : Option Cursor :=
  match _ : c.ahead with
  | [] => some c
  | o :: ahead =>
    let next := c.past o ahead
    if o.mark.isSymbolOf (openers angle) then skipBalanced? angle (depth + 1) next
    else if o.mark.isSymbolOf (closers angle) then
      match depth with
      | 0 => none
      | depth + 1 => if depth = 0 then some next else skipBalanced? angle depth next
    else skipBalanced? angle depth next
termination_by c.ahead.length
decreasing_by all_goals simp_all [past]

/-- `skipGenerics` by brackets that balance. -/
def skipGenerics? (c : Cursor) : Option Cursor :=
  if c.sees 0 ["<"] then c.skipBalanced? true 0 else some c

/-- `skipTypeArguments` by brackets that balance. -/
def skipTypeArguments? (name : Text) (c : Cursor) : Option Cursor :=
  if c.sees 0 ["<"] then c.skipBalanced? true 0
  else if name = "typeof".toList ∧ c.sees 0 ["("] then c.skipBalanced? false 0
  else some c

/-- `skipSimpleType?` by brackets that balance; the inner `none` is where no type begins. -/
def skipSimpleType?? (c : Cursor) : Option (Option Cursor) :=
  match c.ahead with
  | [] => some none
  | o :: ahead =>
    match o.mark with
    | .word name => ((c.past o ahead).skipPath.skipTypeArguments? name).map some
    | .string => some (some (c.past o ahead))
    | .symbol s =>
      if (Mark.symbol s).isSymbolOf openBrackets then (c.skipBalanced? false 0).map some
      else if s = "...".toList then some (some (c.past o ahead))
      else some none
    | .number => some none

theorem skipBalanced?_nil {angle : Bool} {depth : Nat} (hc : c.ahead = []) :
    c.skipBalanced? angle depth = some c := by
  rw [skipBalanced?]
  split
  · rfl
  · next h => simp [hc] at h

theorem skipBalanced?_cons {angle : Bool} {depth : Nat} {o : Occurrence} {ahead : List Occurrence}
    (hc : c.ahead = o :: ahead) :
    c.skipBalanced? angle depth =
      if o.mark.isSymbolOf (openers angle) then (c.past o ahead).skipBalanced? angle (depth + 1)
      else if o.mark.isSymbolOf (closers angle) then
        match depth with
        | 0 => none
        | depth + 1 =>
          if depth = 0 then some (c.past o ahead) else (c.past o ahead).skipBalanced? angle depth
      else (c.past o ahead).skipBalanced? angle depth := by
  rw [skipBalanced?]
  split
  · next h => simp [hc] at h
  · next o' ahead' h =>
    obtain ⟨rfl, rfl⟩ := List.cons.inj (hc.symm.trans h)
    rfl

/-- While a bracket is open, no closing one comes too early. -/
theorem skipBalanced?_of_pos {angle : Bool} {depth : Nat} (h : 0 < depth) :
    c.skipBalanced? angle depth = some (c.skipBalanced angle depth) := by
  fun_induction skipBalanced angle depth c with
  | case1 depth c hc => exact skipBalanced?_nil hc
  | case2 depth c o ahead hc next hopen ih =>
    rw [skipBalanced?_cons hc, openers, if_pos (by simpa using hopen)]
    exact ih (Nat.succ_pos _)
  | case3 depth c o ahead hc next hopen hclose hdepth =>
    obtain rfl : depth = 1 := by omega
    rw [skipBalanced?_cons hc, openers, if_neg (by simpa using hopen), closers,
      if_pos (by simpa using hclose)]
    rfl
  | case4 depth c o ahead hc next hopen hclose hdepth ih =>
    obtain ⟨depth, rfl⟩ := Nat.exists_eq_succ_of_ne_zero (Nat.ne_of_gt h)
    rw [skipBalanced?_cons hc, openers, if_neg (by simpa using hopen), closers,
      if_pos (by simpa using hclose)]
    dsimp only
    rw [if_neg (by omega)]
    exact ih (by omega)
  | case5 depth c o ahead hc next hopen hclose ih =>
    rw [skipBalanced?_cons hc, openers, if_neg (by simpa using hopen), closers,
      if_neg (by simpa using hclose)]
    exact ih h

/-- From an opening bracket on, no closing one comes too early. -/
theorem skipBalanced?_of_sees {angle : Bool} (h : c.sees 0 (openers angle) = true) :
    c.skipBalanced? angle 0 = some (c.skipBalanced angle 0) := by
  obtain ⟨o, ahead, hc⟩ := exists_of_sees h
  have hopen : o.mark.isSymbolOf (openers angle) = true := by simpa [sees, peek, hc] using h
  rw [skipBalanced?_cons hc, if_pos hopen, skipBalanced?_of_pos (Nat.succ_pos 0),
    skipBalanced_cons hc, if_pos hopen]

theorem skipGenerics?_eq (c : Cursor) : c.skipGenerics? = some c.skipGenerics := by
  unfold skipGenerics? skipGenerics
  split
  · next h => exact skipBalanced?_of_sees h
  · rfl

theorem skipTypeArguments?_eq (name : Text) (c : Cursor) :
    c.skipTypeArguments? name = some (c.skipTypeArguments name) := by
  unfold skipTypeArguments? skipTypeArguments
  split
  · next h => exact skipBalanced?_of_sees h
  split
  · next h =>
    refine skipBalanced?_of_sees (Bool.of_not_eq_false fun hopen => ?_)
    -- a parenthesis is one of the brackets
    have hparen := any_isSymbolOf_of_subset hopen ["("] (by decide)
    exact Bool.false_ne_true (hparen.symm.trans h.2)
  · rfl

theorem skipSimpleType??_eq (c : Cursor) : c.skipSimpleType?? = some c.skipSimpleType? := by
  unfold skipSimpleType?? skipSimpleType?
  cases hc : c.ahead with
  | nil => rfl
  | cons o ahead =>
    cases hmark : o.mark with
    | word name =>
      simp only [hmark, skipTypeArguments?_eq]
      rfl
    | symbol s =>
      simp only [hmark]
      split
      · next hopen =>
        have hsees : c.sees 0 (openers false) = true := by
          simpa [sees, peek, hc, hmark, openers] using hopen
        rw [skipBalanced?_of_sees hsees]
        rfl
      · split <;> rfl
    | number => simp only [hmark]
    | string => simp only [hmark]

end Cursor

/-! ## The outermost scope -/

namespace ScopeState

/-- The names of the scope around all others. -/
def outermost (s : ScopeState) : List Name :=
  (s.scope :: s.outer).getLast (List.cons_ne_nil _ _)

/-- Whether the outermost scope of `s` is still open in `s'`, with what it held. -/
def KeepsOutermost (s s' : ScopeState) : Prop :=
  s.outermost <:+ s'.outermost

variable {reserved : Reserved} {s s' s'' : ScopeState}

theorem KeepsOutermost.of_eq (h : s'.outermost = s.outermost) : KeepsOutermost s s' :=
  (h ▸ List.suffix_rfl : s.outermost <:+ s'.outermost)

theorem KeepsOutermost.trans (h : KeepsOutermost s s') (h' : KeepsOutermost s' s'') :
    KeepsOutermost s s'' :=
  List.IsSuffix.trans h h'

theorem outermost_openScope (s : ScopeState) : s.openScope.outermost = s.outermost :=
  List.getLast_cons (List.cons_ne_nil _ _)

/-- The only scope is not closed, and of several the innermost is. -/
theorem outermost_closeScope (s : ScopeState) : s.closeScope.outermost = s.outermost := by
  unfold closeScope
  split
  · rfl
  · next scope outer houter => simp only [outermost, houter, List.getLast_cons_cons]

theorem keepsOutermost_bind (s : ScopeState) (names : List Name) :
    KeepsOutermost s (s.bind names) := by
  cases houter : s.outer with
  | nil =>
    simp only [KeepsOutermost, outermost, bind, houter, List.getLast_singleton]
    exact List.suffix_append _ _
  | cons scope outer =>
    exact .of_eq (by simp only [outermost, bind, houter, List.getLast_cons_cons])

theorem keepsOutermost_settle (s : ScopeState) (before : Option Mark) (next : Mark) :
    KeepsOutermost s (s.settle before next) := by
  have hpending : ∀ (ps : List Pending) (s : ScopeState),
      KeepsOutermost s (settlePending before next ps s) := by
    intro ps
    induction ps with
    | nil => exact fun s => .of_eq rfl
    | cons p ps ih =>
      intro s
      rw [settlePending]
      split
      · exact ih s
      split
      · refine KeepsOutermost.trans ?_ (ih _)
        cases p.action with
        | bind names => exact keepsOutermost_bind s names
        | close => exact .of_eq (outermost_closeScope s)
      · exact .of_eq rfl
  exact hpending s.pending s

theorem outermost_use (s : ScopeState) (o : Occurrence) : (s.use o).outermost = s.outermost := by
  unfold use
  split <;> rfl

theorem outermost_declareAll (reserved : Reserved) (s : ScopeState) (names : List Occurrence) :
    (s.declareAll reserved names).1.outermost = s.outermost := by
  have hfold : ∀ (os : List Occurrence) (s : ScopeState),
      (os.foldl declare s).outermost = s.outermost := by
    intro os
    induction os with
    | nil => exact fun s => rfl
    | cons o os ih => exact fun s => ih (s.declare o)
  exact hfold _ s

theorem keepsOutermost_enterFunction (s : ScopeState) (c : Cursor) :
    KeepsOutermost s (s.enterFunction reserved c).1 := by
  have hdeclare : KeepsOutermost s (s.openScope.declareAll reserved c.parameters.1).1 :=
    .of_eq ((outermost_declareAll _ _ _).trans (outermost_openScope s))
  exact hdeclare.trans (keepsOutermost_bind _ _)

theorem keepsOutermost_localFunction (s : ScopeState) (c : Cursor) :
    KeepsOutermost s (s.localFunction reserved c).1 := by
  unfold localFunction
  split
  · exact keepsOutermost_enterFunction s c
  · next o d hd =>
    have hdeclare : KeepsOutermost s (s.declareAll reserved [o]).1 :=
      .of_eq (outermost_declareAll reserved s [o])
    exact (hdeclare.trans (keepsOutermost_bind _ _)).trans (keepsOutermost_enterFunction _ d)

theorem keepsOutermost_localNames (s : ScopeState) (c : Cursor) :
    KeepsOutermost s (s.localNames reserved c).1 := by
  have hdeclare : KeepsOutermost s (s.declareAll reserved c.names.1).1 :=
    .of_eq (outermost_declareAll reserved s c.names.1)
  unfold localNames
  dsimp only
  split
  · exact hdeclare.trans (.of_eq rfl)
  · exact hdeclare.trans (keepsOutermost_bind _ _)

theorem keepsOutermost_function (s : ScopeState) (c : Cursor) :
    KeepsOutermost s (s.function reserved c).1 := by
  unfold function
  split
  · exact keepsOutermost_enterFunction s c
  · next o d hd =>
    have huse : KeepsOutermost s (s.use o) := .of_eq (outermost_use s o)
    exact huse.trans (keepsOutermost_enterFunction _ _)

theorem keepsOutermost_enterDo (s : ScopeState) : KeepsOutermost s s.enterDo := by
  have hopen : KeepsOutermost s s.openScope := .of_eq (outermost_openScope s)
  unfold enterDo
  dsimp only
  split
  · next d names loops hloops =>
    split
    · exact (hopen.trans (.of_eq rfl)).trans (keepsOutermost_bind { s.openScope with loops } names)
    · exact hopen
  · exact hopen

theorem keepsOutermost_keyword (s : ScopeState) (word : Text) (branch : Bool)
    (before : Option Mark) : KeepsOutermost s (s.keyword word branch before) := by
  have hopen : KeepsOutermost s s.openScope := .of_eq (outermost_openScope s)
  have hclose : KeepsOutermost s s.closeScope := .of_eq (outermost_closeScope s)
  unfold keyword
  split
  · exact keepsOutermost_enterDo s
  · unfold enterIf
    split <;> exact .of_eq rfl
  · split
    · exact .of_eq rfl
    · exact hopen
  · split
    · exact .of_eq rfl
    · exact hclose
  · split
    · exact .of_eq rfl
    · exact hclose.trans (.of_eq (outermost_openScope _))
  · exact hopen
  · exact .of_eq rfl
  · exact hclose
  · exact .of_eq rfl

theorem keepsOutermost_atKeyword (s : ScopeState) (word : Text) (branch : Bool)
    (before : Option Mark) (c : Cursor) :
    KeepsOutermost s (s.atKeyword reserved word branch before c).1 := by
  unfold atKeyword
  split
  · split
    · exact keepsOutermost_localFunction s _
    · exact keepsOutermost_localNames s c
  split
  · exact .of_eq (outermost_declareAll reserved s c.names.1)
  split
  · exact keepsOutermost_function s c
  · exact keepsOutermost_keyword s word branch before

theorem outermost_atSymbol (s : ScopeState) (symbol : Text) (c : Cursor) :
    (s.atSymbol symbol c).1.outermost = s.outermost := by
  unfold atSymbol
  dsimp only
  split
  · rfl
  split
  · rfl
  split <;> rfl

theorem keepsOutermost_step (s : ScopeState) (c : Cursor) (o : Occurrence) (next : Cursor) :
    KeepsOutermost s (s.step reserved c o next).1 := by
  have harrive : KeepsOutermost s (s.arrive c.frame o.mark) :=
    keepsOutermost_settle s c.frame o.mark
  cases hmark : o.mark with
  | word w =>
    cases hname : o.mark.isName with
    | true =>
      rw [step_of_name hname]
      refine harrive.trans ?_
      unfold atName
      split
      · exact .of_eq rfl
      · exact .of_eq (outermost_use _ o)
    | false =>
      rw [step_of_keyword hmark hname]
      exact harrive.trans (keepsOutermost_atKeyword _ _ _ _ _)
  | symbol t =>
    rw [step_of_symbol hmark]
    exact harrive.trans (.of_eq (outermost_atSymbol _ _ _))
  | number =>
    rw [step_of_literal (.inl hmark)]
    exact harrive
  | string =>
    rw [step_of_literal (.inr hmark)]
    exact harrive

/-! ## Steps move forward -/

theorem onward_enterFunction (reserved : Reserved) (s : ScopeState) (c : Cursor) :
    c.Onward (s.enterFunction reserved c).2 :=
  c.parameters_passes.onward

theorem onward_localFunction (reserved : Reserved) (s : ScopeState) (c : Cursor) :
    c.Onward (s.localFunction reserved c).2 := by
  unfold localFunction
  split
  · exact onward_enterFunction reserved s c
  · next o d hd => exact (Cursor.name?_passes hd).onward.trans (onward_enterFunction reserved _ d)

theorem onward_localNames (reserved : Reserved) (s : ScopeState) (c : Cursor) :
    c.Onward (s.localNames reserved c).2 := by
  unfold localNames
  dsimp only
  split
  · exact c.names_passes.onward.trans (Cursor.onward_advance _)
  · exact c.names_passes.onward

theorem onward_function (reserved : Reserved) (s : ScopeState) (c : Cursor) :
    c.Onward (s.function reserved c).2 := by
  unfold function
  split
  · exact onward_enterFunction reserved s c
  · next o d hd =>
    have hfields := (Cursor.name?_passes hd).onward.trans (Cursor.onward_skipFields d)
    exact hfields.trans (onward_enterFunction reserved _ _)

theorem onward_atKeyword (reserved : Reserved) (s : ScopeState) (word : Text) (branch : Bool)
    (before : Option Mark) (next : Cursor) :
    next.Onward (s.atKeyword reserved word branch before next).2 := by
  unfold atKeyword
  split
  · split
    · exact (Cursor.onward_advance next).trans (onward_localFunction reserved s _)
    · exact onward_localNames reserved s next
  split
  · exact next.names_passes.onward
  split
  · exact onward_function reserved s next
  · exact .rfl

theorem onward_atSymbol (s : ScopeState) (symbol : Text) (next : Cursor) :
    next.Onward (s.atSymbol symbol next).2 := by
  unfold atSymbol
  dsimp only
  split
  · exact .rfl
  split
  · exact .rfl
  split
  · exact Cursor.onward_skipType next
  · exact .rfl

/-- A step goes on from the place behind the occurrence at which it begins. -/
theorem onward_step (reserved : Reserved) (s : ScopeState) (c : Cursor) (o : Occurrence)
    (next : Cursor) : next.Onward (s.step reserved c o next).2 := by
  unfold step
  dsimp only
  split
  · split
    · exact .rfl
    · exact onward_atKeyword reserved _ _ _ _ next
  · exact onward_atSymbol _ _ next
  · exact .rfl
  · exact .rfl

/-! ## Turns of a walk -/

/-- One turn of a walk. At the end of the script nothing is left to do. -/
def turn (reserved : Reserved) (stand : ScopeState × Cursor) : ScopeState × Cursor :=
  match stand.2.ahead with
  | [] => stand
  | o :: ahead =>
    if o.inHole then (stand.1.atHole stand.2 o, stand.2.past o ahead)
    else stand.1.step reserved stand.2 o (stand.2.past o ahead)

/-- The state and the place of a walk over a script after `n` turns. -/
def afterTurns (reserved : Reserved) (os : List Occurrence) (n : Nat) : ScopeState × Cursor :=
  (turn reserved)^[n] (.initial, .start os)

variable {os : List Occurrence} {i : Nat} {c : Cursor}

theorem afterTurns_succ (reserved : Reserved) (os : List Occurrence) (n : Nat) :
    afterTurns reserved os (n + 1) = turn reserved (afterTurns reserved os n) :=
  Function.iterate_succ_apply' _ _ _

theorem turn_nil (hc : c.ahead = []) : turn reserved (s, c) = (s, c) := by
  simp only [turn, hc]

theorem turn_cons {o : Occurrence} {ahead : List Occurrence} (hc : c.ahead = o :: ahead) :
    turn reserved (s, c) =
      if o.inHole then (s.atHole c o, c.past o ahead)
      else s.step reserved c o (c.past o ahead) := by
  simp only [turn, hc]

theorem keepsOutermost_turn (stand : ScopeState × Cursor) :
    KeepsOutermost stand.1 (turn reserved stand).1 := by
  obtain ⟨s, c⟩ := stand
  cases hc : c.ahead with
  | nil =>
    rw [turn_nil hc]
    exact .of_eq rfl
  | cons o ahead =>
    rw [turn_cons hc]
    split
    · unfold atHole
      split
      · exact .of_eq (outermost_use s o)
      · exact .of_eq rfl
    · exact keepsOutermost_step s c o _

/-- A turn at an occurrence ends behind it. -/
theorem standsFrom_turn (h : c.StandsAt os i) (hi : i < os.length) :
    (turn reserved (s, c)).2.StandsFrom os (i + 1) := by
  have hc : c.ahead = os[i] :: os.drop (i + 1) := h.2.trans (List.drop_eq_getElem_cons hi)
  have hpast : (c.past os[i] (os.drop (i + 1))).StandsAt os (i + 1) := h.past hc
  rw [turn_cons hc]
  split
  · exact ⟨i + 1, Nat.le_refl _, hpast⟩
  · exact hpast.onward (onward_step reserved s c _ _)

/-- A walk takes one turn and goes on. -/
theorem walk_turn (reserved : Reserved) (s : ScopeState) (c : Cursor) :
    (turn reserved (s, c)).1.walk reserved (turn reserved (s, c)).2 = s.walk reserved c := by
  cases hc : c.ahead with
  | nil => rw [turn_nil hc]
  | cons o ahead =>
    rw [walk_cons hc, turn_cons hc]
    split <;> rfl

theorem walk_afterTurns (reserved : Reserved) (os : List Occurrence) (n : Nat) :
    (afterTurns reserved os n).1.walk reserved (afterTurns reserved os n).2 =
      initial.walk reserved (.start os) := by
  induction n with
  | zero => rfl
  | succ n ih =>
    rw [afterTurns_succ]
    exact (walk_turn reserved _ _).trans ih

/-- Up to the end of a script, each turn ends behind the place at which it begins. -/
theorem standsFrom_afterTurns (reserved : Reserved) (os : List Occurrence) (n : Nat) :
    (afterTurns reserved os n).2.StandsFrom os (min n os.length) := by
  induction n with
  | zero => exact ⟨0, Nat.min_le_left _ _, Cursor.standsAt_start os⟩
  | succ n ih =>
    obtain ⟨i, hle, hi⟩ := ih
    rw [afterTurns_succ]
    by_cases hlt : i < os.length
    · obtain ⟨j, hij, hj⟩ := standsFrom_turn (s := (afterTurns reserved os n).1) hi hlt
      exact ⟨j, by omega, hj⟩
    · have hend : (afterTurns reserved os n).2.ahead = [] :=
        hi.2.trans (List.drop_eq_nil_of_le (Nat.le_of_not_lt hlt))
      have hstay : turn reserved (afterTurns reserved os n) = afterTurns reserved os n :=
        turn_nil hend
      refine ⟨i, by omega, ?_⟩
      rw [hstay]
      exact hi

/-- A walk has ended after as many turns as a script has occurrences. -/
theorem afterTurns_of_length_le {n : Nat} (h : os.length ≤ n) :
    (afterTurns reserved os n).1 = initial.walk reserved (.start os) ∧
      (afterTurns reserved os n).2.ahead = [] := by
  obtain ⟨i, hle, hi⟩ := standsFrom_afterTurns reserved os n
  rw [Nat.min_eq_right h] at hle
  have hend : (afterTurns reserved os n).2.ahead = [] :=
    hi.2.trans (List.drop_eq_nil_of_le hle)
  exact ⟨(walk_nil hend).symm.trans (walk_afterTurns reserved os n), hend⟩

/-- The outermost scope is open at every turn, and holds what it held before. -/
theorem keepsOutermost_afterTurns (reserved : Reserved) (os : List Occurrence) {n m : Nat}
    (h : n ≤ m) :
    KeepsOutermost (afterTurns reserved os n).1 (afterTurns reserved os m).1 := by
  induction h with
  | refl => exact .of_eq rfl
  | step _ ih =>
    rw [afterTurns_succ]
    exact ih.trans (keepsOutermost_turn _)

end ScopeState
end LuaVeil
