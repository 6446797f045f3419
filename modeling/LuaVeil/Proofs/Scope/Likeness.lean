/-
# Likeness of states

Two walks over a script, one of them with inserted occurrences, are in states that
differ in inserted sites only, and perhaps in pending actions that can no longer be
done. The marks they have passed last may differ as well, where it makes no
difference.

Main statements:

* `Same.settle` and `Same.keyword`, the two states stay the same but for sites;
* `settle_prune` and `settle_of_continues`, what has been left is dropped sooner or
  later;
* `waits_settle` and `waits_openScope`, where nothing is done whatever mark is next;
* `agree_of_endsOperand`, `agree_of_continues` and `Waits.agree`, marks that do the
  same.
-/
import LuaVeil.Proofs.Scope.Annotations
import LuaVeil.Proofs.Scope.Settling
import Mathlib.Data.List.DropRight

namespace LuaVeil.ScopeState

open Insertion

/-! ## States over inserted occurrences -/

/-- Whether two states differ in nothing but sites of the second that were inserted. -/
def Same (e : Insertion) (s s' : ScopeState) : Prop :=
  ∃ sites, s' = { s with sites } ∧ sites.filter (fun o => !e.isNew o) = s.sites.map e.move

namespace Same

variable {e : Insertion} {s s' : ScopeState}

theorem closeScope (h : Same e s s') : Same e s.closeScope s'.closeScope := by
  obtain ⟨sites, rfl, hsites⟩ := h
  cases s with
  | mk scope outer => cases outer <;> exact ⟨sites, rfl, hsites⟩

theorem openScope (h : Same e s s') : Same e s.openScope s'.openScope := by
  obtain ⟨sites, rfl, hsites⟩ := h
  exact ⟨sites, rfl, hsites⟩

theorem bind (h : Same e s s') (names : List Name) : Same e (s.bind names) (s'.bind names) := by
  obtain ⟨sites, rfl, hsites⟩ := h
  exact ⟨sites, rfl, hsites⟩

theorem leaveBranch (h : Same e s s') :
    Same e { s with inBranch := false } { s' with inBranch := false } := by
  obtain ⟨sites, rfl, hsites⟩ := h
  exact ⟨sites, rfl, hsites⟩

theorem inBranch_eq (h : Same e s s') : s'.inBranch = s.inBranch := by
  obtain ⟨sites, rfl, -⟩ := h
  rfl

theorem isVisible_eq (h : Same e s s') (n : Name) : s'.isVisible n = s.isVisible n := by
  obtain ⟨sites, rfl, -⟩ := h
  rfl

theorem use (h : Same e s s') (o : Occurrence) : Same e (s.use o) (s'.use (e.move o)) := by
  rw [ScopeState.use, ScopeState.use, e.mark_move, h.isVisible_eq]
  obtain ⟨sites, rfl, hsites⟩ := h
  split
  · exact ⟨e.move o :: sites, rfl, by simp [hsites]⟩
  · exact ⟨sites, rfl, hsites⟩

/-- What was inserted may be noted. -/
theorem use_new (h : Same e s s') {o : Occurrence} (ho : e.isNew o = true) :
    Same e s (s'.use o) := by
  rw [ScopeState.use]
  obtain ⟨sites, rfl, hsites⟩ := h
  split
  · exact ⟨o :: sites, rfl, by simp [hsites, ho]⟩
  · exact ⟨sites, rfl, hsites⟩

theorem declareAll (h : Same e s s') (reserved : Reserved) (names : List Occurrence) :
    Same e (s.declareAll reserved names).1 (s'.declareAll reserved (names.map e.move)).1 ∧
      (s'.declareAll reserved (names.map e.move)).2 = (s.declareAll reserved names).2 := by
  have hfold : ∀ (os : List Occurrence) {s s' : ScopeState}, Same e s s' →
      Same e (os.foldl declare s) ((os.map e.move).foldl declare s') := by
    intro os
    induction os with
    | nil => exact fun h => h
    | cons o os ih =>
      rintro s - ⟨sites, rfl, hsites⟩
      refine ih ⟨e.move o :: sites, ?_, by simp [declare, hsites]⟩
      simp [declare]
  have hfree : (names.map e.move).filter (fun o => !reserved.contains o.mark.text) =
      (names.filter fun o => !reserved.contains o.mark.text).map e.move := by
    simp [List.filter_map, Function.comp_def]
  refine ⟨?_, ?_⟩
  · simp only [ScopeState.declareAll, hfree]
    exact hfold _ h
  · simp only [ScopeState.declareAll, hfree, List.map_map, Function.comp_def, e.mark_move]

theorem settlePending (h : Same e s s') (f : Option Mark) (m : Mark) (ps : List Pending) :
    Same e (ScopeState.settlePending f m ps s) (ScopeState.settlePending f m ps s') := by
  induction ps generalizing s s' with
  | nil =>
    obtain ⟨sites, rfl, hsites⟩ := h
    exact ⟨sites, rfl, hsites⟩
  | cons p ps ih =>
    have hleft : s'.hasLeft p = s.hasLeft p := by
      obtain ⟨sites, rfl, -⟩ := h
      rfl
    have hended : s'.hasEnded p f m = s.hasEnded p f m := by
      obtain ⟨sites, rfl, -⟩ := h
      rfl
    rw [ScopeState.settlePending, ScopeState.settlePending, hleft, hended]
    split
    · exact ih h
    split
    · refine ih ?_
      cases p.action with
      | bind names => exact h.bind names
      | close => exact h.closeScope
    · obtain ⟨sites, rfl, hsites⟩ := h
      exact ⟨sites, rfl, hsites⟩

theorem settle (h : Same e s s') (f : Option Mark) (m : Mark) :
    Same e (s.settle f m) (s'.settle f m) := by
  have hpending : s'.pending = s.pending := by
    obtain ⟨sites, rfl, -⟩ := h
    rfl
  rw [ScopeState.settle, ScopeState.settle, hpending]
  exact h.settlePending f m s.pending

theorem enterDo (h : Same e s s') : Same e s.enterDo s'.enterDo := by
  obtain ⟨sites, rfl, hsites⟩ := h
  cases s with
  | mk scope outer brackets conditionals loops =>
    cases loops with
    | nil => exact ⟨sites, rfl, hsites⟩
    | cons l loops =>
      by_cases hl : l.1 = outer.length + 1
      · refine ⟨sites, ?_, ?_⟩ <;>
          simp [ScopeState.enterDo, ScopeState.openScope, depth, hl, ScopeState.bind, hsites]
      · refine ⟨sites, ?_, ?_⟩ <;>
          simp [ScopeState.enterDo, ScopeState.openScope, depth, hl, hsites]

/-- A keyword does the same; of the mark before it only an `if` knows. -/
theorem keyword (h : Same e s s') (word : Text) (branch : Bool) {f f' : Option Mark}
    (hf : word = "if".toList → f'.any Mark.opensExpression = f.any Mark.opensExpression) :
    Same e (s.keyword word branch f) (s'.keyword word branch f') := by
  have hconditional : s'.inConditional = s.inConditional := by
    obtain ⟨sites, rfl, -⟩ := h
    rfl
  have hbranch : Same e { s with inBranch := true } { s' with inBranch := true } := by
    obtain ⟨sites, rfl, hsites⟩ := h
    exact ⟨sites, rfl, hsites⟩
  unfold ScopeState.keyword
  rw [hconditional]
  split
  · exact h.enterDo
  · next hword =>
    unfold enterIf
    rw [hf (by rw [← hword, String.toList_ofList])]
    obtain ⟨sites, rfl, hsites⟩ := h
    split <;> exact ⟨sites, rfl, hsites⟩
  · split
    · exact hbranch
    · exact h.openScope
  · split
    · exact hbranch
    · exact h.closeScope
  · split
    · obtain ⟨sites, rfl, hsites⟩ := h
      exact ⟨sites, rfl, hsites⟩
    · exact h.closeScope.openScope
  · exact h.openScope
  · obtain ⟨sites, rfl, hsites⟩ := h
    exact ⟨sites, rfl, hsites⟩
  · exact h.closeScope
  · exact h

/-- A symbol does the same, but for two colons. -/
theorem atSymbol (h : Same e s s') {b : Text} (hb : (Mark.symbol b).isSymbolOf ["::"] = false)
    (next next' : Cursor) :
    ∃ t t', s.atSymbol b next = (t, next) ∧ s'.atSymbol b next' = (t', next') ∧ Same e t t' ∧
      t.inBranch = s.inBranch := by
  obtain ⟨sites, rfl, hsites⟩ := h
  unfold ScopeState.atSymbol
  dsimp only
  split
  · exact ⟨_, _, rfl, rfl, ⟨sites, rfl, hsites⟩, rfl⟩
  split
  · exact ⟨_, _, rfl, rfl, ⟨sites, rfl, hsites⟩, rfl⟩
  · rw [if_neg (by rw [hb]; decide), if_neg (by rw [hb]; decide)]
    exact ⟨_, _, rfl, rfl, ⟨sites, rfl, hsites⟩, rfl⟩

end Same

/-! ## Actions that can no longer be done -/

variable {s : ScopeState} {f f' : Option Mark} {m : Mark}

/-- The state without the pending actions whose scope or bracket has been left. -/
def prune (s : ScopeState) : ScopeState :=
  { s with pending := s.pending.dropWhile s.hasLeft }

theorem Same.prune {e : Insertion} {s s' : ScopeState} (h : Same e s s') :
    Same e s.prune s'.prune := by
  obtain ⟨sites, rfl, hsites⟩ := h
  exact ⟨sites, rfl, hsites⟩

theorem prune_use (s : ScopeState) (o : Occurrence) : (s.use o).prune = s.prune.use o := by
  have hvisible : s.prune.isVisible o.mark.text = s.isVisible o.mark.text := rfl
  rw [ScopeState.use, ScopeState.use, hvisible]
  split <;> rfl

theorem perform_pending (s : ScopeState) (qs : List Pending) (action : Deferred) :
    ({ s with pending := qs }).perform action = { s.perform action with pending := qs } := by
  cases action with
  | bind names => rfl
  | close =>
    cases s with
    | mk scope outer => cases outer <;> rfl

theorem settlePending_pending (ps qs : List Pending) (s : ScopeState) :
    settlePending f m ps { s with pending := qs } = settlePending f m ps s := by
  induction ps generalizing s qs with
  | nil => rfl
  | cons p ps ih =>
    rw [settlePending, settlePending]
    change (if s.hasLeft p then _ else if s.hasEnded p f m then _ else _) = _
    split
    · exact ih qs s
    split
    · rw [perform_pending, ih]
    · rfl

theorem settlePending_dropWhile (ps : List Pending) (s : ScopeState) :
    settlePending f m (ps.dropWhile s.hasLeft) s = settlePending f m ps s := by
  induction ps with
  | nil => rfl
  | cons p ps ih =>
    rw [List.dropWhile_cons]
    split
    · next h => rw [ih, settlePending.eq_2, if_pos h]
    · rfl

theorem settle_prune (s : ScopeState) (f : Option Mark) (m : Mark) :
    s.prune.settle f m = s.settle f m := by
  show settlePending f m (s.pending.dropWhile s.hasLeft) { s with pending := _ } = _
  rw [settlePending_pending, settlePending_dropWhile]
  rfl

theorem prune_prune (s : ScopeState) : s.prune.prune = s.prune := by
  show { s with pending := (s.pending.dropWhile s.hasLeft).dropWhile s.hasLeft } = s.prune
  rw [List.dropWhile_idempotent]
  rfl

/-- Whether an action is done between two marks. -/
def isDue (s : ScopeState) (f : Option Mark) (m : Mark) : Bool :=
  s.prune.pending.head?.any fun p => s.hasEnded p f m

theorem isDue_congr {f' : Option Mark} {m' : Mark}
    (hends : f'.any Mark.endsOperand = f.any Mark.endsOperand)
    (hcontinues : m'.continuesExpression = m.continuesExpression) : s.isDue f' m' = s.isDue f m := by
  simp only [isDue, hasEnded, hends, hcontinues]

theorem settle_of_not_due (h : s.isDue f m = false) : s.settle f m = s.prune := by
  have hpending : ∀ ps : List Pending,
      ((ps.dropWhile s.hasLeft).head?.any fun p => s.hasEnded p f m) = false →
      settlePending f m ps s = { s with pending := ps.dropWhile s.hasLeft } := by
    intro ps
    induction ps with
    | nil => exact fun _ => rfl
    | cons p ps ih =>
      intro hdue
      rw [List.dropWhile_cons] at hdue
      rw [settlePending, List.dropWhile_cons]
      split
      · next hleft =>
        rw [if_pos hleft] at hdue
        exact ih hdue
      · next hleft =>
        have hended : s.hasEnded p f m = false := by
          rw [if_neg hleft] at hdue
          exact hdue
        rw [hended, if_neg Bool.false_ne_true]
  exact hpending s.pending h

/-- Before a mark that continues an expression no action is done. -/
theorem settle_of_continues (hm : m.continuesExpression = true) : s.settle f m = s.prune :=
  settle_of_not_due ((Option.any_eq_false _ _).2 fun p _ => by simp [hasEnded, hm])

/-- Behind a mark in which no expression ends no action is done. -/
theorem settle_of_not_endsOperand (hf : f.any Mark.endsOperand = false) :
    s.settle f m = s.prune :=
  settle_of_not_due ((Option.any_eq_false _ _).2 fun p _ => by simp [hasEnded, hf])

/-! ### Where an expression goes on -/

/-- The state at a mark in front of which no action is done. -/
def goOn (s : ScopeState) : ScopeState :=
  { s.prune with inBranch := false }

theorem goOn_goOn (s : ScopeState) : s.goOn.goOn = s.goOn := by
  show { s.prune.prune with inBranch := false } = s.goOn
  rw [prune_prune]
  rfl

theorem arrive_of_not_due (h : s.isDue f m = false) : s.arrive f m = s.goOn := by
  rw [arrive, settle_of_not_due h]
  rfl

theorem arrive_of_continues (hm : m.continuesExpression = true) : s.arrive f m = s.goOn := by
  rw [arrive, settle_of_continues hm]
  rfl

theorem arrive_of_not_endsOperand (hf : f.any Mark.endsOperand = false) :
    s.arrive f m = s.goOn := by
  rw [arrive, settle_of_not_endsOperand hf]
  rfl

/-- A name that is no visible variable is passed without a trace. -/
theorem step_of_hidden {reserved : Reserved} {w : Name} {c next : Cursor} {o : Occurrence}
    (ho : o.mark = .word w) (hkeyword : isKeyword w = false) (hhidden : s.isVisible w = false)
    (hdue : s.isDue c.frame (.word w) = false) : s.step reserved c o next = (s.goOn, next) := by
  have hname : o.mark.isName = true := by rw [ho, Mark.isName, hkeyword]; rfl
  have hvisible : s.goOn.isVisible o.mark.text = false := by
    rw [ho]
    exact hhidden
  rw [step_of_name hname, ho, arrive_of_not_due hdue, atName, use, hvisible,
    if_neg Bool.false_ne_true, ite_self]

/-- Behind two colons a type is passed over. -/
theorem step_colons {reserved : Reserved} {c next : Cursor} {o : Occurrence}
    (ho : o.mark = .sign "::") : s.step reserved c o next = (s.goOn, next.skipType) := by
  have hcontinues : o.mark.continuesExpression = true := by
    rw [ho]
    decide
  rw [step_of_symbol ho, arrive_of_continues hcontinues]
  unfold atSymbol
  dsimp only
  rw [if_neg (by decide), if_neg (by decide), if_pos (by decide)]

/-- What the mark before says is whether an expression can have ended there. -/
theorem settle_congr (h : (f'.any Mark.endsOperand && !m.continuesExpression) =
    (f.any Mark.endsOperand && !m.continuesExpression)) : s.settle f' m = s.settle f m := by
  have hended : ∀ s : ScopeState, ∀ p, s.hasEnded p f' m = s.hasEnded p f m := by
    intro s p
    simp only [hasEnded, Bool.and_assoc, h]
  have hpending : ∀ ps s, settlePending f' m ps s = settlePending f m ps s := by
    intro ps
    induction ps with
    | nil => exact fun _ => rfl
    | cons p ps ih =>
      intro s
      rw [settlePending, settlePending, hended, ih, ih]
  exact hpending s.pending s

/-- Whether every pending action waits, whatever marks come. -/
def Waits (s : ScopeState) : Prop :=
  ∀ p ∈ s.pending.head?, s.hasLeft p = false ∧ ∀ f m, s.hasEnded p f m = false

theorem Waits.settle (h : Waits s) (f : Option Mark) (m : Mark) : s.settle f m = s :=
  settle_eq_self fun p hp => ⟨(h p hp).1, (h p hp).2 f m⟩

/-- What still waits after some actions have been done has neither been left nor ended. -/
theorem settlePending_head (ps : List Pending) (s : ScopeState) :
    ∀ p ∈ (settlePending f m ps s).pending.head?,
      (settlePending f m ps s).hasLeft p = false ∧
        (settlePending f m ps s).hasEnded p f m = false := by
  induction ps generalizing s with
  | nil => simp [settlePending]
  | cons p ps ih =>
    rw [settlePending]
    split
    · exact ih s
    split
    · exact ih _
    · next hleft hended =>
      intro q hq
      obtain rfl := Option.some.inj hq
      exact ⟨Bool.eq_false_iff.2 hleft, Bool.eq_false_iff.2 hended⟩

/-- Where an expression can have ended and does not go on, all actions that it holds up are done. -/
theorem waits_settle (hf : f.any Mark.endsOperand = true) (hm : m.continuesExpression = false) :
    Waits (s.settle f m) := by
  intro p hp
  obtain ⟨hleft, hended⟩ := settlePending_head s.pending s p hp
  refine ⟨hleft, fun f' m' => ?_⟩
  have hplace : ((s.settle f m).depth == p.depth &&
      (s.settle f m).brackets.length == p.brackets &&
      (s.settle f m).conditionals.length == p.conditionals) = false := by
    simpa [hasEnded, hf, hm, settle] using hended
  rw [hasEnded, hplace, Bool.false_and, Bool.false_and]

/-- In a scope that has just been opened everything waits. -/
theorem waits_openScope (s : ScopeState) (f : Option Mark) (m : Mark) :
    Waits (s.settle f m).openScope := by
  intro p hp
  have hleft : (s.settle f m).hasLeft p = false := (settlePending_head s.pending s p hp).1
  simp only [hasLeft, Bool.or_eq_false_iff, decide_eq_false_iff_not, Nat.not_lt] at hleft
  have hdepth : p.depth < (s.settle f m).openScope.depth := Nat.lt_succ_of_le hleft.1
  exact ⟨(waits_of_lt (f := f) (m := m) hdepth hleft.2).1,
    fun _ _ => (waits_of_lt hdepth hleft.2).2⟩

/-- In a bracket that has just been opened everything waits. -/
theorem waits_openBracket (s : ScopeState) (f : Option Mark) (m : Mark) (b : Text) :
    Waits { s.arrive f m with brackets := b :: (s.arrive f m).brackets } := by
  intro p hp
  have hleft : (s.settle f m).hasLeft p = false := (settlePending_head s.pending s p hp).1
  simp only [hasLeft, Bool.or_eq_false_iff, decide_eq_false_iff_not, Nat.not_lt] at hleft
  have hbrackets : ((s.settle f m).brackets.length + 1 == p.brackets) = false :=
    beq_false_of_ne (Nat.ne_of_gt (Nat.lt_succ_of_le hleft.2))
  refine ⟨?_, fun f m => by simp [hasEnded, arrive, hbrackets]⟩
  simp only [hasLeft, Bool.or_eq_false_iff, decide_eq_false_iff_not, Nat.not_lt]
  exact ⟨hleft.1, Nat.le_succ_of_le hleft.2⟩

/-- Where everything waits, nothing has been left. -/
theorem Waits.prune_eq (h : Waits s) : s.prune = s := by
  rw [← settle_of_not_endsOperand (f := none) (m := .number) rfl, h.settle]

/-- Everything waits at a mark if it did before, or if an expression has ended there. -/
theorem waits_arrive {idle : Bool} (hwaits : idle = true → Waits s.prune)
    (hidle : idleAt idle f m = true) : Waits (s.arrive f m) := by
  rw [idleAt, Bool.or_eq_true, Bool.and_eq_true, Bool.not_eq_true'] at hidle
  rcases hidle with hidle | ⟨hf, hm⟩
  · have hsettle : s.settle f m = s.prune := by rw [← settle_prune, (hwaits hidle).settle]
    rw [arrive, hsettle]
    exact hwaits hidle
  · exact waits_settle hf hm

theorem Waits.use (h : Waits s) (o : Occurrence) : Waits (s.use o) := by
  unfold ScopeState.use
  split <;> exact h

/-- A keyword that leaves no scope and no branch keeps everything waiting. -/
theorem waits_keyword {w : Text} {idle branch : Bool}
    (hwaits : idle = true → Waits (s.arrive f m)) (hidle : idleAfter idle (.word w) = true) :
    Waits ((s.arrive f m).keyword w branch f') := by
  have hscope : Waits (s.arrive f m).openScope := waits_openScope s f m
  have hstays : (Mark.word w).isWordOf ["do", "repeat"] = false →
      Waits (s.arrive f m) ∧
        (Mark.word w).isWordOf ["if", "elseif", "else", "end", "until"] = false := by
    intro hopens
    rw [idleAfter, hopens, Bool.false_or, Bool.and_eq_true, Bool.not_eq_true'] at hidle
    exact ⟨hwaits hidle.1, hidle.2⟩
  have hnot : ∀ {v : String}, String.ofList w = v →
      (Mark.word v.toList).isWordOf ["do", "repeat"] = false →
      (Mark.word v.toList).isWordOf ["if", "elseif", "else", "end", "until"] = true → False := by
    intro v hv hopens hleaves
    rw [← hv, String.toList_ofList] at hopens hleaves
    rw [(hstays hopens).2] at hleaves
    cases hleaves
  unfold keyword
  split
  · -- a block, perhaps of a loop
    unfold enterDo
    dsimp only
    split
    · split <;> exact hscope
    · exact hscope
  · next hv => exact (hnot hv (by decide) (by decide)).elim
  · next hv =>
    have hthen : Waits (s.arrive f m) := by
      refine (hstays ?_).1
      have hw := congrArg String.toList hv
      rw [String.toList_ofList] at hw
      rw [hw]
      decide
    split
    · exact hthen
    · exact hscope
  · next hv => exact (hnot hv (by decide) (by decide)).elim
  · next hv => exact (hnot hv (by decide) (by decide)).elim
  · exact hscope
  · next hv => exact (hnot hv (by decide) (by decide)).elim
  · next hv => exact (hnot hv (by decide) (by decide)).elim
  · next hdo _ _ _ _ hrepeat _ _ =>
    refine (hstays ?_).1
    rw [Mark.isWordOf, List.any_eq_false]
    intro v hv hvw
    rw [← beq_iff_eq.1 hvw, String.ofList_toList] at hdo hrepeat
    simp only [List.mem_cons, List.not_mem_nil, or_false] at hv
    rcases hv with rfl | rfl
    · exact hdo rfl
    · exact hrepeat rfl

/-- What is told of a mark without a walk is so after a step over it. -/
theorem waits_step_plain {idle : Bool} {reserved : Reserved} {c next : Cursor} {o : Occurrence}
    (hwaits : idle = true → Waits s.prune)
    (hword : o.mark.isWordOf ["local", "for", "function"] = false)
    (hsymbol : o.mark.isSymbolOf ["::"] = false)
    (hidle : idleAfter (idleAt idle c.frame o.mark) o.mark = true) :
    Waits (s.step reserved c o next).1 := by
  have harrive : idleAt idle c.frame o.mark = true → Waits (s.arrive c.frame o.mark) :=
    waits_arrive hwaits
  cases hmark : o.mark with
  | word w =>
    by_cases hname : o.mark.isName = true
    · have hstays : idleAt idle c.frame o.mark = true := by
        have hkeyword : isKeyword w = false := by
          rw [hmark, Mark.isName, Bool.not_eq_true'] at hname
          exact hname
        rw [hmark, idleAfter, Mark.isWordOf_of_not_isKeyword hkeyword (by decide),
          Mark.isWordOf_of_not_isKeyword hkeyword (by decide), ← hmark] at hidle
        simpa using hidle
      rw [step_of_name hname, atName]
      split
      · exact harrive hstays
      · exact (harrive hstays).use o
    · rw [Bool.not_eq_true] at hname
      have hnot : ∀ v ∈ ["local", "for", "function"], w ≠ v.toList := by
        rintro v hv rfl
        rw [hmark] at hword
        cases hword.symm.trans (List.any_eq_true.2 ⟨v, hv, beq_self_eq_true v.toList⟩)
      rw [step_of_keyword hmark hname, atKeyword, if_neg (hnot "local" (by decide)),
        if_neg (hnot "for" (by decide)), if_neg (hnot "function" (by decide))]
      rw [hmark] at hidle harrive ⊢
      exact waits_keyword harrive hidle
  | symbol b =>
    rw [step_of_symbol hmark, atSymbol, ← hmark, hsymbol]
    by_cases hopen : o.mark.isSymbolOf Cursor.openBrackets = true
    · rw [if_pos hopen]
      exact waits_openBracket s c.frame o.mark b
    · have hstays : idleAt idle c.frame o.mark = true ∧
          o.mark.isSymbolOf Cursor.closeBrackets = false := by
        rw [Bool.not_eq_true] at hopen
        rw [hmark] at hopen ⊢
        rw [hmark, idleAfter, hopen] at hidle
        simpa using hidle
      rw [if_neg hopen, hstays.2, if_neg Bool.false_ne_true, if_neg Bool.false_ne_true]
      exact harrive hstays.1
  | number =>
    rw [step_of_literal (.inl hmark)]
    rw [hmark] at hidle harrive ⊢
    exact harrive hidle
  | string =>
    rw [step_of_literal (.inr hmark)]
    rw [hmark] at hidle harrive ⊢
    exact harrive hidle

/-! ## Marks before a place -/

/-- Signs behind which a name in a table can be the key of a field. -/
def keySigns : List String :=
  ["\x7b", ",", ";"]

theorem opensExpression_of_endsOperand {m : Mark} (h : m.endsOperand = true) :
    m.opensExpression = false := by
  cases m with
  | word w =>
    have hopeners : ∀ v ∈ ["return", "and", "or", "not", "in", "until", "while", "if", "elseif"],
        (Mark.word v.toList).endsOperand = false := by
      decide
    rw [Mark.opensExpression, Mark.isWordOf, List.any_eq_false]
    intro v hv hw
    rw [← beq_iff_eq.1 hw, hopeners v hv] at h
    cases h
  | symbol t =>
    rw [Mark.opensExpression, Bool.not_eq_false']
    simp only [Mark.endsOperand, Mark.isSymbolOf, List.any_eq_true] at h ⊢
    obtain ⟨v, hv, ht⟩ := h
    exact ⟨v, (by decide : [")", "]", "\x7d", "..."] ⊆ [")", "]", "\x7d", ";", "..."]) hv, ht⟩
  | number => rfl
  | string => rfl

/-- A symbol of one list is none of a list that has no symbol in common with it. -/
theorem isSymbolOf_disjoint {m : Mark} {symbols others : List String}
    (hdisjoint : ∀ s ∈ symbols, (Mark.sign s).isSymbolOf others = false)
    (h : m.isSymbolOf symbols = true) : m.isSymbolOf others = false := by
  cases m with
  | symbol t =>
    obtain ⟨s, hs, ht⟩ := List.any_eq_true.1 h
    rw [← beq_iff_eq.1 ht]
    exact hdisjoint s hs
  | word | number | string => rfl

theorem not_key_of_endsOperand {m : Mark} (h : m.endsOperand = true) :
    m.isSymbolOf keySigns = false := by
  cases m with
  | symbol t =>
    have hsymbol : (Mark.symbol t).isSymbolOf [")", "]", "\x7d", "..."] = true := h
    exact isSymbolOf_disjoint (by decide) hsymbol
  | word | number | string => rfl

theorem of_endsType {m : Mark} (h : m.endsType = true) :
    leadsToField m = false ∧ m.isSymbolOf keySigns = false := by
  rw [Mark.endsType, Bool.or_eq_true] at h
  rcases h with h | h
  · cases m with
    | word w => exact ⟨rfl, rfl⟩
    | symbol | number | string => cases h
  · exact ⟨isSymbolOf_disjoint (by decide) h, isSymbolOf_disjoint (by decide) h⟩

/-- Whether it makes no difference before `m` which of two marks has been passed last. -/
structure Agree (s : ScopeState) (f f' : Option Mark) (m : Mark) : Prop where
  settle : s.settle f' m = s.settle f m
  opens : m = .word "if".toList → f'.any Mark.opensExpression = f.any Mark.opensExpression
  key : f'.any (Mark.isSymbolOf keySigns) = f.any (Mark.isSymbolOf keySigns)

theorem agree_of_endsOperand (s : ScopeState) {l last : Mark} (m : Mark)
    (hl : l.endsOperand = true) (hlast : last.endsOperand = true) :
    Agree s (some l) (some last) m where
  settle := settle_congr (by simp [hl, hlast])
  opens := fun _ => by
    simp [opensExpression_of_endsOperand hl, opensExpression_of_endsOperand hlast]
  key := by simp [not_key_of_endsOperand hl, not_key_of_endsOperand hlast]

/-- Behind phrases that end alike the next mark does the same. -/
theorem agree_of_endsLike {idle : Bool} {l last : Mark} {os : List Occurrence}
    (h : EndsLike idle l last os) (hwaits : idle = true → Waits s.prune)
    (hl : l.isSymbolOf keySigns = false) (hlast : last.endsType = true) :
    ∀ o ∈ os.head?, Agree s (some l) (some last) o.mark := by
  intro o ho
  have hfirst : firstMark os = some o.mark := by
    rw [firstMark, Option.mem_def.1 ho]
    rfl
  refine ⟨?_, fun hif => ?_, by simp [hl, (of_endsType hlast).2]⟩
  · rcases h.operand with hidle | hends | hcontinues
    · rw [← settle_prune, (hwaits hidle).settle, ← settle_prune, (hwaits hidle).settle]
    · exact settle_congr (by simp [hends])
    · rw [hfirst] at hcontinues
      have hm : o.mark.continuesExpression = true := hcontinues
      exact settle_congr (by simp [hm])
  · have hopens := h.opens (by rw [hfirst, hif]; decide)
    simpa using hopens

/--
Whether two states and places, the second with annotations, are alike; if `idle` is set, everything
waits in the first.
-/
structure Alike (e : Insertion) (idle : Bool) (s s' : ScopeState) (c c' : Cursor) : Prop where
  state : Same e s.prune s'.prune
  waits : idle = true → Waits s.prune
  field : c'.before.any leadsToField = c.before.any leadsToField
  frame : c'.frame = c.frame ∨
    ∀ o ∈ c.ahead.head?, o.inHole = false ∧ Agree s c.frame c'.frame o.mark
  branch : s.inBranch = true → c.frame.any Mark.endsOperand = false

end LuaVeil.ScopeState
