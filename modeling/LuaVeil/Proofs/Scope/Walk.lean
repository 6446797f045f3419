/-
# Sites found by a walk

What a walk does depends on the scopes around it and not on the names and sites
that are already noted. So the sites that the rest of a script adds can be told
from the place alone: `found` lists them, in the order of the script.

Main statements:

* `sites_walk`, a walk adds the found sites to those already noted;
* `found_step`, what one step notes is found first;
* `found_congr`, states that agree once their deferred actions are done find the
  same.
-/
import LuaVeil.Proofs.Scope.Phrases

namespace LuaVeil.ScopeState

/-! ## One step of a walk -/

/-- The state at a mark, when the actions whose expression ends before it have been done. -/
def arrive (s : ScopeState) (f : Option Mark) (m : Mark) : ScopeState :=
  { s.settle f m with inBranch := false }

section Steps

variable {reserved : Reserved} {s : ScopeState} {c next : Cursor} {o : Occurrence}

/-- Nothing changes before a mark if no action is done and no branch begins. -/
theorem arrive_of_settled {f : Option Mark} {m : Mark} (hsettle : s.settle f m = s)
    (hbranch : s.inBranch = false) : s.arrive f m = s := by
  rw [arrive, hsettle, ← hbranch]

theorem step_of_name (hname : o.mark.isName = true) :
    s.step reserved c o next = ((s.arrive c.frame o.mark).atName c o, next) := by
  cases hmark : o.mark with
  | word w =>
    rw [hmark] at hname
    simp only [step, hmark, hname, if_true]
    rfl
  | symbol | number | string => simp [hmark, Mark.isName] at hname

theorem step_of_keyword {w : Text} (hmark : o.mark = .word w) (hname : o.mark.isName = false) :
    s.step reserved c o next = (s.arrive c.frame o.mark).atKeyword reserved w
      (s.settle c.frame o.mark).inBranch c.frame next := by
  rw [hmark] at hname
  simp only [step, hmark, hname, Bool.false_eq_true, if_false]
  rfl

theorem step_of_symbol {b : Text} (hmark : o.mark = .symbol b) :
    s.step reserved c o next = (s.arrive c.frame o.mark).atSymbol b next := by
  simp only [step, hmark]
  rfl

theorem step_of_literal (hmark : o.mark = .number ∨ o.mark = .string) :
    s.step reserved c o next = (s.arrive c.frame o.mark, next) := by
  rcases hmark with hmark | hmark <;>
  · simp only [step, hmark]
    rfl

theorem step_local (ho : o.mark = .word "local".toList)
    (hnext : (next.peek 0).any (Mark.isWordOf ["function"]) = false) :
    s.step reserved c o next = (s.arrive c.frame o.mark).localNames reserved next := by
  rw [step_of_keyword ho (by rw [ho]; decide), atKeyword, if_pos rfl, hnext, if_neg (by simp)]

theorem step_localFunction (ho : o.mark = .word "local".toList)
    (hnext : (next.peek 0).any (Mark.isWordOf ["function"]) = true) :
    s.step reserved c o next = (s.arrive c.frame o.mark).localFunction reserved next.advance := by
  rw [step_of_keyword ho (by rw [ho]; decide), atKeyword, if_pos rfl, hnext, if_pos rfl]

theorem step_for (ho : o.mark = .word "for".toList) :
    s.step reserved c o next = (s.arrive c.frame o.mark).loopNames reserved next := by
  rw [step_of_keyword ho (by rw [ho]; decide), atKeyword, if_neg (by decide), if_pos rfl]

theorem step_function (ho : o.mark = .word "function".toList) :
    s.step reserved c o next = (s.arrive c.frame o.mark).function reserved next := by
  rw [step_of_keyword ho (by rw [ho]; decide), atKeyword, if_neg (by decide), if_neg (by decide),
    if_pos rfl]

end Steps

/-! ## Walks -/

section Walks

variable {reserved : Reserved} {s : ScopeState}

theorem walk_nil {c : Cursor} (hc : c.ahead = []) :
    s.walk reserved c = s := by
  rw [walk]
  split
  · rfl
  · next h => simp [hc] at h

theorem walk_cons {c : Cursor} {o : Occurrence} {ahead : List Occurrence} (hc : c.ahead = o :: ahead) :
    s.walk reserved c =
      if o.inHole then (s.atHole c o).walk reserved (c.past o ahead)
      else (s.step reserved c o (c.past o ahead)).1.walk reserved
        (s.step reserved c o (c.past o ahead)).2 := by
  rw [walk]
  split
  · next h => simp [hc] at h
  · next o' ahead' h =>
    obtain ⟨rfl, rfl⟩ := List.cons.inj (hc.symm.trans h)
    rfl

/-- What a step leads to, a walk goes on from. -/
theorem walk_of_step {c d : Cursor} {o : Occurrence} {os : List Occurrence} {t : ScopeState}
    (hc : c.ahead = o :: os) (hhole : o.inHole = false)
    (hstep : s.step reserved c o (Cursor.after (some o.mark) os) = (t, d)) :
    s.walk reserved c = t.walk reserved d := by
  have hpast : c.past o os = Cursor.after (some o.mark) os := by simp [Cursor.past, Cursor.after, hhole]
  rw [walk_cons hc, hhole, if_neg (by simp), hpast, hstep]

theorem walk_of_hole {c : Cursor} {o : Occurrence} {os : List Occurrence} (hc : c.ahead = o :: os)
    (hhole : o.inHole = true) :
    s.walk reserved c = (s.atHole c o).walk reserved ⟨some o.mark, c.frame, os⟩ := by
  rw [walk_cons hc, if_pos hhole, Cursor.past, if_pos hhole]

end Walks

/-! ## States over noted sites -/

/-- Whether two states are the same, but for the declared names and for older sites of the second. -/
def Over (older : List Occurrence) (s s' : ScopeState) : Prop :=
  ∃ declared, s' = { s with declared, sites := s.sites ++ older }

section Over

variable {older : List Occurrence} {s s' : ScopeState} {reserved : Reserved}

theorem Over.closeScope (h : Over older s s') : Over older s.closeScope s'.closeScope := by
  obtain ⟨d, rfl⟩ := h
  cases s with
  | mk scope outer => cases outer <;> exact ⟨d, rfl⟩

theorem Over.settle (h : Over older s s') (f : Option Mark) (m : Mark) :
    Over older (s.settle f m) (s'.settle f m) := by
  have hpending : ∀ (ps : List Pending) {s s' : ScopeState}, Over older s s' →
      Over older (settlePending f m ps s) (settlePending f m ps s') := by
    intro ps
    induction ps with
    | nil =>
      rintro s - ⟨d, rfl⟩
      exact ⟨d, rfl⟩
    | cons p ps ih =>
      intro s s' h
      have hleft : s'.hasLeft p = s.hasLeft p := by
        obtain ⟨d, rfl⟩ := h
        rfl
      have hended : s'.hasEnded p f m = s.hasEnded p f m := by
        obtain ⟨d, rfl⟩ := h
        rfl
      rw [settlePending, settlePending, hleft, hended]
      split
      · exact ih h
      split
      · refine ih ?_
        obtain ⟨_, _, _, action⟩ := p
        cases action with
        | bind names =>
          obtain ⟨d, rfl⟩ := h
          exact ⟨d, rfl⟩
        | close => exact h.closeScope
      · obtain ⟨d, rfl⟩ := h
        exact ⟨d, rfl⟩
  have hsame : s'.pending = s.pending := by
    obtain ⟨d, rfl⟩ := h
    rfl
  rw [ScopeState.settle, ScopeState.settle, hsame]
  exact hpending s.pending h

theorem Over.use (h : Over older s s') (o : Occurrence) : Over older (s.use o) (s'.use o) := by
  have hvisible : s'.isVisible o.mark.text = s.isVisible o.mark.text := by
    obtain ⟨d, rfl⟩ := h
    rfl
  rw [ScopeState.use, ScopeState.use, hvisible]
  obtain ⟨d, rfl⟩ := h
  split <;> exact ⟨d, rfl⟩

theorem Over.bind (h : Over older s s') (names : List Name) :
    Over older (s.bind names) (s'.bind names) := by
  obtain ⟨d, rfl⟩ := h
  exact ⟨d, rfl⟩

theorem Over.openScope (h : Over older s s') : Over older s.openScope s'.openScope := by
  obtain ⟨d, rfl⟩ := h
  exact ⟨d, rfl⟩

theorem Over.declareAll (h : Over older s s') (reserved : Reserved) (names : List Occurrence) :
    Over older (s.declareAll reserved names).1 (s'.declareAll reserved names).1 := by
  have hfold : ∀ (os : List Occurrence) {s s' : ScopeState}, Over older s s' →
      Over older (os.foldl declare s) (os.foldl declare s') := by
    intro os
    induction os with
    | nil => exact fun h => h
    | cons o os ih =>
      rintro s - ⟨d, rfl⟩
      exact ih ⟨_, rfl⟩
  exact hfold _ h

theorem Over.enterFunction (h : Over older s s') (c : Cursor) :
    Over older (s.enterFunction reserved c).1 (s'.enterFunction reserved c).1 :=
  (h.openScope.declareAll _ _).bind _

theorem Over.localFunction (h : Over older s s') (c : Cursor) :
    Over older (s.localFunction reserved c).1 (s'.localFunction reserved c).1 ∧
      (s.localFunction reserved c).2 = (s'.localFunction reserved c).2 := by
  unfold ScopeState.localFunction
  split
  · exact ⟨h.enterFunction c, rfl⟩
  · exact ⟨((h.declareAll _ _).bind _).enterFunction _, rfl⟩

theorem Over.localNames (h : Over older s s') (c : Cursor) :
    Over older (s.localNames reserved c).1 (s'.localNames reserved c).1 ∧
      (s.localNames reserved c).2 = (s'.localNames reserved c).2 := by
  unfold ScopeState.localNames
  dsimp only
  split
  · refine ⟨?_, rfl⟩
    obtain ⟨d, hd⟩ := h.declareAll reserved c.names.1
    rw [hd]
    exact ⟨d, rfl⟩
  · exact ⟨(h.declareAll _ _).bind _, rfl⟩

theorem Over.loopNames (h : Over older s s') (c : Cursor) :
    Over older (s.loopNames reserved c).1 (s'.loopNames reserved c).1 := by
  have hdepth : s'.depth = s.depth := by
    obtain ⟨d, rfl⟩ := h
    rfl
  obtain ⟨d, hd⟩ := h.declareAll reserved c.names.1
  refine ⟨d, ?_⟩
  simp only [ScopeState.loopNames, hd, hdepth]
  rfl

theorem Over.function (h : Over older s s') (c : Cursor) :
    Over older (s.function reserved c).1 (s'.function reserved c).1 ∧
      (s.function reserved c).2 = (s'.function reserved c).2 := by
  unfold ScopeState.function
  split
  · exact ⟨h.enterFunction c, rfl⟩
  · exact ⟨(h.use _).enterFunction _, rfl⟩

theorem Over.enterDo (h : Over older s s') : Over older s.enterDo s'.enterDo := by
  obtain ⟨d, rfl⟩ := h
  cases s with
  | mk scope outer brackets conditionals loops =>
    cases loops with
    | nil => exact ⟨d, rfl⟩
    | cons l loops =>
      by_cases hl : l.1 = outer.length + 1
      · refine ⟨d, ?_⟩
        simp [ScopeState.enterDo, ScopeState.openScope, depth, hl, ScopeState.bind]
      · refine ⟨d, ?_⟩
        simp [ScopeState.enterDo, ScopeState.openScope, depth, hl]

theorem Over.keyword (h : Over older s s') (word : Text) (branch : Bool) (before : Option Mark) :
    Over older (s.keyword word branch before) (s'.keyword word branch before) := by
  have hconditional : s'.inConditional = s.inConditional := by
    obtain ⟨d, rfl⟩ := h
    rfl
  have hbranch : Over older { s with inBranch := true } { s' with inBranch := true } := by
    obtain ⟨d, rfl⟩ := h
    exact ⟨d, rfl⟩
  unfold ScopeState.keyword
  rw [hconditional]
  split
  · exact h.enterDo
  · obtain ⟨d, rfl⟩ := h
    unfold enterIf
    split <;> exact ⟨d, rfl⟩
  · split
    · exact hbranch
    · exact h.openScope
  · split
    · exact hbranch
    · exact h.closeScope
  · split
    · obtain ⟨d, rfl⟩ := h
      exact ⟨d, rfl⟩
    · exact h.closeScope.openScope
  · exact h.openScope
  · obtain ⟨d, rfl⟩ := h
    exact ⟨d, rfl⟩
  · exact h.closeScope
  · exact h

theorem Over.atKeyword (h : Over older s s') (word : Text) (branch : Bool) (before : Option Mark)
    (next : Cursor) :
    Over older (s.atKeyword reserved word branch before next).1
        (s'.atKeyword reserved word branch before next).1 ∧
      (s.atKeyword reserved word branch before next).2 =
        (s'.atKeyword reserved word branch before next).2 := by
  unfold ScopeState.atKeyword
  split
  · split
    · exact h.localFunction _
    · exact h.localNames _
  split
  · exact ⟨h.loopNames _, rfl⟩
  split
  · exact h.function _
  · exact ⟨h.keyword _ _ _, rfl⟩

theorem Over.atSymbol (h : Over older s s') (symbol : Text) (next : Cursor) :
    Over older (s.atSymbol symbol next).1 (s'.atSymbol symbol next).1 ∧
      (s.atSymbol symbol next).2 = (s'.atSymbol symbol next).2 := by
  obtain ⟨d, rfl⟩ := h
  unfold ScopeState.atSymbol
  dsimp only
  split
  · exact ⟨⟨d, rfl⟩, rfl⟩
  split
  · exact ⟨⟨d, rfl⟩, rfl⟩
  split <;> exact ⟨⟨d, rfl⟩, rfl⟩

theorem Over.atName (h : Over older s s') (c : Cursor) (o : Occurrence) :
    Over older (s.atName c o) (s'.atName c o) := by
  have hkey : s'.isConstructorKey c = s.isConstructorKey c := by
    obtain ⟨d, rfl⟩ := h
    rfl
  unfold ScopeState.atName
  rw [hkey]
  split
  · exact h
  · exact h.use o

/-- A step does the same whatever is noted already. -/
theorem Over.step (h : Over older s s') (reserved : Reserved) (c : Cursor) (o : Occurrence) (next : Cursor) :
    Over older (s.step reserved c o next).1 (s'.step reserved c o next).1 ∧
      (s.step reserved c o next).2 = (s'.step reserved c o next).2 := by
  unfold ScopeState.step
  obtain ⟨d, hd⟩ := h.settle c.frame o.mark
  have hsettled : Over older { s.settle c.frame o.mark with inBranch := false }
      { s'.settle c.frame o.mark with inBranch := false } := ⟨d, by rw [hd]⟩
  have hbranch : (s'.settle c.frame o.mark).inBranch = (s.settle c.frame o.mark).inBranch := by
    rw [hd]
  dsimp only
  rw [hbranch]
  split
  · split
    · exact ⟨hsettled.atName c o, rfl⟩
    · exact hsettled.atKeyword _ _ _ _
  · exact hsettled.atSymbol _ _
  · exact ⟨hsettled, rfl⟩
  · exact ⟨hsettled, rfl⟩

/-- A walk does the same whatever is noted already. -/
theorem Over.walk (h : Over older s s') (reserved : Reserved) (c : Cursor) :
    Over older (s.walk reserved c) (s'.walk reserved c) := by
  fun_induction ScopeState.walk reserved s c generalizing s' with
  | case1 s c hc => rwa [walk_nil hc]
  | case2 s c o ahead hc next hhole =>
    rename_i ih
    rw [walk_cons hc, if_pos hhole]
    refine ih ?_
    unfold atHole
    split
    · exact h.use o
    · exact h
  | case3 s c o ahead hc next hhole after =>
    rename_i ih
    obtain ⟨hstep, hcursor⟩ := h.step reserved c o next
    rw [walk_cons hc, if_neg hhole, ← hcursor]
    exact ih hstep

end Over

/-! ## Found sites -/

/-- The sites that a walk from a place adds, in the order of the script. -/
def found (reserved : Reserved) (s : ScopeState) (f : Option Mark) (os : List Occurrence) :
    List Occurrence :=
  ({ s with declared := [], sites := [] }.walk reserved (.after f os)).sites.reverse

variable {reserved : Reserved} {s s' : ScopeState} {f f' : Option Mark}

@[simp] theorem found_nil : found reserved s f [] = [] := by
  rw [found, walk_nil rfl, List.reverse_nil]

/-- A walk adds the found sites to those already noted. -/
theorem sites_walk (s : ScopeState) (f : Option Mark) (os : List Occurrence) :
    (s.walk reserved (.after f os)).sites = (found reserved s f os).reverse ++ s.sites := by
  have h : Over s.sites { s with declared := [], sites := [] } s := ⟨s.declared, rfl⟩
  obtain ⟨d, hd⟩ := h.walk reserved (.after f os)
  rw [hd, found, List.reverse_reverse]

/-- What a step notes is found first, and then what the rest of the walk finds. -/
theorem found_step {o : Occurrence} {os os' : List Occurrence} (new : List Occurrence)
    (hhole : o.inHole = false)
    (hstep : s.step reserved (.after f (o :: os)) o (.after (some o.mark) os) = (s', .after f' os'))
    (hsites : s'.sites = new.reverse ++ s.sites) :
    found reserved s f (o :: os) = new ++ found reserved s' f' os' := by
  have hwalk : s.walk reserved (.after f (o :: os)) = s'.walk reserved (.after f' os') :=
    walk_of_step rfl hhole hstep
  have hfound := congrArg ScopeState.sites hwalk
  rw [sites_walk, sites_walk, hsites, ← List.append_assoc, ← List.reverse_append] at hfound
  exact List.reverse_inj.1 (List.append_cancel_right hfound)

/-- Two states that agree after their deferred actions find the same. -/
theorem found_congr {os : List Occurrence} (hsites : s.sites = s'.sites)
    (h : ∀ o ∈ os.head?, o.inHole = false ∧ s.settle f o.mark = s'.settle f o.mark) :
    found reserved s f os = found reserved s' f os := by
  cases os with
  | nil => simp
  | cons o os =>
    obtain ⟨hhole, hsettle⟩ := h o rfl
    have hwalk : s.walk reserved (.after f (o :: os)) = s'.walk reserved (.after f (o :: os)) := by
      have hstep : s.step reserved (.after f (o :: os)) o = s'.step reserved (.after f (o :: os)) o := by
        funext next
        simp only [ScopeState.step, Cursor.after, hsettle]
      rw [walk_cons (s := s) rfl, walk_cons (s := s') rfl, hhole, hstep]
      rfl
    have hfound := congrArg ScopeState.sites hwalk
    rw [sites_walk, sites_walk, hsites] at hfound
    exact List.reverse_inj.1 (List.append_cancel_right hfound)

end LuaVeil.ScopeState
