/-
# Lines that are taken out

A line that can be wrapped holds complete statements, and its neighbours with code neither wait
for it nor go on with it. So when some of these lines are taken out, and with them lines without
code, the lines that are left have other neighbours, but can be wrapped as before, and have the same
brackets open before and after them.

Main statements:

* `any_find?_filter`, what the nearest line with code answers when lines are taken out;
* `isWrappable_survivors` and `bracketDepth_survivors`, what is left of the lines of a script.
-/
import LuaVeil.Proofs.Line.GuardedLines

namespace LuaVeil

/-! ## The nearest of some items -/

/--
If items that are taken out answer no to a question, and so do the items found behind them, then the
item found first answers as before.
-/
theorem any_find?_filter {α : Type} {code gone q : α → Bool} {xs : List α}
    (h : ∀ front x back, xs = front ++ x :: back → gone x = true →
      q x = false ∧ (back.find? code).any q = false) :
    ((xs.filter fun x => code x && !gone x).find? code).any q = (xs.find? code).any q := by
  induction xs with
  | nil => rfl
  | cons x xs ih =>
    have hmore := ih fun front y back hcut => h (x :: front) y back (congrArg (x :: ·) hcut)
    cases hcode : code x with
    | false => rw [List.filter_cons_of_neg (by simp [hcode]), List.find?_cons, hcode, hmore]
    | true =>
      cases hgone : gone x with
      | false =>
        rw [List.filter_cons_of_pos (by simp [hcode, hgone]), List.find?_cons, List.find?_cons, hcode]
      | true =>
        -- what is behind the item answers no, and so does the item
        obtain ⟨hx, hback⟩ := h [] x xs rfl hgone
        rw [List.filter_cons_of_neg (by simp [hgone]), hmore, hback, List.find?_cons, hcode]
        exact hx.symm

namespace Line

/-- Whether a line leaves a statement or a bracket open. -/
def waits (l : Line) : Bool :=
  l.endsOpen || l.facts.depthAfter != 0

theorem waits_of_isSelfContained {l : Line} (h : l.isSelfContained = true) :
    l.waits = false ∧ l.startsContinuation = false ∧ l.facts.depthBefore = 0 ∧
      l.facts.depthAfter = 0 := by
  simp only [isSelfContained, Bool.and_eq_true, beq_iff_eq, Bool.not_eq_true'] at h
  obtain ⟨⟨⟨⟨⟨⟨⟨⟨-, hbefore⟩, hafter⟩, -⟩, -⟩, -⟩, -⟩, hstart⟩, hopen⟩ := h
  exact ⟨by simp [waits, hopen, hafter], hstart, hbefore, hafter⟩

end Line

/-- Whether a line can be wrapped, given the lines before it and after it. -/
theorem isWrappable_append (front : List Line) (l : Line) (back : List Line) :
    isWrappable (front ++ l :: back) front.length =
      (l.isSelfContained && !(front.reverse.find? Line.hasCode).any Line.waits &&
        !(back.find? Line.hasCode).any Line.startsContinuation) := by
  have hbefore : codeBefore (front ++ l :: back) front.length =
      front.reverse.find? Line.hasCode := by
    rw [codeBefore, List.take_left]
  have hafter : codeAfter (front ++ l :: back) front.length = back.find? Line.hasCode := by
    rw [codeAfter, List.drop_length_add_append]
    rfl
  rw [isWrappable, hbefore, hafter, List.getElem?_append_right (Nat.le_refl _), Nat.sub_self]
  rfl

/-! ## Lines that are left -/

section

variable {lines : List Line} {gone : Nat → Bool}

/-- Whether a line with its number is left when some lines, and those without code, are taken out. -/
def survives (gone : Nat → Bool) (x : Line × Nat) : Bool :=
  x.1.hasCode && !gone x.2

/-- The lines that are left, with their numbers. -/
def survivors (lines : List Line) (gone : Nat → Bool) : List (Line × Nat) :=
  lines.zipIdx.filter (survives gone)

theorem of_zipIdx_eq_append {front back : List (Line × Nat)} {x : Line × Nat}
    (h : lines.zipIdx = front ++ x :: back) :
    lines = front.map Prod.fst ++ x.1 :: back.map Prod.fst ∧
      x.2 = (front.map Prod.fst).length := by
  constructor
  · have hlines := congrArg (List.map Prod.fst) h
    rwa [List.zipIdx_map_fst, List.map_append, List.map_cons] at hlines
  · have hplace := congrArg (·[front.length]?) h
    simp only [List.getElem?_zipIdx, List.getElem?_append_right (Nat.le_refl _), Nat.sub_self,
      List.getElem?_cons_zero, Nat.zero_add, Option.map_eq_some_iff] at hplace
    obtain ⟨l, -, rfl⟩ := hplace
    exact (List.length_map _).symm

/-- The lines before and after a line that is left are left of those before and after it. -/
theorem exists_cut_of_survivor {k : Nat} {x : Line × Nat}
    (h : (survivors lines gone)[k]? = some x) :
    ∃ front back, lines.zipIdx = front ++ x :: back ∧ survives gone x = true ∧
      (front.filter (survives gone)).length = k ∧
      survivors lines gone =
        front.filter (survives gone) ++ x :: back.filter (survives gone) := by
  obtain ⟨hk, hx⟩ := List.getElem?_eq_some_iff.1 h
  have hsplit : lines.zipIdx.filter (survives gone) =
      (survivors lines gone).take k ++ x :: (survivors lines gone).drop (k + 1) := by
    rw [← hx, ← List.drop_eq_getElem_cons hk, List.take_append_drop, survivors]
  obtain ⟨front, more, hcut, hfront, hmore⟩ := List.filter_eq_append_iff.1 hsplit
  obtain ⟨gap, back, rfl, hgap, hleft, hback⟩ := List.filter_eq_cons_iff.1 hmore
  have hnone : gap.filter (survives gone) = [] := List.filter_eq_nil_iff.2 hgap
  have htake : (front ++ gap).filter (survives gone) = (survivors lines gone).take k := by
    rw [List.filter_append, hnone, hfront, List.append_nil]
  refine ⟨front ++ gap, back, by rw [hcut, List.append_assoc], hleft, ?_, ?_⟩
  · rw [htake, List.length_take_of_le hk.le]
  · rw [htake, hback]
    exact hsplit

variable (h : ∀ i, gone i = true → isWrappable lines i = true)

include h

/-- What is known of a line that is taken out, and of its neighbours with code. -/
theorem of_gone {front back : List (Line × Nat)} {x : Line × Nat}
    (hcut : lines.zipIdx = front ++ x :: back) (hx : gone x.2 = true) :
    x.1.isSelfContained = true ∧
      (front.reverse.find? fun y => y.1.hasCode).any (fun y => y.1.waits) = false ∧
      (back.find? fun y => y.1.hasCode).any (fun y => y.1.startsContinuation) = false := by
  obtain ⟨hlines, hplace⟩ := of_zipIdx_eq_append hcut
  have hwrap := h x.2 hx
  rw [hplace, hlines, isWrappable_append, ← List.map_reverse, List.find?_map, List.find?_map,
    Option.any_map, Option.any_map] at hwrap
  simp only [Bool.and_eq_true, Bool.not_eq_true', and_assoc] at hwrap
  exact hwrap

/-- The nearest line with code that is left before a line waits as the nearest one did. -/
theorem waits_before_survivor {front back : List (Line × Nat)}
    (hcut : lines.zipIdx = front ++ back) :
    ((front.filter (survives gone)).reverse.find? fun y => y.1.hasCode).any (fun y => y.1.waits) =
      (front.reverse.find? fun y => y.1.hasCode).any fun y => y.1.waits := by
  rw [← List.filter_reverse]
  refine @any_find?_filter _ _ (fun y : Line × Nat => gone y.2) _ _
    fun after y before hfront hy => ?_
  have hcut' : lines.zipIdx = before.reverse ++ y :: (after.reverse ++ back) := by
    rw [hcut, ← List.reverse_reverse front, hfront]
    simp
  obtain ⟨hself, hwaits, -⟩ := of_gone h hcut' hy
  rw [List.reverse_reverse] at hwaits
  exact ⟨(Line.waits_of_isSelfContained hself).1, hwaits⟩

/-- The nearest line with code that is left after a line begins as the nearest one did. -/
theorem starts_after_survivor {front back : List (Line × Nat)}
    (hcut : lines.zipIdx = front ++ back) :
    ((back.filter (survives gone)).find? fun y => y.1.hasCode).any
      (fun y => y.1.startsContinuation) =
        (back.find? fun y => y.1.hasCode).any fun y => y.1.startsContinuation := by
  refine @any_find?_filter _ _ (fun y : Line × Nat => gone y.2) _ _
    fun before y after hback hy => ?_
  have hcut' : lines.zipIdx = (front ++ before) ++ y :: after := by
    rw [hcut, hback, List.append_assoc]
  obtain ⟨hself, -, hstarts⟩ := of_gone h hcut' hy
  exact ⟨(Line.waits_of_isSelfContained hself).2.1, hstarts⟩

/-- A line that is left can be wrapped as before. -/
theorem isWrappable_survivors {k : Nat} {x : Line × Nat}
    (hk : (survivors lines gone)[k]? = some x) :
    isWrappable ((survivors lines gone).map Prod.fst) k = isWrappable lines x.2 := by
  obtain ⟨front, back, hcut, -, hlength, hleft⟩ := exists_cut_of_survivor hk
  obtain ⟨hlines, hplace⟩ := of_zipIdx_eq_append hcut
  have hwrap : isWrappable lines x.2 = isWrappable (front.map Prod.fst ++ x.1 ::
      back.map Prod.fst) (front.map Prod.fst).length := by
    rw [← hlines, hplace]
  have hnumber : k = ((front.filter (survives gone)).map Prod.fst).length := by
    rw [List.length_map, hlength]
  have hbefore := waits_before_survivor h hcut
  have hafter := starts_after_survivor h (hcut.trans (List.append_cons front x back))
  rw [hwrap, hleft, List.map_append, List.map_cons, hnumber]
  simp only [isWrappable_append, ← List.map_reverse, List.find?_map, Option.any_map]
  exact congrArg₂ (· && ·) (congrArg (_ && !·) hbefore) (congrArg (!·) hafter)

end

/-! ## Lines of a script that are left -/

theorem hasCode_of_splitLines {spans : List Span} {i : Nat} {l : Line}
    (h : (splitLines spans)[i]? = some l) : l.hasCode = l.marks.head?.isSome := by
  rw [Line.hasCode, facts_of_splitLines h]
  rfl

/-- Lines that close the brackets that they open can be taken out. -/
theorem bracketDepth_filter {gone : Nat → Bool} {xs : List (Line × Nat)}
    (h : ∀ x ∈ xs, survives gone x = false → bracketDepth x.1.marks = 0) :
    bracketDepth ((xs.filter (survives gone)).flatMap fun x => x.1.marks) =
      bracketDepth (xs.flatMap fun x => x.1.marks) := by
  induction xs with
  | nil => rfl
  | cons x xs ih =>
    obtain ⟨hx, hxs⟩ := List.forall_mem_cons.1 h
    rw [List.flatMap_cons, bracketDepth_append, ← ih hxs]
    cases hleft : survives gone x with
    | true => rw [List.filter_cons_of_pos hleft, List.flatMap_cons, bracketDepth_append]
    | false => rw [List.filter_cons_of_neg (by simp [hleft]), hx hleft, Int.zero_add]

section

variable {spans out : List Span} {gone : Nat → Bool}
  (h : ∀ i, gone i = true → isWrappable (splitLines spans) i = true)

include h

/-- A line that is taken out closes the brackets that it opens. -/
theorem bracketDepth_of_not_survives {x : Line × Nat} (hx : x ∈ (splitLines spans).zipIdx)
    (hnot : survives gone x = false) : bracketDepth x.1.marks = 0 := by
  have hl : (splitLines spans)[x.2]? = some x.1 := List.mk_mem_zipIdx_iff_getElem?.1 hx
  rcases Bool.and_eq_false_iff.1 hnot with hcode | hgone
  · rw [hasCode_of_splitLines hl, Option.isSome_eq_false_iff, Option.isNone_iff_eq_none,
      List.head?_eq_none_iff] at hcode
    rw [hcode, bracketDepth_nil]
  · obtain ⟨-, -, hbefore, hafter⟩ := Line.waits_of_isSelfContained
      (isSelfContained_of_isWrappable hl (h x.2 (by simpa using hgone)))
    simp only [facts_of_splitLines hl, LineFacts.ofMarks] at hbefore hafter
    rwa [Nesting.brackets_run, hbefore, Int.zero_add] at hafter

/-- The same brackets are open before a line that is left. -/
theorem bracketDepth_survivors {k : Nat} {x : Line × Nat}
    (hk : (survivors (splitLines spans) gone)[k]? = some x) :
    bracketDepth (marksBefore ((survivors (splitLines spans) gone).map Prod.fst) k) =
      bracketDepth (marksBefore (splitLines spans) x.2) := by
  obtain ⟨front, back, hcut, -, rfl, hleft⟩ := exists_cut_of_survivor hk
  obtain ⟨hlines, hplace⟩ := of_zipIdx_eq_append hcut
  have hbefore : marksBefore (splitLines spans) x.2 = front.flatMap fun y => y.1.marks := by
    rw [marksBefore, hplace, hlines, List.take_left, List.flatMap_map]
  have hnumber : (front.filter (survives gone)).length =
      ((front.filter (survives gone)).map Prod.fst).length := (List.length_map _).symm
  rw [hbefore, marksBefore, hleft, List.map_append, hnumber, List.take_left, List.flatMap_map]
  refine bracketDepth_filter fun y hy => bracketDepth_of_not_survives h ?_
  rw [hcut]
  exact List.mem_append_left _ hy

variable (hmarks : (splitLines out).map (fun l => l.marks) =
  (survivors (splitLines spans) gone).map fun x => x.1.marks)

include hmarks

/-- A line that is left is known as before, but for exits that wait. -/
theorem facts_of_survivor {k : Nat} {x : Line × Nat} {l' : Line}
    (hk : (survivors (splitLines spans) gone)[k]? = some x)
    (hl' : (splitLines out)[k]? = some l') :
    ∃ exitPending, l'.facts = { x.1.facts with exitPending } := by
  have hl : (splitLines spans)[x.2]? = some x.1 :=
    List.mk_mem_zipIdx_iff_getElem?.1 (List.mem_filter.1 (List.mem_of_getElem? hk)).1
  have hsame : l'.marks = x.1.marks := by
    have hplace := congrArg (·[k]?) hmarks
    simpa only [List.getElem?_map, hl', hk, Option.map_some, Option.some.injEq] using hplace
  have hbefore : marksBefore (splitLines out) k =
      marksBefore ((survivors (splitLines spans) gone).map Prod.fst) k := by
    have htake := congrArg (fun marks => (marks.take k).flatten) hmarks
    simpa only [marksBefore, List.flatMap_def, List.map_take, List.map_map, Function.comp_def]
      using htake
  refine ⟨(Nesting.run (Nesting.empty.run (marksBefore (splitLines out) k))
    x.1.marks).exitAt.isSome, ?_⟩
  rw [facts_of_splitLines hl', facts_of_splitLines hl, hsame]
  refine ofMarks_congr ?_ x.1.marks
  rw [Nesting.brackets_run, Nesting.brackets_run, hbefore, bracketDepth_survivors h hk]

/-- A line that is left can be wrapped as before. -/
theorem isWrappable_of_survivor {k : Nat} {x : Line × Nat}
    (hk : (survivors (splitLines spans) gone)[k]? = some x) :
    isWrappable (splitLines out) k = isWrappable (splitLines spans) x.2 := by
  have hlength : (splitLines out).length = (survivors (splitLines spans) gone).length := by
    simpa only [List.length_map] using congrArg List.length hmarks
  have hfacts : ∀ j (hj : j < (splitLines out).length) y,
      (survivors (splitLines spans) gone)[j]? = some y →
        ∃ exitPending, ((splitLines out)[j]).facts = { y.1.facts with exitPending } :=
    fun j hj y hy => facts_of_survivor h hmarks hy (List.getElem?_eq_getElem hj)
  have hseen : List.Forall₂ Line.SeenAs ((survivors (splitLines spans) gone).map Prod.fst)
      (splitLines out) := by
    refine List.forall₂_iff_get.2 ⟨by rw [List.length_map, hlength], fun j hj hj' => ?_⟩
    obtain ⟨exitPending, hknown⟩ := hfacts j hj' _
      (List.getElem?_eq_getElem (by simpa using hj))
    exact .of_facts (by simpa using hknown)
  rw [← isWrappable_survivors h hk]
  refine isWrappable_of_seenAs hseen ?_
  have hk' : k < (splitLines out).length := hlength ▸ (List.getElem?_eq_some_iff.1 hk).1
  obtain ⟨exitPending, hknown⟩ := hfacts k hk' x hk
  rw [List.getElem?_eq_getElem hk', List.getElem?_map, hk, Option.any_some, Option.map_some,
    Option.any_some, Line.isSelfContained_of_facts hknown]

end

end LuaVeil
