/-
# Marks of lines

What is known about a line depends on two lists of marks: those of the line, and
those of all lines before it. `facts_of_splitLines` says so, and lets the
properties of lines be stated about one list of marks and a place in it.
-/
import LuaVeil.Lua.Line

namespace LuaVeil

/-- The marks of a row in order. -/
def Row.marks (r : Row) : List Mark :=
  r.spans.flatMap Span.marks

/-- The marks of the lines before line `i`. -/
def marksBefore (lines : List Line) (i : Nat) : List Mark :=
  (lines.take i).flatMap fun l => l.marks

/-- The marks of the lines up to line `i`, that line included. -/
def marksThrough (lines : List Line) (i : Nat) : List Mark :=
  marksBefore lines (i + 1)

/-- The marks through a line are those before it and its own. -/
theorem marksThrough_eq {lines : List Line} {i : Nat} {l : Line} (h : lines[i]? = some l) :
    marksThrough lines i = marksBefore lines i ++ l.marks := by
  rw [marksThrough, marksBefore, List.take_add_one, h]
  simp [marksBefore]

namespace Nesting

@[simp] theorem run_nil (n : Nesting) : n.run [] = n := rfl

@[simp] theorem run_cons (n : Nesting) (m : Mark) (marks : List Mark) :
    n.run (m :: marks) = (n.step m).run marks := rfl

@[simp] theorem run_append (n : Nesting) (xs ys : List Mark) :
    n.run (xs ++ ys) = (n.run xs).run ys := List.foldl_append

end Nesting

/-- The number of brackets that some marks open less the number that they close. -/
def bracketDepth : List Mark → Int
  | [] => 0
  | m :: marks => m.bracketChange + bracketDepth marks

@[simp] theorem bracketDepth_nil : bracketDepth [] = 0 := rfl

@[simp] theorem bracketDepth_cons (m : Mark) (marks : List Mark) :
    bracketDepth (m :: marks) = m.bracketChange + bracketDepth marks := rfl

@[simp] theorem bracketDepth_append (xs ys : List Mark) :
    bracketDepth (xs ++ ys) = bracketDepth xs + bracketDepth ys := by
  induction xs with
  | nil => simp
  | cons m xs ih => simp only [List.cons_append, bracketDepth_cons, ih, Int.add_assoc]

theorem Nesting.brackets_step (n : Nesting) (m : Mark) :
    (n.step m).brackets = n.brackets + m.bracketChange := by
  unfold Nesting.step
  simp only
  split
  · rfl
  split
  · rfl
  split <;> rfl

theorem Nesting.brackets_run (n : Nesting) (marks : List Mark) :
    (n.run marks).brackets = n.brackets + bracketDepth marks := by
  induction marks generalizing n with
  | nil => simp
  | cons m marks ih => rw [run_cons, ih, brackets_step, bracketDepth_cons, Int.add_assoc]

theorem toRow_analyze (n : Nesting) (rows : List Row) :
    (analyze n rows).map Line.toRow = rows := by
  induction rows generalizing n with
  | nil => rfl
  | cons row rows ih => simp [analyze, ih]

/-- The lines of a script have the spans of its rows. -/
theorem toRow_splitLines (spans : List Span) :
    (splitLines spans).map Line.toRow = splitRows spans :=
  toRow_analyze .empty (splitRows spans)

theorem facts_of_analyze {n : Nesting} {rows : List Row} {i : Nat} {l : Line}
    (h : (analyze n rows)[i]? = some l) :
    l.facts = .ofMarks (n.run (marksBefore (analyze n rows) i)) l.marks := by
  induction rows generalizing n i with
  | nil => simp [analyze] at h
  | cons row rows ih =>
    cases i with
    | zero =>
      simp only [analyze, List.getElem?_cons_zero, Option.some.injEq] at h
      subst h
      rfl
    | succ i =>
      simp only [analyze, List.getElem?_cons_succ] at h
      rw [ih h]
      simp only [analyze, marksBefore, List.take_succ_cons, List.flatMap_cons, Nesting.run_append]
      rfl

/-- What is known about a line follows from its marks and those of the lines before it. -/
theorem facts_of_splitLines {spans : List Span} {i : Nat} {l : Line}
    (h : (splitLines spans)[i]? = some l) :
    l.facts = .ofMarks (Nesting.empty.run (marksBefore (splitLines spans) i)) l.marks :=
  facts_of_analyze h

/-- The brackets open after a line are those left open by all marks through it. -/
theorem depthAfter_of_splitLines {spans : List Span} {i : Nat} {l : Line}
    (h : (splitLines spans)[i]? = some l) :
    l.facts.depthAfter = (Nesting.empty.run (marksThrough (splitLines spans) i)).brackets := by
  rw [facts_of_splitLines h, marksThrough_eq h, Nesting.run_append]
  rfl

/-- A line waits for the end of a block exactly when the marks through it do. -/
theorem exitPending_of_splitLines {spans : List Span} {i : Nat} {l : Line}
    (h : (splitLines spans)[i]? = some l) :
    l.facts.exitPending =
      (Nesting.empty.run (marksThrough (splitLines spans) i)).exitAt.isSome := by
  rw [facts_of_splitLines h, marksThrough_eq h, Nesting.run_append]
  rfl

end LuaVeil
