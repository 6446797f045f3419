/-
# Exits that wait for their block to end

A statement that leaves its block is the last one in it: nothing may be put after
it until the block ends. An exit waits as long as no closing mark has taken the
number of open blocks below what it was at the exit.

The nesting of a line remembers one exit, the last that was met. Main statements:

* `Nesting.exitAt_run_eq_some_iff`, what is remembered is the last exit, as long as it waits;
* `isBoundaryAfter_iff`, a new statement may follow a line if nothing else forbids
  it and the last exit does not wait;
* `waitingExit_forbids_boundary_iff`, so a waiting exit forbids a new statement
  exactly if the last exit waits as well, or something else forbids it. An exit in
  an inner block that has ended hides the exits around it (`hidden_exit`).
-/
import LuaVeil.Proofs.Line.Marks
import LuaVeil.Veil.Decoys
import Mathlib.Data.List.Induction

namespace LuaVeil

/-! ## Depths of blocks -/

/-- By how much a mark changes the number of open blocks. -/
def Mark.blockChange (m : Mark) : Int :=
  if m.opensBlock then 1 else if m.closesBlock then -1 else 0

/-- The number of blocks that some marks open less the number that they close. -/
def blockDepth : List Mark → Int
  | [] => 0
  | m :: marks => m.blockChange + blockDepth marks

@[simp] theorem blockDepth_nil : blockDepth [] = 0 := rfl

@[simp] theorem blockDepth_append (xs ys : List Mark) :
    blockDepth (xs ++ ys) = blockDepth xs + blockDepth ys := by
  induction xs with
  | nil => simp [blockDepth]
  | cons m xs ih => simp only [List.cons_append, blockDepth, ih, Int.add_assoc]

@[simp] theorem blockDepth_singleton (m : Mark) : blockDepth [m] = m.blockChange := by
  simp [blockDepth]

/-- A mark that opens a block does not close one. -/
theorem Mark.closesBlock_of_opensBlock {m : Mark} (h : m.opensBlock = true) :
    m.closesBlock = false := by
  cases m with
  | word w =>
    simp only [opensBlock, isWordOf, List.any_cons, List.any_nil, Bool.or_false, Bool.or_eq_true,
      beq_iff_eq] at h
    rcases h with rfl | rfl | rfl | rfl <;> decide
  | symbol s => simp [opensBlock, isWordOf] at h
  | number => simp [opensBlock, isWordOf] at h
  | string => simp [opensBlock, isWordOf] at h

/-- A mark that leaves a block neither opens nor closes one. -/
theorem Mark.frame_of_leavesBlock {m : Mark} (h : m.leavesBlock = true) :
    m.opensBlock = false ∧ m.closesBlock = false := by
  cases m with
  | word w =>
    simp only [leavesBlock, isWordOf, List.any_cons, List.any_nil, Bool.or_false, Bool.or_eq_true,
      beq_iff_eq] at h
    rcases h with rfl | rfl | rfl <;> decide
  | symbol s => simp [leavesBlock, isWordOf] at h
  | number => simp [leavesBlock, isWordOf] at h
  | string => simp [leavesBlock, isWordOf] at h

/-! ## Waiting exits -/

/--
The mark `exit`, met after `before` and followed by `after`, leaves a block that has not ended: no
closing mark of `after` takes the number of open blocks below that at the exit.
-/
def ExitWaits (before : List Mark) (exit : Mark) (after : List Mark) : Prop :=
  exit.leavesBlock = true ∧ ∀ part m, part ++ [m] <+: after → m.closesBlock = true →
    blockDepth before ≤ blockDepth (before ++ exit :: (part ++ [m]))

/-- It is enough to look at each closing mark after the exit. -/
theorem exitWaits_iff {before after : List Mark} {exit : Mark} :
    ExitWaits before exit after ↔ exit.leavesBlock = true ∧
      ∀ (i : Nat) (h : i < after.length), after[i].closesBlock = true →
        blockDepth before ≤ blockDepth (before ++ exit :: after.take (i + 1)) := by
  refine and_congr_right fun _ => ⟨fun hopen i hi hc => ?_, fun hopen part m hpart hc => ?_⟩
  · have htake : after.take i ++ [after[i]] = after.take (i + 1) := by simp
    rw [← htake]
    exact hopen _ _ (htake ▸ List.take_prefix _ _) hc
  · obtain ⟨rest, rfl⟩ := hpart
    have htake : (part ++ [m] ++ rest).take (part.length + 1) = part ++ [m] :=
      List.take_left' (by simp)
    rw [← htake]
    exact hopen part.length (by simp) (by simpa using hc)

instance (before : List Mark) (exit : Mark) (after : List Mark) :
    Decidable (ExitWaits before exit after) :=
  decidable_of_iff _ exitWaits_iff.symm

/-- Some exit among the marks waits at their end. -/
def SomeExitWaits (marks : List Mark) : Prop :=
  ∃ before exit after, marks = before ++ exit :: after ∧ ExitWaits before exit after

/-- The last exit among the marks waits at their end, and `d` blocks were open at it. -/
def LastExitWaitsAt (marks : List Mark) (d : Int) : Prop :=
  ∃ before exit after, marks = before ++ exit :: after ∧ ExitWaits before exit after ∧
    (∀ m ∈ after, m.leavesBlock = false) ∧ d = blockDepth before

/-- The last exit among the marks waits at their end. -/
def LastExitWaits (marks : List Mark) : Prop :=
  ∃ d, LastExitWaitsAt marks d

/-- An exit goes on waiting as long as its block is not closed. -/
theorem exitWaits_concat_iff {before after : List Mark} {exit m : Mark} :
    ExitWaits before exit (after ++ [m]) ↔ ExitWaits before exit after ∧
      (m.closesBlock = true → blockDepth before ≤ blockDepth (before ++ exit :: (after ++ [m]))) := by
  constructor
  · rintro ⟨hexit, hopen⟩
    refine ⟨⟨hexit, fun part c hpart => hopen part c ?_⟩, hopen after m List.prefix_rfl⟩
    exact hpart.trans (List.prefix_append _ _)
  · rintro ⟨⟨hexit, hopen⟩, hm⟩
    refine ⟨hexit, fun part c hpart hc => ?_⟩
    rcases List.prefix_concat_iff.1 hpart with h | h
    · obtain ⟨rfl, hlast⟩ := List.append_inj' h rfl
      cases hlast
      exact hm hc
    · exact hopen part c h hc

/-- The last exit among some marks and one more is the new mark, or else an earlier one. -/
theorem lastExitWaitsAt_concat_iff {marks : List Mark} {m : Mark} {d : Int} :
    LastExitWaitsAt (marks ++ [m]) d ↔
      (m.leavesBlock = true ∧ d = blockDepth marks) ∨
      (m.leavesBlock = false ∧ LastExitWaitsAt marks d ∧
        (m.closesBlock = true → d ≤ blockDepth (marks ++ [m]))) := by
  constructor
  · rintro ⟨before, exit, after, heq, hwait, hlast, rfl⟩
    induction after using List.reverseRecOn with
    | nil =>
      obtain ⟨rfl, hm⟩ := List.append_inj' heq rfl
      cases hm
      exact .inl ⟨hwait.1, rfl⟩
    | append_singleton after c =>
      rw [← List.cons_append, ← List.append_assoc] at heq
      obtain ⟨rfl, hm⟩ := List.append_inj' heq rfl
      cases hm
      obtain ⟨hbefore, hclose⟩ := exitWaits_concat_iff.1 hwait
      refine .inr ⟨hlast m (by simp), ⟨before, exit, after, rfl, hbefore, ?_, rfl⟩, ?_⟩
      · exact fun x hx => hlast x (by simp [hx])
      · exact fun hc => by simpa using hclose hc
  · rintro (⟨hm, rfl⟩ | ⟨hm, ⟨before, exit, after, rfl, hwait, hlast, rfl⟩, hclose⟩)
    · refine ⟨marks, m, [], rfl, ⟨hm, fun part c hpart => ?_⟩, by simp, rfl⟩
      simp at hpart
    · refine ⟨before, exit, after ++ [m], by simp, ?_, ?_, rfl⟩
      · exact exitWaits_concat_iff.2 ⟨hwait, fun hc => by simpa using hclose hc⟩
      · intro x hx
        rcases List.mem_append.1 hx with hx | hx
        · exact hlast x hx
        · rw [List.mem_singleton.1 hx, hm]

namespace Nesting

theorem blocks_run (marks : List Mark) : (empty.run marks).blocks = blockDepth marks := by
  induction marks using List.reverseRecOn with
  | nil => rfl
  | append_singleton marks m ih =>
    simp only [run_append, run_cons, run_nil, blockDepth_append, blockDepth_singleton, ← ih, step,
      Mark.blockChange]
    split
    · rfl
    split
    · rfl
    split <;> simp

/-- What is remembered of exits is the last one, with the number of blocks at it, while it waits. -/
theorem exitAt_run_eq_some_iff (marks : List Mark) (d : Int) :
    (empty.run marks).exitAt = some d ↔ LastExitWaitsAt marks d := by
  induction marks using List.reverseRecOn with
  | nil => simp [empty, LastExitWaitsAt]
  | append_singleton marks m ih =>
    have hblocks := blocks_run marks
    rw [lastExitWaitsAt_concat_iff, ← ih, run_append, run_cons, run_nil, step]
    cases hleave : m.leavesBlock with
    | true =>
      obtain ⟨hopens, hcloses⟩ := Mark.frame_of_leavesBlock hleave
      simp [hopens, hcloses, hblocks, eq_comm]
    | false =>
      by_cases hopens : m.opensBlock = true
      · simp [hopens, Mark.closesBlock_of_opensBlock hopens]
      · by_cases hcloses : m.closesBlock = true
        · have hdepth : blockDepth (marks ++ [m]) = blockDepth marks - 1 := by
            simp [Mark.blockChange, hopens, hcloses, Int.sub_eq_add_neg]
          simp [hopens, hcloses, hblocks, hdepth, Option.filter_eq_some_iff]
        · simp [hopens, hcloses]

theorem isSome_exitAt_run_iff (marks : List Mark) :
    (empty.run marks).exitAt.isSome = true ↔ LastExitWaits marks := by
  rw [Option.isSome_iff_exists]
  exact exists_congr (exitAt_run_eq_some_iff marks)

end Nesting

/-! ## Lines after which a statement may follow -/

/-- Whether a new statement may follow line `i` as far as anything but exits is concerned. -/
def isStatementEnd (lines : List Line) (i : Nat) : Bool :=
  (lines[i]?.any fun l => l.hasCode && l.facts.depthAfter == 0 && !l.endsOpen) &&
    !(codeAfter lines i).any Line.startsContinuation

/-- A new statement may follow a line if a statement ends there and the last exit does not wait. -/
theorem isBoundaryAfter_iff (spans : List Span) (i : Nat) :
    isBoundaryAfter (splitLines spans) i = true ↔
      isStatementEnd (splitLines spans) i = true ∧
        ¬ LastExitWaits (marksThrough (splitLines spans) i) := by
  cases hl : (splitLines spans)[i]? with
  | none => simp [isBoundaryAfter, isStatementEnd, hl]
  | some l =>
    rw [← Nesting.isSome_exitAt_run_iff, ← exitPending_of_splitLines hl]
    simp only [isBoundaryAfter, isStatementEnd, hl, Option.any_some, Bool.and_eq_true]
    cases l.facts.exitPending <;> simp

/-! ## Decoys -/

/-- The lines, each followed by its decoy if there is one. -/
def withDecoys : List Line → List (Option Line) → List Line
  | l :: lines, decoy :: decoys => l :: decoy.toList ++ withDecoys lines decoys
  | lines, _ => lines

/-- The first line is followed by a decoy or not, and only by one if it is judged to be a boundary. -/
theorem inject_cons (p : Probability) (templates : List Text) (l : Line) (boundary : Bool)
    (judged : List (Line × Bool)) (mint : Mint) :
    ∃ (decoy : Option Line) (after : Mint), (boundary = false → decoy = none) ∧
      (Decoy.inject p templates ((l, boundary) :: judged) mint).1.1 =
        l :: decoy.toList ++ (Decoy.inject p templates judged after).1.1 := by
  rw [Decoy.inject]
  cases boundary with
  | false => exact ⟨none, mint, fun _ => rfl, rfl⟩
  | true =>
    simp only [if_true, Minting.bind_apply]
    by_cases hit : (Minting.draw (Draw.chance p) mint).1 = true
    · rw [if_pos hit]
      exact ⟨some _, _, nofun, rfl⟩
    · rw [if_neg hit]
      exact ⟨none, _, nofun, rfl⟩

/-- Decoys are put after lines that are judged to be boundaries, and after no others. -/
theorem inject_eq_withDecoys (p : Probability) (templates : List Text) (judged : List (Line × Bool))
    (mint : Mint) :
    ∃ decoys : List (Option Line),
      (Decoy.inject p templates judged mint).1.1 = withDecoys (judged.map Prod.fst) decoys ∧
      ∀ (i : Nat) (l : Line), judged[i]? = some (l, false) → decoys[i]? = some none := by
  induction judged generalizing mint with
  | nil => exact ⟨[], rfl, by simp⟩
  | cons head judged ih =>
    obtain ⟨l, boundary⟩ := head
    obtain ⟨decoy, after, hdecoy, hcons⟩ := inject_cons p templates l boundary judged mint
    obtain ⟨decoys, heq, hnone⟩ := ih after
    refine ⟨decoy :: decoys, by rw [hcons, heq]; rfl, fun i l' hi => ?_⟩
    cases i with
    | zero =>
      obtain ⟨-, hb⟩ := Prod.mk.inj (Option.some.inj hi)
      rw [hdecoy hb, List.getElem?_cons_zero]
    | succ i => exact hnone i l' hi

/-- In a script, decoys stand only after lines after which a statement may follow. -/
theorem injectDecoys_eq_withDecoys (p : Probability) {templates : List Text} (h : templates ≠ [])
    (spans : List Span) (mint : Mint) :
    ∃ decoys : List (Option Line),
      (injectDecoys p templates spans mint).1.1 = joinLines (withDecoys (splitLines spans) decoys) ∧
      ∀ i < (splitLines spans).length, isBoundaryAfter (splitLines spans) i = false →
        decoys[i]? = some none := by
  let lines := splitLines spans
  obtain ⟨decoys, heq, hnone⟩ :=
    inject_eq_withDecoys p templates (lines.mapIdx fun i l => (l, isBoundaryAfter lines i)) mint
  refine ⟨decoys, ?_, fun i hi hb => hnone i lines[i] ?_⟩
  · have hlines : (lines.mapIdx fun i l => (l, isBoundaryAfter lines i)).map Prod.fst = lines := by
      simp [List.mapIdx_eq_zipIdx_map, Function.comp_def]
    rw [hlines] at heq
    rw [injectDecoys, if_neg (by simpa using h), Minting.bind_apply, ← heq]
    rfl
  · rw [List.getElem?_mapIdx, List.getElem?_eq_getElem hi, Option.map_some, hb]

/-! ## What a waiting exit forbids -/

/--
A waiting exit forbids a statement after a line exactly if the last exit waits too, or if no
statement ends at the line anyway. Where a statement is forbidden there is no decoy.
-/
theorem waitingExit_forbids_boundary_iff (spans : List Span) (i : Nat) :
    ((SomeExitWaits (marksThrough (splitLines spans) i) →
        isBoundaryAfter (splitLines spans) i = false) ↔
      (SomeExitWaits (marksThrough (splitLines spans) i) →
        LastExitWaits (marksThrough (splitLines spans) i) ∨
          isStatementEnd (splitLines spans) i = false)) ∧
    ∀ (p : Probability) (templates : List Text) (mint : Mint), templates ≠ [] →
      ∃ decoys : List (Option Line),
        (injectDecoys p templates spans mint).1.1 =
          joinLines (withDecoys (splitLines spans) decoys) ∧
        ∀ j < (splitLines spans).length, isBoundaryAfter (splitLines spans) j = false →
          decoys[j]? = some none := by
  refine ⟨?_, fun p templates mint h => injectDecoys_eq_withDecoys p h spans mint⟩
  refine imp_congr_right fun _ => ?_
  rw [← Bool.not_eq_true, isBoundaryAfter_iff, ← Bool.not_eq_true]
  tauto

/-- In `return function() return 1 end` the inner exit, whose block has ended, hides the outer. -/
theorem hidden_exit :
    SomeExitWaits (marksThrough
        (splitLines (codeSpans 0 "return function() return 1 end".toList)) 0) ∧
      isBoundaryAfter (splitLines (codeSpans 0 "return function() return 1 end".toList)) 0 =
        true := by
  have hmarks : marksThrough (splitLines (codeSpans 0 "return function() return 1 end".toList)) 0 =
      [] ++ .word "return".toList :: [.word "function".toList, .symbol ['('], .symbol [')'],
        .word "return".toList, .number, .word "end".toList] := by
    decide +kernel
  exact ⟨⟨_, _, _, hmarks, by decide⟩, by decide +kernel⟩

end LuaVeil
