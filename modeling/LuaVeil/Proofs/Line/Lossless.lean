/-
# Lines without loss

Cutting a script into lines and joining the lines again loses nothing: the text is the same,
and so is all that is known about each line when the script is cut once more. If the spans of
the script lie side by side in a source, the joined ones do.

Main statements:

* `length_splitRows`, a script has one row more than its code has line feeds;
* `Laid.joinRows_splitRows`, joined rows lie where the script lies;
* `lines_lossless`, all of it for lines.
-/
import LuaVeil.Proofs.Line.Rejoined
import LuaVeil.Proofs.Lua.Partition

namespace LuaVeil

/-! ## Numbers of lines -/

/-- How many line feeds the code of a script holds. -/
def codeFeeds (spans : List Span) : Nat :=
  (render (spans.filter Span.isCode)).count '\n'

theorem codeFeeds_cons (s : Span) (spans : List Span) :
    codeFeeds (s :: spans) =
      (if s.isCode then s.text.count '\n' else 0) + codeFeeds spans := by
  unfold codeFeeds
  by_cases hcode : s.isCode = true
  · rw [List.filter_cons_of_pos hcode, render_cons, List.count_append, if_pos hcode]
  · rw [List.filter_cons_of_neg hcode, if_neg hcode, Nat.zero_add]

/-- A text has one piece more than it has line feeds. -/
theorem Text.length_splitLines (t : Text) : (Text.splitLines t).length = t.count '\n' + 1 := by
  induction t with
  | nil => rfl
  | cons c t ih =>
    rw [Text.splitLines]
    split
    · next hc => rw [hc, List.length_cons, ih, List.count_cons_self]
    · next hc =>
      obtain ⟨piece, pieces, hpieces⟩ := List.exists_cons_of_ne_nil (Strip.splitLines_ne_nil t)
      rw [hpieces] at ih ⊢
      rw [List.count_cons_of_ne hc]
      exact ih

theorem length_consSpan (s : Span) {rows : List Row} (h : rows ≠ []) :
    (consSpan s rows).length = rows.length := by
  obtain ⟨row, rows, rfl⟩ := List.exists_cons_of_ne_nil h
  rfl

theorem length_consPieces {start : Nat} {pieces : List Text} {rows : List Row}
    (hne : pieces ≠ []) (h : rows ≠ []) :
    (consPieces start pieces rows).length + 1 = pieces.length + rows.length := by
  induction pieces generalizing start with
  | nil => exact absurd rfl hne
  | cons piece pieces ih =>
    by_cases hlast : pieces = []
    · subst hlast
      rw [consPieces]
      rcases foldr_consSpan_cases start piece rows with ⟨hsame, -⟩ | ⟨s, hs, -⟩
      · rw [hsame, List.length_singleton, Nat.add_comm]
      · rw [hs, length_consSpan s h, List.length_singleton, Nat.add_comm]
    · have hmore := @ih (start + Text.byteSize piece + 1) hlast
      rw [Strip.consPieces_cons hlast, List.length_cons, List.length_cons]
      omega

/-- A script has one row more than its code has line feeds. -/
theorem length_splitRows (spans : List Span) :
    (splitRows spans).length = codeFeeds spans + 1 := by
  induction spans with
  | nil => rfl
  | cons s spans ih =>
    have hne := (areCut_splitRows spans).ne_nil
    rw [Strip.splitRows_cons_eq, codeFeeds_cons]
    split
    · next hcut =>
      have hlength := @length_consPieces s.start _ _ (Strip.splitLines_ne_nil s.text) hne
      rw [Text.length_splitLines] at hlength
      rw [if_pos (Bool.and_eq_true_iff.1 hcut).1]
      omega
    · next hwhole =>
      have hnone : (if s.isCode then s.text.count '\n' else 0) = 0 := by
        split
        · next hcode => exact List.count_eq_zero.2 fun hfeed => hwhole (by simp [hcode, hfeed])
        · rfl
      rw [length_consSpan s hne, ih, hnone, Nat.zero_add]

/-! ## Places of joined rows -/

open Text

theorem holdsAt_prefix_append {source before after : Text} {place : Nat}
    (h : HoldsAt (before ++ after <+: ·) source place) :
    HoldsAt (before <+: ·) source place ∧
      HoldsAt (after <+: ·) source (place + byteSize before) := by
  obtain ⟨front, _, rfl, rfl, rest, rfl⟩ := h
  refine ⟨⟨front, _, rfl, rfl, ?_⟩, front ++ before, after ++ rest, ?_, byteSize_append _ _, ?_⟩
  · rw [List.append_assoc]
    exact List.prefix_append _ _
  · simp only [List.append_assoc]
  · exact List.prefix_append _ _

/-- Code that is written at a place lies in front of what lies behind it. -/
theorem Laid.codeSpans_of_holdsAt {source text : Text} {place : Nat} {spans : List Span}
    (hat : HoldsAt (text <+: ·) source place)
    (h : Laid source (place + byteSize text) spans) :
    Laid source place (LuaVeil.codeSpans place text ++ spans) := by
  obtain ⟨before, _, rfl, rfl, after, rfl⟩ := hat
  rw [← byteSize_append] at h
  exact h.codeSpans

/-- Pieces of code with line feeds between them lie where the code lies. -/
theorem Laid.consPieces {source : Text} {rows : List Row} (hcut : AreCut rows)
    {pieces : List Text} (hne : pieces ≠ []) {place : Nat}
    (hat : HoldsAt (joinWith ['\n'] pieces <+: ·) source place)
    (h : Laid source (place + byteSize (joinWith ['\n'] pieces)) (joinRows rows)) :
    Laid source place (joinRows (LuaVeil.consPieces place pieces rows)) := by
  induction pieces generalizing place with
  | nil => exact absurd rfl hne
  | cons piece pieces ih =>
    cases pieces with
    | nil =>
      have hjoin : joinWith ['\n'] [piece] = piece := by simp [joinWith]
      rw [hjoin] at hat h
      rw [joinRows_lastPiece place piece hcut]
      exact .codeSpans_of_holdsAt hat h
    | cons next pieces =>
      have hmore : next :: pieces ≠ [] := List.cons_ne_nil _ _
      have hfeed : byteSize ['\n'] = 1 := rfl
      rw [joinWith_cons_cons] at hat h
      obtain ⟨hpiece, hafter⟩ := holdsAt_prefix_append hat
      obtain ⟨hbreak, hrest⟩ := holdsAt_prefix_append hafter
      rw [byteSize_append, byteSize_append, hfeed, ← Nat.add_assoc, ← Nat.add_assoc] at h
      have hin : Span.IsIn
          ⟨.code, ['\n'], place + byteSize piece, place + byteSize piece + 1⟩ source :=
        ⟨hbreak, rfl⟩
      rw [Strip.consPieces_cons hmore, joinRows_cons _ (areCut_consPieces hcut).ne_nil,
        Row.feed_eq _ rfl]
      exact .codeSpans_of_holdsAt hpiece (.next hin (ih hmore hrest h))

/-- Spans that lie side by side still do when their rows are joined. -/
theorem Laid.joinRows_splitRows {source : Text} {place : Nat} {spans : List Span}
    (h : Laid source place spans) : Laid source place (joinRows (splitRows spans)) := by
  induction h with
  | done => exact .done
  | @next s spans hs _ ih =>
    have hcut := areCut_splitRows spans
    rw [Strip.splitRows_cons_eq]
    split
    · have hsame := joinWith_splitLines s.text
      refine .consPieces hcut (Strip.splitLines_ne_nil s.text) ?_ ?_
      · rw [hsame]
        exact hs.1
      · rw [hsame, ← hs.2]
        exact ih
    · rw [joinRows_consSpan s hcut]
      exact .next hs ih

/-! ## Lines -/

theorem joinLines_splitLines (spans : List Span) :
    joinLines (splitLines spans) = joinRows (splitRows spans) := by
  rw [joinLines_eq, toRow_splitLines]

/--
What cutting a script into lines and joining them keeps. There is one line more than the code has
line feeds, and no code of a line holds one. The joined lines have the text of the script, and cut
again they are the same lines, with the same line feeds and the same facts, so that all questions
about lines have the same answers. The joined spans of a source lie side by side in it.
-/
theorem lines_lossless (spans : List Span) :
    render (joinLines (splitLines spans)) = render spans ∧
      (splitLines spans).length = codeFeeds spans + 1 ∧
      (∀ l ∈ splitLines spans, ∀ s ∈ l.spans, s.isCode = true → '\n' ∉ s.text) ∧
      splitLines (joinLines (splitLines spans)) = splitLines spans ∧
      ∀ source, scan source = .ok spans → Laid source 0 (joinLines (splitLines spans)) := by
  have honeLine := Strip.onOneLine_splitRows spans
  rw [joinLines_splitLines]
  refine ⟨render_joinRows_splitRows spans, ?_, fun l hl => ?_, ?_, fun source hscan => ?_⟩
  · rw [← length_splitRows, ← toRow_splitLines, List.length_map]
  · refine honeLine l.toRow ?_
    rw [← toRow_splitLines]
    exact List.mem_map_of_mem hl
  · unfold splitLines
    rw [splitRows_joinRows (areCut_splitRows spans) honeLine]
  · exact (partition_scanFrom [] rfl hscan).1.joinRows_splitRows

/-- A line feed in code ends a line, and one in a comment does not. -/
theorem comment_on_one_line :
    let spans : List Span := [⟨.code, "f()\n".toList, 0, 4⟩, ⟨.comment, "--[[\n]]".toList, 4, 11⟩]
    scan "f()\n--[[\n]]".toList = .ok spans ∧ codeFeeds spans = 1 ∧
      Laid "f()\n--[[\n]]".toList 0 (joinLines (splitLines spans)) := by
  intro spans
  have hscan : scan "f()\n--[[\n]]".toList = .ok spans := by decide +kernel
  exact ⟨hscan, by decide, (lines_lossless spans).2.2.2.2 _ hscan⟩

end LuaVeil
