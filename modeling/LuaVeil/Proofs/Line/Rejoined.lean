/-
# Lines that are joined again

A script is cut into rows at its line feeds. Each row but the last knows where it ended,
so that the rows can be joined and cut again without a loss, whatever happened to their
spans in between.

Main statements:

* `splitRows_joinRows`, joined rows are found again;
* `render_joinRows`, the text of joined rows line by line;
* `rescans_joinRows`, a scan finds the pieces of a script between its line feeds where it
  finds the script.
-/
import LuaVeil.Proofs.Lua.Follow
import LuaVeil.Proofs.Veil.Declaration
import LuaVeil.Proofs.Veil.StrippedAgain

namespace LuaVeil

/-! ## Rows of a script -/

/-- The line feed between a row and the next. -/
def Row.feed (row : Row) : Span :=
  Line.lineFeed ⟨row, .none⟩

/-- The rows with a line feed between neighbours. -/
def joinRows : List Row → List Span
  | [] => []
  | [row] => row.spans
  | row :: rows => row.spans ++ row.feed :: joinRows rows

/-- Whether all rows but the last are ended by a line feed. -/
def AreCut : List Row → Prop
  | [] => False
  | [row] => row.newlineAt = none
  | row :: rows => row.newlineAt.isSome = true ∧ AreCut rows

theorem joinLines_eq (lines : List Line) : joinLines lines = joinRows (lines.map Line.toRow) := by
  fun_induction joinLines lines with
  | case1 => rfl
  | case2 l => rfl
  | case3 l lines hlines ih =>
    obtain ⟨next, more, rfl⟩ := List.exists_cons_of_ne_nil (by simpa using hlines)
    rw [ih]
    rfl

theorem joinRows_cons (row : Row) {rows : List Row} (h : rows ≠ []) :
    joinRows (row :: rows) = row.spans ++ row.feed :: joinRows rows := by
  obtain ⟨next, more, rfl⟩ := List.exists_cons_of_ne_nil h
  rfl

theorem areCut_cons (row : Row) {rows : List Row} (h : rows ≠ []) :
    AreCut (row :: rows) ↔ row.newlineAt.isSome = true ∧ AreCut rows := by
  obtain ⟨next, more, rfl⟩ := List.exists_cons_of_ne_nil h
  exact Iff.rfl

theorem AreCut.ne_nil {rows : List Row} (h : AreCut rows) : rows ≠ [] := by
  rintro rfl
  exact h

/-- Whether rows are cut does not depend on their spans. -/
theorem areCut_congr {rows rows' : List Row}
    (h : rows'.map Row.newlineAt = rows.map Row.newlineAt) : AreCut rows' ↔ AreCut rows := by
  induction rows generalizing rows' with
  | nil => rw [List.map_eq_nil_iff.1 h]
  | cons row rows ih =>
    obtain ⟨row', rows', rfl⟩ := List.exists_cons_of_ne_nil (l := rows') fun hnil => by
      rw [hnil] at h
      cases h
    obtain ⟨hrow, hrows⟩ := List.cons.inj h
    by_cases hnil : rows = []
    · subst hnil
      obtain rfl := List.map_eq_nil_iff.1 hrows
      rw [AreCut, AreCut, hrow]
    · have hnil' : rows' ≠ [] := by
        rintro rfl
        exact hnil (List.map_eq_nil_iff.1 hrows.symm)
      rw [areCut_cons row hnil, areCut_cons row' hnil', hrow, ih hrows]

namespace Row

variable (row : Row)

theorem isCode_feed : row.feed.isCode = true :=
  Line.isCode_lineFeed _

theorem text_feed : row.feed.text = ['\n'] :=
  Line.text_lineFeed _

theorem feed_eq {place : Nat} (h : row.newlineAt = some place) :
    row.feed = ⟨.code, ['\n'], place, place + 1⟩ := by
  unfold feed Line.lineFeed
  dsimp only
  rw [h]

end Row

/-! ## Cutting a script -/

theorem areCut_consSpan (s : Span) {rows : List Row} (h : AreCut rows) :
    AreCut (consSpan s rows) := by
  obtain ⟨row, rows, rfl⟩ := List.exists_cons_of_ne_nil h.ne_nil
  have hsame : (consSpan s (row :: rows)).map Row.newlineAt = (row :: rows).map Row.newlineAt := rfl
  exact (areCut_congr hsame).2 h

theorem foldr_consSpan_cases (start : Nat) (piece : Text) (rows : List Row) :
    (codeSpans start piece).foldr consSpan rows = rows ∧ codeSpans start piece = [] ∨
      ∃ s, (codeSpans start piece).foldr consSpan rows = consSpan s rows ∧
        codeSpans start piece = [s] := by
  rcases Strip.codeSpans_cases start piece with hnil | ⟨s, hs, -⟩
  · exact .inl ⟨by rw [hnil]; rfl, hnil⟩
  · exact .inr ⟨s, by rw [hs]; rfl, hs⟩

theorem areCut_consPieces {start : Nat} {pieces : List Text} {rows : List Row} (h : AreCut rows) :
    AreCut (consPieces start pieces rows) := by
  fun_induction consPieces start pieces rows with
  | case1 => exact h
  | case2 start piece rows =>
    rcases foldr_consSpan_cases start piece rows with ⟨hsame, -⟩ | ⟨s, hs, -⟩
    · rwa [hsame]
    · rw [hs]
      exact areCut_consSpan s h
  | case3 start piece pieces rows hne stop ih =>
    exact (areCut_cons _ (ih h).ne_nil).2 ⟨rfl, ih h⟩

/-- The rows of a script are cut. -/
theorem areCut_splitRows (spans : List Span) : AreCut (splitRows spans) := by
  induction spans with
  | nil => rfl
  | cons s spans ih =>
    rw [Strip.splitRows_cons_eq]
    split
    · exact areCut_consPieces ih
    · exact areCut_consSpan s ih

theorem joinRows_consSpan (s : Span) {rows : List Row} (h : AreCut rows) :
    joinRows (consSpan s rows) = s :: joinRows rows := by
  obtain ⟨row, rows, rfl⟩ := List.exists_cons_of_ne_nil h.ne_nil
  by_cases hnil : rows = []
  · subst hnil
    rfl
  · obtain ⟨hrow, -⟩ := (areCut_cons row hnil).1 h
    obtain ⟨place, hplace⟩ := Option.isSome_iff_exists.1 hrow
    have hfeed : ∀ spans, Row.feed ⟨spans, row.newlineAt⟩ = row.feed := fun spans => by
      rw [Row.feed_eq ⟨spans, row.newlineAt⟩ hplace, row.feed_eq hplace]
    rw [consSpan, joinRows_cons _ hnil, joinRows_cons _ hnil, hfeed]
    rfl

theorem joinRows_lastPiece (start : Nat) (piece : Text) {rows : List Row} (h : AreCut rows) :
    joinRows (consPieces start [piece] rows) = codeSpans start piece ++ joinRows rows := by
  rw [consPieces]
  rcases foldr_consSpan_cases start piece rows with ⟨hsame, hnil⟩ | ⟨s, hs, hone⟩
  · rw [hsame, hnil]
    rfl
  · rw [hs, hone, joinRows_consSpan s h]
    rfl

theorem joinRows_piece (start : Nat) (piece : Text) {pieces : List Text} (hne : pieces ≠ [])
    {rows : List Row} (h : AreCut rows) :
    ∃ feed, feed.isCode = true ∧ feed.text = ['\n'] ∧
      joinRows (consPieces start (piece :: pieces) rows) = codeSpans start piece ++ feed ::
        joinRows (consPieces (start + Text.byteSize piece + 1) pieces rows) := by
  rw [Strip.consPieces_cons hne, joinRows_cons _ (areCut_consPieces h).ne_nil]
  exact ⟨_, Row.isCode_feed _, Row.text_feed _, rfl⟩

/-! ## Texts of rows -/

/-- A text is its pieces between line feeds. -/
theorem joinWith_splitLines (t : Text) : Text.joinWith ['\n'] (Text.splitLines t) = t := by
  induction t with
  | nil => rfl
  | cons c t ih =>
    obtain ⟨piece, pieces, hpieces⟩ := List.exists_cons_of_ne_nil (Strip.splitLines_ne_nil t)
    rw [hpieces] at ih
    rw [Text.splitLines]
    split
    · next hc => rw [hc, hpieces, joinWith_cons_cons, ih, List.nil_append, List.singleton_append]
    · rw [hpieces, Text.consFirst]
      cases pieces with
      | nil =>
        obtain rfl : piece = t := by simpa [Text.joinWith] using ih
        simp [Text.joinWith]
      | cons next pieces =>
        rw [joinWith_cons_cons] at ih ⊢
        rw [← ih]
        rfl

/-- The text of joined rows is that of the rows with line feeds between them. -/
theorem render_joinRows (rows : List Row) :
    render (joinRows rows) = Text.joinWith ['\n'] (rows.map fun row => render row.spans) := by
  induction rows with
  | nil => rfl
  | cons row rows ih =>
    cases rows with
    | nil => simp [joinRows, Text.joinWith]
    | cons next rows =>
      rw [joinRows_cons row (List.cons_ne_nil _ _), List.map_cons, List.map_cons,
        joinWith_cons_cons, render_append, render_cons, row.text_feed, ih, List.map_cons]

theorem render_consPieces {start : Nat} {pieces : List Text} (hne : pieces ≠ []) {rows : List Row}
    (h : AreCut rows) : render (joinRows (consPieces start pieces rows)) =
      Text.joinWith ['\n'] pieces ++ render (joinRows rows) := by
  induction pieces generalizing start with
  | nil => exact absurd rfl hne
  | cons piece pieces ih =>
    cases pieces with
    | nil => simp [joinRows_lastPiece start piece h, Text.joinWith]
    | cons next pieces =>
      obtain ⟨feed, -, htext, hjoin⟩ := joinRows_piece start piece (List.cons_ne_nil next pieces) h
      rw [hjoin, joinWith_cons_cons, render_append, render_codeSpans, render_cons, htext,
        ih (List.cons_ne_nil _ _)]
      simp only [List.append_assoc]

/-- Cut at its line feeds and joined again, a script has the same text. -/
theorem render_joinRows_splitRows (spans : List Span) :
    render (joinRows (splitRows spans)) = render spans := by
  induction spans with
  | nil => rfl
  | cons s spans ih =>
    rw [Strip.splitRows_cons_eq]
    split
    · rw [render_consPieces (Strip.splitLines_ne_nil _) (areCut_splitRows spans),
        joinWith_splitLines, ih, render_cons]
    · rw [joinRows_consSpan s (areCut_splitRows spans), render_cons, render_cons, ih]

/-! ## Scans of rows -/

theorem rescans_consPieces {start : Nat} {pieces : List Text} (hne : pieces ≠ []) {rows : List Row}
    (h : AreCut rows) (hcode : StaysCode (Text.joinWith ['\n'] pieces) (render (joinRows rows)))
    (hrows : Rescans (joinRows rows)) : Rescans (joinRows (consPieces start pieces rows)) := by
  induction pieces generalizing start with
  | nil => exact absurd rfl hne
  | cons piece pieces ih =>
    cases pieces with
    | nil =>
      rw [joinRows_lastPiece start piece h]
      refine rescans_codeSpans start ?_ hrows
      simpa [Text.joinWith] using hcode
    | cons next pieces =>
      obtain ⟨feed, hfeed, htext, hjoin⟩ :=
        joinRows_piece start piece (List.cons_ne_nil next pieces) h
      rw [joinWith_cons_cons] at hcode
      rw [hjoin]
      refine rescans_codeSpans start ?_ ⟨?_, ih (List.cons_ne_nil _ _) hcode.right.right⟩
      · have hleft := hcode.left
        rw [List.append_assoc] at hleft
        rwa [render_cons, htext, render_consPieces (List.cons_ne_nil _ _) h]
      · rw [Span.Reads, if_pos hfeed, htext]
        exact staysCode_of_isInert (List.forall_mem_singleton.2 (by decide)) _

/-- The pieces of a script between line feeds are found where the script is found. -/
theorem rescans_joinRows {spans : List Span} (h : Rescans spans) :
    Rescans (joinRows (splitRows spans)) := by
  induction spans with
  | nil => trivial
  | cons s spans ih =>
    obtain ⟨hs, hspans⟩ := h
    rw [← render_joinRows_splitRows] at hs
    rw [Strip.splitRows_cons_eq]
    split
    · next hcut =>
      rw [Span.Reads, if_pos (Bool.and_eq_true_iff.1 hcut).1] at hs
      refine rescans_consPieces (Strip.splitLines_ne_nil _) (areCut_splitRows spans) ?_ (ih hspans)
      rwa [joinWith_splitLines]
    · rw [joinRows_consSpan s (areCut_splitRows spans)]
      exact ⟨hs, ih hspans⟩

/-! ## Rows that are joined again -/

/-- Joined rows are found again. -/
theorem splitRows_joinRows {rows : List Row} (h : AreCut rows)
    (hline : ∀ row ∈ rows, ∀ s ∈ row.spans, s.OnOneLine) : splitRows (joinRows rows) = rows := by
  induction rows with
  | nil => exact absurd h id
  | cons row rows ih =>
    obtain ⟨hrow, hrows⟩ := List.forall_mem_cons.1 hline
    by_cases hnil : rows = []
    · subst hnil
      have hlast : row.newlineAt = none := h
      have hsplit := Strip.splitRows_append hrow []
      rw [List.append_nil] at hsplit
      show splitRows row.spans = [row]
      rw [hsplit, show splitRows [] = [⟨[], none⟩] from rfl, Strip.foldr_consSpan,
        List.append_nil, ← hlast]
    · obtain ⟨hcut, hmore⟩ := (areCut_cons row hnil).1 h
      obtain ⟨place, hplace⟩ := Option.isSome_iff_exists.1 hcut
      rw [joinRows_cons row hnil, Strip.splitRows_append hrow,
        Strip.splitRows_lineFeed row.isCode_feed row.text_feed, ih hmore hrows,
        Strip.foldr_consSpan, List.append_nil, row.feed_eq hplace, Nat.add_zero, ← hplace]

end LuaVeil
