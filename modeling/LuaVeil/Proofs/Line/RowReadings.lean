/-
# What rows hold

What blanks part can be read from a script row by row. A span of code is read piece by piece
between its line feeds, the last piece together with the row that follows. So comments between
spans of code, which become one blank each, change nothing in any row.

Main statements:

* `Row.readings_splitRows_cons`, a span in front of a script;
* `Row.readings_uncomment`, rows hold what they held with comments.
-/
import LuaVeil.Proofs.Line.Rejoined

namespace LuaVeil

/-! ## Pieces in front of rows -/

section

variable {α β : Type}

/-- Pieces in front of others, the last of them joined with the first that follows. -/
def joinPieces : List (List α) → List (List α) → List (List α)
  | [], rows => rows
  | [piece], row :: rows => (piece ++ row) :: rows
  | piece :: pieces, rows => piece :: joinPieces pieces rows

theorem joinPieces_cons (piece : List α) {pieces : List (List α)} (h : pieces ≠ [])
    (rows : List (List α)) :
    joinPieces (piece :: pieces) rows = piece :: joinPieces pieces rows := by
  obtain ⟨next, more, rfl⟩ := List.exists_cons_of_ne_nil h
  cases rows <;> rfl

theorem joinPieces_ne_nil {pieces : List (List α)} (h : pieces ≠ []) (rows : List (List α)) :
    joinPieces pieces rows ≠ [] := by
  fun_cases joinPieces pieces rows
  · exact absurd rfl h
  · exact List.cons_ne_nil _ _
  · exact List.cons_ne_nil _ _

theorem joinPieces_assoc (P : List (List α)) {Q : List (List α)} (hQ : Q ≠ [])
    {R : List (List α)} (hR : R ≠ []) :
    joinPieces P (joinPieces Q R) = joinPieces (joinPieces P Q) R := by
  obtain ⟨q, Q, rfl⟩ := List.exists_cons_of_ne_nil hQ
  induction P with
  | nil => rfl
  | cons p P ih =>
    by_cases hP : P = []
    · subst hP
      by_cases hmore : Q = []
      · subst hmore
        obtain ⟨r, R, rfl⟩ := List.exists_cons_of_ne_nil hR
        simp [joinPieces]
      · rw [joinPieces_cons q hmore]
        exact (joinPieces_cons (p ++ q) hmore R).symm
    · rw [joinPieces_cons p hP, joinPieces_cons p hP, ih, joinPieces_cons p (joinPieces_ne_nil hP _)]

/-- A function on pieces, if it is parted where the pieces are joined. -/
theorem map_joinPieces {g : List α → List β} {P Q : List (List α)}
    (h : ∀ p ∈ P, ∀ q, Q.head? = some q → g (p ++ q) = g p ++ g q) :
    (joinPieces P Q).map g = joinPieces (P.map g) (Q.map g) := by
  fun_induction joinPieces P Q with
  | case1 => rfl
  | case2 p q Q =>
    rw [List.map_cons, h p (List.mem_singleton_self p) q rfl]
    rfl
  | case3 p P Q hone ih =>
    rw [List.map_cons, ih fun p' hp' => h p' (List.mem_cons_of_mem p hp'), List.map_cons]
    cases P with
    | nil =>
      cases Q with
      | nil => rfl
      | cons q Q => exact absurd rfl (hone q Q rfl)
    | cons next P => exact (joinPieces_cons _ (List.cons_ne_nil _ _) _).symm

end

/-- The pieces of two texts that are put together. -/
theorem splitLines_append (a b : Text) :
    Text.splitLines (a ++ b) = joinPieces (Text.splitLines a) (Text.splitLines b) := by
  obtain ⟨first, more, hb⟩ := List.exists_cons_of_ne_nil (Strip.splitLines_ne_nil b)
  induction a with
  | nil => rw [hb]; exact hb
  | cons c a ih =>
    obtain ⟨piece, pieces, ha⟩ := List.exists_cons_of_ne_nil (Strip.splitLines_ne_nil a)
    rw [List.cons_append, Text.splitLines, Text.splitLines, ih]
    split
    · exact (joinPieces_cons _ (Strip.splitLines_ne_nil a) _).symm
    · rw [ha, hb]
      cases pieces with
      | nil => rfl
      | cons next pieces => rfl

/-! ## Readings of rows -/

namespace Row

section

variable {β : Type} {f : Span → List β} {g : Text → List β}

/-- What is read from each row. -/
def readings (f : Span → List β) (rows : List Row) : List (List β) :=
  rows.map fun row => row.spans.flatMap f

theorem readings_ne_nil {rows : List Row} (h : rows ≠ []) : readings f rows ≠ [] := by
  rwa [readings, Ne, List.map_eq_nil_iff]

theorem readings_consSpan (s : Span) {rows : List Row} (h : rows ≠ []) :
    readings f (consSpan s rows) = joinPieces [f s] (readings f rows) := by
  obtain ⟨row, rows, rfl⟩ := List.exists_cons_of_ne_nil h
  rfl

theorem readings_consPieces (hpiece : ∀ start piece, (codeSpans start piece).flatMap f = g piece)
    (start : Nat) (pieces : List Text) {rows : List Row} (h : rows ≠ []) :
    readings f (consPieces start pieces rows) = joinPieces (pieces.map g) (readings f rows) := by
  induction pieces generalizing start with
  | nil => rfl
  | cons piece pieces ih =>
    by_cases hnil : pieces = []
    · obtain ⟨row, rows, rfl⟩ := List.exists_cons_of_ne_nil h
      subst hnil
      rw [consPieces, Strip.foldr_consSpan, readings, List.map_cons, List.flatMap_append, hpiece]
      rfl
    · rw [Strip.consPieces_cons hnil, readings, List.map_cons, hpiece, ← readings, ih, List.map_cons,
        joinPieces_cons _ (by simpa using hnil)]

/-- What is read from a span, piece by piece if it is code. -/
def pieceReadings (f : Span → List β) (g : Text → List β) (s : Span) : List (List β) :=
  if s.isCode then (Text.splitLines s.text).map g else [f s]

theorem pieceReadings_ne_nil (s : Span) : pieceReadings f g s ≠ [] := by
  unfold pieceReadings
  split
  · rw [Ne, List.map_eq_nil_iff]
    exact Strip.splitLines_ne_nil s.text
  · exact List.cons_ne_nil _ _

variable (hcode : ∀ s : Span, s.isCode = true → f s = g s.text) (hg : PartedByBlanks g)

include hcode hg

theorem flatMap_codeSpans (start : Nat) (piece : Text) :
    (codeSpans start piece).flatMap f = g piece := by
  cases piece with
  | nil => exact hg.nil.symm
  | cons c piece => exact (List.flatMap_singleton ..).trans (hcode _ rfl)

/-- A span is read in front of the rows of a script. -/
theorem readings_splitRows_cons (s : Span) (spans : List Span) :
    readings f (splitRows (s :: spans)) =
      joinPieces (pieceReadings f g s) (readings f (splitRows spans)) := by
  have hne := (areCut_splitRows spans).ne_nil
  rw [Strip.splitRows_cons_eq, pieceReadings]
  cases hs : s.isCode with
  | false => exact readings_consSpan s hne
  | true =>
    rw [Bool.true_and, if_pos rfl]
    split
    · exact readings_consPieces (flatMap_codeSpans hcode hg) s.start _ hne
    · next hfeed =>
      rw [Strip.splitLines_of_not_mem (by simpa using hfeed), List.map_singleton, ← hcode s hs]
      exact readings_consSpan s hne

/-- Two spans of code that meet at a seam can be joined. -/
theorem readings_splitRows_merged {s t : Span} (hs : s.isCode = true) (ht : t.isCode = true)
    (hseam : s.text = [' '] ∨ ∃ u, t.text = ' ' :: u) (spans : List Span) :
    readings f (splitRows ({ s with text := s.text ++ t.text, stop := t.stop } :: spans)) =
      readings f (splitRows (s :: t :: spans)) := by
  have hblank : ∀ u, g (' ' :: u) = g u := hg.cons (by decide)
  have hparted : ∀ p ∈ Text.splitLines s.text, ∀ q, (Text.splitLines t.text).head? = some q →
      g (p ++ q) = g p ++ g q := by
    intro p hp q hq
    rcases hseam with hone | ⟨u, hu⟩
    · rw [hone] at hp
      obtain rfl := List.mem_singleton.1 hp
      rw [List.singleton_append, hblank, hblank, hg.nil, List.nil_append]
    · obtain ⟨first, more, hpieces⟩ := List.exists_cons_of_ne_nil (Strip.splitLines_ne_nil u)
      have hfirst : Text.splitLines t.text = (' ' :: first) :: more := by
        rw [hu, Text.splitLines, if_neg (by decide), hpieces]
        rfl
      rw [hfirst] at hq
      obtain rfl := Option.some.inj hq
      rw [hg.append_cons (by decide), hblank]
  have hpieces : pieceReadings f g { s with text := s.text ++ t.text, stop := t.stop } =
      joinPieces (pieceReadings f g s) (pieceReadings f g t) := by
    unfold pieceReadings
    rw [if_pos hs, if_pos ht, ← map_joinPieces hparted, ← splitLines_append]
    exact if_pos hs
  rw [readings_splitRows_cons hcode hg, readings_splitRows_cons hcode hg,
    readings_splitRows_cons hcode hg, hpieces, joinPieces_assoc _ (pieceReadings_ne_nil t)
      (readings_ne_nil (areCut_splitRows spans).ne_nil)]

/-- Rows hold what they held with comments. -/
theorem readings_uncomment (hcomment : ∀ s : Span, s.isComment = true → f s = [])
    {spans : List Span} (h : Alternates spans) :
    readings f (splitRows (Strip.uncomment spans)) = readings f (splitRows spans) := by
  have hsame : ∀ s, pieceReadings f g (Strip.blankComment s) = pieceReadings f g s := by
    intro s
    unfold Strip.blankComment
    split
    · next hs =>
      have hno : s.isCode = false := by
        have hkind : s.kind = .comment := by simpa [Span.isComment] using hs
        rw [Span.isCode, hkind]
        rfl
      have hblank : g [' '] = [] := (hg.cons (by decide) []).trans hg.nil
      unfold pieceReadings
      rw [hno, if_neg Bool.false_ne_true, hcomment s hs]
      exact (if_pos rfl).trans (congrArg (fun x => [x]) hblank)
    · rfl
  induction spans with
  | nil => rfl
  | cons s spans ih =>
    rw [readings_splitRows_cons hcode hg, ← ih (alternates_cons.1 h).2, ← hsame s,
      ← readings_splitRows_cons hcode hg]
    show readings f (splitRows (Strip.consMerged (Strip.blankComment s) (Strip.uncomment spans))) = _
    cases htail : Strip.uncomment spans with
    | nil => rfl
    | cons next more =>
      rw [Strip.consMerged]
      split
      · next hboth =>
        obtain ⟨hs, hnext⟩ := Bool.and_eq_true_iff.1 hboth
        exact readings_splitRows_merged hcode hg hs hnext
          (Strip.seam_uncomment h htail hs hnext) more
      · rfl

end

end Row

end LuaVeil
