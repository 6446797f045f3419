/-
# Lines and statements

Lines are judged by their first and last marks, by the marks next to them and by
the open brackets. For the script of a chunk, whatever its layout, what is said
of them is true of the statements of the chunk.

Main statements:

* `marks_splitLines`, the lines of a script have all its marks;
* `lines_keep_statements`, where a new statement may follow a line there is a seam
  of the chunk, and a line that can stand in a block of its own and begins with a
  word is a run of statements.
-/
import LuaVeil.Proofs.Grammar.Layout
import LuaVeil.Proofs.Grammar.Runs

namespace LuaVeil

/-! ## Marks of lines -/

/-- A line feed parts code. -/
theorem codeMarks_append_lineFeed (a b : Text) :
    codeMarks (a ++ '\n' :: b) = codeMarks a ++ codeMarks b := by
  have hparted : Parted a ('\n' :: b) := .inr ⟨'\n', rfl, .inl (by decide)⟩
  rw [codeMarks_eq, solidLabels_append_of_parted hparted, List.filterMap_append, ← codeMarks_eq,
    ← codeMarks_eq, codeMarks_blank (by decide)]

/-- The pieces between line feeds have the marks of a text. -/
theorem marks_pieces (t : Text) : (Text.splitLines t).flatMap codeMarks = codeMarks t := by
  -- the first piece grows from its end to its start, so the text in front of it is carried along
  suffices h : ∃ first more, Text.splitLines t = first :: more ∧
      ∀ a, codeMarks (a ++ t) = codeMarks (a ++ first) ++ more.flatMap codeMarks by
    obtain ⟨first, more, hsplit, hmarks⟩ := h
    rw [hsplit, List.flatMap_cons]
    exact (hmarks []).symm
  induction t with
  | nil => exact ⟨[], [], rfl, fun a => by simp⟩
  | cons c t ih =>
    obtain ⟨first, more, hsplit, hmarks⟩ := ih
    by_cases hc : c = '\n'
    · subst hc
      refine ⟨[], first :: more, by simp [Text.splitLines, hsplit], fun a => ?_⟩
      rw [codeMarks_append_lineFeed, List.append_nil, List.flatMap_cons]
      exact congrArg _ (hmarks [])
    · refine ⟨c :: first, more, by simp [Text.splitLines, hc, hsplit, Text.consFirst], fun a => ?_⟩
      have hlonger := hmarks (a ++ [c])
      rwa [List.append_assoc, List.append_assoc] at hlonger

theorem marks_consSpan (s : Span) (rows : List Row) :
    (consSpan s rows).flatMap Row.marks = s.marks ++ rows.flatMap Row.marks := by
  cases rows <;> simp [consSpan, Row.marks]

theorem marks_foldr_consSpan (spans : List Span) (rows : List Row) :
    (spans.foldr consSpan rows).flatMap Row.marks =
      spans.flatMap Span.marks ++ rows.flatMap Row.marks := by
  induction spans with
  | nil => rfl
  | cons s spans ih => rw [List.foldr_cons, marks_consSpan, ih, List.flatMap_cons, List.append_assoc]

theorem marks_consPieces (start : Nat) (pieces : List Text) (rows : List Row) :
    (consPieces start pieces rows).flatMap Row.marks =
      pieces.flatMap codeMarks ++ rows.flatMap Row.marks := by
  induction pieces generalizing start with
  | nil => rfl
  | cons piece pieces ih =>
    cases pieces with
    | nil =>
      rw [consPieces, marks_foldr_consSpan, (marks_codeSpans start piece).1,
        List.flatMap_singleton]
    | cons next pieces =>
      have ih := ih (start + Text.byteSize piece + 1)
      have hpiece : Row.marks ⟨codeSpans start piece, some (start + Text.byteSize piece)⟩ =
          codeMarks piece := (marks_codeSpans start piece).1
      simp only [consPieces, List.flatMap_cons, hpiece, List.append_assoc] at ih ⊢
      rw [ih]

/-- The rows of a script have the marks of its spans. -/
theorem marks_splitRows (spans : List Span) :
    (splitRows spans).flatMap Row.marks = spans.flatMap Span.marks := by
  induction spans with
  | nil => rfl
  | cons s spans ih =>
    rw [splitRows, List.foldr_cons, ← splitRows, List.flatMap_cons, ← ih]
    split
    · next h =>
      have hcode : s.marks = codeMarks s.text := by
        rw [Bool.and_eq_true, Span.isCode, beq_iff_eq] at h
        simp [Span.marks, h.1, codeMarks]
      rw [marks_consPieces, marks_pieces, hcode]
    · exact marks_consSpan s _

/-- The lines of a script have all its marks. -/
theorem marks_splitLines (spans : List Span) :
    ((splitLines spans).flatMap fun l => l.marks) = spans.flatMap Span.marks := by
  rw [← marks_splitRows, ← toRow_splitLines, List.flatMap_map]

section Lines

variable {spans : List Span} {i : Nat} {l : Line}

/-- What is known about a line of a script and the lines before it. -/
theorem facts_of_line (h : l ∈ splitLines spans) :
    l.facts.first = l.marks.head? ∧ l.facts.last = l.marks.getLast? := by
  obtain ⟨i, hi⟩ := List.getElem?_of_mem h
  rw [facts_of_splitLines hi]
  exact ⟨rfl, rfl⟩

theorem depths_of_line (h : (splitLines spans)[i]? = some l) :
    l.facts.depthBefore = bracketDepth (marksBefore (splitLines spans) i) ∧
      l.facts.depthAfter = bracketDepth (marksThrough (splitLines spans) i) := by
  rw [depthAfter_of_splitLines h, facts_of_splitLines h, LineFacts.ofMarks]
  simp [Nesting.brackets_run, Nesting.empty]

end Lines

/-- What is asked of the nearest line with code is asked of the nearest mark. -/
theorem bind_find?_hasCode {f g : Line → Option Mark} {lines : List Line}
    (h : ∀ l ∈ lines, f l = g l ∧ l.hasCode = (g l).isSome) :
    (lines.find? Line.hasCode).bind f = lines.findSome? g := by
  induction lines with
  | nil => rfl
  | cons l lines ih =>
    obtain ⟨⟨hfg, hcode⟩, hlines⟩ := List.forall_mem_cons.1 h
    rw [List.find?_cons, List.findSome?_cons, hcode]
    cases hg : g l <;> simp [hfg, hg, ih hlines]

/-- The nearest line with code after a line begins with the nearest mark. -/
theorem first_codeAfter (spans : List Span) (i : Nat) :
    (codeAfter (splitLines spans) i).bind (fun l => l.facts.first) =
      (((splitLines spans).drop (i + 1)).flatMap fun l => l.marks).head? := by
  rw [List.head?_flatMap, codeAfter]
  refine bind_find?_hasCode fun l hl => ?_
  have hfirst := (facts_of_line (List.mem_of_mem_drop hl)).1
  exact ⟨hfirst, by rw [Line.hasCode, hfirst]⟩

/-- The nearest line with code before a line ends in the nearest mark. -/
theorem last_codeBefore (spans : List Span) (i : Nat) :
    (codeBefore (splitLines spans) i).bind (fun l => l.facts.last) =
      (marksBefore (splitLines spans) i).getLast? := by
  rw [marksBefore, List.getLast?_flatMap, codeBefore]
  refine bind_find?_hasCode fun l hl => ?_
  obtain ⟨hfirst, hlast⟩ := facts_of_line (List.mem_of_mem_take (List.mem_reverse.1 hl))
  refine ⟨hlast, ?_⟩
  rw [Line.hasCode, hfirst]
  cases l.marks <;> simp

/-! ## Lines of a chunk -/

/-- The marks without stray blanks. -/
def solidMarks (marks : List Mark) : List Mark :=
  marks.filter fun m => !m.isStray isLuaBlank

/-- The number of terminals on the lines before line `i`. -/
def placeBefore (lines : List Line) (i : Nat) : Nat :=
  (solidMarks (marksBefore lines i)).length

/-- The number of terminals on the lines up to line `i`, that line included. -/
def placeAfter (lines : List Line) (i : Nat) : Nat :=
  (solidMarks (marksThrough lines i)).length

/-- A stray blank is taken for a symbol that is no bracket and belongs to no statement's end. -/
theorem of_isStray {m : Mark} (h : m.isStray isLuaBlank = true) :
    m.bracketChange = 0 ∧ m.awaitsMore = true ∧ m.continuesStatement = true := by
  match m with
  | .symbol [c] =>
    rw [Mark.isStray, Bool.and_eq_true, isLuaBlank, Bool.or_eq_true, Bool.not_eq_true'] at h
    obtain ⟨hblank, hsep⟩ := h
    rw [hsep] at hblank
    obtain rfl : c = '\x0b' := by simpa using hblank
    decide

theorem bracketDepth_solidMarks (marks : List Mark) :
    bracketDepth (solidMarks marks) = bracketDepth marks := by
  induction marks with
  | nil => rfl
  | cons m marks ih =>
    rw [solidMarks] at ih ⊢
    cases hm : m.isStray isLuaBlank with
    | true => simp [hm, ih, (of_isStray hm).1]
    | false => simp [hm, ih]

theorem termDepth_eq {ts : List Terminal} {marks : List Mark}
    (h : ts.map Terminal.mark = solidMarks marks) : termDepth ts = bracketDepth marks := by
  rw [termDepth, h, bracketDepth_solidMarks]

theorem solidMarks_append (xs ys : List Mark) :
    solidMarks (xs ++ ys) = solidMarks xs ++ solidMarks ys :=
  List.filter_append xs ys

/-- A mark that is no stray blank is solid. -/
theorem solidMarks_singleton {m : Mark} (h : m.awaitsMore = false ∨ m.continuesStatement = false) :
    solidMarks [m] = [m] := by
  cases hm : m.isStray isLuaBlank with
  | false => simp [solidMarks, hm]
  | true =>
    obtain ⟨-, hawait, hgoes⟩ := of_isStray hm
    rw [hawait, hgoes] at h
    exact absurd h (by decide)

/-- Marks that a chunk has on both sides of a gap show a seam there. -/
theorem seam_of_marks {chunk : Tree .block} {before after : List Mark}
    (h : chunk.terminals.map Terminal.mark = solidMarks (before ++ after))
    (hdepth : bracketDepth before = 0)
    (hlast : ∀ m, before.getLast? = some m → m.awaitsMore = false)
    (hnext : ∀ m, after.head? = some m → m.continuesStatement = false) :
    Seam chunk (solidMarks before).length := by
  rw [solidMarks_append] at h
  obtain ⟨xs, ys, hchunk, hxs, hys⟩ := List.map_eq_append_iff.1 h
  have hlen : (solidMarks before).length = xs.length := by rw [← hxs, List.length_map]
  rw [hlen]
  by_cases hxnil : xs = []
  · subst hxnil
    exact Seam.start chunk
  by_cases hynil : ys = []
  · subst hynil
    rw [List.append_nil] at hchunk
    rw [← hchunk]
    exact Seam.stop chunk
  refine seam_of_gap chunk (by decide) hchunk hxnil hynil ?_ ?_ ?_
  · rw [termDepth_eq hxs, hdepth]
  · intro a ha
    rcases List.eq_nil_or_concat before with rfl | ⟨front, m, rfl⟩
    · exact absurd (List.map_eq_nil_iff.1 hxs) hxnil
    · rw [List.concat_eq_append] at hlast hxs
      have hm : m.awaitsMore = false := hlast m (by simp)
      rw [solidMarks_append, solidMarks_singleton (.inl hm)] at hxs
      have hmark := congrArg List.getLast? hxs
      rw [List.getLast?_map, ha] at hmark
      obtain rfl : a.mark = m := by simpa using hmark
      exact hm
  · intro a ha
    cases after with
    | nil => exact absurd (List.map_eq_nil_iff.1 hys) hynil
    | cons m more =>
      have hm : m.continuesStatement = false := hnext m rfl
      rw [← List.singleton_append, solidMarks_append, solidMarks_singleton (.inr hm)] at hys
      have hmark := congrArg List.head? hys
      rw [List.head?_map, ha] at hmark
      obtain rfl : a.mark = m := by simpa using hmark
      exact hm

section Chunk

variable {chunk : Tree .block} {spans : List Span} {i : Nat} {l : Line}

/-- The marks of a script around the place after a line. -/
theorem marks_around (spans : List Span) (i : Nat) : spans.flatMap Span.marks =
    marksBefore (splitLines spans) i ++ ((splitLines spans).drop i).flatMap fun l => l.marks := by
  rw [← marks_splitLines, marksBefore, ← List.flatMap_append, List.take_append_drop]

/-- A seam is behind a line that ends a statement. -/
theorem seam_after (h : chunk.terminals.map Terminal.mark = solidMarks (spans.flatMap Span.marks))
    (hl : (splitLines spans)[i]? = some l) (hcode : l.hasCode = true)
    (hdepth : l.facts.depthAfter = 0) (hopen : l.endsOpen = false)
    (hnext : (codeAfter (splitLines spans) i).any Line.startsContinuation = false) :
    Seam chunk (placeAfter (splitLines spans) i) := by
  obtain ⟨hfirst, hlast⟩ := facts_of_line (List.mem_of_getElem? hl)
  rw [marks_around spans (i + 1)] at h
  refine seam_of_marks h ?_ ?_ ?_
  · rw [← hdepth, (depths_of_line hl).2, marksThrough]
  · intro m hm
    have hne : l.marks ≠ [] := by
      rw [Line.hasCode, hfirst] at hcode
      rintro hnil
      simp [hnil] at hcode
    rw [marksThrough_eq hl, List.getLast?_append, List.getLast?_eq_some_getLast hne, Option.some_or,
      ← List.getLast?_eq_some_getLast hne, ← hlast] at hm
    simpa [Line.endsOpen, hm] using hopen
  · intro m hm
    rw [← first_codeAfter] at hm
    obtain ⟨next, hcode, hm⟩ := Option.bind_eq_some_iff.1 hm
    simpa [hcode, Line.startsContinuation, hm] using hnext

/-- A seam is in front of a line that begins a statement after the end of another. -/
theorem seam_before (h : chunk.terminals.map Terminal.mark = solidMarks (spans.flatMap Span.marks))
    (hl : (splitLines spans)[i]? = some l) (hdepth : l.facts.depthBefore = 0)
    (hgoes : l.startsContinuation = false) (hcode : l.hasCode = true)
    (hlast : (codeBefore (splitLines spans) i).any Line.endsOpen = false) :
    Seam chunk (placeBefore (splitLines spans) i) := by
  rw [marks_around spans i] at h
  refine seam_of_marks h ?_ ?_ ?_
  · rw [← hdepth, (depths_of_line hl).1]
  · intro m hm
    rw [← last_codeBefore] at hm
    obtain ⟨previous, hcode, hm⟩ := Option.bind_eq_some_iff.1 hm
    simpa [hcode, Line.endsOpen, hm] using hlast
  · intro m hm
    have hfirst := (facts_of_line (List.mem_of_getElem? hl)).1
    obtain ⟨hlt, hget⟩ := List.getElem?_eq_some_iff.1 hl
    rw [List.drop_eq_getElem_cons hlt, hget, List.flatMap_cons, List.head?_append, ← hfirst] at hm
    rw [Line.hasCode] at hcode
    cases hf : l.facts.first with
    | none => simp [hf] at hcode
    | some first =>
      rw [hf, Option.some_or] at hm
      obtain rfl : first = m := by simpa using hm
      simpa [Line.startsContinuation, hf] using hgoes

/-- The terminals of a line. -/
theorem terminals_of_line
    (h : chunk.terminals.map Terminal.mark = solidMarks (spans.flatMap Span.marks))
    (hl : (splitLines spans)[i]? = some l) {j : Nat} {a : Terminal}
    (hj : placeBefore (splitLines spans) i ≤ j) (hj' : j < placeAfter (splitLines spans) i)
    (ha : chunk.terminals[j]? = some a) :
    (solidMarks l.marks)[j - placeBefore (splitLines spans) i]? = some a.mark := by
  have hthrough := marksThrough_eq hl
  rw [placeAfter, hthrough, solidMarks_append, List.length_append] at hj'
  rw [placeBefore] at hj ⊢
  have hmark : (chunk.terminals.map Terminal.mark)[j]? = some a.mark := by
    rw [List.getElem?_map, ha, Option.map_some]
  rw [h, marks_around spans (i + 1)] at hmark
  rw [marksThrough] at hthrough
  rw [hthrough, solidMarks_append, solidMarks_append, List.getElem?_append_left (by simp; omega),
    List.getElem?_append_right hj] at hmark
  exact hmark

/-- A line that can stand in a block of its own and begins with a word is a run. -/
theorem run_of_isWrappable
    (h : chunk.terminals.map Terminal.mark = solidMarks (spans.flatMap Span.marks))
    (hl : (splitLines spans)[i]? = some l) {w : Text} (hword : l.facts.first = some (.word w))
    (hwrap : isWrappable (splitLines spans) i = true) :
    Run chunk (placeBefore (splitLines spans) i) (placeAfter (splitLines spans) i) := by
  simp only [isWrappable, hl, Option.any_some, Line.isSelfContained, Bool.and_eq_true,
    Bool.not_eq_true', beq_iff_eq] at hwrap
  obtain ⟨⟨⟨⟨⟨⟨⟨⟨⟨⟨hcode, hbefore⟩, hafter⟩, hblock⟩, -⟩, -⟩, -⟩, hgoes⟩, hopen⟩, hprevious⟩,
    hnext⟩ := hwrap
  have hclosed : (codeBefore (splitLines spans) i).any Line.endsOpen = false := by
    cases hline : codeBefore (splitLines spans) i with
    | none => rfl
    | some previous =>
      rw [hline, Option.any_some, Bool.or_eq_false_iff] at hprevious
      exact hprevious.1
  -- the word is the first terminal of the line
  obtain ⟨more, hmarks⟩ : ∃ more, l.marks = .word w :: more := by
    rw [(facts_of_line (List.mem_of_getElem? hl)).1] at hword
    exact List.head?_eq_some_iff.1 hword
  have hsolid : solidMarks l.marks = .word w :: solidMarks more := by
    rw [hmarks]
    rfl
  have hplaces : placeAfter (splitLines spans) i =
      placeBefore (splitLines spans) i + (solidMarks l.marks).length := by
    rw [placeAfter, marksThrough_eq hl, solidMarks_append, List.length_append]
    rfl
  have hlt : placeBefore (splitLines spans) i < placeAfter (splitLines spans) i := by
    rw [hplaces, hsolid, List.length_cons]
    omega
  refine run_of_seams chunk (seam_before h hl hbefore hgoes hcode hclosed)
    (seam_after h hl hcode hafter hopen hnext) hlt ?_ fun a ha => ?_
  · rintro ⟨j, a, hj, hj', ha, hframe⟩
    have hget := terminals_of_line h hl hj hj' ha
    have hmem : a.mark ∈ l.marks := (List.mem_filter.1 (List.mem_of_getElem? hget)).1
    rw [facts_of_splitLines hl] at hblock
    exact absurd hframe (List.any_eq_false.1 hblock a.mark hmem)
  · have hget := terminals_of_line h hl (Nat.le_refl _) hlt ha
    rw [Nat.sub_self, hsolid, List.getElem?_cons_zero, Option.some.injEq] at hget
    rintro rfl
    exact absurd hget (by simp [Terminal.sign, Terminal.mark])

end Chunk

/--
The lines of a chunk keep its statements whole, whatever the layout. The marks of the lines are the
terminals of the chunk; where a new statement may follow a line there is a seam of the chunk; and a
line that can stand in a block of its own and begins with a word holds a run of statements.
-/
theorem lines_keep_statements {chunk : Tree .block} {source : Text}
    (h : Layout isLuaBlank chunk.terminals source) :
    ∃ spans, scan source = .ok spans ∧ ∀ i,
      solidMarks (marksThrough (splitLines spans) i) =
        (chunk.terminals.take (placeAfter (splitLines spans) i)).map Terminal.mark ∧
      (isBoundaryAfter (splitLines spans) i = true →
        Seam chunk (placeAfter (splitLines spans) i)) ∧
      ∀ l w, (splitLines spans)[i]? = some l → l.facts.first = some (.word w) →
        isWrappable (splitLines spans) i = true →
        Run chunk (placeBefore (splitLines spans) i) (placeAfter (splitLines spans) i) := by
  obtain ⟨spans, hscan, hmarks, -⟩ := scan_of_layout (fun _ hc => hc) h
  rw [← solidMarks] at hmarks
  refine ⟨spans, hscan, fun i => ⟨?_, fun hboundary => ?_, fun l w hl hword hwrap => ?_⟩⟩
  · rw [marks_around spans (i + 1), solidMarks_append] at hmarks
    rw [List.map_take, ← hmarks, placeAfter, marksThrough, List.take_left]
  · cases hl : (splitLines spans)[i]? with
    | none => simp [isBoundaryAfter, hl] at hboundary
    | some l =>
      simp only [isBoundaryAfter, hl, Option.any_some, Bool.and_eq_true, Bool.not_eq_true',
        beq_iff_eq] at hboundary
      obtain ⟨⟨⟨⟨hcode, hdepth⟩, hopen⟩, -⟩, hnext⟩ := hboundary
      exact seam_after hmarks.symm hl hcode hdepth hopen hnext
  · exact run_of_isWrappable hmarks.symm hl hword hwrap

/-- A statement that calls the function `c`. -/
def callOf (c : Char) (h : isWord [c] = true ∧ isKeyword [c] = false) : Tree .stat :=
  .run (.call (.name ⟨[c], h.1, h.2⟩) .noArgs)

/-- Two calls on lines of their own: the first line is a run, and a seam is behind it. -/
theorem two_calls_kept :
    let chunk := Tree.next (callOf 'f' (by decide)) false (.next (callOf 'g' (by decide)) true .done)
    let source := "f()\ng();".toList
    Layout isLuaBlank chunk.terminals source ∧ ∃ spans, scan source = .ok spans ∧
      isBoundaryAfter (splitLines spans) 0 = true ∧ Seam chunk 3 ∧
      isWrappable (splitLines spans) 0 = true ∧ Run chunk 0 3 := by
  have hopen : ∀ rest, (Terminal.sign "(").EndsBefore rest :=
    Terminal.endsBefore_of_alone _ (by decide) (by decide)
  have hclose : ∀ rest, (Terminal.sign ")").EndsBefore rest :=
    Terminal.endsBefore_of_alone _ (by decide) (by decide)
  have hend : ∀ rest, (Terminal.sign ";").EndsBefore rest :=
    Terminal.endsBefore_of_alone _ (by decide) (by decide)
  have hname : ∀ (c : Char) (h : isWord [c] = true) (rest : Text),
      (Terminal.word [c] h).EndsBefore ('(' :: rest) := by
    rintro c h rest d hd
    obtain rfl : '(' = d := by simpa using hd
    decide
  have hlayout : Layout isLuaBlank (Tree.next (callOf 'f' (by decide)) false
      (.next (callOf 'g' (by decide)) true .done)).terminals "f()\ng();".toList := by
    have hsecond : Layout isLuaBlank _ "g();".toList := .next (.word ['g'] (by decide))
      (.next _ (.next _ (.next _ .done (hend _)) (hclose _)) (hopen _)) (hname _ _ _)
    exact .next (.word ['f'] (by decide))
      (.next _ (.next _ (.space .lineFeed hsecond) (hclose _)) (hopen _)) (hname _ _ _)
  refine ⟨hlayout, ?_⟩
  obtain ⟨spans, hscan, hlines⟩ := lines_keep_statements hlayout
  have hspans : scan "f()\ng();".toList = .ok [⟨.code, "f()\ng();".toList, 0, 8⟩] := by
    decide +kernel
  obtain rfl := Except.ok.inj (hspans.symm.trans hscan)
  have hboundary : isBoundaryAfter (splitLines [⟨.code, "f()\ng();".toList, 0, 8⟩]) 0 = true := by
    decide +kernel
  have hwrap : isWrappable (splitLines [⟨.code, "f()\ng();".toList, 0, 8⟩]) 0 = true := by
    decide +kernel
  have hplaces : placeBefore (splitLines [⟨.code, "f()\ng();".toList, 0, 8⟩]) 0 = 0 ∧
      placeAfter (splitLines [⟨.code, "f()\ng();".toList, 0, 8⟩]) 0 = 3 := by
    decide +kernel
  refine ⟨_, hscan, hboundary, ?_, hwrap, ?_⟩
  · have hseam := (hlines 0).2.1 hboundary
    rwa [hplaces.2] at hseam
  · have hrun := (hlines 0).2.2 _ ['f'] rfl (by decide +kernel) hwrap
    rwa [hplaces.1, hplaces.2] at hrun

end LuaVeil
