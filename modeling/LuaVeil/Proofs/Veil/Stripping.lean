/-
# Stripped spans

Stripping joins neighbouring code and puts lines together with line feeds
between them. So two spans of code are neighbours only at a line feed.

Main statement: `meetAtLineFeed_strip`.
-/
import LuaVeil.Proofs.Line.Marks
import LuaVeil.Proofs.Lua.Spans
import LuaVeil.Veil.Stripping

namespace LuaVeil

/-- Whether two spans are not both code, or one of them is a line feed. -/
def MeetAtLineFeed (a b : Span) : Prop :=
  a.isCode = true → b.isCode = true → a.text = ['\n'] ∨ b.text = ['\n']

/-- Whether no span but code is empty. -/
def SolidStrings (spans : List Span) : Prop :=
  ∀ s ∈ spans, s.isCode = false → s.text ≠ []

namespace Line

theorem isCode_lineFeed (l : Line) : l.lineFeed.isCode = true := by
  rw [lineFeed]
  split <;> rfl

theorem text_lineFeed (l : Line) : l.lineFeed.text = ['\n'] := by
  rw [lineFeed]
  split <;> rfl

end Line

namespace Strip

theorem kind_of_isCode {s : Span} (h : s.isCode = true) : s.kind = .code := by
  simpa [Span.isCode] using h

/-! ## Comments -/

/-- The first of some merged spans is of the same kind as before, and begins in the same way. -/
theorem exists_consMerged_cons (s : Span) (spans : List Span) :
    ∃ first more, consMerged s spans = first :: more ∧ first.isCode = s.isCode ∧
      s.text <+: first.text := by
  cases spans with
  | nil => exact ⟨s, [], rfl, rfl, List.prefix_rfl⟩
  | cons next more =>
    rw [consMerged]
    by_cases h : (s.isCode && next.isCode) = true
    · exact ⟨_, more, if_pos h, rfl, List.prefix_append _ _⟩
    · exact ⟨s, next :: more, if_neg h, rfl, List.prefix_rfl⟩

theorem alternates_consMerged {s : Span} {spans : List Span} (h : Alternates spans) :
    Alternates (consMerged s spans) := by
  cases spans with
  | nil => exact List.IsChain.singleton s
  | cons next spans =>
    obtain ⟨hnext, hspans⟩ := alternates_cons.1 h
    rw [consMerged]
    by_cases hcode : (s.isCode && next.isCode) = true
    · rw [if_pos hcode]
      obtain ⟨-, hcode⟩ := Bool.and_eq_true_iff.1 hcode
      exact alternates_cons.2 ⟨fun _ => hnext hcode, hspans⟩
    · rw [if_neg hcode]
      refine alternates_cons.2 ⟨fun hs n hn => ?_, h⟩
      obtain rfl : next = n := Option.some.inj hn
      simpa [hs] using hcode

theorem solidStrings_consMerged {s : Span} {spans : List Span}
    (h : SolidStrings (s :: spans)) : SolidStrings (consMerged s spans) := by
  cases spans with
  | nil => exact h
  | cons next spans =>
    rw [consMerged]
    by_cases hcode : (s.isCode && next.isCode) = true
    · rw [if_pos hcode]
      obtain ⟨hs, -⟩ := Bool.and_eq_true_iff.1 hcode
      intro t ht htcode
      rcases List.mem_cons.1 ht with rfl | ht
      · exact absurd (htcode.symm.trans hs) (by decide)
      · exact h t (by simp [ht]) htcode
    · rwa [if_neg hcode]

/-- The spans without comments alternate. -/
theorem alternates_uncomment {spans : List Span} (h : ∀ s ∈ spans, s.text ≠ []) :
    Alternates (uncomment spans) ∧ SolidStrings (uncomment spans) := by
  rw [uncomment]
  induction spans with
  | nil => exact ⟨List.IsChain.nil, by simp [SolidStrings]⟩
  | cons s spans ih =>
    obtain ⟨hs, hspans⟩ := List.forall_mem_cons.1 h
    obtain ⟨halternates, hsolid⟩ := ih hspans
    rw [List.map_cons, List.foldr_cons]
    refine ⟨alternates_consMerged halternates, solidStrings_consMerged ?_⟩
    refine List.forall_mem_cons.2 ⟨fun _ => ?_, hsolid⟩
    rw [blankComment]
    split
    · exact List.cons_ne_nil _ _
    · exact hs

/-! ## Lines -/

/-- Whether rows alternate, and the first does not begin with code unless this is allowed. -/
structure RowsAlternate (code : Bool) (rows : List Row) : Prop where
  alternates : ∀ row ∈ rows, Alternates row.spans
  solid : ∀ row ∈ rows, SolidStrings row.spans
  head : code = false → ∀ row, rows.head? = some row → ∀ s, row.spans.head? = some s →
    s.isCode = false

theorem rowsAlternate_consSpan {s : Span} {rows : List Row} (h : RowsAlternate (!s.isCode) rows)
    (hs : s.isCode = false → s.text ≠ []) : RowsAlternate s.isCode (consSpan s rows) := by
  cases rows with
  | nil =>
    refine ⟨?_, ?_, ?_⟩
    · exact List.forall_mem_singleton.2 (List.IsChain.singleton s)
    · exact List.forall_mem_singleton.2 (List.forall_mem_singleton.2 hs)
    · intro hcode row hrow t ht
      obtain rfl := Option.some.inj hrow
      obtain rfl := Option.some.inj ht
      exact hcode
  | cons row rows =>
    obtain ⟨halternates, hsolid, hhead⟩ := h
    obtain ⟨hrow, hrows⟩ := List.forall_mem_cons.1 halternates
    obtain ⟨hsrow, hsrows⟩ := List.forall_mem_cons.1 hsolid
    refine ⟨?_, ?_, ?_⟩
    · refine List.forall_mem_cons.2 ⟨alternates_cons.2 ⟨fun hcode next hnext => ?_, hrow⟩, hrows⟩
      exact hhead (by rw [hcode]; rfl) row rfl next hnext
    · exact List.forall_mem_cons.2 ⟨List.forall_mem_cons.2 ⟨hs, hsrow⟩, hsrows⟩
    · intro hcode row' hrow' t ht
      obtain rfl := Option.some.inj hrow'
      obtain rfl := Option.some.inj ht
      exact hcode

theorem codeSpans_cases (start : Nat) (text : Text) :
    codeSpans start text = [] ∨ ∃ s, codeSpans start text = [s] ∧ s.isCode = true := by
  rw [codeSpans]
  split
  · exact .inl rfl
  · exact .inr ⟨_, rfl, rfl⟩

theorem rowsAlternate_consPieces {start : Nat} {pieces : List Text} {rows : List Row}
    (h : RowsAlternate false rows) : RowsAlternate true (consPieces start pieces rows) := by
  fun_induction consPieces start pieces rows with
  | case1 => exact ⟨h.alternates, h.solid, fun hc => absurd hc (by decide)⟩
  | case2 start piece rows =>
    rcases codeSpans_cases start piece with hnil | ⟨s, hs, hcode⟩
    · rw [hnil]
      exact ⟨h.alternates, h.solid, fun hc => absurd hc (by decide)⟩
    · rw [hs]
      have hcons : RowsAlternate s.isCode (consSpan s rows) :=
        rowsAlternate_consSpan (by rw [hcode]; exact h)
          fun hc => absurd (hc.symm.trans hcode) (by decide)
      rwa [hcode] at hcons
  | case3 start piece pieces rows hne stop ih =>
    obtain ⟨halternates, hsolid, -⟩ := ih h
    refine ⟨List.forall_mem_cons.2 ⟨?_, halternates⟩, List.forall_mem_cons.2 ⟨?_, hsolid⟩,
      fun hc => absurd hc (by decide)⟩
    · rcases codeSpans_cases start piece with hnil | ⟨s, hs, -⟩
      · rw [hnil]
        exact List.IsChain.nil
      · rw [hs]
        exact List.IsChain.singleton s
    · rcases codeSpans_cases start piece with hnil | ⟨s, hs, hcode⟩
      · simp [hnil, SolidStrings]
      · rw [hs]
        exact List.forall_mem_singleton.2 fun hc => absurd (hc.symm.trans hcode) (by decide)

/-- The rows of spans that alternate do so too. -/
theorem rowsAlternate_splitRows {spans : List Span} (h : Alternates spans)
    (hsolid : SolidStrings spans) :
    RowsAlternate (spans.head?.any Span.isCode) (splitRows spans) := by
  induction spans with
  | nil =>
    refine ⟨List.forall_mem_singleton.2 List.IsChain.nil,
      List.forall_mem_singleton.2 fun s hs => absurd hs List.not_mem_nil, fun _ row hrow => ?_⟩
    obtain rfl := Option.some.inj hrow
    simp
  | cons s spans ih =>
    obtain ⟨hhead, hspans⟩ := alternates_cons.1 h
    obtain ⟨hs, hsolid⟩ := List.forall_mem_cons.1 hsolid
    have hrows := ih hspans hsolid
    have hany : s.isCode = true → (spans.head?.any Span.isCode) = false := by
      intro hcode
      cases hnext : spans.head? with
      | none => rfl
      | some next => exact hhead hcode next hnext
    show RowsAlternate s.isCode (splitRows (s :: spans))
    rw [splitRows, List.foldr_cons]
    split
    · next hsplit =>
      obtain ⟨hcode, -⟩ := Bool.and_eq_true_iff.1 hsplit
      rw [hcode]
      rw [hany hcode] at hrows
      exact rowsAlternate_consPieces hrows
    · refine rowsAlternate_consSpan ?_ hs
      cases hcode : s.isCode with
      | true =>
        rw [hany hcode] at hrows
        exact hrows
      | false => exact ⟨hrows.alternates, hrows.solid, fun hc => absurd hc (by decide)⟩

/-! ## Tidy lines -/

theorem isCode_mapCode (f : Text → Text) (s : Span) : (mapCode f s).isCode = s.isCode := by
  rw [mapCode]
  split <;> rfl

theorem map_isCode_mapCode (f : Text → Text) (spans : List Span) :
    (spans.map (mapCode f)).map Span.isCode = spans.map Span.isCode := by
  rw [List.map_map]
  exact List.map_congr_left fun s _ => isCode_mapCode f s

theorem map_isCode_modify (f : Text → Text) (i : Nat) (spans : List Span) :
    (spans.modify i (mapCode f)).map Span.isCode = spans.map Span.isCode := by
  refine List.ext_getElem? fun j => ?_
  rw [List.getElem?_map, List.getElem?_map, List.getElem?_modify]
  cases spans[j]? with
  | none => rfl
  | some s =>
    by_cases hj : i = j
    · simp [hj, isCode_mapCode]
    · simp [hj]

theorem solidStrings_mapCode {f : Text → Text} {s : Span} (hs : s.isCode = false → s.text ≠ []) :
    (mapCode f s).isCode = false → (mapCode f s).text ≠ [] := by
  intro hcode
  rw [isCode_mapCode] at hcode
  rw [mapCode, if_neg (by simp [hcode])]
  exact hs hcode

theorem solidStrings_map {f : Text → Text} {spans : List Span} (h : SolidStrings spans) :
    SolidStrings (spans.map (mapCode f)) := by
  intro s hs
  obtain ⟨t, ht, rfl⟩ := List.mem_map.1 hs
  exact solidStrings_mapCode (h t ht)

theorem solidStrings_modify {f : Text → Text} {i : Nat} {spans : List Span}
    (h : SolidStrings spans) : SolidStrings (spans.modify i (mapCode f)) := by
  intro s hs hcode
  obtain ⟨j, hj⟩ := List.mem_iff_getElem?.1 hs
  rw [List.getElem?_modify] at hj
  obtain ⟨t, ht, hst⟩ := Option.map_eq_some_iff.1 hj
  by_cases hij : i = j
  · simp only [hij, if_true] at hst
    rw [← hst] at hcode ⊢
    exact solidStrings_mapCode (h t (List.mem_of_getElem? ht)) hcode
  · simp only [hij, if_false] at hst
    rw [← hst] at hcode ⊢
    exact h t (List.mem_of_getElem? ht) hcode

/-- Spans that alternate still do without the empty ones, if these are code. -/
theorem alternates_filter {spans : List Span} (h : Alternates spans)
    (hsolid : SolidStrings spans) :
    Alternates (spans.filter fun s => !s.text.isEmpty) ∧
      ((spans.filter fun s => !s.text.isEmpty).head?.any Span.isCode = true →
        spans.head?.any Span.isCode = true) := by
  induction spans with
  | nil => exact ⟨List.IsChain.nil, id⟩
  | cons s spans ih =>
    obtain ⟨hhead, hspans⟩ := alternates_cons.1 h
    obtain ⟨hs, hsolid⟩ := List.forall_mem_cons.1 hsolid
    obtain ⟨halternates, hfirst⟩ := ih hspans hsolid
    by_cases hempty : s.text.isEmpty = true
    · have hcode : s.isCode = true := by
        by_contra hcode
        exact hs (by simpa using hcode) (by simpa using hempty)
      rw [List.filter_cons_of_neg (by simp [hempty])]
      exact ⟨halternates, fun _ => hcode⟩
    · rw [List.filter_cons_of_pos (by simp [hempty])]
      refine ⟨alternates_cons.2 ⟨fun hcode next hnext => ?_, halternates⟩, id⟩
      by_contra hn
      rw [hnext] at hfirst
      have hany := hfirst (by simpa using hn)
      cases hold : spans.head? with
      | none => simp [hold] at hany
      | some old =>
        rw [hold, Option.any_some, hhead hcode old hold] at hany
        exact absurd hany (by decide)

/-- Tidy spans alternate, and none of them is empty. -/
theorem alternates_tidySpans {spans : List Span} (h : Alternates spans)
    (hsolid : SolidStrings spans) :
    Alternates (tidySpans spans) ∧ ∀ s ∈ tidySpans spans, s.text ≠ [] := by
  simp only [tidySpans, List.modifyHead_eq_modify_zero]
  have hsolid' : SolidStrings (spans.map (mapCode squeeze)) := solidStrings_map hsolid
  refine ⟨(alternates_filter ?_ (solidStrings_modify (solidStrings_modify hsolid'))).1,
    fun s hs => by simpa using (List.mem_filter.1 hs).2⟩
  refine (alternates_congr ?_).2 h
  rw [map_isCode_modify, map_isCode_modify, map_isCode_mapCode]

/-! ## Stripped spans -/

/-- The lines of a script that are kept, tidied. -/
def kept (isDebug : Text → Bool) (spans : List Span) : List Line :=
  let lines := splitLines (uncomment spans)
  let judged := lines.zipIdx.map fun (l, i) => (l, isDebugLine isDebug lines i)
  (judged.filterMap fun (l, debug) => if debug then none else some (tidy l)).filter
    fun l => !l.spans.isEmpty

theorem strip_fst (isDebug : Text → Bool) (spans : List Span) :
    (strip isDebug spans).1 = joinLines (kept isDebug spans) :=
  rfl

/-- A line that is kept holds the tidy spans of a row of the script. -/
theorem exists_row_of_mem_kept {isDebug : Text → Bool} {spans : List Span} {l : Line}
    (h : l ∈ kept isDebug spans) :
    ∃ row ∈ splitRows (uncomment spans), l.spans = tidySpans row.spans ∧ l.spans ≠ [] := by
  obtain ⟨hmem, hne⟩ := List.mem_filter.1 h
  obtain ⟨⟨old, debug⟩, hold, hl⟩ := List.mem_filterMap.1 hmem
  obtain rfl : tidy old = l := by
    by_cases hdebug : debug = true
    · simp [hdebug] at hl
    · simpa [hdebug] using hl
  obtain ⟨⟨line, i⟩, hline, heq⟩ := List.mem_map.1 hold
  obtain rfl : line = old := congrArg Prod.fst heq
  refine ⟨line.toRow, ?_, rfl, by simpa using hne⟩
  rw [← toRow_splitLines]
  exact List.mem_map.2 ⟨line, (List.mem_zipIdx' hline).2 ▸ List.getElem_mem _, rfl⟩

/-- Lines whose spans alternate meet at the line feeds between them. -/
theorem meetAtLineFeed_joinLines {lines : List Line}
    (h : ∀ l ∈ lines, Alternates l.spans ∧ ∀ s ∈ l.spans, s.text ≠ []) :
    (joinLines lines).IsChain MeetAtLineFeed ∧ ∀ s ∈ joinLines lines, s.text ≠ [] := by
  have hline : ∀ spans, Alternates spans → spans.IsChain MeetAtLineFeed := by
    intro spans halternates
    refine halternates.imp fun a b hab ha hb => ?_
    rw [hab ha] at hb
    exact absurd hb (by decide)
  fun_induction joinLines lines with
  | case1 => exact ⟨List.IsChain.nil, by simp⟩
  | case2 l =>
    obtain ⟨halternates, hne⟩ := h l List.mem_cons_self
    exact ⟨hline _ halternates, hne⟩
  | case3 l lines hlines ih =>
    obtain ⟨⟨halternates, hne⟩, hrest⟩ := List.forall_mem_cons.1 h
    obtain ⟨ihchain, ihne⟩ := ih hrest
    constructor
    · refine (hline _ halternates).append ?_ ?_
      · exact List.isChain_cons.2 ⟨fun _ _ _ _ => .inl l.text_lineFeed, ihchain⟩
      · rintro s - t ht - -
        obtain rfl := Option.some.inj ht
        exact .inr l.text_lineFeed
    · intro s hs
      rcases List.mem_append.1 hs with hs | hs
      · exact hne s hs
      rcases List.mem_cons.1 hs with rfl | hs
      · rw [l.text_lineFeed]
        exact List.cons_ne_nil _ _
      · exact ihne s hs

end Strip

/-- Neighbouring code of a stripped script meets at line feeds, and no span is empty. -/
theorem meetAtLineFeed_strip (isDebug : Text → Bool) {spans : List Span}
    (h : ∀ s ∈ spans, s.text ≠ []) :
    (strip isDebug spans).1.IsChain MeetAtLineFeed ∧ ∀ s ∈ (strip isDebug spans).1, s.text ≠ [] := by
  refine Strip.meetAtLineFeed_joinLines fun l hl => ?_
  obtain ⟨halternates, hsolid⟩ := Strip.alternates_uncomment h
  have hrows := Strip.rowsAlternate_splitRows halternates hsolid
  obtain ⟨row, hrow, hspans, -⟩ := Strip.exists_row_of_mem_kept hl
  rw [hspans]
  exact Strip.alternates_tidySpans (hrows.alternates _ hrow) (hrows.solid _ hrow)

end LuaVeil
