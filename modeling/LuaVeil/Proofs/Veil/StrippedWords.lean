/-
# What stripping keeps

Stripping removes lines, comments and blanks. It brings no words that were not
there before, and leaves strings as they are.

Main statements:

* `flatMap_splitRows`, what is the same for the pieces of code between line feeds
  as for the code is the same for the rows of a script as for the script;
* `of_mem_strip`, a stripped script has strings and words of the script only.
-/
import LuaVeil.Proofs.Lua.CodeWords
import LuaVeil.Proofs.Veil.Stripping

namespace LuaVeil

/-! ## Rows -/

section

variable {β : Type} {f : Span → List β}

theorem flatMap_consSpan (s : Span) (rows : List Row) :
    (consSpan s rows).flatMap (fun row => row.spans.flatMap f) =
      f s ++ rows.flatMap fun row => row.spans.flatMap f := by
  cases rows <;> simp [consSpan]

theorem flatMap_consPieces {g : Text → List β} (start : Nat) {pieces : List Text} {rows : List Row}
    (h : ∀ piece ∈ pieces, ∀ start, (codeSpans start piece).flatMap f = g piece) :
    (consPieces start pieces rows).flatMap (fun row => row.spans.flatMap f) =
      pieces.flatMap g ++ rows.flatMap fun row => row.spans.flatMap f := by
  fun_induction consPieces start pieces rows with
  | case1 => rfl
  | case2 start piece rows =>
    rw [List.flatMap_singleton, ← h piece List.mem_cons_self start]
    cases hspans : codeSpans start piece with
    | nil => rfl
    | cons s more =>
      obtain rfl : more = [] := by
        rcases Strip.codeSpans_cases start piece with hnil | ⟨_, hone, -⟩
        · rw [hnil] at hspans
          cases hspans
        · rw [hone] at hspans
          exact (List.cons.inj hspans).2.symm
      rw [List.foldr_cons, List.foldr_nil, flatMap_consSpan, List.flatMap_singleton]
  | case3 start piece pieces rows hne stop ih =>
    obtain ⟨hpiece, hpieces⟩ := List.forall_mem_cons.1 h
    rw [List.flatMap_cons, ih hpieces, hpiece, List.flatMap_cons, List.append_assoc]

/--
A function on spans is the same for the rows of a script as for the script, if it is the same for
code as for the pieces of the code between line feeds.
-/
theorem flatMap_splitRows {spans : List Span}
    (h : ∀ s ∈ spans, s.isCode = true → s.text.contains '\n' = true → ∃ g : Text → List β,
      (∀ piece ∈ Text.splitLines s.text, ∀ start, (codeSpans start piece).flatMap f = g piece) ∧
        (Text.splitLines s.text).flatMap g = f s) :
    (splitRows spans).flatMap (fun row => row.spans.flatMap f) = spans.flatMap f := by
  induction spans with
  | nil => rfl
  | cons s spans ih =>
    obtain ⟨hs, hspans⟩ := List.forall_mem_cons.1 h
    rw [splitRows, List.foldr_cons, ← splitRows, List.flatMap_cons, ← ih hspans]
    split
    · next hsplit =>
      obtain ⟨hcode, hfeed⟩ := Bool.and_eq_true_iff.1 hsplit
      obtain ⟨g, hpieces, hg⟩ := hs hcode hfeed
      rw [flatMap_consPieces s.start hpieces, hg]
    · exact flatMap_consSpan s (splitRows spans)

end

theorem flatMap_words_codeSpans (start : Nat) (t : Text) :
    (codeSpans start t).flatMap Span.words = codeWords t := by
  cases t with
  | nil => rw [codeWords_nil]; rfl
  | cons c t => exact List.flatMap_singleton ..

/-- The rows of a script have all its words. -/
theorem words_splitRows (spans : List Span) :
    (splitRows spans).flatMap (fun row => row.spans.flatMap Span.words) =
      spans.flatMap Span.words := by
  refine flatMap_splitRows fun s _ hcode _ => ⟨codeWords, fun piece _ start => ?_, ?_⟩
  · exact flatMap_words_codeSpans start piece
  · have hkind : s.kind = .code := by simpa [Span.isCode] using hcode
    rw [partedByBlanks_codeWords.splitLines, Span.words, hkind]

/-- The rows of a script have the same spans of a kind, if code that is cut has and gives none. -/
theorem filter_splitRows {p : Span → Bool} {spans : List Span}
    (h : ∀ s ∈ spans, s.isCode = true → s.text.contains '\n' = true → p s = false ∧
      ∀ piece ∈ Text.splitLines s.text, ∀ start, ∀ t ∈ codeSpans start piece, p t = false) :
    (splitRows spans).flatMap (fun row => row.spans.filter p) = spans.filter p := by
  have hfilter : ∀ spans : List Span,
      spans.filter p = spans.flatMap fun s => (Option.guard p s).toList := fun spans => by
    rw [← List.filterMap_eq_filter, List.filterMap_eq_flatMap_toList]
  simp only [hfilter]
  refine flatMap_splitRows fun s hs hcode hfeed => ⟨fun _ => [], fun piece hpiece start => ?_, ?_⟩
  · rw [← hfilter, List.filter_eq_nil_iff]
    exact fun t ht => by simp [(h s hs hcode hfeed).2 piece hpiece start t ht]
  · simp [Option.guard, (h s hs hcode hfeed).1]

theorem isCode_of_mem_codeSpans {start : Nat} {t : Text} {s : Span} (h : s ∈ codeSpans start t) :
    s.isCode = true := by
  rcases Strip.codeSpans_cases start t with hnil | ⟨u, hone, hu⟩
  · rw [hnil] at h
    cases h
  · rw [hone] at h
    obtain rfl := List.mem_singleton.1 h
    exact hu

/-- The rows of a script have all its strings. -/
theorem strings_splitRows (spans : List Span) :
    (splitRows spans).flatMap (fun row => row.spans.filter fun s => !s.isCode) =
      spans.filter fun s => !s.isCode :=
  filter_splitRows fun _ _ hcode _ =>
    ⟨by simp [hcode], fun _ _ _ _ ht => by simp [isCode_of_mem_codeSpans ht]⟩

namespace Strip

/-! ## Comments -/

/-- What becomes code is a comment. -/
theorem text_blankComment {s : Span} (hs : s.isCode = false)
    (hcode : (blankComment s).isCode = true) : (blankComment s).text = [' '] := by
  unfold blankComment at hcode ⊢
  split
  · rfl
  · next hcomment =>
    rw [if_neg hcomment, hs] at hcode
    cases hcode

/-- Code that begins uncommented spans where there was none before begins with a blank. -/
theorem head?_uncomment {spans : List Span} (h : spans.head?.any Span.isCode = false) {first : Span}
    (hfirst : (uncomment spans).head? = some first) (hcode : first.isCode = true) :
    first.text.head? = some ' ' := by
  cases spans with
  | nil => cases hfirst
  | cons s spans =>
    obtain ⟨first', more, heq, hkind, t, ht⟩ :=
      exists_consMerged_cons (blankComment s) ((spans.map blankComment).foldr consMerged [])
    obtain rfl : first' = first := by
      have hhead := congrArg List.head? heq
      exact Option.some.inj (hhead.symm.trans hfirst)
    rw [hcode] at hkind
    rw [← ht, text_blankComment (by simpa using h) hkind.symm]
    rfl

/-- Code is joined across comments only: on one side stands a blank that was one. -/
theorem seam_uncomment {s next : Span} {spans more : List Span} (h : Alternates (s :: spans))
    (htail : uncomment spans = next :: more) (hs : (blankComment s).isCode = true)
    (hnext : next.isCode = true) :
    (blankComment s).text = [' '] ∨ ∃ t, next.text = ' ' :: t := by
  by_cases hold : s.isCode = true
  · refine .inr ?_
    have hno : spans.head?.any Span.isCode = false := by
      cases hsecond : spans.head? with
      | none => rfl
      | some second => exact (alternates_cons.1 h).1 hold second hsecond
    exact List.head?_eq_some_iff.1 (head?_uncomment hno (by rw [htail]; rfl) hnext)
  · exact .inl (text_blankComment (by simpa using hold) hs)

section

variable {β : Type} {f : Span → List β} {g : Text → List β}

/-- Code is joined across comments only, so that what blanks part stays as it is. -/
theorem flatMap_uncomment (hg : PartedByBlanks g) (hcode : ∀ s, s.isCode = true → f s = g s.text)
    (hcomment : ∀ s, s.isComment = true → f s = []) {spans : List Span} (h : Alternates spans) :
    (uncomment spans).flatMap f = spans.flatMap f := by
  have hblank : ∀ s, f (blankComment s) = f s := by
    intro s
    unfold blankComment
    split
    · next hs =>
      rw [hcomment s hs, hcode _ rfl]
      exact hg.cons (by decide) []  |>.trans hg.nil
    · rfl
  induction spans with
  | nil => rfl
  | cons s spans ih =>
    rw [List.flatMap_cons, ← ih (alternates_cons.1 h).2, ← hblank s]
    show (consMerged (blankComment s) (uncomment spans)).flatMap f = _
    cases htail : uncomment spans with
    | nil => simp [consMerged]
    | cons next more =>
      rw [consMerged]
      by_cases hboth : ((blankComment s).isCode && next.isCode) = true
      · obtain ⟨hs, hnext⟩ := Bool.and_eq_true_iff.1 hboth
        have happ : g ((blankComment s).text ++ next.text) =
            g (blankComment s).text ++ g next.text := by
          rcases seam_uncomment h htail hs hnext with htext | ⟨t, ht⟩
          · rw [htext, List.singleton_append, hg.cons (by decide), hg.cons (by decide), hg.nil,
              List.nil_append]
          · rw [ht, hg.append_cons (by decide), hg.cons (by decide)]
        have hjoined : f { blankComment s with
              text := (blankComment s).text ++ next.text, stop := next.stop } =
            f (blankComment s) ++ f next := by
          rw [hcode _ hs, hcode _ hnext, ← happ]
          exact hcode _ hs
        rw [if_pos hboth, List.flatMap_cons, List.flatMap_cons, hjoined, List.append_assoc]
      · rw [if_neg hboth, List.flatMap_cons]

end

theorem words_uncomment {spans : List Span} (h : Alternates spans) :
    (uncomment spans).flatMap Span.words = spans.flatMap Span.words := by
  refine flatMap_uncomment partedByBlanks_codeWords (fun s hs => ?_) (fun s hs => ?_) h
  · rw [Span.words, kind_of_isCode hs]
  · have hkind : s.kind = .comment := by simpa [Span.isComment] using hs
    rw [Span.words, hkind]

theorem mem_of_mem_consMerged {s t : Span} {spans : List Span} (h : t ∈ consMerged s spans)
    (ht : t.isCode = false) : t = s ∨ t ∈ spans := by
  cases spans with
  | nil => exact .inl (List.mem_singleton.1 h)
  | cons next spans =>
    rw [consMerged] at h
    split at h
    · next hboth =>
      rcases List.mem_cons.1 h with rfl | h
      · exact absurd ht (by simp [Span.isCode] at hboth ⊢; exact hboth.1)
      · exact .inr (List.mem_cons_of_mem _ h)
    · exact List.mem_cons.1 h

theorem mem_of_mem_uncomment {s : Span} {spans : List Span} (h : s ∈ uncomment spans)
    (hs : s.isCode = false) : s ∈ spans := by
  rw [uncomment] at h
  induction spans with
  | nil => cases h
  | cons t spans ih =>
    rcases mem_of_mem_consMerged h hs with rfl | h
    · unfold blankComment at hs ⊢
      split
      · next hcomment =>
        rw [if_pos hcomment] at hs
        cases hs
      · exact List.mem_cons_self
    · exact List.mem_cons_of_mem _ (ih h)

/-! ## Tidy lines -/

theorem words_mapCode {f : Text → Text} (hf : ∀ t, codeWords (f t) = codeWords t) (s : Span) :
    (mapCode f s).words = s.words := by
  unfold mapCode
  split
  · next hcode => simp only [Span.words, kind_of_isCode hcode, hf]
  · rfl

theorem mapCode_of_string {f : Text → Text} {s : Span} (h : (mapCode f s).isCode = false) :
    mapCode f s = s := by
  rw [isCode_mapCode] at h
  rw [mapCode, if_neg (by simp [h])]

/-- The words and strings of tidy spans are those of the spans. -/
theorem of_mem_tidySpans {spans : List Span} {s : Span} (h : s ∈ tidySpans spans) :
    (s.isCode = false → s ∈ spans) ∧ ∀ w ∈ s.words, w ∈ spans.flatMap Span.words := by
  have hmodify : ∀ {f : Text → Text} {i : Nat} {spans : List Span} {s : Span},
      (∀ t, codeWords (f t) = codeWords t) → s ∈ spans.modify i (mapCode f) →
        ∃ t ∈ spans, (s.isCode = false → s = t) ∧ s.words = t.words := by
    intro f i spans s hf hs
    obtain ⟨j, hj⟩ := List.mem_iff_getElem?.1 hs
    rw [List.getElem?_modify] at hj
    obtain ⟨t, ht, hst⟩ := Option.map_eq_some_iff.1 hj
    refine ⟨t, List.mem_of_getElem? ht, ?_⟩
    by_cases hij : i = j
    · simp only [hij, if_true] at hst
      rw [← hst]
      exact ⟨mapCode_of_string, words_mapCode hf t⟩
    · simp only [hij, if_false] at hst
      rw [← hst]
      exact ⟨fun _ => rfl, rfl⟩
  simp only [tidySpans, List.modifyHead_eq_modify_zero] at h
  obtain ⟨t, ht, hst, hwords⟩ := hmodify partedByBlanks_codeWords.trimEnd (List.mem_filter.1 h).1
  obtain ⟨u, hu, htu, hwords'⟩ := hmodify partedByBlanks_codeWords.trimStart ht
  obtain ⟨x, hx, rfl⟩ := List.mem_map.1 hu
  have hwords'' := words_mapCode partedByBlanks_codeWords.squeeze x
  refine ⟨fun hs => ?_, fun w hw => ?_⟩
  · obtain rfl := hst hs
    obtain rfl := htu hs
    rwa [mapCode_of_string hs]
  · rw [hwords, hwords', hwords''] at hw
    exact List.mem_flatMap.2 ⟨x, hx, hw⟩

theorem mem_joinLines {lines : List Line} {s : Span} (h : s ∈ joinLines lines) :
    (∃ l ∈ lines, s ∈ l.spans) ∨ ∃ l, s = Line.lineFeed l := by
  fun_induction joinLines lines with
  | case1 => cases h
  | case2 l => exact .inl ⟨l, List.mem_cons_self, h⟩
  | case3 l lines hlines ih =>
    rcases List.mem_append.1 h with h | h
    · exact .inl ⟨l, List.mem_cons_self, h⟩
    rcases List.mem_cons.1 h with rfl | h
    · exact .inr ⟨l, rfl⟩
    · rcases ih h with ⟨l', hl', hs⟩ | h
      · exact .inl ⟨l', List.mem_cons_of_mem _ hl', hs⟩
      · exact .inr h

end Strip

theorem Line.words_lineFeed (l : Line) : l.lineFeed.words = [] := by
  rw [Span.words, Strip.kind_of_isCode l.isCode_lineFeed, text_lineFeed]
  exact codeWords_eq_nil (List.forall_mem_singleton.2 (by decide))

/-- The spans of lines put together are those of the lines, if line feeds are left aside. -/
theorem filter_joinLines {p : Span → Bool} (hfeed : ∀ l : Line, p l.lineFeed = false)
    (lines : List Line) :
    (joinLines lines).filter p = lines.flatMap fun l => l.spans.filter p := by
  fun_induction joinLines lines with
  | case1 => rfl
  | case2 l => exact (List.flatMap_singleton ..).symm
  | case3 l lines _ ih =>
    rw [List.filter_append, List.filter_cons, hfeed, ih]
    rfl

/-- A stripped script has strings and words of the script only. -/
theorem of_mem_strip {isDebug : Text → Bool} {spans : List Span} (h : Alternates spans) {s : Span}
    (hs : s ∈ (strip isDebug spans).1) :
    (s.isCode = false → s ∈ spans) ∧ ∀ w ∈ s.words, w ∈ spans.flatMap Span.words := by
  rcases Strip.mem_joinLines hs with ⟨l, hl, hs⟩ | ⟨l, rfl⟩
  · obtain ⟨row, hmem, hspans, -⟩ := Strip.exists_row_of_mem_kept hl
    rw [hspans] at hs
    obtain ⟨hstring, hwords⟩ := Strip.of_mem_tidySpans hs
    refine ⟨fun hcode => Strip.mem_of_mem_uncomment ?_ hcode, fun w hw => ?_⟩
    · have hrow : s ∈ (splitRows (Strip.uncomment spans)).flatMap fun row =>
          row.spans.filter fun s => !s.isCode :=
        List.mem_flatMap.2 ⟨_, hmem, List.mem_filter.2 ⟨hstring hcode, by simp [hcode]⟩⟩
      rw [strings_splitRows] at hrow
      exact (List.mem_filter.1 hrow).1
    · rw [← Strip.words_uncomment h, ← words_splitRows]
      exact List.mem_flatMap.2 ⟨_, hmem, hwords w hw⟩
  · refine ⟨fun hs => absurd (hs.symm.trans l.isCode_lineFeed) (by decide), fun w hw => ?_⟩
    rw [l.words_lineFeed] at hw
    cases hw

end LuaVeil
