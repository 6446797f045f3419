/-
# Stripping keeps all tokens

A stripped script is the script with other blanks: its tokens and strings are those
of the script in the same order, its comments are gone, and a scan of its text finds
its spans again. Its lines are tidy.

The one kind of token that can be lost is a blank of Unicode that separates no tokens,
such as a vertical tab, since stripping takes these off the ends of lines.

Main statement: `strip_preserves_tokens`.
-/
import LuaVeil.Proofs.Veil.Steady

namespace LuaVeil

/-! ## Tokens that blanks part -/

/-- Whether a text is one character with the Unicode property `White_Space`. -/
def Text.isLoneBlank (t : Text) : Bool :=
  t.length == 1 && t.all Text.isBlank

/-- The labels of the tokens of code, without trivia and without tokens that are one blank. -/
def plainLabels (code : Text) : List (TokenKind × Text) :=
  (solidLabels code).filter fun l => !l.2.isLoneBlank

/-- No long symbol holds a blank. -/
theorem partsSymbols_of_isBlank {c : Char} (h : Text.isBlank c = true) : partsSymbols c = true := by
  have hall : (longSymbols.all fun l => l.all fun d => !Text.isBlank d) = true := by decide
  refine List.all_eq_true.2 fun l hl => ?_
  have hl := List.all_eq_true.1 hall l hl
  simp only [Bool.not_eq_true', List.contains_eq_mem, decide_eq_false_iff_not]
  intro hc
  have hd := List.all_eq_true.1 hl c hc
  rw [h] at hd
  cases hd

/-- A blank that separates no tokens is a symbol. -/
theorem lexeme_blank {c : Char} (h : Text.isBlank c = true) (hascii : Text.isAsciiBlank c = false)
    (t : Text) : lexeme c t = ⟨.symbol, [], t⟩ := by
  obtain ⟨-, -, hword, hdigit, hpoint, -⟩ := plain_of_separates (separates_of_isBlank h)
  simp only [Text.isAsciiBlank, Bool.or_eq_false_iff, beq_eq_false_iff_ne] at hascii
  have hnumeral : isNumeralStart c t = false := by simp [isNumeralStart, hdigit, hpoint]
  have htail : symbolTail c t = [] := by
    rcases symbolTail_cases c t with hnone | hlong
    · exact hnone
    · exact absurd List.mem_cons_self (not_mem_of_partsSymbols (partsSymbols_of_isBlank h) _ hlong)
  simp [lexeme, hascii.1, hascii.2, hword, hnumeral, htail]

/-- Every token ends where a blank follows that separates no tokens. -/
theorem stopsToken_of_isBlank {kind : TokenKind} {c d : Char} (h : Text.isBlank d = true)
    (hascii : Text.isAsciiBlank d = false) (t b : Text) : StopsToken kind c t (d :: b) := by
  obtain ⟨hnumeral, hword, -, hdigit, -, hsign⟩ := plain_of_separates (separates_of_isBlank h)
  simp only [Text.isAsciiBlank, Bool.or_eq_false_iff] at hascii
  have hhead : ∀ {p : Char → Prop}, p d → ∀ e, (d :: b).head? = some e → p e := by
    intro p hp e he
    obtain rfl := Option.some.inj he
    exact hp
  cases kind with
  | newline => trivial
  | blank => exact hhead hascii.1
  | word => exact hhead hword
  | number => exact hhead ⟨hnumeral, fun hs => absurd hs (by simp [hsign])⟩
  | symbol => exact stopsSymbol_of_partsSymbols (partsSymbols_of_isBlank h) hdigit

/-- Every blank parts tokens, and the one token that it can be is left aside. -/
theorem partedByBlanks_plainLabels : PartedByBlanks plainLabels where
  nil := by simp [plainLabels, solidLabels_eq]
  append_cons := by
    intro c hc a b
    by_cases hascii : Text.isAsciiBlank c = true
    · have happ : solidLabels (a ++ c :: b) = solidLabels a ++ solidLabels (c :: b) :=
        solidLabels_append_of_parted (.inr ⟨c, rfl, .inl hascii⟩)
      rw [plainLabels, happ, solidLabels_cons_of_isAsciiBlank hascii, List.filter_append]
      rfl
    · replace hascii : Text.isAsciiBlank c = false := by simpa using hascii
      have happ : labels (a ++ c :: b) = labels a ++ labels (c :: b) :=
        labels_append fun _ t _ _ hlex => lexeme_append_of_stop hlex
          (stopsToken_of_isBlank hc hascii t b)
      have hlone : Text.isLoneBlank [c] = true := by simp [Text.isLoneBlank, hc]
      have hblank : plainLabels (c :: b) = plainLabels b := by
        rw [plainLabels, solidLabels_cons, lexeme_blank hc hascii]
        simp [keepSolid, hlone, plainLabels]
      rw [← hblank]
      simp only [plainLabels, solidLabels_eq, happ, List.flatMap_append, List.filter_append]

/-! ## What a script holds -/

/-- What stands between blanks and comments: a token of code, or a string. -/
inductive Content where
  | token (kind : TokenKind) (text : Text)
  | string (text : Text)
  deriving DecidableEq

/-- The tokens of code without trivia and blanks, or the string; comments hold nothing. -/
def Span.contents (s : Span) : List Content :=
  match s.kind with
  | .code => (plainLabels s.text).map fun l => .token l.1 l.2
  | .string => [.string s.text]
  | .comment => []

/-- Whether a span is no code, or all characters of it are as given. -/
def Span.CodeAll (p : Char → Prop) (s : Span) : Prop :=
  s.isCode = true → ∀ c ∈ s.text, p c

/-- Whether a span is no code that holds a line feed. -/
def Span.OnOneLine (s : Span) : Prop :=
  s.isCode = true → '\n' ∉ s.text

namespace Strip

/-! ## What blanks do not change -/

section

variable {β : Type} {f : Span → List β} {g : Text → List β}

theorem flatMap_mapCode {h : Text → Text} (hcode : ∀ s, s.isCode = true → f s = g s.text)
    (hg : ∀ t, g (h t) = g t) (s : Span) : f (mapCode h s) = f s := by
  have hkind := isCode_mapCode h s
  unfold mapCode at hkind ⊢
  split
  · next hs =>
    rw [if_pos hs] at hkind
    rw [hcode s hs, hcode _ (hkind.trans hs)]
    exact hg s.text
  · rfl

theorem flatMap_modify {m : Span → Span} (hm : ∀ s, f (m s) = f s) (i : Nat) (spans : List Span) :
    (spans.modify i m).flatMap f = spans.flatMap f := by
  induction spans generalizing i with
  | nil => simp
  | cons s spans ih =>
    cases i with
    | zero => rw [List.modify_zero_cons, List.flatMap_cons, List.flatMap_cons, hm]
    | succ i => rw [List.modify_succ_cons, List.flatMap_cons, List.flatMap_cons, ih]

theorem flatMap_filter {α : Type} {f : α → List β} {p : α → Bool} {xs : List α}
    (h : ∀ x ∈ xs, p x = false → f x = []) : (xs.filter p).flatMap f = xs.flatMap f := by
  induction xs with
  | nil => rfl
  | cons x xs ih =>
    obtain ⟨hx, hxs⟩ := List.forall_mem_cons.1 h
    rw [List.flatMap_cons, ← ih hxs]
    cases hp : p x with
    | true => rw [List.filter_cons_of_pos hp, List.flatMap_cons]
    | false => rw [List.filter_cons_of_neg (by simp [hp]), hx hp, List.nil_append]

theorem flatMap_tidySpans (hg : PartedByBlanks g) (hcode : ∀ s, s.isCode = true → f s = g s.text)
    {spans : List Span} (hsolid : SolidStrings spans) :
    (tidySpans spans).flatMap f = spans.flatMap f := by
  simp only [tidySpans, List.modifyHead_eq_modify_zero]
  rw [flatMap_filter, flatMap_modify (flatMap_mapCode hcode hg.trimEnd),
    flatMap_modify (flatMap_mapCode hcode hg.trimStart), List.flatMap_map]
  · exact congrArg (List.flatMap · spans) (funext (flatMap_mapCode hcode hg.squeeze))
  · intro s hs hempty
    have hnil : s.text = [] := by simpa using hempty
    have hs : s.isCode = true := by
      by_contra hno
      exact solidStrings_modify (solidStrings_modify (solidStrings_map hsolid)) s hs
        (by simpa using hno) hnil
    rw [hcode s hs, hnil, hg.nil]

theorem flatMap_joinLines (hg : PartedByBlanks g) (hcode : ∀ s, s.isCode = true → f s = g s.text)
    (lines : List Line) :
    (joinLines lines).flatMap f = lines.flatMap fun l => l.spans.flatMap f := by
  have hfeed : ∀ l : Line, f l.lineFeed = [] := by
    intro l
    rw [hcode _ l.isCode_lineFeed, l.text_lineFeed, hg.cons (by decide), hg.nil]
  fun_induction joinLines lines with
  | case1 => rfl
  | case2 l => simp
  | case3 l lines hlines ih =>
    rw [List.flatMap_append, List.flatMap_cons, hfeed, ih, List.nil_append, List.flatMap_cons]

/-- All lines are kept but the empty ones, if no line is a debug statement. -/
theorem kept_eq (spans : List Span) : kept (fun _ => false) spans =
    ((splitLines (uncomment spans)).map tidy).filter fun l => !l.spans.isEmpty := by
  have hdebug : ∀ lines i, isDebugLine (fun _ => false) lines i = false := by
    intro lines i
    cases hline : lines[i]? <;> simp [isDebugLine, hline]
  have hfst : ∀ lines : List Line, lines.zipIdx.map (fun x => tidy x.1) = lines.map tidy := by
    intro lines
    show lines.zipIdx.map (tidy ∘ Prod.fst) = lines.map tidy
    rw [← List.map_map, List.zipIdx_map_fst]
  simp only [kept, hdebug]
  rw [List.filterMap_map, ← hfst]
  simp [List.filterMap_eq_map']

/-- What blanks part and comments do not hold is the same before and after stripping. -/
theorem flatMap_strip (hg : PartedByBlanks g) (hcode : ∀ s, s.isCode = true → f s = g s.text)
    (hcomment : ∀ s, s.isComment = true → f s = []) {spans : List Span} (h : Alternates spans)
    (hne : ∀ s ∈ spans, s.text ≠ []) :
    (strip (fun _ => false) spans).1.flatMap f = spans.flatMap f := by
  obtain ⟨halternates, hsolid⟩ := alternates_uncomment hne
  have hrows := rowsAlternate_splitRows halternates hsolid
  rw [strip_fst, flatMap_joinLines hg hcode, kept_eq, flatMap_filter, List.flatMap_map,
    ← flatMap_uncomment hg hcode hcomment h]
  · have htidy : ∀ l ∈ splitLines (uncomment spans),
        (tidy l).spans.flatMap f = l.toRow.spans.flatMap f := by
      intro l hl
      refine flatMap_tidySpans hg hcode (hrows.solid l.toRow ?_)
      rw [← toRow_splitLines]
      exact List.mem_map_of_mem hl
    rw [List.flatMap_congr htidy, ← List.flatMap_map (f := Line.toRow)
      (g := fun row : Row => row.spans.flatMap f), toRow_splitLines]
    refine flatMap_splitRows fun s _ hs _ => ⟨g, fun piece _ start => ?_, ?_⟩
    · cases piece with
      | nil => exact hg.nil.symm
      | cons c piece => exact (List.flatMap_singleton ..).trans (hcode _ rfl)
    · rw [hg.splitLines, hcode s hs]
  · intro l _ hempty
    have hnil : l.spans = [] := by simpa using hempty
    rw [hnil, List.flatMap_nil]

end

/-! ## Changed code -/

theorem text_mapCode {f : Text → Text} {s : Span} (h : (mapCode f s).isCode = true) :
    (mapCode f s).text = f s.text := by
  rw [isCode_mapCode] at h
  rw [mapCode, if_pos h]

/-- Code of which one span was changed is changed or is as before. -/
theorem text_modify {f : Text → Text} {i j : Nat} {spans : List Span} {s : Span}
    (h : (spans.modify i (mapCode f))[j]? = some s) (hs : s.isCode = true) :
    ∃ t, spans[j]? = some t ∧ t.isCode = true ∧ s.text = if i = j then f t.text else t.text := by
  rw [List.getElem?_modify] at h
  obtain ⟨t, ht, hst⟩ := Option.map_eq_some_iff.1 h
  refine ⟨t, ht, ?_⟩
  by_cases hij : i = j
  · rw [if_pos hij] at hst ⊢
    rw [← hst] at hs ⊢
    exact ⟨(isCode_mapCode f t).symm.trans hs, text_mapCode hs⟩
  · rw [if_neg hij] at hst ⊢
    exact ⟨(congrArg Span.isCode hst).trans hs, congrArg Span.text hst.symm⟩

/-! ## Code on one line -/

theorem not_mem_splitLines (t : Text) : ∀ p ∈ Text.splitLines t, '\n' ∉ p := by
  induction t with
  | nil => simp [Text.splitLines]
  | cons c t ih =>
    by_cases hc : c = '\n'
    · rw [Text.splitLines, if_pos hc]
      exact List.forall_mem_cons.2 ⟨List.not_mem_nil, ih⟩
    · rw [Text.splitLines, if_neg hc]
      cases hpieces : Text.splitLines t with
      | nil => exact List.forall_mem_singleton.2 (by simpa using Ne.symm hc)
      | cons first more =>
        rw [hpieces] at ih
        obtain ⟨hfirst, hmore⟩ := List.forall_mem_cons.1 ih
        refine List.forall_mem_cons.2 ⟨?_, hmore⟩
        simpa [Ne.symm hc] using hfirst

theorem forall_consSpan {p : Span → Prop} {s : Span} {rows : List Row} (hs : p s)
    (h : ∀ row ∈ rows, ∀ t ∈ row.spans, p t) : ∀ row ∈ consSpan s rows, ∀ t ∈ row.spans, p t := by
  cases rows with
  | nil => exact List.forall_mem_singleton.2 (List.forall_mem_singleton.2 hs)
  | cons row rows =>
    obtain ⟨hrow, hrows⟩ := List.forall_mem_cons.1 h
    exact List.forall_mem_cons.2 ⟨List.forall_mem_cons.2 ⟨hs, hrow⟩, hrows⟩

theorem forall_consPieces {p : Span → Prop} {start : Nat} {pieces : List Text} {rows : List Row}
    (hpieces : ∀ piece ∈ pieces, ∀ start, ∀ s ∈ codeSpans start piece, p s)
    (h : ∀ row ∈ rows, ∀ t ∈ row.spans, p t) :
    ∀ row ∈ consPieces start pieces rows, ∀ t ∈ row.spans, p t := by
  fun_induction consPieces start pieces rows with
  | case1 => exact h
  | case2 start piece rows =>
    have hpiece := hpieces piece List.mem_cons_self start
    cases piece with
    | nil => exact h
    | cons c piece => exact forall_consSpan (hpiece _ (List.mem_singleton_self _)) h
  | case3 start piece pieces rows hne stop ih =>
    obtain ⟨hpiece, hmore⟩ := List.forall_mem_cons.1 hpieces
    exact List.forall_mem_cons.2 ⟨hpiece start, ih hmore h⟩

/-- What is true of pieces between line feeds, and of spans that are not cut, is true on rows. -/
theorem forall_splitRows {p : Span → Prop} {spans : List Span}
    (hpiece : ∀ s ∈ spans, s.isCode = true → ∀ piece ∈ Text.splitLines s.text, ∀ start,
      ∀ t ∈ codeSpans start piece, p t)
    (hwhole : ∀ s ∈ spans, s.OnOneLine → p s) :
    ∀ row ∈ splitRows spans, ∀ s ∈ row.spans, p s := by
  induction spans with
  | nil => exact List.forall_mem_singleton.2 fun s hs => by cases hs
  | cons s spans ih =>
    obtain ⟨hs, hspans⟩ := List.forall_mem_cons.1 hwhole
    obtain ⟨hcut, hpieces⟩ := List.forall_mem_cons.1 hpiece
    rw [splitRows, List.foldr_cons, ← splitRows]
    split
    · next hfeed =>
      exact forall_consPieces (hcut (Bool.and_eq_true_iff.1 hfeed).1) (ih hpieces hspans)
    · next hkept =>
      refine forall_consSpan (hs fun hcode hfeed => hkept ?_) (ih hpieces hspans)
      rw [hcode, Bool.true_and]
      simpa using hfeed

theorem text_of_mem_codeSpans {start : Nat} {piece : Text} {s : Span}
    (h : s ∈ codeSpans start piece) : s.text = piece := by
  unfold codeSpans at h
  split at h
  · cases h
  · rw [List.mem_singleton.1 h]

/-- The code of a row is on one line. -/
theorem onOneLine_splitRows (spans : List Span) :
    ∀ row ∈ splitRows spans, ∀ s ∈ row.spans, s.OnOneLine := by
  refine forall_splitRows (fun s _ _ piece hpiece start t ht _ => ?_) fun s _ hs => hs
  rw [text_of_mem_codeSpans ht]
  exact not_mem_splitLines s.text piece hpiece

/-- Rows bring no characters to code. -/
theorem codeAll_splitRows {p : Char → Prop} {spans : List Span} (h : ∀ s ∈ spans, s.CodeAll p) :
    ∀ row ∈ splitRows spans, ∀ s ∈ row.spans, s.CodeAll p := by
  refine forall_splitRows (fun s hs hcode piece hpiece start t ht _ c hc => ?_) fun s hs _ => h s hs
  rw [text_of_mem_codeSpans ht] at hc
  refine h s hs hcode c ?_
  obtain ⟨first, more, hsplit, hfirst, -, hmore, -⟩ := infix_splitLines s.text
  rw [hsplit] at hpiece
  rcases List.mem_cons.1 hpiece with rfl | hpiece
  · exact hfirst.subset hc
  · exact (hmore piece hpiece).subset hc

/-- Comments that become blanks bring no characters to code but spaces. -/
theorem codeAll_uncomment {p : Char → Prop} (hspace : p ' ') {spans : List Span}
    (h : ∀ s ∈ spans, s.CodeAll p) : ∀ s ∈ uncomment spans, s.CodeAll p := by
  rw [uncomment]
  induction spans with
  | nil => exact fun s hs => by cases hs
  | cons s spans ih =>
    obtain ⟨hs, hspans⟩ := List.forall_mem_cons.1 h
    have hblank : (blankComment s).CodeAll p := by
      unfold blankComment
      split
      · exact fun _ => List.forall_mem_singleton.2 hspace
      · exact hs
    have hmore := ih hspans
    rw [List.map_cons, List.foldr_cons]
    generalize (spans.map blankComment).foldr consMerged [] = merged at hmore ⊢
    cases merged with
    | nil => exact List.forall_mem_singleton.2 hblank
    | cons next merged =>
      obtain ⟨hnext, hmerged⟩ := List.forall_mem_cons.1 hmore
      rw [consMerged]
      split
      · next hboth =>
        obtain ⟨hcode, hcode'⟩ := Bool.and_eq_true_iff.1 hboth
        exact List.forall_mem_cons.2
          ⟨fun _ => List.forall_mem_append.2 ⟨hblank hcode, hnext hcode'⟩, hmerged⟩
      · exact List.forall_mem_cons.2 ⟨hblank, hmore⟩

theorem mem_squeezeAfter {blank : Bool} {t : Text} {c : Char} (h : c ∈ squeezeAfter blank t) :
    c = ' ' ∨ c ∈ t := by
  induction t generalizing blank with
  | nil => cases h
  | cons d t ih =>
    rw [squeezeAfter] at h
    split at h
    · split at h
      · exact (ih h).imp_right (List.mem_cons_of_mem d)
      · rcases List.mem_cons.1 h with h | h
        · exact .inl h
        · exact (ih h).imp_right (List.mem_cons_of_mem d)
    · rcases List.mem_cons.1 h with rfl | h
      · exact .inr List.mem_cons_self
      · exact (ih h).imp_right (List.mem_cons_of_mem d)

theorem codeAll_modify {p : Char → Prop} {f : Text → Text} {i : Nat} {spans : List Span}
    (hf : ∀ t, (∀ c ∈ t, p c) → ∀ c ∈ f t, p c) (h : ∀ s ∈ spans, s.CodeAll p) :
    ∀ s ∈ spans.modify i (mapCode f), s.CodeAll p := by
  intro s hs hcode
  obtain ⟨j, hj⟩ := List.mem_iff_getElem?.1 hs
  obtain ⟨t, ht, htcode, htext⟩ := text_modify hj hcode
  have hall := h t (List.mem_of_getElem? ht) htcode
  rw [htext]
  split
  · exact hf _ hall
  · exact hall

/-- Tidying brings no characters to code but spaces. -/
theorem codeAll_tidySpans {p : Char → Prop} (hspace : p ' ') {spans : List Span}
    (h : ∀ s ∈ spans, s.CodeAll p) : ∀ s ∈ tidySpans spans, s.CodeAll p := by
  simp only [tidySpans, List.modifyHead_eq_modify_zero]
  intro s hs
  refine codeAll_modify (fun t ht c hc => ht c ?_) (codeAll_modify (fun t ht c hc => ht c ?_) ?_) s
    (List.mem_filter.1 hs).1
  · rw [← Text.trimEnd_append t]
    exact List.mem_append_left _ hc
  · exact (List.dropWhile_sublist Text.isBlank).subset hc
  · intro s hs hcode c hc
    obtain ⟨t, ht, rfl⟩ := List.mem_map.1 hs
    rw [text_mapCode hcode] at hc
    rcases mem_squeezeAfter hc with rfl | hc
    · exact hspace
    · exact h t ht ((isCode_mapCode squeeze t).symm.trans hcode) c hc

theorem onOneLine_iff {s : Span} : s.OnOneLine ↔ s.CodeAll (· ≠ '\n') :=
  forall_congr' fun _ => ⟨fun h _ hc heq => h (heq ▸ hc), fun h hc => h _ hc rfl⟩

theorem onOneLine_tidySpans {spans : List Span} (h : ∀ s ∈ spans, s.OnOneLine) :
    ∀ s ∈ tidySpans spans, s.OnOneLine := by
  simp only [onOneLine_iff] at h ⊢
  exact codeAll_tidySpans (by decide) h

/-! ## Joined lines are found again -/

/-- A span on one line stands in front of the first row. -/
theorem splitRows_cons {s : Span} (h : s.OnOneLine) (spans : List Span) :
    splitRows (s :: spans) = consSpan s (splitRows spans) := by
  have hwhole : ¬ (s.isCode && s.text.contains '\n') = true := by
    simp only [Bool.and_eq_true, List.contains_eq_mem, decide_eq_true_eq, not_and]
    exact h
  rw [splitRows, List.foldr_cons, if_neg hwhole, ← splitRows]

/-- Spans on one line stand in front of the first row. -/
theorem splitRows_append {xs : List Span} (h : ∀ s ∈ xs, s.OnOneLine)
    (spans : List Span) : splitRows (xs ++ spans) = xs.foldr consSpan (splitRows spans) := by
  induction xs with
  | nil => rfl
  | cons s xs ih =>
    obtain ⟨hs, hxs⟩ := List.forall_mem_cons.1 h
    rw [List.cons_append, splitRows_cons hs, ih hxs, List.foldr_cons]

/-- A line feed ends a row without spans. -/
theorem splitRows_lineFeed {s : Span} (hs : s.isCode = true) (hfeed : s.text = ['\n'])
    (spans : List Span) :
    splitRows (s :: spans) = ⟨[], some (s.start + 0)⟩ :: splitRows spans := by
  rw [splitRows, List.foldr_cons, if_pos (by simp [hs, hfeed]), ← splitRows, hfeed]
  rfl

theorem foldr_consSpan (xs : List Span) (row : Row) (rows : List Row) :
    xs.foldr consSpan (row :: rows) = { row with spans := xs ++ row.spans } :: rows := by
  induction xs with
  | nil => rfl
  | cons s xs ih => rw [List.foldr_cons, ih, consSpan, List.cons_append]

theorem spans_foldr_consSpan (xs : List Span) (row : Row) (rows : List Row) :
    (xs.foldr consSpan (row :: rows)).map Row.spans = (xs ++ row.spans) :: rows.map Row.spans := by
  rw [foldr_consSpan, List.map_cons]

/-- Lines that are joined are found again. -/
theorem spans_splitRows_joinLines {lines : List Line} (hne : lines ≠ [])
    (h : ∀ l ∈ lines, ∀ s ∈ l.spans, s.OnOneLine) :
    (splitRows (joinLines lines)).map Row.spans = lines.map fun l => l.spans := by
  fun_induction joinLines lines with
  | case1 => exact absurd rfl hne
  | case2 l =>
    have hrows := splitRows_append (h l List.mem_cons_self) []
    rw [List.append_nil] at hrows
    rw [hrows]
    exact (spans_foldr_consSpan _ _ _).trans (by simp)
  | case3 l lines hlines ih =>
    obtain ⟨hl, hrest⟩ := List.forall_mem_cons.1 h
    have hfeed := splitRows_lineFeed l.isCode_lineFeed l.text_lineFeed (joinLines lines)
    rw [splitRows_append hl, hfeed, spans_foldr_consSpan, List.append_nil, List.map_cons,
      ih hlines hrest]

/-! ## Tidy lines -/

/-- Whether spans are those of a line without needless blanks. -/
structure IsTidy (spans : List Span) : Prop where
  nonempty : spans ≠ []
  solid : ∀ s ∈ spans, s.text ≠ []
  head : ∀ s, spans.head? = some s → s.isCode = true →
    ∀ c, s.text.head? = some c → Text.isBlank c = false
  last : ∀ s, spans.getLast? = some s → s.isCode = true →
    ∀ c, s.text.getLast? = some c → Text.isBlank c = false

theorem head?_trimStart {t : Text} {c : Char} (h : (Text.trimStart t).head? = some c) :
    Text.isBlank c = false := by
  have hhead := List.head?_dropWhile_not Text.isBlank t
  rw [Text.trimStart] at h
  rw [h] at hhead
  simpa using hhead

theorem getLast?_trimEnd {t : Text} {c : Char} (h : (Text.trimEnd t).getLast? = some c) :
    Text.isBlank c = false := by
  rw [Text.trimEnd, List.getLast?_reverse] at h
  exact head?_trimStart h

/-- Code that begins spans without the empty ones begins the spans. -/
theorem head?_of_head?_filter {spans : List Span} (halternates : Alternates spans)
    (hsolid : SolidStrings spans) {s : Span} (hs : s.isCode = true)
    (h : (spans.filter fun s => !s.text.isEmpty).head? = some s) : spans.head? = some s := by
  cases spans with
  | nil => cases h
  | cons t spans =>
    by_cases hempty : t.text.isEmpty = true
    · exfalso
      rw [List.filter_cons_of_neg (by simp [hempty])] at h
      have ht : t.isCode = true := by
        by_contra hno
        exact hsolid t List.mem_cons_self (by simpa using hno) (by simpa using hempty)
      cases spans with
      | nil => cases h
      | cons u spans =>
        have hu : u.isCode = false := (alternates_cons.1 halternates).1 ht u rfl
        have hsolid := hsolid u (by simp) hu
        rw [List.filter_cons_of_pos (by simp [hsolid])] at h
        obtain rfl := Option.some.inj h
        exact absurd (hu.symm.trans hs) (by decide)
    · rwa [List.filter_cons_of_pos (by simp [hempty])] at h

theorem alternates_reverse {spans : List Span} (h : Alternates spans) :
    Alternates spans.reverse := by
  rw [Alternates, List.isChain_reverse]
  refine h.imp fun a b hab hb => ?_
  by_contra ha
  rw [hab (by simpa using ha)] at hb
  cases hb

/-- Tidy spans begin and end with no blank of code. -/
theorem isTidy_tidySpans {spans : List Span} (halternates : Alternates spans)
    (hsolid : SolidStrings spans) (hne : tidySpans spans ≠ []) : IsTidy (tidySpans spans) := by
  have hnonempty := (alternates_tidySpans halternates hsolid).2
  simp only [tidySpans, List.modifyHead_eq_modify_zero] at hne hnonempty ⊢
  have halternates := (alternates_congr (map_isCode_mapCode squeeze spans)).2 halternates
  have hsolid := solidStrings_map (f := squeeze) hsolid
  generalize spans.map (mapCode squeeze) = squeezed at *
  have halternates := (alternates_congr (map_isCode_modify Text.trimStart 0 squeezed)).2 halternates
  have hsolid := solidStrings_modify (f := Text.trimStart) (i := 0) hsolid
  have hstart : ∀ s, (squeezed.modify 0 (mapCode Text.trimStart))[0]? = some s →
      s.isCode = true → ∀ c, s.text.head? = some c → Text.isBlank c = false := by
    intro s hfirst hs c hc
    obtain ⟨t, -, -, htext⟩ := text_modify hfirst hs
    rw [htext, if_pos rfl] at hc
    exact head?_trimStart hc
  generalize squeezed.modify 0 (mapCode Text.trimStart) = started at *
  have halternates := (alternates_congr
    (map_isCode_modify Text.trimEnd (started.length - 1) started)).2 halternates
  have hsolid := solidStrings_modify (f := Text.trimEnd) (i := started.length - 1) hsolid
  refine ⟨hne, hnonempty, fun s hhead hs c hc => ?_, fun s hlast hs c hc => ?_⟩
  · have hfirst := head?_of_head?_filter halternates hsolid hs hhead
    rw [List.head?_eq_getElem?] at hfirst
    obtain ⟨t, ht, htcode, htext⟩ := text_modify hfirst hs
    refine hstart t ht htcode c ?_
    rw [htext] at hc
    split at hc
    · exact head?_of_isPrefix ⟨_, Text.trimEnd_append t.text⟩ hc
    · exact hc
  · -- spans that alternate do so from their end on as well
    have hend := head?_of_head?_filter (alternates_reverse halternates)
      (fun t ht => hsolid t (List.mem_reverse.1 ht)) hs
      (by rwa [List.filter_reverse, List.head?_reverse])
    rw [List.head?_reverse, List.getLast?_eq_getElem?, List.length_modify] at hend
    obtain ⟨t, -, -, htext⟩ := text_modify hend hs
    rw [htext, if_pos rfl] at hc
    exact getLast?_trimEnd hc

theorem isTidy_of_mem_kept {isDebug : Text → Bool} {spans : List Span}
    (h : ∀ s ∈ spans, s.text ≠ []) : ∀ l ∈ kept isDebug spans,
      IsTidy l.spans ∧ ∀ s ∈ l.spans, s.OnOneLine := by
  obtain ⟨halternates, hsolid⟩ := alternates_uncomment h
  have hrows := rowsAlternate_splitRows halternates hsolid
  intro l hl
  obtain ⟨row, hrow, hspans, hne⟩ := exists_row_of_mem_kept hl
  rw [hspans] at hne ⊢
  exact ⟨isTidy_tidySpans (hrows.alternates row hrow) (hrows.solid row hrow) hne,
    onOneLine_tidySpans (onOneLine_splitRows _ row hrow)⟩

/-- The lines of a stripped script are tidy. -/
theorem isTidy_of_mem_splitLines {isDebug : Text → Bool} {spans : List Span}
    (h : ∀ s ∈ spans, s.text ≠ []) (hne : (strip isDebug spans).1 ≠ []) :
    ∀ l ∈ splitLines (strip isDebug spans).1, IsTidy l.spans := by
  have hkept := @isTidy_of_mem_kept isDebug spans h
  rw [strip_fst] at hne ⊢
  have hlines : kept isDebug spans ≠ [] := by
    intro hnil
    rw [hnil] at hne
    exact hne rfl
  have hspans := spans_splitRows_joinLines hlines fun l hl => (hkept l hl).2
  intro l hl
  have hmem : l.spans ∈ (splitRows (joinLines (kept isDebug spans))).map Row.spans := by
    rw [← toRow_splitLines]
    exact List.mem_map_of_mem (List.mem_map_of_mem hl)
  rw [hspans] at hmem
  obtain ⟨l', hl', heq⟩ := List.mem_map.1 hmem
  rw [← heq]
  exact (hkept l' hl').1

end Strip

/-! ## Stripped scripts -/

theorem contents_of_isCode {s : Span} (h : s.isCode = true) :
    s.contents = (plainLabels s.text).map fun l => .token l.1 l.2 := by
  rw [Span.contents, Strip.kind_of_isCode h]

theorem contents_of_isComment {s : Span} (h : s.isComment = true) : s.contents = [] := by
  have hkind : s.kind = .comment := by simpa [Span.isComment] using h
  rw [Span.contents, hkind]

/-- Blanks part what code holds. -/
theorem partedByBlanks_contents :
    PartedByBlanks fun t => (plainLabels t).map fun l => Content.token l.1 l.2 where
  nil := by rw [partedByBlanks_plainLabels.nil, List.map_nil]
  append_cons := fun hc a b => by
    rw [partedByBlanks_plainLabels.append_cons hc, List.map_append]

/--
Stripping without debug statements keeps all tokens and strings in order and removes all comments.
A scan finds the stripped spans again, with neighbouring code joined, and all lines are tidy.
-/
theorem strip_preserves_tokens {source : Text} {spans : List Span} (h : scan source = .ok spans) :
    (strip (fun _ => false) spans).1.flatMap Span.contents = spans.flatMap Span.contents ∧
      (∀ s ∈ (strip (fun _ => false) spans).1, s.isComment = false) ∧
      (strip (fun _ => false) spans).2.comments = spans.countP Span.isComment ∧
      (∃ again, scan (render (strip (fun _ => false) spans).1) = .ok again ∧
        again.map Span.shape = (joinCode (strip (fun _ => false) spans).1).map Span.shape) ∧
      ((strip (fun _ => false) spans).1 ≠ [] →
        ∀ l ∈ splitLines (strip (fun _ => false) spans).1, Strip.IsTidy l.spans) := by
  obtain ⟨halternates, hne⟩ := alternates_of_scan h
  have hsteady := steady_strip (fun _ => false) (rescans_of_scan h) halternates hne
  have hsolid := (meetAtLineFeed_strip (fun _ => false) hne).2
  refine ⟨?_, fun s hs => ?_, rfl, scan_of_rescans hsteady.rescans hsolid,
    Strip.isTidy_of_mem_splitLines hne⟩
  · exact Strip.flatMap_strip partedByBlanks_contents (fun _ => contents_of_isCode)
      (fun _ => contents_of_isComment) halternates hne
  · cases hcode : s.isCode with
    | true => simp [Span.isComment, Strip.kind_of_isCode hcode]
    | false => simp [Span.isComment, (hsteady.string s hs hcode).1]

/-- A comment between two words still parts them when it is gone. -/
theorem strip_comment_between_words : ∃ spans, scan "x--[[a]]y --b".toList = .ok spans ∧
    (strip (fun _ => false) spans).1.flatMap Span.contents =
      [.token .word "x".toList, .token .word "y".toList] ∧
    (strip (fun _ => false) spans).2.comments = 2 := by
  have hscan : scan "x--[[a]]y --b".toList =
      .ok [⟨.code, "x".toList, 0, 1⟩, ⟨.comment, "--[[a]]".toList, 1, 8⟩,
        ⟨.code, "y ".toList, 8, 10⟩, ⟨.comment, "--b".toList, 10, 13⟩] := by decide +kernel
  obtain ⟨hcontents, -, hcomments, -⟩ := strip_preserves_tokens hscan
  refine ⟨_, hscan, ?_, ?_⟩
  · rw [hcontents]
    decide +kernel
  · rw [hcomments]
    decide

end LuaVeil
