/-
# Debug statements

Stripping takes out the lines that can be wrapped and satisfy a predicate, and the lines without
code. A vertical tab, and a blank beyond ASCII, is a token of code that is taken off the ends of
lines. Where code has no such blank, the lines that are left hold what they held and are judged as
they were.

Main statements:

* `sameLines_uncomment`, comments change nothing that lines hold and that is known about them;
* `Strip.kept_eq_left`, the lines that are kept;
* `strip_leaves_lines`, what becomes of the lines of a script.
-/
import LuaVeil.Proofs.Line.RowReadings
import LuaVeil.Proofs.Line.Survivors
import LuaVeil.Proofs.Veil.PutBack

namespace LuaVeil

/-! ## Blanks that part tokens -/

/-- Whether a character is no vertical tab and no blank beyond ASCII. -/
def Text.IsPlain (c : Char) : Prop :=
  c ≠ '\x0b' ∧ (isBlank c = true → c.toNat < 128)

theorem Text.isPlain_space : IsPlain ' ' := by simp [IsPlain]

/-- Such a character is blank only if it parts tokens. -/
theorem Text.IsPlain.isAsciiBlank {c : Char} (h : IsPlain c) (hc : isBlank c = true) :
    isAsciiBlank c = true := by
  obtain ⟨htab, hascii⟩ := h
  have hlow := hascii hc
  have hne : c.toNat ≠ 11 := fun heq => htab (Char.toNat_inj.1 heq)
  simp only [isBlank, blankRanges, List.any_cons, List.any_nil, Bool.or_eq_true, Bool.and_eq_true,
    decide_eq_true_eq, Bool.or_false] at hc
  have hcases : c.toNat = 9 ∨ c.toNat = 10 ∨ c.toNat = 12 ∨ c.toNat = 13 ∨ c.toNat = 32 := by omega
  have hchar : ∀ d : Char, c.toNat = d.toNat → c = d := fun d => Char.toNat_inj.1
  rcases hcases with heq | heq | heq | heq | heq
  · rw [hchar '\t' heq]; rfl
  · rw [hchar '\n' heq]; rfl
  · rw [hchar '\x0c' heq]; rfl
  · rw [hchar '\r' heq]; rfl
  · rw [hchar ' ' heq]; rfl

theorem Text.isBlank_of_isAsciiBlank {c : Char} (h : isAsciiBlank c = true) : isBlank c = true := by
  simp only [isAsciiBlank, isSeparator, Bool.or_eq_true, beq_iff_eq] at h
  rcases h with (((rfl | rfl) | rfl) | rfl) | rfl <;> decide

/-- Code without tokens is blank. -/
theorem isAsciiBlank_of_solidLabels {t : Text} (h : solidLabels t = []) :
    ∀ c ∈ t, Text.isAsciiBlank c = true := by
  induction t using induction_on_lexemes with
  | nil => exact fun c hc => by cases hc
  | @cons kind c tail rest hlex ih =>
    rw [solidLabels_cons, hlex, List.append_eq_nil_iff] at h
    obtain ⟨hfirst, hrest⟩ := h
    rw [← List.cons_append]
    refine List.forall_mem_append.2 ⟨?_, ih hrest⟩
    have hreads := lexeme_eq_iff.1 hlex
    cases kind with
    | newline =>
      obtain ⟨rfl, rfl, -⟩ := hreads
      exact List.forall_mem_singleton.2 (by decide)
    | blank =>
      obtain ⟨-, hsep, htail, -⟩ := hreads
      refine List.forall_mem_cons.2 ⟨by simp [Text.isAsciiBlank, hsep], fun d hd => ?_⟩
      rw [← htail] at hd
      simp [Text.isAsciiBlank, List.mem_takeWhile_imp hd]
    | word => cases hfirst
    | number => cases hfirst
    | symbol => cases hfirst

/-- No token is a blank where blanks part tokens. -/
theorem plainLabels_eq_solidLabels {t : Text} (h : ∀ c ∈ t, Text.IsPlain c) :
    plainLabels t = solidLabels t := by
  rw [plainLabels]
  induction t using induction_on_lexemes with
  | nil => rw [solidLabels_eq_nil fun c hc => by cases hc]; rfl
  | @cons kind c tail rest hlex ih =>
    obtain ⟨hc, hmore⟩ := List.forall_mem_cons.1 h
    rw [solidLabels_cons, hlex, List.filter_append,
      ih fun d hd => hmore d (List.mem_append_right tail hd)]
    congr 1
    refine List.filter_eq_self.2 fun l hl => ?_
    rw [keepSolid] at hl
    split at hl
    · cases hl
    · next hkind =>
      obtain rfl := List.mem_singleton.1 hl
      by_contra hlone
      simp only [Text.isLoneBlank, List.all_cons, Bool.not_eq_true', Bool.not_eq_false,
        Bool.and_eq_true] at hlone
      have hblank := hc.isAsciiBlank hlone.2.1
      rw [not_isAsciiBlank_of_reads (lexeme_eq_iff.1 hlex) (by simpa [not_or] using hkind)] at hblank
      cases hblank

/-! ## What lines hold -/

/-- The tokens of code without trivia, or the string; comments hold nothing. -/
def Span.solidContents (s : Span) : List Content :=
  match s.kind with
  | .code => (solidLabels s.text).map fun l => .token l.1 l.2
  | .string => [.string s.text]
  | .comment => []

/-- Where the blanks of code part tokens, none of them is a token. -/
theorem Span.contents_eq_solidContents {s : Span} (h : s.CodeAll Text.IsPlain) :
    s.contents = s.solidContents := by
  unfold contents solidContents
  cases hkind : s.kind with
  | code => rw [plainLabels_eq_solidLabels (h (by rw [isCode, hkind]; rfl))]
  | string => rfl
  | comment => rfl

/-- The mark of a token or a string. -/
def Content.mark? : Content → Option Mark
  | .token kind text => labelMark? (kind, text)
  | .string _ => some .string

/-- What code holds says with what marks it is judged. -/
theorem Span.marks_eq_filterMap (s : Span) :
    s.marks = s.solidContents.filterMap Content.mark? := by
  unfold marks solidContents
  cases s.kind with
  | code =>
    dsimp only
    rw [List.filterMap_map]
    exact codeMarks_eq s.text
  | string => rfl
  | comment => rfl

theorem marks_eq_filterMap (spans : List Span) :
    spans.flatMap Span.marks = (spans.flatMap Span.solidContents).filterMap Content.mark? := by
  rw [List.filterMap_flatMap]
  exact List.flatMap_congr fun s _ => s.marks_eq_filterMap

theorem marks_of_solidContents {xs ys : List Span}
    (h : xs.flatMap Span.solidContents = ys.flatMap Span.solidContents) :
    xs.flatMap Span.marks = ys.flatMap Span.marks := by
  rw [marks_eq_filterMap, marks_eq_filterMap, h]

/-- What a line holds. -/
def Line.solidContents (l : Line) : List Content :=
  l.spans.flatMap Span.solidContents

theorem Line.marks_eq (l : Line) : l.marks = l.solidContents.filterMap Content.mark? :=
  marks_eq_filterMap l.spans

/-! ## Comments -/

section

variable {spans : List Span}

theorem readings_contents {rows : List Row}
    (h : ∀ row ∈ rows, ∀ s ∈ row.spans, s.CodeAll Text.IsPlain) :
    Row.readings Span.contents rows = Row.readings Span.solidContents rows :=
  List.map_congr_left fun row hrow =>
    List.flatMap_congr fun s hs => Span.contents_eq_solidContents (h row hrow s hs)

/-- Comments change nothing that a line holds. -/
theorem solidContents_uncomment (h : Alternates spans)
    (hplain : ∀ s ∈ spans, s.CodeAll Text.IsPlain) :
    Row.readings Span.solidContents (splitRows (Strip.uncomment spans)) =
      Row.readings Span.solidContents (splitRows spans) := by
  have hbare := Strip.codeAll_uncomment Text.isPlain_space hplain
  rw [← readings_contents (Strip.codeAll_splitRows hbare),
    ← readings_contents (Strip.codeAll_splitRows hplain)]
  exact Row.readings_uncomment (fun _ => contents_of_isCode) partedByBlanks_contents
    (fun _ => contents_of_isComment) h

theorem map_solidContents_splitLines (spans : List Span) :
    (splitLines spans).map Line.solidContents =
      Row.readings Span.solidContents (splitRows spans) := by
  rw [Row.readings, ← toRow_splitLines, List.map_map]
  rfl

theorem facts_analyze {rows rows' : List Row}
    (h : List.Forall₂ (fun row' row => row'.marks = row.marks) rows' rows) (before : Nesting) :
    (analyze before rows').map Line.facts = (analyze before rows).map Line.facts := by
  induction h generalizing before with
  | nil => rfl
  | @cons row' row rows' rows hrow _ ih =>
    have hmarks : row'.spans.flatMap Span.marks = row.spans.flatMap Span.marks := hrow
    rw [analyze, analyze, List.map_cons, List.map_cons, hmarks, ih]

/-- Comments change nothing that is known about lines. -/
theorem facts_uncomment (h : Alternates spans) (hplain : ∀ s ∈ spans, s.CodeAll Text.IsPlain) :
    (splitLines (Strip.uncomment spans)).map Line.facts = (splitLines spans).map Line.facts := by
  refine facts_analyze ?_ .empty
  have hrows := solidContents_uncomment h hplain
  rw [Row.readings, Row.readings, ← List.forall₂_eq_eq_eq, List.forall₂_map_left_iff,
    List.forall₂_map_right_iff] at hrows
  exact hrows.imp fun _ _ hrow => marks_of_solidContents hrow

end

/-! ## Lines that are kept -/

namespace Strip

theorem isComment_of_mem_uncomment {s : Span} {spans : List Span} (h : s ∈ uncomment spans) :
    s.isComment = false := by
  cases hs : s.isCode with
  | true => rw [Span.isComment, kind_of_isCode hs]; rfl
  | false =>
    rw [uncomment] at h
    induction spans with
    | nil => cases h
    | cons t spans ih =>
      rcases mem_of_mem_consMerged h hs with rfl | h
      · unfold blankComment
        split
        · rfl
        · next hno => simpa using hno
      · exact ih h

/-- The spans of a line of a script without comments. -/
structure IsBareRow (spans : List Span) : Prop where
  alternates : Alternates spans
  solid : SolidStrings spans
  plain : ∀ s ∈ spans, s.CodeAll Text.IsPlain
  comments : ∀ s ∈ spans, s.isComment = false

variable {isDebug : Text → Bool} {spans : List Span}

theorem isBareRow_splitRows (hne : ∀ s ∈ spans, s.text ≠ [])
    (hplain : ∀ s ∈ spans, s.CodeAll Text.IsPlain) :
    ∀ row ∈ splitRows (uncomment spans), IsBareRow row.spans := by
  obtain ⟨halternates, hsolid⟩ := alternates_uncomment hne
  have hrows := rowsAlternate_splitRows halternates hsolid
  have hcomments : ∀ row ∈ splitRows (uncomment spans), ∀ s ∈ row.spans, s.isComment = false := by
    refine forall_splitRows (fun _ _ _ piece _ start t ht => ?_)
      fun s hs _ => isComment_of_mem_uncomment hs
    rw [Span.isComment, kind_of_isCode (isCode_of_mem_codeSpans ht)]
    rfl
  exact fun row hrow => ⟨hrows.alternates row hrow, hrows.solid row hrow,
    codeAll_splitRows (codeAll_uncomment Text.isPlain_space hplain) row hrow, hcomments row hrow⟩

namespace IsBareRow

/-- Tidying changes nothing that a line holds. -/
theorem solidContents_tidySpans (h : IsBareRow spans) :
    (tidySpans spans).flatMap Span.solidContents = spans.flatMap Span.solidContents := by
  have htidy := flatMap_tidySpans partedByBlanks_contents (fun _ => contents_of_isCode) h.solid
  rwa [List.flatMap_congr fun s hs => Span.contents_eq_solidContents (h.plain s hs),
    List.flatMap_congr fun s hs =>
      Span.contents_eq_solidContents (codeAll_tidySpans Text.isPlain_space h.plain s hs)] at htidy

/-- Spans without marks are blank. -/
theorem isAsciiBlank_of_marks (h : IsBareRow spans) (hmarks : spans.flatMap Span.marks = []) :
    ∀ s ∈ spans, s.isCode = true ∧ ∀ c ∈ s.text, Text.isAsciiBlank c = true := by
  intro s hs
  have hnone := List.flatMap_eq_nil_iff.1 hmarks s hs
  have hcomment := h.comments s hs
  rw [Span.marks] at hnone
  rw [Span.isComment] at hcomment
  cases hkind : s.kind with
  | code =>
    rw [hkind] at hnone
    exact ⟨by rw [Span.isCode, hkind]; rfl,
      isAsciiBlank_of_solidLabels ((solidLabels_eq_nil_iff s.text).2 hnone)⟩
  | string => rw [hkind] at hnone; cases hnone
  | comment => rw [hkind] at hcomment; cases hcomment

theorem tidy (h : IsBareRow spans) : IsBareRow (tidySpans spans) := by
  obtain ⟨halternates, hne⟩ := alternates_tidySpans h.alternates h.solid
  refine ⟨halternates, fun s hs _ => hne s hs, codeAll_tidySpans Text.isPlain_space h.plain,
    fun s hs => ?_⟩
  cases hcode : s.isCode with
  | true => rw [Span.isComment, kind_of_isCode hcode]; rfl
  | false => exact h.comments s ((of_mem_tidySpans hs).1 hcode)

/-- A line is left empty exactly if it has no marks. -/
theorem tidySpans_eq_nil_iff (h : IsBareRow spans) :
    tidySpans spans = [] ↔ spans.flatMap Span.marks = [] := by
  have hsame := marks_of_solidContents h.solidContents_tidySpans
  constructor
  · intro hnil
    rw [← hsame, hnil, List.flatMap_nil]
  · intro hmarks
    by_contra hne
    -- a tidy line begins with no blank
    have htidy := isTidy_tidySpans h.alternates h.solid hne
    rw [← hsame] at hmarks
    obtain ⟨s, more, hspans⟩ := List.exists_cons_of_ne_nil hne
    have hs : s ∈ tidySpans spans := hspans ▸ List.mem_cons_self
    obtain ⟨hcode, hblank⟩ := h.tidy.isAsciiBlank_of_marks hmarks s hs
    obtain ⟨c, t, htext⟩ := List.exists_cons_of_ne_nil (htidy.solid s hs)
    have hhead := htidy.head s (by rw [hspans]; rfl) hcode c (by rw [htext]; rfl)
    rw [Text.isBlank_of_isAsciiBlank (hblank c (htext ▸ List.mem_cons_self))] at hhead
    cases hhead

end IsBareRow

theorem filter_filterMap {α β : Type} (gone : α → Bool) (f : α → β) (p : β → Bool) (xs : List α) :
    (xs.filterMap fun x => if gone x then none else some (f x)).filter p =
      (xs.filter fun x => p (f x) && !gone x).map f := by
  induction xs with
  | nil => rfl
  | cons x xs ih =>
    rw [List.filterMap_cons, List.filter_cons]
    cases hgone : gone x with
    | true => simpa using ih
    | false => cases hp : p (f x) <;> simp [hp, ih]

/-- The lines with code that are no debug statements, without comments and with their numbers. -/
def left (isDebug : Text → Bool) (spans : List Span) : List (Line × Nat) :=
  survivors (splitLines (uncomment spans)) (isDebugLine isDebug (splitLines (uncomment spans)))

theorem getElem?_of_mem_left {x : Line × Nat} (h : x ∈ left isDebug spans) :
    (splitLines (uncomment spans))[x.2]? = some x.1 :=
  List.mk_mem_zipIdx_iff_getElem?.1 (List.mem_filter.1 h).1

section

variable (hne : ∀ s ∈ spans, s.text ≠ []) (hplain : ∀ s ∈ spans, s.CodeAll Text.IsPlain)

include hne hplain

theorem isBareRow_of_splitLines {i : Nat} {l : Line}
    (hl : (splitLines (uncomment spans))[i]? = some l) : IsBareRow l.spans := by
  refine isBareRow_splitRows hne hplain l.toRow ?_
  rw [← toRow_splitLines]
  exact List.mem_map_of_mem (List.mem_of_getElem? hl)

/-- The lines that are kept are those that are left, tidied. -/
theorem kept_eq_left : kept isDebug spans = (left isDebug spans).map fun x => tidy x.1 := by
  have hkept : kept isDebug spans = ((splitLines (uncomment spans)).zipIdx.filterMap fun x =>
      if isDebugLine isDebug (splitLines (uncomment spans)) x.2 then none
      else some (tidy x.1)).filter fun l => !l.spans.isEmpty := by
    rw [kept, List.filterMap_map]
    rfl
  rw [hkept, filter_filterMap, left, survivors]
  congr 1
  refine List.filter_congr fun x hx => ?_
  have hl : (splitLines (uncomment spans))[x.2]? = some x.1 := List.mk_mem_zipIdx_iff_getElem?.1 hx
  have hempty := (isBareRow_of_splitLines hne hplain hl).tidySpans_eq_nil_iff
  have hcode : (!(tidy x.1).spans.isEmpty) = x.1.hasCode := by
    rw [hasCode_of_splitLines hl, Bool.eq_iff_iff, Bool.not_eq_true', List.isEmpty_eq_false_iff,
      List.isSome_head?]
    exact not_congr hempty
  rw [hcode, survives]

/-- The lines of a stripped script are those that are kept, if there are any. -/
theorem spans_splitLines_strip {k : Nat} {x : Line × Nat} (hk : (left isDebug spans)[k]? = some x) :
    (splitLines (strip isDebug spans).1).map (fun l => l.spans) =
      (left isDebug spans).map fun x => tidySpans x.1.spans := by
  have hkept := @kept_eq_left isDebug spans hne hplain
  have hsome : kept isDebug spans ≠ [] := by
    rw [hkept, Ne, List.map_eq_nil_iff]
    exact List.ne_nil_of_mem (List.mem_of_getElem? hk)
  have hrows := spans_splitRows_joinLines hsome fun l hl => (isTidy_of_mem_kept hne l hl).2
  rw [← strip_fst, ← toRow_splitLines, List.map_map, hkept, List.map_map] at hrows
  exact hrows

/-- The lines of a stripped script hold what the lines that are left held. -/
theorem solidContents_strip {k : Nat} {x : Line × Nat} (hk : (left isDebug spans)[k]? = some x) :
    (splitLines (strip isDebug spans).1).map Line.solidContents =
      (left isDebug spans).map fun x => x.1.solidContents := by
  have hspans := congrArg (List.map (List.flatMap Span.solidContents))
    (spans_splitLines_strip hne hplain hk)
  rw [List.map_map, List.map_map] at hspans
  exact Eq.trans hspans (List.map_congr_left fun x hx =>
    (isBareRow_of_splitLines hne hplain (getElem?_of_mem_left hx)).solidContents_tidySpans)

theorem marks_strip {k : Nat} {x : Line × Nat} (hk : (left isDebug spans)[k]? = some x) :
    (splitLines (strip isDebug spans).1).map (fun l => l.marks) =
      (left isDebug spans).map fun x => x.1.marks := by
  have hsame := congrArg (List.map (List.filterMap Content.mark?))
    (solidContents_strip hne hplain hk)
  rw [List.map_map, List.map_map] at hsame
  simpa only [Function.comp_def, ← Line.marks_eq] using hsame

/-- A line without code is blank. -/
theorem isBlank_of_hasCode {i : Nat} {l : Line} (hl : (splitLines (uncomment spans))[i]? = some l)
    (h : l.hasCode = false) : ∀ c ∈ render l.spans, Text.isBlank c = true := by
  rw [hasCode_of_splitLines hl, Option.isSome_eq_false_iff, Option.isNone_iff_eq_none,
    List.head?_eq_none_iff] at h
  have hblank := (isBareRow_of_splitLines hne hplain hl).isAsciiBlank_of_marks h
  intro c hc
  obtain ⟨s, hs, hc⟩ := List.mem_flatMap.1 hc
  exact Text.isBlank_of_isAsciiBlank ((hblank s hs).2 c hc)

end

theorem map_snd_zipIdx (lines : List Line) :
    lines.zipIdx.map Prod.snd = List.range lines.length := by
  rw [List.zipIdx_map_snd, List.range_eq_range']

/-- The numbers of the lines that are left. -/
theorem map_snd_survivors (lines : List Line) (gone : Nat → Bool) :
    (survivors lines gone).map Prod.snd = (List.range lines.length).filter fun i =>
      lines[i]?.any Line.hasCode && !gone i := by
  rw [← map_snd_zipIdx, List.filter_map, survivors]
  congr 1
  refine List.filter_congr fun x hx => ?_
  have hl : lines[x.2]? = some x.1 := List.mk_mem_zipIdx_iff_getElem?.1 hx
  rw [Function.comp_apply, hl]
  rfl

theorem debugLines_eq (isDebug : Text → Bool) (spans : List Span) :
    (strip isDebug spans).2.debugLines =
      (List.range (splitLines (uncomment spans)).length).countP
        (isDebugLine isDebug (splitLines (uncomment spans))) := by
  rw [← map_snd_zipIdx, List.countP_map]
  exact List.countP_map ..

/-- A debug statement can be wrapped. -/
theorem isWrappable_of_isDebugLine {lines : List Line} (i : Nat)
    (h : isDebugLine isDebug lines i = true) : isWrappable lines i = true :=
  (Bool.and_eq_true_iff.1 h).1

end Strip

/-! ## Lines of which the same is known -/

/-- Whether lines hold the same, and the same is known about them. -/
structure SameLines (lines lines' : List Line) : Prop where
  contents_eq : lines'.map Line.solidContents = lines.map Line.solidContents
  facts_eq : lines'.map Line.facts = lines.map Line.facts

namespace SameLines

variable {lines lines' : List Line} (h : SameLines lines lines')

include h

theorem length_eq : lines'.length = lines.length := by
  simpa only [List.length_map] using congrArg List.length h.facts_eq

theorem line {i : Nat} {l l' : Line} (hl : lines[i]? = some l) (hl' : lines'[i]? = some l') :
    l'.solidContents = l.solidContents ∧ l'.facts = l.facts := by
  have hheld := congrArg (fun contents : List (List Content) => contents[i]?) h.contents_eq
  have hknown := congrArg (fun facts : List LineFacts => facts[i]?) h.facts_eq
  simp only [List.getElem?_map, hl, hl', Option.map_some, Option.some.injEq] at hheld hknown
  exact ⟨hheld, hknown⟩

theorem any_hasCode (i : Nat) : lines'[i]?.any Line.hasCode = lines[i]?.any Line.hasCode := by
  have hknown := congrArg (fun facts : List LineFacts => facts[i]?.any fun f => f.first.isSome)
    h.facts_eq
  simp only [List.getElem?_map, Option.any_map] at hknown
  exact hknown

/-- Lines of which the same is known are judged alike. -/
theorem isWrappable_eq (i : Nat) : isWrappable lines' i = isWrappable lines i := by
  have hbare : ∀ lines : List Line, lines.map Line.bare =
      (lines.map Line.facts).map fun facts => ⟨⟨[], none⟩, facts⟩ := by
    intro lines
    rw [List.map_map]
    rfl
  rw [← (judged_map_bare lines' i).1, ← (judged_map_bare lines i).1, hbare, hbare, h.facts_eq]

end SameLines

/-- Comments change nothing that lines hold and that is known about them. -/
theorem sameLines_uncomment {spans : List Span} (h : Alternates spans)
    (hplain : ∀ s ∈ spans, s.CodeAll Text.IsPlain) :
    SameLines (splitLines spans) (splitLines (Strip.uncomment spans)) := by
  refine ⟨?_, facts_uncomment h hplain⟩
  rw [map_solidContents_splitLines, map_solidContents_splitLines]
  exact solidContents_uncomment h hplain

/-! ## Stripped scripts -/

/--
What becomes of the lines of a script when debug statements are stripped, given the numbers of the
lines that are left. The text of a line is read with a blank for each comment.
-/
structure LinesStripped (isDebug : Text → Bool) (spans : List Span) (left : List Nat) : Prop where
  /-- Exactly the lines that can be wrapped and satisfy the predicate are taken out, and those
  without code, which are blank. -/
  left_eq : left = (List.range (splitLines spans).length).filter fun i =>
    (splitLines spans)[i]?.any Line.hasCode && !(isWrappable (splitLines spans) i &&
      (splitLines (Strip.uncomment spans))[i]?.any fun l => isDebug (render l.spans))
  debugLines_eq : (strip isDebug spans).2.debugLines =
    (List.range (splitLines spans).length).countP fun i => isWrappable (splitLines spans) i &&
      (splitLines (Strip.uncomment spans))[i]?.any fun l => isDebug (render l.spans)
  blank : ∀ (i : Nat) (l l' : Line), (splitLines spans)[i]? = some l → l.hasCode = false →
    (splitLines (Strip.uncomment spans))[i]? = some l' → ∀ c ∈ render l'.spans, Text.isBlank c = true
  /-- The others are the lines of the stripped script. -/
  length_eq : left ≠ [] → (splitLines (strip isDebug spans).1).length = left.length
  eq_nil : left = [] → (strip isDebug spans).1 = []
  /-- A line that is left holds what it held, and is known as before, but for exits that wait. -/
  kept : ∀ (k i : Nat) (l : Line), left[k]? = some i → (splitLines spans)[i]? = some l →
    ∃ l', (splitLines (strip isDebug spans).1)[k]? = some l' ∧
      l'.solidContents = l.solidContents ∧
      l'.facts.depthBefore = l.facts.depthBefore ∧ l'.facts.depthAfter = l.facts.depthAfter ∧
      ∃ exitPending, l'.facts = { l.facts with exitPending }
  /-- A line that is left can be wrapped as before. -/
  isWrappable_eq : ∀ k i : Nat, left[k]? = some i →
    isWrappable (splitLines (strip isDebug spans).1) k = isWrappable (splitLines spans) i

/-- What holds of all characters of a script holds of its code. -/
theorem codeAll_of_scan {p : Char → Prop} {source : Text} {spans : List Span}
    (h : scan source = .ok spans) (hsource : ∀ c ∈ source, p c) : ∀ s ∈ spans, s.CodeAll p := by
  intro s hs _ c hc
  refine hsource c ?_
  rw [← render_scan h]
  exact List.mem_flatMap.2 ⟨s, hs, hc⟩

/-- Stripping debug statements leaves the other lines as they were. -/
theorem strip_leaves_lines (isDebug : Text → Bool) {source : Text} {spans : List Span}
    (h : scan source = .ok spans) (hplain : ∀ s ∈ spans, s.CodeAll Text.IsPlain) :
    ∃ left, LinesStripped isDebug spans left := by
  obtain ⟨halternates, hne⟩ := alternates_of_scan h
  have hsame := sameLines_uncomment halternates hplain
  refine ⟨(Strip.left isDebug spans).map Prod.snd, ?_, ?_, fun i l l' hl hnone hl' => ?_,
    fun hleft => ?_, fun hnil => ?_, fun k i l hk hl => ?_, fun k i hk => ?_⟩
  · rw [Strip.left, Strip.map_snd_survivors, hsame.length_eq]
    refine List.filter_congr fun i _ => ?_
    rw [hsame.any_hasCode, Strip.isDebugLine, hsame.isWrappable_eq]
  · rw [Strip.debugLines_eq, hsame.length_eq]
    refine congrArg (List.countP · _) (funext fun i => ?_)
    rw [Strip.isDebugLine, hsame.isWrappable_eq]
  · refine Strip.isBlank_of_hasCode hne hplain hl' ?_
    rw [Line.hasCode, (hsame.line hl hl').2]
    exact hnone
  · obtain ⟨x, more, hx⟩ := List.exists_cons_of_ne_nil (mt List.map_eq_nil_iff.2 hleft)
    have hk : (Strip.left isDebug spans)[0]? = some x := by rw [hx]; rfl
    simpa only [List.length_map] using
      congrArg List.length (Strip.solidContents_strip hne hplain hk)
  · rw [Strip.strip_fst, Strip.kept_eq_left hne hplain, List.map_eq_nil_iff.1 hnil]
    rfl
  · rw [List.getElem?_map, Option.map_eq_some_iff] at hk
    obtain ⟨x, hk, rfl⟩ := hk
    obtain ⟨hheld, hknown⟩ :=
      hsame.line hl (Strip.getElem?_of_mem_left (List.mem_of_getElem? hk))
    have hcontents := congrArg (fun contents : List (List Content) => contents[k]?)
      (Strip.solidContents_strip hne hplain hk)
    simp only [List.getElem?_map, hk, Option.map_some, Option.map_eq_some_iff] at hcontents
    obtain ⟨l', hl', hholds⟩ := hcontents
    obtain ⟨exitPending, hfacts⟩ := facts_of_survivor Strip.isWrappable_of_isDebugLine
      (Strip.marks_strip hne hplain hk) hk hl'
    rw [hknown] at hfacts
    exact ⟨l', hl', hholds.trans hheld, by rw [hfacts], by rw [hfacts], exitPending, hfacts⟩
  · rw [List.getElem?_map, Option.map_eq_some_iff] at hk
    obtain ⟨x, hk, rfl⟩ := hk
    rw [isWrappable_of_survivor Strip.isWrappable_of_isDebugLine
      (Strip.marks_strip hne hplain hk) hk, hsame.isWrappable_eq]

/-- The second line of a call stays, though it looks like a debug statement. -/
theorem print_stripped : ∃ spans,
    scan "f(\np(1))\n  p(2) -- b\n\ng()".toList = .ok spans ∧
    (∀ s ∈ spans, s.CodeAll Text.IsPlain) ∧
    (strip (Text.occursIn "p(".toList) spans).2.debugLines = 1 ∧
    (splitLines (strip (Text.occursIn "p(".toList) spans).1).length = 3 ∧
    isWrappable (splitLines (strip (Text.occursIn "p(".toList) spans).1) 2 = true := by
  have hscan : scan "f(\np(1))\n  p(2) -- b\n\ng()".toList =
      .ok [⟨.code, "f(\np(1))\n  p(2) ".toList, 0, 16⟩, ⟨.comment, "-- b".toList, 16, 20⟩,
        ⟨.code, "\n\ng()".toList, 20, 25⟩] := by decide +kernel
  have hascii : ∀ c ∈ "f(\np(1))\n  p(2) -- b\n\ng()".toList, Text.IsPlain c := by
    simp [Text.IsPlain]
  have hplain := codeAll_of_scan hscan hascii
  obtain ⟨left, hleft⟩ := strip_leaves_lines (Text.occursIn "p(".toList) hscan hplain
  obtain rfl : left = [0, 1, 4] := hleft.left_eq.trans (by decide +kernel)
  exact ⟨_, hscan, hplain, hleft.debugLines_eq.trans (by decide +kernel),
    hleft.length_eq (List.cons_ne_nil _ _),
    (hleft.isWrappable_eq 2 4 rfl).trans (by decide +kernel)⟩

end LuaVeil
