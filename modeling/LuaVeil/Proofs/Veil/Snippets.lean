/-
# Guards and decoys are found again

A guard is put around the spans of a line, and a decoy is put on a line of its own.
Both are code in which nothing opens, but for one template that has a literal; so the
spans of the script are found again between them, and the literals of decoys with
them.

Main statements:

* `undisturbed_guardLines`, the script with guards;
* `resolved_injectDecoys`, the script with decoys, as a scan finds its spans.
-/
import LuaVeil.Proofs.Random.Draws
import LuaVeil.Proofs.Veil.Undisturbed

namespace LuaVeil

/-! ## Guards -/

section

variable {p : OpaquePredicate} {l : Line}

theorem blank_of_mem_indent : ∀ c ∈ l.indent, c = ' ' ∨ c = '\t' := by
  intro c hc
  rw [Line.indent] at hc
  split at hc
  · split at hc
    · simpa using List.mem_takeWhile_imp hc
    · cases hc
  · cases hc

theorem isInert_of_mem_indent : ∀ c ∈ l.indent, isInert c = true := by
  intro c hc
  rcases blank_of_mem_indent c hc with rfl | rfl <;> decide

/-- A guard is a call with a number from one to the largest argument. -/
theorem exists_guard_eq (p : OpaquePredicate) (source : Source) :
    ∃ n, 1 ≤ n ∧ n ≤ OpaquePredicate.maxArgument ∧
      (p.guard source).1 = p.name ++ '(' :: Number.decimalInt n ++ [')'] := by
  obtain ⟨hlow, hhigh⟩ :=
    Draw.between_mem .word (by decide : 1 ≤ OpaquePredicate.maxArgument) source
  exact ⟨_, hlow, hhigh, rfl⟩

theorem ne_lineFeed_of_mem_decimalInt (n : Int) : '\n' ∉ Number.decimalInt n := by
  have hdigits : '\n' ∉ Number.decimal n.natAbs := fun hmem =>
    absurd (all_isDigit_decimal _ _ hmem) (by decide)
  unfold Number.decimalInt
  split
  · exact List.not_mem_cons_of_ne_of_not_mem (by decide) hdigits
  · exact hdigits

/-- Nothing opens in a guard, and it is on one line. -/
theorem quiet_guard (hname : isWord p.name = true) (source : Source) :
    (∀ rest, StaysCode (p.guard source).1 rest) ∧ '\n' ∉ (p.guard source).1 := by
  obtain ⟨n, -, -, hguard⟩ := exists_guard_eq p source
  rw [hguard, List.append_assoc, List.cons_append]
  constructor
  · intro rest
    have hopen : ∀ rest, StaysCode ['('] rest :=
      staysCode_of_isInert (List.forall_mem_singleton.2 (by decide))
    have hclose : ∀ rest, StaysCode [')'] rest :=
      staysCode_of_isInert (List.forall_mem_singleton.2 (by decide))
    refine (staysCode_of_isWord hname _).append (StaysCode.append (a := ['(']) (hopen _) ?_)
    exact (staysCode_decimalInt n _).append (hclose rest)
  · simp only [List.mem_append, List.mem_cons, not_or]
    exact ⟨fun hmem => absurd (isWordChar_of_mem hname _ hmem) (by decide), by decide,
      ne_lineFeed_of_mem_decimalInt n, by decide, List.not_mem_nil⟩

theorem steady_dropIndent (h : Steady l.spans) : Steady (Guard.dropIndent l) := by
  obtain ⟨⟨spans, newlineAt⟩, facts⟩ := l
  cases spans with
  | nil => exact .empty
  | cons s spans =>
    let indent := Line.indent ⟨⟨s :: spans, newlineAt⟩, facts⟩
    show Steady ((if s.isCode = true then { s with text := s.text.drop indent.length } else s) ::
      spans)
    split
    · next hs =>
      obtain ⟨hcode, -, hnext⟩ := Steady.head h
      have hcut := List.take_append_drop indent.length s.text
      refine (Steady.tail h).cons (fun _ => ?_)
        (fun hno => absurd (hno.symm.trans hs) (by decide)) fun n hn _ rest => ?_
      · have hwhole := hcode hs
        rw [← hcut] at hwhole
        exact hwhole.right
      · have hwhole := hnext n hn hs rest
        rw [← hcut] at hwhole
        exact hwhole.right
    · exact h

theorem onOneLine_dropIndent (h : ∀ s ∈ l.spans, s.OnOneLine) :
    ∀ s ∈ Guard.dropIndent l, s.OnOneLine := by
  obtain ⟨⟨spans, newlineAt⟩, facts⟩ := l
  cases spans with
  | nil => exact h
  | cons s spans =>
    obtain ⟨hs, hspans⟩ := List.forall_mem_cons.1 h
    refine List.forall_mem_cons.2 ⟨?_, hspans⟩
    dsimp only
    split
    · exact fun hcode hmem => hs hcode (List.mem_of_mem_drop hmem)
    · exact hs

theorem stringSpans_dropIndent (l : Line) :
    stringSpans (Guard.dropIndent l) = stringSpans l.spans := by
  obtain ⟨⟨spans, newlineAt⟩, facts⟩ := l
  cases spans with
  | nil => rfl
  | cons s spans =>
    show stringSpans ((if s.isCode = true then _ else s) :: spans) = _
    split
    · next hs =>
      have hnew : ∀ text, Span.isCode { s with text := text } = true := fun _ => hs
      rw [stringSpans, stringSpans, List.filter_cons_of_neg (by simp [hnew]),
        List.filter_cons_of_neg (by simp [hs])]
    · rfl

theorem onOneLine_wrap (hname : isWord p.name = true) (source : Source)
    (hline : ∀ s ∈ l.spans, s.OnOneLine) :
    ∀ s ∈ (Guard.wrap (p.guard source).1 l).spans, s.OnOneLine := by
  obtain ⟨-, hfeed⟩ := quiet_guard hname source
  have hlines := onOneLine_dropIndent hline
  generalize hspans : Guard.dropIndent l = spans at hlines
  simp only [Guard.wrap, hspans]
  generalize (spans.reverse.dropWhile Span.isComment).length = tail
  rw [← List.take_append_drop tail spans] at hlines
  obtain ⟨hbefore, hafter⟩ := List.forall_mem_append.1 hlines
  refine List.forall_mem_cons.2 ⟨fun _ hmem => ?_, List.forall_mem_append.2 ⟨hbefore,
    List.forall_mem_cons.2 ⟨fun _ => ?_, hafter⟩⟩⟩
  · simp only [Span.codeAt, List.mem_append] at hmem
    rcases hmem with ((hmem | hmem) | hmem) | hmem
    · exact absurd (blank_of_mem_indent _ hmem) (by decide)
    · exact absurd hmem (by decide)
    · exact hfeed hmem
    · exact absurd hmem (by decide)
  · show '\n' ∉ " end".toList
    decide

/-- What is no code stays as it is when a line is put into a guard. -/
theorem stringSpans_wrap (guard : Text) (l : Line) :
    stringSpans (Guard.wrap guard l).spans = stringSpans l.spans := by
  rw [← stringSpans_dropIndent l]
  simp only [Guard.wrap]
  generalize ((Guard.dropIndent l).reverse.dropWhile Span.isComment).length = tail
  conv_rhs => rw [← List.take_append_drop tail (Guard.dropIndent l)]
  simp only [stringSpans, List.filter_append, List.filter_cons, Span.codeAt, Span.isCode]
  rfl

/-- What is put around a line opens nothing. -/
theorem staysCode_guard (hname : isWord p.name = true) (source : Source) (l : Line) :
    (∀ rest, StaysCode (l.indent ++ "if ".toList ++ (p.guard source).1 ++ " then ".toList) rest) ∧
      ∀ rest, StaysCode " end".toList rest := by
  have hplain : ∀ {c : Text}, c.all beginsNothing = true → ∀ rest, StaysCode c rest :=
    fun h => staysCode_of_beginsNothing (List.all_eq_true.1 h)
  refine ⟨fun rest => ?_, hplain (by decide)⟩
  exact (((staysCode_of_isInert isInert_of_mem_indent _).append (hplain (by decide) _)).append
    ((quiet_guard hname source).1 _)).append (hplain (by decide) rest)

/-- A line in a guard stands. -/
theorem steady_wrap (hname : isWord p.name = true) (source : Source) (h : Steady l.spans) :
    Steady (Guard.wrap (p.guard source).1 l).spans := by
  obtain ⟨hfront, hend⟩ := staysCode_guard hname source l
  have hdrop := steady_dropIndent h
  generalize hspans : Guard.dropIndent l = spans at hdrop
  simp only [Guard.wrap, hspans]
  generalize (spans.reverse.dropWhile Span.isComment).length = tail
  rw [← List.take_append_drop tail spans] at hdrop
  refine (hdrop.left.insert hdrop.right rfl hend (fun c hc => ?_) (List.cons_ne_nil _ _)).cons
    (fun _ => hfront []) (fun hno => by cases hno) fun _ _ _ rest => hfront _
  obtain rfl := Option.some.inj hc
  decide

/-- What is no code stays as it is when lines are put into guards. -/
theorem stringSpans_guardLines (chance : Probability) (p : OpaquePredicate) (spans : List Span)
    (source : Source) :
    stringSpans (guardLines chance p spans source).1.1 = stringSpans spans := by
  rw [guardLines_spans, stringSpans_joinLines,
    Guard.flatMap_put fun l _ source' => stringSpans_wrap _ l, stringSpans_splitLines]

/-- A script with guards is undisturbed, and its strings are as they were. -/
theorem undisturbed_guardLines {chance : Probability} {spans : List Span}
    (hname : isWord p.name = true) (h : Undisturbed spans) (source : Source) :
    let out := (guardLines chance p spans source).1.1
    Undisturbed out ∧ stringSpans out = stringSpans spans := by
  refine ⟨?_, stringSpans_guardLines chance p spans source⟩
  have hput : ∀ l ∈ (splitLines spans).mapIdx (Guard.put (Guard.drawn chance p spans source).1),
      Steady l.spans ∧ ∀ s ∈ l.spans, s.OnOneLine := by
    intro l hl
    obtain ⟨i, hi, rfl⟩ := List.mem_mapIdx.1 hl
    obtain ⟨hsteady, hline⟩ := h.lines (List.getElem_mem hi)
    rcases Guard.put_cases chance p spans source i (splitLines spans)[i] with hput | ⟨source', hput⟩
    · rw [hput]
      exact ⟨hsteady, hline⟩
    · rw [hput]
      exact ⟨steady_wrap hname source' hsteady, onOneLine_wrap hname source' hline⟩
  rw [guardLines_spans]
  exact ⟨Strip.steady_joinLines fun l hl => (hput l hl).1,
    feeds_joinLines fun l hl => (hput l hl).2⟩

end

/-! ## Spans of code that holds strings -/

/-- What a scan finds in a span of code; other spans are left as they are. -/
def Span.parts (s : Span) : List Span :=
  if s.isCode then scanned s.text else [s]

/--
Whether a scan finds spans that stand in the code of a script, and strings with some texts. Nothing
is lost in this.
-/
structure Resolved (spans : List Span) (texts : List Text) : Prop where
  steady : Steady (spans.flatMap Span.parts)
  solid : ∀ s ∈ spans.flatMap Span.parts, s.text ≠ []
  render_eq : render (spans.flatMap Span.parts) = render spans
  strings : stringTexts (spans.flatMap Span.parts) = texts

theorem scan_of_staysCode {t : Text} (h : StaysCode t []) : scan t = .ok (codeSpans 0 t) := by
  have hsplit : splitCode t = (t, []) := by
    rw [StaysCode, List.append_nil, splitCode, List.append_nil] at h
    exact h
  rw [scan, scanFrom_eq, hsplit]
  rfl

theorem scanned_of_staysCode {t : Text} (h : StaysCode t []) : scanned t = codeSpans 0 t :=
  scanned_of_scan (scan_of_staysCode h)

theorem stringTexts_append (xs ys : List Span) :
    stringTexts (xs ++ ys) = stringTexts xs ++ stringTexts ys := by
  rw [stringTexts, List.filter_append, List.map_append]
  rfl

/-- The strings of spans that stand are those that are no code. -/
theorem filter_string_of_steady {spans : List Span} (h : Steady spans) :
    (spans.filter fun s => s.kind == .string) = stringSpans spans := by
  refine List.filter_congr fun s hs => ?_
  cases hcode : s.isCode with
  | true => rw [Strip.kind_of_isCode hcode]; rfl
  | false => rw [(h.string s hs hcode).1]; rfl

theorem parts_of_string {s : Span} (h : s.isCode = false) : s.parts = [s] := by
  rw [Span.parts, if_neg (by simp [h])]

/-- A span as it is found when its code is scanned alone. -/
def Span.alone (s : Span) : Span :=
  if s.isCode then ⟨.code, s.text, 0, 0 + Text.byteSize s.text⟩ else s

theorem Span.shape_alone (s : Span) : s.alone.shape = s.shape := by
  unfold alone
  split
  · next hs => rw [Span.shape, Span.shape, Strip.kind_of_isCode hs]
  · rfl

@[simp] theorem Span.isCode_alone (s : Span) : s.alone.isCode = s.isCode :=
  congrArg (fun shape => shape.1 == .code) s.shape_alone

@[simp] theorem Span.kind_alone (s : Span) : s.alone.kind = s.kind :=
  congrArg Prod.fst s.shape_alone

@[simp] theorem Span.text_alone (s : Span) : s.alone.text = s.text :=
  congrArg Prod.snd s.shape_alone

theorem stringTexts_map_alone (spans : List Span) :
    stringTexts (spans.map Span.alone) = stringTexts spans := by
  refine stringTexts_of_shape ?_
  rw [List.map_map]
  exact List.map_congr_left fun s _ => s.shape_alone

/-- A string that stands holds something. -/
theorem Steady.text_ne_nil {spans : List Span} (h : Steady spans) {s : Span} (hs : s ∈ spans)
    (hstring : s.isCode = false) : s.text ≠ [] := by
  intro hnil
  have hreads := (h.string s hs hstring).2 []
  rw [Span.Reads, if_neg (by simp [hstring]), hnil] at hreads
  obtain ⟨c, t, htext, -⟩ := exists_of_closed hreads.1
  cases htext

/-- In code that stands nothing else is found. -/
theorem Steady.flatMap_parts {spans : List Span} (h : Steady spans) :
    spans.flatMap Span.parts = (spans.filter fun s => !s.text.isEmpty).map Span.alone := by
  induction spans with
  | nil => rfl
  | cons s spans ih =>
    rw [List.flatMap_cons, ih h.tail]
    cases hkind : s.isCode with
    | true =>
      rw [Span.parts, if_pos hkind, scanned_of_staysCode (h.code s List.mem_cons_self hkind),
        codeSpans]
      by_cases hempty : s.text.isEmpty = true
      · rw [if_pos hempty, List.filter_cons_of_neg (by simp [hempty]), List.nil_append]
      · rw [if_neg hempty, List.filter_cons_of_pos (by simp [hempty])]
        simp [Span.alone, hkind]
    | false =>
      have hsolid := h.text_ne_nil List.mem_cons_self hkind
      rw [parts_of_string hkind, List.filter_cons_of_pos (by simp [hsolid])]
      simp [Span.alone, hkind]

/-- Code that stands is found as it is. -/
theorem Resolved.of_steady {spans : List Span} (h : Steady spans) :
    Resolved spans (stringTexts spans) := by
  have hfilter := h.filter
  refine ⟨?_, ?_, ?_, ?_⟩
  · rw [h.flatMap_parts]
    refine hfilter.recast (List.forall₂_map_right_iff.2 (List.forall₂_same.2 fun s hs => ?_))
    refine ⟨s.isCode_alone, ?_, fun hstring => ?_⟩
    · rw [s.text_alone]
      exact .refl _
    · exact (hfilter.string s hs hstring).congr s.kind_alone s.text_alone
  · rw [h.flatMap_parts]
    intro s hs
    obtain ⟨t, ht, rfl⟩ := List.mem_map.1 hs
    rw [t.text_alone]
    simpa using (List.mem_filter.1 ht).2
  · have hsolid : (spans.filter fun s => !s.text.isEmpty).flatMap Span.text =
        spans.flatMap Span.text :=
      Strip.flatMap_filter fun s _ hempty => by simpa using hempty
    rw [h.flatMap_parts, render, List.flatMap_map, render, ← hsolid]
    exact List.flatMap_congr fun s _ => s.text_alone
  · rw [h.flatMap_parts, stringTexts_map_alone, stringTexts, List.filter_filter, stringTexts]
    refine congrArg _ (List.filter_congr fun s hs => ?_)
    cases hkind : s.kind with
    | string =>
      have hsolid := h.text_ne_nil hs (by simp [Span.isCode, hkind])
      simp [hsolid]
    | _ => rfl

/-- Code and literals are found as they are, in a span of code too. -/
theorem Resolved.of_readable {t : Text} {literals : List Text} (h : Readable t literals)
    (place : Nat) : Resolved [.codeAt t place] literals := by
  obtain ⟨spans, hscan, hquiet, htexts⟩ := h.scanned
  have hparts : [Span.codeAt t place].flatMap Span.parts = spans := by
    rw [List.flatMap_singleton]
    exact scanned_of_scan hscan
  refine ⟨?_, ?_, ?_, ?_⟩ <;> rw [hparts]
  · exact hquiet.steady
  · exact (alternates_of_scan hscan).2
  · rw [render_scan hscan]
    simp [Span.codeAt]
  · exact htexts

/-- Lines are resolved one by one. -/
theorem resolved_joinLines {lines : List Line} {texts : List (List Text)}
    (h : List.Forall₂ (fun l texts => Resolved l.spans texts) lines texts) :
    Resolved (joinLines lines) texts.flatten := by
  have hfeed : ∀ l : Line, l.lineFeed.parts = [⟨.code, ['\n'], 0, 1⟩] := by
    intro l
    rw [Span.parts, if_pos l.isCode_lineFeed, l.text_lineFeed]
    exact scanned_of_staysCode (by decide)
  have hsteady := Strip.steady_flatMap_joinLines (fun l => ⟨_, hfeed l, rfl, rfl⟩) fun l hl => by
    obtain ⟨_, -, hresolved⟩ := exists_of_mem_right h.flip hl
    exact hresolved.steady
  suffices hrest : (∀ s ∈ (joinLines lines).flatMap Span.parts, s.text ≠ []) ∧
      render ((joinLines lines).flatMap Span.parts) = render (joinLines lines) ∧
      stringTexts ((joinLines lines).flatMap Span.parts) = texts.flatten from
    ⟨hsteady, hrest.1, hrest.2.1, hrest.2.2⟩
  clear hsteady
  induction h with
  | nil => exact ⟨by simp [joinLines], rfl, rfl⟩
  | @cons l xs lines texts hl hlines ih =>
    obtain ⟨-, hsolid, hrender, hstrings⟩ := hl
    cases lines with
    | nil =>
      cases hlines
      rw [joinLines, List.flatten_singleton]
      exact ⟨hsolid, hrender, hstrings⟩
    | cons next lines =>
      obtain ⟨ihsolid, ihrender, ihstrings⟩ := ih
      have hjoin : joinLines (l :: next :: lines) =
          l.spans ++ l.lineFeed :: joinLines (next :: lines) := rfl
      rw [hjoin, List.flatMap_append, List.flatMap_cons, hfeed]
      refine ⟨List.forall_mem_append.2 ⟨hsolid, List.forall_mem_append.2
        ⟨List.forall_mem_singleton.2 (List.cons_ne_nil _ _), ihsolid⟩⟩, ?_, ?_⟩
      · have hline : render (l.lineFeed :: joinLines (next :: lines)) =
            '\n' :: render (joinLines (next :: lines)) := by
          rw [render_cons, l.text_lineFeed]
          rfl
        rw [render_append, render_append, hrender, ihrender, render_append, hline]
        rfl
      · rw [stringTexts_append, stringTexts_append, hstrings, ihstrings]
        rfl

/-! ## Decoys -/

namespace Decoy

/-- Whether a part is code in which nothing opens. -/
def Part.isCalm : Part → Bool
  | text t => t.all beginsNothing
  | _ => true

theorem Part.isCalm_of_mem : ∀ parts ∈ defaultParts, parts.all Part.isCalm = true ∨
    parts = [.text "do local ".toList, .name, .text " = #\"".toList, .number,
      .text "\" end".toList] := by
  decide +kernel

theorem readable_fillParts {name : Name} (hname : isWord name = true) (n : Int)
    {parts : List Part} (h : ∀ part ∈ parts, part.isCalm = true) :
    Readable (fillParts name (Number.decimalInt n) parts) [] := by
  refine .of_code fun rest => ?_
  induction parts with
  | nil => exact .nil rest
  | cons part parts ih =>
    obtain ⟨hpart, hparts⟩ := List.forall_mem_cons.1 h
    refine StaysCode.append ?_ (ih hparts)
    cases part with
    | text t => exact staysCode_of_beginsNothing (List.all_eq_true.1 hpart) _
    | name => exact staysCode_of_isWord hname _
    | negatedName =>
      have hsign : StaysCode ['-'] [] := by decide
      refine StaysCode.append (a := ['-']) (hsign.before fun c hc => ?_)
        (staysCode_of_isWord hname _)
      have hne : name ≠ [] := by
        rintro rfl
        cases hname
      have hmem : c ∈ name := by
        rw [List.head?_append_of_ne_nil _ hne] at hc
        exact List.mem_of_head? hc
      exact (isInert_iff.1 (isInert_of_isWordChar (isWordChar_of_mem hname c hmem))).1
    | number => exact staysCode_decimalInt n _

theorem isStringLiteral_number (n : Int) : IsStringLiteral (quoted (Number.decimalInt n)) := by
  have hdigits : ∀ c ∈ Number.decimal n.natAbs, c ≠ '"' ∧ c ≠ '\\' ∧ c ≠ '\n' := by
    intro c hc
    have hdigit := all_isDigit_decimal _ c hc
    refine ⟨?_, ?_, ?_⟩ <;> rintro rfl <;> exact absurd hdigit (by decide)
  refine isStringLiteral_quoted ?_
  unfold Number.decimalInt
  split
  · exact List.forall_mem_cons.2 ⟨by decide, hdigits⟩
  · exact hdigits

/-- A decoy is code and literals. -/
theorem exists_readable_fill {template : Text} (h : template ∈ [] :: defaultTemplates) (m : Mint) :
    ∃ literals, Readable (fill template m).1.text literals := by
  rcases List.mem_cons.1 h with rfl | h
  · exact ⟨[], .nil⟩
  obtain ⟨name, n, hname, -, htext⟩ := fill_text (occursIn_nameHole template h) m
  rw [defaultTemplates_eq] at h
  obtain ⟨parts, hparts, rfl⟩ := List.mem_map.1 h
  rw [htext, replaceAll_fillParts hname (plain_of_mem_defaultParts parts hparts).1]
  rcases Part.isCalm_of_mem parts hparts with hcalm | rfl
  · exact ⟨[], readable_fillParts hname n (List.all_eq_true.1 hcalm)⟩
  · have hplain : ∀ {c : Text}, c.all beginsNothing = true → ∀ rest, StaysCode c rest :=
      fun h => staysCode_of_beginsNothing (List.all_eq_true.1 h)
    have hpieces : ∀ first equals equals' last last' : Text, equals = equals' ++ ['"'] →
        last = '"' :: last' →
        fillParts name (Number.decimalInt n)
          [.text first, .name, .text equals, .number, .text last] =
          first ++ (name ++ (equals' ++ (quoted (Number.decimalInt n) ++ (last' ++ [])))) := by
      rintro first _ equals' _ last' rfl rfl
      simp [fillParts, Part.shown, quoted, Delimiter.enclose, Delimiter.opening, Delimiter.closing]
    rw [hpieces _ _ " = #".toList _ " end".toList (by decide) (by decide)]
    exact ⟨_, .code (hplain (by decide)) <| .code (staysCode_of_isWord hname) <|
      .code (hplain (by decide)) <| .literal (isStringLiteral_number n) <|
        .code (hplain (by decide)) .nil⟩

/-- The strings on the lines of a script with decoys between them. -/
def lineStrings : List Line → List (Option Filled) → List (List Text)
  | l :: lines, some d :: decoys =>
    stringTexts l.spans :: stringTexts (scanned d.text) :: lineStrings lines decoys
  | l :: lines, none :: decoys => stringTexts l.spans :: lineStrings lines decoys
  | lines, _ => lines.map fun l => stringTexts l.spans

theorem resolved_weave {lines : List Line} {decoys : List (Option Filled)}
    (hlines : ∀ l ∈ lines, Steady l.spans)
    (hdecoys : ∀ d, some d ∈ decoys → ∃ literals, Readable d.text literals) :
    List.Forall₂ (fun l texts => Resolved l.spans texts) (weave lines decoys)
      (lineStrings lines decoys) := by
  fun_induction weave lines decoys with
  | case1 l lines d decoys ih =>
    obtain ⟨hl, hlines⟩ := List.forall_mem_cons.1 hlines
    obtain ⟨literals, hreadable⟩ := hdecoys d List.mem_cons_self
    have hindented : Readable ((lines.head?.getD l).indent ++ d.text) literals :=
      .code (staysCode_of_isInert isInert_of_mem_indent) hreadable
    obtain ⟨spans, hscan, -, htexts⟩ := hreadable.scanned
    rw [lineStrings, scanned_of_scan hscan, htexts]
    exact .cons (.of_steady hl) (.cons (.of_readable hindented l.stop)
      (ih hlines fun d hd => hdecoys d (List.mem_cons_of_mem _ hd)))
  | case2 l lines decoys ih =>
    obtain ⟨hl, hlines⟩ := List.forall_mem_cons.1 hlines
    exact .cons (.of_steady hl) (ih hlines fun d hd => hdecoys d (List.mem_cons_of_mem _ hd))
  | case3 lines decoys hsome hnone =>
    have hrest : lineStrings lines decoys = lines.map fun l => stringTexts l.spans := by
      cases lines with
      | nil => cases decoys <;> rfl
      | cons l lines =>
        cases decoys with
        | nil => rfl
        | cons d decoys =>
          cases d with
          | none => exact absurd rfl (hnone l lines decoys rfl)
          | some d => exact absurd rfl (hsome l lines d decoys rfl)
    rw [hrest, List.forall₂_map_right_iff]
    exact List.forall₂_same.2 fun l hl => .of_steady (hlines l hl)

end Decoy

/-- A scan finds the spans of a script with decoys, and the literals of the decoys. -/
theorem resolved_injectDecoys {chance : Probability} {spans : List Span} (h : Undisturbed spans)
    (m : Mint) :
    Resolved (injectDecoys chance Decoy.defaultTemplates spans m).1.1
      (Decoy.lineStrings (splitLines spans)
        (Decoy.decisions chance Decoy.defaultTemplates spans m).1).flatten := by
  rw [Decoy.injectDecoys_eq (by decide)]
  show Resolved (joinLines (Decoy.weave (splitLines spans)
    (Decoy.decisions chance Decoy.defaultTemplates spans m).1)) _
  refine resolved_joinLines (Decoy.resolved_weave (fun l hl => (h.lines hl).1) fun d hd => ?_)
  rw [Decoy.decisions] at hd
  obtain ⟨template, htemplate, m', rfl⟩ := Decoy.of_mem_scatter hd
  exact Decoy.exists_readable_fill htemplate m'

end LuaVeil
