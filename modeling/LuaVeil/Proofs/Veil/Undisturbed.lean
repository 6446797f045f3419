/-
# Passes disturb no spans

After stripping, a scan finds the spans of a script again wherever these are put next
to one another, and code has its line feeds in spans of their own. The later passes
keep it so: references take the places of literals, gaps are closed with spaces, names
take the places of names. The strings of the script stay in order, but for the
literals.

Main statements:

* `undisturbed_strip`, the script after the first pass;
* `undisturbed_extractStrings`, the script with references in place of its literals;
* `undisturbed_renameLocals`, the script with new names.
-/
import LuaVeil.Proofs.Veil.Front
import LuaVeil.Proofs.Veil.Insertions
import LuaVeil.Proofs.Veil.Renaming
import LuaVeil.Proofs.Veil.StrippedTokens

namespace LuaVeil

/-! ## Parts of spans that stand -/

namespace Steady

variable {s t : Span} {xs ys : List Span}

theorem left (h : Steady (xs ++ ys)) : Steady xs :=
  ⟨fun s hs => h.code s (List.mem_append_left _ hs),
    fun s hs => h.string s (List.mem_append_left _ hs), h.chain.left_of_append⟩

theorem right (h : Steady (xs ++ ys)) : Steady ys :=
  ⟨fun s hs => h.code s (List.mem_append_right _ hs),
    fun s hs => h.string s (List.mem_append_right _ hs), h.chain.right_of_append⟩

/-- Code that nothing before it and nothing after it runs into can stand between all spans. -/
theorem insert (hx : Steady xs) (hy : Steady ys) (hs : s.isCode = true)
    (hquiet : ∀ rest, StaysCode s.text rest)
    (hfirst : ∀ c, s.text.head? = some c → c ≠ '-' ∧ c ≠ '=' ∧ c ≠ '[') (hne : s.text ≠ []) :
    Steady (xs ++ s :: ys) := by
  have hright : Steady (s :: ys) :=
    hy.cons (fun _ => hquiet []) (fun hno => absurd (hno.symm.trans hs) (by decide))
      fun _ _ _ _ => hquiet _
  refine hx.append hright fun a ha b hb hcode rest => ?_
  obtain rfl := Option.some.inj hb
  refine (hx.code a (List.mem_of_getLast? ha) hcode).before fun c hc => hfirst c ?_
  rwa [List.head?_append_of_ne_nil _ hne] at hc

end Steady

/-! ## Undisturbed scripts -/

/-- The spans of a script that are not code. Without comments these are its strings. -/
def stringSpans (spans : List Span) : List Span :=
  spans.filter fun s => !s.isCode

/-- Whether code that holds a line feed is this line feed. -/
def Span.HasLoneFeed (s : Span) : Prop :=
  s.isCode = true → '\n' ∈ s.text → s.text = ['\n']

/-- Whether spans stand, and line feeds of code are spans of their own. -/
structure Undisturbed (spans : List Span) : Prop where
  steady : Steady spans
  feeds : ∀ s ∈ spans, s.HasLoneFeed

theorem hasLoneFeed_of_onOneLine {s : Span} (h : s.OnOneLine) : s.HasLoneFeed :=
  fun hs hfeed => absurd hfeed (h hs)

theorem Span.HasLoneFeed.cases {s : Span} (h : s.HasLoneFeed) :
    s.OnOneLine ∨ s.isCode = true ∧ s.text = ['\n'] := by
  by_cases hline : s.OnOneLine
  · exact .inl hline
  · obtain ⟨hs, hfeed⟩ := Classical.not_imp.1 hline
    exact .inr ⟨hs, h hs (Classical.not_not.1 hfeed)⟩

theorem feeds_joinLines {lines : List Line} (h : ∀ l ∈ lines, ∀ s ∈ l.spans, s.OnOneLine) :
    ∀ s ∈ joinLines lines, s.HasLoneFeed := by
  intro s hs
  rcases Strip.mem_joinLines hs with ⟨l, hl, hs⟩ | ⟨l, rfl⟩
  · exact hasLoneFeed_of_onOneLine (h l hl s hs)
  · exact fun _ _ => l.text_lineFeed

theorem stringSpans_joinLines (lines : List Line) :
    stringSpans (joinLines lines) = lines.flatMap fun l => stringSpans l.spans :=
  filter_joinLines (fun l => by rw [l.isCode_lineFeed]; rfl) lines

theorem stringSpans_splitLines (spans : List Span) :
    ((splitLines spans).flatMap fun l => stringSpans l.spans) = stringSpans spans := by
  have hrows := strings_splitRows spans
  rwa [← toRow_splitLines, List.flatMap_map] at hrows

/-- A script is undisturbed after the first pass. -/
theorem undisturbed_strip (isDebug : Text → Bool) {spans : List Span} (h : Rescans spans)
    (halternates : Alternates spans) (hne : ∀ s ∈ spans, s.text ≠ []) :
    Undisturbed (strip isDebug spans).1 :=
  ⟨steady_strip isDebug h halternates hne,
    feeds_joinLines fun l hl => (Strip.isTidy_of_mem_kept hne l hl).2⟩

/-- The rows of an undisturbed script stand. -/
theorem Undisturbed.steady_rows {spans : List Span} (h : Undisturbed spans) :
    ∀ row ∈ splitRows spans, Steady row.spans := by
  suffices hboth : (∀ row ∈ splitRows spans, Steady row.spans) ∧
      ∀ row, (splitRows spans).head? = some row → ∀ n, row.spans.head? = some n →
        spans.head? = some n from hboth.1
  obtain ⟨hsteady, hfeeds⟩ := h
  induction spans with
  | nil =>
    refine ⟨List.forall_mem_singleton.2 .empty, fun row hrow n hn => ?_⟩
    obtain rfl := Option.some.inj hrow
    cases hn
  | cons s spans ih =>
    obtain ⟨hs, hfeeds⟩ := List.forall_mem_cons.1 hfeeds
    obtain ⟨hcode, hstring, hnext⟩ := hsteady.head
    obtain ⟨hrows, hfirst⟩ := ih hsteady.tail hfeeds
    rcases hs.cases with hline | ⟨hs, hfeed⟩
    · rw [Strip.splitRows_cons hline]
      refine ⟨Strip.steady_consSpan hcode hstring
        (fun row hrow n hn => hnext n (hfirst row hrow n hn)) hrows, fun row hrow n hn => ?_⟩
      cases hspans : splitRows spans with
      | nil =>
        rw [hspans] at hrow
        obtain rfl := Option.some.inj hrow
        exact hn
      | cons first rows =>
        rw [hspans] at hrow
        obtain rfl := Option.some.inj hrow
        exact hn
    · rw [Strip.splitRows_lineFeed hs hfeed]
      refine ⟨List.forall_mem_cons.2 ⟨.empty, hrows⟩, fun row hrow n hn => ?_⟩
      obtain rfl := Option.some.inj hrow
      cases hn

/-- The lines of an undisturbed script stand, and their code is on one line. -/
theorem Undisturbed.lines {spans : List Span} (h : Undisturbed spans) {l : Line}
    (hl : l ∈ splitLines spans) : Steady l.spans ∧ ∀ s ∈ l.spans, s.OnOneLine := by
  have hrow : l.toRow ∈ splitRows spans := by
    rw [← toRow_splitLines]
    exact List.mem_map_of_mem hl
  exact ⟨h.steady_rows l.toRow hrow, Strip.onOneLine_splitRows spans l.toRow hrow⟩

/-! ## References -/

theorem staysCode_reference {table : Name} (h : isWord table = true) (index : Nat) (argument : Bool)
    (rest : Text) : StaysCode (StringTable.reference table index argument) rest := by
  have hslot : ∀ rest, StaysCode (table ++ '[' :: Number.decimal index ++ [']']) rest := by
    intro rest
    refine ((staysCode_of_isWord h _).append (staysCode_subscript index _)).append ?_
    exact staysCode_of_isInert (List.forall_mem_singleton.2 (by decide)) rest
  cases argument with
  | false => exact hslot rest
  | true =>
    have hopen : ∀ rest, StaysCode ['('] rest :=
      staysCode_of_isInert (List.forall_mem_singleton.2 (by decide))
    have hclose : ∀ rest, StaysCode [')'] rest :=
      staysCode_of_isInert (List.forall_mem_singleton.2 (by decide))
    exact StaysCode.append (a := ['(']) (hopen _) ((hslot _).append (hclose rest))

/-- The first character of a reference stands in no opener. -/
theorem isInert_of_head?_reference {table : Name} (h : isWord table = true) {index : Nat}
    {argument : Bool} {c : Char}
    (hc : (StringTable.reference table index argument).head? = some c) : isInert c = true := by
  cases argument with
  | true =>
    obtain rfl := Option.some.inj hc
    decide
  | false =>
    obtain ⟨d, w, rfl⟩ : ∃ d w, table = d :: w := by
      cases table with
      | nil => cases h
      | cons d w => exact ⟨d, w, rfl⟩
    obtain rfl := Option.some.inj hc
    exact isInert_of_isWordChar (isWordChar_of_mem h _ List.mem_cons_self)

/-! ## Gaps -/

theorem recast_joinBreaks (t : Text) : Recast (fun c => isInert c = true) t (joinBreaks t) := by
  induction t with
  | nil => exact .nil
  | cons c t ih =>
    rw [joinBreaks, List.map_cons]
    split
    · next hbreak =>
      have hc : isInert c = true := by
        rw [Bool.or_eq_true, beq_iff_eq, beq_iff_eq] at hbreak
        rcases hbreak with rfl | rfl <;> decide
      have hswap : Recast (fun c => isInert c = true) ([c] ++ t) ([' '] ++ joinBreaks t) :=
        .swap (List.cons_ne_nil _ _) (List.cons_ne_nil _ _) (List.forall_mem_singleton.2 hc)
          (List.forall_mem_singleton.2 (by decide)) ih
      exact hswap
    · exact .keep c ih

/-- Closing a gap recasts code, and leaves strings as they are. -/
theorem recast_closeGap {spans : List Span} (h : ∀ s ∈ spans, s.isCode = false → s.IsWhole) :
    List.Forall₂ RecastSpan spans (closeGap spans) := by
  induction spans with
  | nil => exact .nil
  | cons s spans ih =>
    obtain ⟨hs, hspans⟩ := List.forall_mem_cons.1 h
    have hsame : List.Forall₂ RecastSpan spans spans :=
      List.forall₂_same.2 fun s hs => .refl (hspans s hs)
    obtain ⟨kind, text, start, stop⟩ := s
    cases kind with
    | string => exact .cons (.refl hs) hsame
    | comment => cases (hs rfl).1
    | code =>
      have hrecast : RecastSpan ⟨.code, text, start, stop⟩
          ⟨.code, (splitGap text).1 ++ joinBreaks (splitGap text).2, start, stop⟩ := by
        refine ⟨rfl, ?_, fun hno => by cases hno⟩
        have hgap := (Recast.refl (splitGap text).1).append (recast_joinBreaks (splitGap text).2)
        rwa [(splitGap_spec text).1] at hgap
      simp only [closeGap]
      split
      · exact .cons hrecast (ih hspans)
      · exact .cons hrecast hsame

theorem feeds_closeGap {spans : List Span} (h : ∀ s ∈ spans, s.HasLoneFeed) :
    ∀ s ∈ closeGap spans, s.HasLoneFeed := by
  induction spans with
  | nil => exact h
  | cons s spans ih =>
    obtain ⟨hs, hspans⟩ := List.forall_mem_cons.1 h
    obtain ⟨kind, text, start, stop⟩ := s
    cases kind with
    | string => exact h
    | comment =>
      have hspace : '\n' ∉ [' '] := by decide
      exact List.forall_mem_cons.2 ⟨fun _ hfeed => absurd hfeed hspace, ih hspans⟩
    | code =>
      obtain ⟨happ, -⟩ := splitGap_spec text
      have hfirst : Span.HasLoneFeed
          ⟨.code, (splitGap text).1 ++ joinBreaks (splitGap text).2, start, stop⟩ := by
        intro _ hfeed
        have hbreak : '\n' ∉ joinBreaks (splitGap text).2 := by
          intro hmem
          obtain ⟨c, -, hc⟩ := List.mem_map.1 hmem
          split at hc
          · cases hc
          · simp_all
        replace hfeed := (List.mem_append.1 hfeed).resolve_right hbreak
        have htext : text = ['\n'] := hs rfl (happ ▸ List.mem_append_left _ hfeed)
        show (splitGap text).1 ++ joinBreaks (splitGap text).2 = ['\n']
        rw [htext] at happ hfeed ⊢
        generalize splitGap ['\n'] = cut at happ hfeed
        -- the line feed is no gap, so there is none
        obtain ⟨front, gap⟩ := cut
        cases front with
        | nil => cases hfeed
        | cons c front =>
          obtain ⟨rfl, hrest⟩ := List.cons.inj happ
          obtain ⟨rfl, rfl⟩ := List.append_eq_nil_iff.1 hrest
          rfl
      simp only [closeGap]
      split
      · exact List.forall_mem_cons.2 ⟨hfirst, ih hspans⟩
      · exact List.forall_mem_cons.2 ⟨hfirst, hspans⟩

theorem stringSpans_closeGap {spans : List Span} (h : ∀ s ∈ spans, s.isCode = false → s.IsWhole) :
    stringSpans (closeGap spans) = stringSpans spans := by
  induction spans with
  | nil => rfl
  | cons s spans ih =>
    obtain ⟨hs, hspans⟩ := List.forall_mem_cons.1 h
    obtain ⟨kind, text, start, stop⟩ := s
    cases kind with
    | string => rfl
    | comment => cases (hs rfl).1
    | code =>
      simp only [closeGap]
      split
      · exact ih hspans
      · rfl

/-! ## Extraction -/

namespace Extraction

variable {table : Name} {hide : Bool} {x : Extraction} {s : Span} {done rest : List Span}

/-- What holds after extraction from some spans, in front of the others. -/
structure Leaves (done rest : List Span) (x : Extraction) : Prop where
  undisturbed : Undisturbed (x.spans.reverse ++ rest)
  strings : stringSpans x.spans.reverse = (stringSpans done).filter fun s => !s.isLiteral

theorem Leaves.extract (htable : isWord table = true) (h : Leaves done (s :: rest) x)
    (hliteral : s.isLiteral = true) (literal : Literal) (key : Option UInt8) :
    Leaves (done ++ [s]) rest (x.extract table s literal key) := by
  obtain ⟨⟨hsteady, hfeeds⟩, hstrings⟩ := h
  have hfront : Steady x.spans.reverse := hsteady.left
  have hwhole : ∀ t ∈ x.spans, t.isCode = false → t.IsWhole :=
    fun t ht => hfront.string t (List.mem_reverse.2 ht)
  have hlone : ∀ t ∈ x.spans, t.HasLoneFeed :=
    fun t ht => hfeeds t (List.mem_append_left _ (List.mem_reverse.2 ht))
  let before := if x.callable then closeGap x.spans else x.spans
  have hbefore : Steady before.reverse ∧ (∀ t ∈ before, t.HasLoneFeed) ∧
      stringSpans before = stringSpans x.spans := by
    simp only [before]
    split
    · exact ⟨hfront.recast (List.rel_reverse (recast_closeGap hwhole)), feeds_closeGap hlone,
        stringSpans_closeGap hwhole⟩
    · exact ⟨hfront, hlone, rfl⟩
  have hspans : (x.extract table s literal key).spans.reverse =
      before.reverse ++ [referenceAt table (s, x.entries.length) x.callable] := List.reverse_cons
  generalize before = before at hbefore hspans
  obtain ⟨hbefore, hlone, hsame⟩ := hbefore
  refine ⟨?_, ?_⟩
  · rw [hspans, List.append_assoc]
    refine ⟨hbefore.insert hsteady.right.tail rfl (staysCode_reference htable _ _)
      (fun c hc => (isInert_iff.1 (isInert_of_head?_reference htable hc)).1) ?_, ?_⟩
    · obtain ⟨c, hlast, -⟩ := getLast?_reference table x.entries.length x.callable
      rintro (hnil : StringTable.reference table x.entries.length x.callable = [])
      rw [hnil] at hlast
      cases hlast
    · refine List.forall_mem_append.2 ⟨fun t ht => hlone t (List.mem_reverse.1 ht),
        List.forall_mem_cons.2 ⟨fun _ hfeed => ?_, fun t ht => hfeeds t
          (List.mem_append_right _ (List.mem_cons_of_mem s ht))⟩⟩
      exact absurd rfl (reference_ne_lineFeed htable _ _ _ hfeed)
  · rw [hspans]
    simp only [stringSpans, List.filter_append, List.filter_reverse] at hstrings hsame ⊢
    rw [hsame, hstrings]
    simp [hliteral, referenceAt, Span.isCode]

theorem Leaves.step (htable : isWord table = true) (h : Leaves done (s :: rest) x)
    (source : Source) : Leaves (done ++ [s]) rest (x.step table hide s source).1 := by
  rcases step_cases table hide x s source with
    ⟨hliteral, callable, hstep⟩ | ⟨literal, key, hliteral, -, -, hstep⟩
  · rw [hstep]
    obtain ⟨hundisturbed, hstrings⟩ := h
    refine ⟨?_, ?_⟩
    · show Undisturbed ((s :: x.spans).reverse ++ rest)
      rwa [List.reverse_cons, List.append_assoc]
    · show stringSpans (s :: x.spans).reverse = _
      simp only [stringSpans, List.reverse_cons, List.filter_append] at hstrings ⊢
      rw [hstrings]
      refine congrArg _ (List.filter_eq_self.2 fun t ht => ?_).symm
      obtain rfl := List.mem_singleton.1 (List.mem_filter.1 ht).1
      rw [hliteral]
      rfl
  · rw [hstep]
    exact h.extract htable hliteral literal key

theorem Leaves.foldlM (hide : Bool) (htable : isWord table = true) {spans : List Span}
    (h : Leaves done spans x) (source : Source) :
    Leaves (done ++ spans) [] (spans.foldlM (Extraction.step table hide) x source).1 := by
  induction spans generalizing done x source with
  | nil => rwa [List.append_nil]
  | cons s spans ih =>
    have hstep : Leaves (done ++ [s]) spans (x.step table hide s source).1 := h.step htable source
    have hlater := ih hstep (x.step table hide s source).2
    rw [List.append_assoc] at hlater
    exact hlater

end Extraction

/-- A script with references in place of its literals is undisturbed, and has its other strings. -/
theorem undisturbed_extractStrings (hide : Bool) (dialect : Dialect) {spans : List Span}
    (h : Undisturbed spans) (m : Mint) :
    let out := (extractStrings hide dialect spans m).1.2
    Undisturbed out ∧ stringSpans out = (stringSpans spans).filter fun s => !s.isLiteral := by
  have hstart : Extraction.Leaves [] spans .empty := ⟨h, rfl⟩
  obtain ⟨hundisturbed, hstrings⟩ :=
    hstart.foldlM hide (Minting.isWord_freshName m) (Minting.freshName m).2.source
  rw [List.append_nil] at hundisturbed
  simp only [extractStrings, Minting.bind_apply]
  split <;> exact ⟨hundisturbed, hstrings⟩

/-! ## Renaming -/

section

variable {bindings : List Binding} {s s' : Span}

/-- Words take the places of words. -/
theorem recast_flatten {ls : List (TokenKind × Text)} {us : List Text}
    (h : List.Forall₂ ReplacesWord ls us) (hword : ∀ l ∈ ls, l.1 = .word → isWord l.2 = true) :
    Recast (fun c => isWordChar c = true) (ls.flatMap Prod.snd) us.flatten := by
  have hne : ∀ {w : Text}, isWord w = true → w ≠ [] := by
    rintro _ hw rfl
    cases hw
  induction h with
  | nil => exact .nil
  | @cons l u ls us hu _ ih =>
    obtain ⟨hl, hls⟩ := List.forall_mem_cons.1 hword
    rw [List.flatMap_cons, List.flatten_cons]
    rcases hu with rfl | ⟨hkind, hu⟩
    · exact (Recast.refl _).append (ih hls)
    · exact .swap (hne (hl hkind)) (hne hu) (isWordChar_of_mem (hl hkind)) (isWordChar_of_mem hu)
        (ih hls)

theorem NamedAnew.recast {code : Text} {us : List Text} (h : NamedAnew bindings code us)
    (hword : ∀ b ∈ bindings, isWord b.generated = true) :
    Recast (fun c => isWordChar c = true) code us.flatten := by
  have hlabels := recast_flatten (h.replacesWord hword) fun l hl hkind => by
    obtain ⟨kind, w⟩ := l
    obtain rfl : kind = .word := hkind
    exact isWord_of_mem_labels hl
  rwa [flatMap_snd_labels] at hlabels

theorem recast_assemble (hword : ∀ b ∈ bindings, isWord b.generated = true)
    {more more' : List (Text × Text)} (h : List.Forall₂ (RenamedPiece bindings) more more')
    (gap : Text) :
    Recast (fun c => isWordChar c = true) (assemble gap more) (assemble gap more') := by
  induction h generalizing gap with
  | nil => exact .refl gap
  | @cons x y more more' hx _ ih =>
    obtain ⟨piece, next⟩ := x
    obtain ⟨piece', next'⟩ := y
    obtain ⟨rfl, us, hus, rfl⟩ := hx
    exact ((Recast.refl gap).append (hus.recast hword)).append (ih next')

/-- New names at some sites of a span recast its text. -/
theorem recast_of_sites {index : Nat} {sites : List Occurrence}
    (hsites : sites.Sublist (s.occurrences index))
    (hnames : ∀ o ∈ sites, o.mark.isName = true ∧ o.mark.text ∈ bindings.map Binding.declared)
    (hword : ∀ b ∈ bindings, isWord b.generated = true) :
    Recast (fun c => isWordChar c = true) s.text (splice (newName bindings) 0 sites s.text) := by
  obtain ⟨kind, text, start, stop⟩ := s
  cases kind with
  | code =>
    obtain ⟨us, hus, htext⟩ := exists_splice_codeSpan hsites hnames
    show Recast _ text (splice (newName bindings) 0 sites text)
    rw [htext]
    exact NamedAnew.recast hus hword
  | string =>
    obtain ⟨gap, more, more', rfl, -, -, hsplice, hall⟩ := exists_splice_string hsites hnames
    show Recast _ (assemble gap more) (splice (newName bindings) 0 sites (assemble gap more))
    rw [hsplice]
    exact recast_assemble hword hall gap
  | comment =>
    obtain rfl := List.sublist_nil.1 hsites
    exact .refl text

/-- New names disturb neither code nor strings. -/
theorem recastSpan_of_renamed (h : RenamedSpan bindings s s')
    (hrecast : Recast (fun c => isWordChar c = true) s.text s'.text)
    (hwhole : s.isCode = false → s.IsWhole) : RecastSpan s s' := by
  refine ⟨by rw [Span.isCode, h.kind_eq, Span.isCode],
    hrecast.mono fun c => isInert_of_isWordChar, fun hs => ?_⟩
  obtain ⟨hkind, hreads⟩ := hwhole hs
  have hs' : ¬ s'.isCode = true := by rw [Span.isCode, h.kind_eq, hkind]; decide
  by_cases htick : s.text.head? = some '`'
  · refine ⟨h.kind_eq.trans hkind, fun rest => ?_⟩
    have hclosed := hreads rest
    rw [Span.Reads, if_neg (by simp [hs])] at hclosed
    rw [Span.Reads, if_neg hs']
    obtain ⟨hclosed', hhead⟩ := hclosed.1.recast (fun _ => plain_of_isWordChar) hrecast
      (by rw [htick]; rfl)
    refine ⟨hclosed', ?_⟩
    rw [Span.isComment, h.kind_eq, hkind]
    refine ⟨fun hno => absurd hno (by decide), ?_⟩
    rintro ⟨t, ht⟩
    rw [htick, ← ht] at hhead
    cases hhead
  · exact (hwhole hs).congr h.kind_eq (h.quoted hkind htick)

/-- New names recast the texts of code and of strings in backticks; all other spans stay. -/
structure RecastWords (s s' : Span) : Prop where
  kind_eq : s'.kind = s.kind
  text : Recast (fun c => isWordChar c = true) s.text s'.text
  fixed : s.isCode = false → s.text.head? ≠ some '`' → s'.text = s.text

theorem recast_renameLocals {strength : Strength} {spans out : List Span} {m : Mint}
    (hrun : (renameLocals strength spans m).1 = some (out, bindings)) :
    List.Forall₂ RecastWords spans out := by
  obtain ⟨hout, hdeclared, -, hword⟩ := renameLocals_spec hrun
  dsimp only at hout hdeclared
  refine List.forall₂_iff_get.2 ⟨by simp [hout, renameSites], fun i hi hi' => ?_⟩
  have hsub := (sites_sublist m.names.reserved (occurrences spans)).filter fun o => o.span == i
  rw [filter_occurrences (List.getElem?_eq_getElem hi)] at hsub
  have hnames : ∀ o ∈ (resolve m.names.reserved (occurrences spans)).sites.filter
      (fun o => o.span == i), o.mark.isName = true ∧ o.mark.text ∈ bindings.map Binding.declared :=
    fun o ho => by
      rw [hdeclared]
      exact declared_of_site _ _ (List.mem_of_mem_filter ho)
  have hsplice := recast_of_sites hsub hnames hword
  refine ⟨by simp [hout, renameSites], by simpa [hout, renameSites] using hsplice,
    fun hcode hhead => ?_⟩
  -- such a span has no names
  have hnone : (resolve m.names.reserved (occurrences spans)).sites.filter
      (fun o => o.span == i) = [] := by
    refine List.eq_nil_iff_forall_not_mem.2 fun o ho => ?_
    have hmem := hsub.subset ho
    simp only [List.get_eq_getElem] at hcode hhead
    cases hkind : spans[i].kind with
    | code => simp [Span.isCode, hkind] at hcode
    | comment => simp [Span.occurrences, hkind] at hmem
    | string =>
      simp only [Span.occurrences, hkind, holes_of_head? hhead, List.flatMap_nil,
        List.mem_singleton] at hmem
      have hname := (hnames o ho).1
      rw [hmem] at hname
      cases hname
  simp [hout, renameSites, hnone]

/-- A script with new names is undisturbed, and its strings have new names in their holes only. -/
theorem undisturbed_renameLocals {strength : Strength} {spans out : List Span} {m : Mint}
    (h : Undisturbed spans) (htaken : ∀ s ∈ spans, ∀ w ∈ s.words, w ∈ m.names.taken)
    (hrun : (renameLocals strength spans m).1 = some (out, bindings)) :
    Undisturbed out ∧
      List.Forall₂ (RenamedSpan bindings) (stringSpans spans) (stringSpans out) ∧
      (stringSpans out).map (Span.mapWords (oldName bindings)) = stringSpans spans := by
  obtain ⟨hrenamed, hback⟩ := renamed_renameLocals htaken hrun
  have hrecast := recast_renameLocals hrun
  have hall : List.Forall₂ (fun s s' => RenamedSpan bindings s s' ∧
      Recast (fun c => isWordChar c = true) s.text s'.text ∧ RecastSpan s s') spans out := by
    have hspans := (List.forall₂_and_left _ _).2 ⟨fun s hs => hs, hrenamed⟩
    refine List.forall₂_iff_get.2 ⟨hrecast.length_eq, fun i hi hi' => ?_⟩
    obtain ⟨hmem, hspan⟩ := (List.forall₂_iff_get.1 hspans).2 i hi hi'
    have htext := (List.forall₂_iff_get.1 hrecast).2 i hi hi'
    exact ⟨hspan, htext.text, recastSpan_of_renamed hspan htext.text (h.steady.string _ hmem)⟩
  refine ⟨⟨h.steady.recast (hall.imp fun _ _ hs => hs.2.2), fun s' hs' hcode hfeed => ?_⟩, ?_, ?_⟩
  · obtain ⟨s, hs, -, htext, hspan⟩ := exists_of_mem_right hall hs'
    have hplain : ¬ isWordChar '\n' = true := by decide
    have hlone := h.feeds s hs (hspan.isCode_eq ▸ hcode) ((htext.mem_iff hplain).2 hfeed)
    rw [hlone] at htext
    obtain ⟨t, ht, hnil⟩ := htext.of_cons hplain
    rw [ht, hnil.eq_nil]
  · refine (List.rel_filter (fun s s' hs => ?_) hall).imp fun _ _ hs => hs.1
    simp [hs.2.2.isCode_eq]
  · rw [stringSpans, stringSpans, ← hback, List.filter_map]
    refine congrArg _ (List.filter_congr fun s' _ => ?_)
    obtain ⟨kind, text, start, stop⟩ := s'
    cases kind <;> rfl

end

end LuaVeil
