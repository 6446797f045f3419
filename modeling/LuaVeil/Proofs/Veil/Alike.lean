/-
# Scripts that are alike

Two scripts are alike if their spans are in pairs of one kind, with one text but for
literals, which may differ. What the passes do to alike scripts leaves them alike: the
lines of both are cut, tidied, judged and guarded in the same way, and the same
references take the places of their literals.

Main statements:

* `alike_strip`, scripts without debug statements after the first pass;
* `alike_extractStrings`, extraction takes the same from a mint, and leaves one script;
* `alike_renameLocals`, `alike_guardLines`, `alike_injectDecoys`, so do the later passes.
-/
import LuaVeil.Proofs.Veil.Insertions
import LuaVeil.Proofs.Veil.StrippedTokens

namespace LuaVeil

/-! ## Spans -/

/-- Whether two spans are of one kind and have one text; if `vary`, both may be literals instead. -/
def Span.Alike (vary : Bool) (s s' : Span) : Prop :=
  s'.kind = s.kind ∧ (s'.text = s.text ∨ vary = true ∧ s.isLiteral = true ∧ s'.isLiteral = true)

/-- Whether spans are alike, one by one. -/
abbrev SpansAlike (vary : Bool) (spans spans' : List Span) : Prop :=
  List.Forall₂ (Span.Alike vary) spans spans'

/-- What is known about a literal. -/
theorem of_isLiteral {s : Span} (h : s.isLiteral = true) :
    s.kind = .string ∧ s.text ≠ [] ∧ s.text.head? ≠ some '`' := by
  obtain ⟨hkind, hread⟩ := Bool.and_eq_true_iff.1 h
  refine ⟨by simpa using hkind, fun hnil => ?_, fun htick => ?_⟩
  · rw [hnil] at hread
    cases hread
  · rw [ofText?_of_backtick htick] at hread
    cases hread

namespace Span.Alike

variable {vary : Bool} {s s' : Span}

theorem of_eq (hkind : s'.kind = s.kind) (htext : s'.text = s.text) : Alike vary s s' :=
  ⟨hkind, .inl htext⟩

theorem text_eq (h : Alike false s s') : s'.text = s.text :=
  h.2.resolve_right fun h => absurd h.1 (by decide)

theorem isCode_eq (h : Alike vary s s') : s'.isCode = s.isCode := by
  rw [Span.isCode, Span.isCode, h.1]

theorem isComment_eq (h : Alike vary s s') : s'.isComment = s.isComment := by
  rw [Span.isComment, Span.isComment, h.1]

/-- Only literals may differ. -/
theorem text_eq_of_not_isLiteral (h : Alike vary s s') (hs : s.isLiteral = false) :
    s'.text = s.text :=
  h.2.resolve_right fun h => absurd (hs.symm.trans h.2.1) (by decide)

theorem code (h : Alike vary s s') (hs : s.isCode = true) : s'.text = s.text := by
  refine h.text_eq_of_not_isLiteral ?_
  rw [Span.isLiteral, Strip.kind_of_isCode hs]
  rfl

theorem isEmpty_eq (h : Alike vary s s') : s'.text.isEmpty = s.text.isEmpty := by
  rcases h.2 with htext | ⟨-, hs, hs'⟩
  · rw [htext]
  · rw [List.isEmpty_eq_false_iff.2 (of_isLiteral hs).2.1,
      List.isEmpty_eq_false_iff.2 (of_isLiteral hs').2.1]

theorem marks_eq (h : Alike vary s s') : s'.marks = s.marks := by
  rcases h.2 with htext | ⟨-, hs, hs'⟩
  · rw [Span.marks, Span.marks, h.1, htext]
  · rw [Span.marks, Span.marks, (of_isLiteral hs).1, (of_isLiteral hs').1]

theorem words_eq (h : Alike vary s s') : s'.words = s.words := by
  rcases h.2 with htext | ⟨-, hs, hs'⟩
  · rw [Span.words, Span.words, h.1, htext]
  · obtain ⟨hkind, -, hhead⟩ := of_isLiteral hs
    obtain ⟨hkind', -, hhead'⟩ := of_isLiteral hs'
    rw [Span.words, Span.words, hkind, hkind', holes_of_head? hhead, holes_of_head? hhead']

/-- The text of code is changed in the same way. -/
theorem mapCode (h : Alike vary s s') (f : Text → Text) :
    Alike vary (Strip.mapCode f s) (Strip.mapCode f s') := by
  rw [Strip.mapCode, Strip.mapCode, h.isCode_eq]
  split
  · next hs => exact .of_eq h.1 (congrArg f (h.code hs))
  · exact h

end Span.Alike

section

variable {vary : Bool} {spans spans' : List Span}

theorem render_of_alike (h : SpansAlike false spans spans') : render spans' = render spans := by
  induction h with
  | nil => rfl
  | cons hs _ ih => rw [render_cons, render_cons, hs.text_eq, ih]

theorem marks_of_alike (h : SpansAlike vary spans spans') :
    spans'.flatMap Span.marks = spans.flatMap Span.marks := by
  induction h with
  | nil => rfl
  | cons hs _ ih => rw [List.flatMap_cons, List.flatMap_cons, hs.marks_eq, ih]

theorem words_of_alike (h : SpansAlike vary spans spans') :
    spans'.flatMap Span.words = spans.flatMap Span.words := by
  induction h with
  | nil => rfl
  | cons hs _ ih => rw [List.flatMap_cons, List.flatMap_cons, hs.words_eq, ih]

/-! ## Lines -/

/-- Whether two lines are alike: their spans are, and so is what is known about them. -/
structure Line.Alike (vary : Bool) (l l' : Line) : Prop where
  spans : SpansAlike vary l.spans l'.spans
  facts_eq : l'.facts = l.facts

/-- Whether lines are alike, one by one. -/
abbrev LinesAlike (vary : Bool) (lines lines' : List Line) : Prop :=
  List.Forall₂ (Line.Alike vary) lines lines'

/-- Whether rows are alike, one by one. -/
abbrev RowsAlike (vary : Bool) (rows rows' : List Row) : Prop :=
  List.Forall₂ (fun row row' => SpansAlike vary row.spans row'.spans) rows rows'

theorem alike_codeSpans (start start' : Nat) (t : Text) :
    SpansAlike vary (codeSpans start t) (codeSpans start' t) := by
  unfold codeSpans
  split
  · exact .nil
  · exact .cons (.of_eq rfl rfl) .nil

theorem alike_consSpan {s s' : Span} {rows rows' : List Row} (hs : s.Alike vary s')
    (h : RowsAlike vary rows rows') : RowsAlike vary (consSpan s rows) (consSpan s' rows') := by
  cases h with
  | nil => exact .cons (.cons hs .nil) .nil
  | cons hrow hrows => exact .cons (.cons hs hrow) hrows

theorem alike_consPieces {rows rows' : List Row} (h : RowsAlike vary rows rows')
    (pieces : List Text) (start start' : Nat) :
    RowsAlike vary (consPieces start pieces rows) (consPieces start' pieces rows') := by
  induction pieces generalizing start start' with
  | nil => exact h
  | cons piece pieces ih =>
    cases pieces with
    | nil =>
      rw [consPieces, consPieces]
      unfold codeSpans
      split
      · exact h
      · exact alike_consSpan (.of_eq rfl rfl) h
    | cons next pieces => exact .cons (alike_codeSpans start start' piece) (ih _ _)

theorem alike_splitRows (h : SpansAlike vary spans spans') :
    RowsAlike vary (splitRows spans) (splitRows spans') := by
  induction h with
  | nil => exact .cons .nil .nil
  | @cons s s' spans spans' hs _ ih =>
    rw [splitRows, splitRows, List.foldr_cons, List.foldr_cons, ← splitRows, ← splitRows,
      hs.isCode_eq]
    by_cases hcode : s.isCode = true
    · rw [hs.code hcode]
      split
      · exact alike_consPieces ih _ _ _
      · exact alike_consSpan hs ih
    · simp only [hcode, Bool.false_and, Bool.false_eq_true, if_false]
      exact alike_consSpan hs ih

theorem alike_analyze {rows rows' : List Row} (h : RowsAlike vary rows rows') (before : Nesting) :
    LinesAlike vary (analyze before rows) (analyze before rows') := by
  induction h generalizing before with
  | nil => exact .nil
  | cons hrow _ ih =>
    rw [analyze, analyze, marks_of_alike hrow]
    exact .cons ⟨hrow, rfl⟩ (ih _)

/-- Alike scripts have alike lines. -/
theorem alike_splitLines (h : SpansAlike vary spans spans') :
    LinesAlike vary (splitLines spans) (splitLines spans') :=
  alike_analyze (alike_splitRows h) .empty

/-- Lines of alike spans are joined to alike spans, whatever is known about the lines. -/
theorem alike_joinLines_of_spans {lines lines' : List Line}
    (h : List.Forall₂ (fun l l' : Line => SpansAlike vary l.spans l'.spans) lines lines') :
    SpansAlike vary (joinLines lines) (joinLines lines') := by
  induction h with
  | nil => exact .nil
  | @cons l l' lines lines' hl hlines ih =>
    cases hlines with
    | nil => exact hl
    | cons =>
      refine List.rel_append hl (.cons (.of_eq ?_ ?_) ih)
      · rw [Strip.kind_of_isCode l.isCode_lineFeed, Strip.kind_of_isCode l'.isCode_lineFeed]
      · rw [l.text_lineFeed, l'.text_lineFeed]

theorem alike_joinLines {lines lines' : List Line} (h : LinesAlike vary lines lines') :
    SpansAlike vary (joinLines lines) (joinLines lines') :=
  alike_joinLines_of_spans (h.imp fun _ _ hl => hl.spans)

/-! ## Stripping -/

namespace Strip

theorem alike_consMerged {s s' : Span} (hs : s.Alike vary s') (h : SpansAlike vary spans spans') :
    SpansAlike vary (consMerged s spans) (consMerged s' spans') := by
  cases h with
  | nil => exact .cons hs .nil
  | @cons next next' spans spans' hnext hspans =>
    rw [consMerged, consMerged, hs.isCode_eq, hnext.isCode_eq]
    split
    · next hboth =>
      obtain ⟨hcode, hcode'⟩ := Bool.and_eq_true_iff.1 hboth
      exact .cons (.of_eq hs.1 (by rw [hs.code hcode, hnext.code hcode'])) hspans
    · exact .cons hs (.cons hnext hspans)

theorem alike_uncomment
    (h : SpansAlike vary (spans.map blankComment) (spans'.map blankComment)) :
    SpansAlike vary (uncomment spans) (uncomment spans') := by
  rw [uncomment, uncomment]
  generalize spans.map blankComment = blanked, spans'.map blankComment = blanked' at h
  induction h with
  | nil => exact .nil
  | cons hs _ ih => exact alike_consMerged hs ih

theorem alike_modify {f : Span → Span} (hf : ∀ {s s'}, Span.Alike vary s s' → (f s).Alike vary (f s'))
    (h : SpansAlike vary spans spans') (i : Nat) :
    SpansAlike vary (spans.modify i f) (spans'.modify i f) := by
  induction h generalizing i with
  | nil => cases i <;> exact .nil
  | cons hs hspans ih =>
    cases i with
    | zero => exact .cons (hf hs) hspans
    | succ i => exact .cons hs (ih i)

theorem alike_tidySpans (h : SpansAlike vary spans spans') :
    SpansAlike vary (tidySpans spans) (tidySpans spans') := by
  have hsqueezed : SpansAlike vary (spans.map (mapCode squeeze)) (spans'.map (mapCode squeeze)) :=
    List.rel_map (fun _ _ hs => hs.mapCode squeeze) h
  have hstarted : SpansAlike vary ((spans.map (mapCode squeeze)).modifyHead (mapCode Text.trimStart))
      ((spans'.map (mapCode squeeze)).modifyHead (mapCode Text.trimStart)) :=
    alike_modify (fun hs => hs.mapCode _) hsqueezed 0
  refine List.rel_filter (fun s s' hs => ?_) ?_
  · show (!s.text.isEmpty) = true ↔ (!s'.text.isEmpty) = true
    rw [hs.isEmpty_eq]
  · rw [← hstarted.length_eq]
    exact alike_modify (fun hs => hs.mapCode _) hstarted _

theorem alike_tidy {l l' : Line} (h : l.Alike vary l') : (tidy l).Alike vary (tidy l') :=
  ⟨alike_tidySpans h.spans, h.facts_eq⟩

/-- Without debug statements, stripping tidies the lines. -/
theorem strip_of_never {isDebug : Text → Bool} (h : ∀ t, isDebug t = false) (spans : List Span) :
    strip isDebug spans =
      (joinLines (((splitLines (uncomment spans)).map tidy).filter fun l => !l.spans.isEmpty),
        ⟨spans.countP Span.isComment, 0⟩) := by
  have hnone : ∀ lines i, isDebugLine isDebug lines i = false := by
    intro lines i
    rw [isDebugLine, Bool.and_eq_false_iff]
    exact .inr (by simp [h])
  have hkept : ∀ lines : List Line,
      lines.zipIdx.filterMap (fun place => some (tidy place.1)) = lines.map tidy := by
    intro lines
    have htidy := congrArg (List.map tidy) (List.zipIdx_map_fst 0 lines)
    rw [List.map_map] at htidy
    rw [List.filterMap_eq_map']
    exact htidy
  have hcount : ∀ lines : List Line, lines.zipIdx.countP (fun _ => false) = 0 :=
    fun lines => List.countP_eq_zero.2 fun _ _ => Bool.false_ne_true
  simp only [strip, hnone, List.filterMap_map, List.countP_map]
  exact congrArg₂ (fun lines count => (joinLines (List.filter _ lines), StripReport.mk _ count))
    (hkept _) (hcount _)

end Strip

/-- Scripts without debug statements are alike after the first pass, if they are without comments. -/
theorem alike_strip_of_uncomment {isDebug : Text → Bool} (hnever : ∀ t, isDebug t = false)
    (h : SpansAlike vary (Strip.uncomment spans) (Strip.uncomment spans')) :
    SpansAlike vary (strip isDebug spans).1 (strip isDebug spans').1 := by
  rw [Strip.strip_of_never hnever, Strip.strip_of_never hnever]
  refine alike_joinLines (List.rel_filter (fun l l' hl => ?_)
    (List.rel_map (fun _ _ hl => Strip.alike_tidy hl) (alike_splitLines h)))
  show (!l.spans.isEmpty) = true ↔ (!l'.spans.isEmpty) = true
  have hlength := hl.spans.length_eq
  simp only [Bool.not_eq_true', List.isEmpty_eq_false_iff, ← List.length_pos_iff, hlength]

/-- Scripts without debug statements are alike after the first pass, if they are but for comments. -/
theorem alike_strip {isDebug : Text → Bool} (hnever : ∀ t, isDebug t = false)
    (hkinds : spans'.map Span.kind = spans.map Span.kind)
    (h : SpansAlike vary (spans.map Strip.blankComment) (spans'.map Strip.blankComment)) :
    SpansAlike vary (strip isDebug spans).1 (strip isDebug spans').1 ∧
      (strip isDebug spans').2 = (strip isDebug spans).2 := by
  refine ⟨alike_strip_of_uncomment hnever (Strip.alike_uncomment h), ?_⟩
  rw [Strip.strip_of_never hnever, Strip.strip_of_never hnever]
  have hcount : ∀ spans : List Span,
      spans.countP Span.isComment = (spans.map Span.kind).count .comment := by
    intro spans
    rw [List.count, List.countP_map]
    rfl
  rw [hcount, hcount, hkinds]

/-! ## Extraction -/

/-- Whether two entries are alike: they have one slot and one key. -/
structure TableEntry.Alike (e e' : TableEntry) : Prop where
  index_eq : e'.index = e.index
  key_eq : e'.key = e.key

/-- Whether two tables are alike: they have one name and one decoder, and entries that are alike. -/
structure StringTable.Alike (t t' : StringTable) : Prop where
  name_eq : t'.name = t.name
  decoder_eq : t'.decoder = t.decoder
  dialect_eq : t'.dialect = t.dialect
  entries : List.Forall₂ TableEntry.Alike t.entries t'.entries

/-- Whether the same has been extracted, but for what literals stand for. -/
structure Extraction.Alike (x x' : Extraction) : Prop where
  spans : SpansAlike false x.spans x'.spans
  entries : List.Forall₂ TableEntry.Alike x.entries x'.entries
  callable_eq : x'.callable = x.callable

theorem alike_closeGap (h : SpansAlike false spans spans') :
    SpansAlike false (closeGap spans) (closeGap spans') := by
  induction h with
  | nil => exact .nil
  | @cons s s' spans spans' hs hspans ih =>
    rw [closeGap, closeGap, hs.1, hs.text_eq]
    cases s.kind with
    | string => exact .cons hs hspans
    | comment => exact .cons (.of_eq rfl rfl) ih
    | code =>
      dsimp only
      split
      · exact .cons (.of_eq rfl rfl) ih
      · exact .cons (.of_eq rfl rfl) hspans

namespace Extraction

variable {table : Name} {hide : Bool} {x x' : Extraction} {s s' : Span}

theorem Alike.extract (h : x.Alike x') (table : Name) (literal literal' : Literal)
    (key : Option UInt8) :
    (x.extract table s literal key).Alike (x'.extract table s' literal' key) := by
  have hlength := h.entries.length_eq
  refine ⟨.cons (.of_eq rfl ?_) ?_, .cons ⟨hlength.symm, rfl⟩ h.entries, rfl⟩
  · rw [h.callable_eq, ← hlength]
  · rw [h.callable_eq]
    split
    · exact alike_closeGap h.spans
    · exact h.spans

/-- A step takes the same from the source, and leaves what is alike. -/
theorem Alike.step (hs : s.Alike true s') (h : x.Alike x') (source : Source) :
    (x.step table hide s source).1.Alike (x'.step table hide s' source).1 ∧
      (x'.step table hide s' source).2 = (x.step table hide s source).2 := by
  have hkeep : ∀ {callable callable'}, s.isLiteral = false → callable' = callable →
      Extraction.Alike { x with spans := s :: x.spans, callable }
        { x' with spans := s' :: x'.spans, callable := callable' } := by
    rintro callable _ hliteral rfl
    exact ⟨.cons (.of_eq hs.1 (hs.text_eq_of_not_isLiteral hliteral)) h.spans, h.entries, rfl⟩
  unfold Extraction.step
  rw [hs.1]
  cases hkind : s.kind with
  | code =>
    have hcode : s.isCode = true := by rw [Span.isCode, hkind]; rfl
    refine ⟨hkeep (by simp [Span.isLiteral, hkind]) ?_, rfl⟩
    rw [hs.code hcode, h.callable_eq]
  | comment => exact ⟨hkeep (by simp [Span.isLiteral, hkind]) h.callable_eq, rfl⟩
  | string =>
    cases hread : Literal.ofText? s.text with
    | none =>
      have hliteral : s.isLiteral = false := by simp [Span.isLiteral, hread]
      rw [hs.text_eq_of_not_isLiteral hliteral, hread]
      exact ⟨hkeep hliteral rfl, rfl⟩
    | some literal =>
      obtain ⟨literal', hread'⟩ : ∃ literal', Literal.ofText? s'.text = some literal' := by
        rcases hs.2 with htext | ⟨-, -, hliteral⟩
        · exact ⟨literal, by rw [htext, hread]⟩
        · exact Option.isSome_iff_exists.1 (Bool.and_eq_true_iff.1 hliteral).2
      rw [hread']
      cases hide with
      | false => exact ⟨h.extract table literal literal' none, rfl⟩
      | true => exact ⟨h.extract table literal literal' _, rfl⟩

theorem Alike.foldlM (hspans : SpansAlike true spans spans') (h : x.Alike x') (source : Source) :
    (spans.foldlM (Extraction.step table hide) x source).1.Alike
        (spans'.foldlM (Extraction.step table hide) x' source).1 ∧
      (spans'.foldlM (Extraction.step table hide) x' source).2 =
        (spans.foldlM (Extraction.step table hide) x source).2 := by
  induction hspans generalizing x x' source with
  | nil => exact ⟨h, rfl⟩
  | @cons s s' spans spans' hs _ ih =>
    obtain ⟨hstep, hsource⟩ := h.step hs source
    have hlater := ih hstep (x.step table hide s source).2
    have hmore : (s' :: spans').foldlM (Extraction.step table hide) x' source =
        spans'.foldlM (Extraction.step table hide) (x'.step table hide s' source).1
          (x.step table hide s source).2 := by
      rw [← hsource]
      rfl
    rw [hmore]
    exact hlater

end Extraction

namespace Extraction

/-- What extraction leaves in the end: a table and the spans in order. -/
def finish (x : Extraction) (hide : Bool) (dialect : Dialect) (name : Name) (m : Mint) :
    (StringTable × List Span) × Mint :=
  if hide && !x.entries.isEmpty then
    ((⟨name, some (Minting.freshName m).1, dialect, x.entries.reverse⟩, x.spans.reverse),
      (Minting.freshName m).2)
  else ((⟨name, none, dialect, x.entries.reverse⟩, x.spans.reverse), m)

theorem Alike.finish {x x' : Extraction} (h : x.Alike x') (hide : Bool) (dialect : Dialect)
    (name : Name) (m : Mint) :
    let out := x.finish hide dialect name m
    let out' := x'.finish hide dialect name m
    out.1.1.Alike out'.1.1 ∧ SpansAlike false out.1.2 out'.1.2 ∧ out'.2 = out.2 := by
  have hempty : x'.entries.isEmpty = x.entries.isEmpty := by
    rw [Bool.eq_iff_iff, List.isEmpty_iff_length_eq_zero, List.isEmpty_iff_length_eq_zero,
      h.entries.length_eq]
  dsimp only
  rw [Extraction.finish, Extraction.finish, hempty]
  split <;> exact ⟨⟨rfl, rfl, rfl, List.rel_reverse h.entries⟩, List.rel_reverse h.spans, rfl⟩

end Extraction

/-- Extraction takes a name, then what literals need, and then a name for the decoder. -/
theorem extractStrings_apply (hide : Bool) (dialect : Dialect) (spans : List Span) (m : Mint) :
    extractStrings hide dialect spans m =
      (spans.foldlM (Extraction.step (Minting.freshName m).1 hide) .empty
        (Minting.freshName m).2.source).1.finish hide dialect (Minting.freshName m).1
          ⟨(Minting.freshName m).2.names,
            (spans.foldlM (Extraction.step (Minting.freshName m).1 hide) .empty
              (Minting.freshName m).2.source).2⟩ := by
  rw [extractStrings, Minting.bind_apply, Minting.bind_apply, Extraction.finish]
  split
  · next hhide => exact (if_pos hhide).symm
  · next hhide => exact (if_neg hhide).symm

/-- The same references take the places of literals, and the same is taken from the mint. -/
theorem alike_extractStrings (hide : Bool) (dialect : Dialect) (h : SpansAlike true spans spans')
    (m : Mint) :
    let out := extractStrings hide dialect spans m
    let out' := extractStrings hide dialect spans' m
    out.1.1.Alike out'.1.1 ∧ SpansAlike false out.1.2 out'.1.2 ∧ out'.2 = out.2 := by
  have hempty : Extraction.Alike .empty .empty := ⟨.nil, .nil, rfl⟩
  obtain ⟨hx, hsource⟩ := @Extraction.Alike.foldlM spans spans' (Minting.freshName m).1 hide
    .empty .empty h hempty (Minting.freshName m).2.source
  dsimp only
  rw [extractStrings_apply, extractStrings_apply, hsource]
  exact hx.finish hide dialect _ _

/-! ## Renaming -/

theorem rel_mapIdx {α β γ δ : Type} {R : α → β → Prop} {S : γ → δ → Prop} {f : Nat → α → γ}
    {g : Nat → β → δ} {xs : List α} {ys : List β} (hfg : ∀ i a b, R a b → S (f i a) (g i b))
    (h : List.Forall₂ R xs ys) : List.Forall₂ S (xs.mapIdx f) (ys.mapIdx g) := by
  induction h generalizing f g with
  | nil => exact .nil
  | cons hab _ ih =>
    rw [List.mapIdx_cons, List.mapIdx_cons]
    exact .cons (hfg 0 _ _ hab) (ih fun i => hfg (i + 1))

theorem occurrences_of_alike (h : SpansAlike false spans spans') :
    occurrences spans' = occurrences spans := by
  have hfrom : ∀ start, (spans'.zipIdx start).flatMap (fun place => place.1.occurrences place.2) =
      (spans.zipIdx start).flatMap fun place => place.1.occurrences place.2 := by
    induction h with
    | nil => exact fun _ => rfl
    | cons hs _ ih =>
      intro start
      rw [List.zipIdx_cons, List.zipIdx_cons, List.flatMap_cons, List.flatMap_cons, ih,
        Span.occurrences, Span.occurrences, hs.1, hs.text_eq]
  exact hfrom 0

theorem alike_renameSites (h : SpansAlike false spans spans') (rename : Name → Name)
    (sites : List Occurrence) :
    SpansAlike false (renameSites rename sites spans) (renameSites rename sites spans') := by
  refine rel_mapIdx (fun i s s' hs => .of_eq hs.1 ?_) h
  dsimp only
  rw [hs.text_eq]

/-- The same variables get the same names, and the same is taken from the mint. -/
theorem alike_renameLocals (strength : Strength) (h : SpansAlike false spans spans') (m : Mint) :
    Option.Rel (fun out out' => SpansAlike false out.1 out'.1 ∧ out'.2 = out.2)
        (renameLocals strength spans m).1 (renameLocals strength spans' m).1 ∧
      (renameLocals strength spans' m).2 = (renameLocals strength spans m).2 := by
  have hoccurrences := occurrences_of_alike h
  by_cases hnil : (resolve m.names.reserved (occurrences spans)).declared = []
  · rw [renameLocals_of_nil hnil, renameLocals_of_nil (by rw [hoccurrences]; exact hnil)]
    exact ⟨.some ⟨h, rfl⟩, rfl⟩
  · rw [renameLocals_of_ne_nil hnil, renameLocals_of_ne_nil (by rw [hoccurrences]; exact hnil),
      hoccurrences]
    refine ⟨?_, rfl⟩
    dsimp only
    generalize (Candidates.bindAll _ _ _).1 = bindings?
    cases bindings? with
    | none => exact .none
    | some bindings => exact .some ⟨alike_renameSites h _ _, rfl⟩

/-! ## Judged lines -/

/-- A line of which only is left what is known about it. -/
def Line.bare (l : Line) : Line :=
  ⟨⟨[], none⟩, l.facts⟩

theorem map_bare_of_alike {lines lines' : List Line} (h : LinesAlike vary lines lines') :
    lines'.map Line.bare = lines.map Line.bare := by
  induction h with
  | nil => rfl
  | cons hl _ ih => rw [List.map_cons, List.map_cons, ih, Line.bare, Line.bare, hl.facts_eq]

/-- Lines are judged by what is known about them. -/
theorem judged_map_bare (lines : List Line) (i : Nat) :
    isWrappable (lines.map Line.bare) i = isWrappable lines i ∧
      isBoundaryAfter (lines.map Line.bare) i = isBoundaryAfter lines i := by
  have hbefore : codeBefore (lines.map Line.bare) i = (codeBefore lines i).map Line.bare := by
    rw [codeBefore, codeBefore, ← List.map_take, ← List.map_reverse, List.find?_map]
    rfl
  have hafter : codeAfter (lines.map Line.bare) i = (codeAfter lines i).map Line.bare := by
    rw [codeAfter, codeAfter, ← List.map_drop, List.find?_map]
    rfl
  rw [isWrappable, isWrappable, isBoundaryAfter, isBoundaryAfter, hbefore, hafter,
    List.getElem?_map, Option.any_map, Option.any_map, Option.any_map, Option.any_map]
  exact ⟨rfl, rfl⟩

/-- Alike lines are judged in the same way. -/
theorem judged_of_alike {lines lines' : List Line} (h : LinesAlike vary lines lines') :
    isWrappable lines' = isWrappable lines ∧ isBoundaryAfter lines' = isBoundaryAfter lines := by
  constructor <;> funext i
  · rw [← (judged_map_bare lines' i).1, map_bare_of_alike h, (judged_map_bare lines i).1]
  · rw [← (judged_map_bare lines' i).2, map_bare_of_alike h, (judged_map_bare lines i).2]

theorem indent_of_alike {l l' : Line} (h : l.Alike vary l') : l'.indent = l.indent := by
  obtain ⟨⟨spans, newlineAt⟩, facts⟩ := l
  obtain ⟨⟨spans', newlineAt'⟩, facts'⟩ := l'
  cases h.spans with
  | nil => rfl
  | @cons s s' _ _ hs _ =>
    show (if s'.isCode = true then _ else _) = if s.isCode = true then _ else _
    rw [hs.isCode_eq]
    split
    · next hcode => rw [hs.code hcode]
    · rfl

/-! ## Guards -/

theorem alike_dropIndent {l l' : Line} (h : l.Alike vary l') :
    SpansAlike vary (Guard.dropIndent l) (Guard.dropIndent l') := by
  have hindent := indent_of_alike h
  rw [Guard.dropIndent, Guard.dropIndent, hindent]
  exact Strip.alike_modify (fun hs => hs.mapCode (List.drop l.indent.length)) h.spans 0

theorem alike_dropWhile (h : SpansAlike vary spans spans') :
    SpansAlike vary (spans.dropWhile Span.isComment) (spans'.dropWhile Span.isComment) := by
  induction h with
  | nil => exact .nil
  | cons hs hspans ih =>
    rw [List.dropWhile_cons, List.dropWhile_cons, hs.isComment_eq]
    split
    · exact ih
    · exact .cons hs hspans

theorem alike_wrap {l l' : Line} (h : l.Alike vary l') (guard : Text) :
    (Guard.wrap guard l).Alike vary (Guard.wrap guard l') := by
  have hspans := alike_dropIndent h
  have htail : ((Guard.dropIndent l').reverse.dropWhile Span.isComment).length =
      ((Guard.dropIndent l).reverse.dropWhile Span.isComment).length :=
    (alike_dropWhile (List.rel_reverse hspans)).length_eq.symm
  refine ⟨?_, h.facts_eq⟩
  simp only [Guard.wrap, htail, indent_of_alike h]
  exact .cons (.of_eq rfl rfl) (List.rel_append (List.forall₂_take _ hspans)
    (.cons (.of_eq rfl rfl) (List.forall₂_drop _ hspans)))

/-- The same lines get the same guards, and the same is taken from the source. -/
theorem alike_guardLines (p : Probability) (predicate : OpaquePredicate)
    (h : SpansAlike vary spans spans') (source : Source) :
    let out := guardLines p predicate spans source
    let out' := guardLines p predicate spans' source
    SpansAlike vary out.1.1 out'.1.1 ∧ out'.1.2 = out.1.2 ∧ out'.2 = out.2 := by
  have hlines := alike_splitLines h
  dsimp only
  rw [guardLines, guardLines, ← hlines.length_eq, (judged_of_alike hlines).1]
  refine ⟨alike_joinLines (rel_mapIdx (fun i l l' hl => ?_) hlines), rfl, rfl⟩
  split
  · exact alike_wrap hl _
  · exact hl

/-! ## Decoys -/

theorem alike_weave {lines lines' : List Line} (h : LinesAlike vary lines lines')
    (decoys : List (Option Decoy.Filled)) :
    LinesAlike vary (Decoy.weave lines decoys) (Decoy.weave lines' decoys) := by
  induction h generalizing decoys with
  | nil => cases decoys <;> exact .nil
  | @cons l l' lines lines' hl hlines ih =>
    cases decoys with
    | nil => exact .cons hl hlines
    | cons decoy decoys =>
      cases decoy with
      | none => exact .cons hl (ih decoys)
      | some d =>
        have hindent : (lines'.head?.getD l').indent = (lines.head?.getD l).indent := by
          cases hlines with
          | nil => exact indent_of_alike hl
          | cons hnext _ => exact indent_of_alike hnext
        refine .cons hl (.cons ⟨.cons (.of_eq rfl ?_) .nil, rfl⟩ (ih decoys))
        show (lines'.head?.getD l').indent ++ d.text = (lines.head?.getD l).indent ++ d.text
        rw [hindent]

theorem decisions_of_alike (p : Probability) (templates : List Text)
    (h : SpansAlike vary spans spans') :
    Decoy.decisions p templates spans' = Decoy.decisions p templates spans := by
  have hlines := alike_splitLines h
  have hplaces : (splitLines spans').mapIdx (fun i _ => isBoundaryAfter (splitLines spans') i) =
      (splitLines spans).mapIdx fun i _ => isBoundaryAfter (splitLines spans) i := by
    rw [(judged_of_alike hlines).2]
    refine List.ext_getElem (by simp [hlines.length_eq]) fun i hi hi' => ?_
    rw [List.getElem_mapIdx, List.getElem_mapIdx]
  simp only [Decoy.decisions, hplaces]

/-- The same decoys are put into a script, and the same is taken from the mint. -/
theorem alike_injectDecoys (p : Probability) (templates : List Text)
    (h : SpansAlike vary spans spans') (m : Mint) :
    let out := injectDecoys p templates spans m
    let out' := injectDecoys p templates spans' m
    SpansAlike vary out.1.1 out'.1.1 ∧ out'.1.2 = out.1.2 ∧ out'.2 = out.2 := by
  by_cases htemplates : templates = []
  · rw [htemplates]
    exact ⟨h, rfl, rfl⟩
  · rw [Decoy.injectDecoys_eq htemplates, Decoy.injectDecoys_eq htemplates,
      decisions_of_alike p templates h]
    exact ⟨alike_joinLines (alike_weave (alike_splitLines h) _), rfl, rfl⟩

end

end LuaVeil
