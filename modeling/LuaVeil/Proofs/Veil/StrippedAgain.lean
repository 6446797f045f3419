/-
# Stripping a stripped script

A stripped script is as stripping leaves it: each of its lines is squeezed and trimmed
already, and no line is empty. Joined at its line feeds, as a scan finds it, it still
has these lines.

Main statements:

* `Strip.alike_splitRows_joinCode`, code that meets at line feeds can be joined without
  a change of the lines;
* `strip_strip` and `strip_scan_strip`, stripping once more changes nothing.
-/
import LuaVeil.Proofs.Veil.Alike
import LuaVeil.Proofs.Veil.Declaration

namespace LuaVeil

/-! ## Alike spans have one shape -/

theorem shape_of_alike {spans spans' : List Span} (h : SpansAlike false spans spans') :
    spans'.map Span.shape = spans.map Span.shape := by
  induction h with
  | nil => rfl
  | cons hs _ ih => rw [List.map_cons, List.map_cons, ih, Span.shape, Span.shape, hs.1, hs.text_eq]

theorem alike_of_shape {spans spans' : List Span}
    (h : spans'.map Span.shape = spans.map Span.shape) : SpansAlike false spans spans' := by
  rw [← List.forall₂_eq_eq_eq, List.forall₂_map_left_iff, List.forall₂_map_right_iff] at h
  exact h.flip.imp fun _ _ hs => .of_eq (congrArg Prod.fst hs) (congrArg Prod.snd hs)

theorem alike_trans {xs ys zs : List Span} (h : SpansAlike false xs ys)
    (h' : SpansAlike false ys zs) : SpansAlike false xs zs :=
  alike_of_shape ((shape_of_alike h').trans (shape_of_alike h))

theorem rowsAlike_refl (rows : List Row) : RowsAlike false rows rows :=
  List.forall₂_same.2 fun _ _ => alike_of_shape rfl

theorem rowsAlike_symm {xs ys : List Row} (h : RowsAlike false xs ys) : RowsAlike false ys xs :=
  h.flip.imp fun _ _ hrow => alike_of_shape (shape_of_alike hrow).symm

theorem rowsAlike_trans {xs ys zs : List Row} (h : RowsAlike false xs ys)
    (h' : RowsAlike false ys zs) : RowsAlike false xs zs := by
  induction h generalizing zs with
  | nil => exact h'
  | cons hrow _ ih =>
    cases h' with
    | cons hrow' hrows' => exact .cons (alike_trans hrow hrow') (ih hrows')

namespace Strip

/-! ## Squeezed code -/

/-- Whether the blanks of a text that can be squeezed are spaces, and no two are neighbours. -/
structure IsSqueezed (t : Text) : Prop where
  spaces : ∀ c ∈ t, isSqueezable c = true → c = ' '
  apart : t.IsChain fun a b => isSqueezable a = true → isSqueezable b = false

theorem IsSqueezed.of_infix {t u : Text} (h : IsSqueezed t) (hu : u <:+: t) : IsSqueezed u :=
  ⟨fun c hc => h.spaces c (hu.subset hc), h.apart.infix hu⟩

/-- A squeezed text is squeezed, and begins with no blank if one came before it. -/
theorem isSqueezed_squeezeAfter (blank : Bool) (t : Text) :
    IsSqueezed (squeezeAfter blank t) ∧ (blank = true →
      ∀ c, (squeezeAfter blank t).head? = some c → isSqueezable c = false) := by
  induction t generalizing blank with
  | nil => exact ⟨⟨fun c hc => (by cases hc), .nil⟩, fun _ c hc => by cases hc⟩
  | cons c t ih =>
    obtain ⟨hafter, hhead⟩ := ih true
    rw [squeezeAfter]
    by_cases hc : isSqueezable c = true
    · rw [if_pos hc]
      cases blank with
      | true => exact ⟨hafter, hhead⟩
      | false =>
        refine ⟨⟨List.forall_mem_cons.2 ⟨fun _ => rfl, hafter.spaces⟩, ?_⟩, fun h => by cases h⟩
        exact List.isChain_cons.2 ⟨fun d hd _ => hhead rfl d hd, hafter.apart⟩
    · obtain ⟨hplain, -⟩ := ih false
      rw [if_neg hc]
      refine ⟨⟨List.forall_mem_cons.2 ⟨fun h => absurd h hc, hplain.spaces⟩, ?_⟩, fun _ d hd => ?_⟩
      · exact List.isChain_cons.2 ⟨fun _ _ h => absurd h hc, hplain.apart⟩
      · obtain rfl := Option.some.inj hd
        simpa using hc

/-- A text that is squeezed stays as it is. -/
theorem IsSqueezed.squeezeAfter_eq {t : Text} {blank : Bool} (h : IsSqueezed t)
    (hhead : blank = true → ∀ c, t.head? = some c → isSqueezable c = false) :
    squeezeAfter blank t = t := by
  induction t generalizing blank with
  | nil => rfl
  | cons c t ih =>
    have hmore : IsSqueezed t := h.of_infix (List.suffix_cons c t).isInfix
    rw [squeezeAfter]
    by_cases hc : isSqueezable c = true
    · have hblank : ¬ blank = true := fun hb => by
        rw [hhead hb c rfl] at hc
        cases hc
      rw [if_pos hc, if_neg hblank, h.spaces c List.mem_cons_self hc,
        ih hmore fun _ d hd => (List.isChain_cons.1 h.apart).1 d hd hc]
    · rw [if_neg hc, ih hmore fun hfalse => absurd hfalse Bool.false_ne_true]

theorem IsSqueezed.squeeze_eq {t : Text} (h : IsSqueezed t) : squeeze t = t :=
  h.squeezeAfter_eq nofun

/-- The code of tidy spans is squeezed. -/
theorem isSqueezed_of_mem_tidySpans {spans : List Span} {s : Span} (hs : s ∈ tidySpans spans)
    (hcode : s.isCode = true) : IsSqueezed s.text := by
  simp only [tidySpans, List.modifyHead_eq_modify_zero] at hs
  obtain ⟨i, hi⟩ := List.mem_iff_getElem?.1 (List.mem_filter.1 hs).1
  obtain ⟨t, ht, htcode, htext⟩ := text_modify hi hcode
  obtain ⟨u, hu, hucode, hutext⟩ := text_modify ht htcode
  obtain ⟨v, -, rfl⟩ := List.mem_map.1 (List.mem_of_getElem? hu)
  have hsqueezed : IsSqueezed (mapCode squeeze v).text := by
    rw [text_mapCode hucode]
    exact (isSqueezed_squeezeAfter false v.text).1
  have htrimmed : IsSqueezed t.text := by
    rw [hutext]
    split
    · exact hsqueezed.of_infix (List.dropWhile_suffix _).isInfix
    · exact hsqueezed
  rw [htext]
  split
  · exact htrimmed.of_infix (List.IsPrefix.isInfix ⟨_, Text.trimEnd_append t.text⟩)
  · exact htrimmed

/-! ## Tidy lines stay tidy -/

theorem mapCode_eq_self {f : Text → Text} {s : Span} (h : s.isCode = true → f s.text = s.text) :
    mapCode f s = s := by
  unfold mapCode
  split
  · next hs => rw [h hs]
  · rfl

theorem modify_eq_self {f : Span → Span} {i : Nat} {spans : List Span}
    (h : ∀ s, spans[i]? = some s → f s = s) : spans.modify i f = spans := by
  refine List.ext_getElem? fun j => ?_
  rw [List.getElem?_modify]
  by_cases hij : i = j
  · subst hij
    cases hs : spans[i]? with
    | none => rfl
    | some s => simp [h s hs]
  · simp [hij]

theorem dropWhile_eq_self {p : Char → Bool} {t : Text} (h : ∀ c, t.head? = some c → p c = false) :
    t.dropWhile p = t := by
  cases t with
  | nil => rfl
  | cons c t => exact List.dropWhile_cons_of_neg (by simp [h c rfl])

/-- A line that is tidy is not changed. -/
theorem tidySpans_eq_self {spans : List Span} (h : IsTidy spans)
    (hsqueezed : ∀ s ∈ spans, s.isCode = true → IsSqueezed s.text) : tidySpans spans = spans := by
  have hmap : spans.map (mapCode squeeze) = spans := by
    conv_rhs => rw [← List.map_id spans]
    exact List.map_congr_left fun s hs =>
      mapCode_eq_self fun hcode => (hsqueezed s hs hcode).squeeze_eq
  have hstart : spans.modify 0 (mapCode Text.trimStart) = spans := by
    refine modify_eq_self fun s hs => mapCode_eq_self fun hcode => dropWhile_eq_self ?_
    exact h.head s (by rw [List.head?_eq_getElem?, hs]) hcode
  have hend : spans.modify (spans.length - 1) (mapCode Text.trimEnd) = spans := by
    refine modify_eq_self fun s hs => mapCode_eq_self fun hcode => ?_
    have hlast := h.last s (by rw [List.getLast?_eq_getElem?, hs]) hcode
    rw [← List.head?_reverse] at hlast
    show (s.text.reverse.dropWhile Text.isBlank).reverse = s.text
    rw [dropWhile_eq_self hlast, List.reverse_reverse]
  simp only [tidySpans, List.modifyHead_eq_modify_zero, hmap, hstart, hend]
  exact List.filter_eq_self.2 fun s hs => by simp [h.solid s hs]

/-! ## Joined code has the same lines -/

theorem splitLines_ne_nil (t : Text) : Text.splitLines t ≠ [] := by
  cases t with
  | nil => exact List.cons_ne_nil _ _
  | cons c t =>
    rw [Text.splitLines]
    split
    · exact List.cons_ne_nil _ _
    · cases Text.splitLines t <;> exact List.cons_ne_nil _ _

/-- A text is cut at a line feed like the texts before and after it. -/
theorem splitLines_append_lineFeed (a b : Text) :
    Text.splitLines (a ++ '\n' :: b) = Text.splitLines a ++ Text.splitLines b := by
  induction a with
  | nil => simp [Text.splitLines]
  | cons c a ih =>
    rw [List.cons_append, Text.splitLines, Text.splitLines, ih]
    split
    · rfl
    · obtain ⟨piece, pieces, hpieces⟩ := List.exists_cons_of_ne_nil (splitLines_ne_nil a)
      rw [hpieces]
      rfl

theorem splitLines_of_not_mem {t : Text} (h : '\n' ∉ t) : Text.splitLines t = [t] := by
  induction t with
  | nil => rfl
  | cons c t ih =>
    obtain ⟨hc, ht⟩ := not_or.1 (mt List.mem_cons.2 h)
    rw [Text.splitLines, if_neg (Ne.symm hc), ih ht]
    rfl

/-- A span of code stands in front of the rows like its pieces. -/
theorem splitRows_code {s : Span} (hs : s.isCode = true) (hne : s.text ≠ []) (spans : List Span) :
    RowsAlike false (splitRows (s :: spans))
      (consPieces s.start (Text.splitLines s.text) (splitRows spans)) := by
  by_cases hfeed : '\n' ∈ s.text
  · have hcut : splitRows (s :: spans) =
        consPieces s.start (Text.splitLines s.text) (splitRows spans) := by
      rw [splitRows, List.foldr_cons, if_pos (by simp [hs, hfeed]), ← splitRows]
    rw [hcut]
    exact rowsAlike_refl _
  · rw [splitRows_cons fun _ => hfeed, splitLines_of_not_mem hfeed]
    have hspan : codeSpans s.start s.text =
        [⟨.code, s.text, s.start, s.start + Text.byteSize s.text⟩] :=
      if_neg (by simpa using hne)
    rw [consPieces, hspan]
    exact alike_consSpan (.of_eq (kind_of_isCode hs).symm rfl) (rowsAlike_refl _)

theorem consPieces_cons {pieces : List Text} (h : pieces ≠ []) (start : Nat) (piece : Text)
    (rows : List Row) : consPieces start (piece :: pieces) rows =
      ⟨codeSpans start piece, some (start + Text.byteSize piece)⟩ ::
        consPieces (start + Text.byteSize piece + 1) pieces rows := by
  obtain ⟨next, more, rfl⟩ := List.exists_cons_of_ne_nil h
  rfl

/-- A line feed between pieces of code ends a row. -/
theorem alike_consPieces_append {P Q : List Text} (hP : P ≠ []) (hQ : Q ≠ []) (a b c : Nat)
    (newlineAt : Option Nat) (rows : List Row) :
    RowsAlike false (consPieces a (P ++ Q) rows)
      (consPieces b P (⟨[], newlineAt⟩ :: consPieces c Q rows)) := by
  induction P generalizing a b with
  | nil => exact absurd rfl hP
  | cons piece pieces ih =>
    cases pieces with
    | nil =>
      have hrow : ∃ row, consPieces b [piece] (⟨[], newlineAt⟩ :: consPieces c Q rows) =
          row :: consPieces c Q rows ∧ row.spans = codeSpans b piece := by
        rw [consPieces]
        rcases codeSpans_cases b piece with hnil | ⟨s, hs, -⟩
        · exact ⟨_, by rw [hnil]; rfl, hnil.symm⟩
        · exact ⟨_, by rw [hs]; rfl, hs.symm⟩
      obtain ⟨row, hput, hspans⟩ := hrow
      rw [hput, List.singleton_append, consPieces_cons hQ]
      refine .cons ?_ (alike_consPieces (rowsAlike_refl rows) Q _ _)
      rw [hspans]
      exact alike_codeSpans _ _ piece
    | cons next pieces =>
      rw [List.cons_append, consPieces_cons (by simp), consPieces_cons (List.cons_ne_nil _ _)]
      exact .cons (alike_codeSpans _ _ piece) (ih (List.cons_ne_nil _ _) _ _)

theorem splitRows_cons_eq (s : Span) (spans : List Span) :
    splitRows (s :: spans) =
      if s.isCode && s.text.contains '\n'
      then consPieces s.start (Text.splitLines s.text) (splitRows spans)
      else consSpan s (splitRows spans) :=
  rfl

/-- A span is put in front of alike rows in the same way. -/
theorem alike_splitRows_cons {s : Span} {xs ys : List Span}
    (h : RowsAlike false (splitRows xs) (splitRows ys)) :
    RowsAlike false (splitRows (s :: xs)) (splitRows (s :: ys)) := by
  rw [splitRows_cons_eq, splitRows_cons_eq]
  split
  · exact alike_consPieces h _ _ _
  · exact alike_consSpan (.of_eq rfl rfl) h

/-- Two spans of code that meet at a line feed can be joined. -/
theorem alike_splitRows_merged {s t : Span} (hs : s.isCode = true) (ht : t.isCode = true)
    (hne : s.text ≠ []) (hmeet : s.text = ['\n'] ∨ ['\n'] <+: t.text) (hne' : t.text ≠ [])
    (spans : List Span) :
    RowsAlike false (splitRows ({ s with text := s.text ++ t.text, stop := t.stop } :: spans))
      (splitRows (s :: t :: spans)) := by
  let merged : Span := { s with text := s.text ++ t.text, stop := t.stop }
  have hmerged : RowsAlike false (splitRows (merged :: spans))
      (consPieces s.start (Text.splitLines (s.text ++ t.text)) (splitRows spans)) :=
    @splitRows_code merged hs (by simp [merged, hne]) spans
  refine rowsAlike_trans hmerged ?_
  rcases hmeet with hfeed | ⟨u, hu⟩
  · have hpieces : Text.splitLines (s.text ++ t.text) = [] :: Text.splitLines t.text := by
      rw [hfeed]
      exact splitLines_append_lineFeed [] t.text
    rw [hpieces, splitRows_lineFeed hs hfeed, consPieces_cons (splitLines_ne_nil t.text)]
    refine .cons .nil (rowsAlike_trans ?_ (rowsAlike_symm (splitRows_code ht hne' spans)))
    exact alike_consPieces (rowsAlike_refl _) _ _ _
  · have hpieces : Text.splitLines (s.text ++ t.text) =
        Text.splitLines s.text ++ Text.splitLines u := by
      rw [← hu]
      exact splitLines_append_lineFeed s.text u
    have hnext : Text.splitLines t.text = [] :: Text.splitLines u := by
      rw [← hu]
      exact splitLines_append_lineFeed [] u
    have hrows := splitRows_code ht hne' spans
    rw [hnext, consPieces_cons (splitLines_ne_nil u)] at hrows
    have hafter := rowsAlike_trans (splitRows_code hs hne (t :: spans))
      (alike_consPieces hrows _ s.start s.start)
    rw [hpieces]
    exact rowsAlike_trans (alike_consPieces_append (splitLines_ne_nil _) (splitLines_ne_nil u)
      _ s.start _ _ _) (rowsAlike_symm hafter)

/-- The lines of a script stay when code that meets at line feeds is joined. -/
theorem alike_splitRows_joinCode {spans : List Span} (h : spans.IsChain MeetAtLineFeed)
    (hne : ∀ s ∈ spans, s.text ≠ []) :
    RowsAlike false (splitRows (joinCode spans)) (splitRows spans) := by
  induction spans with
  | nil => exact rowsAlike_refl _
  | cons s spans ih =>
    obtain ⟨hs, hmore⟩ := List.forall_mem_cons.1 hne
    obtain ⟨hmeet, hchain⟩ := List.isChain_cons.1 h
    have hput := @alike_splitRows_cons s _ _ (ih hchain hmore)
    refine rowsAlike_trans ?_ hput
    show RowsAlike false (splitRows (consMerged s (joinCode spans))) _
    cases spans with
    | nil => exact rowsAlike_refl _
    | cons t spans =>
      obtain ⟨first, more, hjoined, hcode, hprefix⟩ := exists_joinCode_cons t spans
      rw [hjoined, consMerged]
      split
      · next hboth =>
        obtain ⟨hs', hfirst⟩ := Bool.and_eq_true_iff.1 hboth
        have ht : t.text ≠ [] := hmore t List.mem_cons_self
        refine alike_splitRows_merged hs' hfirst hs ?_ (fun hnil => ht ?_) more
        · refine (hmeet t rfl hs' (hcode.symm.trans hfirst)).imp_right fun hfeed => ?_
          rwa [hfeed] at hprefix
        · rw [hnil] at hprefix
          exact List.prefix_nil.1 hprefix
      · exact rowsAlike_refl _

/-! ## Stripping once more -/

/-- Lines that are tidy are what stripping leaves of a script that has them. -/
theorem alike_strip_of_rows {spans : List Span} {lines : List Line}
    (hrows : List.Forall₂ (fun (l : Line) (row : Row) => SpansAlike false l.spans row.spans) lines
      (splitRows (uncomment spans)))
    (htidy : ∀ l ∈ lines, tidySpans l.spans = l.spans ∧ l.spans ≠ []) :
    SpansAlike false (joinLines lines) (strip (fun _ => false) spans).1 := by
  rw [← toRow_splitLines, List.forall₂_map_right_iff] at hrows
  have hkept : List.Forall₂ (fun l l' : Line => SpansAlike false l.spans l'.spans) lines
      ((splitLines (uncomment spans)).map tidy) := by
    rw [List.forall₂_map_right_iff]
    refine ((List.forall₂_and_left _ _).2 ⟨htidy, hrows⟩).imp fun l l' hl => ?_
    have htidied := alike_tidySpans hl.2
    rwa [hl.1.1] at htidied
  have hall : ((splitLines (uncomment spans)).map tidy).filter (fun l => !l.spans.isEmpty) =
      (splitLines (uncomment spans)).map tidy := by
    refine List.filter_eq_self.2 fun l' hl' => ?_
    obtain ⟨l, hl, hspans⟩ := exists_of_mem_right hkept hl'
    have hlength := List.length_pos_iff.2 (htidy l hl).2
    rw [hspans.length_eq, List.length_pos_iff] at hlength
    simpa using hlength
  rw [strip_fst, kept_eq, hall]
  exact alike_joinLines_of_spans hkept

theorem uncomment_of_no_comments {spans : List Span} (h : ∀ s ∈ spans, s.isComment = false) :
    uncomment spans = joinCode spans := by
  have hmap : spans.map blankComment = spans := by
    conv_rhs => rw [← List.map_id spans]
    exact List.map_congr_left fun s hs => if_neg (by simp [h s hs])
  rw [uncomment, hmap, joinCode]

/-- Code that alternates with other spans is joined already. -/
theorem joinCode_of_alternates {spans : List Span} (h : Alternates spans) :
    joinCode spans = spans := by
  induction spans with
  | nil => rfl
  | cons s spans ih =>
    obtain ⟨hs, hmore⟩ := alternates_cons.1 h
    show consMerged s (joinCode spans) = _
    rw [ih hmore]
    cases spans with
    | nil => rfl
    | cons t spans =>
      rw [consMerged, if_neg]
      intro hboth
      obtain ⟨hcode, ht⟩ := Bool.and_eq_true_iff.1 hboth
      rw [hs hcode t rfl] at ht
      cases ht

/-- A stripped script is what stripping leaves of it. -/
theorem alike_strip_strip {isDebug : Text → Bool} {spans : List Span}
    (h : ∀ s ∈ spans, s.text ≠ [])
    (hcomments : ∀ s ∈ (strip isDebug spans).1, s.isComment = false) :
    SpansAlike false (strip isDebug spans).1
      (strip (fun _ => false) (strip isDebug spans).1).1 := by
  by_cases hnil : kept isDebug spans = []
  · rw [strip_fst, hnil]
    exact .nil
  · have hkept := @isTidy_of_mem_kept isDebug spans h
    obtain ⟨hmeet, hne⟩ := meetAtLineFeed_strip isDebug h
    have hrows := spans_splitRows_joinLines hnil fun l hl => (hkept l hl).2
    refine alike_strip_of_rows ?_ fun l hl =>
      ⟨tidySpans_eq_self (hkept l hl).1 ?_, (hkept l hl).1.nonempty⟩
    · rw [uncomment_of_no_comments hcomments]
      have hjoined : List.Forall₂ (fun spans (row : Row) => SpansAlike false spans row.spans)
          ((splitRows (strip isDebug spans).1).map Row.spans)
          (splitRows (joinCode (strip isDebug spans).1)) :=
        List.forall₂_map_left_iff.2 (rowsAlike_symm (alike_splitRows_joinCode hmeet hne))
      rw [strip_fst, hrows, List.forall₂_map_left_iff] at hjoined
      exact hjoined
    · obtain ⟨row, -, hspans, -⟩ := exists_row_of_mem_kept hl
      rw [hspans]
      exact fun s hs hcode => isSqueezed_of_mem_tidySpans hs hcode

/-! ## Lines with single spaces -/

theorem isSqueezable_of_isBlank_eq_false {c : Char} (h : Text.isBlank c = false) :
    isSqueezable c = false := by
  refine Bool.eq_false_iff.2 fun hsqueezable => ?_
  simp only [isSqueezable, Bool.or_eq_true, beq_iff_eq] at hsqueezable
  rcases hsqueezable with (rfl | rfl) | rfl <;> exact absurd h (by decide)

/-- Whether a text has characters, none of them a blank. -/
def IsSolid (t : Text) : Prop :=
  t ≠ [] ∧ ∀ c ∈ t, Text.isBlank c = false

theorem IsSolid.isSqueezed {t : Text} (h : IsSolid t) : IsSqueezed t := by
  have hnone : ∀ c ∈ t, isSqueezable c = false := fun c hc =>
    isSqueezable_of_isBlank_eq_false (h.2 c hc)
  refine ⟨fun c hc hblank => absurd hblank (by simp [hnone c hc]), ?_⟩
  exact (List.pairwise_of_forall_mem_list fun a ha _ _ hblank =>
    absurd hblank (by simp [hnone a ha])).isChain

/-- A text without blanks can stand in front of a squeezed one, with a space between them. -/
theorem IsSolid.isSqueezed_append {t u : Text} (ht : IsSolid t) (hu : IsSqueezed u)
    (hhead : ∀ c, u.head? = some c → Text.isBlank c = false) : IsSqueezed (t ++ ' ' :: u) := by
  refine ⟨fun c hc hblank => ?_, List.isChain_append.2 ⟨ht.isSqueezed.apart,
    List.isChain_cons.2 ⟨fun d hd _ => isSqueezable_of_isBlank_eq_false (hhead d hd), hu.apart⟩,
    fun c hc _ _ hblank => ?_⟩⟩
  · rcases List.mem_append.1 hc with hc | hc
    · exact ht.isSqueezed.spaces c hc hblank
    · exact (List.mem_cons.1 hc).elim id fun hc => hu.spaces c hc hblank
  · have hsolid := isSqueezable_of_isBlank_eq_false (ht.2 c (List.mem_of_mem_getLast? hc))
    rw [hsolid] at hblank
    cases hblank

/-- Texts without blanks with single spaces between them make a line that is squeezed and tidy. -/
theorem isSqueezed_joinWith {texts : List Text} (hne : texts ≠ []) (h : ∀ t ∈ texts, IsSolid t) :
    let line := Text.joinWith [' '] texts
    line ≠ [] ∧ IsSqueezed line ∧ (∀ c, line.head? = some c → Text.isBlank c = false) ∧
      ∀ c, line.getLast? = some c → Text.isBlank c = false := by
  induction texts with
  | nil => exact absurd rfl hne
  | cons t texts ih =>
    obtain ⟨ht, hmore⟩ := List.forall_mem_cons.1 h
    cases texts with
    | nil =>
      rw [joinWith_singleton]
      exact ⟨ht.1, ht.isSqueezed, fun c hc => ht.2 c (List.mem_of_mem_head? hc),
        fun c hc => ht.2 c (List.mem_of_mem_getLast? hc)⟩
    | cons u texts =>
      obtain ⟨hline, hsqueezed, hhead, hlast⟩ := ih (List.cons_ne_nil _ _) hmore
      rw [joinWith_cons_cons]
      generalize Text.joinWith [' '] (u :: texts) = line at hline hsqueezed hhead hlast
      refine ⟨by simp [ht.1], ht.isSqueezed_append hsqueezed hhead, fun c hc => ?_,
        fun c hc => ?_⟩
      · rw [List.head?_append_of_ne_nil _ ht.1] at hc
        exact ht.2 c (List.mem_of_mem_head? hc)
      · rw [← List.append_assoc, List.getLast?_append_of_ne_nil _ hline] at hc
        exact hlast c hc

/-- A tidy line of squeezed code is what stripping leaves of it. -/
theorem strip_line {s : Span} (hcode : s.isCode = true) (hfeed : '\n' ∉ s.text)
    (htidy : IsTidy [s]) (hsqueezed : IsSqueezed s.text) :
    (strip (fun _ => false) [s]).1 = [s] := by
  have hcomments : ∀ t ∈ [s], t.isComment = false := by
    simp [Span.isComment, kind_of_isCode hcode]
  have hrows := toRow_splitLines (uncomment [s])
  rw [uncomment_of_no_comments hcomments, show joinCode [s] = [s] from rfl,
    splitRows_cons (fun _ => hfeed)] at hrows
  obtain ⟨l, hl, hrow⟩ := List.map_eq_singleton_iff.1 hrows
  have hspans : (tidy l).spans = [s] := by
    show tidySpans l.toRow.spans = _
    rw [hrow]
    exact tidySpans_eq_self htidy (List.forall_mem_singleton.2 fun _ => hsqueezed)
  rw [strip_fst, kept_eq, uncomment_of_no_comments hcomments, show joinCode [s] = [s] from rfl, hl,
    List.map_singleton, List.filter_singleton, hspans]
  exact hspans

end Strip

/-! ## Stripped scripts -/

section

variable {source : Text} {spans : List Span}

/-- A stripped script has no comments. -/
theorem isComment_of_mem_strip (isDebug : Text → Bool) (h : scan source = .ok spans) :
    ∀ s ∈ (strip isDebug spans).1, s.isComment = false := by
  obtain ⟨halternates, hne⟩ := alternates_of_scan h
  have hsteady := steady_strip isDebug (rescans_of_scan h) halternates hne
  intro s hs
  cases hcode : s.isCode with
  | true => simp [Span.isComment, Strip.kind_of_isCode hcode]
  | false => simp [Span.isComment, (hsteady.string s hs hcode).1]

/-- Nothing is reported for a script without comments. -/
theorem report_of_no_comments {spans : List Span} (h : ∀ s ∈ spans, s.isComment = false) :
    (strip (fun _ => false) spans).2 = ⟨0, 0⟩ := by
  rw [Strip.strip_of_never fun _ => rfl]
  exact congrArg (StripReport.mk · 0) (List.countP_eq_zero.2 fun s hs => by simp [h s hs])

/-- Stripping a stripped script once more changes nothing and finds nothing to remove. -/
theorem strip_strip (isDebug : Text → Bool) (h : scan source = .ok spans) :
    let stripped := (strip isDebug spans).1
    (strip (fun _ => false) stripped).1.map Span.shape = stripped.map Span.shape ∧
      (strip (fun _ => false) stripped).2 = ⟨0, 0⟩ := by
  have hcomments := isComment_of_mem_strip isDebug h
  exact ⟨shape_of_alike (Strip.alike_strip_strip (alternates_of_scan h).2 hcomments),
    report_of_no_comments hcomments⟩

/-- The text of a stripped script can be scanned, and stripping what is found changes nothing. -/
theorem strip_scan_strip (isDebug : Text → Bool) (h : scan source = .ok spans) :
    let stripped := (strip isDebug spans).1
    ∃ again, scan (render stripped) = .ok again ∧
      (strip (fun _ => false) again).1.map Span.shape = stripped.map Span.shape ∧
      (strip (fun _ => false) again).2 = ⟨0, 0⟩ ∧ ∀ s ∈ again, s.isComment = false := by
  intro stripped
  obtain ⟨halternates, hne⟩ := alternates_of_scan h
  have hsteady := steady_strip isDebug (rescans_of_scan h) halternates hne
  have hsolid := (meetAtLineFeed_strip isDebug hne).2
  obtain ⟨again, hscan, hshape⟩ := scan_of_rescans hsteady.rescans hsolid
  have hcomments := isComment_of_mem_strip isDebug h
  have hagain : ∀ s ∈ again, s.isComment = false := by
    intro s hs
    obtain ⟨s', hs', hsame⟩ := List.mem_map.1 (hshape ▸ List.mem_map_of_mem hs)
    have hkind : s'.kind = s.kind := congrArg Prod.fst hsame
    rw [Span.isComment, ← hkind, ← Span.isComment]
    cases hcode : s'.isCode with
    | true => simp [Span.isComment, Strip.kind_of_isCode hcode]
    | false =>
      rw [← Strip.uncomment_of_no_comments hcomments] at hs'
      exact hcomments s' (Strip.mem_of_mem_uncomment hs' hcode)
  have huncomment : SpansAlike false (Strip.uncomment stripped) (Strip.uncomment again) := by
    rw [Strip.uncomment_of_no_comments hcomments, Strip.uncomment_of_no_comments hagain,
      Strip.joinCode_of_alternates (alternates_of_scan hscan).1]
    exact alike_of_shape hshape
  have hstripped := Strip.alike_strip_strip hne hcomments
  exact ⟨again, hscan, shape_of_alike (alike_trans hstripped
    (alike_strip_of_uncomment (fun _ => rfl) huncomment)), report_of_no_comments hagain, hagain⟩

end

end LuaVeil
