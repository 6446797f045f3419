/-
# Lines in guards

Some lines of a script are put into guards, each behind its indentation and before the
comments at its end. Nothing else changes: the other lines stay, a scan finds the same
strings and comments, and the lines that could be wrapped and were not can be wrapped as
before.

Main statements:

* `Guard.choose_eq_nil_iff`, when no line is chosen;
* `rescans_wrap`, a line in a guard is found where the line was found;
* `guardLines_guarded`, what becomes of a script.
-/
import LuaVeil.Proofs.Line.GuardedLines
import LuaVeil.Proofs.Names.FreshName
import LuaVeil.Proofs.Random.Draws
import LuaVeil.Proofs.Veil.Legible

namespace LuaVeil

/-! ## Chosen lines -/

/-- The lines of a script that can be wrapped. -/
def wrappableLines (spans : List Span) : List Nat :=
  (List.range (splitLines spans).length).filter (isWrappable (splitLines spans))

theorem mem_wrappableLines {spans : List Span} {i : Nat} :
    i ∈ wrappableLines spans ↔ isWrappable (splitLines spans) i = true := by
  rw [wrappableLines, List.mem_filter, List.mem_range]
  refine and_iff_right_of_imp fun hwrap => ?_
  by_contra hi
  rw [isWrappable, List.getElem?_eq_none (by omega)] at hwrap
  cases hwrap

namespace Guard

variable {p : Probability} {α : Type}

theorem select_cons (p : Probability) (a : α) (items : List α) (source : Source) :
    (select p (a :: items) source).1 =
      if (Draw.chance p source).1 then a :: (select p items (Draw.chance p source).2).1
      else (select p items (Draw.chance p source).2).1 :=
  rfl

theorem select_sublist (p : Probability) (items : List α) (source : Source) :
    (select p items source).1.Sublist items := by
  induction items generalizing source with
  | nil => exact List.Sublist.slnil
  | cons a items ih =>
    rw [select_cons]
    split
    · exact (ih _).cons_cons a
    · exact (ih _).cons a

theorem chance_of_one (h : p.value = 1) (source : Source) : (Draw.chance p source).1 = true := by
  rw [Draw.chance, if_pos h]
  rfl

theorem chance_of_zero (h : p.value = 0) (source : Source) : (Draw.chance p source).1 = false := by
  have hthreshold : p.threshold = 0 := by
    rw [Probability.threshold, h, Rat.zero_mul]
    rfl
  have hdraw : (Draw.chance p source).1 =
      decide ((Draw.long source).1.toNat < p.threshold) := by
    rw [Draw.chance, if_neg (by rw [h]; decide)]
    rfl
  rw [hdraw, hthreshold]
  rfl

theorem select_of_one (h : p.value = 1) (items : List α) (source : Source) :
    (select p items source).1 = items := by
  induction items generalizing source with
  | nil => rfl
  | cons a items ih => rw [select_cons, if_pos (chance_of_one h source), ih]

theorem select_of_zero (h : p.value = 0) (items : List α) (source : Source) :
    (select p items source).1 = [] := by
  induction items generalizing source with
  | nil => rfl
  | cons a items ih =>
    rw [select_cons, if_neg (by simp [chance_of_zero h source]), ih]

/-- What is selected is chosen, or any one line if nothing is selected but something may be. -/
theorem choose_cases (p : Probability) (eligible : List Nat) (source : Source) :
    ((choose p eligible source).1 = (select p eligible source).1 ∧
      ((select p eligible source).1 = [] → eligible = [] ∨ p.value = 0)) ∨
    (p.value ≠ 0 ∧ (select p eligible source).1 = [] ∧
      ∃ i ∈ eligible, (choose p eligible source).1 = [i]) := by
  have hchoose : (choose p eligible source).1 =
      if (select p eligible source).1.isEmpty && !eligible.isEmpty && decide (0 < p.value) then
        [(Draw.pick 0 eligible (select p eligible source).2).1]
      else (select p eligible source).1 := by
    have hbind : (choose p eligible source).1 =
        ((if (select p eligible source).1.isEmpty && !eligible.isEmpty && decide (0 < p.value) then
            (fun i => [i]) <$> Draw.pick 0 eligible
          else pure (select p eligible source).1 : Draw (List Nat))
            (select p eligible source).2).1 := rfl
    rw [hbind]
    split <;> rfl
  rw [hchoose]
  split
  · next hforced =>
    simp only [Bool.and_eq_true, List.isEmpty_iff, Bool.not_eq_true', List.isEmpty_eq_false_iff,
      decide_eq_true_eq] at hforced
    obtain ⟨⟨hselected, hne⟩, hpos⟩ := hforced
    exact .inr ⟨(Rat.ne_of_lt hpos).symm, hselected, _, Draw.pick_mem hne 0 _, rfl⟩
  · next hforced =>
    refine .inl ⟨rfl, fun hselected => ?_⟩
    by_contra hnot
    obtain ⟨hne, hzero⟩ := not_or.1 hnot
    refine hforced ?_
    simp only [hselected, List.isEmpty_nil, Bool.true_and, Bool.and_eq_true, Bool.not_eq_true',
      List.isEmpty_eq_false_iff, decide_eq_true_eq]
    exact ⟨hne, Rat.lt_of_le_of_ne p.nonneg (Ne.symm hzero)⟩

theorem choose_sublist (p : Probability) (eligible : List Nat) (source : Source) :
    (choose p eligible source).1.Sublist eligible := by
  rcases choose_cases p eligible source with ⟨hchoose, -⟩ | ⟨-, -, i, hi, hchoose⟩
  · rw [hchoose]
    exact select_sublist p eligible source
  · rw [hchoose]
    exact List.singleton_sublist.2 hi

/-- No line is chosen if none can be, or if the probability is zero. -/
theorem choose_eq_nil_iff (p : Probability) (eligible : List Nat) (source : Source) :
    (choose p eligible source).1 = [] ↔ eligible = [] ∨ p.value = 0 := by
  rcases choose_cases p eligible source with ⟨hchoose, hnil⟩ | ⟨hne, -, i, hi, hchoose⟩
  · rw [hchoose]
    refine ⟨hnil, ?_⟩
    rintro (rfl | hzero)
    · rfl
    · exact select_of_zero hzero eligible source
  · rw [hchoose]
    refine iff_of_false (List.cons_ne_nil _ _) ?_
    rintro (rfl | hzero)
    · cases hi
    · exact hne hzero

theorem choose_of_one (h : p.value = 1) (eligible : List Nat) (source : Source) :
    (choose p eligible source).1 = eligible := by
  rcases choose_cases p eligible source with ⟨hchoose, -⟩ | ⟨-, hselected, i, hi, -⟩
  · rw [hchoose, select_of_one h]
  · rw [select_of_one h] at hselected
    rw [hselected] at hi
    cases hi

/-! ## Drawn guards -/

theorem fst_drawn (predicate : OpaquePredicate) (chosen : List Nat) (source : Source) :
    (chosen.mapM (fun i => (fun guard => (i, guard)) <$> predicate.guard) source).1.map Prod.fst =
      chosen := by
  induction chosen generalizing source with
  | nil => rfl
  | cons i chosen ih =>
    rw [List.mapM_cons]
    exact congrArg (i :: ·) (ih _)

/-- The lines that are chosen to be put into guards. -/
def chosen (p : Probability) (spans : List Span) : Draw (List Nat) :=
  choose p (wrappableLines spans)

theorem put_of_not_mem {p : Probability} {predicate : OpaquePredicate} {spans : List Span}
    {source : Source} {i : Nat} (h : i ∉ (chosen p spans source).1) (l : Line) :
    put (drawn p predicate spans source).1 i l = l := by
  have hplaces : (drawn p predicate spans source).1.map Prod.fst = (chosen p spans source).1 :=
    fst_drawn predicate _ _
  rw [← hplaces] at h
  have hnone : (drawn p predicate spans source).1.lookup i = none := by
    refine List.lookup_eq_none_iff.2 fun place hplace => ?_
    rw [bne_iff_ne]
    rintro rfl
    exact h (List.mem_map_of_mem hplace)
  rw [put, hnone]

theorem put_of_mem {p : Probability} (predicate : OpaquePredicate) {spans : List Span}
    {source : Source} {i : Nat} (h : i ∈ (chosen p spans source).1) (l : Line) :
    ∃ source', put (drawn p predicate spans source).1 i l =
      wrap (predicate.guard source').1 l := by
  have hplaces : (drawn p predicate spans source).1.map Prod.fst = (chosen p spans source).1 :=
    fst_drawn predicate _ _
  rw [← hplaces] at h
  unfold put
  split
  · next guard hguard =>
    obtain ⟨before, after, hguards, -⟩ := List.lookup_eq_some_iff.1 hguard
    obtain ⟨source', hdrawn⟩ := mem_guards (hguards ▸ List.mem_append_right _ List.mem_cons_self)
    exact ⟨source', by rw [← hdrawn]⟩
  · next hnone =>
    obtain ⟨place, hplace, rfl⟩ := List.mem_map.1 h
    exact absurd (List.lookup_eq_none_iff.1 hnone place hplace) (by simp)

end Guard

/-! ## Rows -/

theorem forall₂_mapIdx {α β : Type} {R : α → β → Prop} {f : Nat → α → β} {xs : List α}
    (h : ∀ (i : Nat) (a : α), xs[i]? = some a → R a (f i a)) : List.Forall₂ R xs (xs.mapIdx f) := by
  refine List.forall₂_iff_get.2 ⟨by simp, fun i hi hi' => ?_⟩
  simpa using h i _ (List.getElem?_eq_getElem hi)

theorem RescansBefore.dropIndent {rest : Text} {l : Line} (h : RescansBefore rest l.spans) :
    RescansBefore rest (Guard.dropIndent l) := by
  obtain ⟨⟨spans, newlineAt⟩, facts⟩ := l
  cases spans with
  | nil => exact h
  | cons s spans =>
    let indent := Line.indent ⟨⟨s :: spans, newlineAt⟩, facts⟩
    show RescansBefore rest ((if s.isCode = true then
      { s with text := s.text.drop indent.length } else s) :: spans)
    split
    · next hs =>
      obtain ⟨hreads, hmore⟩ := h
      rw [Span.Reads, if_pos hs, ← List.take_append_drop indent.length s.text] at hreads
      have hcode : Span.isCode { s with text := s.text.drop indent.length } = true := hs
      refine ⟨?_, hmore⟩
      rw [Span.Reads, if_pos hcode]
      exact hreads.right
    · exact h

/-- A line in a guard is found where the line was found. -/
theorem rescans_wrap {p : OpaquePredicate} (hname : isWord p.name = true) (source : Source)
    {l : Line} (hne : ∀ s ∈ l.spans, s.text ≠ []) {rest calm : Text} (hcalm : Calmer rest calm)
    (hline : IsLineEnd rest → IsLineEnd calm) (h : RescansBefore rest l.spans) :
    RescansBefore calm (Guard.wrap (p.guard source).1 l).spans := by
  obtain ⟨hfront, hend⟩ := staysCode_guard hname source l
  obtain ⟨start, place, hspans⟩ := exists_wrap_eq (p.guard source).1 l
  have hdrop := h.dropIndent
  have htail : ∀ s ∈ (Guard.dropIndent l).tail, s.text ≠ [] := by
    intro s hs
    rw [Guard.dropIndent, List.tail_modifyHead] at hs
    exact hne s (List.mem_of_mem_tail hs)
  have hlast : ∀ s, ((Guard.dropIndent l).rdropWhile Span.isComment).getLast? = some s →
      ¬ s.isComment = true := by
    intro s hs
    obtain ⟨hnil, rfl⟩ := List.mem_getLast?_eq_getLast hs
    exact List.rdropWhile_last_not _ _ hnil
  have hsplit : (Guard.dropIndent l).rdropWhile Span.isComment ++
      (Guard.dropIndent l).rtakeWhile Span.isComment = Guard.dropIndent l :=
    List.rdropWhile_append_rtakeWhile
  rw [hspans]
  generalize (Guard.dropIndent l).rdropWhile Span.isComment = body,
    (Guard.dropIndent l).rtakeWhile Span.isComment = comments at hsplit hlast ⊢
  rw [← hsplit] at hdrop htail
  obtain ⟨hbody, hcomments⟩ := rescansBefore_append.1 hdrop
  refine ⟨hfront _, rescansBefore_append.2 ⟨?_, hend _, ?_⟩⟩
  · -- the `end` begins with a blank, and no comment is right before it
    refine hbody.follow (fun s hs => htail s ?_) (.of_inert (fun c hc => ?_) _)
      fun s hs hcomment => absurd hcomment (hlast s hs)
    · cases body with
      | nil => cases hs
      | cons b body => exact List.mem_append_left _ hs
    · obtain rfl := Option.some.inj hc
      decide
  · refine hcomments.follow (fun s hs => htail s ?_) hcalm fun _ _ _ => hline
    cases body with
    | nil => exact hs
    | cons b body => exact List.mem_append_right _ (List.mem_of_mem_tail hs)

/-- Rows that are found where others were found, in front of calmer texts, are found together. -/
theorem rescans_joinRows_of_rows {rows rows' : List Row}
    (h : List.Forall₂ (fun row row' => ∀ {rest calm : Text}, Calmer rest calm →
      (IsLineEnd rest → IsLineEnd calm) → RescansBefore rest row.spans →
        RescansBefore calm row'.spans) rows rows')
    (hrescans : Rescans (joinRows rows)) : Rescans (joinRows rows') := by
  induction h with
  | nil => exact hrescans
  | @cons row row' rows rows' hrow hrows ih =>
    by_cases hnil : rows = []
    · subst hnil
      cases hrows
      have hlast : Rescans row.spans := hrescans
      rw [← rescansBefore_nil] at hlast
      exact (rescansBefore_nil _).1 (hrow (.refl []) id hlast)
    · have hnil' : rows' ≠ [] := fun hno => by
        rw [hno] at hrows
        cases hrows
        exact hnil rfl
      rw [joinRows_cons row hnil] at hrescans
      rw [joinRows_cons row' hnil']
      obtain ⟨hfirst, -, hmore⟩ := rescans_append.1 hrescans
      refine rescans_append.2 ⟨hrow ?_ (fun _ => ?_) hfirst, ?_, ih hmore⟩
      · refine .of_inert (fun c hc => ?_) _
        rw [render_cons, row'.text_feed] at hc
        obtain rfl := Option.some.inj hc
        decide
      · rw [render_cons, row'.text_feed]
        exact .inr ⟨_, rfl⟩
      · rw [Span.Reads, if_pos row'.isCode_feed, row'.text_feed]
        exact staysCode_of_isInert (List.forall_mem_singleton.2 (by decide)) _

/-- Spans are found without those that are empty. -/
theorem Rescans.filter {spans : List Span} (h : Rescans spans) :
    Rescans (spans.filter fun s => !s.text.isEmpty) ∧
      render (spans.filter fun s => !s.text.isEmpty) = render spans := by
  induction spans with
  | nil => exact ⟨trivial, rfl⟩
  | cons s spans ih =>
    obtain ⟨hmore, hrender⟩ := ih h.2
    by_cases hempty : s.text = []
    · rw [List.filter_cons_of_neg (by simp [hempty]), render_cons, hempty]
      exact ⟨hmore, hrender⟩
    · rw [List.filter_cons_of_pos (by simp [hempty]), render_cons, render_cons, hrender]
      exact ⟨⟨hrender ▸ h.1, hmore⟩, rfl⟩

theorem stringSpans_of_shape {xs ys : List Span} (h : xs.map Span.shape = ys.map Span.shape) :
    (stringSpans xs).map Span.shape = (stringSpans ys).map Span.shape := by
  have hshape : ∀ spans : List Span, (stringSpans spans).map Span.shape =
      (spans.map Span.shape).filter fun shape => !(shape.1 == .code) := by
    intro spans
    rw [List.filter_map]
    rfl
  rw [hshape, hshape, h]

/-- A scan finds the strings and comments of spans that are found. -/
theorem scan_stringSpans {spans : List Span} (h : Rescans spans) :
    ∃ found, scan (render spans) = .ok found ∧
      (stringSpans found).map Span.shape = (stringSpans spans).map Span.shape := by
  obtain ⟨hrescans, hrender⟩ := h.filter
  obtain ⟨found, hfound, hshape⟩ := scan_of_rescans hrescans fun s hs => by
    simpa using List.of_mem_filter hs
  rw [hrender] at hfound
  have hcode : ∀ s : Span, s.isCode = true → (!s.isCode) = false := fun s hs => by rw [hs]; rfl
  have hsolid : stringSpans (spans.filter fun s => !s.text.isEmpty) = stringSpans spans := by
    rw [stringSpans, List.filter_filter]
    refine List.filter_congr fun s hs => ?_
    obtain ⟨rest, hreads⟩ := h.exists_reads s hs
    cases hkind : s.isCode with
    | true => rfl
    | false =>
      rw [Span.Reads, if_neg (by simp [hkind])] at hreads
      obtain ⟨c, t, htext, -⟩ := exists_of_closed hreads.1
      simp [htext]
  refine ⟨found, hfound, ?_⟩
  rw [stringSpans_of_shape hshape, stringSpans, filter_joinCode hcode, ← stringSpans, hsolid]

/-! ## Scripts -/

/-- What guards around some lines make of a script. -/
structure Guarded (p : Probability) (name : Name) (spans out : List Span) (chosen : List Nat) :
    Prop where
  /-- Only lines that can be wrapped are chosen, each once. -/
  eligible : chosen.Sublist (wrappableLines spans)
  none_iff : chosen = [] ↔ wrappableLines spans = [] ∨ p.value = 0
  all_of_one : p.value = 1 → chosen = wrappableLines spans
  /-- The lines stay in place: the chosen ones in guards, the others as they were. -/
  length_eq : (splitLines out).length = (splitLines spans).length
  wrapped : ∀ (i : Nat) (l l' : Line), (splitLines spans)[i]? = some l →
    (splitLines out)[i]? = some l' → i ∈ chosen → l.IsGuardedAs name l'
  kept : ∀ (i : Nat) (l l' : Line), (splitLines spans)[i]? = some l →
    (splitLines out)[i]? = some l' → i ∉ chosen → l'.toRow = l.toRow
  /-- Both scripts are their lines, with line feeds between them. -/
  text_eq : render spans =
    Text.joinWith ['\n'] ((splitLines spans).map fun l => render l.spans)
  text_out_eq : render out =
    Text.joinWith ['\n'] ((splitLines out).map fun l => render l.spans)
  /-- A scan finds the same strings and comments. -/
  rescanned : ∃ found found', scan (render spans) = .ok found ∧ scan (render out) = .ok found' ∧
    (stringSpans found').map Span.shape = (stringSpans found).map Span.shape
  /-- The lines that were not chosen can be wrapped as before. -/
  remaining : ∀ i, isWrappable (splitLines out) i =
    (isWrappable (splitLines spans) i && !chosen.contains i)
  /-- When all lines were chosen, guards change nothing any more. -/
  settled : p.value = 1 → ∀ (p' : Probability) (predicate' : OpaquePredicate) (source : Source),
    (guardLines p' predicate' out source).1 = (out, 0)

theorem render_splitLines (spans : List Span) : render spans =
    Text.joinWith ['\n'] ((splitLines spans).map fun l => render l.spans) := by
  rw [← render_joinRows_splitRows, render_joinRows, ← toRow_splitLines, List.map_map]
  rfl

/-- A script of which no line can be wrapped is cut into lines and joined again. -/
theorem guardLines_of_none {spans : List Span} (h : wrappableLines spans = [])
    (p : Probability) (predicate : OpaquePredicate) (source : Source) :
    (guardLines p predicate spans source).1 = (joinRows (splitRows spans), 0) := by
  have hchosen : (Guard.chosen p spans source).1 = [] :=
    (Guard.choose_eq_nil_iff p _ source).2 (.inl h)
  have hcount : (guardLines p predicate spans source).1.2 =
      (Guard.chosen p spans source).1.length := rfl
  refine Prod.ext ?_ (by rw [hcount, hchosen]; rfl)
  have hsame : (splitLines spans).mapIdx (Guard.put (Guard.drawn p predicate spans source).1) =
      splitLines spans := by
    refine List.mapIdx_eq_iff.2 fun i => ?_
    cases (splitLines spans)[i]? with
    | none => rfl
    | some l => rw [Option.map_some, Guard.put_of_not_mem (by rw [hchosen]; exact List.not_mem_nil)]
  rw [guardLines_spans, hsame, joinLines_eq, toRow_splitLines]

section

variable (p : Probability) {predicate : OpaquePredicate} (spans : List Span) (source : Source)

/-- The lines of a script with guards are found again. -/
theorem splitRows_guardLines (hname : isWord predicate.name = true) :
    splitRows (guardLines p predicate spans source).1.1 =
      ((splitLines spans).mapIdx (Guard.put (Guard.drawn p predicate spans source).1)).map
        Line.toRow := by
  have hput := Guard.put_cases p predicate spans source
  rw [guardLines_spans, joinLines_eq]
  refine splitRows_joinRows ?_ fun row hrow => ?_
  · refine (areCut_congr ?_).2 (areCut_splitRows spans)
    rw [← toRow_splitLines, List.map_map, List.map_map]
    refine List.ext_getElem? fun i => ?_
    rw [List.getElem?_map, List.getElem?_map, List.getElem?_mapIdx]
    cases (splitLines spans)[i]? with
    | none => rfl
    | some l =>
      rcases hput i l with hsame | ⟨source', hwrap⟩
      · rw [Option.map_some, hsame]
      · rw [Option.map_some, hwrap]
        rfl
  · obtain ⟨l', hl', rfl⟩ := List.mem_map.1 hrow
    obtain ⟨i, hi, rfl⟩ := List.mem_mapIdx.1 hl'
    have hline : ∀ s ∈ (splitLines spans)[i].spans, s.OnOneLine := by
      refine Strip.onOneLine_splitRows spans (splitLines spans)[i].toRow ?_
      rw [← toRow_splitLines]
      exact List.mem_map_of_mem (List.getElem_mem hi)
    rcases hput i (splitLines spans)[i] with hsame | ⟨source', hwrap⟩
    · rwa [hsame]
    · rw [hwrap]
      exact onOneLine_wrap hname source' hline

/-- A scan finds the spans of a script with guards. -/
theorem rescans_guardLines (h : Legible spans) (hname : isWord predicate.name = true) :
    Rescans (guardLines p predicate spans source).1.1 := by
  have hrescans := rescans_joinRows h.rescans
  rw [← toRow_splitLines] at hrescans
  rw [guardLines_spans, joinLines_eq]
  refine rescans_joinRows_of_rows ?_ hrescans
  rw [List.forall₂_map_left_iff, List.forall₂_map_right_iff]
  refine forall₂_mapIdx fun i l hl rest calm hcalm hline hreads => ?_
  have hsolid : ∀ s ∈ l.spans, s.text ≠ [] := by
    refine Strip.forall_splitRows (fun _ _ _ piece _ start s hs => ?_) (fun s hs _ => h.ne_nil s hs)
      l.toRow ?_
    · unfold codeSpans at hs
      split at hs
      · cases hs
      · next hne =>
        obtain rfl := List.mem_singleton.1 hs
        simpa using hne
    · rw [← toRow_splitLines]
      exact List.mem_map_of_mem (List.mem_of_getElem? hl)
  rcases Guard.put_cases p predicate spans source i l with hsame | ⟨source', hwrap⟩
  · rw [hsame]
    exact hreads.follow (fun s hs => hsolid s (List.mem_of_mem_tail hs)) hcalm fun _ _ _ => hline
  · rw [hwrap]
    exact rescans_wrap hname source' hsolid hcalm hline hreads

theorem length_splitLines_guardLines (hname : isWord predicate.name = true) :
    (splitLines (guardLines p predicate spans source).1.1).length = (splitLines spans).length := by
  have hrows := congrArg List.length (splitRows_guardLines p spans source hname)
  rwa [← toRow_splitLines, List.length_map, List.length_map, List.length_mapIdx] at hrows

/-- Each line of a script with guards is the line in its place, or that line in a guard. -/
theorem toRow_guardLines (hname : isWord predicate.name = true) {i : Nat} {l l' : Line}
    (hl : (splitLines spans)[i]? = some l)
    (hl' : (splitLines (guardLines p predicate spans source).1.1)[i]? = some l') :
    (i ∈ (Guard.chosen p spans source).1 →
      ∃ source', l'.toRow = (Guard.wrap (predicate.guard source').1 l).toRow) ∧
    (i ∉ (Guard.chosen p spans source).1 → l'.toRow = l.toRow) := by
  have hrow := congrArg (·[i]?) (splitRows_guardLines p spans source hname)
  simp only [← toRow_splitLines, List.getElem?_map, List.getElem?_mapIdx, hl, hl',
    Option.map_some, Option.some.injEq] at hrow
  rw [hrow]
  refine ⟨fun hi => ?_, fun hi => by rw [Guard.put_of_not_mem hi]⟩
  obtain ⟨source', hput⟩ := Guard.put_of_mem predicate hi l
  exact ⟨source', by rw [hput]⟩

theorem linesGuarded_guardLines (hname : isWord predicate.name = true) :
    LinesGuarded predicate.name (Guard.chosen p spans source).1 (splitLines spans)
      (splitLines (guardLines p predicate spans source).1.1) := by
  refine ⟨length_splitLines_guardLines p spans source hname, fun i l l' hl hl' hi => ?_,
    fun i l l' hl hl' hi => ?_⟩
  · rw [(toRow_guardLines p spans source hname hl hl').2 hi]
  · obtain ⟨source', hrow⟩ := (toRow_guardLines p spans source hname hl hl').1 hi
    rw [hrow, marks_wrap hname]

/-- A script with guards is its lines joined. -/
theorem joinRows_guardLines (hname : isWord predicate.name = true) :
    joinRows (splitRows (guardLines p predicate spans source).1.1) =
      (guardLines p predicate spans source).1.1 := by
  rw [splitRows_guardLines p spans source hname, ← joinLines_eq, guardLines_spans]

end

/-- Guards are put around some lines of a script, and nothing else changes. -/
theorem guardLines_guarded {spans : List Span} (h : IsScript spans) {predicate : OpaquePredicate}
    (hname : isWord predicate.name = true) (p : Probability) (source : Source) :
    ∃ chosen : List Nat, (guardLines p predicate spans source).1.2 = chosen.length ∧
      Guarded p predicate.name spans (guardLines p predicate spans source).1.1 chosen := by
  have hlegible := h.legible
  have hsublist := Guard.choose_sublist p (wrappableLines spans) source
  have hremaining := (linesGuarded_guardLines p spans source hname).isWrappable_eq
    fun i hi => mem_wrappableLines.1 (hsublist.subset hi)
  refine ⟨(Guard.chosen p spans source).1, rfl, hsublist, Guard.choose_eq_nil_iff p _ source,
    fun hone => Guard.choose_of_one hone _ source, length_splitLines_guardLines p spans source hname,
    fun i l l' hl hl' hi => ?_, fun i l l' hl hl' => (toRow_guardLines p spans source hname hl hl').2,
    render_splitLines spans, render_splitLines _, ?_, hremaining,
    fun hone p' predicate' source' => ?_⟩
  · obtain ⟨source', hrow⟩ := (toRow_guardLines p spans source hname hl hl').1 hi
    have hguard := isGuardedAs_wrap predicate source' l
    rw [Line.IsGuardedAs] at hguard ⊢
    rwa [hrow]
  · obtain ⟨found, hfound, hshape⟩ := scan_stringSpans hlegible.rescans
    obtain ⟨found', hfound', hshape'⟩ := scan_stringSpans
      (rescans_guardLines p spans source hlegible hname)
    exact ⟨found, found', hfound, hfound', by rw [hshape', hshape, stringSpans_guardLines]⟩
  · have hnone : wrappableLines (guardLines p predicate spans source).1.1 = [] := by
      refine List.eq_nil_iff_forall_not_mem.2 fun i hi => ?_
      have hwrap := mem_wrappableLines.1 hi
      rw [hremaining i, Bool.and_eq_true_iff] at hwrap
      have hmem : i ∈ (Guard.chosen p spans source).1 := by
        rw [Guard.chosen, Guard.choose_of_one hone]
        exact mem_wrappableLines.2 hwrap.1
      simp [hmem] at hwrap
    rw [guardLines_of_none hnone, joinRows_guardLines p spans source hname]

/-- Two lines in guards, the first with an indentation and a comment. -/
theorem assignment_guarded : IsScript [⟨.code, "  x = 1 ".toList, 0, 8⟩,
      ⟨.comment, "--c".toList, 8, 11⟩, ⟨.code, "\nf()".toList, 11, 15⟩] ∧
    isWord "_p".toList = true ∧ ∀ source,
      Guarded ⟨1, by decide, by decide⟩ "_p".toList
        [⟨.code, "  x = 1 ".toList, 0, 8⟩, ⟨.comment, "--c".toList, 8, 11⟩,
          ⟨.code, "\nf()".toList, 11, 15⟩]
        (guardLines ⟨1, by decide, by decide⟩ ⟨"_p".toList, .evenProduct⟩
          [⟨.code, "  x = 1 ".toList, 0, 8⟩, ⟨.comment, "--c".toList, 8, 11⟩,
            ⟨.code, "\nf()".toList, 11, 15⟩] source).1.1 [0, 1] := by
  have hprepared : IsPrepared "  x = 1 --c\nf()".toList [⟨.code, "  x = 1 ".toList, 0, 8⟩,
      ⟨.comment, "--c".toList, 8, 11⟩, ⟨.code, "\nf()".toList, 11, 15⟩] :=
    ⟨_, by decide +kernel, .inl rfl⟩
  have hword : isWord (OpaquePredicate.mk "_p".toList .evenProduct).name = true := by decide
  refine ⟨.prepared hprepared, hword, fun source => ?_⟩
  obtain ⟨chosen, -, hguarded⟩ := guardLines_guarded (.prepared hprepared) hword
    ⟨1, by decide, by decide⟩ source
  have hall : chosen = [0, 1] := (hguarded.all_of_one rfl).trans (by decide +kernel)
  rwa [← hall]

end LuaVeil
