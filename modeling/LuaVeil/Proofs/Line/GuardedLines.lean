/-
# Lines next to guards

A line in a guard begins with `if` and ends in `end`, and leaves the same brackets open. So
it holds a frame of a block, and its neighbours see it as they saw the line: it ends no
statement that goes on, and it goes on with none.

Main statements:

* `marks_wrap`, the marks of a line in a guard;
* `isWrappable_of_guarded`, which lines can still be wrapped when some are in guards.
-/
import LuaVeil.Proofs.Grammar.Layout
import LuaVeil.Proofs.Line.Rejoined
import LuaVeil.Proofs.Veil.Snippets
import Mathlib.Data.List.DropRight

namespace LuaVeil

/-! ## Marks of code -/

@[simp] theorem codeMarks_nil : codeMarks [] = [] := by
  rw [codeMarks, tokenize, tokenizeFrom]
  rfl

theorem codeMarks_append {a b : Text} (h : Parted a b) :
    codeMarks (a ++ b) = codeMarks a ++ codeMarks b := by
  rw [codeMarks_eq, codeMarks_eq, codeMarks_eq, solidLabels_append_of_parted h,
    List.filterMap_append]

/-- Blanks in front of code have no marks. -/
theorem codeMarks_blank_append {a : Text} (h : ∀ c ∈ a, Text.isAsciiBlank c = true) (b : Text) :
    codeMarks (a ++ b) = codeMarks b := by
  induction a with
  | nil => rfl
  | cons c a ih =>
    obtain ⟨hc, ha⟩ := List.forall_mem_cons.1 h
    rw [List.cons_append, codeMarks_blank hc, ih ha]

theorem codeMarks_of_isWord {w : Text} (h : isWord w = true) : codeMarks w = [.word w] := by
  cases w with
  | nil => cases h
  | cons c t =>
    have hlex := @lexeme_of_isWord c t [] h fun d hd => by cases hd
    have hmarks := codeMarks_token hlex
    rw [List.append_nil, codeMarks_nil] at hmarks
    rw [hmarks]
    rfl

/-- A decimal numeral is one mark in front of what is no part of it. -/
theorem codeMarks_decimal_append (n : Nat) {t : Text}
    (ht : ∀ c, t.head? = some c → isNumeralChar c = false) :
    codeMarks (Number.decimal n ++ t) = .number :: codeMarks t := by
  have hdigits := all_isDigit_decimal n
  cases hn : Number.decimal n with
  | nil => exact absurd hn (decimal_ne_nil n)
  | cons d ds =>
    rw [hn] at hdigits
    obtain ⟨hd, hds⟩ := List.forall_mem_cons.1 hdigits
    have hplain : d ≠ '\n' ∧ Text.isSeparator d = false := by
      have hblank := not_isAsciiBlank_of_isNumeralChar (isNumeralChar_of_isDigit hd)
      rw [Text.isAsciiBlank, Bool.or_eq_false_iff, beq_eq_false_iff_ne] at hblank
      exact ⟨hblank.2, hblank.1⟩
    have hlex : lexeme d (ds ++ t) = ⟨.number, ds, t⟩ := by
      refine lexeme_eq_iff.2 ⟨hplain.1, hplain.2, isWordStart_of_isDigit hd, ?_, ?_⟩
      · rw [isNumeralStart, hd, Bool.true_or]
      · rw [numeralTail_append_digits t hds, numeralTail_of_stop ht, List.append_nil]
    rw [codeMarks_token hlex]
    rfl

/-! ## Marks of guards -/

section

variable {p : OpaquePredicate} {l : Line}

theorem isAsciiBlank_of_mem_indent : ∀ c ∈ l.indent, Text.isAsciiBlank c = true := by
  intro c hc
  rcases blank_of_mem_indent c hc with rfl | rfl <;> decide

theorem codeMarks_guard (hname : isWord p.name = true) (source : Source) :
    codeMarks (p.guard source).1 =
      [.word p.name, .symbol ['('], .number, .symbol [')']] := by
  obtain ⟨n, hlow, -, hguard⟩ := exists_guard_eq p source
  have hparted : Parted p.name ('(' :: (Number.decimalInt n ++ [')'])) :=
    .inr ⟨'(', rfl, .inr (.inl rfl)⟩
  have hnumber : Number.decimalInt n = Number.decimal n.natAbs := if_neg (by omega)
  have hopen : ∀ t, codeMarks ('(' :: t) = .symbol ['('] :: codeMarks t :=
    fun t => codeMarks_token (rfl : lexeme '(' ([] ++ t) = ⟨.symbol, [], t⟩)
  have hclose : codeMarks [')'] = [.symbol [')']] := by decide +kernel
  rw [hguard, List.append_assoc, List.cons_append, codeMarks_append hparted,
    codeMarks_of_isWord hname, hopen, hnumber, codeMarks_decimal_append _ fun c hc => ?_, hclose]
  · rfl
  · have hc : ')' = c := Option.some.inj hc
    rw [← hc]
    decide

/-- The marks of what is put before a line. -/
theorem codeMarks_front (hname : isWord p.name = true) (source : Source) (l : Line) :
    codeMarks (l.indent ++ "if ".toList ++ (p.guard source).1 ++ " then ".toList) =
      [.word "if".toList, .word p.name, .symbol ['('], .number, .symbol [')'],
        .word "then".toList] := by
  have hif : Parted "if ".toList ((p.guard source).1 ++ " then ".toList) :=
    .inl ⟨' ', rfl, .inl (by decide)⟩
  have hthen : Parted (p.guard source).1 " then ".toList := .inr ⟨' ', rfl, .inl (by decide)⟩
  have hwords : codeMarks "if ".toList = [.word "if".toList] ∧
      codeMarks " then ".toList = [.word "then".toList] := by decide +kernel
  rw [List.append_assoc, List.append_assoc, codeMarks_blank_append isAsciiBlank_of_mem_indent,
    codeMarks_append hif, codeMarks_append hthen, codeMarks_guard hname, hwords.1, hwords.2]
  rfl

theorem marks_dropIndent (l : Line) : (Guard.dropIndent l).flatMap Span.marks = l.marks := by
  obtain ⟨⟨spans, newlineAt⟩, facts⟩ := l
  cases spans with
  | nil => rfl
  | cons s spans =>
    show List.flatMap Span.marks ((if s.isCode = true then _ else s) :: spans) = _
    split
    · next hs =>
      have hkind := Strip.kind_of_isCode hs
      let indent := Line.indent ⟨⟨s :: spans, newlineAt⟩, facts⟩
      have hindent : indent = s.text.takeWhile fun c => c == ' ' || c == '\t' := if_pos hs
      have hsplit : indent ++ s.text.drop indent.length = s.text := by
        rw [hindent]
        exact List.prefix_iff_eq_append.1 (List.takeWhile_prefix _)
      have hmarks : codeMarks (s.text.drop indent.length) = codeMarks s.text := by
        conv_rhs => rw [← hsplit]
        exact (codeMarks_blank_append isAsciiBlank_of_mem_indent _).symm
      rw [List.flatMap_cons, Row.marks, List.flatMap_cons, Span.marks, Span.marks, hkind]
      exact congrArg (· ++ _) hmarks
    · rfl

/-- Comments have no marks. -/
theorem marks_of_isComment {spans : List Span} (h : ∀ s ∈ spans, s.isComment = true) :
    spans.flatMap Span.marks = [] := by
  refine List.flatMap_eq_nil_iff.2 fun s hs => ?_
  have hkind : s.kind = .comment := by simpa [Span.isComment] using h s hs
  rw [Span.marks, hkind]

theorem take_drop_rdropWhile {α : Type} (p : α → Bool) (xs : List α) :
    xs.take (xs.reverse.dropWhile p).length = xs.rdropWhile p ∧
      xs.drop (xs.reverse.dropWhile p).length = xs.rtakeWhile p := by
  have hsplit : xs.rdropWhile p ++ xs.rtakeWhile p = xs := List.rdropWhile_append_rtakeWhile
  have hlength : (xs.reverse.dropWhile p).length = (xs.rdropWhile p).length := by
    rw [List.rdropWhile, List.length_reverse]
  rw [hlength]
  generalize xs.rdropWhile p = front, xs.rtakeWhile p = back at hsplit ⊢
  subst hsplit
  exact ⟨List.take_left, List.drop_left⟩

/-- A line in a guard: the spans without indentation, with the `end` before comments at the end. -/
theorem exists_wrap_eq (guard : Text) (l : Line) : ∃ start place, (Guard.wrap guard l).spans =
    Span.codeAt (l.indent ++ "if ".toList ++ guard ++ " then ".toList) start ::
      ((Guard.dropIndent l).rdropWhile Span.isComment ++
        Span.codeAt " end".toList place :: (Guard.dropIndent l).rtakeWhile Span.isComment) := by
  obtain ⟨htake, hdrop⟩ := take_drop_rdropWhile Span.isComment (Guard.dropIndent l)
  rw [← htake, ← hdrop]
  exact ⟨_, _, rfl⟩

/-- The marks of a line in a guard by a predicate. -/
def guardMarks (name : Name) (marks : List Mark) : List Mark :=
  [.word "if".toList, .word name, .symbol ['('], .number, .symbol [')'], .word "then".toList] ++
    marks ++ [.word "end".toList]

/-- A line in a guard has its marks between those of the guard. -/
theorem marks_wrap (hname : isWord p.name = true) (source : Source) (l : Line) :
    (Guard.wrap (p.guard source).1 l).marks = guardMarks p.name l.marks := by
  obtain ⟨start, place, hspans⟩ := exists_wrap_eq (p.guard source).1 l
  have hcomments : ((Guard.dropIndent l).rtakeWhile Span.isComment).flatMap Span.marks = [] :=
    marks_of_isComment fun s hs => List.mem_rtakeWhile_imp hs
  have hmarks := marks_dropIndent l
  rw [← List.rdropWhile_append_rtakeWhile (p := Span.isComment) (l := Guard.dropIndent l),
    List.flatMap_append, hcomments, List.append_nil] at hmarks
  have hend : (Span.codeAt " end".toList place).marks = [.word "end".toList] := by
    show codeMarks " end".toList = _
    decide +kernel
  have hfront : (Span.codeAt (l.indent ++ "if ".toList ++ (p.guard source).1 ++
      " then ".toList) start).marks = _ := codeMarks_front hname source l
  rw [Row.marks, hspans, List.flatMap_cons, List.flatMap_append, List.flatMap_cons, hmarks, hend,
    hcomments, hfront, List.append_nil, guardMarks, List.append_assoc]

/-! ## Texts of guards -/

/-- Comments at the end of a line stay when its indentation is dropped. -/
theorem rtakeWhile_dropIndent (l : Line) :
    (Guard.dropIndent l).rtakeWhile Span.isComment = l.spans.rtakeWhile Span.isComment := by
  have hcons : ∀ {s : Span} (spans : List Span), s.isComment = false →
      (s :: spans).rtakeWhile Span.isComment = spans.rtakeWhile Span.isComment := by
    intro s spans hs
    rw [List.rtakeWhile, List.rtakeWhile, List.reverse_cons, List.takeWhile_append,
      List.takeWhile_cons_of_neg (by simp [hs]), List.append_nil]
    split
    · next hall =>
      exact congrArg List.reverse (List.takeWhile_sublist _ |>.eq_of_length hall).symm
    · rfl
  obtain ⟨⟨spans, newlineAt⟩, facts⟩ := l
  cases spans with
  | nil => rfl
  | cons s spans =>
    show List.rtakeWhile Span.isComment ((if s.isCode = true then _ else s) :: spans) = _
    split
    · next hs =>
      have hkind := Strip.kind_of_isCode hs
      rw [hcons _ (by rw [Span.isComment, hkind]; rfl), hcons _ (by rw [Span.isComment, hkind]; rfl)]
    · rfl

theorem render_dropIndent (l : Line) : l.indent ++ render (Guard.dropIndent l) = render l.spans := by
  obtain ⟨⟨spans, newlineAt⟩, facts⟩ := l
  cases spans with
  | nil => rfl
  | cons s spans =>
    let indent := Line.indent ⟨⟨s :: spans, newlineAt⟩, facts⟩
    show indent ++ render ((if s.isCode = true then { s with text := s.text.drop indent.length }
      else s) :: spans) = _
    split
    · next hs =>
      have hindent : indent = s.text.takeWhile fun c => c == ' ' || c == '\t' := if_pos hs
      have hsplit : indent ++ s.text.drop indent.length = s.text := by
        rw [hindent]
        exact List.prefix_iff_eq_append.1 (List.takeWhile_prefix _)
      rw [render_cons, render_cons, ← List.append_assoc, hsplit]
    · next hs =>
      have hnone : indent = [] := if_neg hs
      rw [hnone, List.nil_append]

/--
Whether a line is another in a guard by a predicate: the condition, a call with a small number,
comes after the indentation, and the `end` before the comments at the end.
-/
def Line.IsGuardedAs (name : Name) (l l' : Line) : Prop :=
  ∃ (k : Int) (body : Text), 1 ≤ k ∧ k ≤ OpaquePredicate.maxArgument ∧
    render l.spans = l.indent ++ body ++ render (l.spans.rtakeWhile Span.isComment) ∧
    render l'.spans = l.indent ++ "if ".toList ++ name ++ '(' :: Number.decimalInt k ++
      ") then ".toList ++ body ++ " end".toList ++ render (l.spans.rtakeWhile Span.isComment)

theorem isGuardedAs_wrap (p : OpaquePredicate) (source : Source) (l : Line) :
    l.IsGuardedAs p.name (Guard.wrap (p.guard source).1 l) := by
  obtain ⟨k, hlow, hhigh, hguard⟩ := exists_guard_eq p source
  obtain ⟨start, place, hspans⟩ := exists_wrap_eq (p.guard source).1 l
  refine ⟨k, render ((Guard.dropIndent l).rdropWhile Span.isComment), hlow, hhigh, ?_, ?_⟩
  · rw [← rtakeWhile_dropIndent, List.append_assoc, ← render_append,
      List.rdropWhile_append_rtakeWhile, render_dropIndent]
  · rw [hspans, rtakeWhile_dropIndent, render_cons, render_append, render_cons, hguard]
    simp [Span.codeAt]

end

/-! ## Neighbours -/

/-- A line that can be wrapped is self-contained. -/
theorem isSelfContained_of_isWrappable {lines : List Line} {i : Nat} {l : Line}
    (hl : lines[i]? = some l) (h : isWrappable lines i = true) : l.isSelfContained = true := by
  rw [isWrappable, hl, Option.any_some, Bool.and_assoc] at h
  exact (Bool.and_eq_true_iff.1 h).1

/-- Whether the neighbours of a line see it as another line. -/
structure Line.SeenAs (l l' : Line) : Prop where
  hasCode_eq : l'.hasCode = l.hasCode
  startsContinuation_eq : l'.startsContinuation = l.startsContinuation
  waits_eq : (l'.endsOpen || l'.facts.depthAfter != 0) = (l.endsOpen || l.facts.depthAfter != 0)

/-- A line of which the same is known, but for exits that wait, is seen as before. -/
theorem Line.SeenAs.of_facts {l l' : Line} {exitPending : Bool}
    (h : l'.facts = { l.facts with exitPending }) : l.SeenAs l' := by
  constructor <;> simp only [hasCode, startsContinuation, endsOpen, h]

theorem Line.isSelfContained_of_facts {l l' : Line} {exitPending : Bool}
    (h : l'.facts = { l.facts with exitPending }) : l'.isSelfContained = l.isSelfContained := by
  simp only [isSelfContained, hasCode, isTypeDeclaration, startsContinuation, endsOpen, h]

theorem any_find?_of_forall₂ {α : Type} {R : α → α → Prop} {p q : α → Bool} {xs ys : List α}
    (h : List.Forall₂ R xs ys) (hp : ∀ a b, R a b → p b = p a) (hq : ∀ a b, R a b → q b = q a) :
    (ys.find? p).any q = (xs.find? p).any q := by
  induction h with
  | nil => rfl
  | @cons a b xs ys hab _ ih =>
    rw [List.find?_cons, List.find?_cons, hp a b hab]
    split
    · exact hq a b hab
    · exact ih

/-- Between lines that are seen as before, a line is judged by itself. -/
theorem isWrappable_of_seenAs {lines lines' : List Line} (h : List.Forall₂ Line.SeenAs lines lines')
    {i : Nat} (hself : lines'[i]?.any Line.isSelfContained = lines[i]?.any Line.isSelfContained) :
    isWrappable lines' i = isWrappable lines i := by
  have hbefore : (codeBefore lines' i).any (fun l => l.endsOpen || l.facts.depthAfter != 0) =
      (codeBefore lines i).any fun l => l.endsOpen || l.facts.depthAfter != 0 :=
    any_find?_of_forall₂ (List.rel_reverse (List.forall₂_take i h))
      (fun _ _ hl => hl.hasCode_eq) fun _ _ hl => hl.waits_eq
  have hafter : (codeAfter lines' i).any Line.startsContinuation =
      (codeAfter lines i).any Line.startsContinuation :=
    any_find?_of_forall₂ (List.forall₂_drop (i + 1) h)
      (fun _ _ hl => hl.hasCode_eq) fun _ _ hl => hl.startsContinuation_eq
  rw [isWrappable, isWrappable, hself, hbefore, hafter]

/-! ## Some lines in guards -/

theorem bracketDepth_guardMarks (name : Name) (marks : List Mark) :
    bracketDepth (guardMarks name marks) = bracketDepth marks := by
  have hword : ∀ w, (Mark.word w).bracketChange = 0 := fun _ => rfl
  have hopen : (Mark.symbol ['(']).bracketChange = 1 := by decide
  have hclose : (Mark.symbol [')']).bracketChange = -1 := by decide
  have hnumber : Mark.number.bracketChange = 0 := rfl
  simp only [guardMarks, List.cons_append, List.nil_append, bracketDepth_cons, bracketDepth_append,
    bracketDepth_nil, hword, hopen, hclose, hnumber]
  omega

/-- What is known about a line with the same marks and brackets, but for exits that wait. -/
theorem ofMarks_congr {n n' : Nesting} (h : n'.brackets = n.brackets) (marks : List Mark) :
    LineFacts.ofMarks n' marks =
      { LineFacts.ofMarks n marks with exitPending := (n'.run marks).exitAt.isSome } := by
  simp [LineFacts.ofMarks, Nesting.brackets_run, h]

/-- Whether the marks of some lines are those of others, the chosen ones in guards. -/
structure LinesGuarded (name : Name) (chosen : List Nat) (lines lines' : List Line) : Prop where
  length_eq : lines'.length = lines.length
  kept : ∀ (i : Nat) (l l' : Line), lines[i]? = some l → lines'[i]? = some l' → i ∉ chosen →
    l'.marks = l.marks
  wrapped : ∀ (i : Nat) (l l' : Line), lines[i]? = some l → lines'[i]? = some l' → i ∈ chosen →
    l'.marks = guardMarks name l.marks

namespace LinesGuarded

variable {name : Name} {chosen : List Nat} {lines lines' : List Line} {spans out : List Span}

theorem depth_eq (h : LinesGuarded name chosen lines lines') {i : Nat} {l l' : Line}
    (hl : lines[i]? = some l) (hl' : lines'[i]? = some l') :
    bracketDepth l'.marks = bracketDepth l.marks := by
  by_cases hi : i ∈ chosen
  · rw [h.wrapped i l l' hl hl' hi, bracketDepth_guardMarks]
  · rw [h.kept i l l' hl hl' hi]

/-- The same brackets are open before a line. -/
theorem depth_marksBefore (h : LinesGuarded name chosen lines lines') (i : Nat) :
    bracketDepth (marksBefore lines' i) = bracketDepth (marksBefore lines i) := by
  have hall : List.Forall₂ (fun l l' : Line => bracketDepth l'.marks = bracketDepth l.marks)
      lines lines' :=
    List.forall₂_iff_get.2 ⟨h.length_eq.symm, fun j hj hj' =>
      h.depth_eq (List.getElem?_eq_getElem hj) (List.getElem?_eq_getElem hj')⟩
  have htake := List.forall₂_take i hall
  rw [marksBefore, marksBefore]
  generalize lines.take i = before, lines'.take i = before' at htake ⊢
  induction htake with
  | nil => rfl
  | cons hl _ ih =>
    rw [List.flatMap_cons, List.flatMap_cons, bracketDepth_append, bracketDepth_append, hl, ih]

theorem facts_eq (h : LinesGuarded name chosen (splitLines spans) (splitLines out)) {i : Nat}
    {l l' : Line} (hl : (splitLines spans)[i]? = some l) (hl' : (splitLines out)[i]? = some l') :
    ∃ n n' : Nesting, n'.brackets = n.brackets ∧ l.facts = .ofMarks n l.marks ∧
      l'.facts = .ofMarks n' l'.marks := by
  refine ⟨_, _, ?_, facts_of_splitLines hl, facts_of_splitLines hl'⟩
  rw [Nesting.brackets_run, Nesting.brackets_run, h.depth_marksBefore]

/-- A line that is kept is known as before. -/
theorem facts_of_not_mem (h : LinesGuarded name chosen (splitLines spans) (splitLines out))
    {i : Nat} {l l' : Line} (hl : (splitLines spans)[i]? = some l)
    (hl' : (splitLines out)[i]? = some l') (hi : i ∉ chosen) :
    ∃ exitPending, l'.facts = { l.facts with exitPending } := by
  obtain ⟨n, n', hbrackets, hfacts, hfacts'⟩ := h.facts_eq hl hl'
  rw [h.kept i l l' hl hl' hi] at hfacts'
  exact ⟨_, by rw [hfacts', hfacts, ofMarks_congr hbrackets]⟩

/-- What is known about a line in a guard. -/
theorem facts_of_mem (h : LinesGuarded name chosen (splitLines spans) (splitLines out)) {i : Nat}
    {l l' : Line} (hl : (splitLines spans)[i]? = some l) (hl' : (splitLines out)[i]? = some l')
    (hi : i ∈ chosen) :
    l'.facts.first = some (.word "if".toList) ∧ l'.facts.last = some (.word "end".toList) ∧
      l'.facts.depthAfter = l.facts.depthAfter ∧ l'.facts.hasBlockWord = true := by
  obtain ⟨n, n', hbrackets, hfacts, hfacts'⟩ := h.facts_eq hl hl'
  rw [h.wrapped i l l' hl hl' hi] at hfacts'
  rw [hfacts', hfacts]
  refine ⟨rfl, ?_, ?_, rfl⟩
  · show (guardMarks name l.marks).getLast? = _
    rw [guardMarks, List.getLast?_concat]
  · simp only [LineFacts.ofMarks, Nesting.brackets_run, bracketDepth_guardMarks, hbrackets]

/-- A line in a guard is seen as the line, if this is self-contained. -/
theorem seenAs_of_mem (h : LinesGuarded name chosen (splitLines spans) (splitLines out)) {i : Nat}
    {l l' : Line} (hl : (splitLines spans)[i]? = some l) (hl' : (splitLines out)[i]? = some l')
    (hi : i ∈ chosen) (hself : l.isSelfContained = true) : l.SeenAs l' := by
  obtain ⟨hfirst, hlast, hdepth, -⟩ := h.facts_of_mem hl hl' hi
  simp only [Line.isSelfContained, Bool.and_eq_true, beq_iff_eq, Bool.not_eq_true'] at hself
  obtain ⟨⟨⟨⟨⟨⟨⟨⟨hcode, -⟩, hafter⟩, -⟩, -⟩, -⟩, -⟩, hstart⟩, hopen⟩ := hself
  constructor
  · rw [hcode, Line.hasCode, hfirst]
    rfl
  · rw [hstart, Line.startsContinuation, hfirst]
    decide
  · rw [hopen, hdepth, hafter, Line.endsOpen, hlast]
    decide

/-- With lines in guards that could be wrapped, the other lines can be wrapped as before. -/
theorem isWrappable_eq (h : LinesGuarded name chosen (splitLines spans) (splitLines out))
    (hchosen : ∀ i ∈ chosen, isWrappable (splitLines spans) i = true) (i : Nat) :
    isWrappable (splitLines out) i =
      (isWrappable (splitLines spans) i && !chosen.contains i) := by
  have hself : ∀ j l, (splitLines spans)[j]? = some l → j ∈ chosen → l.isSelfContained = true :=
    fun j l hl hj => isSelfContained_of_isWrappable hl (hchosen j hj)
  by_cases hmem : i ∈ chosen
  · -- the frame of the guard is on the line
    have hnone : (splitLines out)[i]?.any Line.isSelfContained = false := by
      cases hl' : (splitLines out)[i]? with
      | none => rfl
      | some l' =>
        have hi := (List.getElem?_eq_some_iff.1 hl').1
        rw [h.length_eq] at hi
        obtain ⟨-, -, -, hblock⟩ := h.facts_of_mem (List.getElem?_eq_getElem hi) hl' hmem
        simp [Line.isSelfContained, hblock]
    simp [isWrappable, hnone, hmem]
  · have hseen : List.Forall₂ Line.SeenAs (splitLines spans) (splitLines out) := by
      refine List.forall₂_iff_get.2 ⟨h.length_eq.symm, fun j hj hj' => ?_⟩
      have hl := List.getElem?_eq_getElem hj
      have hl' := List.getElem?_eq_getElem hj'
      by_cases hj : j ∈ chosen
      · exact h.seenAs_of_mem hl hl' hj (hself j _ hl hj)
      · obtain ⟨exitPending, hfacts⟩ := h.facts_of_not_mem hl hl' hj
        exact .of_facts hfacts
    have hsame : (splitLines out)[i]?.any Line.isSelfContained =
        (splitLines spans)[i]?.any Line.isSelfContained := by
      cases hl' : (splitLines out)[i]? with
      | none =>
        have hi := List.getElem?_eq_none_iff.1 hl'
        rw [h.length_eq] at hi
        rw [List.getElem?_eq_none hi]
      | some l' =>
        have hi := (List.getElem?_eq_some_iff.1 hl').1
        rw [h.length_eq] at hi
        have hl := List.getElem?_eq_getElem hi
        obtain ⟨exitPending, hfacts⟩ := h.facts_of_not_mem hl hl' hmem
        rw [hl, Option.any_some, Option.any_some, Line.isSelfContained_of_facts hfacts]
    rw [isWrappable_of_seenAs hseen hsame]
    simp [hmem]

end LinesGuarded

end LuaVeil
