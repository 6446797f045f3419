/-
# Extracted strings, put back

A reference stands in the place of each constant, and the gap in front of an argument is
closed. Each span after extraction is told by the spans before extraction and its place
among them, so that nothing is lost: with the literals of the table in the places of the
references, a script has the tokens and strings it had before.

Main statements:

* `spans_foldlM`, each span after extraction by its place;
* `extraction_put_back`, what becomes of a script, and how it is restored.
-/
import LuaVeil.Proofs.Job.RoundTrip

namespace LuaVeil

/-! ## Arguments -/

/-- Whether an expression that ends in a mark can be called. -/
def Mark.endsCallee : Mark → Bool
  | .word w => !isKeyword w
  | m@(.symbol _) => m.isSymbolOf [")", "]", "\x7d"]
  | .number => false
  | .string => true

/-- Whether a string right after some spans is the argument of a call. -/
def callableAfter (spans : List Span) : Bool :=
  (spans.flatMap Span.marks).getLast?.any Mark.endsCallee

/-- Whether the first of some spans that holds a token or a string is a constant. -/
def constantNext (spans : List Span) : Bool :=
  (spans.find? fun s => !s.marks.isEmpty).any Span.isConstant

/-- Whether the first `i` spans end in the gap before an argument, or right before it. -/
def endsInGap (spans : List Span) (i : Nat) : Bool :=
  callableAfter (spans.take i) && constantNext (spans.drop i)

/-- The number of constants among the first `i` spans. -/
def constantsBefore (spans : List Span) (i : Nat) : Nat :=
  ((spans.take i).filter Span.isConstant).length

/-- A span on the line of an argument: a comment is a space, and so are line breaks at the end. -/
def Span.closed (s : Span) : Span :=
  match s.kind with
  | .string => s
  | .comment => { s with kind := .code, text := [' '] }
  | .code => { s with text := (splitGap s.text).1 ++ joinBreaks (splitGap s.text).2 }

/-- What becomes of the span `s` at place `i` of a script. -/
def extractedAt (table : Name) (spans : List Span) (i : Nat) (s : Span) : Span :=
  if s.isConstant then
    referenceAt table (s, constantsBefore spans i) (callableAfter (spans.take i))
  else if endsInGap spans (i + 1) then s.closed
  else s

section Marks

theorem mark?_eq_none {t : Token} (h : t.isTrivia = true) : t.mark? = none := by
  obtain ⟨kind, text, offset⟩ := t
  cases kind <;> first | rfl | cases h

theorem mark?_of_solid {t : Token} (h : t.isTrivia = false) :
    ∃ m, t.mark? = some m ∧ m.endsCallee = t.endsCallee := by
  obtain ⟨kind, text, offset⟩ := t
  cases kind with
  | word => exact ⟨_, rfl, rfl⟩
  | number => exact ⟨_, rfl, rfl⟩
  | symbol =>
    have hcomm : ∀ v : String, (v.toList == text) = (text == v.toList) := fun v => Bool.beq_comm
    refine ⟨_, rfl, ?_⟩
    simp only [Mark.endsCallee, Mark.isSymbolOf, Token.endsCallee, List.any_cons, List.any_nil,
      Bool.or_false, Bool.or_assoc, hcomm]
    rfl
  | blank => cases h
  | newline => cases h

/-- The last mark of code decides whether the code ends in a callee. -/
theorem endsInCallee?_eq (code : Text) : endsInCallee? code =
    ((tokenize code).filterMap Token.mark?).getLast?.map Mark.endsCallee := by
  have hall : ∀ tokens : List Token, (tokens.dropWhile Token.isTrivia).head?.map Token.endsCallee =
      (tokens.filterMap Token.mark?).head?.map Mark.endsCallee := by
    intro tokens
    induction tokens with
    | nil => rfl
    | cons t tokens ih =>
      cases ht : t.isTrivia with
      | true => rw [List.dropWhile_cons_of_pos ht, List.filterMap_cons_none (mark?_eq_none ht), ih]
      | false =>
        obtain ⟨m, hm, hcallee⟩ := mark?_of_solid ht
        rw [List.dropWhile_cons_of_neg (by simp [ht]), List.filterMap_cons_some hm]
        simp [hcallee]
  rw [endsInCallee?, reverseTokens, hall, List.filterMap_reverse, List.head?_reverse]

/-- Code without marks is blank. -/
theorem solidLabels_eq_nil_iff (code : Text) :
    solidLabels code = [] ↔ (tokenize code).filterMap Token.mark? = [] := by
  rw [solidLabels, List.map_eq_nil_iff, significantTokens, List.filter_eq_nil_iff,
    List.filterMap_eq_nil_iff]
  refine forall₂_congr fun t _ => ?_
  cases ht : t.isTrivia with
  | true => simp [mark?_eq_none ht]
  | false =>
    obtain ⟨m, hm, -⟩ := mark?_of_solid ht
    simp [hm]

/-- The code up to its last token is empty if there is no token. -/
theorem isEmpty_splitGap {s : Span} (h : s.kind = .code) :
    (splitGap s.text).1.isEmpty = s.marks.isEmpty := by
  rw [Bool.eq_iff_iff, List.isEmpty_iff, List.isEmpty_iff, Span.marks, h]
  obtain ⟨happ, hblank⟩ := splitGap_spec s.text
  constructor
  · intro hfront
    rw [hfront, List.nil_append] at happ
    rw [← happ, ← solidLabels_eq_nil_iff]
    exact solidLabels_eq_nil hblank
  · intro hmarks
    have htrivia : reverseTokens s.text = [] := by
      refine List.dropWhile_eq_nil_iff.2 fun t ht => ?_
      have hnone := List.filterMap_eq_nil_iff.1 hmarks t (List.mem_reverse.1 ht)
      by_contra hsolid
      obtain ⟨m, hm, -⟩ := mark?_of_solid (by simpa using hsolid)
      rw [hm] at hnone
      cases hnone
    simp [splitGap, htrivia]

/-- Blanks after code have no labels. -/
theorem solidLabels_append_blank (code : Text) {t : Text}
    (h : ∀ c ∈ t, Text.isAsciiBlank c = true) : solidLabels (code ++ t) = solidLabels code := by
  cases t with
  | nil => rw [List.append_nil]
  | cons c t =>
    have hparted : Parted code (c :: t) := .inr ⟨c, rfl, .inl (h c List.mem_cons_self)⟩
    rw [solidLabels_append_of_parted hparted, solidLabels_eq_nil h, List.append_nil]

end Marks

/-! ## Closed spans -/

/-- Whether a text holds nothing but blanks on one line. -/
def Text.IsBlankLine (t : Text) : Prop :=
  ∀ c ∈ t, Text.isAsciiBlank c = true ∧ c ≠ '\n' ∧ c ≠ '\r'

theorem isBlankLine_joinBreaks {t : Text} (h : ∀ c ∈ t, Text.isAsciiBlank c = true) :
    (joinBreaks t).IsBlankLine := by
  intro c hc
  refine ⟨isAsciiBlank_of_mem_joinBreaks h hc, ?_⟩
  obtain ⟨d, -, rfl⟩ := List.mem_map.1 hc
  split
  · decide
  · next hbreak => simpa using hbreak

namespace Span

variable {s : Span}

/-- The tokens of code without trivia, or the string; nothing for a comment. -/
def solidItems (s : Span) : List (Option TokenKind × Text) :=
  if s.isComment then [] else s.items

theorem closed_of_code (h : s.kind = .code) : ∃ blanks, Text.IsBlankLine blanks ∧
    s.closed = { s with text := (splitGap s.text).1 ++ blanks } :=
  ⟨_, isBlankLine_joinBreaks (splitGap_spec s.text).2, by rw [closed, h]⟩

/-- A span without tokens is code with blanks of one line when it is closed. -/
theorem closed_of_no_marks (h : s.marks = []) :
    s.closed.isCode = true ∧ s.closed.text.IsBlankLine := by
  cases hkind : s.kind with
  | string => simp [marks, hkind] at h
  | comment =>
    rw [closed, hkind]
    refine ⟨rfl, fun c hc => ?_⟩
    obtain rfl := List.mem_singleton.1 hc
    decide
  | code =>
    have hfront : (splitGap s.text).1 = [] := by
      rw [← List.isEmpty_iff, isEmpty_splitGap hkind, h]
      rfl
    obtain ⟨blanks, hblanks, hclosed⟩ := closed_of_code hkind
    rw [hclosed, hfront]
    exact ⟨by rw [isCode, hkind]; rfl, hblanks⟩

/-- A span has the same tokens when it is closed. -/
theorem solidItems_closed (s : Span) : s.closed.solidItems = s.solidItems := by
  cases hkind : s.kind with
  | string => rw [closed, hkind]
  | comment =>
    have hlabels : solidLabels [' '] = [] := solidLabels_eq_nil (List.forall_mem_singleton.2 (by decide))
    simp [closed, hkind, solidItems, isComment, items, isCode, hlabels]
  | code =>
    obtain ⟨happ, hblank⟩ := splitGap_spec s.text
    have hjoined : solidLabels ((splitGap s.text).1 ++ joinBreaks (splitGap s.text).2) =
        solidLabels s.text := by
      rw [solidLabels_append_blank _ fun c hc => isAsciiBlank_of_mem_joinBreaks hblank hc,
        ← solidLabels_append_blank _ hblank, happ]
    simp [closed, hkind, solidItems, isComment, items, isCode, hjoined]

end Span

/-- Closing a gap closes spans up to the last token. -/
theorem closeGap_cons (s : Span) (spans : List Span) :
    closeGap (s :: spans) = s.closed :: if s.marks.isEmpty then closeGap spans else spans := by
  cases hkind : s.kind with
  | string => simp [closeGap, Span.closed, Span.marks, hkind]
  | comment => simp [closeGap, Span.closed, Span.marks, hkind]
  | code =>
    simp only [closeGap, Span.closed, hkind, isEmpty_splitGap hkind]
    split <;> rfl

/-- References have tokens and no gap. -/
theorem closeGap_reference (table : Name) (slot : Span × Nat) (argument : Bool)
    (spans : List Span) : closeGap (referenceAt table slot argument :: spans) =
      referenceAt table slot argument :: spans := by
  obtain ⟨c, hlast, hc⟩ := getLast?_reference table slot.2 argument
  have hsolid := splitGap_of_solid hlast (by rcases hc with rfl | rfl <;> decide)
  have hmarks : (referenceAt table slot argument).marks.isEmpty = false := by
    rw [← isEmpty_splitGap rfl, referenceAt, hsolid]
    simpa using reference_ne_nil table slot.2 argument
  rw [closeGap_cons, hmarks]
  simp [Span.closed, referenceAt, hsolid, joinBreaks]

/-! ## Places -/

section Places

variable {done spans : List Span} {s : Span}

theorem callableAfter_append (done spans : List Span) : callableAfter (done ++ spans) =
    ((spans.flatMap Span.marks).getLast?.map Mark.endsCallee).getD (callableAfter done) := by
  rw [callableAfter, List.flatMap_append, List.getLast?_append, callableAfter]
  cases (spans.flatMap Span.marks).getLast? with
  | none => simp
  | some m => simp

theorem callableAfter_of_no_marks (h : ∀ s ∈ spans, s.marks = []) :
    callableAfter (done ++ spans) = callableAfter done := by
  rw [callableAfter_append, List.flatMap_eq_nil_iff.2 h]
  rfl

theorem marks_of_isConstant (h : s.isConstant = true) : s.marks = [.string] := by
  obtain ⟨hkind, -⟩ := Bool.and_eq_true_iff.1 h
  rw [Span.marks, beq_iff_eq.1 hkind]

theorem constantNext_cons (s : Span) (spans : List Span) : constantNext (s :: spans) =
    if s.marks.isEmpty then constantNext spans else s.isConstant := by
  rw [constantNext, List.find?_cons]
  cases s.marks.isEmpty <;> rfl

theorem constantNext_of_no_marks {next : Span} {more : List Span}
    (h : ∀ s ∈ spans, s.marks = []) (hnext : next.isConstant = true) :
    constantNext (spans ++ next :: more) = true := by
  induction spans with
  | nil => simpa [constantNext_cons, marks_of_isConstant hnext] using hnext
  | cons s spans ih =>
    obtain ⟨hs, hspans⟩ := List.forall_mem_cons.1 h
    simpa [constantNext_cons, hs] using ih hspans

theorem extractedAt_append (table : Name) (done : List Span) (s : Span) (spans : List Span) :
    extractedAt table (done ++ s :: spans) done.length s =
      if s.isConstant then
        referenceAt table (s, (done.filter Span.isConstant).length) (callableAfter done)
      else if callableAfter (done ++ [s]) && constantNext spans then s.closed
      else s := by
  have htake : (done ++ s :: spans).take (done.length + 1) = done ++ [s] := by
    rw [List.append_cons, List.take_left' (by simp)]
  have hdrop : (done ++ s :: spans).drop (done.length + 1) = spans := by
    rw [List.append_cons, List.drop_left' (by simp)]
  rw [extractedAt, endsInGap, constantsBefore, List.take_left, htake, hdrop]

/-- The first place after some spans is that of the next span, the others are those after it. -/
theorem mapIdx_extractedAt_cons (table : Name) (done : List Span) (s : Span) (spans : List Span) :
    ((s :: spans).mapIdx fun i t =>
        extractedAt table (done ++ s :: spans) (done.length + i) t) =
      extractedAt table (done ++ s :: spans) done.length s ::
        spans.mapIdx fun i t =>
          extractedAt table (done ++ [s] ++ spans) ((done ++ [s]).length + i) t := by
  rw [List.mapIdx_cons, List.append_cons]
  simp only [List.length_append, List.length_singleton, Nat.add_zero, Nat.add_assoc,
    Nat.add_comm 1]

end Places

/-! ## Extraction -/

namespace Extraction

variable {hide : Bool} {done : List Span} {x : Extraction} {s : Span}

/-- A span that is no literal is kept for now, and its last token tells what follows. -/
theorem step_of_not_isLiteral (h : s.isLiteral = false) (table : Name) (source : Source) :
    (x.step table hide s source).1 =
      { x with
        spans := s :: x.spans
        callable := (s.marks.getLast?.map Mark.endsCallee).getD x.callable } := by
  cases hkind : s.kind with
  | code =>
    simp only [Extraction.step, Span.marks, hkind, endsInCallee?_eq]
    rfl
  | comment =>
    simp only [Extraction.step, Span.marks, hkind]
    rfl
  | string =>
    have hread : Literal.ofText? s.text = none := by
      simpa [Span.isLiteral, hkind] using h
    simp only [Extraction.step, Span.marks, hkind, hread]
    rfl

/-- What an extraction knows about the spans it has read. -/
structure Reads (hide : Bool) (done : List Span) (x : Extraction) : Prop where
  callable_eq : x.callable = callableAfter done
  entries : List.Forall₂ (IsEntryOf hide) (done.filter Span.isConstant).zipIdx x.entries.reverse

theorem reads_empty (hide : Bool) : Reads hide [] empty :=
  ⟨rfl, .nil⟩

theorem Reads.length_entries (h : Reads hide done x) :
    x.entries.length = (done.filter Span.isConstant).length := by
  have hlength := h.entries.length_eq
  rw [List.length_zipIdx, List.length_reverse] at hlength
  exact hlength.symm

/-- After one more span, what is known and the spans so far. -/
theorem Reads.step (h : Reads hide done x) (hs : s.isLiteral = s.isConstant) (table : Name)
    (source : Source) :
    Reads hide (done ++ [s]) (x.step table hide s source).1 ∧
      (x.step table hide s source).1.spans =
        if s.isConstant then
          referenceAt table (s, (done.filter Span.isConstant).length) (callableAfter done) ::
            if callableAfter done then closeGap x.spans else x.spans
        else s :: x.spans := by
  rcases step_cases table hide x s source with ⟨hno, -⟩ | ⟨literal, key, hyes, hread, hkey, hstep⟩
  · rw [step_of_not_isLiteral hno]
    rw [hs] at hno
    refine ⟨⟨?_, ?_⟩, by simp [hno]⟩
    · rw [callableAfter_append, ← h.callable_eq, List.flatMap_singleton]
    · simpa [List.filter_append, hno] using h.entries
  · have hconstant : s.isConstant = true := hs ▸ hyes
    have hdone : ((done ++ [s]).filter Span.isConstant).zipIdx =
        (done.filter Span.isConstant).zipIdx ++ [(s, x.entries.length)] := by
      simp [List.zipIdx_append, hconstant, h.length_entries]
    rw [hstep]
    refine ⟨⟨?_, ?_⟩, ?_⟩
    · rw [callableAfter_append, List.flatMap_singleton, marks_of_isConstant hconstant]
      rfl
    · rw [hdone]
      show List.Forall₂ _ _ (_ :: x.entries).reverse
      rw [List.reverse_cons]
      exact List.rel_append h.entries (.cons ⟨rfl, hread, hkey⟩ .nil)
    · rw [if_pos hconstant, ← h.length_entries, ← h.callable_eq]
      rfl

/--
Extraction turns each span into what its place among all spans says. The spans that were read
before may still be closed, if a constant is next.
-/
theorem spans_foldlM (h : Reads hide done x) {spans : List Span}
    (hspans : ∀ s ∈ spans, s.isLiteral = s.isConstant) (table : Name) (source : Source) :
    Reads hide (done ++ spans) (spans.foldlM (Extraction.step table hide) x source).1 ∧
      (spans.foldlM (Extraction.step table hide) x source).1.spans.reverse =
        (if callableAfter done && constantNext spans then closeGap x.spans else x.spans).reverse ++
          spans.mapIdx fun i s => extractedAt table (done ++ spans) (done.length + i) s := by
  induction spans generalizing done x source with
  | nil =>
    refine ⟨by rwa [List.append_nil], ?_⟩
    have hnext : constantNext [] = false := rfl
    rw [hnext, Bool.and_false]
    exact (List.append_nil _).symm
  | cons s spans ih =>
    obtain ⟨hs, hspans⟩ := List.forall_mem_cons.1 hspans
    obtain ⟨hreads, hstep⟩ := h.step hs table source
    obtain ⟨hall, hrest⟩ := ih hreads hspans (x.step table hide s source).2
    rw [List.append_assoc] at hall
    refine ⟨hall, hrest.trans ?_⟩
    rw [mapIdx_extractedAt_cons, hstep, extractedAt_append, constantNext_cons,
      List.append_cons _ _ (List.mapIdx _ _)]
    congr 1
    by_cases hconstant : s.isConstant = true
    · simp [hconstant, marks_of_isConstant hconstant, closeGap_reference]
    · simp only [hconstant, Bool.false_eq_true, if_false]
      cases hmarks : s.marks.isEmpty with
      | true =>
        have hsame : callableAfter (done ++ [s]) = callableAfter done :=
          callableAfter_of_no_marks (List.forall_mem_singleton.2 (List.isEmpty_iff.1 hmarks))
        rw [hsame]
        cases hgap : callableAfter done && constantNext spans <;>
          simp [hgap, closeGap_cons, hmarks]
      | false =>
        cases callableAfter (done ++ [s]) && constantNext spans <;> simp [closeGap_cons, hmarks]

end Extraction

/-! ## Scripts -/

/-- The slot to which the span at place `i` of a script refers after extraction. -/
def slotAt (spans : List Span) (i : Nat) : Option Nat :=
  (spans[i]?.filter Span.isConstant).map fun _ => constantsBefore spans i

/-- The literals of a table in the places of the references. -/
def putBack (entries : List TableEntry) (spans out : List Span) : List Span :=
  out.mapIdx fun i t =>
    match (slotAt spans i).bind (entries[·]?) with
    | some e => { t with kind := .string, text := e.literal.text }
    | none => t

/-- What the extraction of strings makes of a script. -/
structure Extracted (hide : Bool) (spans : List Span) (table : StringTable) (out : List Span) :
    Prop where
  /-- The slots are numbered in order, and each holds the constant with its number. -/
  indices : table.entries.map TableEntry.index = List.range (spans.filter Span.isConstant).length
  literals : table.entries.map (fun e => e.literal.text) =
    (spans.filter Span.isConstant).map Span.text
  decoder : table.decoder.isSome = (hide && !(spans.filter Span.isConstant).isEmpty)
  /-- Each span stands at its old place. -/
  places : out = spans.mapIdx (extractedAt table.name spans)
  /-- Strings in backticks stay, and so does all that is in no gap. -/
  interpolated : ∀ (i : Nat) (s : Span), spans[i]? = some s → s.kind = .string →
    s.isConstant = false → out[i]? = some s
  kept : ∀ (i : Nat) (s : Span), spans[i]? = some s → s.isConstant = false →
    endsInGap spans (i + 1) = false → out[i]? = some s
  /-- A reference has parentheses after a callee only. -/
  references : ∀ (i : Nat) (s : Span), spans[i]? = some s → s.isConstant = true →
    out[i]? = some (referenceAt table.name (s, constantsBefore spans i)
      (callableAfter (spans.take i)))
  /-- Before parentheses there are only blanks on one line after the last token or string. -/
  gaps : ∀ (i : Nat) (s : Span), spans[i]? = some s → s.isConstant = true →
    callableAfter (spans.take i) = true →
      ∃ k item, k < i ∧ spans[k]? = some item ∧ item.marks ≠ [] ∧
        (item.kind = .code → ∃ blanks, Text.IsBlankLine blanks ∧
          out[k]? = some { item with text := (splitGap item.text).1 ++ blanks }) ∧
        ∀ j, k < j → j < i → ∃ t, out[j]? = some t ∧ t.isCode = true ∧ t.text.IsBlankLine
  /-- The script with the literals put back has the tokens and strings of the script before. -/
  restored : (putBack table.entries spans out).flatMap Span.solidItems =
    spans.flatMap Span.solidItems
  /-- If the name of the table is new, the references are the spans with the name. -/
  recognized : (∀ s ∈ spans, s.mentions [table.name] = false) →
    ∀ (i : Nat) (s t : Span), spans[i]? = some s → out[i]? = some t →
      t.mentions [table.name] = s.isConstant

section Scripts

variable {hide : Bool} {spans : List Span} {table : Name}

theorem isLiteral_eq_isConstant {s : Span} (h : s.isConstant = true → IsStringLiteral s.text) :
    s.isLiteral = s.isConstant := by
  by_cases hkind : s.kind = .string
  · by_cases htick : s.text.head? = some '`'
    · rw [Span.isLiteral, Span.isConstant, ofText?_of_backtick htick, htick]
      rfl
    · have hconstant : s.isConstant = true := by simp [Span.isConstant, hkind, htick]
      obtain ⟨l, hread, -⟩ := exists_literal_of_isStringLiteral (h hconstant)
      rw [hconstant, Span.isLiteral, hkind, hread]
      rfl
  · simp [Span.isLiteral, Span.isConstant, beq_eq_false_iff_ne.2 hkind]

/-- The constants of a script, stripped or not, are literals. -/
theorem isStringLiteral_of_isPrepared {source : Text} (h : IsPrepared source spans) {s : Span}
    (hs : s ∈ spans) (hconstant : s.isConstant = true) : IsStringLiteral s.text := by
  obtain ⟨hkind, hhead⟩ := Bool.and_eq_true_iff.1 hconstant
  have hkind : s.kind = .string := by simpa using hkind
  have hread : IsStringLiteral s.text ∨ s.text.head? = some '`' := by
    obtain ⟨scanned, hscan, rfl | ⟨isDebug, rfl⟩⟩ := h
    · exact isStringLiteral_of_mem_scan hscan hs hkind
    · exact isStringLiteral_of_mem_strip hscan hs hkind
  refine hread.resolve_right fun htick => ?_
  rw [htick] at hhead
  cases hhead

/-- The constant at place `i` is the one with as many before it. -/
theorem getElem?_constantsBefore {i : Nat} {s : Span} (h : spans[i]? = some s)
    (hs : s.isConstant = true) :
    (spans.filter Span.isConstant)[constantsBefore spans i]? = some s := by
  obtain ⟨hi, rfl⟩ := List.getElem?_eq_some_iff.1 h
  have hsplit : spans = spans.take i ++ spans[i] :: spans.drop (i + 1) := by
    rw [← List.drop_eq_getElem_cons hi, List.take_append_drop]
  have hfilter : spans.filter Span.isConstant = (spans.take i).filter Span.isConstant ++
      spans[i] :: (spans.drop (i + 1)).filter Span.isConstant := by
    conv_lhs => rw [hsplit]
    rw [List.filter_append, List.filter_cons_of_pos hs]
  rw [hfilter, constantsBefore, List.getElem?_append_right le_rfl, Nat.sub_self]
  rfl

/-- A list of images at places is read like the list, if each image is read like its item. -/
theorem flatMap_mapIdx {α β γ : Type} {f : β → List γ} {g : α → List γ} {h : Nat → α → β}
    {xs : List α} (hread : ∀ (i : Nat) (x : α), xs[i]? = some x → f (h i x) = g x) :
    (xs.mapIdx h).flatMap f = xs.flatMap g := by
  induction xs generalizing h with
  | nil => rfl
  | cons x xs ih =>
    rw [List.mapIdx_cons, List.flatMap_cons, List.flatMap_cons, hread 0 x rfl]
    exact congrArg _ (ih fun i y hy => hread (i + 1) y hy)

/-- Each literal that is put back is the constant that was taken, and the rest has its tokens. -/
theorem solidItems_putBack {entries : List TableEntry}
    (hentries : entries.map (fun e => e.literal.text) =
      (spans.filter Span.isConstant).map Span.text) :
    (putBack entries spans (spans.mapIdx (extractedAt table spans))).flatMap Span.solidItems =
      spans.flatMap Span.solidItems := by
  rw [putBack, List.mapIdx_mapIdx]
  refine flatMap_mapIdx fun i s hs => ?_
  cases hconstant : s.isConstant with
  | true =>
    have hplace := getElem?_constantsBefore hs hconstant
    have hentry : (entries[constantsBefore spans i]?).map (fun e => e.literal.text) =
        some s.text := by
      rw [← List.getElem?_map, hentries, List.getElem?_map, hplace]
      rfl
    obtain ⟨e, he, htext⟩ := Option.map_eq_some_iff.1 hentry
    have hslot : (slotAt spans i).bind (entries[·]?) = some e := by
      rw [slotAt, hs, Option.filter_some_pos hconstant]
      exact he
    obtain ⟨hkind, -⟩ := Bool.and_eq_true_iff.1 hconstant
    have hkind : s.kind = .string := by simpa using hkind
    simp [hslot, htext, Span.solidItems, Span.isComment, Span.items, Span.isCode, hkind]
  | false =>
    have hslot : (slotAt spans i).bind (entries[·]?) = none := by
      rw [slotAt, hs, Option.filter_some_neg (by simp [hconstant])]
      rfl
    simp only [Function.comp_apply, hslot, extractedAt, hconstant, Bool.false_eq_true, if_false]
    split
    · exact Span.solidItems_closed s
    · rfl

/-- The last span with tokens among some that have any. -/
theorem exists_last_marks {xs : List Span} (h : xs.flatMap Span.marks ≠ []) :
    ∃ front item gap, xs = front ++ item :: gap ∧ item.marks ≠ [] ∧ ∀ s ∈ gap, s.marks = [] := by
  induction xs using List.reverseRecOn with
  | nil => exact absurd rfl h
  | append_singleton xs s ih =>
    by_cases hs : s.marks = []
    · rw [List.flatMap_append, List.flatMap_singleton, hs, List.append_nil] at h
      obtain ⟨front, item, gap, rfl, hitem, hgap⟩ := ih h
      refine ⟨front, item, gap ++ [s], by simp, hitem, ?_⟩
      exact List.forall_mem_append.2 ⟨hgap, List.forall_mem_singleton.2 hs⟩
    · exact ⟨xs, s, [], rfl, hs, by simp⟩

/-- Every place after the last token before an argument is in the gap. -/
theorem endsInGap_of_no_marks {i j : Nat} {s : Span} (hs : spans[i]? = some s)
    (hconstant : s.isConstant = true) (hcallable : callableAfter (spans.take i) = true)
    (hj : j ≤ i) (hgap : ∀ t ∈ (spans.take i).drop j, t.marks = []) :
    endsInGap spans j = true := by
  obtain ⟨hi, rfl⟩ := List.getElem?_eq_some_iff.1 hs
  have htake : spans.take i = spans.take j ++ (spans.take i).drop j := by
    conv_lhs => rw [← List.take_append_drop j (spans.take i), List.take_take, Nat.min_eq_left hj]
  have hdrop : spans.drop j = (spans.take i).drop j ++ spans[i] :: spans.drop (i + 1) := by
    conv_lhs => rw [← List.take_append_drop i spans, List.drop_append_of_le_length (by simp; omega),
      List.drop_eq_getElem_cons hi]
  rw [htake, callableAfter_of_no_marks hgap] at hcallable
  rw [endsInGap, hcallable, hdrop, constantNext_of_no_marks hgap hconstant]
  rfl

/-- What comes before the parentheses of a reference. -/
theorem exists_gap (table : Name) {i : Nat} {s : Span} (hs : spans[i]? = some s)
    (hconstant : s.isConstant = true) (hcallable : callableAfter (spans.take i) = true) :
    ∃ k item, k < i ∧ spans[k]? = some item ∧ item.marks ≠ [] ∧
      (item.kind = .code → ∃ blanks, Text.IsBlankLine blanks ∧
        extractedAt table spans k item = { item with text := (splitGap item.text).1 ++ blanks }) ∧
      ∀ j, k < j → j < i → ∃ t, spans[j]? = some t ∧
        (extractedAt table spans j t).isCode = true ∧
        (extractedAt table spans j t).text.IsBlankLine := by
  have hmarks : (spans.take i).flatMap Span.marks ≠ [] := by
    intro hnil
    rw [callableAfter, hnil] at hcallable
    cases hcallable
  obtain ⟨front, item, gap, htake, hitem, hgap⟩ := exists_last_marks hmarks
  have hi : i < spans.length := (List.getElem?_eq_some_iff.1 hs).1
  have hlength := congrArg List.length htake
  rw [List.length_take, Nat.min_eq_left hi.le, List.length_append, List.length_cons] at hlength
  have hafter : (spans.take i).drop (front.length + 1) = gap := by
    rw [htake, List.append_cons, List.drop_left' (by simp)]
  have hclosed : ∀ j, front.length ≤ j → j < i → endsInGap spans (j + 1) = true := by
    intro j hfront hj
    refine endsInGap_of_no_marks hs hconstant hcallable hj fun t ht => hgap t ?_
    rw [← hafter]
    exact (List.drop_sublist_drop_left _ (by omega)).subset ht
  refine ⟨front.length, item, by omega, ?_, hitem, fun hkind => ?_, fun j hfront hj => ?_⟩
  · rw [← List.getElem?_take_of_lt (show front.length < i by omega), htake,
      List.getElem?_append_right le_rfl, Nat.sub_self]
    rfl
  · obtain ⟨blanks, hblanks, hitem⟩ := Span.closed_of_code hkind
    refine ⟨blanks, hblanks, ?_⟩
    rw [extractedAt, hclosed front.length le_rfl (by omega), ← hitem]
    simp [Span.isConstant, hkind]
  · obtain ⟨t, ht⟩ : ∃ t, spans[j]? = some t := ⟨_, List.getElem?_eq_getElem (by omega)⟩
    have hmem : t ∈ gap := by
      rw [← hafter, List.mem_iff_getElem?]
      refine ⟨j - (front.length + 1), ?_⟩
      rw [List.getElem?_drop, show front.length + 1 + (j - (front.length + 1)) = j by omega,
        List.getElem?_take_of_lt hj, ht]
    have hnot : t.isConstant = false := by
      rw [← Bool.not_eq_true]
      intro hyes
      exact absurd (hgap t hmem) (by simp [marks_of_isConstant hyes])
    refine ⟨t, ht, ?_⟩
    rw [extractedAt, hclosed j (by omega) hj, hnot]
    exact Span.closed_of_no_marks (hgap t hmem)

theorem words_closed (s : Span) : s.closed.words = s.words := by
  cases hkind : s.kind with
  | string => rw [Span.closed, hkind]
  | comment =>
    have hblank : codeWords [' '] = [] :=
      codeWords_eq_nil (List.forall_mem_singleton.2 (by decide))
    simp [Span.closed, Span.words, hkind, hblank]
  | code => simp only [Span.closed, Span.words, hkind, codeWords_splitGap]

/-- The entries of the table belong to the constants in order. -/
theorem entries_of_literals (h : ∀ s ∈ spans, s.isConstant = true → IsStringLiteral s.text)
    (hide : Bool) (dialect : Dialect) (m : Mint) :
    List.Forall₂ (IsEntryOf hide) (spans.filter Span.isConstant).zipIdx
      (extractStrings hide dialect spans m).1.1.entries := by
  obtain ⟨hreads, -⟩ := Extraction.spans_foldlM (Extraction.reads_empty hide)
    (fun s hs => isLiteral_eq_isConstant (h s hs)) (Minting.freshName m).1
    (Minting.freshName m).2.source
  obtain ⟨hentries, -, -⟩ := parts_extractStrings hide dialect spans m
  rw [hentries]
  exact hreads.entries

/-- What becomes of spans whose constants are literals. -/
theorem extracted_of_literals (h : ∀ s ∈ spans, s.isConstant = true → IsStringLiteral s.text)
    (hide : Bool) (dialect : Dialect) (m : Mint) :
    Extracted hide spans (extractStrings hide dialect spans m).1.1
      (extractStrings hide dialect spans m).1.2 := by
  obtain ⟨-, hspans, hdecoder⟩ := parts_extractStrings hide dialect spans m
  have hreads := entries_of_literals h hide dialect m
  have hword := Minting.isWord_freshName m
  obtain ⟨-, hplaces⟩ := Extraction.spans_foldlM (Extraction.reads_empty hide)
    (fun s hs => isLiteral_eq_isConstant (h s hs)) (Minting.freshName m).1
    (Minting.freshName m).2.source
  rw [← name_extractStrings hide dialect spans m] at hplaces hspans hword
  rw [← hspans] at hplaces
  generalize (extractStrings hide dialect spans m).1 = out at *
  have hout : out.2 = spans.mapIdx (extractedAt out.1.name spans) := by
    simpa [callableAfter, Extraction.empty] using hplaces
  have hplace : ∀ (i : Nat) (s : Span), spans[i]? = some s →
      out.2[i]? = some (extractedAt out.1.name spans i s) := by
    intro i s hs
    rw [hout, List.getElem?_mapIdx, hs]
    rfl
  obtain ⟨hpairs, htexts, -⟩ := literals_of_entries hreads fun s hs =>
    h s (List.mem_of_mem_filter hs) (List.of_mem_filter hs)
  have hempty := congrArg List.isEmpty htexts
  rw [List.isEmpty_map, List.isEmpty_map] at hempty
  refine ⟨?_, htexts, ?_, hout, ?_, ?_, ?_, ?_, ?_, ?_⟩
  · rw [List.range_eq_range', ← List.zipIdx_map_snd, eq_comm, ← List.forall₂_eq_eq_eq,
      List.forall₂_map_left_iff, List.forall₂_map_right_iff]
    exact hpairs.imp fun slot e he => he.1.symm
  · rw [hdecoder, hempty]
  · intro i s hs hkind hno
    have hclosed : s.closed = s := by rw [Span.closed, hkind]
    rw [hplace i s hs, extractedAt, hno, hclosed]
    simp
  · intro i s hs hno hgap
    rw [hplace i s hs, extractedAt, hno, hgap]
    rfl
  · intro i s hs hyes
    rw [hplace i s hs, extractedAt, if_pos hyes]
  · intro i s hs hyes hcallable
    obtain ⟨k, item, hk, hitem, hmarks, hcode, hblank⟩ :=
      exists_gap out.1.name hs hyes hcallable
    refine ⟨k, item, hk, hitem, hmarks, fun hkind => ?_, fun j hkj hj => ?_⟩
    · obtain ⟨blanks, hblanks, hout⟩ := hcode hkind
      exact ⟨blanks, hblanks, by rw [hplace k item hitem, hout]⟩
    · obtain ⟨t, ht, hcode, hline⟩ := hblank j hkj hj
      exact ⟨_, hplace j t ht, hcode, hline⟩
  · rw [hout]
    exact solidItems_putBack htexts
  · intro hnew i s t hs ht
    obtain rfl : extractedAt out.1.name spans i s = t :=
      Option.some.inj ((hplace i s hs).symm.trans ht)
    cases hconstant : s.isConstant with
    | true =>
      rw [extractedAt, if_pos hconstant]
      have hreference : IsReferenceTo [out.1.name] (s, constantsBefore spans i)
          (referenceAt out.1.name (s, constantsBefore spans i) (callableAfter (spans.take i))) :=
        ⟨_, List.mem_singleton_self _, _, rfl⟩
      exact hreference.mentions (List.forall_mem_singleton.2 hword)
    | false =>
      have hs := hnew s (List.mem_of_getElem? hs)
      rw [extractedAt, hconstant]
      simp only [Bool.false_eq_true, if_false]
      split
      · rw [Span.mentions, words_closed]
        exact hs
      · exact hs

/-- The slots that are read from the declaration of a hidden table hold the constants in order. -/
theorem readTable_of_literals (h : ∀ s ∈ spans, s.isConstant = true → IsStringLiteral s.text)
    (dialect : Dialect) (m : Mint) :
    let table := (extractStrings true dialect spans m).1.1
    ∃ slots, readTable table.declaration = some (table.name, slots) ∧
      List.Forall₂ HiddenSlot.Holds (spans.filter Span.isConstant).zipIdx slots := by
  intro table
  obtain ⟨hname, hdecoders⟩ := isWord_extractStrings true dialect spans m
  obtain ⟨-, -, hdecoder⟩ := parts_extractStrings true dialect spans m
  exact readTable_hidden hname hdecoders hdecoder (entries_of_literals h true dialect m)

end Scripts

/-- Whatever is extracted from a script, stripped or not, can be put back. -/
theorem extraction_put_back {source : Text} {spans : List Span} (h : IsPrepared source spans)
    (hide : Bool) (dialect : Dialect) (m : Mint) :
    Extracted hide spans (extractStrings hide dialect spans m).1.1
      (extractStrings hide dialect spans m).1.2 :=
  extracted_of_literals (fun _ hs hconstant => isStringLiteral_of_isPrepared h hs hconstant)
    hide dialect m

/-- Two arguments without parentheses, the first on a line of its own after a comment. -/
theorem arguments_put_back : IsPrepared "f --c\n'a' 'b'".toList
      [⟨.code, "f ".toList, 0, 2⟩, ⟨.comment, "--c".toList, 2, 5⟩, ⟨.code, "\n".toList, 5, 6⟩,
        ⟨.string, "'a'".toList, 6, 9⟩, ⟨.code, " ".toList, 9, 10⟩,
        ⟨.string, "'b'".toList, 10, 13⟩] ∧
    ∀ m, Extracted true
      [⟨.code, "f ".toList, 0, 2⟩, ⟨.comment, "--c".toList, 2, 5⟩, ⟨.code, "\n".toList, 5, 6⟩,
        ⟨.string, "'a'".toList, 6, 9⟩, ⟨.code, " ".toList, 9, 10⟩,
        ⟨.string, "'b'".toList, 10, 13⟩]
      (extractStrings true .luau
        [⟨.code, "f ".toList, 0, 2⟩, ⟨.comment, "--c".toList, 2, 5⟩, ⟨.code, "\n".toList, 5, 6⟩,
          ⟨.string, "'a'".toList, 6, 9⟩, ⟨.code, " ".toList, 9, 10⟩,
          ⟨.string, "'b'".toList, 10, 13⟩] m).1.1
      (extractStrings true .luau
        [⟨.code, "f ".toList, 0, 2⟩, ⟨.comment, "--c".toList, 2, 5⟩, ⟨.code, "\n".toList, 5, 6⟩,
          ⟨.string, "'a'".toList, 6, 9⟩, ⟨.code, " ".toList, 9, 10⟩,
          ⟨.string, "'b'".toList, 10, 13⟩] m).1.2 := by
  have hprepared : IsPrepared "f --c\n'a' 'b'".toList
      [⟨.code, "f ".toList, 0, 2⟩, ⟨.comment, "--c".toList, 2, 5⟩, ⟨.code, "\n".toList, 5, 6⟩,
        ⟨.string, "'a'".toList, 6, 9⟩, ⟨.code, " ".toList, 9, 10⟩,
        ⟨.string, "'b'".toList, 10, 13⟩] :=
    ⟨_, by decide +kernel, .inl rfl⟩
  exact ⟨hprepared, extraction_put_back hprepared true .luau⟩

end LuaVeil
