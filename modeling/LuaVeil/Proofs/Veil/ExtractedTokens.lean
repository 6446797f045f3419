/-
# The tokens of an extracted script

Extraction puts references in the places of constants and closes gaps. A closed gap
has no tokens and moves none, so that every other token keeps its span and its
place in the span. So the occurrences of an extracted script are those of the
script with the tokens of a reference for each constant, wherever it stands.

Main statements:

* `occurrences_closed`, a closed span has the occurrences it had;
* `occurrences_extracted`, the occurrences of an extracted script.
-/
import LuaVeil.Proofs.Line.GuardedLines
import LuaVeil.Proofs.Scope.Exchange
import LuaVeil.Proofs.Veil.PutBack

namespace LuaVeil

/-! ## Blanks at the end of code -/

/-- Every token but a blank ends where a blank follows. -/
theorem stopsToken_of_isAsciiBlank {kind : TokenKind} (hkind : kind ≠ .blank) {c d : Char}
    (h : Text.isAsciiBlank d = true) (t b : Text) : StopsToken kind c t (d :: b) := by
  obtain ⟨hnumeral, hword, -, hdigit, -, hsign⟩ := plain_of_separates (separates_of_isAsciiBlank h)
  have hparts : partsSymbols d = true := by
    simp only [Text.isAsciiBlank, Text.isSeparator, Bool.or_eq_true, beq_iff_eq] at h
    rcases h with (((rfl | rfl) | rfl) | rfl) | rfl <;> decide
  have hhead : ∀ {p : Char → Prop}, p d → ∀ e, (d :: b).head? = some e → p e := by
    intro p hp e he
    obtain rfl := Option.some.inj he
    exact hp
  cases kind with
  | newline => trivial
  | blank => exact absurd rfl hkind
  | word => exact hhead hword
  | number => exact hhead ⟨hnumeral, fun hs => absurd hs (by simp [hsign])⟩
  | symbol => exact stopsSymbol_of_partsSymbols hparts hdigit

section

variable {index start offset : Nat} {inHole : Bool} {code blanks : Text}

/-- The marks of occurrences do not depend on where they stand. -/
theorem map_mark_occurrencesFrom :
    (occurrencesFrom index start offset inHole code).map Occurrence.mark = codeMarks code := by
  have hlabels : ∀ ts : List Token,
      ts.filterMap Token.mark? = (ts.map Token.label).filterMap labelMark? := by
    intro ts
    rw [List.filterMap_map]
    refine congrArg (List.filterMap · ts) (funext fun t => ?_)
    obtain ⟨kind, text, offset⟩ := t
    cases kind <;> rfl
  have hmarks : (occurrencesFrom index start offset inHole code).map Occurrence.mark =
      (tokenizeFrom offset code).filterMap Token.mark? := by
    simp [occurrencesFrom, List.map_filterMap, Function.comp_def]
  rw [hmarks, codeMarks, hlabels, hlabels, map_label_tokenizeFrom, ← labels]

theorem codeMarks_eq_nil (h : ∀ c ∈ blanks, Text.isAsciiBlank c = true) :
    codeMarks blanks = [] := by
  rw [codeMarks_eq, solidLabels_eq_nil h]
  rfl

theorem occurrencesFrom_blanks (h : ∀ c ∈ blanks, Text.isAsciiBlank c = true) :
    occurrencesFrom index start offset inHole blanks = [] := by
  rw [← List.map_eq_nil_iff (f := Occurrence.mark), map_mark_occurrencesFrom, codeMarks_eq_nil h]

/-- Blanks behind code are no tokens and move none. -/
theorem occurrencesFrom_append_blanks (h : ∀ c ∈ blanks, Text.isAsciiBlank c = true) :
    occurrencesFrom index start offset inHole (code ++ blanks) =
      occurrencesFrom index start offset inHole code := by
  induction code using induction_on_lexemes generalizing offset with
  | nil =>
    rw [List.nil_append, occurrencesFrom_blanks h, occurrencesFrom, tokenizeFrom]
    rfl
  | @cons kind c tail rest hlex ih =>
    by_cases htrivia : rest = [] ∧ (kind = .blank ∨ kind = .newline)
    · obtain ⟨rfl, hkind⟩ := htrivia
      rw [List.append_nil] at hlex ⊢
      have hall : ∀ d ∈ c :: tail, Text.isAsciiBlank d = true := by
        rcases hkind with rfl | rfl
        · obtain ⟨-, hsep, -, hrest⟩ := lexeme_eq_iff.1 hlex
          refine List.forall_mem_cons.2 ⟨by simp [Text.isAsciiBlank, hsep], fun d hd => ?_⟩
          simp [Text.isAsciiBlank, List.dropWhile_eq_nil_iff.1 hrest d hd]
        · obtain ⟨rfl, rfl, -⟩ := lexeme_eq_iff.1 hlex
          exact List.forall_mem_singleton.2 (by decide)
      rw [occurrencesFrom_blanks hall, occurrencesFrom_blanks (List.forall_mem_append.2 ⟨hall, h⟩)]
    · have hgo : lexeme c (tail ++ rest ++ blanks) = ⟨kind, tail, rest ++ blanks⟩ := by
        by_cases hrest : rest = []
        · subst hrest
          rw [List.append_nil] at hlex ⊢
          have hkind : kind ≠ .blank := fun hblank => htrivia ⟨rfl, .inl hblank⟩
          cases blanks with
          | nil => rw [List.append_nil, hlex, List.append_nil]
          | cons d blanks =>
            have hd := h d List.mem_cons_self
            exact lexeme_append_of_stop hlex (stopsToken_of_isAsciiBlank hkind hd tail blanks)
        · exact lexeme_append_of_rest blanks hlex hrest
      rw [List.cons_append, occurrencesFrom_cons, occurrencesFrom_cons, hlex, hgo, ih]

end

/-! ## Spans -/

namespace Span

variable {s : Span} {index : Nat}

/-- A closed span has the occurrences it had. -/
theorem occurrences_closed (s : Span) (index : Nat) :
    s.closed.occurrences index = s.occurrences index := by
  cases hkind : s.kind with
  | string => rw [closed, hkind]
  | comment =>
    have hblank : codeOccurrences index 0 false [' '] = [] :=
      occurrencesFrom_blanks (List.forall_mem_singleton.2 (by decide))
    simp only [closed, hkind, occurrences, hblank]
  | code =>
    obtain ⟨happ, hblank⟩ := splitGap_spec s.text
    have hfront : ∀ blanks, (∀ c ∈ blanks, Text.isAsciiBlank c = true) →
        codeOccurrences index 0 false ((splitGap s.text).1 ++ blanks) =
          codeOccurrences index 0 false (splitGap s.text).1 :=
      fun _ h => occurrencesFrom_append_blanks h
    have htext := hfront _ hblank
    rw [happ] at htext
    simp only [closed, hkind, occurrences]
    rw [hfront _ fun c hc => isAsciiBlank_of_mem_joinBreaks hblank hc, htext]

/-- A constant has no holes. -/
theorem occurrences_of_isConstant (h : s.isConstant = true) :
    s.occurrences index = [⟨.string, index, 0, false⟩] := by
  obtain ⟨hkind, hhead⟩ := Bool.and_eq_true_iff.1 h
  have hholes : holes s.text = [] := by
    unfold holes
    split
    · next htext => simp [htext] at hhead
    · rfl
  rw [occurrences, beq_iff_eq.1 hkind]
  simp [hholes]

/-- Outside of holes, the occurrences of a span are its marks. -/
theorem map_mark_occurrences (s : Span) (index : Nat) :
    ((s.occurrences index).filter fun o => !o.inHole).map Occurrence.mark = s.marks := by
  have hcode : ∀ {start inHole code}, ∀ o ∈ codeOccurrences index start inHole code,
      o.inHole = inHole := by
    intro start inHole code o ho
    obtain ⟨t, -, mark, -, rfl⟩ := exists_token_of_mem_occurrencesFrom ho
    rfl
  cases hkind : s.kind with
  | code =>
    rw [occurrences, marks, hkind, List.filter_eq_self.2 fun o ho => by simp [hcode o ho]]
    exact map_mark_occurrencesFrom
  | string =>
    have hholes : ((holes s.text).flatMap fun h =>
        codeOccurrences index h.start true h.text).filter (fun o => !o.inHole) = [] := by
      refine List.filter_eq_nil_iff.2 fun o ho => ?_
      obtain ⟨hole, -, ho⟩ := List.mem_flatMap.1 ho
      simp [hcode o ho]
    rw [occurrences, marks, hkind]
    simp [hholes]
  | comment => rw [occurrences, marks, hkind]; rfl

/-- What is a word among the occurrences of a span is a word of the span. -/
theorem mem_words_of_mem_occurrences {o : Occurrence} {w : Name} (ho : o ∈ s.occurrences index)
    (hw : o.mark = .word w) : w ∈ s.words := by
  have hcode : ∀ {start inHole code}, o ∈ codeOccurrences index start inHole code →
      w ∈ codeWords code := by
    intro start inHole code ho
    obtain ⟨t, ht, mark, hmark, rfl⟩ := exists_token_of_mem_occurrencesFrom ho
    obtain ⟨kind, text, offset⟩ := t
    cases kind <;> cases hmark
    · obtain rfl := Mark.word.inj hw
      exact mem_codeWords.2 (List.mem_map_of_mem ht)
    · cases hw
    · cases hw
  rw [occurrences] at ho
  rw [words]
  cases hkind : s.kind with
  | code =>
    rw [hkind] at ho
    exact hcode ho
  | string =>
    rw [hkind] at ho
    rcases List.mem_cons.1 ho with rfl | ho
    · cases hw
    · obtain ⟨hole, hhole, ho⟩ := List.mem_flatMap.1 ho
      exact List.mem_flatMap.2 ⟨hole, hhole, hcode ho⟩
  | comment =>
    rw [hkind] at ho
    cases ho

end Span

/-! ## References -/

/-- The marks of a reference. -/
theorem codeMarks_reference {table : Name} (h : isWord table = true) (index : Nat)
    (argument : Bool) :
    codeMarks (StringTable.reference table index argument) = referenceMarks table argument := by
  have hopen : ∀ t, codeMarks ('(' :: t) = .sign "(" :: codeMarks t :=
    fun t => codeMarks_token (rfl : lexeme '(' ([] ++ t) = ⟨.symbol, [], t⟩)
  have hclose : ∀ t, codeMarks (')' :: t) = .sign ")" :: codeMarks t :=
    fun t => codeMarks_token (rfl : lexeme ')' ([] ++ t) = ⟨.symbol, [], t⟩)
  have hslot : ∀ t, codeMarks (table ++ '[' :: (Number.decimal index ++ ']' :: t)) =
      [.word table, .sign "[", .number, .sign "]"] ++ codeMarks t := by
    intro t
    have hname : ∀ t, codeMarks (table ++ '[' :: t) = .word table :: codeMarks ('[' :: t) := by
      intro t
      cases table with
      | nil => cases h
      | cons c table =>
        refine codeMarks_token (lexeme_of_isWord h fun d hd => ?_)
        obtain rfl := Option.some.inj hd
        decide
    have hindex : ∀ t, codeMarks ('[' :: t) = .sign "[" :: codeMarks t :=
      fun t => codeMarks_token (rfl : lexeme '[' ([] ++ t) = ⟨.symbol, [], t⟩)
    have hend : ∀ t, codeMarks (']' :: t) = .sign "]" :: codeMarks t :=
      fun t => codeMarks_token (rfl : lexeme ']' ([] ++ t) = ⟨.symbol, [], t⟩)
    have hdigits : codeMarks (Number.decimal index ++ ']' :: t) =
        .number :: codeMarks (']' :: t) := by
      refine codeMarks_decimal_append index fun d hd => ?_
      obtain rfl := Option.some.inj hd
      decide
    rw [hname, hindex, hdigits, hend]
    rfl
  cases argument with
  | false =>
    have htext : StringTable.reference table index false =
        table ++ '[' :: (Number.decimal index ++ ']' :: []) := by
      simp [StringTable.reference]
    rw [htext, hslot, codeMarks_nil]
    rfl
  | true =>
    have htext : StringTable.reference table index true =
        '(' :: (table ++ '[' :: (Number.decimal index ++ ']' :: ')' :: [])) := by
      simp [StringTable.reference]
    rw [htext, hopen, hslot, hclose, codeMarks_nil]
    rfl

/-! ## Scripts -/

/-- Whether an occurrence in a script is a constant. -/
def isConstantIn (spans : List Span) (o : Occurrence) : Bool :=
  decide (o.mark = .string) && !o.inHole && spans[o.span]?.any Span.isConstant

/-- The tokens in the place of an occurrence when the constants of a script are extracted. -/
def replaced (table : Name) (spans : List Span) (o : Occurrence) : List Occurrence :=
  if isConstantIn spans o then
    codeOccurrences o.span 0 false (StringTable.reference table (constantsBefore spans o.span)
      (callableAfter (spans.take o.span)))
  else [o]

/-- Extraction as an exchange of literals for references. -/
def extraction {table : Name} (hword : isWord table = true) (hkeyword : isKeyword table = false)
    (spans : List Span) : Exchange where
  table := table
  isTaken := isConstantIn spans
  argument := fun o => callableAfter (spans.take o.span)
  reference := fun o => codeOccurrences o.span 0 false (StringTable.reference table
    (constantsBefore spans o.span) (callableAfter (spans.take o.span)))
  notKeyword := hkeyword
  isString := fun o ho => by simpa [isConstantIn, and_assoc] using
    (Bool.and_eq_true_iff.1 ho).1
  reads := fun o => by
    refine ⟨?_, fun o' ho' => ?_⟩
    · rw [← codeMarks_reference hword]
      exact map_mark_occurrencesFrom
    · obtain ⟨t, -, mark, -, rfl⟩ := exists_token_of_mem_occurrencesFrom ho'
      rfl

theorem apply_extraction {table : Name} (hword : isWord table = true)
    (hkeyword : isKeyword table = false) (spans : List Span) (os : List Occurrence) :
    (extraction hword hkeyword spans).apply os = os.flatMap (replaced table spans) :=
  rfl

section

variable {spans : List Span} {table : Name}

/-- The occurrences of a script whose spans are replaced one by one. -/
theorem occurrences_mapIdx {image : Nat → Span → Span} {r : Occurrence → List Occurrence}
    (h : ∀ (i : Nat) (s : Span), spans[i]? = some s →
      (image i s).occurrences i = (s.occurrences i).flatMap r) :
    occurrences (spans.mapIdx image) = (occurrences spans).flatMap r := by
  have hfrom : ∀ (spans : List Span) (first : Nat) (image : Nat → Span → Span),
      (∀ (i : Nat) (s : Span), spans[i]? = some s →
        (image i s).occurrences (first + i) = (s.occurrences (first + i)).flatMap r) →
      ((spans.mapIdx image).zipIdx first).flatMap (fun x => x.1.occurrences x.2) =
        ((spans.zipIdx first).flatMap fun x => x.1.occurrences x.2).flatMap r := by
    intro spans
    induction spans with
    | nil => exact fun _ _ _ => rfl
    | cons s spans ih =>
      intro first image h
      have hlater := ih (first + 1) (fun i => image (i + 1)) fun i t ht => by
        have hread := h (i + 1) t ht
        rwa [← Nat.add_assoc, Nat.add_right_comm] at hread
      rw [List.mapIdx_cons, List.zipIdx_cons, List.zipIdx_cons, List.flatMap_cons,
        List.flatMap_cons, List.flatMap_append, hlater]
      exact congrArg (· ++ _) (h 0 s rfl)
  exact hfrom spans 0 image (by simpa using h)

theorem isConstantIn_of_mem {i : Nat} {s : Span} {o : Occurrence} (hs : spans[i]? = some s)
    (ho : o ∈ s.occurrences i) (hconstant : s.isConstant = false) :
    isConstantIn spans o = false := by
  rw [isConstantIn, span_of_mem_occurrences ho, hs, Option.any_some, hconstant, Bool.and_false]

/--
The occurrences of an extracted script: a reference stands for each constant, and all others have
the places they had.
-/
theorem occurrences_extracted (table : Name) (spans : List Span) :
    occurrences (spans.mapIdx (extractedAt table spans)) =
      (occurrences spans).flatMap (replaced table spans) := by
  refine occurrences_mapIdx fun i s hs => ?_
  cases hconstant : s.isConstant with
  | true =>
    have htaken : isConstantIn spans ⟨.string, i, 0, false⟩ = true := by
      simp [isConstantIn, hs, hconstant]
    rw [Span.occurrences_of_isConstant hconstant, extractedAt, if_pos hconstant,
      List.flatMap_singleton, replaced, if_pos htaken]
    rfl
  | false =>
    have hkept : (s.occurrences i).flatMap (replaced table spans) = s.occurrences i := by
      have hsingle : ∀ o ∈ s.occurrences i, replaced table spans o = [o] := fun o ho => by
        rw [replaced, isConstantIn_of_mem hs ho hconstant, if_neg Bool.false_ne_true]
      rw [List.flatMap_congr hsingle, List.flatMap_singleton']
    rw [hkept, extractedAt, hconstant, if_neg Bool.false_ne_true]
    split
    · exact s.occurrences_closed i
    · rfl

/-! ### What stands before a constant -/

/-- Outside of holes, the occurrences of a script are its marks. -/
theorem frameAfter_occurrences (spans : List Span) :
    Cursor.frameAfter none (occurrences spans) = (spans.flatMap Span.marks).getLast? := by
  have hlast : ∀ os : List Occurrence, Cursor.frameAfter none os =
      ((os.filter fun o => !o.inHole).map Occurrence.mark).getLast? := by
    intro os
    induction os using List.reverseRecOn with
    | nil => rfl
    | append_singleton os o ih =>
      rw [Cursor.frameAfter] at ih ⊢
      rw [List.foldl_append, List.filter_append, List.map_append, ih, List.foldl_cons,
        List.foldl_nil]
      cases hhole : o.inHole <;> simp [hhole]
  have hmarks : ((occurrences spans).filter fun o => !o.inHole).map Occurrence.mark =
      spans.flatMap Span.marks := by
    conv_rhs => rw [← List.zipIdx_map_fst 0 spans, List.flatMap_map]
    rw [occurrences, List.filter_flatMap, List.map_flatMap]
    exact congrArg (List.flatMap · _) (funext fun x => x.1.map_mark_occurrences x.2)
  rw [hlast, hmarks]

/-- What stands before a constant are the occurrences of the spans before it. -/
theorem front_of_constant {front back : List Occurrence} {o : Occurrence}
    (h : occurrences spans = front ++ o :: back) (ho : isConstantIn spans o = true) :
    front = occurrences (spans.take o.span) := by
  obtain ⟨-, hspan⟩ := Bool.and_eq_true_iff.1 ho
  obtain ⟨s, hs, hconstant⟩ := (Option.any_eq_true _ _).1 hspan
  have hplace : o ∈ s.occurrences o.span := by
    rw [← filter_occurrences hs, h]
    simp
  obtain ⟨hi, hget⟩ := List.getElem?_eq_some_iff.1 hs
  have hsplit : spans = spans.take o.span ++ s :: spans.drop (o.span + 1) := by
    rw [← hget, ← List.drop_eq_getElem_cons hi, List.take_append_drop]
  rw [Span.occurrences_of_isConstant hconstant, List.mem_singleton] at hplace
  have hbefore : o ∉ occurrences (spans.take o.span) := by
    intro hmem
    obtain ⟨⟨t, j⟩, hj, ht⟩ := List.mem_flatMap.1 hmem
    have hlt := List.snd_lt_add_of_mem_zipIdx hj
    rw [← span_of_mem_occurrences ht, List.length_take] at hlt
    omega
  have hlater : o ∉ ((spans.drop (o.span + 1)).zipIdx (o.span + 1)).flatMap
      fun x => x.1.occurrences x.2 := by
    intro hmem
    obtain ⟨⟨t, j⟩, hj, ht⟩ := List.mem_flatMap.1 hmem
    have hle := List.le_snd_of_mem_zipIdx hj
    rw [← span_of_mem_occurrences ht] at hle
    omega
  have hwhole : occurrences spans = occurrences (spans.take o.span) ++
      o :: ((spans.drop (o.span + 1)).zipIdx (o.span + 1)).flatMap
        fun x => x.1.occurrences x.2 := by
    have hlength : (spans.take o.span).length = o.span := by
      rw [List.length_take]
      omega
    conv_lhs => rw [hsplit, occurrences, List.zipIdx_append, List.flatMap_append, hlength,
      Nat.zero_add, List.zipIdx_cons, List.flatMap_cons]
    simp only [Span.occurrences_of_isConstant hconstant, ← hplace]
    rfl
  rw [h] at hwhole
  exact ((List.append_cons_inj_of_notMem hbefore hlater).1 hwhole.symm).1.symm

/-- Whether a constant is an argument is told by what stands before it outside of holes. -/
theorem callableAfter_of_constant {front back : List Occurrence} {o : Occurrence}
    (h : occurrences spans = front ++ o :: back) (ho : isConstantIn spans o = true) :
    callableAfter (spans.take o.span) = (Cursor.frameAfter none front).any Mark.endsCallee := by
  rw [front_of_constant h ho, frameAfter_occurrences, callableAfter]

end
end LuaVeil
