/-
# Seams of code

Where two pieces of code meet, a token of the first may go on in the second. The
solid labels of a piece of code are the labels of its tokens without trivia.

Main statements:

* `solidLabels_append_of_parted`, two pieces that are parted keep their solid
  labels when they are put together;
* `length_solidLabels_append_of_fused`, a name with something after it that
  comes after a word or a number is lost in it.
-/
import LuaVeil.Proofs.Lua.Labels

namespace LuaVeil

/-! ## Characters of tokens -/

theorem not_isAsciiBlank_of_isNumeralChar {c : Char} (h : isNumeralChar c = true) :
    Text.isAsciiBlank c = false := by
  by_contra hb
  simp only [Text.isAsciiBlank, Text.isSeparator, Bool.not_eq_false, Bool.or_eq_true,
    beq_iff_eq] at hb
  rcases hb with (((rfl | rfl) | rfl) | rfl) | rfl <;> exact absurd h (by decide)

/-- The letters of ASCII stand in two ranges. -/
theorem toNat_of_isAlpha {c : Char} (h : c.isAlpha = true) :
    65 ≤ c.toNat ∧ c.toNat ≤ 90 ∨ 97 ≤ c.toNat ∧ c.toNat ≤ 122 := by
  have halpha : c.isAlpha = (decide (c.val ≥ 65 ∧ c.val ≤ 90) ||
      (decide (c.val ≥ 97) && decide (c.val ≤ 122))) := rfl
  have hval : c.toNat = c.val.toNat := rfl
  simp only [halpha, Bool.or_eq_true, Bool.and_eq_true, decide_eq_true_eq, ge_iff_le,
    UInt32.le_iff_toNat_le] at h
  rw [hval]
  exact h

theorem toNat_of_isDigit {c : Char} (h : c.isDigit = true) : 48 ≤ c.toNat ∧ c.toNat ≤ 57 := by
  have hdigit : c.isDigit = (decide (c.val ≥ 48) && decide (c.val ≤ 57)) := rfl
  have hval : c.toNat = c.val.toNat := rfl
  simp only [hdigit, Bool.and_eq_true, decide_eq_true_eq, ge_iff_le, UInt32.le_iff_toNat_le] at h
  rw [hval]
  exact h

theorem isDigit_of_isWordStart {c : Char} (h : isWordStart c = true) : c.isDigit = false := by
  rw [isWordStart, Bool.or_eq_true, beq_iff_eq] at h
  rw [← Bool.not_eq_true]
  intro hdigit
  have hrange := toNat_of_isDigit hdigit
  rcases h with h | rfl
  · have := toNat_of_isAlpha h
    omega
  · exact absurd hdigit (by decide)

theorem isNumeralChar_of_isWordChar {c : Char} (h : isWordChar c = true) :
    isNumeralChar c = true := by
  rw [isWordChar] at h
  rw [isNumeralChar, h, Bool.true_or]

theorem isWordChar_of_isWordStart {c : Char} (h : isWordStart c = true) : isWordChar c = true := by
  simp only [isWordStart, isWordChar, Char.isAlphanum, Bool.or_eq_true] at h ⊢
  rcases h with h | h
  · exact .inl (.inl h)
  · exact .inr h

/-- The characters of a numeral are numeral characters and signs. -/
theorem mem_numeralTail {hex : Bool} {t : Text} {d : Char} (h : d ∈ (numeralTail hex t).1) :
    isNumeralChar d = true ∨ d = '+' ∨ d = '-' := by
  fun_induction numeralTail hex t with
  | case1 => simp at h
  | case2 c hc => simp_all
  | case3 => simp at h
  | case4 c e t hs more rest hm ih =>
    simp only [hm] at ih
    rw [Bool.and_eq_true, Bool.or_eq_true, beq_iff_eq, beq_iff_eq] at hs
    rcases List.mem_cons.1 h with rfl | h
    · exact .inl (isNumeralChar_of_isExponentMark hs.1)
    rcases List.mem_cons.1 h with rfl | h
    · exact .inr hs.2
    · exact ih h
  | case5 c e t hs hc more rest hm ih =>
    simp only [hm] at ih
    rw [Bool.and_eq_true] at hc
    rcases List.mem_cons.1 h with rfl | h
    · exact .inl hc.1
    · exact ih h
  | case6 => simp at h

/-- The further characters of a symbol are those of long symbols. -/
theorem mem_symbolTail {c d : Char} {t : Text} (h : d ∈ symbolTail c t) :
    ∃ l ∈ longSymbols, d ∈ l := by
  unfold symbolTail at h
  split at h
  · next l hl => exact ⟨l, List.mem_of_find?_eq_some hl, List.mem_of_mem_drop h⟩
  · simp at h

/-- The characters that no long symbol holds. -/
def partsSymbols (d : Char) : Bool :=
  longSymbols.all fun l => !l.contains d

theorem not_mem_of_partsSymbols {d : Char} (h : partsSymbols d = true) :
    ∀ l ∈ longSymbols, d ∉ l := by
  intro l hl hd
  have hall := List.all_eq_true.1 h l hl
  simp [hd] at hall

/-! ## Texts that are parted -/

/-- Whether the last token of a text is a word or a number. -/
def endsOpenly (code : Text) : Bool :=
  (labels code).getLast?.any fun l => l.1 == .word || l.1 == .number

/--
Whether two pieces of code are parted: the first ends in a blank or a closing bracket, or the
second begins with a blank, with a bracket, or with an underscore after a symbol.
-/
def Parted (a b : Text) : Prop :=
  (∃ c, a.getLast? = some c ∧ (Text.isAsciiBlank c = true ∨ c = ')' ∨ c = ']')) ∨
    ∃ d, b.head? = some d ∧
      (Text.isAsciiBlank d = true ∨ d = '(' ∨ (d = '_' ∧ endsOpenly a = false))

/-- The labels of the tokens of a text that are not trivia. -/
def solidLabels (code : Text) : List (TokenKind × Text) :=
  (significantTokens code).map Token.label

/-- The label itself, if it is not that of trivia. -/
def keepSolid (l : TokenKind × Text) : List (TokenKind × Text) :=
  if l.1 == .blank || l.1 == .newline then [] else [l]

theorem solidLabels_eq (code : Text) : solidLabels code = (labels code).flatMap keepSolid := by
  rw [solidLabels, significantTokens, labels]
  induction tokenize code with
  | nil => rfl
  | cons t ts ih =>
    rw [List.map_cons, List.flatMap_cons, ← ih, List.filter_cons, keepSolid]
    cases ht : t.isTrivia <;> rw [Token.isTrivia] at ht <;> simp [Token.label, ht]

theorem solidLabels_cons (c : Char) (t : Text) :
    solidLabels (c :: t) =
      keepSolid ((lexeme c t).kind, c :: (lexeme c t).tail) ++ solidLabels (lexeme c t).rest := by
  rw [solidLabels_eq, labels_cons, List.flatMap_cons, solidLabels_eq]

/-- Separators at the start of a text have no solid labels. -/
theorem solidLabels_dropWhile (t : Text) :
    solidLabels (t.dropWhile Text.isSeparator) = solidLabels t := by
  cases t with
  | nil => rfl
  | cons c t =>
    by_cases hc : Text.isSeparator c = true
    · have hnl : ¬ (c == '\n') = true := by
        intro h
        rw [beq_iff_eq.1 h] at hc
        exact absurd hc (by decide)
      rw [List.dropWhile_cons_of_pos hc, solidLabels_cons c t]
      simp [lexeme, hc, hnl, keepSolid]
    · rw [List.dropWhile_cons_of_neg hc]

/-- A blank at the start of a text has no solid label. -/
theorem solidLabels_cons_of_isAsciiBlank {c : Char} (hc : Text.isAsciiBlank c = true) (t : Text) :
    solidLabels (c :: t) = solidLabels t := by
  by_cases hnl : c = '\n'
  · subst hnl
    rw [solidLabels_cons]
    rfl
  · have hsep : Text.isSeparator c = true := by simpa [Text.isAsciiBlank, hnl] using hc
    rw [← solidLabels_dropWhile (c :: t), List.dropWhile_cons_of_pos hsep, solidLabels_dropWhile]

/-- Blanks have no solid labels. -/
theorem solidLabels_eq_nil {t : Text} (h : ∀ c ∈ t, Text.isAsciiBlank c = true) :
    solidLabels t = [] := by
  induction t with
  | nil => simp [solidLabels_eq]
  | cons c t ih =>
    obtain ⟨hc, ht⟩ := List.forall_mem_cons.1 h
    rw [solidLabels_cons_of_isAsciiBlank hc, ih ht]

/-- The first character of a token that is not trivia is no blank. -/
theorem not_isAsciiBlank_of_reads {kind : TokenKind} {c : Char} {t tail rest : Text}
    (h : kind.Reads c t tail rest) (hkind : kind ≠ .blank ∧ kind ≠ .newline) :
    Text.isAsciiBlank c = false := by
  have hplain : c ≠ '\n' ∧ Text.isSeparator c = false := by
    cases kind with
    | newline => exact absurd rfl hkind.2
    | blank => exact absurd rfl hkind.1
    | word => exact ⟨h.1, h.2.1⟩
    | number => exact ⟨h.1, h.2.1⟩
    | symbol => exact ⟨h.1, h.2.1⟩
  simp [Text.isAsciiBlank, hplain]

/-- The further characters of a token that is not trivia. -/
theorem mem_tail_of_reads {kind : TokenKind} {c d : Char} {t : Text}
    (h : kind.Reads c t t []) (hkind : kind ≠ .blank ∧ kind ≠ .newline) (hd : d ∈ t) :
    isNumeralChar d = true ∨ ∃ l ∈ longSymbols, d ∈ l := by
  cases kind with
  | newline => exact absurd rfl hkind.2
  | blank => exact absurd rfl hkind.1
  | word =>
    have hall := List.dropWhile_eq_nil_iff.1 h.2.2.2.2 d hd
    exact .inl (isNumeralChar_of_isWordChar hall)
  | number =>
    have hmem := mem_numeralTail (by rwa [h.2.2.2.2])
    rcases hmem with hmem | rfl | rfl
    · exact .inl hmem
    · exact .inr (by decide)
    · exact .inr (by decide)
  | symbol => exact .inr (mem_symbolTail (by rwa [h.2.2.2.2.1]))

/-- Tokens that are not trivia hold no blanks. -/
theorem not_isAsciiBlank_of_lexeme {kind : TokenKind} {c d : Char} {t : Text}
    (h : lexeme c t = ⟨kind, t, []⟩) (hkind : kind ≠ .blank ∧ kind ≠ .newline) (hd : d ∈ c :: t) :
    Text.isAsciiBlank d = false := by
  rw [lexeme_eq_iff] at h
  rcases List.mem_cons.1 hd with rfl | hd
  · exact not_isAsciiBlank_of_reads h hkind
  rcases mem_tail_of_reads h hkind hd with hd | ⟨l, hl, hd⟩
  · exact not_isAsciiBlank_of_isNumeralChar hd
  · have hall : (longSymbols.all fun l => l.all fun d => !Text.isAsciiBlank d) = true := by decide
    have hsymbol := List.all_eq_true.1 (List.all_eq_true.1 hall l hl) d hd
    simpa using hsymbol

/-- A token that ends in a closing bracket is that bracket. -/
theorem eq_of_getLast?_close {kind : TokenKind} {c d : Char} {t : Text}
    (h : lexeme c t = ⟨kind, t, []⟩) (hkind : kind ≠ .blank ∧ kind ≠ .newline)
    (hlast : (c :: t).getLast? = some d) (hd : d = ')' ∨ d = ']') :
    kind = .symbol ∧ c = d ∧ t = [] := by
  have hplain : isNumeralChar d = false ∧ partsSymbols d = true ∧ d ≠ '.' := by
    rcases hd with rfl | rfl <;> decide
  obtain ⟨hnumeral, hsymbol, hpoint⟩ := hplain
  rw [lexeme_eq_iff] at h
  cases t with
  | cons e t =>
    have hmem : d ∈ e :: t := List.mem_of_getLast? (by rwa [List.getLast?_cons_cons] at hlast)
    rcases mem_tail_of_reads h hkind hmem with hmem | ⟨l, hl, hmem⟩
    · rw [hnumeral] at hmem
      exact absurd hmem (by simp)
    · exact absurd hmem (not_mem_of_partsSymbols hsymbol l hl)
  | nil =>
    obtain rfl : c = d := by simpa using hlast
    refine ⟨?_, rfl, rfl⟩
    cases kind with
    | newline => exact absurd rfl hkind.2
    | blank => exact absurd rfl hkind.1
    | symbol => rfl
    | word =>
      have hword := isNumeralChar_of_isWordChar (isWordChar_of_isWordStart h.2.2.1)
      rw [hnumeral] at hword
      exact absurd hword (by simp)
    | number =>
      have hstart := h.2.2.2.1
      rcases hd with rfl | rfl <;> exact absurd hstart (by decide)

/-- A symbol ends where a character follows that no long symbol holds. -/
theorem stopsSymbol_of_partsSymbols {c d : Char} {t b : Text} (hd : partsSymbols d = true)
    (hdigit : d.isDigit = false) : StopsSymbol c t (d :: b) := by
  refine ⟨fun l hl hp => ?_, ?_⟩
  · by_contra hn
    -- a long symbol that goes beyond `c :: t` holds `d`
    have hlen : (c :: t).length < l.length := by
      by_contra hle
      refine hn (List.prefix_of_prefix_length_le hp ?_ (by omega))
      exact ⟨d :: b, by simp⟩
    have hlong : c :: t ++ [d] <+: l := by
      have hwhole : c :: t ++ [d] <+: c :: (t ++ d :: b) := ⟨b, by simp⟩
      refine List.prefix_of_prefix_length_le hwhole hp ?_
      rw [List.length_append, List.length_singleton]
      omega
    exact not_mem_of_partsSymbols hd l hl (hlong.subset (by simp))
  · rintro - - e he
    obtain rfl : d = e := by simpa using he
    exact hdigit

/-- No symbol goes on behind a closing bracket. -/
theorem stopsSymbol_of_close {c : Char} (hc : c = ')' ∨ c = ']') (b : Text) :
    StopsSymbol c [] b := by
  have hheads : ∀ l ∈ longSymbols, l.head? ≠ some c := by
    rcases hc with rfl | rfl <;> decide
  refine ⟨fun l hl hp => ?_, fun hpoint => ?_⟩
  · cases l with
    | nil => exact List.nil_prefix
    | cons e l =>
      obtain rfl : e = c := (List.cons_prefix_cons.1 hp).1
      exact absurd rfl (hheads _ hl)
  · rcases hc with rfl | rfl <;> exact absurd hpoint (by decide)

/-- Tokens that are not trivia end at a blank or a bracket, and symbols at an underscore. -/
theorem stopsToken_of_head {kind : TokenKind} {c d : Char} {t b : Text}
    (hkind : kind ≠ .blank ∧ kind ≠ .newline)
    (hd : Text.isAsciiBlank d = true ∨ d = '(' ∨ (d = '_' ∧ kind ≠ .word ∧ kind ≠ .number)) :
    StopsToken kind c t (d :: b) := by
  have hblank : Text.isAsciiBlank d = true →
      (partsSymbols d = true ∧ d.isDigit = false) ∧
        isNumeralChar d = false ∧ d ≠ '+' ∧ d ≠ '-' := by
    intro hblank
    simp only [Text.isAsciiBlank, Text.isSeparator, Bool.or_eq_true, beq_iff_eq] at hblank
    rcases hblank with (((rfl | rfl) | rfl) | rfl) | rfl <;> decide
  have hsymbol : partsSymbols d = true ∧ d.isDigit = false := by
    rcases hd with hd | rfl | ⟨rfl, -⟩
    · exact (hblank hd).1
    · decide
    · decide
  have hword : kind = .word ∨ kind = .number → isNumeralChar d = false ∧ d ≠ '+' ∧ d ≠ '-' := by
    intro hopen
    rcases hd with hd | rfl | ⟨-, hno⟩
    · exact (hblank hd).2
    · decide
    · exact absurd hopen (not_or.2 hno)
  cases kind with
  | blank => exact absurd rfl hkind.1
  | newline => exact absurd rfl hkind.2
  | symbol => exact stopsSymbol_of_partsSymbols hsymbol.1 hsymbol.2
  | word =>
    intro e he
    obtain rfl : d = e := by simpa using he
    have hd := (hword (.inl rfl)).1
    simp only [isNumeralChar, Bool.or_eq_false_iff] at hd
    rw [isWordChar, hd.1.1, hd.1.2]
    rfl
  | number =>
    intro e he
    obtain rfl : d = e := by simpa using he
    obtain ⟨hd, hplus, hminus⟩ := hword (.inr rfl)
    refine ⟨hd, fun hsign => ?_⟩
    rw [Bool.or_eq_true, beq_iff_eq, beq_iff_eq] at hsign
    exact absurd hsign (not_or.2 ⟨hplus, hminus⟩)

/-- Two pieces of code that are parted keep their solid labels. -/
theorem solidLabels_append_of_parted {a b : Text} (h : Parted a b) :
    solidLabels (a ++ b) = solidLabels a ++ solidLabels b := by
  by_cases ha : a = []
  · subst ha
    simp [solidLabels_eq]
  obtain ⟨front, k, c, t, hlabels, hlex, hsuffix, happend⟩ := exists_lastToken ha
  have hend : a.getLast? = (c :: t).getLast? := by
    obtain ⟨pre, rfl⟩ := hsuffix
    rw [List.getLast?_append, List.getLast?_eq_some_getLast (List.cons_ne_nil c t), Option.some_or]
  have hlast : (labels a).getLast? = some (k, c :: t) := by simp [hlabels]
  suffices (labels (c :: (t ++ b))).flatMap keepSolid =
      keepSolid (k, c :: t) ++ (labels b).flatMap keepSolid by
    simp only [solidLabels_eq, happend, hlabels, List.flatMap_append, this, List.append_assoc]
    simp
  have hgo : lexeme c (t ++ b) = ⟨k, t, b⟩ →
      (labels (c :: (t ++ b))).flatMap keepSolid =
        keepSolid (k, c :: t) ++ (labels b).flatMap keepSolid := by
    intro hl
    rw [labels_cons, hl, List.flatMap_cons]
  by_cases hk : k = .blank
  · subst hk
    obtain ⟨hnl, hsep, -, hrest⟩ := lexeme_eq_iff.1 hlex
    have hread : lexeme c (t ++ b) = ⟨.blank, _, _⟩ := lexeme_eq_iff.2 ⟨hnl, hsep, rfl, rfl⟩
    rw [← solidLabels_eq, ← solidLabels_eq, solidLabels_cons, hread,
      List.dropWhile_append_of_pos (List.dropWhile_eq_nil_iff.1 hrest), solidLabels_dropWhile]
    rfl
  by_cases hk' : k = .newline
  · subst hk'
    refine hgo (lexeme_append_of_stop hlex trivial)
  refine hgo (lexeme_append_of_stop hlex ?_)
  rcases h with ⟨d, hd, hclose⟩ | ⟨d, hd, hopen⟩
  · rw [hend] at hd
    rcases hclose with hblank | hclose
    · rw [not_isAsciiBlank_of_lexeme hlex ⟨hk, hk'⟩ (List.mem_of_getLast? hd)] at hblank
      cases hblank
    · obtain ⟨rfl, rfl, rfl⟩ := eq_of_getLast?_close hlex ⟨hk, hk'⟩ hd hclose
      exact stopsSymbol_of_close hclose b
  · obtain ⟨b, rfl⟩ : ∃ b', b = d :: b' := by
      cases b with
      | nil => simp at hd
      | cons e b => exact ⟨b, by simpa using hd⟩
    rw [endsOpenly, hlast] at hopen
    exact stopsToken_of_head ⟨hk, hk'⟩ (by simpa using hopen)

/-! ## Texts that are fused -/

/-- A numeral goes on with all word characters. -/
theorem numeralTail_append_word {hex : Bool} {t w : Text} (h : (numeralTail hex t).2 = [])
    (hw : ∀ d ∈ w, isWordChar d = true) : numeralTail hex (t ++ w) = (t ++ w, []) := by
  have hplain : ∀ d, isWordChar d = true → isNumeralChar d = true ∧ d ≠ '.' ∧
      ¬ (d == '+' || d == '-') = true := by
    intro d hd
    refine ⟨isNumeralChar_of_isWordChar hd, ?_, ?_⟩
    · rintro rfl
      exact absurd hd (by decide)
    · rw [Bool.or_eq_true, beq_iff_eq, beq_iff_eq]
      rintro (rfl | rfl) <;> exact absurd hd (by decide)
  have hword : ∀ w : Text, (∀ d ∈ w, isWordChar d = true) → numeralTail hex w = (w, []) := by
    intro w hw
    induction w with
    | nil => rfl
    | cons c w ih =>
      obtain ⟨hc, hpoint, -⟩ := hplain c (hw c List.mem_cons_self)
      have ih' := ih fun d hd => hw d (List.mem_cons_of_mem c hd)
      cases w with
      | nil => simp [numeralTail, hc]
      | cons d w =>
        obtain ⟨-, -, hsign⟩ := hplain d (hw d (by simp))
        simp [numeralTail, hc, hpoint, hsign, ih']
  fun_induction numeralTail hex t with
  | case1 => exact hword w hw
  | case2 c hc =>
    cases w with
    | nil => simp [numeralTail, hc]
    | cons d w =>
      obtain ⟨-, hpoint, hsign⟩ := hplain d (hw d List.mem_cons_self)
      simp [numeralTail, hc, hpoint, hsign, hword (d :: w) hw]
  | case3 c hc => simp at h
  | case4 c d t hs more rest hm ih =>
    simp only [hm] at h ih
    simp [numeralTail, hs, ih h]
  | case5 c d t hs hc more rest hm ih =>
    simp only [hm] at h ih
    have ih' := ih h
    rw [List.cons_append] at ih'
    simp only [List.cons_append, numeralTail, if_neg hs, if_pos hc, ih']
  | case6 c d t hs hc => simp at h

/-- A word or number to the end of a text goes on with a name that follows. -/
theorem lexeme_append_word {kind : TokenKind} {c : Char} {t w : Text}
    (h : lexeme c t = ⟨kind, t, []⟩) (hkind : kind = .word ∨ kind = .number)
    (hw : ∀ d ∈ w, isWordChar d = true) :
    lexeme c (t ++ '_' :: w) = ⟨kind, t ++ '_' :: w, []⟩ := by
  have hw' : ∀ d ∈ '_' :: w, isWordChar d = true := by
    intro d hd
    rcases List.mem_cons.1 hd with rfl | hd
    · decide
    · exact hw d hd
  rw [lexeme_eq_iff] at h ⊢
  rcases hkind with rfl | rfl
  · obtain ⟨hnl, hsep, hword, -, hrest⟩ := h
    have hall : ∀ d ∈ t ++ '_' :: w, isWordChar d = true := by
      intro d hd
      rcases List.mem_append.1 hd with hd | hd
      · exact List.dropWhile_eq_nil_iff.1 hrest d hd
      · exact hw' d hd
    exact ⟨hnl, hsep, hword, List.takeWhile_eq_self_iff.2 hall, List.dropWhile_eq_nil_iff.2 hall⟩
  · obtain ⟨hnl, hsep, hword, hnum, hread⟩ := h
    have hstart : isNumeralStart c (t ++ '_' :: w) = true ∧
        isHexStart c (t ++ '_' :: w) = isHexStart c t := by
      cases t with
      | cons d t => exact ⟨hnum, rfl⟩
      | nil =>
        have hdigit : c.isDigit = true := by simpa [isNumeralStart] using hnum
        exact ⟨by simp [isNumeralStart, hdigit], by simp [isHexStart]⟩
    refine ⟨hnl, hsep, hword, hstart.1, ?_⟩
    rw [hstart.2, numeralTail_append_word (by rw [hread]) hw']

/-- A name ends at a bracket. -/
theorem lexeme_name {w b : Text} (hw : ∀ d ∈ w, isWordChar d = true) :
    lexeme '_' (w ++ '[' :: b) = ⟨.word, w, '[' :: b⟩ := by
  refine lexeme_append_of_stop (lexeme_eq_iff.2 ⟨by decide, by decide, by decide, ?_, ?_⟩) ?_
  · exact List.takeWhile_eq_self_iff.2 hw
  · exact List.dropWhile_eq_nil_iff.2 hw
  · rintro d hd
    obtain rfl : '[' = d := by simpa using hd
    decide

/-- A name with a bracket after it, put after a word or a number, is lost in it. -/
theorem length_solidLabels_append_of_fused {a w b : Text} (ha : endsOpenly a = true)
    (hw : ∀ d ∈ w, isWordChar d = true) :
    (solidLabels (a ++ '_' :: (w ++ '[' :: b))).length + 1 =
      (solidLabels a).length + (solidLabels ('_' :: (w ++ '[' :: b))).length := by
  -- the last token of `a` takes the name, and the rest is read as before
  have hname : solidLabels ('_' :: (w ++ '[' :: b)) =
      (.word, '_' :: w) :: solidLabels ('[' :: b) := by
    rw [solidLabels_cons, lexeme_name hw]
    rfl
  have hne : a ≠ [] := by
    rintro rfl
    simp [endsOpenly] at ha
  obtain ⟨front, kind, c, t, hlabels, hlex, -, happend⟩ := exists_lastToken hne
  have hkind : kind = .word ∨ kind = .number := by simpa [endsOpenly, hlabels] using ha
  have hread := lexeme_append_of_stop (b := '[' :: b) (lexeme_append_word hlex hkind hw) ?_
  · rw [hname]
    rw [List.append_assoc, List.cons_append] at hread
    simp only [solidLabels_eq, happend, hlabels, List.flatMap_append, List.length_append,
      labels_cons c, hread, List.flatMap_cons, List.flatMap_nil, List.length_cons,
      List.append_nil, keepSolid]
    rcases hkind with rfl | rfl <;> simp <;> omega
  · rcases hkind with rfl | rfl
    · intro d hd
      obtain rfl : '[' = d := by simpa using hd
      decide
    · intro d hd
      obtain rfl : '[' = d := by simpa using hd
      exact ⟨by decide, fun hsign => absurd hsign (by decide)⟩

end LuaVeil
