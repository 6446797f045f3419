/-
# Lexemes of the grammar

The words, numerals and symbols of the grammar are read to their end, and no
further. None of them begins a string or a comment, and what begins one is cut
off where it ends.

Main statements:

* `lexeme_of_isNumeral`, `lexeme_of_isWord` and `lexeme_of_symbol`, a terminal is
  one token;
* `StaysCode`, code in front of a text goes on in it;
* `quotedBody?_of_content` and `longBody?_of_content`, a string or a comment
  ends where its closing delimiter is.
-/
import LuaVeil.Proofs.Grammar.Tree
import LuaVeil.Proofs.Lua.Seams

namespace LuaVeil

/-! ## Numerals -/

theorem numeralTail_append_plain {hex : Bool} {ds : Text} (b : Text)
    (hds : ∀ c ∈ ds, isNumeralChar c = true ∧ isExponentMark hex c = false ∧ c ≠ '.') :
    numeralTail hex (ds ++ b) = (ds ++ (numeralTail hex b).1, (numeralTail hex b).2) := by
  induction ds with
  | nil => rfl
  | cons c ds ih =>
    obtain ⟨⟨hc, hexp, hpoint⟩, hds⟩ := List.forall_mem_cons.1 hds
    have ih := ih hds
    cases hrest : ds ++ b with
    | nil =>
      obtain ⟨rfl, rfl⟩ := List.append_eq_nil_iff.1 hrest
      simp [numeralTail, hc]
    | cons d rest =>
      rw [hrest] at ih
      simp [numeralTail, hrest, hc, hexp, hpoint, ih]

theorem isNumeralChar_of_isDigit {c : Char} (h : c.isDigit = true) : isNumeralChar c = true := by
  simp [isNumeralChar, Char.isAlphanum, h]

theorem isExponentMark_of_isDigit {hex : Bool} {c : Char} (h : c.isDigit = true) :
    isExponentMark hex c = false ∧ c ≠ '.' := by
  constructor
  · by_contra hexp
    cases hex <;>
      simp only [isExponentMark, Bool.false_eq_true, if_false, if_true, Bool.not_eq_false,
        Bool.or_eq_true, beq_iff_eq] at hexp <;>
      rcases hexp with rfl | rfl <;> exact absurd h (by decide)
  · rintro rfl
    exact absurd h (by decide)

/-- Digits at the front of a text are the front of the numeral in it. -/
theorem numeralTail_append_digits {hex : Bool} {ds : Text} (b : Text)
    (hds : ∀ c ∈ ds, c.isDigit = true) :
    numeralTail hex (ds ++ b) = (ds ++ (numeralTail hex b).1, (numeralTail hex b).2) :=
  numeralTail_append_plain b fun c hc =>
    ⟨isNumeralChar_of_isDigit (hds c hc), isExponentMark_of_isDigit (hds c hc)⟩

/-- A point goes on with a numeral unless another point follows. -/
theorem numeralTail_point {hex : Bool} {t : Text} (h : t.head? ≠ some '.') :
    numeralTail hex ('.' :: t) = ('.' :: (numeralTail hex t).1, (numeralTail hex t).2) := by
  have hchar : isNumeralChar '.' = true ∧ ∀ hex, isExponentMark hex '.' = false := by decide
  cases t with
  | nil => simp [numeralTail, hchar.1]
  | cons d t =>
    have hd : d ≠ '.' := by simpa using h
    simp [numeralTail, hchar.1, hchar.2, hd]

/-- An exponent belongs to a decimal numeral. -/
theorem numeralTail_exponent {mark : Char} {sign ds : Text} (hmark : mark = 'e' ∨ mark = 'E')
    (hsign : sign = [] ∨ sign = ['+'] ∨ sign = ['-']) (hne : ds ≠ [])
    (hds : ∀ c ∈ ds, c.isDigit = true) :
    numeralTail false (mark :: (sign ++ ds)) = (mark :: (sign ++ ds), []) := by
  have hall : numeralTail false ds = (ds, []) := by
    have hdigits : numeralTail false (ds ++ []) = _ := numeralTail_append_digits [] hds
    simpa [numeralTail] using hdigits
  have hchar : isNumeralChar mark = true ∧ isExponentMark false mark = true ∧ mark ≠ '.' := by
    rcases hmark with rfl | rfl <;> decide
  rcases hsign with rfl | rfl | rfl
  · cases ds with
    | nil => exact absurd rfl hne
    | cons d ds =>
      have hd : ¬ (d == '+' || d == '-') = true := by
        have hdigit := hds d List.mem_cons_self
        rw [Bool.or_eq_true, beq_iff_eq, beq_iff_eq]
        rintro (rfl | rfl) <;> exact absurd hdigit (by decide)
      simp [numeralTail, hchar, hd, hall]
  · simp [numeralTail, hchar, hall]
  · simp [numeralTail, hchar, hall]

/-- A decimal numeral ends in a digit or a point. -/
theorem IsDecimal.getLast? {t : Text} (h : IsDecimal t) {e : Char} (he : t.getLast? = some e) :
    e.isDigit = true ∨ e = '.' := by
  obtain ⟨whole, fraction, exponent, rfl, hwhole, hfraction, hexponent⟩ := h.shape
  rcases hexponent with rfl | ⟨mark, sign, ds, rfl, -, -, hne, hds⟩
  · rw [List.append_nil] at he
    rcases List.mem_append.1 (List.mem_of_getLast? he) with hmem | hmem
    · exact .inl (hwhole e hmem)
    rcases hfraction with ⟨rfl, -⟩ | ⟨ds, rfl, hds, -⟩
    · exact absurd hmem List.not_mem_nil
    · rcases List.mem_cons.1 hmem with rfl | hmem
      · exact .inr rfl
      · exact .inl (hds e hmem)
  · have hlast : (whole ++ fraction ++ mark :: (sign ++ ds)).getLast? = ds.getLast? := by
      simp [List.getLast?_append, List.getLast?_cons, List.getLast?_eq_some_getLast hne]
    rw [hlast] at he
    exact .inl (hds e (List.mem_of_getLast? he))

/-- A decimal numeral is read to its end. -/
theorem IsDecimal.reads {c : Char} {t : Text} (h : IsDecimal (c :: t)) :
    isNumeralStart c t = true ∧ isHexStart c t = false ∧ numeralTail false t = (t, []) := by
  obtain ⟨whole, fraction, exponent, ht, hwhole, hfraction, hexponent⟩ := h.shape
  have hexp : numeralTail false exponent = (exponent, []) := by
    rcases hexponent with rfl | ⟨mark, sign, ds, rfl, hmark, hsign, hne, hds⟩
    · rfl
    · exact numeralTail_exponent hmark hsign hne hds
  have hexphead : exponent.head? ≠ some '.' ∧ exponent.head? ≠ some 'x' ∧
      exponent.head? ≠ some 'X' := by
    rcases hexponent with rfl | ⟨mark, sign, ds, rfl, rfl | rfl, -⟩ <;> simp
  have hdigitx : ∀ d : Char, d.isDigit = true → d ≠ 'x' ∧ d ≠ 'X' ∧ d ≠ '.' := by
    intro d hd
    refine ⟨?_, ?_, ?_⟩ <;> rintro rfl <;> exact absurd hd (by decide)
  -- what follows the digits before the point
  have hrest : numeralTail false (fraction ++ exponent) = (fraction ++ exponent, []) ∧
      (fraction ++ exponent).head? ≠ some 'x' ∧ (fraction ++ exponent).head? ≠ some 'X' := by
    rcases hfraction with ⟨rfl, -⟩ | ⟨ds, rfl, hds, -⟩
    · exact ⟨hexp, hexphead.2⟩
    · refine ⟨?_, by simp, by simp⟩
      have hpoint : (ds ++ exponent).head? ≠ some '.' := by
        cases ds with
        | nil => exact hexphead.1
        | cons d ds => simpa using (hdigitx d (hds d List.mem_cons_self)).2.2
      rw [List.cons_append, numeralTail_point hpoint, numeralTail_append_digits exponent hds, hexp]
  cases whole with
  | cons d whole =>
    rw [List.append_assoc, List.cons_append] at ht
    obtain ⟨rfl, rfl⟩ := List.cons.inj ht
    obtain ⟨hc, hwhole⟩ := List.forall_mem_cons.1 hwhole
    refine ⟨by simp [isNumeralStart, hc], ?_, ?_⟩
    · have hx : (whole ++ (fraction ++ exponent)).head? ≠ some 'x' ∧
          (whole ++ (fraction ++ exponent)).head? ≠ some 'X' := by
        cases whole with
        | nil => exact hrest.2
        | cons d whole =>
          obtain ⟨hx, hX, -⟩ := hdigitx d (hwhole d List.mem_cons_self)
          exact ⟨by simpa using hx, by simpa using hX⟩
      rw [isHexStart]
      cases hhead : (whole ++ (fraction ++ exponent)).head? with
      | none => simp
      | some d =>
        rw [hhead] at hx
        have hd : d ≠ 'x' ∧ d ≠ 'X' := ⟨by simpa using hx.1, by simpa using hx.2⟩
        simp [hd]
    · rw [numeralTail_append_digits _ hwhole, hrest.1]
  | nil =>
    obtain ⟨ds, rfl, hds, hne⟩ := hfraction.resolve_left fun h => h.2 rfl
    have hne : ds ≠ [] := hne.resolve_left fun h => h rfl
    rw [List.nil_append, List.cons_append] at ht
    obtain ⟨rfl, rfl⟩ := List.cons.inj ht
    obtain ⟨d, more, rfl⟩ := List.exists_cons_of_ne_nil hne
    have hd := hds d List.mem_cons_self
    refine ⟨by simp [isNumeralStart, hd], by simp [isHexStart], ?_⟩
    rw [numeralTail_append_digits exponent hds, hexp]

theorem isHexDigit_plain {c : Char} (h : isHexDigit c = true) :
    isNumeralChar c = true ∧ isExponentMark true c = false ∧ c ≠ '.' := by
  rw [isHexDigit, Bool.or_eq_true] at h
  rcases h with h | h
  · exact ⟨isNumeralChar_of_isDigit h, isExponentMark_of_isDigit h⟩
  · have hall : ("abcdefABCDEF".toList.all fun c =>
        isNumeralChar c && !isExponentMark true c && c != '.') = true := by decide
    have hc := List.all_eq_true.1 hall c (by simpa using h)
    simpa [and_assoc] using hc

/-- Two points end a numeral that does not end in a point. -/
theorem numeralTail_append_points {hex : Bool} {t : Text} (h : (numeralTail hex t).2 = [])
    (ht : t.getLast? ≠ some '.') (rest : Text) :
    numeralTail hex (t ++ '.' :: '.' :: rest) = (t, '.' :: '.' :: rest) := by
  have hpoint : isExponentMark hex '.' = false := by cases hex <;> rfl
  fun_induction numeralTail hex t with
  | case1 => simp [numeralTail, hpoint]
  | case2 c hc =>
    have hc' : c ≠ '.' := by simpa using ht
    simp [numeralTail, hpoint, hc, hc']
  | case3 c hc => simp at h
  | case4 c d t hs more rest' hm ih =>
    have ht' : t.getLast? ≠ some '.' := by
      cases t with
      | nil => simp
      | cons e t => simpa using ht
    simp only [hm] at h ih
    have ih' := ih h ht'
    simp [numeralTail, hs, ih']
  | case5 c d t hs hc more rest' hm ih =>
    simp only [hm] at h ih
    have ih' := ih h (by simpa using ht)
    rw [List.cons_append] at ih'
    simp only [List.cons_append, numeralTail, if_neg hs, if_pos hc, ih']
  | case6 c d t hs hc => simp at h

/-- A numeral is one token in front of what is no part of it. -/
theorem lexeme_of_isNumeral {c : Char} {t rest : Text} (h : IsNumeral (c :: t))
    (hrest : (∀ d, rest.head? = some d → isNumeralChar d = false) ∨
      ((c :: t).getLast? ≠ some '.' ∧ ['.', '.'] <+: rest)) :
    lexeme c (t ++ rest) = ⟨.number, t, rest⟩ := by
  have key : isNumeralStart c t = true ∧ numeralTail (isHexStart c t) t = (t, []) ∧
      ∀ e, t.getLast? = some e → isExponentMark (isHexStart c t) e = false := by
    rcases h with h | ⟨mark, ds, ht, hmark, hne, hds⟩
    · obtain ⟨hstart, hhex, hread⟩ := h.reads
      rw [hhex]
      refine ⟨hstart, hread, fun e he => ?_⟩
      have hlast : (c :: t).getLast? = some e := by
        rw [List.getLast?_cons, he, Option.getD_some]
      rcases h.getLast? hlast with he | rfl
      · exact (isExponentMark_of_isDigit he).1
      · decide
    · obtain ⟨rfl, rfl⟩ := List.cons.inj ht
      have hhex : isHexStart '0' (mark :: ds) = true := by
        rcases hmark with rfl | rfl <;> rfl
      have hall : ∀ c ∈ mark :: ds,
          isNumeralChar c = true ∧ isExponentMark true c = false ∧ c ≠ '.' := by
        refine List.forall_mem_cons.2 ⟨?_, fun c hc => isHexDigit_plain (hds c hc)⟩
        rcases hmark with rfl | rfl <;> decide
      rw [hhex]
      refine ⟨rfl, ?_, fun e he => (hall e (List.mem_of_getLast? he)).2.1⟩
      have hread := numeralTail_append_plain [] hall
      simpa [numeralTail] using hread
  obtain ⟨hstart, hread, hlast⟩ := key
  have hplain : c ≠ '\n' ∧ Text.isSeparator c = false ∧ isWordStart c = false := by
    rw [isNumeralStart, Bool.or_eq_true, Bool.and_eq_true, beq_iff_eq] at hstart
    rcases hstart with hdigit | ⟨rfl, -⟩
    · refine ⟨?_, ?_, ?_⟩
      · rintro rfl
        exact absurd hdigit (by decide)
      · by_contra hsep
        simp only [Text.isSeparator, Bool.not_eq_false, Bool.or_eq_true, beq_iff_eq] at hsep
        rcases hsep with ((rfl | rfl) | rfl) | rfl <;> exact absurd hdigit (by decide)
      · by_contra hword
        rw [isDigit_of_isWordStart (by simpa using hword)] at hdigit
        cases hdigit
    · decide
  have hlex : lexeme c t = ⟨.number, t, []⟩ :=
    lexeme_eq_iff.2 ⟨hplain.1, hplain.2.1, hplain.2.2, hstart, hread⟩
  rcases hrest with hrest | ⟨hlast, rest, rfl⟩
  · exact lexeme_append_of_stop hlex fun d hd => ⟨hrest d hd, fun _ => hlast⟩
  · have ht : t.getLast? ≠ some '.' := by
      cases t with
      | nil => simp
      | cons d t => simpa using hlast
    have hsame : isNumeralStart c (t ++ '.' :: '.' :: rest) = true ∧
        isHexStart c (t ++ '.' :: '.' :: rest) = isHexStart c t := by
      cases t with
      | cons d t => exact ⟨hstart, rfl⟩
      | nil => simp_all [isNumeralStart, isHexStart]
    refine lexeme_eq_iff.2 ⟨hplain.1, hplain.2.1, hplain.2.2, hsame.1, ?_⟩
    rw [List.cons_append, List.cons_append, List.nil_append, hsame.2]
    exact numeralTail_append_points (by rw [hread]) ht rest

theorem not_isNumeral_nil : ¬ IsNumeral [] := by
  rintro (h | ⟨mark, ds, h, -⟩)
  · obtain ⟨whole, fraction, exponent, ht, -, hfraction, -⟩ := h.shape
    simp only [List.nil_eq, List.append_eq_nil_iff] at ht
    obtain ⟨⟨rfl, rfl⟩, -⟩ := ht
    rcases hfraction with ⟨-, hne⟩ | ⟨ds, hds, -⟩
    · exact hne rfl
    · exact List.cons_ne_nil _ _ hds.symm
  · exact List.cons_ne_nil _ _ h.symm

/-! ## Words and symbols -/

theorem isWord_cons {c : Char} {t : Text} :
    isWord (c :: t) = true ↔ isWordStart c = true ∧ ∀ d ∈ t, isWordChar d = true := by
  rw [isWord, Bool.and_eq_true, List.all_eq_true]

theorem not_isAsciiBlank_of_isWordStart {c : Char} (h : isWordStart c = true) :
    c ≠ '\n' ∧ Text.isSeparator c = false := by
  have hblank := not_isAsciiBlank_of_isNumeralChar
    (isNumeralChar_of_isWordChar (isWordChar_of_isWordStart h))
  rw [Text.isAsciiBlank, Bool.or_eq_false_iff, beq_eq_false_iff_ne] at hblank
  exact ⟨hblank.2, hblank.1⟩

/-- A word is one token in front of what is no part of it. -/
theorem lexeme_of_isWord {c : Char} {t rest : Text} (h : isWord (c :: t) = true)
    (hrest : ∀ d, rest.head? = some d → isWordChar d = false) :
    lexeme c (t ++ rest) = ⟨.word, t, rest⟩ := by
  obtain ⟨hc, ht⟩ := isWord_cons.1 h
  obtain ⟨hnl, hsep⟩ := not_isAsciiBlank_of_isWordStart hc
  refine lexeme_append_of_stop (lexeme_eq_iff.2 ⟨hnl, hsep, hc, ?_, ?_⟩) hrest
  · exact List.takeWhile_eq_self_iff.2 ht
  · exact List.dropWhile_eq_nil_iff.2 ht

/-- A symbol is one token in front of what is no part of it. -/
theorem lexeme_of_symbol {c : Char} {t rest : Text} (h : c :: t ∈ luaSymbols)
    (hlong : ∀ l ∈ longSymbols, l <+: c :: t ++ rest → l <+: c :: t)
    (hpoint : c :: t = ['.'] → ∀ d, rest.head? = some d → d.isDigit = false) :
    lexeme c (t ++ rest) = ⟨.symbol, t, rest⟩ := by
  have hall : (luaSymbols.all fun s =>
      let l := lexeme (s.headD ' ') s.tail
      l.kind == .symbol && l.tail == s.tail && l.rest.isEmpty) = true := by decide +kernel
  have hread := List.all_eq_true.1 hall (c :: t) h
  rcases hlex : lexeme c t with ⟨kind, tail, rest'⟩
  simp only [List.headD_cons, List.tail_cons, hlex, Bool.and_eq_true, beq_iff_eq,
    List.isEmpty_iff] at hread
  obtain ⟨⟨rfl, rfl⟩, rfl⟩ := hread
  exact lexeme_append_of_stop hlex ⟨hlong, fun hc ht => hpoint (by rw [hc, ht])⟩

/-! ## Where code goes on -/

/-- Whether no long bracket opens at the start of a text. -/
def NoLongBracket (t : Text) : Prop :=
  ∀ level, ¬ (Delimiter.long level).opening <+: t

/-- Whether a text of code stays code in front of the text `rest`. -/
def StaysCode (code rest : Text) : Prop :=
  splitCode (code ++ rest) = (code ++ (splitCode rest).1, (splitCode rest).2)

theorem StaysCode.nil (rest : Text) : StaysCode [] rest := rfl

theorem StaysCode.cons {c : Char} {code rest : Text} (hc : opener? (c :: (code ++ rest)) = none)
    (h : StaysCode code rest) : StaysCode (c :: code) rest := by
  rw [StaysCode] at h ⊢
  rw [List.cons_append, splitCode, hc, h]
  rfl

theorem StaysCode.append {a b rest : Text} (ha : StaysCode a (b ++ rest)) (hb : StaysCode b rest) :
    StaysCode (a ++ b) rest := by
  rw [StaysCode] at ha hb ⊢
  rw [List.append_assoc, ha, hb, List.append_assoc]

/-- The characters that begin no string or comment. -/
def beginsNothing (c : Char) : Bool :=
  c != '-' && c != '[' && !isQuote c

theorem opener?_of_beginsNothing {c : Char} (h : beginsNothing c = true) (t : Text) :
    opener? (c :: t) = none := by
  simp only [beginsNothing, Bool.and_eq_true, bne_iff_ne, Bool.not_eq_true'] at h
  obtain ⟨⟨hdash, hbracket⟩, hquote⟩ := h
  have hlevel : longLevel? (c :: t) = none := by
    rw [longLevel?]
    intro u hu
    exact hbracket (List.cons.inj hu).1
  simp [opener?, hdash, hquote, hlevel]

theorem staysCode_of_beginsNothing {code : Text} (h : ∀ c ∈ code, beginsNothing c = true)
    (rest : Text) : StaysCode code rest := by
  induction code with
  | nil => exact StaysCode.nil rest
  | cons c code ih =>
    obtain ⟨hc, hcode⟩ := List.forall_mem_cons.1 h
    exact (ih hcode).cons (opener?_of_beginsNothing hc _)

theorem beginsNothing_of_isNumeralChar {c : Char} (h : isNumeralChar c = true) :
    beginsNothing c = true := by
  by_contra hc
  simp only [beginsNothing, isQuote, Bool.and_eq_true, bne_iff_ne, Bool.not_eq_true',
    Bool.or_eq_false_iff, beq_eq_false_iff_ne, not_and_or, not_not] at hc
  rcases hc with (rfl | rfl) | (rfl | rfl) | rfl <;> exact absurd h (by decide)

theorem staysCode_of_isWord {t : Text} (h : isWord t = true) (rest : Text) : StaysCode t rest := by
  cases t with
  | nil => exact StaysCode.nil rest
  | cons c t =>
    obtain ⟨hc, ht⟩ := isWord_cons.1 h
    refine staysCode_of_beginsNothing (List.forall_mem_cons.2 ⟨?_, fun d hd => ?_⟩) rest
    · exact beginsNothing_of_isNumeralChar
        (isNumeralChar_of_isWordChar (isWordChar_of_isWordStart hc))
    · exact beginsNothing_of_isNumeralChar (isNumeralChar_of_isWordChar (ht d hd))

theorem staysCode_of_isNumeral {t : Text} (h : IsNumeral t) (rest : Text) : StaysCode t rest := by
  have hdigits : ∀ ds : Text, (∀ c ∈ ds, c.isDigit = true) → ∀ rest, StaysCode ds rest :=
    fun ds hds => staysCode_of_beginsNothing fun c hc =>
      beginsNothing_of_isNumeralChar (isNumeralChar_of_isDigit (hds c hc))
  rcases h with h | ⟨mark, ds, rfl, hmark, -, hds⟩
  · obtain ⟨whole, fraction, exponent, rfl, hwhole, hfraction, hexponent⟩ := h.shape
    refine StaysCode.append (StaysCode.append (hdigits whole hwhole _) ?_) ?_
    · rcases hfraction with ⟨rfl, -⟩ | ⟨ds, rfl, hds, -⟩
      · exact StaysCode.nil _
      · exact (hdigits ds hds _).cons (opener?_of_beginsNothing (by decide) _)
    · rcases hexponent with rfl | ⟨mark, sign, ds, rfl, hmark, hsign, hne, hds⟩
      · exact StaysCode.nil _
      · have hmark : beginsNothing mark = true := by rcases hmark with rfl | rfl <;> decide
        refine StaysCode.cons (opener?_of_beginsNothing hmark _) ?_
        rcases hsign with rfl | rfl | rfl
        · exact hdigits ds hds rest
        · exact (hdigits ds hds rest).cons (opener?_of_beginsNothing (by decide) _)
        · -- the digit after a minus sign is no second minus sign
          refine (hdigits ds hds rest).cons ?_
          obtain ⟨d, more, rfl⟩ := List.exists_cons_of_ne_nil hne
          have hd : d ≠ '-' := by
            rintro rfl
            exact absurd (hds '-' List.mem_cons_self) (by decide)
          simp only [List.cons_append, opener?, if_true]
          split
          · next u hu => exact absurd (List.cons.inj hu).1 hd
          · rfl
  · have hall : ∀ c ∈ '0' :: mark :: ds, beginsNothing c = true := by
      refine List.forall_mem_cons.2 ⟨by decide, List.forall_mem_cons.2 ⟨?_, fun c hc => ?_⟩⟩
      · rcases hmark with rfl | rfl <;> decide
      · exact beginsNothing_of_isNumeralChar (isHexDigit_plain (hds c hc)).1
    exact staysCode_of_beginsNothing hall rest

theorem longLevel?_of_noLongBracket {t : Text} (h : NoLongBracket t) : longLevel? t = none := by
  cases hlevel : longLevel? t with
  | none => rfl
  | some level => exact absurd (prefix_of_longLevel? hlevel) (h level)

theorem staysCode_of_symbol {t rest : Text} (h : t ∈ luaSymbols)
    (hdash : t = ['-'] → rest.head? ≠ some '-') (hbracket : t = ['['] → NoLongBracket ('[' :: rest)) :
    StaysCode t rest := by
  by_cases hd : t = ['-']
  · subst hd
    refine (StaysCode.nil rest).cons ?_
    have hhead := hdash rfl
    simp only [List.nil_append, opener?, if_true]
    split
    · next u => exact absurd rfl hhead
    · rfl
  by_cases hb : t = ['[']
  · subst hb
    refine (StaysCode.nil rest).cons ?_
    have hquote : isQuote '[' = false := by decide
    simp [opener?, hquote, longLevel?_of_noLongBracket (hbracket rfl)]
  · have hall : (luaSymbols.all fun s => s == ['-'] || s == ['['] || s.all beginsNothing) = true := by
      decide
    have ht := List.all_eq_true.1 hall t h
    have hne : (t == ['-']) = false ∧ (t == ['[']) = false := ⟨by simpa using hd, by simpa using hb⟩
    rw [hne.1, hne.2, Bool.false_or, Bool.false_or] at ht
    exact staysCode_of_beginsNothing (List.all_eq_true.1 ht) rest

/-! ## Strings and comments -/

theorem quotedBody?_of_content {mark : Char} {content : Text} (hmark : mark ≠ '\\' ∧ mark ≠ '\n')
    (h : QuotedContent mark content) (rest : Text) :
    quotedBody? mark (content ++ mark :: rest) = some (content ++ [mark], rest) := by
  induction h with
  | nil => cases rest <;> simp [quotedBody?, hmark]
  | @plain c t hc hslash hline h ih =>
    cases hmore : t ++ mark :: rest with
    | nil => simp at hmore
    | cons d more =>
      rw [hmore] at ih
      simp [quotedBody?, hmore, hc, hslash, hline, ih]
  | @escape c t h ih => simp [quotedBody?, ih]

theorem splitAfter?_of_content {p content : Text} (hp : p ≠ [])
    (h : ¬ p <:+: (content ++ p).dropLast) (rest : Text) :
    Text.splitAfter? p (content ++ p ++ rest) = some (content ++ p, rest) := by
  induction content with
  | nil =>
    obtain ⟨c, q, rfl⟩ := List.exists_cons_of_ne_nil hp
    have hprefix : (c :: q).isPrefixOf (c :: (q ++ rest)) = true :=
      List.isPrefixOf_iff_prefix.2 (List.prefix_append (c :: q) rest)
    simp only [List.nil_append, List.cons_append, Text.splitAfter?, if_pos hprefix]
    simp
  | cons c content ih =>
    have hne : content ++ p ≠ [] := by simp [hp]
    rw [List.cons_append, List.dropLast_cons_of_ne_nil hne] at h
    have hprefix : ¬ p.isPrefixOf (c :: (content ++ p ++ rest)) = true := by
      rw [List.isPrefixOf_iff_prefix]
      intro hpre
      refine h (List.IsPrefix.isInfix ?_)
      have hwhole : c :: (content ++ p).dropLast <+: c :: (content ++ p ++ rest) := by
        rw [List.prefix_cons_inj]
        exact (List.dropLast_prefix _).trans (List.prefix_append _ _)
      refine List.prefix_of_prefix_length_le hpre hwhole ?_
      simp only [List.length_cons, List.length_dropLast, List.length_append]
      omega
    have ih := ih fun hin => h (hin.trans (List.infix_cons List.infix_rfl))
    simp only [List.cons_append, Text.splitAfter?, if_neg hprefix, ih]
    rfl

/-- A long string or comment ends where its content does. -/
theorem longBody?_of_content {level : Nat} {content : Text} (h : LongContent level content)
    (rest : Text) : longBody? level (content ++ (Delimiter.long level).closing ++ rest) =
      some (content ++ (Delimiter.long level).closing, rest) := by
  rw [longBody?_eq_splitAfter?]
  exact splitAfter?_of_content (Delimiter.closing_ne_nil level) h rest

theorem longLevel?_opening (level : Nat) (t : Text) :
    longLevel? ((Delimiter.long level).opening ++ t) = some level := by
  have htake : (List.replicate level '=' ++ '[' :: t).takeWhile (· == '=') =
      List.replicate level '=' := by
    rw [List.takeWhile_append_of_pos (by simp)]
    simp
  have hdrop : (List.replicate level '=' ++ '[' :: t).dropWhile (· == '=') = '[' :: t := by
    rw [List.dropWhile_append_of_pos (by simp)]
    simp
  simp [Delimiter.opening, longLevel?, htake, hdrop]

/-- A line comment goes on as one, whatever the next line is. -/
theorem NoLongBracket.append {body : Text} (h : NoLongBracket body) (rest : Text) :
    NoLongBracket (body ++ '\n' :: rest) := by
  intro level hprefix
  refine h level (List.prefix_of_prefix_length_le hprefix (List.prefix_append _ _) ?_)
  -- a longer bracket would hold the line feed
  by_contra hlen
  have hfeed : body ++ ['\n'] <+: (Delimiter.long level).opening := by
    have hwhole : body ++ ['\n'] <+: body ++ '\n' :: rest := ⟨rest, by simp⟩
    refine List.prefix_of_prefix_length_le hwhole hprefix ?_
    rw [List.length_append, List.length_singleton]
    omega
  have hmem : '\n' ∈ (Delimiter.long level).opening := hfeed.subset (by simp)
  simp [Delimiter.opening] at hmem

theorem opener?_lineComment {t : Text} (h : NoLongBracket t) :
    opener? ('-' :: '-' :: t) = some .lineComment := by
  simp [opener?, longLevel?_of_noLongBracket h]

theorem opener?_blockComment (level : Nat) (t : Text) :
    opener? ('-' :: '-' :: ((Delimiter.long level).opening ++ t)) = some (.blockComment level) := by
  simp [opener?, longLevel?_opening]

theorem opener?_quote {mark : Char} (h : mark = '"' ∨ mark = '\'') (t : Text) :
    opener? (mark :: t) = some (.string (.quote mark)) := by
  rcases h with rfl | rfl <;> simp [opener?, isQuote]

theorem opener?_long (level : Nat) (t : Text) :
    opener? ((Delimiter.long level).opening ++ t) = some (.string (.long level)) := by
  have hlevel := longLevel?_opening level t
  rw [Delimiter.opening, List.cons_append, List.cons_append] at hlevel ⊢
  have hquote : isQuote '[' = false := by decide
  simp only [opener?, hquote, hlevel]
  simp

end LuaVeil
