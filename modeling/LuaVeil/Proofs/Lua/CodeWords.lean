/-
# The words of code

A character that can stand neither in a word nor in a numeral keeps words apart,
whatever symbols it is a part of. So the words of a text are those of its pieces
between such characters, and blanks can be taken away or put in next to them.

Main statements:

* `codeWords_append`, texts that are kept apart have the words of each;
* `partedByBlanks_codeWords`, cutting lines and removing blanks keeps all words.
-/
import LuaVeil.Names.Namespace
import LuaVeil.Proofs.Lua.Blanks
import LuaVeil.Proofs.Lua.Words
import Mathlib.Data.List.Chain

namespace LuaVeil

/-- The word of a label, if it is that of a word. -/
def labelWord? (l : TokenKind × Text) : Option Name :=
  if l.1 = .word then some l.2 else none

theorem codeWords_eq (code : Text) : codeWords code = (labels code).filterMap labelWord? := by
  rw [codeWords, labels, List.filterMap_map]
  induction tokenize code with
  | nil => rfl
  | cons t ts ih =>
    rw [List.filter_cons, List.filterMap_cons]
    cases hkind : t.kind <;> simp [labelWord?, Token.label, hkind, ih]

theorem mem_codeWords {code w : Text} : w ∈ codeWords code ↔ (TokenKind.word, w) ∈ labels code := by
  simp only [codeWords, labels, List.mem_map, List.mem_filter, beq_iff_eq, Token.label]
  constructor
  · rintro ⟨t, ⟨ht, hkind⟩, rfl⟩
    exact ⟨t, ht, by rw [hkind]⟩
  · rintro ⟨t, ht, h⟩
    obtain ⟨hkind, htext⟩ := Prod.mk.inj h
    exact ⟨t, ⟨ht, hkind⟩, htext⟩

@[simp] theorem codeWords_nil : codeWords [] = [] := by
  rw [codeWords, tokenize, tokenizeFrom]
  rfl

theorem codeWords_eq_solid (code : Text) :
    codeWords code = (solidLabels code).filterMap labelWord? := by
  rw [codeWords_eq, solidLabels_eq, List.filterMap_flatMap]
  induction labels code with
  | nil => rfl
  | cons l ls ih =>
    obtain ⟨kind, w⟩ := l
    rw [List.flatMap_cons, List.filterMap_cons, ih]
    cases kind <;> rfl

theorem codeWords_cons (c : Char) (t : Text) : codeWords (c :: t) =
    (labelWord? ((lexeme c t).kind, c :: (lexeme c t).tail)).toList ++
      codeWords (lexeme c t).rest := by
  rw [codeWords_eq, labels_cons, List.filterMap_cons, codeWords_eq]
  cases labelWord? ((lexeme c t).kind, c :: (lexeme c t).tail) <;> rfl

/-! ## Characters that keep words apart -/

/-- Whether a character can stand neither in a word nor in a numeral. -/
def separates (c : Char) : Bool :=
  !isNumeralChar c && c != '+' && c != '-'

theorem plain_of_separates {c : Char} (h : separates c = true) :
    isNumeralChar c = false ∧ isWordChar c = false ∧ isWordStart c = false ∧ c.isDigit = false ∧
      c ≠ '.' ∧ (c == '+' || c == '-') = false := by
  simp only [separates, Bool.and_eq_true, Bool.not_eq_true', bne_iff_ne] at h
  obtain ⟨⟨hnumeral, hplus⟩, hminus⟩ := h
  have hword : isWordChar c = false := by
    by_contra hc
    rw [isNumeralChar_of_isWordChar (by simpa using hc)] at hnumeral
    cases hnumeral
  refine ⟨hnumeral, hword, ?_, ?_, ?_, by simp [hplus, hminus]⟩
  · by_contra hc
    rw [isWordChar_of_isWordStart (by simpa using hc)] at hword
    cases hword
  · by_contra hc
    rw [isNumeralChar_of_isDigit (by simpa using hc)] at hnumeral
    cases hnumeral
  · rintro rfl
    exact absurd hnumeral (by decide)

/-- The long symbols that begin with a character that can stand in a numeral and end in another. -/
def numeralSymbols : List Text :=
  ["+=", "-=", "->", "..="].map String.toList

/-- A long symbol that begins with a character that separates has one more such character. -/
theorem exists_of_longSymbol {c : Char} {t : Text} (h : c :: t ∈ longSymbols)
    (hc : separates c = true) : ∃ d, t = [d] ∧ separates d = true := by
  have hall : (longSymbols.all fun l =>
      !l.head?.any separates || (l.length == 2 && l.tail.all separates)) = true := by decide
  have hl := List.all_eq_true.1 hall _ h
  simp only [List.head?_cons, Option.any_some, hc, Bool.not_true, Bool.false_or, Bool.and_eq_true,
    beq_iff_eq, List.length_cons, List.tail_cons] at hl
  obtain ⟨d, rfl⟩ := List.length_eq_one_iff.1 (Nat.succ.inj hl.1)
  exact ⟨d, rfl, by simpa using hl.2⟩

/-- Any other long symbol ends where it has a character that separates. -/
theorem mem_numeralSymbols {c d : Char} {t l : Text} (h : l ∈ longSymbols)
    (hl : c :: (t ++ [d]) <+: l) (hc : separates c = false) (hd : separates d = true) :
    c :: (t ++ [d]) ∈ numeralSymbols := by
  have hall : (longSymbols.all fun l => (List.range (l.length + 1)).all fun n =>
      n < 2 || (l.take n).head?.any separates || !(l.take n).getLast?.any separates ||
        numeralSymbols.contains (l.take n)) = true := by decide
  have hlength := hl.length_le
  have hn : (c :: (t ++ [d])).length ∈ List.range (l.length + 1) := List.mem_range.2 (by omega)
  have hp := List.all_eq_true.1 (List.all_eq_true.1 hall l h) _ hn
  have hlast : (c :: (t ++ [d])).getLast? = some d := by
    rw [← List.cons_append, List.getLast?_concat]
  rw [← List.prefix_iff_eq_take.1 hl, hlast] at hp
  have htwo : decide ((c :: (t ++ [d])).length < 2) = false := by simp
  rw [htwo] at hp
  simpa [hc, hd] using hp

/-- A long symbol that begins in one text and ends in the next goes one character into that. -/
theorem lexeme_of_mem_numeralSymbols {c d : Char} {t : Text} (h : c :: (t ++ [d]) ∈ numeralSymbols)
    (b : Text) : lexeme c (t ++ d :: b) = ⟨.symbol, t ++ [d], b⟩ := by
  have hread : ∀ l ∈ numeralSymbols, ∀ c t, l = c :: t → lexeme c (t ++ b) = ⟨.symbol, t, b⟩ := by
    intro l hl c t h
    simp only [numeralSymbols, List.map_cons, List.map_nil, List.mem_cons, List.not_mem_nil,
      or_false] at hl
    rcases hl with rfl | rfl | rfl | rfl <;> obtain ⟨rfl, rfl⟩ := List.cons.inj h <;> rfl
  have hlex := hread _ h c (t ++ [d]) rfl
  rwa [List.append_assoc] at hlex

theorem symbolTail_cases (c : Char) (t : Text) :
    symbolTail c t = [] ∨ c :: symbolTail c t ∈ longSymbols := by
  unfold symbolTail
  split
  · next l hl =>
    refine .inr ?_
    have hprefix : l.isPrefixOf (c :: t) = true := by simpa using List.find?_some hl
    obtain ⟨rest, hrest⟩ := List.isPrefixOf_iff_prefix.1 hprefix
    have hmem := List.mem_of_find?_eq_some hl
    cases l with
    | nil => exact absurd hmem (by decide)
    | cons d l =>
      obtain rfl : d = c := (List.cons.inj hrest).1
      exact hmem
  · exact .inl rfl

/-- A character that separates does not change the words after it. -/
theorem codeWords_cons_of_separates {c : Char} (h : separates c = true) (t : Text) :
    codeWords (c :: t) = codeWords t := by
  induction hn : t.length using Nat.strong_induction_on generalizing c t with
  | _ n ih =>
    obtain ⟨-, -, hword, hdigit, hpoint, -⟩ := plain_of_separates h
    rw [codeWords_cons]
    by_cases hnl : c = '\n'
    · subst hnl
      rfl
    by_cases hsep : Text.isSeparator c = true
    · have hlex : lexeme c t =
          ⟨.blank, t.takeWhile Text.isSeparator, t.dropWhile Text.isSeparator⟩ := by
        simp [lexeme, hnl, hsep]
      rw [hlex]
      show codeWords (t.dropWhile Text.isSeparator) = codeWords t
      rw [codeWords_eq_solid, solidLabels_dropWhile, ← codeWords_eq_solid]
    have hlex : lexeme c t = ⟨.symbol, symbolTail c t, t.drop (symbolTail c t).length⟩ := by
      have hnumeral : isNumeralStart c t = false := by simp [isNumeralStart, hdigit, hpoint]
      simp [lexeme, hnl, hsep, hword, hnumeral]
    rw [hlex]
    show codeWords (t.drop (symbolTail c t).length) = codeWords t
    rcases symbolTail_cases c t with hnone | hlong
    · rw [hnone]
      rfl
    · -- the other character of the symbol separates too
      obtain ⟨d, hd, hdsep⟩ := exists_of_longSymbol hlong h
      obtain ⟨rest, hrest⟩ := prefix_symbolTail c t
      rw [hd] at hrest ⊢
      subst hrest
      exact (ih rest.length (by simp at hn; omega) hdsep rest rfl).symm

/-- A token to the end of a text stops before a character that separates, but for a few symbols. -/
theorem symbol_of_not_stopsToken {kind : TokenKind} {c d : Char} {t b : Text}
    (h : lexeme d t = ⟨kind, t, []⟩) (hd : separates d = false) (hc : separates c = true)
    (hstop : ¬ StopsToken kind d t (c :: b)) :
    kind = .symbol ∧ d :: (t ++ [c]) ∈ numeralSymbols := by
  obtain ⟨hnumeral, hword, -, hdigit, -, hsign⟩ := plain_of_separates hc
  have hhead : ∀ {p : Char → Prop}, p c → ∀ e, (c :: b).head? = some e → p e := by
    intro p hp e he
    obtain rfl := Option.some.inj he
    exact hp
  cases kind with
  | newline => exact absurd trivial hstop
  | blank =>
    obtain ⟨-, hsep, -⟩ := lexeme_eq_iff.1 h
    simp only [Text.isSeparator, Bool.or_eq_true, beq_iff_eq] at hsep
    rcases hsep with ((rfl | rfl) | rfl) | rfl <;> exact absurd hd (by decide)
  | word => exact absurd (hhead hword) hstop
  | number => exact absurd (hhead ⟨hnumeral, fun hs => absurd hs (by simp [hsign])⟩) hstop
  | symbol =>
    refine ⟨rfl, ?_⟩
    by_contra hn
    refine hstop ⟨fun l hl hp => ?_, fun _ _ => hhead hdigit⟩
    by_contra hnot
    -- the symbol goes beyond the first text, so it holds the character
    refine hn (mem_numeralSymbols hl ?_ hd hc)
    have hwhole : d :: (t ++ [c]) <+: d :: (t ++ c :: b) := ⟨b, by simp⟩
    have hlonger : (d :: t).length < l.length := by
      by_contra hle
      exact hnot (List.prefix_of_prefix_length_le hp ⟨c :: b, rfl⟩ (by omega))
    refine List.prefix_of_prefix_length_le hwhole hp ?_
    simp only [List.length_cons, List.length_append, List.length_nil] at hlonger ⊢
    omega

/-- A character that separates keeps the words before it and after it apart. -/
theorem codeWords_append_cons {c : Char} (h : separates c = true) (a b : Text) :
    codeWords (a ++ c :: b) = codeWords a ++ codeWords b := by
  induction hn : a.length using Nat.strong_induction_on generalizing a with
  | _ n ih =>
    cases a with
    | nil => rw [List.nil_append, codeWords_cons_of_separates h, codeWords_nil, List.nil_append]
    | cons d t =>
      by_cases hd : separates d = true
      · rw [List.cons_append, codeWords_cons_of_separates hd, codeWords_cons_of_separates hd]
        exact ih t.length (by simp at hn; omega) t rfl
      replace hd : separates d = false := by simpa using hd
      rcases hlex : lexeme d t with ⟨kind, tail, rest⟩
      by_cases hrest : rest = []
      · subst hrest
        have htail := lexeme_append d t
        rw [hlex, List.append_nil] at htail
        obtain rfl : tail = t := htail
        by_cases hstop : StopsToken kind d tail (c :: b)
        · rw [List.cons_append, codeWords_cons, codeWords_cons, lexeme_append_of_stop hlex hstop,
            hlex, codeWords_nil, List.append_nil]
          exact congrArg _ (codeWords_cons_of_separates h b)
        · obtain ⟨rfl, hsymbol⟩ := symbol_of_not_stopsToken hlex hd h hstop
          rw [List.cons_append, codeWords_cons, codeWords_cons,
            lexeme_of_mem_numeralSymbols hsymbol, hlex, codeWords_nil]
          rfl
      · have hlonger := lexeme_append_of_rest (c :: b) hlex hrest
        have hshort : rest.length ≤ t.length := by
          have hle := length_rest_lexeme d t
          rwa [hlex] at hle
        rw [List.cons_append, codeWords_cons, codeWords_cons, hlonger, hlex, List.append_assoc]
        exact congrArg _ (ih rest.length (by simp at hn; omega) rest rfl)

/-- Whether the first text ends in a character that separates, or the second begins with one. -/
def Apart (a b : Text) : Prop :=
  a.getLast?.any separates = true ∨ b.head?.any separates = true

instance (a b : Text) : Decidable (Apart a b) :=
  inferInstanceAs (Decidable (_ ∨ _))

/-- Texts that are kept apart have the words of each. -/
theorem codeWords_append {a b : Text} (h : Apart a b) :
    codeWords (a ++ b) = codeWords a ++ codeWords b := by
  rcases h with h | h
  · cases hlast : a.getLast? with
    | none => simp [hlast] at h
    | some c =>
      obtain ⟨front, rfl⟩ := List.getLast?_eq_some_iff.1 hlast
      have hc : separates c = true := by simpa using h
      rw [List.append_assoc, List.singleton_append, codeWords_append_cons hc,
        codeWords_append_cons hc, codeWords_nil, List.append_nil]
  · cases b with
    | nil => simp
    | cons c b =>
      have hc : separates c = true := by simpa using h
      rw [codeWords_append_cons hc, codeWords_cons_of_separates hc]

/-- Texts of which neighbours are kept apart have the words of each. -/
theorem codeWords_flatten {texts : List Text} (h : texts.IsChain Apart) :
    codeWords texts.flatten = texts.flatMap codeWords := by
  induction texts with
  | nil => exact codeWords_nil
  | cons a texts ih =>
    obtain ⟨hnext, htexts⟩ := List.isChain_cons.1 h
    rw [List.flatten_cons, List.flatMap_cons, ← ih htexts]
    cases texts with
    | nil => simp
    | cons b texts =>
      refine codeWords_append ((hnext b rfl).imp_right fun hb => ?_)
      cases b with
      | nil => simp at hb
      | cons c b => exact hb

/-! ## Texts of known words -/

theorem isWordChar_of_mem {w : Text} (h : isWord w = true) : ∀ c ∈ w, isWordChar c = true := by
  cases w with
  | nil => cases h
  | cons d w =>
    obtain ⟨hd, hw⟩ := isWord_cons.1 h
    exact List.forall_mem_cons.2 ⟨isWordChar_of_isWordStart hd, hw⟩

/-- A text in which no word can begin has no words. -/
theorem codeWords_eq_nil {t : Text} (h : ∀ c ∈ t, isWordStart c = false) : codeWords t = [] := by
  refine List.eq_nil_iff_forall_not_mem.2 fun w hw => ?_
  have hlabel := mem_codeWords.1 hw
  have hsub : ∀ c ∈ w, c ∈ t := by
    intro c hc
    rw [← flatMap_snd_labels t]
    exact List.mem_flatMap.2 ⟨_, hlabel, hc⟩
  have hword := isWord_of_mem_labels hlabel
  cases w with
  | nil => cases hword
  | cons c w =>
    have hc := (isWord_cons.1 hword).1
    rw [h c (hsub c List.mem_cons_self)] at hc
    cases hc

theorem codeWords_of_isWord {w : Text} (h : isWord w = true) : codeWords w = [w] := by
  cases w with
  | nil => cases h
  | cons c t =>
    have hlex : lexeme c (t ++ []) = ⟨.word, t, []⟩ := lexeme_of_isWord h (by simp)
    rw [List.append_nil] at hlex
    rw [codeWords_cons, hlex, codeWords_nil]
    rfl

theorem codeWords_of_separates {t : Text} (h : ∀ c ∈ t, separates c = true) (b : Text) :
    codeWords (t ++ b) = codeWords b := by
  induction t with
  | nil => rfl
  | cons c t ih =>
    obtain ⟨hc, ht⟩ := List.forall_mem_cons.1 h
    rw [List.cons_append, codeWords_cons_of_separates hc, ih ht]

theorem codeWords_append_of_separates {b : Text} (h : ∀ c ∈ b, separates c = true) (a : Text) :
    codeWords (a ++ b) = codeWords a := by
  cases b with
  | nil => rw [List.append_nil]
  | cons c b =>
    obtain ⟨hc, hb⟩ := List.forall_mem_cons.1 h
    have hnone := codeWords_of_separates hb []
    rw [List.append_nil, codeWords_nil] at hnone
    rw [codeWords_append_cons hc, hnone, List.append_nil]

/-! ## Lines and blanks -/

theorem separates_of_isAsciiBlank {c : Char} (h : Text.isAsciiBlank c = true) :
    separates c = true := by
  simp only [Text.isAsciiBlank, Text.isSeparator, Bool.or_eq_true, beq_iff_eq] at h
  rcases h with (((rfl | rfl) | rfl) | rfl) | rfl <;> decide

/-- No blank is a letter, a digit or one of the signs of numerals. -/
theorem separates_of_isBlank {c : Char} (h : Text.isBlank c = true) : separates c = true := by
  have hrange : c.toNat ≤ 32 ∨ 133 ≤ c.toNat := by
    simp only [Text.isBlank, Text.blankRanges, List.any_cons, List.any_nil, Bool.or_false,
      Bool.or_eq_true, Bool.and_eq_true, decide_eq_true_eq] at h
    omega
  have hnumeral : isNumeralChar c = false := by
    by_contra hc
    simp only [isNumeralChar, Char.isAlphanum, Bool.not_eq_false, Bool.or_eq_true,
      beq_iff_eq] at hc
    rcases hc with ((hc | hc) | rfl) | rfl
    · have := toNat_of_isAlpha hc
      omega
    · have := toNat_of_isDigit hc
      omega
    · exact absurd hrange (by decide)
    · exact absurd hrange (by decide)
  rw [separates, hnumeral, Bool.not_false, Bool.true_and, Bool.and_eq_true, bne_iff_ne, bne_iff_ne]
  constructor <;> rintro rfl <;> exact absurd hrange (by decide)

/-- Blanks part words, so that stripping blanks keeps all of them. -/
theorem partedByBlanks_codeWords : PartedByBlanks codeWords where
  nil := codeWords_nil
  append_cons := fun hc a b => codeWords_append_cons (separates_of_isBlank hc) a b

end LuaVeil
