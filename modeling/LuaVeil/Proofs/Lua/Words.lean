/-
# Words in code

A word is a token of its own, and what stands around it is read in the same way
whatever the word is: no symbol, numeral or blank takes a part of a word, and no
word or numeral stands directly before a word.

Main statements:

* `lexeme_congr`, a token does not depend on which word comes next;
* `labels_flatten`, a text in which words are replaced by words has the tokens of
  the text with these words replaced;
* `mapWords_flatten`, replacing the words back gives the text.
-/
import LuaVeil.Names.Reserved
import LuaVeil.Proofs.Grammar.Lexemes
import Mathlib.Data.List.Forall2

namespace LuaVeil

/-! ## Texts that agree up to a word -/

/-- Whether a text begins with a word. -/
def startsWord : Text → Bool
  | [] => false
  | c :: _ => isWordStart c

theorem exists_of_startsWord {t : Text} (h : startsWord t = true) : ∃ c rest, t = c :: rest := by
  cases t with
  | nil => cases h
  | cons c rest => exact ⟨c, rest, rfl⟩

/-- Two texts are the same up to a word, or to their end. -/
def SameToWord (b b' : Text) : Prop :=
  ∃ front a a', b = front ++ a ∧ b' = front ++ a' ∧
    (a = [] ∧ a' = [] ∨ startsWord a = true ∧ startsWord a' = true)

namespace SameToWord

variable {b b' : Text}

theorem nil : SameToWord [] [] :=
  ⟨[], [], [], rfl, rfl, .inl ⟨rfl, rfl⟩⟩

theorem of_words (h : startsWord b = true) (h' : startsWord b' = true) : SameToWord b b' :=
  ⟨[], b, b', rfl, rfl, .inr ⟨h, h'⟩⟩

theorem append (h : SameToWord b b') (t : Text) : SameToWord (t ++ b) (t ++ b') := by
  obtain ⟨front, a, a', rfl, rfl, ha⟩ := h
  exact ⟨t ++ front, a, a', by simp, by simp, ha⟩

/-- The texts begin with the same character, or both with words, or both are empty. -/
theorem cases_head (h : SameToWord b b') :
    b = [] ∧ b' = [] ∨ (∃ c t t', b = c :: t ∧ b' = c :: t' ∧ SameToWord t t') ∨
      startsWord b = true ∧ startsWord b' = true := by
  obtain ⟨front, a, a', rfl, rfl, ha⟩ := h
  cases front with
  | cons c front =>
    have htail : SameToWord (front ++ a) (front ++ a') := ⟨front, a, a', rfl, rfl, ha⟩
    exact .inr (.inl ⟨c, _, _, rfl, rfl, htail⟩)
  | nil =>
    rcases ha with ⟨rfl, rfl⟩ | ha
    · exact .inl ⟨rfl, rfl⟩
    · exact .inr (.inr ha)

/-- What is true of the first character of `b`, if any, but not of the start of a word. -/
theorem all_head {p : Char → Bool} (h : SameToWord b b')
    (hp : ∀ c, isWordStart c = true → p c = false)
    (hb : ∀ c, b.head? = some c → p c = false) : ∀ c, b'.head? = some c → p c = false := by
  intro c hc
  rcases h.cases_head with ⟨rfl, rfl⟩ | ⟨d, t, t', rfl, rfl, -⟩ | ⟨-, hword⟩
  · cases hc
  · exact hb c hc
  · obtain ⟨t, rfl⟩ := List.head?_eq_some_iff.1 hc
    exact hp c hword

/-- A text without starts of words is a prefix of both or of none. -/
theorem prefix_iff {l : Text} (h : SameToWord b b') (hl : ∀ c ∈ l, isWordStart c = false) :
    l <+: b ↔ l <+: b' := by
  have hfront : ∀ {front a : Text}, a = [] ∨ startsWord a = true →
      (l <+: front ++ a ↔ l <+: front) := by
    intro front a ha
    refine ⟨fun hp => ?_, fun hp => hp.trans (List.prefix_append _ _)⟩
    rcases ha with rfl | ha
    · simpa using hp
    by_cases hlen : l.length ≤ front.length
    · exact List.prefix_of_prefix_length_le hp (List.prefix_append _ _) hlen
    · -- otherwise `l` has the first character of the word
      obtain ⟨c, t, rfl⟩ := exists_of_startsWord ha
      have hmem : front ++ [c] <+: l :=
        List.prefix_of_prefix_length_le (by simp) hp (by simp; omega)
      have hc := hl c (hmem.subset (by simp))
      exact absurd (ha.symm.trans hc) (by decide)
  obtain ⟨front, a, a', rfl, rfl, ha⟩ := h
  rcases ha with ⟨rfl, rfl⟩ | ⟨ha, ha'⟩
  · exact Iff.rfl
  · rw [hfront (.inr ha), hfront (.inr ha')]

end SameToWord

/-! ## Tokens in front of a word -/

theorem isWordStart_of_longSymbol : ∀ l ∈ longSymbols, ∀ c ∈ l, isWordStart c = false := by
  have hall : longSymbols.all (fun l => l.all fun c => !isWordStart c) = true := by decide
  simpa only [List.all_eq_true, Bool.not_eq_true'] using hall

theorem isSeparator_of_isWordStart {c : Char} (h : isWordStart c = true) :
    Text.isSeparator c = false :=
  (not_isAsciiBlank_of_isWordStart h).2

/-- What follows a cut does not satisfy the condition of the cut. -/
theorem head_of_dropWhile {p : Char → Bool} {t b : Text} (h : (t ++ b).dropWhile p = b) :
    ∀ c, b.head? = some c → p c = false := by
  intro c hc
  have hnot := List.head?_dropWhile_not p (t ++ b)
  rw [h, hc] at hnot
  simpa using hnot

/-- What `takeWhile` and `dropWhile` cut does not depend on what follows the cut. -/
theorem cut_congr {p : Char → Bool} {t b b' : Text} (htake : (t ++ b).takeWhile p = t)
    (hb' : ∀ c, b'.head? = some c → p c = false) :
    (t ++ b').takeWhile p = t ∧ (t ++ b').dropWhile p = b' := by
  have hall : ∀ c ∈ t, p c = true := by
    intro c hc
    rw [← htake] at hc
    exact List.mem_takeWhile_imp hc
  exact takeWhile_append_of_stop (List.dropWhile_eq_nil_iff.2 hall) hb'

/-- No sign, point or digit begins a word. -/
theorem plain_of_isWordStart {c : Char} (h : isWordStart c = true) :
    c.isDigit = false ∧ c ≠ '.' ∧ (c == '+' || c == '-') = false ∧ isNumeralChar c = true := by
  refine ⟨isDigit_of_isWordStart h, ?_, ?_,
    isNumeralChar_of_isWordChar (isWordChar_of_isWordStart h)⟩
  · rintro rfl
    exact absurd h (by decide)
  · rw [← Bool.not_eq_true, Bool.or_eq_true, beq_iff_eq, beq_iff_eq]
    rintro (rfl | rfl) <;> exact absurd h (by decide)

/-- A numeral does not end in front of a character of a word. -/
theorem head_numeralTail (hex : Bool) (t : Text) :
    ∀ e, (numeralTail hex t).2.head? = some e → isWordChar e = false := by
  have hpoint : ∀ c, isWordChar c = true → c ≠ '.' := by
    rintro c hc rfl
    exact absurd hc (by decide)
  intro e he
  fun_induction numeralTail hex t with
  | case1 => cases he
  | case2 => cases he
  | case3 c hc =>
    obtain rfl := Option.some.inj he
    by_contra hword
    exact hc (isNumeralChar_of_isWordChar (by simpa using hword))
  | case4 c d t hs more rest hm ih => exact ih (by rwa [hm])
  | case5 c d t hs hc more rest hm ih => exact ih (by rwa [hm])
  | case6 c d t hs hc =>
    obtain rfl := Option.some.inj he
    by_contra hword
    rw [Bool.not_eq_false] at hword
    exact hc (by simp [isNumeralChar_of_isWordChar hword, hpoint c hword])

/-- A numeral does not end in front of a word. -/
theorem startsWord_numeralTail (hex : Bool) (t : Text) :
    startsWord (numeralTail hex t).2 = false := by
  have hhead := head_numeralTail hex t
  cases hrest : (numeralTail hex t).2 with
  | nil => rfl
  | cons c rest =>
    rw [hrest] at hhead
    by_contra hword
    have hc := hhead c rfl
    rw [isWordChar_of_isWordStart (by simpa [startsWord] using hword)] at hc
    cases hc

/-- Where a numeral goes on with nothing of two characters. -/
theorem numeralTail_eq_nil_iff {hex : Bool} {c d : Char} {t : Text} :
    numeralTail hex (c :: d :: t) = ([], c :: d :: t) ↔
      (isExponentMark hex c && (d == '+' || d == '-')) = false ∧
        (isNumeralChar c && !(c == '.' && d == '.')) = false := by
  rw [numeralTail]
  split
  · next hexp => simp [hexp]
  split
  · next hexp hnum =>
    refine iff_of_false (by simp) fun h => ?_
    exact absurd (hnum.symm.trans h.2) (by decide)
  · next hexp hnum => exact iff_of_true rfl ⟨by simpa using hexp, by simpa using hnum⟩

/-- A numeral that goes on with nothing does so in front of every word. -/
theorem numeralTail_congr_nil {hex : Bool} {b b' : Text} (h : SameToWord b b')
    (hread : numeralTail hex b = ([], b)) : numeralTail hex b' = ([], b') := by
  have hword := startsWord_numeralTail hex b
  rw [hread] at hword
  rcases h.cases_head with ⟨rfl, rfl⟩ | ⟨c, t, t', rfl, rfl, ht⟩ | ⟨hb, -⟩
  · rfl
  · rcases ht.cases_head with ⟨rfl, rfl⟩ | ⟨d, u, u', rfl, rfl, -⟩ | ⟨hu, hu'⟩
    · exact hread
    · exact numeralTail_eq_nil_iff.2 (numeralTail_eq_nil_iff.1 hread)
    · -- neither a sign nor a point follows, whichever word it is
      obtain ⟨d, u, rfl⟩ := exists_of_startsWord hu
      obtain ⟨d', u', rfl⟩ := exists_of_startsWord hu'
      obtain ⟨-, hpoint, -, -⟩ := plain_of_isWordStart hu
      obtain ⟨-, hpoint', hsign', -⟩ := plain_of_isWordStart hu'
      obtain ⟨-, hnum⟩ := numeralTail_eq_nil_iff.1 hread
      rw [beq_false_of_ne hpoint, Bool.and_false] at hnum
      rw [numeralTail_eq_nil_iff, hsign', beq_false_of_ne hpoint', Bool.and_false, Bool.and_false]
      exact ⟨rfl, hnum⟩
  · exact absurd (hb.symm.trans hword) (by decide)

/-- A numeral ends in front of the same texts, up to words. -/
theorem numeralTail_congr {hex : Bool} {t b b' : Text} (h : SameToWord b b')
    (hread : numeralTail hex (t ++ b) = (t, b)) : numeralTail hex (t ++ b') = (t, b') := by
  have hword := startsWord_numeralTail hex (t ++ b)
  rw [hread] at hword
  induction hn : t.length using Nat.strong_induction_on generalizing t with
  | _ n ih =>
    match t with
    | [] => exact numeralTail_congr_nil h hread
    | [c] =>
      rcases h.cases_head with ⟨rfl, rfl⟩ | ⟨d, u, u', rfl, rfl, hu⟩ | ⟨hb, -⟩
      · exact hread
      · simp only [List.cons_append, List.nil_append, numeralTail] at hread ⊢
        split at hread
        · simp at hread
        next hexp =>
        split at hread
        · next hnum =>
          have hmore : numeralTail hex (d :: u) = ([], d :: u) := by
            simpa [Prod.ext_iff] using hread
          rw [if_neg hexp, if_pos hnum, numeralTail_congr_nil h hmore]
        · simp at hread
      · exact absurd (hb.symm.trans hword) (by decide)
    | c :: d :: t =>
      simp only [List.cons_append, numeralTail, List.length_cons] at hread hn ⊢
      split at hread
      · next hexp =>
        have hmore : numeralTail hex (t ++ b) = (t, b) := by simpa [Prod.ext_iff] using hread
        rw [if_pos hexp, ih t.length (by omega) hmore hword rfl]
      next hexp =>
      split at hread
      · next hnum =>
        have hmore : numeralTail hex (d :: t ++ b) = (d :: t, b) := by
          simpa [Prod.ext_iff] using hread
        have hgoal := ih (d :: t).length (by simp only [List.length_cons]; omega) hmore hword rfl
        rw [List.cons_append] at hgoal
        rw [if_neg hexp, if_pos hnum, hgoal]
      · simp at hread

theorem isNumeralStart_congr {c : Char} {t b b' : Text} (h : SameToWord b b') :
    isNumeralStart c (t ++ b) = isNumeralStart c (t ++ b') := by
  cases t with
  | cons d t => rfl
  | nil =>
    rcases h.cases_head with ⟨rfl, rfl⟩ | ⟨d, u, u', rfl, rfl, -⟩ | ⟨hb, hb'⟩
    · rfl
    · rfl
    · obtain ⟨d, u, rfl⟩ := exists_of_startsWord hb
      obtain ⟨d', u', rfl⟩ := exists_of_startsWord hb'
      simp [isNumeralStart, (plain_of_isWordStart hb).1, (plain_of_isWordStart hb').1]

/-- A token does not depend on which word comes next. -/
theorem lexeme_congr {kind : TokenKind} {c : Char} {t b b' : Text} (h : SameToWord b b')
    (hlex : lexeme c (t ++ b) = ⟨kind, t, b⟩) : lexeme c (t ++ b') = ⟨kind, t, b'⟩ := by
  rw [lexeme_eq_iff] at hlex ⊢
  cases kind with
  | newline =>
    obtain ⟨hc, rfl, -⟩ := hlex
    exact ⟨hc, rfl, rfl⟩
  | blank =>
    obtain ⟨hnl, hsep, htake, hdrop⟩ := hlex
    refine ⟨hnl, hsep, cut_congr htake ?_⟩
    exact h.all_head (fun _ => isSeparator_of_isWordStart) (head_of_dropWhile hdrop)
  | word =>
    obtain ⟨hnl, hsep, hword, htake, hdrop⟩ := hlex
    refine ⟨hnl, hsep, hword, cut_congr htake fun d hd => ?_⟩
    have hb := head_of_dropWhile hdrop
    rcases h.cases_head with ⟨rfl, rfl⟩ | ⟨e, u, u', rfl, rfl, -⟩ | ⟨hstart, -⟩
    · cases hd
    · exact hb d hd
    · obtain ⟨e, u, rfl⟩ := exists_of_startsWord hstart
      exact absurd ((isWordChar_of_isWordStart hstart).symm.trans (hb e rfl)) (by decide)
  | number =>
    obtain ⟨hnl, hsep, hword, hnum, hread⟩ := hlex
    have hstop := startsWord_numeralTail (isHexStart c (t ++ b)) (t ++ b)
    rw [hread] at hstop
    have hhex : isHexStart c (t ++ b) = isHexStart c (t ++ b') := by
      cases t with
      | cons d t => rfl
      | nil =>
        rcases h.cases_head with ⟨rfl, rfl⟩ | ⟨d, u, u', rfl, rfl, -⟩ | ⟨hb, -⟩
        · rfl
        · rfl
        · exact absurd (hb.symm.trans hstop) (by decide)
    refine ⟨hnl, hsep, hword, by rwa [← isNumeralStart_congr h], ?_⟩
    rw [← hhex]
    exact numeralTail_congr h hread
  | symbol =>
    obtain ⟨hnl, hsep, hword, hnum, htail, -⟩ := hlex
    refine ⟨hnl, hsep, hword, by rwa [← isNumeralStart_congr h], ?_, List.drop_left⟩
    rw [← symbolTail_congr fun l hl => ?_, htail]
    exact (h.append (c :: t)).prefix_iff (isWordStart_of_longSymbol l hl)

/-! ## Words for words -/

/-- Whether a text can stand for a token: another word can stand for a word. -/
def ReplacesWord (label : TokenKind × Text) (t : Text) : Prop :=
  t = label.2 ∨ label.1 = .word ∧ isWord t = true

/-- The text of a token of kind `word` is a word. -/
theorem isWord_of_mem_labels {code w : Text} (h : (TokenKind.word, w) ∈ labels code) :
    isWord w = true := by
  induction code using induction_on_lexemes with
  | nil => simp at h
  | @cons kind c tail rest hlex ih =>
    rw [labels_cons, List.mem_cons, hlex] at h
    rcases h with h | h
    · obtain ⟨rfl, rfl⟩ := Prod.mk.inj h
      obtain ⟨-, -, hword, htail, -⟩ := lexeme_eq_iff.1 hlex
      refine isWord_cons.2 ⟨hword, fun d hd => ?_⟩
      rw [← htail] at hd
      exact List.mem_takeWhile_imp hd
    · exact ih h

/-- A text in which words are replaced by words has the same tokens but for these words. -/
theorem labels_flatten {code : Text} {us : List Text}
    (h : List.Forall₂ ReplacesWord (labels code) us) :
    labels us.flatten = List.zipWith (fun label u => (label.1, u)) (labels code) us ∧
      SameToWord code us.flatten := by
  induction code using induction_on_lexemes generalizing us with
  | nil =>
    rw [labels_nil] at h ⊢
    cases h
    exact ⟨labels_nil, .nil⟩
  | @cons kind c tail rest hlex ih =>
    rw [labels_cons, hlex] at h ⊢
    cases h with
    | @cons _ u _ us hu hus =>
      obtain ⟨hlabels, hsame⟩ := ih hus
      have hkept := lexeme_congr hsame hlex
      rw [List.flatten_cons, List.zipWith_cons_cons, ← hlabels]
      rcases hu with rfl | ⟨hkind, hu⟩
      · refine ⟨?_, hsame.append (c :: tail)⟩
        rw [List.cons_append, labels_cons, hkept]
      · obtain rfl : kind = .word := hkind
        obtain ⟨-, -, hc, -, hdrop⟩ := lexeme_eq_iff.1 hkept
        cases u with
        | nil => cases hu
        | cons d w =>
          refine ⟨?_, .of_words hc (isWord_cons.1 hu).1⟩
          rw [List.cons_append, labels_cons, lexeme_of_isWord hu (head_of_dropWhile hdrop)]

/-- A text with `f` applied to each of its words. -/
def mapWords (f : Name → Name) (code : Text) : Text :=
  (tokenize code).flatMap fun t => if t.kind = .word then f t.text else t.text

theorem flatMap_snd_labels (code : Text) : (labels code).flatMap Prod.snd = code := by
  rw [labels, List.flatMap_map]
  exact flatMap_text_tokenize code

theorem mapWords_eq (f : Name → Name) (code : Text) :
    mapWords f code = (labels code).flatMap fun l => if l.1 = .word then f l.2 else l.2 := by
  rw [labels, List.flatMap_map]
  rfl

/-- Words that are replaced can be replaced back. -/
theorem mapWords_flatten {f : Name → Name} {code : Text} {us : List Text}
    (h : List.Forall₂ ReplacesWord (labels code) us)
    (hf : List.Forall₂ (fun label u => label.1 = .word → f u = label.2) (labels code) us) :
    mapWords f us.flatten = code := by
  have hback : ∀ {ls : List (TokenKind × Text)} {us : List Text}, List.Forall₂ ReplacesWord ls us →
      List.Forall₂ (fun label u => label.1 = .word → f u = label.2) ls us →
      ((List.zipWith (fun label u => (label.1, u)) ls us).flatMap fun l =>
        if l.1 = .word then f l.2 else l.2) = ls.flatMap Prod.snd := by
    intro ls us h hf
    induction h with
    | nil => rfl
    | @cons label u ls us hu _ ih =>
      obtain ⟨hfu, hf⟩ := List.forall₂_cons.1 hf
      rw [List.zipWith_cons_cons, List.flatMap_cons, List.flatMap_cons, ih hf]
      by_cases hkind : label.1 = .word
      · rw [if_pos hkind, hfu hkind]
      · rw [if_neg hkind, hu.resolve_right fun hword => hkind hword.1]
  rw [mapWords_eq, (labels_flatten h).1, hback h hf, flatMap_snd_labels]

end LuaVeil
