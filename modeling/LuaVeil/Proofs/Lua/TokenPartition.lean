/-
# The tokens of a text are a partition of it

The tokens of a text lie side by side from its start to its end. A line feed is a token of its
own, and a word is as long as it can be: no character of a word stands directly before or behind
it. No token is read across a line feed, so that a text has the tokens of its lines.

Main statements:

* `stops_or_plain`, what can stand at the seam of two tokens;
* `isTokenized_tokenizeFrom`, the tokens of the rest of a text;
* `tokenize_partition`, all of it, and the tokens of two lines.
-/
import LuaVeil.Proofs.Lua.Partition
import LuaVeil.Proofs.Lua.Words

namespace LuaVeil

open Text

/-! ## Tokens in a text -/

/-- A token that is moved by a number of bytes. -/
def Token.shift (n : Nat) (t : Token) : Token :=
  { t with offset := t.offset + n }

/-- Tokens of a source side by side, from a place up to the end; none of them is empty. -/
inductive TokensLaid (source : Text) : Nat → List Token → Prop
  | done : TokensLaid source (byteSize source) []
  | next {t : Token} {tokens : List Token} (hne : t.text ≠ [])
      (hat : HoldsAt (t.text <+: ·) source t.offset)
      (h : TokensLaid source (t.offset + byteSize t.text) tokens) :
      TokensLaid source t.offset (t :: tokens)

/-- Whether a run of characters with a property stands at byte `place`, and none more around it. -/
def IsMaximalRun (p : Char → Bool) (source : Text) (place : Nat) (run : Text) : Prop :=
  ∃ before after, source = before ++ run ++ after ∧ byteSize before = place ∧
    (∀ c ∈ run, p c = true) ∧ (∀ c, before.getLast? = some c → p c = false) ∧
      ∀ c, after.head? = some c → p c = false

/-- What tokens from a place on tell of a source. -/
structure IsTokenized (source : Text) (place : Nat) (tokens : List Token) : Prop where
  laid : TokensLaid source place tokens
  /-- A line feed is a token, and no other token holds one. -/
  feeds : ∀ t ∈ tokens, (t.kind = .newline ↔ '\n' ∈ t.text) ∧ (t.kind = .newline → t.text = ['\n'])
  words : ∀ t ∈ tokens, t.kind = .word → IsMaximalRun isWordChar source t.offset t.text
  apart : tokens.IsChain fun s t => t.kind = .word → s.kind ≠ .word ∧ s.kind ≠ .number

theorem tokenizeFrom_cons {kind : TokenKind} {c : Char} {tail rest : Text} (offset : Nat)
    (hlex : lexeme c (tail ++ rest) = ⟨kind, tail, rest⟩) :
    tokenizeFrom offset (c :: (tail ++ rest)) =
      ⟨kind, c :: tail, offset⟩ :: tokenizeFrom (offset + byteSize (c :: tail)) rest := by
  rw [tokenizeFrom, hlex]

/-! ## Seams of tokens -/

theorem isWordChar_of_mem_word {c d : Char} {tail rest : Text}
    (hlex : lexeme c (tail ++ rest) = ⟨.word, tail, rest⟩) (hd : d ∈ c :: tail) :
    isWordChar d = true := by
  obtain ⟨-, -, hstart, htake, -⟩ := lexeme_eq_iff.1 hlex
  rcases List.mem_cons.1 hd with rfl | hd
  · exact isWordChar_of_isWordStart hstart
  · rw [← htake] at hd
    exact List.mem_takeWhile_imp hd

theorem isWordChar_of_isSeparator {c : Char} (h : isSeparator c = true) : isWordChar c = false := by
  by_contra hword
  have hplain := not_isAsciiBlank_of_isNumeralChar
    (isNumeralChar_of_isWordChar (by simpa using hword))
  rw [isAsciiBlank, h] at hplain
  cases hplain

/-- The characters of a symbol are none of words. -/
theorem isWordChar_of_mem_symbol {c d : Char} {t : Text} (hword : isWordStart c = false)
    (hnum : isNumeralStart c t = false) (hd : d ∈ c :: symbolTail c t) : isWordChar d = false := by
  rcases List.mem_cons.1 hd with rfl | hd
  · have hdigit : d.isDigit = false := (Bool.or_eq_false_iff.1 hnum).1
    rw [isWordStart, Bool.or_eq_false_iff] at hword
    rw [isWordChar, Char.isAlphanum, hword.1, hword.2, hdigit]
    rfl
  · have hall : (longSymbols.all fun l => l.all fun d => !isWordChar d) = true := by decide
    obtain ⟨l, hl, hd⟩ := mem_symbolTail hd
    simpa using List.all_eq_true.1 (List.all_eq_true.1 hall l hl) d hd

/-- Behind a token no character of a word stands, or the token is no word or numeral and holds none. -/
theorem stops_or_plain {kind : TokenKind} {c : Char} {tail rest : Text}
    (hlex : lexeme c (tail ++ rest) = ⟨kind, tail, rest⟩) :
    (∀ d, rest.head? = some d → isWordChar d = false) ∨
      kind ≠ .word ∧ kind ≠ .number ∧ ∀ d ∈ c :: tail, isWordChar d = false := by
  have hread := lexeme_eq_iff.1 hlex
  cases kind with
  | newline =>
    obtain ⟨rfl, rfl, -⟩ := hread
    exact .inr ⟨nofun, nofun, List.forall_mem_singleton.2 (by decide)⟩
  | blank =>
    obtain ⟨-, hsep, htake, -⟩ := hread
    refine .inr ⟨nofun, nofun, List.forall_mem_cons.2 ⟨isWordChar_of_isSeparator hsep, ?_⟩⟩
    intro d hd
    rw [← htake] at hd
    exact isWordChar_of_isSeparator (List.mem_takeWhile_imp hd)
  | word =>
    obtain ⟨-, -, -, -, hdrop⟩ := hread
    exact .inl (head_of_dropWhile hdrop)
  | number =>
    obtain ⟨-, -, -, -, hnum⟩ := hread
    have hhead := head_numeralTail (isHexStart c (tail ++ rest)) (tail ++ rest)
    rw [hnum] at hhead
    exact .inl hhead
  | symbol =>
    obtain ⟨-, -, hword, hnum, htail, -⟩ := hread
    refine .inr ⟨nofun, nofun, fun d hd => ?_⟩
    rw [← htail] at hd
    exact isWordChar_of_mem_symbol hword hnum hd

/-- A line feed is a token, and no other token holds one. -/
theorem feed_of_lexeme {kind : TokenKind} {c : Char} {tail rest : Text}
    (hlex : lexeme c (tail ++ rest) = ⟨kind, tail, rest⟩) :
    (kind = .newline ↔ '\n' ∈ c :: tail) ∧ (kind = .newline → c :: tail = ['\n']) := by
  have hread := lexeme_eq_iff.1 hlex
  by_cases hkind : kind = .newline
  · subst hkind
    obtain ⟨rfl, rfl, -⟩ := hread
    simp
  suffices '\n' ∉ c :: tail from ⟨iff_of_false hkind this, fun h => absurd h hkind⟩
  rw [List.mem_cons, not_or]
  cases kind with
  | newline => exact absurd rfl hkind
  | blank =>
    obtain ⟨hnl, -, htake, -⟩ := hread
    refine ⟨Ne.symm hnl, fun hmem => ?_⟩
    rw [← htake] at hmem
    exact absurd (List.mem_takeWhile_imp hmem) (by decide)
  | word =>
    refine ⟨Ne.symm hread.1, fun hmem => ?_⟩
    exact absurd (isWordChar_of_mem_word hlex (List.mem_cons_of_mem c hmem)) (by decide)
  | number =>
    obtain ⟨hnl, -, -, -, hnum⟩ := hread
    refine ⟨Ne.symm hnl, fun hmem => ?_⟩
    have hmem := mem_numeralTail (by rwa [hnum])
    exact absurd hmem (by decide)
  | symbol =>
    obtain ⟨hnl, -, -, -, htail, -⟩ := hread
    refine ⟨Ne.symm hnl, fun hmem => ?_⟩
    obtain ⟨l, hl, hmem⟩ := mem_symbolTail (by rwa [htail])
    exact not_mem_of_partsSymbols (by decide) l hl hmem

/-- A word has no characters of words around it. -/
theorem isMaximalRun_of_lexeme {before rest tail : Text} {c : Char}
    (hlex : lexeme c (tail ++ rest) = ⟨.word, tail, rest⟩)
    (hbefore : ∀ e, before.getLast? = some e → isWordChar c = true → isWordChar e = false) :
    IsMaximalRun isWordChar (before ++ c :: (tail ++ rest)) (byteSize before) (c :: tail) := by
  have hword : ∀ d ∈ c :: tail, isWordChar d = true := fun d => isWordChar_of_mem_word hlex
  refine ⟨before, rest, by simp, rfl, hword, fun e he => ?_, ?_⟩
  · exact hbefore e he (hword c List.mem_cons_self)
  · exact (stops_or_plain hlex).resolve_right fun h => h.1 rfl

/-! ## All tokens -/

/-- The first token of a text, if it is a word, begins with a character of a word. -/
theorem head?_tokenizeFrom {offset : Nat} {text : Text} {t : Token}
    (h : (tokenizeFrom offset text).head? = some t) (hword : t.kind = .word) :
    ∃ d, text.head? = some d ∧ isWordChar d = true := by
  cases text with
  | nil =>
    rw [tokenizeFrom] at h
    cases h
  | cons d text =>
    rw [tokenizeFrom] at h
    obtain rfl := Option.some.inj h
    refine ⟨d, rfl, ?_⟩
    have hread : lexeme d text = ⟨.word, (lexeme d text).tail, (lexeme d text).rest⟩ := by
      rw [← (hword : (lexeme d text).kind = .word)]
    exact isWordChar_of_isWordStart (lexeme_eq_iff.1 hread).2.2.1

/--
The tokens of what follows a text, if no two characters of words stand side by side where the one
ends and the other begins.
-/
theorem isTokenized_tokenizeFrom (before text : Text)
    (hbefore : ∀ e c, before.getLast? = some e → text.head? = some c → isWordChar c = true →
      isWordChar e = false) :
    IsTokenized (before ++ text) (byteSize before) (tokenizeFrom (byteSize before) text) := by
  induction text using induction_on_lexemes generalizing before with
  | nil =>
    rw [tokenizeFrom, List.append_nil]
    exact ⟨.done, List.forall_mem_nil _, List.forall_mem_nil _, .nil⟩
  | @cons kind c tail rest hlex ih =>
    have hseam := stops_or_plain hlex
    have hafter : ∀ e d, (before ++ c :: tail).getLast? = some e → rest.head? = some d →
        isWordChar d = true → isWordChar e = false := by
      intro e d he hd hword
      rcases hseam with hstop | ⟨-, -, hplain⟩
      · exact absurd (hword.symm.trans (hstop d hd)) (by decide)
      · rw [List.getLast?_append_of_ne_nil _ (List.cons_ne_nil c tail)] at he
        exact hplain e (List.mem_of_getLast? he)
    have hmore := ih (before ++ c :: tail) hafter
    rw [List.append_assoc, List.cons_append, byteSize_append] at hmore
    rw [tokenizeFrom_cons _ hlex]
    refine ⟨?_, ?_, ?_, ?_⟩
    · have hat : HoldsAt (c :: tail <+: ·) (before ++ c :: (tail ++ rest)) (byteSize before) :=
        holdsAt_iff.2 ⟨rest, rfl⟩
      exact @TokensLaid.next _ ⟨kind, c :: tail, byteSize before⟩ _ (List.cons_ne_nil c tail) hat
        hmore.laid
    · exact List.forall_mem_cons.2 ⟨feed_of_lexeme hlex, hmore.feeds⟩
    · refine List.forall_mem_cons.2 ⟨?_, hmore.words⟩
      rintro rfl
      exact isMaximalRun_of_lexeme hlex fun e he hc => hbefore e c he rfl hc
    · refine List.isChain_cons.2 ⟨fun t ht hword => ?_, hmore.apart⟩
      obtain ⟨d, hd, hwordChar⟩ := head?_tokenizeFrom ht hword
      rcases hseam with hstop | ⟨hnotWord, hnotNumber, -⟩
      · exact absurd (hwordChar.symm.trans (hstop d hd)) (by decide)
      · exact ⟨hnotWord, hnotNumber⟩

theorem isTokenized_tokenize (code : Text) : IsTokenized code 0 (tokenize code) :=
  isTokenized_tokenizeFrom [] code fun _ _ he => nomatch he

/-! ## Tokens of lines -/

/-- No token is read across a line feed. -/
theorem stopsToken_lineFeed {kind : TokenKind} {c : Char} {t : Text} (b : Text) :
    StopsToken kind c t ('\n' :: b) := by
  have hhead : ∀ {p : Char → Prop}, p '\n' → ∀ d, ('\n' :: b).head? = some d → p d := by
    intro p hp d hd
    obtain rfl := Option.some.inj hd
    exact hp
  cases kind with
  | newline => trivial
  | blank => exact hhead (by decide)
  | word => exact hhead (by decide)
  | number => exact hhead ⟨by decide, fun h => absurd h (by decide)⟩
  | symbol => exact stopsSymbol_of_partsSymbols (by decide) (by decide)

/-- The tokens of a text are those of the lines before and behind a line feed. -/
theorem tokenizeFrom_append_lineFeed (offset : Nat) (a b : Text) :
    tokenizeFrom offset (a ++ '\n' :: b) =
      tokenizeFrom offset a ++ ⟨.newline, ['\n'], offset + byteSize a⟩ ::
        tokenizeFrom (offset + byteSize a + 1) b := by
  induction a using induction_on_lexemes generalizing offset with
  | nil =>
    have hfeed : lexeme '\n' ([] ++ b) = ⟨.newline, [], b⟩ := rfl
    rw [tokenizeFrom, List.nil_append, List.nil_append]
    exact tokenizeFrom_cons offset hfeed
  | @cons kind c tail rest hlex ih =>
    have hlonger : lexeme c (tail ++ (rest ++ '\n' :: b)) = ⟨kind, tail, rest ++ '\n' :: b⟩ := by
      rw [← List.append_assoc]
      by_cases hrest : rest = []
      · subst hrest
        rw [List.append_nil] at hlex ⊢
        exact lexeme_append_of_stop hlex (stopsToken_lineFeed b)
      · exact lexeme_append_of_rest _ hlex hrest
    have hsize : offset + byteSize (c :: (tail ++ rest)) =
        offset + byteSize (c :: tail) + byteSize rest := by
      simp only [byteSize_cons, byteSize_append, Nat.add_assoc]
    rw [List.cons_append, List.append_assoc, tokenizeFrom_cons offset hlonger, ih,
      tokenizeFrom_cons offset hlex, hsize, List.cons_append]

theorem tokenizeFrom_shift (offset n : Nat) (code : Text) :
    tokenizeFrom (offset + n) code = (tokenizeFrom offset code).map (Token.shift n) := by
  induction code using induction_on_lexemes generalizing offset with
  | nil => simp [tokenizeFrom]
  | @cons kind c tail rest hlex ih =>
    rw [tokenizeFrom_cons _ hlex, tokenizeFrom_cons _ hlex, List.map_cons, ← ih, Nat.add_right_comm]
    rfl

/--
The tokens of a text are a partition of it: side by side from its start to its end, and none is
empty. A line feed is a token of its own, and no other token holds one. A word is a maximal run of
characters of words, and stands directly behind no word and no numeral. The tokens of two lines
are those of the first, a line feed, and those of the second.
-/
theorem tokenize_partition :
    (∀ code, (tokenize code).flatMap Token.text = code ∧ IsTokenized code 0 (tokenize code)) ∧
    ∀ a b, tokenize (a ++ '\n' :: b) =
      tokenize a ++ ⟨.newline, ['\n'], byteSize a⟩ ::
        (tokenize b).map (Token.shift (byteSize a + 1)) := by
  refine ⟨fun code => ⟨flatMap_text_tokenize code, isTokenized_tokenize code⟩, fun a b => ?_⟩
  unfold tokenize
  rw [tokenizeFrom_append_lineFeed, ← tokenizeFrom_shift, Nat.zero_add, Nat.zero_add]

end LuaVeil
