/-
# Labels of tokens

The label of a token is its kind with its text, without its place. What follows a
text can only change the last token of the text, so that the labels of a text
that is put together from two parts are those of the parts as soon as the last
token of the first part ends where it did.

Main statements:

* `lexeme_eq_iff`, how the first token of a text is read;
* `exists_lastToken`, all tokens but the last stay as they are, whatever follows;
* `lexeme_append_of_stop`, the last token stays as it is if the next character
  cannot be a part of it.
-/
import LuaVeil.Lua.Token
import Mathlib.Data.List.Find
import Mathlib.Data.List.TakeWhile

namespace LuaVeil

/-- The kind and the text of a token. -/
def Token.label (t : Token) : TokenKind × Text :=
  (t.kind, t.text)

/-- The labels of the tokens of a text. -/
def labels (code : Text) : List (TokenKind × Text) :=
  (tokenize code).map Token.label

/-- Labels do not depend on where a text begins. -/
theorem map_label_tokenizeFrom (offset : Nat) (code : Text) :
    (tokenizeFrom offset code).map Token.label = labels code := by
  rw [labels, tokenize]
  generalize 0 = start
  fun_induction tokenizeFrom offset code generalizing start with
  | case1 => rw [tokenizeFrom]
  | case2 offset c t first text ih =>
    rw [tokenizeFrom, List.map_cons, List.map_cons, ih]
    rfl

@[simp] theorem labels_nil : labels [] = [] := by
  rw [labels, tokenize, tokenizeFrom]
  rfl

theorem labels_cons (c : Char) (t : Text) :
    labels (c :: t) = ((lexeme c t).kind, c :: (lexeme c t).tail) :: labels (lexeme c t).rest := by
  rw [labels, tokenize, tokenizeFrom, List.map_cons, map_label_tokenizeFrom]
  rfl

/-! ## How a token is read -/

/-- How a token of this kind is read at the start of `c :: t`. -/
def TokenKind.Reads (c : Char) (t tail rest : Text) : TokenKind → Prop
  | .newline => c = '\n' ∧ [] = tail ∧ t = rest
  | .blank => c ≠ '\n' ∧ Text.isSeparator c = true ∧ t.takeWhile Text.isSeparator = tail ∧
      t.dropWhile Text.isSeparator = rest
  | .word => c ≠ '\n' ∧ Text.isSeparator c = false ∧ isWordStart c = true ∧
      t.takeWhile isWordChar = tail ∧ t.dropWhile isWordChar = rest
  | .number => c ≠ '\n' ∧ Text.isSeparator c = false ∧ isWordStart c = false ∧
      isNumeralStart c t = true ∧ numeralTail (isHexStart c t) t = (tail, rest)
  | .symbol => c ≠ '\n' ∧ Text.isSeparator c = false ∧ isWordStart c = false ∧
      isNumeralStart c t = false ∧ symbolTail c t = tail ∧ t.drop tail.length = rest

/-- The first token of a text is read in the way of its kind, and in no other. -/
theorem lexeme_eq_iff {kind : TokenKind} {c : Char} {t tail rest : Text} :
    lexeme c t = ⟨kind, tail, rest⟩ ↔ kind.Reads c t tail rest := by
  unfold lexeme
  by_cases hnl : c = '\n'
  · subst hnl
    cases kind <;> simp [TokenKind.Reads]
  by_cases hsep : Text.isSeparator c = true
  · cases kind <;> simp [TokenKind.Reads, hnl, hsep]
  by_cases hword : isWordStart c = true
  · cases kind <;> simp [TokenKind.Reads, hnl, hsep, hword]
  by_cases hnum : isNumeralStart c t = true
  · cases kind <;> simp [TokenKind.Reads, hnl, hsep, hword, hnum, Prod.ext_iff]
  · cases kind <;> simp only [Bool.not_eq_true] at hsep hword hnum <;>
      simp [TokenKind.Reads, hnl, hsep, hword, hnum]
    rintro rfl
    rfl

/-- A text is read token by token. -/
theorem induction_on_lexemes {motive : Text → Prop} (nil : motive [])
    (cons : ∀ {kind c tail rest}, lexeme c (tail ++ rest) = ⟨kind, tail, rest⟩ → motive rest →
      motive (c :: (tail ++ rest))) : ∀ code, motive code
  | [] => nil
  | c :: t => by
    have happ := lexeme_append c t
    have hmore := induction_on_lexemes nil cons (lexeme c t).rest
    rw [← happ]
    exact cons (by rw [happ]) hmore
termination_by code => code.length
decreasing_by
  have hlength := length_rest_lexeme c t
  simp only [List.length_cons]
  omega

/-! ## Tokens with something after them -/

theorem isNumeralChar_of_isExponentMark {hex : Bool} {c : Char} (h : isExponentMark hex c = true) :
    isNumeralChar c = true := by
  cases hex <;>
    simp only [isExponentMark, Bool.false_eq_true, if_false, if_true, Bool.or_eq_true,
      beq_iff_eq] at h <;>
    rcases h with rfl | rfl <;> decide

/-- A numeral goes on only with characters of numerals. -/
theorem numeralTail_of_stop {hex : Bool} {t : Text}
    (h : ∀ c, t.head? = some c → isNumeralChar c = false) : numeralTail hex t = ([], t) := by
  cases t with
  | nil => rfl
  | cons c t =>
    have hc := h c rfl
    have he : isExponentMark hex c = false := by
      by_contra he
      rw [isNumeralChar_of_isExponentMark (by simpa using he)] at hc
      exact absurd hc (by simp)
    cases t with
    | nil => simp [numeralTail, hc]
    | cons d t => simp [numeralTail, hc, he]

theorem numeralTail_append_of_rest {hex : Bool} {t : Text} (b : Text)
    (h : (numeralTail hex t).2 ≠ []) :
    numeralTail hex (t ++ b) = ((numeralTail hex t).1, (numeralTail hex t).2 ++ b) := by
  fun_induction numeralTail hex t with
  | case1 => simp at h
  | case2 => simp at h
  | case3 c hc =>
    refine numeralTail_of_stop fun d hd => ?_
    obtain rfl : c = d := by simpa using hd
    simpa using hc
  | case4 c d t hs more rest hm ih =>
    simp only [hm] at h ih
    simp [numeralTail, hs, ih h]
  | case5 c d t hs hc more rest hm ih =>
    simp only [hm] at h ih
    have ih' := ih h
    rw [List.cons_append] at ih'
    simp only [List.cons_append, numeralTail, if_neg hs, if_pos hc, ih']
  | case6 c d t hs hc =>
    simp only [List.cons_append, numeralTail, if_neg hs, if_neg hc]

/-- A symbol depends on a text only through the long symbols that the text begins with. -/
theorem symbolTail_congr {c : Char} {s t : Text}
    (h : ∀ l ∈ longSymbols, l <+: c :: s ↔ l <+: c :: t) : symbolTail c s = symbolTail c t := by
  have hfind : longSymbols.find? (·.isPrefixOf (c :: s)) =
      longSymbols.find? (·.isPrefixOf (c :: t)) := by
    refine List.find?_congr fun l hl => ?_
    rw [Bool.eq_iff_iff, List.isPrefixOf_iff_prefix, List.isPrefixOf_iff_prefix, h l hl]
  rw [symbolTail, symbolTail, hfind]

/-- Of the long symbols only those of points are longer than two characters. -/
theorem take_longSymbol : ∀ l ∈ longSymbols, ∀ n < l.length, 2 ≤ n → l.take n = ['.', '.'] := by
  decide

/-- A symbol with something after it is not made longer by what follows. -/
theorem symbolTail_append_of_rest {c : Char} {t : Text} (b : Text)
    (h : t.drop (symbolTail c t).length ≠ []) : symbolTail c (t ++ b) = symbolTail c t := by
  refine symbolTail_congr fun l hl => ⟨fun hp => ?_, fun hp => hp.trans (by simp)⟩
  -- a longer symbol would begin with all of `c :: t`, and then `c :: t` is two points
  by_contra hn
  have hlen : (c :: t).length < l.length := by
    by_contra hle
    exact hn (List.prefix_of_prefix_length_le hp (List.prefix_append (c :: t) b) (by omega))
  have ht : c :: t <+: l :=
    List.prefix_of_prefix_length_le (List.prefix_append (c :: t) b) hp (by omega)
  have htne : t ≠ [] := by rintro rfl; simp at h
  have hpos := List.length_pos_iff.2 htne
  have hdots := take_longSymbol l hl (c :: t).length hlen (by simp only [List.length_cons]; omega)
  rw [← List.prefix_iff_eq_take.1 ht] at hdots
  obtain ⟨rfl, rfl⟩ := List.cons.inj hdots
  exact h rfl

theorem isNumeralStart_append (c : Char) {t : Text} (b : Text) (h : t ≠ []) :
    isNumeralStart c (t ++ b) = isNumeralStart c t := by
  cases t with
  | nil => exact absurd rfl h
  | cons d t => rfl

theorem isHexStart_append (c : Char) {t : Text} (b : Text) (h : t ≠ []) :
    isHexStart c (t ++ b) = isHexStart c t := by
  cases t with
  | nil => exact absurd rfl h
  | cons d t => rfl

theorem takeWhile_append_of_rest {p : Char → Bool} {t : Text} (b : Text) (h : t.dropWhile p ≠ []) :
    (t ++ b).takeWhile p = t.takeWhile p := by
  rw [List.takeWhile_append, if_neg]
  intro hlen
  have happ := congrArg List.length (List.takeWhile_append_dropWhile (p := p) (l := t))
  rw [List.length_append, hlen] at happ
  exact h (List.eq_nil_of_length_eq_zero (by omega))

theorem dropWhile_append_of_rest {p : Char → Bool} {t : Text} (b : Text) (h : t.dropWhile p ≠ []) :
    (t ++ b).dropWhile p = t.dropWhile p ++ b := by
  rw [List.dropWhile_append, if_neg (by simpa using h)]

/-- A token with something after it stays as it is whatever follows. -/
theorem lexeme_append_of_rest {kind : TokenKind} {c : Char} {t tail rest : Text} (b : Text)
    (h : lexeme c t = ⟨kind, tail, rest⟩) (hrest : rest ≠ []) :
    lexeme c (t ++ b) = ⟨kind, tail, rest ++ b⟩ := by
  have hne : t ≠ [] := by
    rintro rfl
    have happ := lexeme_append c []
    rw [h] at happ
    exact hrest (List.append_eq_nil_iff.1 happ).2
  rw [lexeme_eq_iff] at h ⊢
  cases kind with
  | newline =>
    obtain ⟨hc, htail, rfl⟩ := h
    exact ⟨hc, htail, rfl⟩
  | blank =>
    obtain ⟨hnl, hsep, rfl, rfl⟩ := h
    exact ⟨hnl, hsep, takeWhile_append_of_rest b hrest, dropWhile_append_of_rest b hrest⟩
  | word =>
    obtain ⟨hnl, hsep, hword, rfl, rfl⟩ := h
    exact ⟨hnl, hsep, hword, takeWhile_append_of_rest b hrest, dropWhile_append_of_rest b hrest⟩
  | number =>
    obtain ⟨hnl, hsep, hword, hnum, hread⟩ := h
    refine ⟨hnl, hsep, hword, by rwa [isNumeralStart_append c b hne], ?_⟩
    rw [isHexStart_append c b hne, numeralTail_append_of_rest b (by rwa [hread]), hread]
  | symbol =>
    obtain ⟨hnl, hsep, hword, hnum, rfl, rfl⟩ := h
    refine ⟨hnl, hsep, hword, by rwa [isNumeralStart_append c b hne],
      symbolTail_append_of_rest b hrest, ?_⟩
    rw [List.drop_append_of_le_length (prefix_symbolTail c t).length_le]

/-! ## Putting texts together -/

/-- All tokens of a text but the last stay as they are, whatever follows the text. -/
theorem exists_lastToken {a : Text} (ha : a ≠ []) :
    ∃ front kind c t, labels a = front ++ [(kind, c :: t)] ∧ lexeme c t = ⟨kind, t, []⟩ ∧
      c :: t <:+ a ∧ ∀ b, labels (a ++ b) = front ++ labels (c :: (t ++ b)) := by
  induction a using induction_on_lexemes with
  | nil => exact absurd rfl ha
  | @cons kind c tail rest hlex ih =>
    have hcons := labels_cons c (tail ++ rest)
    rw [hlex] at hcons
    by_cases hrest : rest = []
    · subst hrest
      rw [List.append_nil] at hlex hcons ⊢
      exact ⟨[], kind, c, tail, by rw [hcons, labels_nil, List.nil_append], hlex,
        List.suffix_rfl, fun b => rfl⟩
    · obtain ⟨front, kind', c', t', hfront, hlex', hsuffix, happend⟩ := ih hrest
      refine ⟨(kind, c :: tail) :: front, kind', c', t', ?_, hlex', ?_, fun b => ?_⟩
      · rw [hcons, hfront, List.cons_append]
      · exact hsuffix.trans (List.suffix_append (c :: tail) rest)
      · rw [List.cons_append, labels_cons, lexeme_append_of_rest b hlex hrest]
        simp only [happend, List.cons_append]

/-- The labels of two texts put together, if the last token of the first stays as it is. -/
theorem labels_append {a b : Text}
    (h : ∀ c t kind, (labels a).getLast? = some (kind, c :: t) → lexeme c t = ⟨kind, t, []⟩ →
      lexeme c (t ++ b) = ⟨kind, t, b⟩) : labels (a ++ b) = labels a ++ labels b := by
  by_cases ha : a = []
  · subst ha
    simp
  obtain ⟨front, kind, c, t, hlabels, hlex, -, happend⟩ := exists_lastToken ha
  rw [happend, labels_cons, h c t kind (by simp [hlabels]) hlex, hlabels]
  simp

/-! ## Where tokens end -/

/-- Whether the text `b` can follow a numeral that goes on with `t` after its first character. -/
def StopsNumeral (hex : Bool) (t b : Text) : Prop :=
  ∀ d, b.head? = some d → isNumeralChar d = false ∧
    ((d == '+' || d == '-') = true → ∀ e, t.getLast? = some e → isExponentMark hex e = false)

theorem numeralTail_append_of_stop {hex : Bool} {t b : Text} (h : (numeralTail hex t).2 = [])
    (hb : StopsNumeral hex t b) : numeralTail hex (t ++ b) = (t, b) := by
  have hstart : ∀ t', (∀ c, t'.head? = some c → isNumeralChar c = false) →
      numeralTail hex t' = ([], t') := fun _ => numeralTail_of_stop
  fun_induction numeralTail hex t with
  | case1 => exact hstart b fun d hd => (hb d hd).1
  | case2 c hc =>
    cases b with
    | nil => simp [numeralTail, hc]
    | cons d b =>
      obtain ⟨hd, hsign⟩ := hb d rfl
      have hexp : ¬ (isExponentMark hex c && (d == '+' || d == '-')) = true := by
        intro hexp
        rw [Bool.and_eq_true] at hexp
        rw [hsign hexp.2 c rfl] at hexp
        exact absurd hexp.1 (by simp)
      have hpoint : d ≠ '.' := by rintro rfl; exact absurd hd (by decide)
      have hgo : (isNumeralChar c && !(c == '.' && d == '.')) = true := by simp [hc, hpoint]
      rw [List.cons_append, List.nil_append, numeralTail, if_neg hexp, if_pos hgo,
        hstart (d :: b) fun d' hd' => (hb d' hd').1]
  | case3 c hc => simp at h
  | case4 c d t hs more rest hm ih =>
    simp only [hm] at h ih
    have hb' : StopsNumeral hex t b := fun e he =>
      ⟨(hb e he).1, fun hsign x hx => (hb e he).2 hsign x (by simp [List.getLast?_cons, hx])⟩
    simp [numeralTail, hs, ih h hb']
  | case5 c d t hs hc more rest hm ih =>
    simp only [hm] at h ih
    have hb' : StopsNumeral hex (d :: t) b := fun e he =>
      ⟨(hb e he).1, fun hsign x hx =>
        (hb e he).2 hsign x (by rw [List.getLast?_cons_cons]; exact hx)⟩
    have ih' := ih h hb'
    rw [List.cons_append] at ih'
    simp only [List.cons_append, numeralTail, if_neg hs, if_pos hc, ih']
  | case6 c d t hs hc => simp at h

/-- Whether the text `b` can follow a symbol that is made of `c` and `t`. -/
def StopsSymbol (c : Char) (t b : Text) : Prop :=
  (∀ l ∈ longSymbols, l <+: c :: (t ++ b) → l <+: c :: t) ∧
    (c = '.' → t = [] → ∀ d, b.head? = some d → d.isDigit = false)

/-- Whether a token of kind `kind` that is made of `c` and `t` ends where the text `b` begins. -/
def StopsToken (kind : TokenKind) (c : Char) (t b : Text) : Prop :=
  match kind with
  | .newline => True
  | .blank => ∀ d, b.head? = some d → Text.isSeparator d = false
  | .word => ∀ d, b.head? = some d → isWordChar d = false
  | .number => StopsNumeral (isHexStart c t) t b
  | .symbol => StopsSymbol c t b

theorem takeWhile_append_of_stop {p : Char → Bool} {t b : Text} (h : t.dropWhile p = [])
    (hb : ∀ d, b.head? = some d → p d = false) :
    (t ++ b).takeWhile p = t ∧ (t ++ b).dropWhile p = b := by
  have hall : ∀ c ∈ t, p c = true := List.dropWhile_eq_nil_iff.1 h
  rw [List.takeWhile_append_of_pos hall, List.dropWhile_append_of_pos hall]
  cases b with
  | nil => simp
  | cons d b =>
    have hd : ¬ p d = true := by simp [hb d rfl]
    rw [List.takeWhile_cons_of_neg hd, List.dropWhile_cons_of_neg hd, List.append_nil]
    exact ⟨rfl, rfl⟩

/-- A token to the end of a text stays as it is if a text follows that is no part of it. -/
theorem lexeme_append_of_stop {kind : TokenKind} {c : Char} {t b : Text}
    (h : lexeme c t = ⟨kind, t, []⟩) (hb : StopsToken kind c t b) :
    lexeme c (t ++ b) = ⟨kind, t, b⟩ := by
  rw [lexeme_eq_iff] at h ⊢
  cases kind with
  | newline =>
    obtain ⟨hc, rfl, -⟩ := h
    exact ⟨hc, rfl, rfl⟩
  | blank =>
    obtain ⟨hnl, hsep, -, hrest⟩ := h
    exact ⟨hnl, hsep, takeWhile_append_of_stop hrest hb⟩
  | word =>
    obtain ⟨hnl, hsep, hword, -, hrest⟩ := h
    exact ⟨hnl, hsep, hword, takeWhile_append_of_stop hrest hb⟩
  | number =>
    obtain ⟨hnl, hsep, hword, hnum, hread⟩ := h
    have hstart : isNumeralStart c (t ++ b) = true ∧ isHexStart c (t ++ b) = isHexStart c t := by
      cases t with
      | cons d t => exact ⟨hnum, rfl⟩
      | nil =>
        have hdigit : c.isDigit = true := by simpa [isNumeralStart] using hnum
        refine ⟨by simp [isNumeralStart, hdigit], ?_⟩
        cases b with
        | nil => rfl
        | cons d b =>
          have hx : ¬ (d = 'x' ∨ d = 'X') := by
            rintro (rfl | rfl) <;> exact absurd (hb _ rfl).1 (by decide)
          simpa [isHexStart] using fun _ => hx
    refine ⟨hnl, hsep, hword, hstart.1, ?_⟩
    rw [hstart.2, numeralTail_append_of_stop (by rw [hread]) hb]
  | symbol =>
    obtain ⟨hnl, hsep, hword, hnum, htail, -⟩ := h
    refine ⟨hnl, hsep, hword, ?_, ?_, List.drop_left⟩
    · cases t with
      | cons d t => exact hnum
      | nil =>
        simp only [isNumeralStart, Bool.or_eq_false_iff, Bool.and_eq_false_imp, beq_iff_eq] at hnum ⊢
        refine ⟨hnum.1, fun hc => ?_⟩
        cases b with
        | nil => rfl
        | cons d b => simpa using hb.2 hc rfl d rfl
    · rw [← symbolTail_congr fun l hl => ⟨fun hp => hp.trans (by simp), hb.1 l hl⟩, htail]

end LuaVeil
