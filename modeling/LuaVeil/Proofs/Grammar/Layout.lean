/-
# Layouts

A layout writes the terminals of a script one after the other, with any blanks,
line feeds and comments in front of, between and behind them. Two terminals may
touch as long as the second does not go on with the first.

Main statement: `scan_of_layout`, the scan of a layout finds its terminals.
-/
import LuaVeil.Proofs.Grammar.Lexemes
import LuaVeil.Scope.Occurrence

namespace LuaVeil

/-! ## Layouts -/

/-- The blanks of the language on one line: the separators and the vertical tab. -/
def isLuaBlank (c : Char) : Bool :=
  Text.isSeparator c || c == '\x0b'

/-- What can stand between two terminals, given which characters are blanks. -/
inductive Space (isBlank : Char → Bool) where
  | blank (c : Char) (h : isBlank c = true)
  | lineFeed
  | lineComment (body : Text) (hline : '\n' ∉ body) (hlong : NoLongBracket body)
  | blockComment (level : Nat) (content : Text) (h : LongContent level content)

/-- A space as it is written; a line comment with the end of its line. -/
def Space.text {isBlank : Char → Bool} : Space isBlank → Text
  | blank c _ => [c]
  | lineFeed => ['\n']
  | lineComment body _ _ => '-' :: '-' :: body ++ ['\n']
  | blockComment level content _ => '-' :: '-' :: (Delimiter.long level).enclose content

/-- Whether a terminal ends where the text `rest` begins. -/
def Terminal.EndsBefore (rest : Text) : Terminal → Prop
  | word _ _ => ∀ c, rest.head? = some c → isWordChar c = false
  | number t _ => (∀ c, rest.head? = some c → isNumeralChar c = false) ∨
      (t.getLast? ≠ some '.' ∧ ['.', '.'] <+: rest)
  | symbol t _ => (∀ l ∈ longSymbols, l <+: t ++ rest → l <+: t) ∧
      (t = ['.'] → ∀ c, rest.head? = some c → c.isDigit = false) ∧
      (t = ['-'] → rest.head? ≠ some '-') ∧ (t = ['['] → NoLongBracket ('[' :: rest))
  | string _ _ => True

/-- A symbol that begins no longer one ends before every text. -/
theorem Terminal.endsBefore_of_alone {c : Char} (h : [c] ∈ luaSymbols)
    (halone : (longSymbols.all fun l => l.head? != some c) = true)
    (hc : c ≠ '.' ∧ c ≠ '-' ∧ c ≠ '[') (rest : Text) : (Terminal.symbol [c] h).EndsBefore rest := by
  refine ⟨fun l hl hp => ?_, fun h => ?_, fun h => ?_, fun h => ?_⟩
  · cases l with
    | nil => exact List.nil_prefix
    | cons d l =>
      obtain rfl : d = c := (List.cons_prefix_cons.1 hp).1
      exact absurd (List.all_eq_true.1 halone _ hl) (by simp)
  · exact absurd (List.cons.inj h).1 hc.1
  · exact absurd (List.cons.inj h).1 hc.2.1
  · exact absurd (List.cons.inj h).1 hc.2.2

/-- Every terminal ends before a blank of the language. -/
theorem Terminal.endsBefore_of_isLuaBlank (t : Terminal) {c : Char} (hc : isLuaBlank c = true)
    (rest : Text) : t.EndsBefore (c :: rest) := by
  have hplain : isWordChar c = false ∧ isNumeralChar c = false ∧ c.isDigit = false ∧ c ≠ '-' ∧
      c ≠ '=' ∧ c ≠ '[' ∧ (longSymbols.all fun l => !l.contains c) = true := by
    simp only [isLuaBlank, Text.isSeparator, Bool.or_eq_true, beq_iff_eq] at hc
    rcases hc with (((rfl | rfl) | rfl) | rfl) | rfl <;> decide
  obtain ⟨hword, hnumeral, hdigit, hdash, hequals, hbracket, hlong⟩ := hplain
  cases t with
  | word w h =>
    intro d hd
    obtain rfl : c = d := by simpa using hd
    exact hword
  | number w h =>
    refine .inl fun d hd => ?_
    obtain rfl : c = d := by simpa using hd
    exact hnumeral
  | symbol w h =>
    refine ⟨fun l hl hprefix => ?_, fun _ d hd => ?_, fun _ => by simpa using hdash, fun _ => ?_⟩
    · rcases Nat.le_total l.length w.length with hle | hle
      · exact List.prefix_of_prefix_length_le hprefix (List.prefix_append w _) hle
      · -- a longer symbol would hold the blank
        obtain ⟨u, rfl⟩ := List.prefix_of_prefix_length_le (List.prefix_append w _) hprefix hle
        cases u with
        | nil => simp
        | cons d u =>
          obtain rfl : d = c :=
            (List.cons_prefix_cons.1 ((List.prefix_append_right_inj w).1 hprefix)).1
          have hnot := List.all_eq_true.1 hlong _ hl
          simp at hnot
    · obtain rfl : c = d := by simpa using hd
      exact hdigit
    · intro level hprefix
      simp only [Delimiter.opening, List.cons_append] at hprefix
      have hnext := (List.cons_prefix_cons.1 hprefix).2
      cases level with
      | zero => exact hbracket (List.cons_prefix_cons.1 hnext).1.symm
      | succ level => exact hequals (List.cons_prefix_cons.1 hnext).1.symm
  | string w h => trivial

/-- Whether a text is a layout of some terminals, given which characters are blanks. -/
inductive Layout (isBlank : Char → Bool) : List Terminal → Text → Prop
  | done : Layout isBlank [] []
  /-- a line comment without a line feed behind it -/
  | comment {body : Text} (hline : '\n' ∉ body) (hlong : NoLongBracket body) :
      Layout isBlank [] ('-' :: '-' :: body)
  | space {ts : List Terminal} {rest : Text} (s : Space isBlank) (h : Layout isBlank ts rest) :
      Layout isBlank ts (s.text ++ rest)
  | next {ts : List Terminal} {rest : Text} (t : Terminal) (h : Layout isBlank ts rest)
      (hend : t.EndsBefore rest) : Layout isBlank (t :: ts) (t.text ++ rest)

/-- Terminals with a space behind each are a layout. -/
theorem layout_spaced {isBlank : Char → Bool} (hspace : isBlank ' ' = true) (ts : List Terminal) :
    Layout isBlank ts (ts.flatMap fun t => t.text ++ [' ']) := by
  induction ts with
  | nil => exact .done
  | cons t ts ih =>
    rw [List.flatMap_cons, List.append_assoc]
    have hend := t.endsBefore_of_isLuaBlank (c := ' ') (by decide)
    exact .next t (.space (.blank ' ' hspace) ih) (hend _)

/-! ## Scanning -/

theorem splitCode_of_opener {t : Text} {o : Opener} (h : opener? t = some o) :
    splitCode t = ([], t) := by
  cases t with
  | nil => rfl
  | cons c t => rw [splitCode, h, Option.isSome_some, if_pos rfl]

/-- One step of the scan. -/
theorem scanFrom_eq (start : Nat) (t : Text) :
    scanFrom start t =
      match opener? (splitCode t).2 with
      | none => .ok (codeSpans start (splitCode t).1)
      | some o =>
        let place := start + Text.byteSize (splitCode t).1
        match o.body? ((splitCode t).2.drop o.text.length) with
        | none => .error (o.unterminated place)
        | some (body, rest) =>
          let stop := place + Text.byteSize (o.text ++ body)
          (scanFrom stop rest).map fun spans =>
            codeSpans start (splitCode t).1 ++ ⟨o.kind, o.text ++ body, place, stop⟩ :: spans := by
  rw [scanFrom]
  split
  · next ho => rw [ho]
  · next o ho =>
    rw [ho]
    split
    · next hb => simp only [hb]
    · next body rest hb => simp only [hb]

/-- Code in front of an opener is one span, or none if there is no code. -/
theorem scanFrom_of_splitCode {start : Nat} {t : Text} {later : List Span}
    (h : scanFrom (start + Text.byteSize (splitCode t).1) (splitCode t).2 = .ok later) :
    scanFrom start t = .ok (codeSpans start (splitCode t).1 ++ later) := by
  rw [scanFrom_eq] at h ⊢
  cases ho : opener? (splitCode t).2 with
  | none =>
    rw [opener?_splitCode ho] at h
    obtain rfl : [] = later := Except.ok.inj h
    rw [List.append_nil]
  | some o =>
    simp only [splitCode_of_opener ho, ho, Text.byteSize_nil, Nat.add_zero] at h ⊢
    cases hb : o.body? ((splitCode t).2.drop o.text.length) with
    | none => simp [hb] at h
    | some cut =>
      obtain ⟨body, rest⟩ := cut
      simp only [hb] at h ⊢
      cases hs : scanFrom (start + Text.byteSize (splitCode t).1 +
          Text.byteSize (o.text ++ body)) rest with
      | error e =>
        rw [hs] at h
        exact absurd h (by simp [Except.map])
      | ok spans =>
        simp only [hs, Except.map, Except.ok.injEq] at h ⊢
        rw [← h]
        rfl

/-- An opener with its body is one span. -/
theorem scanFrom_opener {start : Nat} {t body rest : Text} {o : Opener} {spans : List Span}
    (ho : opener? t = some o) (hb : o.body? (t.drop o.text.length) = some (body, rest))
    (h : scanFrom (start + Text.byteSize (o.text ++ body)) rest = .ok spans) :
    scanFrom start t =
      .ok (⟨o.kind, o.text ++ body, start, start + Text.byteSize (o.text ++ body)⟩ :: spans) := by
  rw [scanFrom_eq]
  simp only [splitCode_of_opener ho, ho, hb, Text.byteSize_nil, Nat.add_zero, h]
  rfl

theorem scanFrom_opener_error {start : Nat} {t : Text} {o : Opener} (ho : opener? t = some o)
    (hb : o.body? (t.drop o.text.length) = none) :
    scanFrom start t = .error (o.unterminated start) := by
  rw [scanFrom_eq]
  simp only [splitCode_of_opener ho, ho, hb, Text.byteSize_nil, Nat.add_zero]

/-! ## The terminals of a layout -/

/-- The marks of a piece of code. -/
def codeMarks (code : Text) : List Mark :=
  (tokenize code).filterMap Token.mark?

/-- Whether a span is no string with holes. -/
def Span.hasNoHoles (s : Span) : Prop :=
  s.kind = .string → holes s.text = []

/-- Whether the scan of a text finds some marks: those of the code at its start, and others. -/
def Finds (t : Text) (ms : List Mark) : Prop :=
  ∀ start, ∃ later, scanFrom start (splitCode t).2 = .ok later ∧
    ms = codeMarks (splitCode t).1 ++ later.flatMap Span.marks ∧ ∀ s ∈ later, s.hasNoHoles

theorem marks_codeSpans (start : Nat) (code : Text) :
    (codeSpans start code).flatMap Span.marks = codeMarks code ∧
      ∀ s ∈ codeSpans start code, s.hasNoHoles := by
  cases code with
  | nil => simp [codeSpans, codeMarks, tokenize, tokenizeFrom]
  | cons c code => simp [codeSpans, Span.marks, codeMarks, Span.hasNoHoles]

theorem finds_nil : Finds [] [] := fun start =>
  ⟨[], by rw [splitCode, scanFrom]; rfl, by simp [splitCode, codeMarks, tokenize, tokenizeFrom],
    by simp⟩

/-- Code in front of a text. -/
theorem Finds.code {a t : Text} {ms : List Mark} (h : Finds t ms) (new : List Mark)
    (ha : StaysCode a t)
    (hnew : codeMarks (a ++ (splitCode t).1) = new ++ codeMarks (splitCode t).1) :
    Finds (a ++ t) (new ++ ms) := by
  intro start
  obtain ⟨later, hscan, hms, hholes⟩ := h start
  rw [ha]
  exact ⟨later, hscan, by rw [hms, hnew, List.append_assoc], hholes⟩

/-- A string or a comment in front of a text. -/
theorem Finds.opener {x t body : Text} {o : Opener} {ms : List Mark} (h : Finds t ms)
    (new : List Mark) (ho : opener? x = some o)
    (hb : o.body? (x.drop o.text.length) = some (body, t))
    (hnew : ∀ start stop, Span.marks ⟨o.kind, o.text ++ body, start, stop⟩ = new)
    (hholes : ∀ start stop, Span.hasNoHoles ⟨o.kind, o.text ++ body, start, stop⟩) :
    Finds x (new ++ ms) := by
  intro start
  obtain ⟨later, hscan, hms, hlater⟩ := h (start + Text.byteSize (o.text ++ body) +
    Text.byteSize (splitCode t).1)
  obtain ⟨hcode, hnone⟩ := marks_codeSpans (start + Text.byteSize (o.text ++ body)) (splitCode t).1
  rw [splitCode_of_opener ho]
  refine ⟨_, scanFrom_opener ho hb (scanFrom_of_splitCode hscan), ?_, ?_⟩
  · rw [hms, List.flatMap_cons, List.flatMap_append, hcode, hnew]
    simp [codeMarks, tokenize, tokenizeFrom]
  · refine List.forall_mem_cons.2 ⟨hholes _ _, List.forall_mem_append.2 ⟨hnone, hlater⟩⟩

/-- The mark of a label; trivia has none. -/
def labelMark? (l : TokenKind × Text) : Option Mark :=
  Token.mark? ⟨l.1, l.2, 0⟩

theorem codeMarks_eq (code : Text) : codeMarks code = (solidLabels code).filterMap labelMark? := by
  rw [codeMarks, solidLabels, significantTokens, List.filterMap_map, List.filterMap_filter]
  congr 1
  funext t
  obtain ⟨kind, text, offset⟩ := t
  cases kind <;> rfl

theorem codeMarks_blank {c : Char} (h : Text.isAsciiBlank c = true) (code : Text) :
    codeMarks (c :: code) = codeMarks code := by
  rw [codeMarks_eq, codeMarks_eq]
  rw [Text.isAsciiBlank, Bool.or_eq_true, beq_iff_eq] at h
  rcases h with hsep | rfl
  · rw [← solidLabels_dropWhile (c :: code), List.dropWhile_cons_of_pos hsep,
      solidLabels_dropWhile]
  · rw [solidLabels_cons]
    rfl

theorem codeMarks_token {kind : TokenKind} {c : Char} {t code : Text}
    (h : lexeme c (t ++ code) = ⟨kind, t, code⟩) :
    codeMarks (c :: t ++ code) = (labelMark? (kind, c :: t)).toList ++ codeMarks code := by
  rw [codeMarks_eq, codeMarks_eq, List.cons_append, solidLabels_cons, h, List.filterMap_append]
  cases kind <;> rfl

/-- A vertical tab is a symbol. -/
theorem lexeme_verticalTab (t : Text) : lexeme '\x0b' t = ⟨.symbol, [], t⟩ := by
  have hlex : lexeme '\x0b' [] = ⟨.symbol, [], []⟩ := rfl
  refine lexeme_append_of_stop hlex ⟨fun l hl hp => ?_, fun hc => absurd hc (by decide)⟩
  have hall : (longSymbols.all fun l => l.head? != some '\x0b') = true := by decide
  have hhead := List.all_eq_true.1 hall l hl
  cases l with
  | nil => exact List.nil_prefix
  | cons d l =>
    obtain rfl : d = '\x0b' := (List.cons_prefix_cons.1 hp).1
    exact absurd hhead (by simp)

theorem isPrefix_splitCode (t : Text) : (splitCode t).1 <+: t :=
  ⟨(splitCode t).2, splitCode_append t⟩

theorem head?_of_isPrefix {a t : Text} (h : a <+: t) {c : Char} (hc : a.head? = some c) :
    t.head? = some c := by
  obtain ⟨rest, rfl⟩ := h
  rw [List.head?_append, hc, Option.some_or]

theorem prefix_splitCode {a t : Text} (ha : ∀ c ∈ a, beginsNothing c = true) (h : a <+: t) :
    a <+: (splitCode t).1 := by
  obtain ⟨rest, rfl⟩ := h
  rw [staysCode_of_beginsNothing ha rest]
  exact List.prefix_append a _

theorem beginsNothing_of_isSeparator {c : Char} (h : Text.isSeparator c = true) :
    beginsNothing c = true := by
  simp only [Text.isSeparator, Bool.or_eq_true, beq_iff_eq] at h
  rcases h with ((rfl | rfl) | rfl) | rfl <;> decide

theorem Finds.separator {c : Char} {t : Text} {ms : List Mark} (h : Finds t ms)
    (hc : Text.isSeparator c = true) : Finds (c :: t) ms := by
  have hall : ∀ d ∈ [c], beginsNothing d = true :=
    List.forall_mem_singleton.2 (beginsNothing_of_isSeparator hc)
  refine h.code [] (staysCode_of_beginsNothing hall t) (codeMarks_blank ?_ _)
  rw [Text.isAsciiBlank, hc, Bool.true_or]

theorem Finds.verticalTab {t : Text} {ms : List Mark} (h : Finds t ms) :
    Finds ('\x0b' :: t) (.symbol ['\x0b'] :: ms) := by
  have htab : ∀ c ∈ ['\x0b'], beginsNothing c = true := List.forall_mem_singleton.2 (by decide)
  exact h.code [.symbol ['\x0b']] (staysCode_of_beginsNothing htab t)
    (codeMarks_token (lexeme_verticalTab _))

theorem Finds.lineFeed {t : Text} {ms : List Mark} (h : Finds t ms) : Finds ('\n' :: t) ms :=
  have hfeed : ∀ c ∈ ['\n'], beginsNothing c = true := List.forall_mem_singleton.2 (by decide)
  h.code [] (staysCode_of_beginsNothing hfeed t) (codeMarks_blank rfl _)

theorem body?_lineComment {body : Text} (hline : '\n' ∉ body) (rest : Text)
    (hrest : ∀ c, rest.head? = some c → c = '\n') :
    Opener.lineComment.body? (body ++ rest) = some (body, rest) := by
  have hall : ∀ c ∈ body, (c != '\n') = true := fun c hc => by
    rw [bne_iff_ne]
    rintro rfl
    exact hline hc
  have htake : rest.takeWhile (· != '\n') = [] ∧ rest.dropWhile (· != '\n') = rest := by
    cases rest with
    | nil => exact ⟨rfl, rfl⟩
    | cons c rest => simp [hrest c rfl]
  rw [Opener.body?, List.takeWhile_append_of_pos hall, List.dropWhile_append_of_pos hall, htake.1,
    htake.2, List.append_nil]

/-- A line comment in front of the end of the text or of a line feed. -/
theorem Finds.lineComment {t body : Text} {ms : List Mark} (h : Finds t ms) (hline : '\n' ∉ body)
    (hlong : NoLongBracket (body ++ t)) (ht : ∀ c, t.head? = some c → c = '\n') :
    Finds ('-' :: '-' :: (body ++ t)) ms :=
  h.opener [] (opener?_lineComment hlong) (body?_lineComment hline t ht) (fun _ _ => rfl)
    fun _ _ hkind => absurd hkind (by simp [Opener.kind])

theorem Finds.blockComment {t content : Text} {level : Nat} {ms : List Mark} (h : Finds t ms)
    (hcontent : LongContent level content) :
    Finds ('-' :: '-' :: (Delimiter.long level).enclose content ++ t) ms := by
  have htext : '-' :: '-' :: (Delimiter.long level).enclose content ++ t =
      '-' :: '-' :: ((Delimiter.long level).opening ++
        (content ++ (Delimiter.long level).closing ++ t)) := by
    simp [Delimiter.enclose]
  have hbody : (Opener.blockComment level).body? (((Delimiter.long level).opening ++
      (content ++ (Delimiter.long level).closing ++ t)).drop
        (Delimiter.long level).opening.length) =
      some (content ++ (Delimiter.long level).closing, t) := by
    rw [List.drop_left]
    exact longBody?_of_content hcontent t
  rw [htext]
  exact h.opener [] (opener?_blockComment level _) hbody (fun _ _ => rfl)
    fun _ _ hkind => absurd hkind (by simp [Opener.kind])

/-- A string in front of a text. -/
theorem Finds.string {t w : Text} {ms : List Mark} (h : Finds t ms) (hw : IsStringLiteral w) :
    Finds (w ++ t) (.string :: ms) := by
  cases hw with
  | @quoted mark content hmark hcontent =>
    have htext : (Delimiter.quote mark).enclose content ++ t = mark :: (content ++ mark :: t) := by
      simp [Delimiter.enclose, Delimiter.opening, Delimiter.closing]
    have hplain : mark ≠ '\\' ∧ mark ≠ '\n' ∧ mark ≠ '`' := by
      rcases hmark with rfl | rfl <;> decide
    rw [htext]
    refine h.opener [.string] (opener?_quote hmark _)
      (quotedBody?_of_content ⟨hplain.1, hplain.2.1⟩ hcontent t) (fun _ _ => rfl) fun _ _ _ => ?_
    simp only [Opener.text, Delimiter.opening, List.cons_append, List.nil_append]
    rw [holes]
    intro u hu
    exact hplain.2.2 (List.cons.inj hu).1
  | @long level content hcontent =>
    have htext : (Delimiter.long level).enclose content ++ t =
        (Delimiter.long level).opening ++ (content ++ (Delimiter.long level).closing ++ t) := by
      simp [Delimiter.enclose]
    have hbody : (Opener.string (.long level)).body? (((Delimiter.long level).opening ++
        (content ++ (Delimiter.long level).closing ++ t)).drop
          (Opener.string (.long level)).text.length) =
        some (content ++ (Delimiter.long level).closing, t) := by
      rw [Opener.text, List.drop_left]
      exact longBody?_of_content hcontent t
    rw [htext]
    refine h.opener [.string] (opener?_long level _) hbody (fun _ _ => rfl) fun _ _ _ => ?_
    simp only [Opener.text, Delimiter.opening, List.cons_append]
    rw [holes]
    intro u hu
    exact absurd (List.cons.inj hu).1 (by decide)

/-- A terminal in front of a text. -/
theorem Finds.terminal {t : Text} {ms : List Mark} (h : Finds t ms) (a : Terminal)
    (hend : a.EndsBefore t) : Finds (a.text ++ t) (a.mark :: ms) := by
  have hhead : ∀ c, (splitCode t).1.head? = some c → t.head? = some c :=
    fun c => head?_of_isPrefix (isPrefix_splitCode t)
  cases a with
  | word w hw =>
    refine h.code [.word w] (staysCode_of_isWord hw t) ?_
    cases w with
    | nil => exact absurd hw (by decide)
    | cons c u => exact codeMarks_token (lexeme_of_isWord hw fun d hd => hend d (hhead d hd))
  | number w hw =>
    refine h.code [.number] (staysCode_of_isNumeral hw t) ?_
    cases w with
    | nil => exact absurd hw not_isNumeral_nil
    | cons c u =>
      refine codeMarks_token (lexeme_of_isNumeral hw ?_)
      rcases hend with hend | ⟨hlast, hpoints⟩
      · exact .inl fun d hd => hend d (hhead d hd)
      · have hpoint : beginsNothing '.' = true := by decide
        exact .inr ⟨hlast, prefix_splitCode (by simp [hpoint]) hpoints⟩
  | symbol w hw =>
    obtain ⟨hlong, hpoint, hdash, hbracket⟩ := hend
    refine h.code [.symbol w] (staysCode_of_symbol hw hdash hbracket) ?_
    cases w with
    | nil => exact absurd hw (by decide)
    | cons c u =>
      refine codeMarks_token (lexeme_of_symbol hw (fun l hl hp => hlong l hl ?_)
        fun hc d hd => hpoint hc d (hhead d hd))
      exact hp.trans ((List.prefix_append_right_inj _).2 (isPrefix_splitCode t))
  | string w hw => exact h.string hw

theorem occurrences_of_hasNoHoles {s : Span} (h : s.hasNoHoles) (index : Nat) :
    (s.occurrences index).map Occurrence.mark = s.marks ∧
      ∀ o ∈ s.occurrences index, o.inHole = false := by
  obtain ⟨kind, text, start, stop⟩ := s
  cases kind with
  | code =>
    refine ⟨?_, fun o ho => ?_⟩
    · simp only [Span.occurrences, codeOccurrences, Span.marks, List.map_filterMap, Option.map_map]
      congr 1
      funext t
      cases t.mark? <;> rfl
    · obtain ⟨t, -, ht⟩ := List.mem_filterMap.1 ho
      obtain ⟨mark, -, rfl⟩ := Option.map_eq_some_iff.1 ht
      rfl
  | string =>
    have hholes : holes text = [] := h rfl
    simp [Span.occurrences, Span.marks, hholes]
  | comment => simp [Span.occurrences, Span.marks]

/-- The occurrences of spans without holes are their marks. -/
theorem occurrences_of_forall_hasNoHoles {spans : List Span} (h : ∀ s ∈ spans, s.hasNoHoles) :
    (occurrences spans).map Occurrence.mark = spans.flatMap Span.marks ∧
      ∀ o ∈ occurrences spans, o.inHole = false := by
  suffices hfrom : ∀ first, let os := (spans.zipIdx first).flatMap fun p => p.1.occurrences p.2
      os.map Occurrence.mark = spans.flatMap Span.marks ∧ ∀ o ∈ os, o.inHole = false from hfrom 0
  induction spans with
  | nil => simp
  | cons s spans ih =>
    intro first
    obtain ⟨hs, hspans⟩ := List.forall_mem_cons.1 h
    obtain ⟨hmarks, hholes⟩ := occurrences_of_hasNoHoles hs first
    obtain ⟨ihmarks, ihholes⟩ := ih hspans (first + 1)
    simp only [List.zipIdx_cons, List.flatMap_cons, List.map_append]
    exact ⟨by rw [hmarks, ihmarks], List.forall_mem_append.2 ⟨hholes, ihholes⟩⟩

/-! ## Layouts without and with stray blanks -/

/-- Whether a mark is a blank that the scan takes for a symbol. -/
def Mark.isStray (isBlank : Char → Bool) : Mark → Bool
  | symbol [c] => isBlank c && !Text.isSeparator c
  | _ => false

section Layout

variable {isBlank : Char → Bool} (hblank : ∀ c, isBlank c = true → isLuaBlank c = true)
include hblank

/-- No terminal is a stray blank. -/
theorem isStray_mark (t : Terminal) : t.mark.isStray isBlank = false := by
  cases t with
  | symbol w hw =>
    by_contra hstray
    have hall : (luaSymbols.all fun w => !(Mark.symbol w).isStray isLuaBlank) = true := by decide
    have hplain := List.all_eq_true.1 hall w hw
    match w with
    | [c] =>
      simp only [Terminal.mark, Mark.isStray, Bool.not_eq_false, Bool.and_eq_true] at hstray
      simp [Mark.isStray, hblank c hstray.1, hstray.2] at hplain
    | [] => exact hstray rfl
    | _ :: _ :: _ => exact hstray rfl
  | _ => rfl

/-- The scan of a layout finds its terminals, and stray blanks. -/
theorem finds_of_layout {ts : List Terminal} {t : Text} (h : Layout isBlank ts t) :
    ∃ ms, Finds t ms ∧ ms.filter (fun m => !m.isStray isBlank) = ts.map Terminal.mark := by
  induction h with
  | done => exact ⟨[], finds_nil, rfl⟩
  | @comment body hline hlong =>
    refine ⟨[], ?_, rfl⟩
    have hfinds := finds_nil.lineComment hline (by rwa [List.append_nil]) (by simp)
    rwa [List.append_nil] at hfinds
  | @space ts rest s _ ih =>
    obtain ⟨ms, hfinds, hms⟩ := ih
    cases s with
    | blank c hc =>
      by_cases hsep : Text.isSeparator c = true
      · exact ⟨ms, hfinds.separator hsep, hms⟩
      · obtain rfl : c = '\x0b' := by simpa [isLuaBlank, hsep] using hblank c hc
        refine ⟨_, hfinds.verticalTab, ?_⟩
        rw [List.filter_cons_of_neg (by simp [Mark.isStray, hc, hsep]), hms]
    | lineFeed => exact ⟨ms, hfinds.lineFeed, hms⟩
    | lineComment body hline hlong =>
      refine ⟨ms, ?_, hms⟩
      have htext : (Space.lineComment body hline hlong : Space isBlank).text ++ rest =
          '-' :: '-' :: (body ++ '\n' :: rest) := by simp [Space.text]
      rw [htext]
      exact hfinds.lineFeed.lineComment hline (hlong.append rest) (by simp)
    | blockComment level content hcontent => exact ⟨ms, hfinds.blockComment hcontent, hms⟩
  | next a _ hend ih =>
    obtain ⟨ms, hfinds, hms⟩ := ih
    refine ⟨_, hfinds.terminal a hend, ?_⟩
    rw [List.filter_cons_of_pos (by simp [isStray_mark hblank a]), hms, List.map_cons]

/-- The scan of a layout succeeds, and its tokens and strings are the terminals and stray blanks. -/
theorem scan_of_layout {ts : List Terminal} {t : Text} (h : Layout isBlank ts t) :
    ∃ spans, scan t = .ok spans ∧
      (spans.flatMap Span.marks).filter (fun m => !m.isStray isBlank) = ts.map Terminal.mark ∧
      (occurrences spans).map Occurrence.mark = spans.flatMap Span.marks ∧
      ∀ o ∈ occurrences spans, o.inHole = false := by
  obtain ⟨ms, hfinds, hms⟩ := finds_of_layout hblank h
  obtain ⟨later, hscan, hlater, hholes⟩ := hfinds (0 + Text.byteSize (splitCode t).1)
  obtain ⟨hcode, hnone⟩ := marks_codeSpans 0 (splitCode t).1
  have hoccurrences := occurrences_of_forall_hasNoHoles (List.forall_mem_append.2 ⟨hnone, hholes⟩)
  refine ⟨_, scanFrom_of_splitCode hscan, ?_, hoccurrences⟩
  rw [List.flatMap_append, hcode, ← hlater, hms]

end Layout
end LuaVeil
