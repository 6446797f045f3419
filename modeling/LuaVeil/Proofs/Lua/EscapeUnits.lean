/-
# Units of short strings

The content of a short string is a sequence of units: plain characters and escapes, each
escape with all that it takes. `unescape` goes from unit to unit. A scan knows no more of
escapes than that a backslash takes the next character with it. As what an escape takes
behind that character is neither a backslash nor a quote, the two agree on where a string
ends, but for `\z`: the line breaks that it takes are line breaks for a scan, too.

Main statements:

* `Escape.form_read`, the forms of escapes with what they take and give;
* `flatten_units` and `flatMap_unescape_units`, units are what `unescape` reads one by one;
* `quotedBody?_of_units`, where a scan ends a string, told by its units;
* `scan_quoted`, a scan of a string with any content.
-/
import LuaVeil.Proofs.Lua.Closers
import LuaVeil.Proofs.Veil.PutBack

namespace LuaVeil

namespace Escape

/-! ## What escapes take -/

/-- What the escape of a backslash and `c` takes of a text that goes on with `t`. -/
def taken (c : Char) (t : Text) : Text :=
  t.take (t.length - (read c t).2.length)

/--
The forms of escapes: the character behind the backslash, what is taken behind it, the bytes
that this gives, and what follows.
-/
inductive Form : Char → Text → List UInt8 → Text → Prop
  | control {c : Char} {b : UInt8} {rest : Text} (h : control? c = some b) : Form c [] [b] rest
  | blanks {w rest : Text} (h : ∀ d ∈ w, Text.isAsciiBlank d = true) : Form 'z' w [] rest
  | hexPair {a b : Char} {n : Nat} {rest : Text} (h : Number.readDigits 16 [a, b] = some n) :
      Form 'x' [a, b] [UInt8.ofNat n] rest
  | braced {w rest : Text} {point : Char} (hw : '}' ∉ w) (h : codePoint? w = some point) :
      Form 'u' ('{' :: (w ++ ['}'])) (Text.utf8 [point]) rest
  | decimal {c : Char} {w rest : Text} (hc : c.isDigit = true)
      (hw : ((w ++ rest).take 2).takeWhile Char.isDigit = w) :
      Form c w [UInt8.ofNat (min 255 ((Number.readDigits 10 (c :: w)).getD 0))] rest
  | plain {c : Char} {rest : Text} (hcontrol : control? c = none) (hz : c ≠ 'z')
      (hx : c = 'x' → hexPair? rest = none) (hu : c = 'u' → braced? rest = none)
      (hdigit : c.isDigit = false) : Form c [] (Text.utf8 [c]) rest

theorem exists_of_hexPair? {t rest : Text} {byte : UInt8} (h : hexPair? t = some (byte, rest)) :
    ∃ a b n, t = [a, b] ++ rest ∧ Number.readDigits 16 [a, b] = some n ∧ byte = UInt8.ofNat n := by
  unfold hexPair? at h
  split at h
  · next a b t =>
    obtain ⟨n, hn, he⟩ := Option.map_eq_some_iff.1 h
    obtain ⟨rfl, rfl⟩ := Prod.mk.inj he
    exact ⟨a, b, n, rfl, hn, rfl⟩
  · cases h

theorem exists_of_braced? {t rest : Text} {point : Char} (h : braced? t = some (point, rest)) :
    ∃ w, t = '{' :: (w ++ ['}']) ++ rest ∧ '}' ∉ w ∧ codePoint? w = some point := by
  unfold braced? at h
  split at h
  · next t =>
    split at h
    · next brace more hmore =>
      obtain ⟨point, hpoint, he⟩ := Option.map_eq_some_iff.1 h
      obtain ⟨rfl, rfl⟩ := Prod.mk.inj he
      have hbrace : brace = '}' := by
        have hhead := List.head?_dropWhile_not (· != '}') t
        rw [hmore] at hhead
        simpa using hhead
      subst hbrace
      refine ⟨t.takeWhile (· != '}'), ?_, fun hmem => ?_, hpoint⟩
      · have happ := List.takeWhile_append_dropWhile (p := (· != '}')) (l := t)
        rw [hmore] at happ
        simpa using happ.symm
      · simpa using List.mem_takeWhile_imp hmem
    · cases h
  · cases h

/-- An escape is of one of the forms. -/
theorem exists_form (c : Char) (t : Text) :
    ∃ w, w ++ (read c t).2 = t ∧ Form c w (read c t).1 (read c t).2 := by
  unfold read
  split
  · next b hb => exact ⟨[], rfl, .control hb⟩
  next hcontrol =>
  split
  · next hz =>
    subst hz
    exact ⟨t.takeWhile Text.isAsciiBlank, List.takeWhile_append_dropWhile,
      .blanks fun d hd => List.mem_takeWhile_imp hd⟩
  next hz =>
  split
  · next hx =>
    subst hx
    split
    · next byte rest hpair =>
      obtain ⟨a, b, n, rfl, hn, rfl⟩ := exists_of_hexPair? hpair
      exact ⟨[a, b], rfl, .hexPair hn⟩
    · next hpair =>
      exact ⟨[], rfl, .plain hcontrol hz (fun _ => hpair) (fun hu => by cases hu) rfl⟩
  next hx =>
  split
  · next hu =>
    subst hu
    split
    · next point rest hbraced =>
      obtain ⟨w, rfl, hw, hpoint⟩ := exists_of_braced? hbraced
      exact ⟨_, rfl, .braced hw hpoint⟩
    · next hbraced =>
      exact ⟨[], rfl, .plain hcontrol hz (fun hx => by cases hx) (fun _ => hbraced) rfl⟩
  next hu =>
  split
  · next hc =>
    have happ : (t.take 2).takeWhile Char.isDigit ++ (decimal c t).2 = t :=
      (List.prefix_iff_eq_append.1
        ((List.takeWhile_prefix Char.isDigit).trans (List.take_prefix 2 t)))
    exact ⟨_, happ, .decimal hc (by rw [happ])⟩
  · next hdigit =>
    exact ⟨[], rfl, .plain hcontrol hz (fun h => absurd h hx) (fun h => absurd h hu)
      (Bool.eq_false_iff.2 hdigit)⟩

theorem taken_append (c : Char) (t : Text) : taken c t ++ (read c t).2 = t := by
  obtain ⟨w, hw, -⟩ := exists_form c t
  exact List.suffix_iff_eq_append.1 ⟨w, hw⟩

theorem form_read (c : Char) (t : Text) : Form c (taken c t) (read c t).1 (read c t).2 := by
  obtain ⟨w, hw, hform⟩ := exists_form c t
  obtain rfl := List.append_cancel_right (hw.trans (taken_append c t).symm)
  exact hform

/-- A digit is no letter of an escape. -/
theorem ne_of_isDigit {c : Char} (h : c.isDigit = true) :
    control? c = none ∧ c ≠ 'z' ∧ c ≠ 'x' ∧ c ≠ 'u' := by
  have hne : ∀ d : Char, d.isDigit = false → c ≠ d := by
    rintro d hd rfl
    exact absurd h (by simp [hd])
  refine ⟨?_, hne _ rfl, hne _ rfl, hne _ rfl⟩
  unfold control?
  split <;> first | rfl | cases h

variable {c : Char} {w rest : Text} {bytes : List UInt8}

/-- A decimal escape takes at most two more digits. -/
theorem digits_of_take {t : Text} (h : (t.take 2).takeWhile Char.isDigit = w) :
    w.length ≤ 2 ∧ ∀ d ∈ w, d.isDigit = true := by
  subst h
  refine ⟨?_, fun d hd => List.mem_takeWhile_imp hd⟩
  exact ((List.takeWhile_prefix _).length_le).trans (List.length_take_le 2 t)

/-- An escape is read alike if nothing follows what it takes. -/
theorem Form.read_eq (h : Form c w bytes rest) : read c w = (bytes, []) := by
  cases h with
  | control h => simp [read, h]
  | blanks h =>
    have hall : w.dropWhile Text.isAsciiBlank = [] := List.dropWhile_eq_nil_iff.2 h
    simp [read, control?, hall]
  | hexPair h => simp [read, control?, hexPair?, h]
  | @braced w _ point hw h =>
    have hclose : ∀ d ∈ w, (d != '}') = true := fun d hd => by
      rw [bne_iff_ne]
      rintro rfl
      exact hw hd
    have hbraced : braced? ('{' :: (w ++ ['}'])) = some (point, []) := by
      simp [braced?, List.dropWhile_append_of_pos hclose, List.takeWhile_append_of_pos hclose, h]
    simp [read, control?, hbraced]
  | decimal hc hw =>
    obtain ⟨hcontrol, hz, hx, hu⟩ := ne_of_isDigit hc
    obtain ⟨hlength, hdigits⟩ := digits_of_take hw
    have hall : (w.take 2).takeWhile Char.isDigit = w := by
      rw [List.take_of_length_le hlength, List.takeWhile_eq_self_iff]
      exact hdigits
    simp [read, hcontrol, hz, hx, hu, hc, Escape.decimal, hall]
  | plain hcontrol hz hx hu hdigit => simp [read, hcontrol, hz, hexPair?, braced?, hdigit]

/-- What is read as a number consists of digits. -/
theorem digits_of_readDigits {base n : Nat} {t : Text} (h : Number.readDigits base t = some n) :
    ∀ d ∈ t, (Number.digitValue? base d).isSome = true := by
  have hfrom : ∀ (start : Nat) (t : Text), t.foldlM (fun value d =>
      (Number.digitValue? base d).map (value * base + ·)) start = some n →
        ∀ d ∈ t, (Number.digitValue? base d).isSome = true := by
    intro start t h
    induction t generalizing start with
    | nil => exact fun d hd => by cases hd
    | cons c t ih =>
      rw [List.foldlM_cons] at h
      obtain ⟨value, hvalue, hmore⟩ := Option.bind_eq_some_iff.1 h
      obtain ⟨v, hv, -⟩ := Option.map_eq_some_iff.1 hvalue
      exact List.forall_mem_cons.2 ⟨by rw [hv]; rfl, ih value hmore⟩
  exact hfrom 0 t h

theorem isSome_digitValue?_of_isDigit {d : Char} (h : d.isDigit = true) :
    (Number.digitValue? 16 d).isSome = true := by
  have hrange := (toNat_of_isDigit h).2
  have hlt : d.toNat - 48 < 16 := by omega
  simpa [Number.digitValue?, h, Option.filter_some] using hlt

/-- A code point is written with at least one digit, perhaps after a plus sign. -/
theorem exists_of_codePoint? {point : Char} (h : codePoint? w = some point) :
    ∃ digits n, (w = digits ∨ w = '+' :: digits) ∧ digits ≠ [] ∧
      Number.readDigits 16 digits = some n ∧ point = Char.ofNat n := by
  have hhex : ∀ digits : Text, Number.hexChar? digits = some point → digits ≠ [] ∧
      ∃ n, Number.readDigits 16 digits = some n ∧ point = Char.ofNat n := by
    intro digits h
    unfold Number.hexChar? at h
    split at h
    · cases h
    · next hne =>
      obtain ⟨n, hn, hvalid⟩ := Option.bind_eq_some_iff.1 h
      split at hvalid
      · exact ⟨by simpa using hne, n, hn, (Option.some.inj hvalid).symm⟩
      · cases hvalid
  unfold codePoint? at h
  split at h
  · next digits =>
    obtain ⟨hne, n, hn, hpoint⟩ := hhex digits h
    exact ⟨digits, n, .inr rfl, hne, hn, hpoint⟩
  · obtain ⟨hne, n, hn, hpoint⟩ := hhex w h
    exact ⟨w, n, .inl rfl, hne, hn, hpoint⟩

/-- What an escape takes behind its first character: digits, plus signs and braces, or blanks. -/
theorem Form.mem_taken (h : Form c w bytes rest) : ∀ d ∈ w,
    (Number.digitValue? 16 d).isSome = true ∨ d ∈ ['+', '{', '}'] ∨
      c = 'z' ∧ Text.isAsciiBlank d = true := by
  cases h with
  | control => exact fun d hd => by cases hd
  | blanks h => exact fun d hd => .inr (.inr ⟨rfl, h d hd⟩)
  | hexPair h => exact fun d hd => .inl (digits_of_readDigits h d hd)
  | @braced w _ point hw h =>
    obtain ⟨digits, n, hdigits, -, hn, -⟩ := exists_of_codePoint? h
    have hmem : ∀ d ∈ w, (Number.digitValue? 16 d).isSome = true ∨ d = '+' := by
      rcases hdigits with rfl | rfl
      · exact fun d hd => .inl (digits_of_readDigits hn d hd)
      · exact List.forall_mem_cons.2 ⟨.inr rfl, fun d hd => .inl (digits_of_readDigits hn d hd)⟩
    refine List.forall_mem_cons.2 ⟨.inr (.inl (by decide)),
      List.forall_mem_append.2 ⟨fun d hd => ?_, fun d hd => ?_⟩⟩
    · exact (hmem d hd).imp_right fun hplus => .inl (by rw [hplus]; decide)
    · exact .inr (.inl (by rw [List.mem_singleton.1 hd]; decide))
  | decimal hc hw =>
    exact fun d hd => .inl (isSome_digitValue?_of_isDigit ((digits_of_take hw).2 d hd))
  | plain => exact fun d hd => by cases hd

/-- What an escape takes behind its first character holds no backslash and no quote. -/
theorem plain_of_mem_taken {t : Text} {d : Char} (hd : d ∈ taken c t) :
    d ≠ '\\' ∧ isQuote d = false ∧ (d = '\n' → c = 'z') := by
  have hmem := (form_read c t).mem_taken d hd
  have hne : ∀ e, (Number.digitValue? 16 e).isSome = false ∧ e ∉ ['+', '{', '}'] ∧
      Text.isAsciiBlank e = false → d ≠ e := by
    rintro e ⟨hdigit, hmark, hblank⟩ rfl
    rcases hmem with h | h | ⟨-, h⟩
    · simp [hdigit] at h
    · exact hmark h
    · simp [hblank] at h
  refine ⟨hne _ (by decide), ?_, ?_⟩
  · have hquotes : d ≠ '"' ∧ d ≠ '\'' ∧ d ≠ '`' :=
      ⟨hne _ (by decide), hne _ (by decide), hne _ (by decide)⟩
    simp [isQuote, hquotes]
  · rintro rfl
    rcases hmem with h | h | ⟨hz, -⟩
    · exact absurd h (by decide)
    · exact absurd h (by decide)
    · exact hz

theorem ne_of_mem_taken {mark : Char} (hmark : isQuote mark = true) {t : Text} {d : Char}
    (hd : d ∈ taken c t) : d ≠ '\\' ∧ d ≠ mark := by
  obtain ⟨hslash, hquote, -⟩ := plain_of_mem_taken hd
  exact ⟨hslash, (ne_of_isQuote hmark hquote).symm⟩

end Escape

/-! ## Units -/

/-- The units of the content of a short string: characters, and escapes with all that they take. -/
def units : Text → List Text
  | [] => []
  | [c] => [[c]]
  | c :: d :: t =>
    if c = '\\' then (c :: d :: Escape.taken d t) :: units (Escape.read d t).2
    else [c] :: units (d :: t)
termination_by t => t.length
decreasing_by
  · have := Escape.length_read_le d t
    simp only [List.length_cons]
    omega
  · simp

theorem units_escape (c : Char) (t : Text) : units ('\\' :: c :: t) =
    ('\\' :: c :: Escape.taken c t) :: units (Escape.read c t).2 := by
  rw [units, if_pos rfl]

theorem units_cons {c : Char} (hc : c ≠ '\\') (t : Text) : units (c :: t) = [c] :: units t := by
  cases t with
  | nil => simp [units]
  | cons d t => rw [units, if_neg hc]

/-- Units put together are the content. -/
theorem flatten_units (t : Text) : (units t).flatten = t := by
  fun_induction units t with
  | case1 => rfl
  | case2 => rfl
  | case3 d t ih =>
    rw [List.flatten_cons, ih, List.cons_append, List.cons_append, Escape.taken_append]
  | case4 c d t _ ih => rw [List.flatten_cons, ih, List.singleton_append]

theorem unescape_escape (c : Char) (t : Text) :
    unescape ('\\' :: c :: t) = (Escape.read c t).1 ++ unescape (Escape.read c t).2 := by
  rw [unescape, if_pos rfl]

theorem unescape_cons {c : Char} (hc : c ≠ '\\') (t : Text) :
    unescape (c :: t) = Text.utf8 [c] ++ unescape t := by
  cases t with
  | nil => simp [unescape]
  | cons d t => rw [unescape, if_neg hc]

/-- The bytes of a content are those of its units. -/
theorem flatMap_unescape_units (t : Text) : (units t).flatMap unescape = unescape t := by
  fun_induction units t with
  | case1 => simp [unescape]
  | case2 c => simp
  | case3 d t ih =>
    have hunit : unescape ('\\' :: d :: Escape.taken d t) = (Escape.read d t).1 := by
      rw [unescape_escape, (Escape.form_read d t).read_eq]
      simp [unescape]
    rw [List.flatMap_cons, ih, hunit, unescape_escape]
  | case4 c d t hc ih =>
    rw [List.flatMap_cons, ih, unescape_cons hc, unescape_cons hc]
    simp [unescape]

/-! ## Where a scan ends a string -/

/-- Whether a unit is an escape that takes a line break among other blanks. -/
def skipsLine (u : Text) : Bool :=
  ['\\', 'z'].isPrefixOf u && u.contains '\n'

section

variable {mark : Char}

theorem quotedBody?_cons {c : Char} (hslash : c ≠ '\\') (hmark : c ≠ mark) (t : Text) :
    quotedBody? mark (c :: t) =
      if c = '\n' then none else (quotedBody? mark t).map fun cut => (c :: cut.1, cut.2) := by
  cases t with
  | nil => simp [quotedBody?, hmark]
  | cons d t => rw [quotedBody?, if_neg hslash, if_neg hmark]

theorem quotedBody?_append_plain {w : Text} (hw : ∀ d ∈ w, d ≠ '\\' ∧ d ≠ mark) (t : Text) :
    quotedBody? mark (w ++ t) =
      if '\n' ∈ w then none else (quotedBody? mark t).map fun cut => (w ++ cut.1, cut.2) := by
  induction w with
  | nil => simp
  | cons c w ih =>
    obtain ⟨⟨hslash, hmark⟩, hw⟩ := List.forall_mem_cons.1 hw
    rw [List.cons_append, quotedBody?_cons hslash hmark, ih hw]
    by_cases hc : c = '\n'
    · simp [hc]
    · by_cases hmem : '\n' ∈ w
      · simp [hmem]
      · simp [hc, Ne.symm hc, hmem, Function.comp_def]

/-- An escape is passed over by a scan, unless it takes a line break. -/
theorem quotedBody?_escape (hmark : isQuote mark = true) (c : Char) (t rest : Text) :
    quotedBody? mark ('\\' :: c :: t ++ rest) =
      if skipsLine ('\\' :: c :: Escape.taken c t) then none
      else (quotedBody? mark ((Escape.read c t).2 ++ rest)).map fun cut =>
        ('\\' :: c :: (Escape.taken c t ++ cut.1), cut.2) := by
  have hskips : skipsLine ('\\' :: c :: Escape.taken c t) = true ↔ '\n' ∈ Escape.taken c t := by
    simp only [skipsLine, Bool.and_eq_true, List.isPrefixOf_iff_prefix, List.contains_iff_mem,
      List.cons_prefix_cons, List.nil_prefix, List.mem_cons]
    constructor
    · rintro ⟨⟨-, rfl, -⟩, hslash | hz | hmem⟩
      · cases hslash
      · cases hz
      · exact hmem
    · exact fun hmem =>
        ⟨⟨trivial, ((Escape.plain_of_mem_taken hmem).2.2 rfl).symm, trivial⟩, .inr (.inr hmem)⟩
  have hbody : quotedBody? mark ('\\' :: c :: t ++ rest) =
      (quotedBody? mark (t ++ rest)).map fun cut => ('\\' :: c :: cut.1, cut.2) := by
    rw [List.cons_append, List.cons_append, quotedBody?, if_pos rfl]
  rw [hbody]
  conv_lhs => rw [← Escape.taken_append c t, List.append_assoc,
    quotedBody?_append_plain fun d hd => Escape.ne_of_mem_taken hmark hd]
  simp only [hskips]
  split
  · rfl
  · rw [Option.map_map]
    rfl

/--
A scan ends a string behind its content, if no unit is a bare line feed, a bare quote or a
backslash with nothing behind it, unless an escape takes a line break.
-/
theorem quotedBody?_of_units (hmark : isQuote mark = true) {content : Text}
    (h : ∀ u ∈ units content, u ≠ ['\n'] ∧ u ≠ [mark] ∧ u ≠ ['\\']) (rest : Text) :
    quotedBody? mark (content ++ mark :: rest) =
      if (units content).any skipsLine then none else some (content ++ [mark], rest) := by
  have hplain : mark ≠ '\\' ∧ mark ≠ '\n' := ⟨ne_of_isQuote hmark rfl, ne_of_isQuote hmark rfl⟩
  have hbare : ∀ c : Char, ([c] ≠ ['\n'] ∧ [c] ≠ [mark] ∧ [c] ≠ ['\\']) →
      c ≠ '\n' ∧ c ≠ mark ∧ c ≠ '\\' := by
    simp
  have hskips : ∀ c, skipsLine [c] = false := by simp [skipsLine]
  fun_induction units content with
  | case1 => exact quotedBody?_of_content hplain .nil rest
  | case2 c =>
    obtain ⟨hline, hquote, hslash⟩ := hbare c (h [c] List.mem_cons_self)
    rw [List.any_cons, hskips]
    exact quotedBody?_of_content hplain (.plain hquote hslash hline .nil) rest
  | case3 d t ih =>
    obtain ⟨-, h⟩ := List.forall_mem_cons.1 h
    rw [quotedBody?_escape hmark, ih h, List.any_cons]
    cases skipsLine ('\\' :: d :: Escape.taken d t)
    · rw [Bool.false_or]
      cases (units (Escape.read d t).2).any skipsLine
      · have happ : Escape.taken d t ++ ((Escape.read d t).2 ++ [mark]) = t ++ [mark] := by
          rw [← List.append_assoc, Escape.taken_append]
        simp [happ]
      · rfl
    · rfl
  | case4 c d t hslash ih =>
    obtain ⟨hc, h⟩ := List.forall_mem_cons.1 h
    obtain ⟨hline, hquote, -⟩ := hbare c hc
    rw [List.cons_append, quotedBody?_cons hslash hquote, if_neg hline, ih h, List.any_cons, hskips,
      Bool.false_or]
    cases (units (d :: t)).any skipsLine
    · rfl
    · rfl

end

/-! ## Scans -/

section

variable {mark : Char} {content : Text}

/-- A scan of a text in quotes finds one string, if the second quote closes the first one. -/
theorem scan_enclose (hmark : isQuote mark = true)
    (h : quotedBody? mark (content ++ [mark]) = some (content ++ [mark], [])) :
    let text := (Delimiter.quote mark).enclose content
    scan text = .ok [⟨.string, text, 0, Text.byteSize text⟩] := by
  have hnil : ∀ start, scanFrom start [] = .ok [] := fun start => by rw [scanFrom_eq]; rfl
  have hscan := @scanFrom_opener 0 ((Delimiter.quote mark).enclose content) (content ++ [mark]) []
    (.string (.quote mark)) [] (opener?_of_isQuote hmark _) h (hnil _)
  rwa [Nat.zero_add] at hscan

/-- A scan of a text in quotes fails if no quote closes the first one. -/
theorem scan_enclose_error (hmark : isQuote mark = true)
    (h : quotedBody? mark (content ++ [mark]) = none) :
    scan ((Delimiter.quote mark).enclose content) = .error (.unterminatedString 0) :=
  scanFrom_opener_error (o := .string (.quote mark)) (opener?_of_isQuote hmark _) h

/-- A string in quotes that is found is extracted with what stands between the quotes. -/
theorem literals_extractStrings (hmark : isQuote mark = true) (htick : mark ≠ '`')
    {place stop : Nat}
    (hscan : scan ((Delimiter.quote mark).enclose content) =
      .ok [⟨.string, (Delimiter.quote mark).enclose content, place, stop⟩])
    (hide : Bool) (dialect : Dialect) (m : Mint) :
    (extractStrings hide dialect
        [⟨.string, (Delimiter.quote mark).enclose content, place, stop⟩] m).1.1.entries.map
      TableEntry.literal = [⟨.quote mark, content⟩] := by
  have hquote : mark = '"' ∨ mark = '\'' := by simpa [isQuote, htick] using hmark
  have hhead : ((Delimiter.quote mark).enclose content).head? = some mark := rfl
  have hconstant : Span.isConstant ⟨.string, (Delimiter.quote mark).enclose content, place, stop⟩ =
      true := by
    simp [Span.isConstant, hhead, htick]
  have hliteral := (isStringLiteral_of_mem_scan hscan List.mem_cons_self rfl).resolve_right
    fun h => htick (Option.some.inj (hhead.symm.trans h))
  have hentries :=
    entries_of_literals (List.forall_mem_singleton.2 fun _ => hliteral) hide dialect m
  rw [List.filter_cons_of_pos hconstant] at hentries
  generalize (extractStrings hide dialect _ m).1.1.entries = entries at hentries ⊢
  cases hentries with
  | cons hentry hmore =>
    cases hmore
    have hread := hentry.literal_eq
    rw [ofText?_quoted hquote] at hread
    rw [List.map_singleton, ← Option.some.inj hread]

/--
A scan of a string whose content has no bare line feed, no bare quote and no unfinished escape among
its units. It finds the whole string, which is extracted with that content, unless an escape takes
a line break: then the string has no end.
-/
theorem scan_quoted (hmark : isQuote mark = true)
    (h : ∀ u ∈ units content, u ≠ ['\n'] ∧ u ≠ [mark] ∧ u ≠ ['\\']) :
    let text := (Delimiter.quote mark).enclose content
    let span : Span := ⟨.string, text, 0, Text.byteSize text⟩
    ((∃ u ∈ units content, skipsLine u = true) → scan text = .error (.unterminatedString 0)) ∧
    ((∀ u ∈ units content, skipsLine u = false) → scan text = .ok [span] ∧
      (mark ≠ '`' → ∀ (hide : Bool) (dialect : Dialect) (m : Mint),
        (extractStrings hide dialect [span] m).1.1.entries.map TableEntry.literal =
          [⟨.quote mark, content⟩])) := by
  intro text span
  have hbody := quotedBody?_of_units hmark h []
  constructor
  · intro hskips
    rw [if_pos (List.any_eq_true.2 hskips)] at hbody
    exact scan_enclose_error hmark hbody
  · intro hskips
    rw [if_neg (by simpa using hskips)] at hbody
    have hscan := scan_enclose hmark hbody
    exact ⟨hscan, fun htick hide dialect m =>
      literals_extractStrings hmark htick hscan hide dialect m⟩

end

/-- Escapes that take a quote, blanks on one line and a backslash before a quote that closes. -/
theorem skipped_blanks_read :
    (∀ u ∈ units "\\\"\\z \t\\\\".toList, u ≠ ['\n'] ∧ u ≠ ['"'] ∧ u ≠ ['\\']) ∧
      scan "\"\\\"\\z \t\\\\\"".toList =
        .ok [⟨.string, "\"\\\"\\z \t\\\\\"".toList, 0, 10⟩] ∧
      ∀ m, (extractStrings true .luau
          [⟨.string, "\"\\\"\\z \t\\\\\"".toList, 0, 10⟩] m).1.1.entries.map
        TableEntry.literal = [⟨.quote '"', "\\\"\\z \t\\\\".toList⟩] := by
  have hunits : ∀ u ∈ units "\\\"\\z \t\\\\".toList, u ≠ ['\n'] ∧ u ≠ ['"'] ∧ u ≠ ['\\'] := by
    decide +kernel
  obtain ⟨hscan, hextract⟩ := (scan_quoted (by decide) hunits).2 (by decide +kernel)
  exact ⟨hunits, hscan, hextract (by decide) true .luau⟩

/-- An escape takes a line break and the blanks around it, but a scan finds no end of the string. -/
theorem skipped_line_unterminated :
    (∀ u ∈ units "a\\z\n b".toList, u ≠ ['\n'] ∧ u ≠ ['"'] ∧ u ≠ ['\\']) ∧
      unescape "a\\z\n b".toList = Text.utf8 "ab".toList ∧
      scan "\"a\\z\n b\"".toList = .error (.unterminatedString 0) := by
  refine ⟨?_, ?_, ?_⟩ <;> decide +kernel

end LuaVeil
