/-
# Texts in front of a script

Header, stub and declarations are put together from words, numerals, fixed pieces of
code and literals. A scan finds the literals again and nothing else, whatever stands
behind such a text; a header is found as its two comments.

Main statements:

* `Readable.scanned`, a scan of code and literals finds the literals;
* `readable_declaration`, `readable_stub`, what is put in front of a script;
* `rescans_header`, the header is two comments;
* `strings_declaration`, the strings in the declaration of a plain table are the
  literals as they were written.
-/
import LuaVeil.Proofs.Names.Generated
import LuaVeil.Proofs.Veil.Declaration
import LuaVeil.Proofs.Veil.Steady
import LuaVeil.Veil.Banner
import LuaVeil.Veil.Guarding

namespace LuaVeil

/-! ## Texts of code and literals -/

/-- Whether a text is code that nothing opens in, whatever follows, and some literals in order. -/
inductive Readable : Text → List Text → Prop
  | nil : Readable [] []
  | code {c t : Text} {literals : List Text} (hc : ∀ rest, StaysCode c rest)
      (h : Readable t literals) : Readable (c ++ t) literals
  | literal {w t : Text} {literals : List Text} (hw : IsStringLiteral w)
      (h : Readable t literals) : Readable (w ++ t) (w :: literals)

namespace Readable

variable {t u : Text} {xs ys : List Text}

theorem append (h : Readable t xs) (hu : Readable u ys) : Readable (t ++ u) (xs ++ ys) := by
  induction h with
  | nil => exact hu
  | code hc _ ih =>
    rw [List.append_assoc]
    exact .code hc ih
  | literal hw _ ih =>
    rw [List.append_assoc]
    exact .literal hw ih

theorem of_code (h : ∀ rest, StaysCode t rest) : Readable t [] := by
  rw [← List.append_nil t]
  exact .code h .nil

theorem of_literal (h : IsStringLiteral t) : Readable t [t] := by
  have hliteral := Readable.literal h .nil
  rwa [List.append_nil] at hliteral

theorem of_plain (h : t.all beginsNothing = true) : Readable t [] :=
  of_code (staysCode_of_beginsNothing (List.all_eq_true.1 h))

/-- Readable texts with plain separators between them. -/
theorem joinWith {α : Type} {separator : Text} (hseparator : separator.all beginsNothing = true)
    {write : α → Text} {literals : α → List Text} {items : List α}
    (h : ∀ a ∈ items, Readable (write a) (literals a)) :
    Readable (Text.joinWith separator (items.map write)) (items.flatMap literals) := by
  induction items with
  | nil => exact .nil
  | cons a items ih =>
    obtain ⟨ha, hitems⟩ := List.forall_mem_cons.1 h
    cases items with
    | nil =>
      have hjoin : Text.joinWith separator ([a].map write) = write a :=
        joinWith_singleton _ _
      rwa [hjoin, List.flatMap_singleton]
    | cons b items =>
      rw [List.map_cons, List.map_cons, joinWith_cons_cons, List.flatMap_cons]
      have hlater := (of_plain hseparator).append (ih hitems)
      exact ha.append hlater

end Readable

/-- Code whose last character stands in no opener is code in front of everything. -/
theorem StaysCode.of_getLast? {code : Text} (h : StaysCode code [])
    (hlast : code.getLast?.any isInert = true) (rest : Text) : StaysCode code rest := by
  rcases List.eq_nil_or_concat code with rfl | ⟨front, c, rfl⟩
  · exact .nil rest
  · rw [List.concat_eq_append] at *
    have hc : isInert c = true := by simpa using hlast
    have hback : StaysCode [c] rest :=
      staysCode_of_beginsNothing (List.forall_mem_singleton.2 (Bool.and_eq_true_iff.1 hc).1) rest
    exact (h.left.next (isInert_iff.1 hc).1.2.1 rest).append hback

/-! ## Quiet spans -/

/-- Whether spans are code and strings that are found again in front of every text. -/
structure Quiet (spans : List Span) : Prop where
  code : ∀ s ∈ spans, s.isCode = true → ∀ rest, StaysCode s.text rest
  string : ∀ s ∈ spans, s.isCode = false → s.IsWhole

theorem isWhole_of_isStringLiteral {w : Text} (h : IsStringLiteral w) (start stop : Nat) :
    Span.IsWhole ⟨.string, w, start, stop⟩ := by
  refine ⟨rfl, fun rest => ?_⟩
  obtain ⟨o, body, hkind, htext, ho, hb⟩ := exists_opener_of_isStringLiteral h rest
  have hclosed : Closed w rest := by
    refine closed_iff.2 ⟨o, body, ho, htext, ?_⟩
    rwa [htext, List.append_assoc, List.drop_left] at hb
  rw [Span.Reads, if_neg (by simp [Span.isCode])]
  refine ⟨hclosed, fun hno => absurd hno (by simp [Span.isComment]), fun hbegins => ?_⟩
  rw [← hclosed.beginsComment_append, ← kind_eq_comment_iff ho, hkind] at hbegins
  cases hbegins

theorem IsStringLiteral.ne_nil {w : Text} (h : IsStringLiteral w) : w ≠ [] := by
  cases h <;> simp [Delimiter.enclose, Delimiter.opening]

namespace Quiet

variable {xs ys : List Span}

/-- Quiet spans stand in front of all spans that stand. -/
theorem append_steady (h : Quiet xs) (hy : Steady ys) : Steady (xs ++ ys) := by
  induction xs with
  | nil => exact hy
  | cons s xs ih =>
    obtain ⟨hs, hcode⟩ := List.forall_mem_cons.1 h.code
    obtain ⟨hs', hstring⟩ := List.forall_mem_cons.1 h.string
    exact (ih ⟨hcode, hstring⟩).cons (fun hcode => hs hcode []) hs' fun n _ hcode _ => hs hcode _

theorem steady (h : Quiet xs) : Steady xs := by
  rw [← List.append_nil xs]
  exact h.append_steady .empty

theorem append (h : Quiet xs) (hy : Quiet ys) : Quiet (xs ++ ys) :=
  ⟨List.forall_mem_append.2 ⟨h.code, hy.code⟩, List.forall_mem_append.2 ⟨h.string, hy.string⟩⟩

theorem joinCode (h : Quiet xs) : Quiet (joinCode xs) := by
  induction xs with
  | nil => exact h
  | cons s xs ih =>
    obtain ⟨hs, hcode⟩ := List.forall_mem_cons.1 h.code
    obtain ⟨hs', hstring⟩ := List.forall_mem_cons.1 h.string
    have hmore := ih ⟨hcode, hstring⟩
    show Quiet (Strip.consMerged s (LuaVeil.joinCode xs))
    cases hjoined : LuaVeil.joinCode xs with
    | nil => exact ⟨List.forall_mem_singleton.2 hs, List.forall_mem_singleton.2 hs'⟩
    | cons next more =>
      rw [hjoined] at hmore
      obtain ⟨hn, hcode⟩ := List.forall_mem_cons.1 hmore.code
      obtain ⟨hn', hstring⟩ := List.forall_mem_cons.1 hmore.string
      rw [Strip.consMerged]
      split
      · next hboth =>
        obtain ⟨hs, hn⟩ := Bool.and_eq_true_iff.1 hboth
        refine ⟨List.forall_mem_cons.2 ⟨fun _ rest => ?_, hcode⟩,
          List.forall_mem_cons.2 ⟨fun hno => absurd (hno.symm.trans hs) (by decide), hstring⟩⟩
        exact StaysCode.append (by solve_by_elim) (by solve_by_elim)
      · exact ⟨List.forall_mem_cons.2 ⟨hs, hmore.code⟩, List.forall_mem_cons.2 ⟨hs', hmore.string⟩⟩

/-- Where spans begin and end does not matter. -/
theorem of_shape (h : Quiet xs) (hshape : ys.map Span.shape = xs.map Span.shape) : Quiet ys := by
  have hold : ∀ s' ∈ ys, ∃ s ∈ xs, s'.kind = s.kind ∧ s'.text = s.text := by
    intro s' hs'
    have hmem := List.mem_map_of_mem (f := Span.shape) hs'
    rw [hshape] at hmem
    obtain ⟨s, hs, heq⟩ := List.mem_map.1 hmem
    obtain ⟨hkind, htext⟩ := Prod.mk.inj heq
    exact ⟨s, hs, hkind.symm, htext.symm⟩
  constructor
  · intro s' hs' hcode rest
    obtain ⟨s, hs, hkind, htext⟩ := hold s' hs'
    rw [Span.isCode, hkind] at hcode
    rw [htext]
    exact h.code s hs hcode rest
  · intro s' hs' hcode
    obtain ⟨s, hs, hkind, htext⟩ := hold s' hs'
    rw [Span.isCode, hkind] at hcode
    exact (h.string s hs hcode).congr hkind htext

end Quiet

/-! ## Scanned texts -/

/-- The texts of the strings among some spans. -/
def stringTexts (spans : List Span) : List Text :=
  (spans.filter fun s => s.kind == .string).map Span.text

/-- The spans that a scan finds in a text; none if it cannot be scanned. -/
def scanned (t : Text) : List Span :=
  match scan t with
  | .ok spans => spans
  | .error _ => []

theorem scanned_of_scan {t : Text} {spans : List Span} (h : scan t = .ok spans) :
    scanned t = spans := by
  rw [scanned, h]

/-- The texts of the comments among some spans. -/
def commentTexts (spans : List Span) : List Text :=
  (spans.filter Span.isComment).map Span.text

/-- Where spans begin and end does not matter for the texts of one kind. -/
theorem texts_of_shape {xs ys : List Span} (h : xs.map Span.shape = ys.map Span.shape)
    (kind : SpanKind) : (xs.filter fun s => s.kind == kind).map Span.text =
      (ys.filter fun s => s.kind == kind).map Span.text := by
  have hshape : ∀ spans : List Span, (spans.filter fun s => s.kind == kind).map Span.text =
      ((spans.map Span.shape).filter fun shape => shape.1 == kind).map Prod.snd := by
    intro spans
    rw [List.filter_map, List.map_map]
    rfl
  rw [hshape, hshape, h]

theorem stringTexts_of_shape {xs ys : List Span} (h : xs.map Span.shape = ys.map Span.shape) :
    stringTexts xs = stringTexts ys :=
  texts_of_shape h .string

/-- What is no code stays as it is when neighbouring code is joined. -/
theorem filter_joinCode {p : Span → Bool} (hp : ∀ s, s.isCode = true → p s = false)
    (spans : List Span) : (joinCode spans).filter p = spans.filter p := by
  induction spans with
  | nil => rfl
  | cons s spans ih =>
    rw [List.filter_cons, ← ih]
    show (Strip.consMerged s (joinCode spans)).filter p = _
    cases joinCode spans with
    | nil => exact List.filter_cons
    | cons next more =>
      rw [Strip.consMerged]
      split
      · next hboth =>
        obtain ⟨hs, hn⟩ := Bool.and_eq_true_iff.1 hboth
        have hjoined : p { s with text := s.text ++ next.text, stop := next.stop } = false := hp _ hs
        rw [List.filter_cons, List.filter_cons, hjoined, hp s hs, hp next hn]
        rfl
      · exact List.filter_cons

theorem stringTexts_joinCode (spans : List Span) :
    stringTexts (joinCode spans) = stringTexts spans :=
  congrArg (List.map Span.text) (filter_joinCode (fun s hs => by
    rw [Strip.kind_of_isCode hs]; rfl) spans)

theorem commentTexts_joinCode (spans : List Span) :
    commentTexts (joinCode spans) = commentTexts spans :=
  congrArg (List.map Span.text) (filter_joinCode (fun s hs => by
    rw [Span.isComment, Strip.kind_of_isCode hs]; rfl) spans)

theorem Readable.exists_spans {t : Text} {literals : List Text} (h : Readable t literals) :
    ∃ spans, Quiet spans ∧ render spans = t ∧ stringTexts spans = literals ∧
      ∀ s ∈ spans, s.text ≠ [] := by
  induction h with
  | nil => exact ⟨[], ⟨by simp, by simp⟩, rfl, rfl, by simp⟩
  | @code c t literals hc _ ih =>
    obtain ⟨spans, hquiet, rfl, rfl, hne⟩ := ih
    by_cases hnil : c = []
    · exact ⟨spans, hquiet, by rw [hnil]; rfl, rfl, hne⟩
    · refine ⟨.codeAt c 0 :: spans, ⟨?_, ?_⟩, rfl, rfl, List.forall_mem_cons.2 ⟨hnil, hne⟩⟩
      · exact List.forall_mem_cons.2 ⟨fun _ => hc, hquiet.code⟩
      · exact List.forall_mem_cons.2 ⟨fun hno => (by cases hno), hquiet.string⟩
  | @literal w t literals hw _ ih =>
    obtain ⟨spans, hquiet, rfl, rfl, hne⟩ := ih
    refine ⟨⟨.string, w, 0, 0⟩ :: spans, ⟨?_, ?_⟩, rfl, rfl,
      List.forall_mem_cons.2 ⟨hw.ne_nil, hne⟩⟩
    · exact List.forall_mem_cons.2 ⟨fun hno => (by cases hno), hquiet.code⟩
    · exact List.forall_mem_cons.2 ⟨fun _ => isWhole_of_isStringLiteral hw 0 0, hquiet.string⟩

/-- A scan of code and literals finds the literals, and the spans that it finds are quiet. -/
theorem Readable.scanned {t : Text} {literals : List Text} (h : Readable t literals) :
    ∃ spans, scan t = .ok spans ∧ Quiet spans ∧ stringTexts spans = literals := by
  obtain ⟨spans, hquiet, rfl, rfl, hne⟩ := h.exists_spans
  obtain ⟨found, hscan, hshape⟩ := scan_of_rescans hquiet.steady.rescans hne
  refine ⟨found, hscan, hquiet.joinCode.of_shape hshape, ?_⟩
  rw [stringTexts_of_shape hshape, stringTexts_joinCode]

/-- What a scan of code and literals finds. -/
theorem Readable.spans {t : Text} {literals : List Text} (h : Readable t literals) :
    Quiet (LuaVeil.scanned t) ∧ render (LuaVeil.scanned t) = t ∧
      stringTexts (LuaVeil.scanned t) = literals ∧ ∀ s ∈ LuaVeil.scanned t, s.text ≠ [] := by
  obtain ⟨spans, hscan, hquiet, htexts⟩ := h.scanned
  rw [scanned_of_scan hscan]
  exact ⟨hquiet, render_scan hscan, htexts, (alternates_of_scan hscan).2⟩

/-! ## Numerals -/

theorem staysCode_decimal (n : Nat) (rest : Text) : StaysCode (Number.decimal n) rest :=
  staysCode_of_isInert (fun c hc => isInert_of_isDigit (all_isDigit_decimal n c hc)) rest

/-- Code can stand in front of every numeral. -/
theorem StaysCode.before_decimal {code : Text} (h : StaysCode code []) (n : Nat) (rest : Text) :
    StaysCode code (Number.decimal n ++ rest) := by
  refine h.before fun c hc => ?_
  rw [List.head?_append_of_ne_nil _ (decimal_ne_nil n)] at hc
  exact (isInert_iff.1 (isInert_of_isDigit (all_isDigit_decimal n c (List.mem_of_head? hc)))).1

/-- A numeral in brackets begins no string. -/
theorem staysCode_subscript (n : Nat) (rest : Text) :
    StaysCode ('[' :: Number.decimal n) rest := by
  have hbracket : StaysCode ['['] [] := by decide
  exact StaysCode.append (a := ['[']) (hbracket.before_decimal n rest) (staysCode_decimal n rest)

/-- A numeral with a sign begins no comment. -/
theorem staysCode_decimalInt (n : Int) (rest : Text) : StaysCode (Number.decimalInt n) rest := by
  have hsign : StaysCode ['-'] [] := by decide
  unfold Number.decimalInt
  split
  · exact StaysCode.append (a := ['-']) (hsign.before_decimal _ rest) (staysCode_decimal _ rest)
  · exact staysCode_decimal _ rest

/-! ## Tables -/

/-- A numeral in brackets begins no string. -/
theorem staysCode_index (n : Nat) (rest : Text) :
    StaysCode ('[' :: (Number.decimal n ++ "] = ".toList)) rest := by
  refine (staysCode_subscript n _).append ?_
  exact staysCode_of_beginsNothing (List.all_eq_true.1 (by decide)) rest

/-- The literals that an entry shows: none if it is hidden. -/
def TableEntry.shown (decoder : Option Name) (e : TableEntry) : List Text :=
  if e.key.isSome && decoder.isSome then [] else [e.literal.text]

theorem readable_expression {decoder : Option Name} {e : TableEntry}
    (hdecoder : ∀ d ∈ decoder, isWord d = true) (he : IsStringLiteral e.literal.text) :
    Readable (e.expression decoder) (e.shown decoder) := by
  unfold TableEntry.expression TableEntry.shown
  cases hkey : e.key with
  | none => exact .of_literal he
  | some key =>
    cases decoder with
    | none => exact .of_literal he
    | some d =>
      have hnumbers : Readable (Text.joinWith ", ".toList
          (e.payload.map fun b => Number.decimal b.toNat)) [] := by
        have hjoin := @Readable.joinWith _ ", ".toList (by decide)
          (fun b : UInt8 => Number.decimal b.toNat) (fun _ => []) e.payload
          fun b _ => .of_code (staysCode_decimal b.toNat)
        rwa [List.flatMap_eq_nil_iff.2 fun _ _ => rfl] at hjoin
      have hword := staysCode_of_isWord (hdecoder d rfl)
      exact ((((Readable.of_code hword).append (.of_plain (by decide))).append hnumbers).append
        (.of_plain (by decide))).append (.of_code (staysCode_decimal key.toNat)) |>.append
          (.of_plain (by decide))

theorem readable_declaration {t : StringTable} (hname : isWord t.name = true)
    (hdecoder : ∀ d ∈ t.decoder, isWord d = true)
    (hliterals : ∀ e ∈ t.entries, IsStringLiteral e.literal.text) :
    Readable t.declaration (t.entries.flatMap (TableEntry.shown t.decoder)) := by
  obtain ⟨front, hdeclaration, hfront⟩ : ∃ front, t.declaration = front ++ "local ".toList ++ t.name ++
      " = \x7b".toList ++ Text.joinWith ", ".toList (t.entries.map (TableEntry.slot t.decoder)) ++
      ['\x7d'] ∧ Readable front [] := by
    rw [StringTable.declaration]
    cases hd : t.decoder with
    | none => exact ⟨[], rfl, .nil⟩
    | some d =>
      obtain ⟨hcode, hlast, -⟩ := plain_decoderBody t.dialect
      have hbody := hcode.of_getLast? (by rw [hlast]; decide)
      exact ⟨_, rfl, (((Readable.of_plain (by decide)).append
        (.of_code (staysCode_of_isWord (hdecoder d hd)))).append (.of_code hbody)).append
          (.of_plain (by decide))⟩
  have hslots := @Readable.joinWith _ ", ".toList (by decide) (TableEntry.slot t.decoder)
    (TableEntry.shown t.decoder) t.entries fun e he =>
      .code (staysCode_index e.index) (readable_expression hdecoder (hliterals e he))
  have hlocal : Readable "local ".toList [] := .of_plain (by decide)
  have hequals : Readable " = \x7b".toList [] := .of_plain (by decide)
  have hclose : Readable ['\x7d'] [] := .of_plain (by decide)
  have hword : Readable t.name [] := .of_code (staysCode_of_isWord hname)
  have hall := ((((hfront.append hlocal).append hword).append hequals).append hslots).append hclose
  rwa [List.append_nil, ← hdeclaration] at hall

theorem slot_none (e : TableEntry) : e.slot none =
    '[' :: (Number.decimal e.index ++ "] = ".toList) ++ e.literal.text := by
  unfold TableEntry.slot TableEntry.expression
  cases e.key <;> rfl

theorem declaration_of_plain {t : StringTable} (hdecoder : t.decoder = none) :
    t.declaration = "local ".toList ++ (t.name ++ (" = \x7b".toList ++
      (Text.joinWith ", ".toList (t.entries.map (TableEntry.slot none)) ++ ['\x7d']))) := by
  simp [StringTable.declaration, hdecoder]

theorem shown_none (entries : List TableEntry) :
    entries.flatMap (TableEntry.shown none) = entries.map fun e => e.literal.text := by
  have hshown : TableEntry.shown none = fun e => [e.literal.text] := by
    funext e
    simp [TableEntry.shown]
  rw [hshown, List.map_eq_flatMap]

/-- The strings in the declaration of a plain table are its literals as they were written. -/
theorem strings_declaration {t : StringTable} (hname : isWord t.name = true)
    (hdecoder : t.decoder = none) (hliterals : ∀ e ∈ t.entries, IsStringLiteral e.literal.text) :
    ∃ spans, scan t.declaration = .ok spans ∧
      stringTexts spans = t.entries.map fun e => e.literal.text := by
  have hread := readable_declaration hname (by simp [hdecoder]) hliterals
  obtain ⟨spans, hscan, -, htexts⟩ := hread.scanned
  exact ⟨spans, hscan, by rw [htexts, hdecoder, shown_none]⟩

/-! ## Predicates -/

theorem readable_predicate {p : OpaquePredicate} (hname : isWord p.name = true) :
    Readable p.declaration [] := by
  have hbody : ∀ form : PredicateForm, ∀ rest, StaysCode (form.body ++ " end".toList) rest := by
    intro form
    cases form <;> exact StaysCode.of_getLast? (by decide +kernel) (by decide +kernel)
  have hfront : Readable "local function ".toList [] := .of_plain (by decide)
  have hparameter : Readable "(n) ".toList [] := .of_plain (by decide)
  have hword : Readable p.name [] := .of_code (staysCode_of_isWord hname)
  have hall := ((hfront.append hword).append hparameter).append (.of_code (hbody p.form))
  rwa [← List.append_assoc] at hall

/-! ## Stubs -/

/-- A text between double quotes. -/
def quoted (t : Text) : Text :=
  (Delimiter.quote '"').enclose t

theorem isStringLiteral_quoted {t : Text} (h : ∀ c ∈ t, c ≠ '"' ∧ c ≠ '\\' ∧ c ≠ '\n') :
    IsStringLiteral (quoted t) := by
  refine .quoted (.inl rfl) ?_
  rw [← List.append_nil t]
  exact (quotedContent_append_iff h).2 .nil

theorem isAlphanum_hex (bytes : List UInt8) : ∀ c ∈ Number.hex bytes, c.isAlphanum = true := by
  have hdigit : ∀ d < 16, (Number.digitChar d).isAlphanum = true := by decide
  intro c hc
  obtain ⟨b, -, hc⟩ := List.mem_flatMap.1 hc
  have hlt := UInt8.toNat_lt b
  simp only [Number.hexByte, List.mem_cons, List.not_mem_nil, or_false] at hc
  rcases hc with rfl | rfl
  · exact hdigit _ (by omega)
  · exact hdigit _ (by omega)

/-- The literals of a stub. -/
def Banner.stubLiterals (body : Text) : List Text :=
  [quoted (digest body), quoted (digest body), quoted "integrity check failed".toList]

/-- A stub is a line of code and its literals. -/
theorem exists_line_of_stub (body : Text) {name : Name} (hname : isWord name = true) :
    ∃ line, Banner.stub body name = line ++ ['\n'] ∧
      Readable line (Banner.stubLiterals body) := by
  have hword : ∀ rest, StaysCode name rest := staysCode_of_isWord hname
  have hdigest : IsStringLiteral (quoted (Banner.digest body)) := by
    refine isStringLiteral_quoted fun c hc => ?_
    have hchar := isAlphanum_hex _ c hc
    refine ⟨?_, ?_, ?_⟩ <;> rintro rfl <;> exact absurd hchar (by decide)
  have hmessage : IsStringLiteral (quoted "integrity check failed".toList) := by
    refine isStringLiteral_quoted fun c hc => ?_
    have hchar : ∀ d ∈ "integrity check failed".toList, (d.isAlphanum || d == ' ') = true :=
      List.all_eq_true.1 (by decide)
    refine ⟨?_, ?_, ?_⟩ <;> rintro rfl <;> exact absurd (hchar _ hc) (by decide)
  have hplain : ∀ {c : Text}, c.all beginsNothing = true → ∀ rest, StaysCode c rest :=
    fun h => staysCode_of_beginsNothing (List.all_eq_true.1 h)
  let line := "do local ".toList ++ (name ++ (" = ".toList ++ (quoted (Banner.digest body) ++
    (" if ".toList ++ (name ++ (" ~= ".toList ++ (quoted (Banner.digest body) ++
      (" then error(".toList ++ (quoted "integrity check failed".toList ++
        (", 0) end end".toList ++ []))))))))))
  refine ⟨line, ?_, ?_⟩
  · have hpieces : ∀ first equals equals' test test' other other' fail fail₁ fail₂ fail₃ : Text,
        equals = equals' ++ ['"'] → test = '"' :: test' → other = other' ++ ['"'] →
        fail = '"' :: (fail₁ ++ '"' :: (fail₂ ++ '"' :: (fail₃ ++ ['\n']))) →
        first ++ name ++ equals ++ Banner.digest body ++ test ++ name ++ other ++
            Banner.digest body ++ fail =
          first ++ (name ++ (equals' ++ (quoted (Banner.digest body) ++ (test' ++ (name ++ (other' ++
            (quoted (Banner.digest body) ++ (fail₁ ++ (quoted fail₂ ++
              (fail₃ ++ [])))))))))) ++ ['\n'] := by
      rintro _ _ _ _ _ _ _ _ _ _ _ rfl rfl rfl rfl
      simp [quoted, Delimiter.enclose, Delimiter.opening, Delimiter.closing]
    exact hpieces _ _ _ _ _ _ _ _ _ _ _ (by decide) (by decide) (by decide) (by decide +kernel)
  · exact .code (hplain (by decide)) <| .code hword <| .code (hplain (by decide)) <|
      .literal hdigest <| .code (hplain (by decide)) <| .code hword <| .code (hplain (by decide)) <|
        .literal hdigest <| .code (hplain (by decide)) <| .literal hmessage <|
          .code (hplain (by decide)) .nil

theorem readable_stub (body : Text) {name : Name} (hname : isWord name = true) :
    Readable (Banner.stub body name) (Banner.stubLiterals body) := by
  obtain ⟨line, htext, hline⟩ := exists_line_of_stub body hname
  rw [htext, ← List.append_nil (Banner.stubLiterals body)]
  exact hline.append (.of_plain (by decide))

/-! ## Headers -/

namespace Banner

/-- The lines of a header. -/
def lines (b : Banner) : List Text :=
  ["-- Protected with ".toList ++ toolName ++ " v".toList ++ toolVersion ++ " | preset: ".toList ++
      b.preset.name ++ " | variant: ".toList ++ b.dialect.name,
    "-- Generated: ".toList ++ b.generatedAt.text]

/-- The spans of a header: each line is a comment. -/
def spans (b : Banner) : List Span :=
  b.lines.flatMap fun line => [⟨.comment, line, 0, 0⟩, .codeAt ['\n'] 0]

theorem render_spans (b : Banner) : render b.spans = b.header := by
  have hlines : ∀ first time feed mark : Text, feed = '\n' :: mark →
      render [⟨.comment, first, 0, 0⟩, .codeAt ['\n'] 0, ⟨.comment, mark ++ time, 0, 0⟩,
        .codeAt ['\n'] 0] = first ++ feed ++ time ++ ['\n'] := by
    rintro first time _ mark rfl
    simp [Span.codeAt]
  exact hlines _ _ _ _ (by decide)

theorem isDigit_padded (width n : Nat) : ∀ c ∈ Number.padded width n, c.isDigit = true := by
  refine List.forall_mem_append.2 ⟨fun c hc => ?_, all_isDigit_decimal n⟩
  obtain rfl := List.eq_of_mem_replicate hc
  decide

/-- A time is written on one line. -/
theorem ne_lineFeed_of_mem_text (t : Instant) : ∀ c ∈ t.text, c ≠ '\n' := by
  have hdigits : ∀ width n, ∀ c ∈ Number.padded width n, c ≠ '\n' := by
    rintro width n c hc rfl
    exact absurd (isDigit_padded width n _ hc) (by decide)
  have hyear : ∀ year, ∀ c ∈ CivilDate.yearText year, c ≠ '\n' := by
    intro year
    unfold CivilDate.yearText
    split
    · exact List.forall_mem_cons.2 ⟨by decide, hdigits _ _⟩
    split
    · exact List.forall_mem_cons.2 ⟨by decide, hdigits _ _⟩
    · exact hdigits _ _
  simp only [Instant.text, CivilDate.text, List.forall_mem_append, List.forall_mem_cons]
  exact ⟨⟨⟨⟨hyear _, by decide, hdigits _ _⟩, by decide, hdigits _ _⟩, by decide,
    ⟨⟨hdigits _ _, by decide, hdigits _ _⟩, by decide, hdigits _ _⟩⟩, by decide, by simp⟩

/-- Each line of a header is a line comment. -/
theorem of_mem_lines {b : Banner} {line : Text} (h : line ∈ b.lines) :
    ['-', '-', ' '] <+: line ∧ '\n' ∉ line := by
  have hpreset : ∀ p : Preset, '\n' ∉ p.name := by
    intro p
    cases p <;> decide
  have hdialect : ∀ d : Dialect, '\n' ∉ d.name := by
    intro d
    cases d <;> decide
  have htime : '\n' ∉ b.generatedAt.text := fun hmem => ne_lineFeed_of_mem_text _ _ hmem rfl
  simp only [lines, List.mem_cons, List.not_mem_nil, or_false] at h
  rcases h with rfl | rfl
  · refine ⟨?_, ?_⟩
    · simp only [List.append_assoc]
      exact (by decide : ['-', '-', ' '] <+: "-- Protected with ".toList).trans
        (List.prefix_append _ _)
    · simp only [List.mem_append, not_or]
      exact ⟨⟨⟨⟨⟨⟨⟨by decide, by decide⟩, by decide⟩, by decide⟩, by decide⟩, hpreset _⟩,
        by decide⟩, hdialect _⟩
  · refine ⟨?_, ?_⟩
    · exact (by decide : ['-', '-', ' '] <+: "-- Generated: ".toList).trans (List.prefix_append _ _)
    · rw [List.mem_append, not_or]
      exact ⟨by decide, htime⟩

/-- A scan finds a header again in front of all spans that it finds again. -/
theorem rescans_header (b : Banner) {spans : List Span} (h : Rescans spans) :
    Rescans (b.spans ++ spans) := by
  have hlines : ∀ lines : List Text,
      (∀ line ∈ lines, ['-', '-', ' '] <+: line ∧ '\n' ∉ line) →
        Rescans ((lines.flatMap fun line => [⟨.comment, line, 0, 0⟩, .codeAt ['\n'] 0]) ++ spans) := by
    intro lines hall
    induction lines with
    | nil => exact h
    | cons line lines ih =>
      obtain ⟨⟨⟨body, rfl⟩, hline⟩, hmore⟩ := List.forall_mem_cons.1 hall
      refine ⟨?_, ?_, ih hmore⟩
      · rw [Span.Reads, if_neg (by simp [Span.isCode])]
        refine ⟨.lineComment ?_ ?_ (.inr ⟨_, rfl⟩), iff_of_true rfl ⟨_, rfl⟩⟩
        · rintro level ⟨t, ht⟩
          cases ht
        · exact fun hmem => hline (List.mem_cons_of_mem _ (List.mem_cons_of_mem _ hmem))
      · exact staysCode_of_beginsNothing (List.forall_mem_singleton.2 (by decide)) _
  exact hlines b.lines fun line => of_mem_lines

end Banner

end LuaVeil
