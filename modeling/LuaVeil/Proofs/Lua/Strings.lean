/-
# The strings of a script

A scan finds string literals and interpolated strings. A string literal has a
content between its delimiters, and is read as a literal and written again
without a change.

Main statements:

* `isStringLiteral_of_mem_scan`, a string that does not begin with a backtick is a
  string literal;
* `exists_literal_of_isStringLiteral`, a string literal is a literal as it is written.
-/
import LuaVeil.Proofs.Grammar.Lexemes
import LuaVeil.Lua.Literal

namespace LuaVeil

/-! ## Contents -/

/-- What is read up to the closing quote is a content and the quote. -/
theorem exists_content_of_quotedBody? {mark : Char} {t body rest : Text}
    (h : quotedBody? mark t = some (body, rest)) :
    ∃ content, body = content ++ [mark] ∧ QuotedContent mark content := by
  fun_induction quotedBody? mark t generalizing body rest with
  | case1 => cases h
  | case2 =>
    obtain ⟨rfl, -⟩ := Prod.mk.inj (Option.some.inj h)
    exact ⟨[], rfl, .nil⟩
  | case3 => cases h
  | case4 d t ih =>
    obtain ⟨⟨b, r⟩, hb, he⟩ := Option.map_eq_some_iff.1 h
    obtain ⟨rfl, -⟩ := Prod.mk.inj he
    obtain ⟨content, rfl, hcontent⟩ := ih hb
    exact ⟨'\\' :: d :: content, rfl, .escape hcontent⟩
  | case5 => cases h
  | case6 =>
    obtain ⟨rfl, -⟩ := Prod.mk.inj (Option.some.inj h)
    exact ⟨[], rfl, .nil⟩
  | case7 c d t hslash hline hc ih =>
    obtain ⟨⟨b, r⟩, hb, he⟩ := Option.map_eq_some_iff.1 h
    obtain ⟨rfl, -⟩ := Prod.mk.inj he
    obtain ⟨content, rfl, hcontent⟩ := ih hb
    exact ⟨c :: content, rfl, .plain hc hslash hline hcontent⟩

/-- What is read up to a text holds the text at its end only. -/
theorem exists_content_of_splitAfter? {p t before after : Text} (hp : p ≠ [])
    (h : Text.splitAfter? p t = some (before, after)) :
    ∃ content, before = content ++ p ∧ ¬ p <:+: (content ++ p).dropLast := by
  induction t generalizing before with
  | nil =>
    rw [Text.splitAfter?, if_neg (by simpa using hp)] at h
    cases h
  | cons c t ih =>
    rw [Text.splitAfter?] at h
    split at h
    · obtain ⟨rfl, -⟩ := Prod.mk.inj (Option.some.inj h)
      refine ⟨[], rfl, fun hinfix => ?_⟩
      have hlength := hinfix.length_le
      have hpos := List.length_pos_iff.2 hp
      simp only [List.nil_append, List.length_dropLast] at hlength
      omega
    · next hprefix =>
      obtain ⟨⟨b, a⟩, hb, he⟩ := Option.map_eq_some_iff.1 h
      obtain ⟨rfl, rfl⟩ := Prod.mk.inj he
      obtain ⟨happ, -⟩ := Text.splitAfter?_eq_some hb
      obtain ⟨content, rfl, hcontent⟩ := ih hb
      refine ⟨c :: content, rfl, fun hinfix => ?_⟩
      rw [List.cons_append, List.dropLast_cons_of_ne_nil (by simp [hp])] at hinfix
      rcases List.infix_cons_iff.1 hinfix with hfirst | hlater
      · refine hprefix (List.isPrefixOf_iff_prefix.2 (hfirst.trans ?_))
        rw [List.prefix_cons_inj, ← happ]
        exact (List.dropLast_prefix _).trans (List.prefix_append _ _)
      · exact hcontent hlater

/-- What is read of a long string or comment is a content with its closing bracket. -/
theorem exists_content_of_longBody? {level : Nat} {t body rest : Text}
    (h : longBody? level t = some (body, rest)) :
    ∃ content, body = content ++ (Delimiter.long level).closing ∧ LongContent level content := by
  rw [longBody?_eq_splitAfter?] at h
  exact exists_content_of_splitAfter? (Delimiter.closing_ne_nil level) h

/-- A string literal is read up to its end, whatever follows. -/
theorem exists_opener_of_isStringLiteral {w : Text} (h : IsStringLiteral w) (t : Text) :
    ∃ o body, Opener.kind o = .string ∧ w = o.text ++ body ∧ opener? (w ++ t) = some o ∧
      o.body? ((w ++ t).drop o.text.length) = some (body, t) := by
  cases h with
  | @quoted mark content hmark hcontent =>
    have hplain : mark ≠ '\\' ∧ mark ≠ '\n' := by rcases hmark with rfl | rfl <;> decide
    refine ⟨.string (.quote mark), content ++ [mark], rfl, rfl, opener?_quote hmark _, ?_⟩
    have hbody := quotedBody?_of_content hplain hcontent t
    rw [List.append_cons] at hbody
    exact hbody
  | @long level content hcontent =>
    have htext : (Delimiter.long level).enclose content ++ t =
        (Delimiter.long level).opening ++ (content ++ (Delimiter.long level).closing ++ t) := by
      simp [Delimiter.enclose]
    refine ⟨.string (.long level), content ++ (Delimiter.long level).closing, rfl, ?_, ?_, ?_⟩
    · rw [Delimiter.enclose, List.append_assoc]
      rfl
    · rw [htext]
      exact opener?_long level _
    · rw [htext, Opener.text, List.drop_left]
      exact longBody?_of_content hcontent t

/-! ## Scanned strings -/

theorem cases_of_isQuote {mark : Char} (h : isQuote mark = true) :
    mark = '"' ∨ mark = '\'' ∨ mark = '`' := by
  simpa [isQuote, or_assoc] using h

theorem ne_of_isQuote {mark c : Char} (h : isQuote mark = true) (hc : isQuote c = false) :
    mark ≠ c := by
  rintro rfl
  exact Bool.false_ne_true (hc.symm.trans h)

theorem isQuote_of_opener? {t : Text} {mark : Char}
    (h : opener? t = some (.string (.quote mark))) : isQuote mark = true := by
  unfold opener? at h
  split at h
  · cases h
  · next c t =>
    split at h
    · split at h
      · split at h <;> cases h
      · cases h
    · split at h
      · next hquote =>
        obtain rfl : c = mark := by simpa using h
        exact hquote
      · obtain ⟨level, -, he⟩ := Option.map_eq_some_iff.1 h
        cases he

/-- A delimiter with the body of a string is a string literal, or begins with a backtick. -/
theorem isStringLiteral_of_body? {t body rest : Text} {d : Delimiter}
    (ho : opener? t = some (.string d))
    (h : (Opener.string d).body? (t.drop (Opener.string d).text.length) = some (body, rest)) :
    IsStringLiteral ((Opener.string d).text ++ body) ∨
      ((Opener.string d).text ++ body).head? = some '`' := by
  cases d with
  | quote mark =>
    obtain ⟨content, rfl, hcontent⟩ := exists_content_of_quotedBody? h
    rcases cases_of_isQuote (isQuote_of_opener? ho) with hmark | hmark | rfl
    · exact .inl (.quoted (.inl hmark) hcontent)
    · exact .inl (.quoted (.inr hmark) hcontent)
    · exact .inr rfl
  | long level =>
    obtain ⟨content, rfl, hcontent⟩ := exists_content_of_longBody? h
    refine .inl ?_
    have hliteral : IsStringLiteral ((Delimiter.long level).enclose content) := .long hcontent
    rwa [Delimiter.enclose, List.append_assoc] at hliteral

/-- A string of a script is a string literal if it does not begin with a backtick. -/
theorem isStringLiteral_of_mem_scan {source : Text} {spans : List Span}
    (h : scan source = .ok spans) {s : Span} (hs : s ∈ spans) (hkind : s.kind = .string) :
    IsStringLiteral s.text ∨ s.text.head? = some '`' := by
  have hcode : ∀ start text, s ∉ codeSpans start text := by
    intro start text hmem
    unfold codeSpans at hmem
    split at hmem
    · cases hmem
    · obtain rfl := List.mem_singleton.1 hmem
      cases hkind
  have hfrom : ∀ start t spans, scanFrom start t = .ok spans → s ∈ spans →
      IsStringLiteral s.text ∨ s.text.head? = some '`' := by
    intro start t spans h hs
    fun_induction scanFrom start t generalizing spans with
    | case1 start t code =>
      obtain rfl := Except.ok.inj h
      exact absurd hs (hcode _ _)
    | case2 => cases h
    | case3 start t code place o ho body rest hb text stop ih =>
      cases hmore : scanFrom stop rest with
      | error e =>
        rw [hmore] at h
        cases h
      | ok more =>
        rw [hmore] at h
        obtain rfl := Except.ok.inj h
        rcases List.mem_append.1 hs with hs | hs
        · exact absurd hs (hcode _ _)
        rcases List.mem_cons.1 hs with rfl | hs
        · cases o with
          | lineComment => cases hkind
          | blockComment level => cases hkind
          | string d => exact isStringLiteral_of_body? ho hb
        · exact ih more hmore hs
  exact hfrom 0 source spans h hs

/-! ## Literals -/

theorem length_opening_long (level : Nat) : (Delimiter.long level).opening.length = level + 2 := by
  simp [Delimiter.opening]

theorem ofText?_quoted {mark : Char} (hmark : mark = '"' ∨ mark = '\'') (content : Text) :
    Literal.ofText? ((Delimiter.quote mark).enclose content) = some ⟨.quote mark, content⟩ := by
  have htext : (Delimiter.quote mark).enclose content = mark :: (content ++ [mark]) := rfl
  rw [htext, Literal.ofText?, if_pos hmark, if_neg (by simp)]
  simp [Literal.inner]

/-- A string literal is a literal as it is written. -/
theorem exists_literal_of_isStringLiteral {t : Text} (h : IsStringLiteral t) :
    ∃ l, Literal.ofText? t = some l ∧ l.text = t := by
  cases h with
  | @quoted mark content hmark hcontent => exact ⟨_, ofText?_quoted hmark content, rfl⟩
  | @long level content hcontent =>
    refine ⟨⟨.long level, content⟩, ?_, rfl⟩
    have hlevel := longLevel?_opening level (content ++ (Delimiter.long level).closing)
    rw [← List.append_assoc] at hlevel
    have hinner : Literal.inner (level + 2) (level + 2) ((Delimiter.long level).enclose content) =
        content := by
      have hclosing : (Delimiter.long level).closing.length = level + 2 := by
        simp [Delimiter.closing]
      rw [Literal.inner, Delimiter.enclose, List.append_assoc, List.length_append,
        List.length_append, hclosing, length_opening_long, ← length_opening_long level,
        List.drop_left, length_opening_long, show level + 2 + (content.length + (level + 2)) -
          (level + 2) - (level + 2) = content.length by omega, List.take_left]
    have hfirst : ∃ rest, (Delimiter.long level).enclose content = '[' :: rest :=
      ⟨_, by simp [Delimiter.enclose, Delimiter.opening]; rfl⟩
    rw [← Delimiter.enclose] at hlevel
    obtain ⟨rest, hrest⟩ := hfirst
    rw [hrest] at hlevel hinner ⊢
    rw [Literal.ofText?, if_neg (by decide), hlevel, Option.map_some, hinner]

theorem ofText?_of_backtick {t : Text} (h : t.head? = some '`') : Literal.ofText? t = none := by
  cases t with
  | nil => cases h
  | cons c t =>
    obtain rfl : c = '`' := Option.some.inj h
    rfl

end LuaVeil
