/-
# What opens and closes strings and comments

What opens a string or a comment and what closes it is said here as it is written,
with no reader: two dashes, a quote or a long bracket open something, and the first
unescaped quote, the first bracket of the same level or the end of the line closes it.

Main statements: `opener?_isSome_iff` and `closed_iff`, the readers find exactly what
is written, and `Closed.unique`, there is one first closer at most.
-/
import LuaVeil.Proofs.Grammar.Layout
import LuaVeil.Proofs.Lua.Strings

namespace LuaVeil

/-! ## Openers -/

/-- Whether a text begins with two dashes. -/
def BeginsComment (t : Text) : Prop :=
  ['-', '-'] <+: t

/-- Whether something opens at the start of a text: dashes, a quote or a long bracket. -/
def Opens (t : Text) : Prop :=
  BeginsComment t ∨ (∃ mark, isQuote mark = true ∧ [mark] <+: t) ∨
    ∃ level, (Delimiter.long level).opening <+: t

theorem opener?_of_isQuote {mark : Char} (h : isQuote mark = true) (t : Text) :
    opener? (mark :: t) = some (.string (.quote mark)) := by
  have hdash : mark ≠ '-' := by
    rintro rfl
    exact absurd h (by decide)
  simp [opener?, hdash, h]

/-- An opener is found exactly where one is written. -/
theorem opener?_isSome_iff {t : Text} : (opener? t).isSome = true ↔ Opens t := by
  constructor
  · intro h
    obtain ⟨o, ho⟩ := Option.isSome_iff_exists.1 h
    have hprefix := prefix_of_opener? ho
    cases o with
    | lineComment => exact .inl hprefix
    | blockComment level =>
      exact .inl ((List.prefix_append ['-', '-'] (Delimiter.long level).opening).trans hprefix)
    | string d =>
      cases d with
      | quote mark => exact .inr (.inl ⟨mark, isQuote_of_opener? ho, hprefix⟩)
      | long level => exact .inr (.inr ⟨level, hprefix⟩)
  · rintro (⟨u, rfl⟩ | ⟨mark, hmark, u, rfl⟩ | ⟨level, u, rfl⟩)
    · cases hlevel : longLevel? u <;> simp [opener?, hlevel]
    · rw [List.cons_append, List.nil_append, opener?_of_isQuote hmark]
      rfl
    · rw [opener?_long]
      rfl

/-- The kind of a span tells whether it begins with dashes. -/
theorem kind_eq_comment_iff {t : Text} {o : Opener} (h : opener? t = some o) :
    o.kind = .comment ↔ BeginsComment t := by
  have hprefix := prefix_of_opener? h
  have hhead : ∀ c, c ≠ '-' → [c] <+: t → ¬ BeginsComment t := by
    rintro c hc ⟨u, rfl⟩ ⟨v, hv⟩
    exact hc (List.cons.inj hv).1.symm
  cases o with
  | lineComment => exact ⟨fun _ => hprefix, fun _ => rfl⟩
  | blockComment level =>
    exact ⟨fun _ => (List.prefix_append ['-', '-'] (Delimiter.long level).opening).trans hprefix,
      fun _ => rfl⟩
  | string d =>
    have hnot : ¬ BeginsComment t := by
      cases d with
      | quote mark =>
        refine hhead mark ?_ hprefix
        rintro rfl
        exact absurd (isQuote_of_opener? h) (by decide)
      | long level => exact hhead '[' (by decide) ((List.prefix_append ['['] _).trans hprefix)
    exact ⟨fun hkind => (by cases hkind), fun hdashes => absurd hdashes hnot⟩

/-- The code at the start of a text ends in front of everything that opens. -/
theorem splitCode_prefix_of_opens (code : Text) {rest : Text} (h : Opens rest) :
    (splitCode (code ++ rest)).1 <+: code := by
  induction code with
  | nil =>
    obtain ⟨o, ho⟩ := Option.isSome_iff_exists.1 (opener?_isSome_iff.2 h)
    simp [splitCode_of_opener ho]
  | cons c code ih =>
    rw [List.cons_append, splitCode]
    split
    · exact List.nil_prefix
    · exact (List.prefix_cons_inj c).2 ih

/-! ## Closers -/

/-- Whether the character after a text is escaped: an unescaped backslash stands before it. -/
def escapesNext (t : Text) : Bool :=
  t.foldl (fun escaped c => c == '\\' && !escaped) false

/-- Whether the closing bracket after a content is the first one of its level. -/
def IsFirstClosing (level : Nat) (content rest : Text) : Prop :=
  ∀ before after, content ++ (Delimiter.long level).closing ++ rest =
    before ++ (Delimiter.long level).closing ++ after → content.length ≤ before.length

/-- Whether a text ends just past the first closer of what it opens, with `rest` behind it. -/
inductive Closed : Text → Text → Prop
  /-- the first unescaped quote, and no unescaped line feed before it -/
  | quote {mark : Char} {content rest : Text} (hmark : isQuote mark = true)
      (hfirst : ∀ before c after, content = before ++ c :: after → c = mark ∨ c = '\n' →
        escapesNext before = true)
      (hend : escapesNext content = false) : Closed (mark :: (content ++ [mark])) rest
  | long {level : Nat} {content rest : Text} (hfirst : IsFirstClosing level content rest) :
      Closed ((Delimiter.long level).enclose content) rest
  | blockComment {level : Nat} {content rest : Text} (hfirst : IsFirstClosing level content rest) :
      Closed ('-' :: '-' :: (Delimiter.long level).enclose content) rest
  /-- the end of the line or of the script -/
  | lineComment {body rest : Text} (hlong : NoLongBracket (body ++ rest)) (hline : '\n' ∉ body)
      (hrest : rest = [] ∨ ['\n'] <+: rest) : Closed ('-' :: '-' :: body) rest

/-- Only a backslash changes whether the next character is escaped. -/
theorem escapesNext_cons {c : Char} (hc : c ≠ '\\') (t : Text) :
    escapesNext (c :: t) = escapesNext t := by
  have hslash : (c == '\\') = false := by simpa using hc
  simp [escapesNext, hslash]

theorem escapesNext_escape (c : Char) (t : Text) :
    escapesNext ('\\' :: c :: t) = escapesNext t := by
  simp [escapesNext]

/-- In the content of a string, quotes and line feeds are escaped. -/
theorem escapesNext_of_quotedContent {mark : Char} (hslash : mark ≠ '\\') {content : Text}
    (h : QuotedContent mark content) :
    (∀ before c after, content = before ++ c :: after → c = mark ∨ c = '\n' →
      escapesNext before = true) ∧ escapesNext content = false := by
  induction h with
  | nil => exact ⟨fun before c after h => by simp at h, rfl⟩
  | @plain c t hc hplain hline h ih =>
    refine ⟨fun before d after heq hd => ?_, by rw [escapesNext_cons hplain, ih.2]⟩
    cases before with
    | nil =>
      obtain ⟨rfl, -⟩ := List.cons.inj heq
      rcases hd with hd | hd
      · exact absurd hd hc
      · exact absurd hd hline
    | cons b before =>
      obtain ⟨rfl, hmore⟩ := List.cons.inj heq
      rw [escapesNext_cons hplain]
      exact ih.1 before d after hmore hd
  | @escape c t h ih =>
    refine ⟨fun before d after heq hd => ?_, by rw [escapesNext_escape, ih.2]⟩
    rcases before with _ | ⟨b, _ | ⟨e, before⟩⟩
    · obtain ⟨rfl, -⟩ := List.cons.inj heq
      rcases hd with hd | hd
      · exact absurd hd.symm hslash
      · exact absurd hd (by decide)
    · obtain ⟨hb, -⟩ := List.cons.inj heq
      rw [← hb]
      rfl
    · obtain ⟨hb, hmore⟩ := List.cons.inj heq
      obtain ⟨-, hmore⟩ := List.cons.inj hmore
      rw [← hb, escapesNext_escape]
      exact ih.1 before d after hmore hd

/-- A text with no unescaped quote and line feed is the content of a string. -/
theorem quotedContent_of_escapesNext {mark : Char} {content : Text}
    (hfirst : ∀ before c after, content = before ++ c :: after → c = mark ∨ c = '\n' →
      escapesNext before = true)
    (hend : escapesNext content = false) : QuotedContent mark content := by
  -- the content is read from its start, an escape at a time
  induction hlength : content.length using Nat.strong_induction_on generalizing content with
  | _ n ih =>
    cases content with
    | nil => exact .nil
    | cons c t =>
      by_cases hc : c = '\\'
      · subst hc
        cases t with
        | nil => cases hend
        | cons d t =>
          rw [escapesNext_escape] at hend
          refine .escape (ih t.length (by simp at hlength; omega) ?_ hend rfl)
          intro before e after heq he
          have := hfirst ('\\' :: d :: before) e after (by simp [heq]) he
          rwa [escapesNext_escape] at this
      · rw [escapesNext_cons hc] at hend
        have hhead : ¬ (c = mark ∨ c = '\n') := fun hor => by
          cases hfirst [] c t rfl hor
        refine .plain (fun h => hhead (.inl h)) hc (fun h => hhead (.inr h))
          (ih t.length (by simp at hlength; omega) ?_ hend rfl)
        intro before e after heq he
        have := hfirst (c :: before) e after (by simp [heq]) he
        rwa [escapesNext_cons hc] at this

/-- The contents of strings are the texts with no unescaped quote and line feed. -/
theorem quotedContent_iff {mark : Char} (hmark : isQuote mark = true) {content : Text} :
    QuotedContent mark content ↔
      (∀ before c after, content = before ++ c :: after → c = mark ∨ c = '\n' →
        escapesNext before = true) ∧ escapesNext content = false :=
  ⟨escapesNext_of_quotedContent (ne_of_isQuote hmark rfl),
    fun h => quotedContent_of_escapesNext h.1 h.2⟩

/-- What follows a content does not matter for its first closing bracket. -/
theorem longContent_iff {level : Nat} {content : Text} (rest : Text) :
    LongContent level content ↔ IsFirstClosing level content rest := by
  unfold LongContent IsFirstClosing
  have hpos : 0 < (Delimiter.long level).closing.length := by simp [Delimiter.closing]
  generalize (Delimiter.long level).closing = p at hpos ⊢
  constructor
  · intro h before after heq
    by_contra hlt
    have hbefore : before ++ p <+: content ++ p ++ rest := ⟨after, heq.symm⟩
    have hwhole : (content ++ p).dropLast <+: content ++ p ++ rest :=
      (List.dropLast_prefix _).trans (List.prefix_append _ _)
    have hinside := List.prefix_of_prefix_length_le hbefore hwhole (by simp; omega)
    exact h ((List.suffix_append before p).isInfix.trans hinside.isInfix)
  · rintro h ⟨before, after, heq⟩
    have hne : content ++ p ≠ [] := by
      intro hnil
      rw [(List.append_eq_nil_iff.1 hnil).2] at hpos
      exact absurd hpos (by simp)
    obtain ⟨last, hlast⟩ : ∃ last, (content ++ p).dropLast ++ [last] = content ++ p :=
      ⟨_, List.dropLast_concat_getLast hne⟩
    have hle := h before (after ++ [last] ++ rest) (by rw [← hlast, ← heq]; simp)
    have hlength := congrArg List.length heq
    simp only [List.length_append, List.length_dropLast] at hlength
    omega

/-- A closed text is an opener with the body that is read after it. -/
theorem Closed.exists_body {text rest : Text} (h : Closed text rest) :
    ∃ o body, opener? (text ++ rest) = some o ∧ text = o.text ++ body ∧
      o.body? (body ++ rest) = some (body, rest) := by
  have henclose : ∀ level content, (Delimiter.long level).enclose content ++ rest =
      (Delimiter.long level).opening ++ (content ++ (Delimiter.long level).closing ++ rest) := by
    simp [Delimiter.enclose]
  cases h with
  | @quote mark content rest hmark hfirst hend =>
    have hplain : mark ≠ '\\' ∧ mark ≠ '\n' :=
      ⟨ne_of_isQuote hmark rfl, ne_of_isQuote hmark rfl⟩
    refine ⟨.string (.quote mark), content ++ [mark], opener?_of_isQuote hmark _, rfl, ?_⟩
    rw [List.append_assoc]
    exact quotedBody?_of_content hplain ((quotedContent_iff hmark).2 ⟨hfirst, hend⟩) rest
  | @long level content rest hfirst =>
    refine ⟨.string (.long level), content ++ (Delimiter.long level).closing, ?_, ?_, ?_⟩
    · rw [henclose]
      exact opener?_long level _
    · rw [Delimiter.enclose, List.append_assoc]
      rfl
    · exact longBody?_of_content ((longContent_iff rest).2 hfirst) rest
  | @blockComment level content rest hfirst =>
    refine ⟨.blockComment level, content ++ (Delimiter.long level).closing, ?_, ?_, ?_⟩
    · rw [List.cons_append, List.cons_append, henclose]
      exact opener?_blockComment level _
    · rw [Delimiter.enclose, List.append_assoc]
      rfl
    · exact longBody?_of_content ((longContent_iff rest).2 hfirst) rest
  | @lineComment body rest hlong hline hrest =>
    refine ⟨.lineComment, body, opener?_lineComment hlong, rfl, ?_⟩
    refine body?_lineComment hline rest fun c hc => ?_
    rcases hrest with rfl | ⟨more, rfl⟩
    · cases hc
    · exact (Option.some.inj hc).symm

/-- An opener with the body that is read after it is closed. -/
theorem closed_of_opener {o : Opener} {body rest : Text}
    (ho : opener? (o.text ++ body ++ rest) = some o)
    (hb : o.body? (body ++ rest) = some (body, rest)) : Closed (o.text ++ body) rest := by
  cases o with
  | lineComment =>
    obtain ⟨hbody, hrest⟩ := Prod.mk.inj (Option.some.inj hb)
    refine .lineComment (fun level hprefix => ?_) (fun hmem => ?_) ?_
    · obtain ⟨more, hmore⟩ := hprefix
      have hblock := opener?_blockComment level more
      rw [hmore] at hblock
      cases hblock.symm.trans ho
    · rw [← hbody] at hmem
      simpa using List.mem_takeWhile_imp hmem
    · cases rest with
      | nil => exact .inl rfl
      | cons c rest =>
        have hhead := List.head?_dropWhile_not (· != '\n') (body ++ c :: rest)
        rw [hrest] at hhead
        obtain rfl : c = '\n' := by simpa using hhead
        exact .inr ⟨rest, rfl⟩
  | blockComment level =>
    obtain ⟨content, rfl, hcontent⟩ := exists_content_of_longBody? hb
    have htext : Opener.text (.blockComment level) ++ (content ++ (Delimiter.long level).closing) =
        '-' :: '-' :: (Delimiter.long level).enclose content := by
      simp [Opener.text, Delimiter.enclose]
    rw [htext]
    exact .blockComment ((longContent_iff rest).1 hcontent)
  | string d =>
    cases d with
    | quote mark =>
      have hmark := isQuote_of_opener? ho
      obtain ⟨content, rfl, hcontent⟩ := exists_content_of_quotedBody? hb
      obtain ⟨hfirst, hend⟩ := (quotedContent_iff hmark).1 hcontent
      exact .quote hmark hfirst hend
    | long level =>
      obtain ⟨content, rfl, hcontent⟩ := exists_content_of_longBody? hb
      have htext : Opener.text (.string (.long level)) ++
          (content ++ (Delimiter.long level).closing) =
            (Delimiter.long level).enclose content := by
        simp [Opener.text, Delimiter.enclose]
      rw [htext]
      exact .long ((longContent_iff rest).1 hcontent)

/-- A text is closed if it is an opener with the body that is read after it. -/
theorem closed_iff {text rest : Text} :
    Closed text rest ↔ ∃ o body, opener? (text ++ rest) = some o ∧ text = o.text ++ body ∧
      o.body? (body ++ rest) = some (body, rest) := by
  refine ⟨Closed.exists_body, ?_⟩
  rintro ⟨o, body, ho, rfl, hb⟩
  exact closed_of_opener ho hb

/-- What a reader cuts off is closed. -/
theorem closed_of_body? {t body rest : Text} {o : Opener} (ho : opener? t = some o)
    (hb : o.body? (t.drop o.text.length) = some (body, rest)) :
    t = o.text ++ body ++ rest ∧ Closed (o.text ++ body) rest := by
  obtain ⟨after, rfl⟩ := prefix_of_opener? ho
  rw [List.drop_left] at hb
  obtain rfl := Opener.body?_append hb
  rw [← List.append_assoc] at ho
  exact ⟨(List.append_assoc _ _ _).symm, closed_of_opener ho hb⟩

/-- What opens a string does not depend on what follows the string, nor does its end. -/
theorem Closed.string {text rest : Text} (h : Closed text rest) (htext : ¬ BeginsComment text)
    (rest' : Text) : Closed text rest' := by
  cases h with
  | quote hmark hfirst hend => exact .quote hmark hfirst hend
  | long hfirst => exact .long ((longContent_iff rest').1 ((longContent_iff rest).2 hfirst))
  | blockComment => exact absurd ⟨_, rfl⟩ htext
  | lineComment => exact absurd ⟨_, rfl⟩ htext

/-- Whether a text that is closed begins with dashes does not depend on what follows it. -/
theorem Closed.beginsComment_append {text rest : Text} (h : Closed text rest) :
    BeginsComment (text ++ rest) ↔ BeginsComment text := by
  have hhead : ∀ {c : Char} {t : Text}, c ≠ '-' → ¬ BeginsComment (c :: t) := by
    rintro c t hc ⟨u, hu⟩
    exact hc (List.cons.inj hu).1.symm
  refine ⟨fun hbegins => ?_, fun hbegins => hbegins.trans (List.prefix_append _ _)⟩
  cases h with
  | @quote mark _ _ hmark =>
    have hdash : mark ≠ '-' := ne_of_isQuote hmark rfl
    exact absurd hbegins (hhead hdash)
  | long => exact absurd hbegins (hhead (by decide))
  | blockComment => exact ⟨_, rfl⟩
  | lineComment => exact ⟨_, rfl⟩

/-- A text is closed in one way at most. -/
theorem Closed.unique {text rest text' rest' : Text} (h : Closed text rest)
    (h' : Closed text' rest') (happ : text ++ rest = text' ++ rest') : text = text' := by
  obtain ⟨o, body, ho, rfl, hb⟩ := closed_iff.1 h
  obtain ⟨o', body', ho', rfl, hb'⟩ := closed_iff.1 h'
  rw [happ] at ho
  obtain rfl : o = o' := Option.some.inj (ho.symm.trans ho')
  rw [List.append_assoc, List.append_assoc, List.append_cancel_left_eq] at happ
  rw [happ] at hb
  rw [(Prod.mk.inj (Option.some.inj (hb.symm.trans hb'))).1]

end LuaVeil
