/-
# Where a scan fails

A scan fails at the first string or comment that nothing closes. What stands before it
is a script of its own, and nothing behind its opener matters: a text that is cut off
anywhere behind the opener fails in the same way.

Main statements:

* `body?_eq_none_iff`, when nothing closes what is open, said with no reader;
* `exists_unclosed_of_error`, a scan that fails has found the spans in front of an opener;
* `scanFrom_of_unclosed`, where spans are found in front of such an opener, a scan fails;
* `scan_error`, what is said by the error of a scan.
-/
import LuaVeil.Proofs.Lua.Follow
import LuaVeil.Proofs.Veil.StrippedAgain

namespace LuaVeil

/-! ## What nothing closes -/

/-- Whether nothing in a text closes the string or comment that an opener in front of it begins. -/
def Opener.Unclosed (t : Text) : Opener → Prop
  | lineComment => False
  | blockComment level => ¬ (Delimiter.long level).closing <:+: t
  | string (.long level) => ¬ (Delimiter.long level).closing <:+: t
  /- the line ends in front of every unescaped quote -/
  | string (.quote mark) => isQuote mark = true ∧ ∀ before after, t = before ++ mark :: after →
      escapesNext before = false →
        ∃ line more, before = line ++ '\n' :: more ∧ escapesNext line = false

/-- Whether a span is a comment up to the end of its line. -/
def Span.IsLineComment (s : Span) : Prop :=
  s.isComment = true ∧ ∃ body, s.text = '-' :: '-' :: body ∧ NoLongBracket body

/-- A text is not cut exactly if the pattern does not occur in it. -/
theorem splitAfter?_eq_none_iff {p t : Text} (hp : p ≠ []) :
    Text.splitAfter? p t = none ↔ ¬ p <:+: t := by
  induction t with
  | nil => simp [Text.splitAfter?, hp]
  | cons c t ih =>
    rw [Text.splitAfter?, List.infix_cons_iff, ← List.isPrefixOf_iff_prefix]
    split
    · next hstarts => simp [hstarts]
    · next hstarts => simp [hstarts, ih]

/-- A closing bracket is not found exactly if there is none. -/
theorem longBody?_eq_none_iff (level : Nat) {t : Text} :
    longBody? level t = none ↔ ¬ (Delimiter.long level).closing <:+: t := by
  rw [longBody?_eq_splitAfter?]
  exact splitAfter?_eq_none_iff (Delimiter.closing_ne_nil level)

/-- A quote is not found exactly if the line ends in front of every unescaped one. -/
theorem quotedBody?_eq_none_iff {mark : Char} (hmark : isQuote mark = true) {t : Text} :
    quotedBody? mark t = none ↔ ∀ before after, t = before ++ mark :: after →
      escapesNext before = false →
        ∃ line more, before = line ++ '\n' :: more ∧ escapesNext line = false := by
  have hplain : mark ≠ '\\' ∧ mark ≠ '\n' := ⟨ne_of_isQuote hmark rfl, ne_of_isQuote hmark rfl⟩
  constructor
  · intro hnone before
    -- of all unescaped quotes it is enough to look at the first one
    induction hlength : before.length using Nat.strong_induction_on generalizing before with
    | _ n ih =>
      rintro after rfl hend
      by_contra hno
      refine absurd hnone ?_
      rw [quotedBody?_of_content hplain ((quotedContent_iff hmark).2 ⟨?_, hend⟩) after]
      · exact Option.some_ne_none _
      rintro front c back rfl hc
      by_contra hescapes
      rw [Bool.not_eq_true] at hescapes
      rcases hc with rfl | rfl
      · obtain ⟨line, more, rfl, hline⟩ := ih front.length (by simp at hlength; omega) front rfl
          (back ++ c :: after) (by simp) hescapes
        exact hno ⟨line, more ++ c :: back, by simp, hline⟩
      · exact hno ⟨front, back, rfl, hescapes⟩
  · intro hnever
    cases hread : quotedBody? mark t with
    | none => rfl
    | some cut =>
      obtain ⟨body, rest⟩ := cut
      obtain ⟨content, rfl, hcontent⟩ := exists_content_of_quotedBody? hread
      obtain ⟨hfirst, hend⟩ := (quotedContent_iff hmark).1 hcontent
      have ht := quotedBody?_append hread
      rw [List.append_assoc] at ht
      obtain ⟨line, more, rfl, hline⟩ := hnever content rest ht.symm hend
      rw [hfirst line '\n' more rfl (.inr rfl)] at hline
      cases hline

/-- What is found to be open is not closed exactly if nothing closes it. -/
theorem body?_eq_none_iff {o : Opener} {t : Text} (ho : opener? (o.text ++ t) = some o) :
    o.body? t = none ↔ o.Unclosed t := by
  cases o with
  | lineComment => exact ⟨fun h => (by cases h), False.elim⟩
  | blockComment level => exact longBody?_eq_none_iff level
  | string d =>
    cases d with
    | long level => exact longBody?_eq_none_iff level
    | quote mark =>
      have hmark := isQuote_of_opener? ho
      exact (quotedBody?_eq_none_iff hmark).trans ⟨fun h => ⟨hmark, h⟩, And.right⟩

/-- What nothing closes in a text is not closed in a part of it. -/
theorem Opener.Unclosed.of_prefix {o : Opener} {t u : Text} (h : o.Unclosed t) (hu : u <+: t) :
    o.Unclosed u := by
  obtain ⟨more, rfl⟩ := hu
  cases o with
  | lineComment => exact h
  | blockComment level => exact fun hin => h (hin.trans (List.prefix_append u more).isInfix)
  | string d =>
    cases d with
    | long level => exact fun hin => h (hin.trans (List.prefix_append u more).isInfix)
    | quote mark =>
      refine ⟨h.1, fun before after hu hend => h.2 before (after ++ more) ?_ hend⟩
      simp [hu]

/-- Nothing but line comments is known by what follows its opener. -/
theorem opener?_of_unclosed {o : Opener} {t : Text} (h : o.Unclosed t) (rest : Text) :
    opener? (o.text ++ rest) = some o := by
  cases o with
  | lineComment => exact h.elim
  | blockComment level => exact opener?_blockComment level rest
  | string d =>
    cases d with
    | long level => exact opener?_long level rest
    | quote mark => exact opener?_of_isQuote h.1 rest

/-! ## Scans that fail -/

/-- A scan that fails has found the spans in front of an opener that nothing closes. -/
theorem exists_unclosed_of_error {start : Nat} {t : Text} {e : ScanError}
    (h : scanFrom start t = .error e) :
    ∃ (spans : List Span) (o : Opener) (after : Text), t = render spans ++ (o.text ++ after) ∧
      e = o.unterminated (start + Text.byteSize (render spans)) ∧ o.Unclosed after ∧
      RescansBefore (o.text ++ after) spans ∧ Alternates spans ∧ ∀ s ∈ spans, s.text ≠ [] := by
  fun_induction scanFrom start t with
  | case1 => cases h
  | case2 start t code place o ho hb =>
    obtain rfl := Except.error.inj h
    obtain ⟨after, hafter⟩ := prefix_of_opener? ho
    have happ := splitCode_append t
    have hcode := staysCode_splitCode ho
    rw [← hafter] at ho hb happ hcode
    rw [List.drop_left] at hb
    refine ⟨codeSpans start code, o, after, ?_, ?_, (body?_eq_none_iff ho).1 hb,
      rescansBefore_codeSpans start hcode, ?_, fun s hs => text_of_mem_codeSpans_ne_nil hs⟩
    · rw [render_codeSpans, happ]
    · rw [render_codeSpans]
    · rw [codeSpans]
      split
      · exact List.IsChain.nil
      · exact List.IsChain.singleton _
  | case3 start t code place o ho body rest hb text stop ih =>
    cases hmore : scanFrom stop rest with
    | ok more =>
      rw [hmore] at h
      cases h
    | error e' =>
      rw [hmore] at h
      obtain rfl := Except.error.inj h
      obtain ⟨spans, o', after, hrest, he, hunclosed, hspans, halternates, hne⟩ := ih hmore
      obtain ⟨hcode, hreads⟩ := reads_of_body? ho hb place stop
      obtain ⟨hafter, -⟩ := closed_of_body? ho hb
      have hrender : render (codeSpans start code ++ ⟨o.kind, text, place, stop⟩ :: spans) =
          code ++ (text ++ render spans) := by
        rw [render_append, render_codeSpans, render_cons]
      refine ⟨codeSpans start code ++ ⟨o.kind, text, place, stop⟩ :: spans, o', after, ?_, ?_,
        hunclosed, rescansBefore_append.2 ⟨rescansBefore_codeSpans start ?_, ?_, hspans⟩,
        alternates_codeSpans start code (isCode_kind _ _ _ _) halternates,
        List.forall_mem_append.2 ⟨fun s hs => text_of_mem_codeSpans_ne_nil hs,
          List.forall_mem_cons.2 ⟨o.text_append_ne_nil body, hne⟩⟩⟩
      · rw [hrender, List.append_assoc, List.append_assoc, ← hrest, ← hafter, splitCode_append]
      · rw [he, hrender, Text.byteSize_append, Text.byteSize_append, ← Nat.add_assoc,
          ← Nat.add_assoc]
      · rw [render_cons, List.append_assoc, ← hrest]
        exact hcode
      · rwa [← hrest]

/-- Code in front of a text delays the error of its scan only. -/
theorem scanFrom_error_of_staysCode {start : Nat} {code t : Text} {e : ScanError}
    (hcode : StaysCode code t) (h : scanFrom (start + Text.byteSize code) t = .error e) :
    scanFrom start (code ++ t) = .error e := by
  rw [scanFrom_eq] at h ⊢
  rw [show splitCode (code ++ t) = _ from hcode]
  cases ho : opener? (splitCode t).2 with
  | none =>
    rw [ho] at h
    cases h
  | some o =>
    simp only [ho, Text.byteSize_append code, ← Nat.add_assoc] at h ⊢
    cases hb : o.body? ((splitCode t).2.drop o.text.length) with
    | none =>
      simp only [hb] at h ⊢
      exact h
    | some cut =>
      obtain ⟨body, rest⟩ := cut
      simp only [hb] at h ⊢
      cases hmore : scanFrom (start + Text.byteSize code + Text.byteSize (splitCode t).1 +
          Text.byteSize (o.text ++ body)) rest with
      | ok more =>
        rw [hmore] at h
        cases h
      | error e' =>
        rw [hmore] at h
        exact h

/-- Where spans are found in front of an opener that nothing closes, a scan fails. -/
theorem scanFrom_of_unclosed {start : Nat} {spans : List Span} {o : Opener} {after : Text}
    (h : RescansBefore (o.text ++ after) spans) (hunclosed : o.Unclosed after) :
    scanFrom start (render spans ++ (o.text ++ after)) =
      .error (o.unterminated (start + Text.byteSize (render spans))) := by
  induction spans generalizing start with
  | nil =>
    have ho := opener?_of_unclosed hunclosed after
    have hb := (body?_eq_none_iff ho).2 hunclosed
    have hbody : o.body? ((o.text ++ after).drop o.text.length) = none := by rwa [List.drop_left]
    exact scanFrom_opener_error ho hbody
  | cons s spans ih =>
    obtain ⟨hs, hspans⟩ := h
    have hmore := @ih (start + Text.byteSize s.text) hspans
    rw [render_cons, Text.byteSize_append, ← Nat.add_assoc, List.append_assoc]
    rw [Span.Reads] at hs
    split at hs
    · exact scanFrom_error_of_staysCode hs hmore
    · obtain ⟨o', body, ho, htext, hb⟩ := hs.1.exists_body
      rw [htext] at hmore ho ⊢
      rw [List.append_assoc] at ho ⊢
      rw [scanFrom_eq]
      simp only [splitCode_of_opener ho, ho, List.drop_left, hb, Text.byteSize_nil, Nat.add_zero,
        hmore]
      rfl

/-- In front of an opener no line ends. -/
theorem not_isLineEnd_of_opener {o : Opener} {t : Text} (h : opener? (o.text ++ t) = some o) :
    ¬ IsLineEnd (o.text ++ t) := by
  rintro (hnil | ⟨more, hmore⟩)
  · exact absurd hnil (o.text_append_ne_nil t)
  · rw [← hmore] at h
    have hfeed : opener? (['\n'] ++ more) = none := opener?_of_beginsNothing (by decide) more
    rw [hfeed] at h
    cases h

/-- The last one of some spans is found in front of what follows them. -/
theorem RescansBefore.reads_getLast? {rest : Text} {spans : List Span} {s : Span}
    (h : RescansBefore rest spans) (hs : spans.getLast? = some s) : s.Reads rest := by
  obtain ⟨front, rfl⟩ := List.getLast?_eq_some_iff.1 hs
  exact (rescansBefore_append.1 h).2.1

theorem Span.IsLineComment.congr {s s' : Span} (h : s.IsLineComment) (hshape : s'.shape = s.shape) :
    s'.IsLineComment := by
  obtain ⟨hkind, htext⟩ := Prod.mk.inj hshape
  rwa [IsLineComment, isComment, hkind, htext]

/-- A line comment is found at the end of a line only. -/
theorem Span.IsLineComment.isLineEnd {s : Span} {rest : Text} (h : s.IsLineComment)
    (hreads : s.Reads rest) : IsLineEnd rest := by
  obtain ⟨hcomment, body, htext, hlong⟩ := h
  have hcode : s.isCode ≠ true := by
    intro hcode
    rw [Span.isComment, Strip.kind_of_isCode hcode] at hcomment
    cases hcomment
  rw [Span.Reads, if_neg hcode] at hreads
  have hclosed := hreads.1
  generalize s.text = text at htext hclosed
  cases hclosed with
  | @quote mark _ _ hmark =>
    obtain rfl := (List.cons.inj htext).1
    exact absurd hmark (by decide)
  | long => exact absurd (List.cons.inj htext).1 (by decide)
  | @blockComment level content _ _ =>
    obtain ⟨-, htext⟩ := List.cons.inj htext
    obtain ⟨-, rfl⟩ := List.cons.inj htext
    rw [Delimiter.enclose, List.append_assoc] at hlong
    exact absurd (List.prefix_append _ _) (hlong level)
  | lineComment _ _ hrest => exact hrest

/--
A scan that fails tells of an opener that nothing closes, and where it begins. What stands in front
of it is scanned, and no line comment is at its end. A text that is cut off anywhere behind the
opener fails with the same error.
-/
theorem scan_error {source : Text} {e : ScanError} (h : scan source = .error e) :
    ∃ (before : Text) (o : Opener) (after : Text), source = before ++ (o.text ++ after) ∧
      e = o.unterminated (Text.byteSize before) ∧ o.Unclosed after ∧
      (∃ spans, scan before = .ok spans ∧ ∀ s, spans.getLast? = some s → ¬ s.IsLineComment) ∧
      ∀ part, before ++ o.text <+: part → part <+: source → scan part = .error e := by
  obtain ⟨spans, o, after, rfl, rfl, hunclosed, hspans, halternates, hne⟩ :=
    exists_unclosed_of_error h
  rw [Nat.zero_add] at h ⊢
  have ho := opener?_of_unclosed hunclosed after
  have hcut : ∀ rest, rest <+: o.text ++ after → RescansBefore rest spans := by
    rintro rest ⟨more, hmore⟩
    refine hspans.follow (fun s hs => hne s (List.mem_of_mem_tail hs)) (fun u _ hopens => ?_)
      fun _ _ _ hend => absurd hend (not_isLineEnd_of_opener ho)
    rw [← hmore, ← List.append_assoc]
    exact hopens.append more
  refine ⟨render spans, o, after, rfl, rfl, hunclosed, ?_, ?_⟩
  · obtain ⟨found, hscan, hshape⟩ :=
      scan_of_rescans ((rescansBefore_nil spans).1 (hcut [] List.nil_prefix)) hne
    rw [Strip.joinCode_of_alternates halternates] at hshape
    refine ⟨found, hscan, fun s hs hline => ?_⟩
    obtain ⟨s', hs', hsame⟩ : ∃ s', spans.getLast? = some s' ∧ s'.shape = s.shape := by
      have hlast := congrArg List.getLast? hshape
      rw [List.getLast?_map, List.getLast?_map, hs] at hlast
      obtain ⟨s', hs', hsame⟩ := Option.map_eq_some_iff.1 hlast.symm
      exact ⟨s', hs', hsame⟩
    exact not_isLineEnd_of_opener ho
      (Span.IsLineComment.isLineEnd (hline.congr hsame) (hspans.reads_getLast? hs'))
  · rintro part ⟨rest, rfl⟩ hpart
    rw [List.append_assoc] at hpart ⊢
    rw [List.prefix_append_right_inj] at hpart
    obtain ⟨more, hmore⟩ := (List.prefix_append_right_inj o.text).1 hpart
    have herror := @scanFrom_of_unclosed 0 _ _ _ (hcut _ hpart)
      (hunclosed.of_prefix ⟨more, hmore⟩)
    rwa [Nat.zero_add] at herror

/-- Behind a comment a long string that nothing closes, as the brackets are not of one level. -/
theorem level_mismatch_unclosed :
    scan "--c\ns = [==[ ]=]".toList = .error (.unterminatedString 8) ∧
      ∃ (before : Text) (o : Opener),
        o.unterminated (Text.byteSize before) = .unterminatedString 8 ∧
        before ++ o.text <+: "--c\ns = [==[ ]=]".toList ∧
        ∀ part, before ++ o.text <+: part → part <+: "--c\ns = [==[ ]=]".toList →
          scan part = .error (.unterminatedString 8) := by
  have hscan : scan "--c\ns = [==[ ]=]".toList = .error (.unterminatedString 8) := by decide +kernel
  obtain ⟨before, o, after, hsource, he, -, -, hparts⟩ := scan_error hscan
  refine ⟨hscan, before, o, he.symm, ⟨after, ?_⟩, hparts⟩
  rw [hsource, List.append_assoc]

end LuaVeil
