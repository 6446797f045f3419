/-
# Spans that are found again

Spans that are put together need not be the spans of their text: code can run into
what follows it, and open something there. What a span needs is said here about the
span and the text behind it, and where all spans have it a scan finds them again.

Main statements:

* `staysCode_iff`, code stays code if nothing opens in it, with what follows in view;
* `rescans_of_scan`, the spans of a script are such spans;
* `scan_of_rescans`, a scan finds such spans again, with neighbouring code joined.
-/
import LuaVeil.Proofs.Lua.Closers
import LuaVeil.Proofs.Veil.Fusion

namespace LuaVeil

/-! ## Openers across a seam -/

theorem opener?_eq_none_iff {t : Text} : opener? t = none ↔ ¬ Opens t := by
  rw [← opener?_isSome_iff, Option.not_isSome_iff_eq_none]

theorem Opens.append {t : Text} (h : Opens t) (rest : Text) : Opens (t ++ rest) := by
  rcases h with h | ⟨mark, hmark, h⟩ | ⟨level, h⟩
  · exact .inl (h.trans (List.prefix_append _ _))
  · exact .inr (.inl ⟨mark, hmark, h.trans (List.prefix_append _ _)⟩)
  · exact .inr (.inr ⟨level, h.trans (List.prefix_append _ _)⟩)

/-- An opener that does not end in a text goes on behind it. -/
theorem Opens.cases_append {u rest : Text} (hu : u ≠ []) (h : Opens (u ++ rest)) :
    Opens u ∨ (u = ['-'] ∧ rest.head? = some '-') ∨
      ∃ level more, (Delimiter.long level).opening = u ++ more ∧ more ≠ [] ∧ more <+: rest := by
  obtain ⟨c, v, rfl⟩ := List.exists_cons_of_ne_nil hu
  rcases h with h | ⟨mark, hmark, h⟩ | ⟨level, h⟩
  · obtain ⟨rfl, hnext⟩ := List.cons_prefix_cons.1 h
    cases v with
    | nil =>
      refine .inr (.inl ⟨rfl, ?_⟩)
      obtain ⟨more, rfl⟩ : ['-'] <+: rest := hnext
      rfl
    | cons d v =>
      obtain ⟨rfl, -⟩ := List.cons_prefix_cons.1 hnext
      exact .inl (.inl ⟨v, rfl⟩)
  · obtain ⟨rfl, -⟩ := List.cons_prefix_cons.1 h
    exact .inl (.inr (.inl ⟨mark, hmark, v, rfl⟩))
  · rcases Nat.le_total (Delimiter.long level).opening.length (c :: v).length with hle | hle
    · exact .inl (.inr (.inr ⟨level,
        List.prefix_of_prefix_length_le h (List.prefix_append _ _) hle⟩))
    · obtain ⟨more, hmore⟩ := List.prefix_of_prefix_length_le (List.prefix_append _ _) h hle
      by_cases hnil : more = []
      · rw [hnil, List.append_nil] at hmore
        exact .inl (.inr (.inr ⟨level, hmore ▸ List.prefix_rfl⟩))
      · rw [← hmore, List.prefix_append_right_inj] at h
        exact .inr (.inr ⟨level, more, hmore.symm, hnil, h⟩)

/-- Nothing opens across a character that stands in no opener. -/
theorem Opens.of_append {u rest : Text} (hu : u ≠ [])
    (hrest : ∀ c, rest.head? = some c → c ≠ '-' ∧ c ≠ '=' ∧ c ≠ '[') (h : Opens (u ++ rest)) :
    Opens u := by
  rcases h.cases_append hu with h | ⟨-, hhead⟩ | ⟨level, more, hlevel, hne, hprefix⟩
  · exact h
  · exact absurd rfl (hrest _ hhead).1
  · obtain ⟨c, more, rfl⟩ := List.exists_cons_of_ne_nil hne
    obtain ⟨-, hequals, hbracket⟩ := hrest c (head?_of_isPrefix hprefix rfl)
    have hmem : c ∈ (Delimiter.long level).opening := by simp [hlevel]
    simp [Delimiter.opening, hequals, hbracket] at hmem

/-- Whether something opens across a character other than an equals sign is decided by then. -/
theorem Opens.of_append_cons {u rest : Text} {c : Char} (hu : u ≠ []) (hc : c ≠ '=')
    (h : Opens (u ++ c :: rest)) : Opens (u ++ [c]) := by
  rw [List.append_cons] at h
  have hlonger : u ++ [c] ≠ [] := by simp
  rcases h.cases_append hlonger with h | ⟨hdash, -⟩ | ⟨level, more, hlevel, hne, -⟩
  · exact h
  · have hlength := congrArg List.length hdash
    have hpos := List.length_pos_iff.2 hu
    simp only [List.length_append, List.length_singleton] at hlength
    omega
  · -- only equals signs stand between the brackets of an opener
    exfalso
    obtain ⟨a, v, rfl⟩ := List.exists_cons_of_ne_nil hu
    have hinner : List.replicate level '=' ++ ['['] = v ++ [c] ++ more :=
      (List.cons.inj hlevel).2
    have hequals := congrArg List.dropLast hinner
    rw [List.dropLast_concat, List.dropLast_append_of_ne_nil hne] at hequals
    have hmem : c ∈ List.replicate level '=' := by simp [hequals]
    exact hc (List.eq_of_mem_replicate hmem)

/-! ## Code that stays code -/

instance (code rest : Text) : Decidable (StaysCode code rest) :=
  inferInstanceAs (Decidable (_ = _))

theorem staysCode_cons_iff {c : Char} {code rest : Text} :
    StaysCode (c :: code) rest ↔ ¬ Opens (c :: code ++ rest) ∧ StaysCode code rest := by
  rw [← opener?_eq_none_iff]
  refine ⟨fun h => ?_, fun ⟨hc, h⟩ => h.cons hc⟩
  rw [StaysCode, List.cons_append, splitCode] at h
  by_cases hc : (opener? (c :: (code ++ rest))).isSome = true
  · rw [if_pos hc] at h
    cases (Prod.mk.inj h).1
  · rw [if_neg hc] at h
    obtain ⟨hcode, hlater⟩ := Prod.mk.inj h
    exact ⟨by simpa using hc, Prod.ext (List.cons.inj hcode).2 hlater⟩

/-- Code stays code if nothing opens in it, with what follows in view. -/
theorem staysCode_iff {code rest : Text} :
    StaysCode code rest ↔ ∀ u, u <:+ code → u ≠ [] → ¬ Opens (u ++ rest) := by
  induction code with
  | nil =>
    exact ⟨fun _ u hu hne => absurd (List.suffix_nil.1 hu) hne, fun _ => StaysCode.nil rest⟩
  | cons c code ih =>
    rw [staysCode_cons_iff, ih]
    constructor
    · rintro ⟨hfirst, hlater⟩ u hu hne
      rcases List.suffix_cons_iff.1 hu with rfl | hu
      · exact hfirst
      · exact hlater u hu hne
    · intro h
      exact ⟨h _ List.suffix_rfl (List.cons_ne_nil _ _),
        fun u hu => h u (hu.trans (List.suffix_cons c code))⟩

namespace StaysCode

variable {code a b rest rest' : Text}

theorem left (h : StaysCode (a ++ b) rest) : StaysCode a (b ++ rest) := by
  rw [staysCode_iff] at h ⊢
  intro u hu hne hopens
  refine h (u ++ b) ?_ (by simp [hne]) (by rwa [List.append_assoc])
  obtain ⟨front, rfl⟩ := hu
  exact ⟨front, (List.append_assoc _ _ _).symm⟩

theorem right (h : StaysCode (a ++ b) rest) : StaysCode b rest := by
  rw [staysCode_iff] at h ⊢
  exact fun u hu => h u (hu.trans (List.suffix_append a b))

theorem of_prefix (h : StaysCode code rest) (hfront : rest' <+: rest) : StaysCode code rest' := by
  obtain ⟨more, rfl⟩ := hfront
  rw [staysCode_iff] at h ⊢
  intro u hu hne hopens
  refine h u hu hne ?_
  rw [← List.append_assoc]
  exact hopens.append more

/-- A text that begins with no part of an opener can follow any code. -/
theorem before (h : StaysCode code [])
    (hrest : ∀ c, rest.head? = some c → c ≠ '-' ∧ c ≠ '=' ∧ c ≠ '[') : StaysCode code rest := by
  rw [staysCode_iff] at h ⊢
  intro u hu hne hopens
  refine h u hu hne ?_
  rw [List.append_nil]
  exact hopens.of_append hne hrest

/-- Only the next character matters for code, if it is no equals sign. -/
theorem next {c : Char} (h : StaysCode code (c :: rest)) (hc : c ≠ '=') (rest' : Text) :
    StaysCode code (c :: rest') := by
  rw [staysCode_iff] at h ⊢
  intro u hu hne hopens
  refine h u hu hne ?_
  rw [List.append_cons]
  exact (hopens.of_append_cons hne hc).append rest

end StaysCode

theorem plain_of_isBlank {c : Char} (h : Text.isBlank c = true) : c ≠ '-' ∧ c ≠ '=' ∧ c ≠ '[' := by
  refine ⟨?_, ?_, ?_⟩ <;> rintro rfl <;> exact absurd h (by decide)

/-! ## Spans in front of a text -/

/-- Kind and text of a span. -/
def Span.shape (s : Span) : SpanKind × Text :=
  (s.kind, s.text)

/-- Whether a span is found again in front of a text. -/
def Span.Reads (s : Span) (rest : Text) : Prop :=
  if s.isCode then StaysCode s.text rest
  else Closed s.text rest ∧ (s.isComment = true ↔ BeginsComment s.text)

/-- Whether all spans are found again in front of those that follow. -/
def Rescans : List Span → Prop
  | [] => True
  | s :: spans => s.Reads (render spans) ∧ Rescans spans

theorem rescans_codeSpans {code : Text} (start : Nat) {spans : List Span}
    (hcode : StaysCode code (render spans)) (h : Rescans spans) :
    Rescans (codeSpans start code ++ spans) := by
  cases code with
  | nil => exact h
  | cons c code => exact ⟨hcode, h⟩

/-- Code stays code in front of the opener that ends it. -/
theorem staysCode_splitCode {t : Text} {o : Opener} (ho : opener? (splitCode t).2 = some o) :
    StaysCode (splitCode t).1 (splitCode t).2 := by
  rw [StaysCode, splitCode_append, splitCode_of_opener ho, List.append_nil]

/-- Where a scan cuts a span off, code and span are found in front of what follows them. -/
theorem reads_of_body? {t body rest : Text} {o : Opener} (ho : opener? (splitCode t).2 = some o)
    (hb : o.body? ((splitCode t).2.drop o.text.length) = some (body, rest)) (start stop : Nat) :
    StaysCode (splitCode t).1 (o.text ++ body ++ rest) ∧
      Span.Reads ⟨o.kind, o.text ++ body, start, stop⟩ rest := by
  obtain ⟨hafter, hclosed⟩ := closed_of_body? ho hb
  constructor
  · exact hafter ▸ staysCode_splitCode ho
  · rw [Span.Reads, if_neg (by simp [isCode_kind])]
    refine ⟨hclosed, ?_⟩
    rw [← hclosed.beginsComment_append, ← hafter, ← kind_eq_comment_iff ho]
    simp [Span.isComment]

/-- The spans of a script are found again. -/
theorem rescans_of_scan {source : Text} {spans : List Span} (h : scan source = .ok spans) :
    Rescans spans := by
  have hfrom : ∀ {start : Nat} {t : Text} {spans : List Span}, scanFrom start t = .ok spans →
      Rescans spans := by
    intro start t spans h
    fun_induction scanFrom start t generalizing spans with
    | case1 start t code =>
      rename_i ho
      obtain rfl := Except.ok.inj h
      have hcode : StaysCode code [] := by
        have hnil := opener?_splitCode ho
        have happ := splitCode_append t
        rw [hnil, List.append_nil] at happ
        show splitCode (code ++ []) = (code ++ [], [])
        rw [List.append_nil, show code = t from happ]
        exact Prod.ext happ hnil
      rw [← List.append_nil (codeSpans start code)]
      exact rescans_codeSpans start hcode trivial
    | case2 => cases h
    | case3 start t code place o ho body rest hb text stop =>
      rename_i ih
      cases hmore : scanFrom stop rest with
      | error e =>
        rw [hmore] at h
        cases h
      | ok more =>
        rw [hmore] at h
        obtain rfl := Except.ok.inj h
        obtain ⟨hcode, hreads⟩ := reads_of_body? ho hb place stop
        have hrest : render more = rest := render_scanFrom hmore
        refine rescans_codeSpans start ?_ ⟨?_, ih hmore⟩
        · rw [render_cons, hrest]
          exact hcode
        · rw [hrest]
          exact hreads
  exact hfrom h

/-! ## Scanning again -/

theorem shape_consMerged {s : Span} {spans : List Span} {code : Text}
    {later : List (SpanKind × Text)} (hs : s.isCode = true) (hne : s.text ≠ [])
    (hlater : ∀ first, later.head? = some first → first.1 ≠ .code)
    (h : spans.map Span.shape = (codeSpans 0 code).map Span.shape ++ later) :
    (Strip.consMerged s spans).map Span.shape =
      (codeSpans 0 (s.text ++ code)).map Span.shape ++ later := by
  have hkind : s.kind = .code := Strip.kind_of_isCode hs
  have hwhole : ∀ code, (codeSpans 0 (s.text ++ code)).map Span.shape =
      [(.code, s.text ++ code)] := by
    intro code
    rw [codeSpans, if_neg (by simp [hne])]
    rfl
  rw [hwhole]
  cases code with
  | nil =>
    rw [List.append_nil]
    cases spans with
    | nil =>
      obtain rfl : [] = later := h
      simp [Strip.consMerged, Span.shape, hkind]
    | cons next spans =>
      obtain rfl : (next :: spans).map Span.shape = later := h
      have hnext : next.isCode = false := by
        have hfirst := hlater next.shape rfl
        simpa [Span.isCode, Span.shape] using hfirst
      simp [Strip.consMerged, hnext, Span.shape, hkind]
  | cons c code =>
    cases spans with
    | nil => cases h
    | cons next spans =>
      obtain ⟨hnext, hmore⟩ := List.cons.inj h
      obtain ⟨hcode, htext⟩ := Prod.mk.inj hnext
      have hboth : (s.isCode && next.isCode) = true := by rw [hs, Span.isCode, hcode]; rfl
      rw [Strip.consMerged, if_pos hboth, List.map_cons, hmore]
      simp [Span.shape, hkind, htext]

/-- The opener of a span that is found again tells the kind of the span. -/
theorem exists_opener_of_reads {s : Span} {rest : Text} (hcode : s.isCode ≠ true)
    (h : s.Reads rest) :
    ∃ o body, opener? (s.text ++ rest) = some o ∧ s.text = o.text ++ body ∧
      o.body? (body ++ rest) = some (body, rest) ∧ o.kind = s.kind := by
  rw [Span.Reads, if_neg hcode] at h
  obtain ⟨hclosed, hkind⟩ := h
  obtain ⟨o, body, ho, htext, hb⟩ := hclosed.exists_body
  have hcomment : o.kind = .comment ↔ s.kind = .comment := by
    rw [kind_eq_comment_iff ho, hclosed.beginsComment_append, ← hkind]
    simp [Span.isComment]
  have hocode : o.kind ≠ .code := by cases o <;> simp [Opener.kind]
  have hscode : s.kind ≠ .code := by simpa [Span.isCode] using hcode
  refine ⟨o, body, ho, htext, hb, ?_⟩
  cases hok : o.kind <;> cases hsk : s.kind <;> simp_all

/-- The shape of code does not depend on its place. -/
theorem shape_codeSpans (start : Nat) (t : Text) :
    (codeSpans start t).map Span.shape = (codeSpans 0 t).map Span.shape := by
  unfold codeSpans
  split <;> rfl

/-- The code in front of the first opener of spans, and what is found from there on. -/
theorem exists_later_of_rescans {spans : List Span} (h : Rescans spans)
    (hne : ∀ s ∈ spans, s.text ≠ []) :
    ∃ later : List (SpanKind × Text),
      (∀ first, later.head? = some first → first.1 ≠ .code) ∧
      (joinCode spans).map Span.shape =
        (codeSpans 0 (splitCode (render spans)).1).map Span.shape ++ later ∧
      ∀ start, ∃ found, scanFrom start (splitCode (render spans)).2 = .ok found ∧
        found.map Span.shape = later := by
  induction spans with
  | nil =>
    refine ⟨[], by simp, rfl, fun start => ⟨[], ?_, rfl⟩⟩
    rw [scanFrom_eq]
    rfl
  | cons s spans ih =>
    obtain ⟨hs, hspans⟩ := List.forall_mem_cons.1 hne
    obtain ⟨hreads, hrescans⟩ := h
    obtain ⟨later, hhead, hjoin, hscan⟩ := ih hrescans hspans
    by_cases hcode : s.isCode = true
    · rw [Span.Reads, if_pos hcode] at hreads
      rw [render_cons, hreads]
      exact ⟨later, hhead, shape_consMerged hcode hs hhead hjoin, hscan⟩
    · obtain ⟨o, body, ho, htext, hb, hkind⟩ := exists_opener_of_reads hcode hreads
      have hdrop : o.body? ((s.text ++ render spans).drop o.text.length) =
          some (body, render spans) := by
        rw [htext, List.append_assoc, List.drop_left, hb]
      rw [render_cons, splitCode_of_opener ho]
      refine ⟨s.shape :: (joinCode spans).map Span.shape, fun first hfirst => ?_, ?_,
        fun start => ?_⟩
      · obtain rfl := Option.some.inj hfirst
        simpa [Span.isCode, Span.shape] using hcode
      · show (Strip.consMerged s (joinCode spans)).map Span.shape = _
        cases joinCode spans with
        | nil => rfl
        | cons next more => simp [Strip.consMerged, hcode, codeSpans]
      · obtain ⟨found, hfound, hshape⟩ := hscan (start + Text.byteSize (o.text ++ body) +
          Text.byteSize (splitCode (render spans)).1)
        refine ⟨_, scanFrom_opener ho hdrop (scanFrom_of_splitCode hfound), ?_⟩
        rw [List.map_cons, List.map_append, shape_codeSpans, hshape, ← hjoin]
        simp [Span.shape, hkind, htext]

/-- A scan finds spans again, with neighbouring code joined. -/
theorem scan_of_rescans {spans : List Span} (h : Rescans spans) (hne : ∀ s ∈ spans, s.text ≠ []) :
    ∃ found, scan (render spans) = .ok found ∧
      found.map Span.shape = (joinCode spans).map Span.shape := by
  obtain ⟨later, -, hjoin, hscan⟩ := exists_later_of_rescans h hne
  obtain ⟨found, hfound, hshape⟩ := hscan (0 + Text.byteSize (splitCode (render spans)).1)
  refine ⟨_, scanFrom_of_splitCode hfound, ?_⟩
  rw [List.map_append, hshape, hjoin]

end LuaVeil
