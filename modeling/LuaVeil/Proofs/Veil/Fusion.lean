/-
# Tokens around extracted strings

A literal is delimited by itself, but the reference that takes its place begins
with a name. The items of a span are its tokens without trivia; a string or a
comment is one item. After extraction neighbouring spans of code can be read
together, and their items should be the same as those of each.

Main statements:

* `items_joinCode_extractStrings_iff`, they are the same exactly if no literal
  follows a keyword or a number without a blank;
* `keyword_fused`, a keyword that is lost in this way.
-/
import LuaVeil.Proofs.Lua.Seams
import LuaVeil.Proofs.Names.FreshName
import LuaVeil.Proofs.Veil.Stripping
import LuaVeil.Veil.StringTable

namespace LuaVeil

/-! ## Items -/

/-- The tokens of a span that are not trivia, by kind and text. What is not code is one item. -/
def Span.items (s : Span) : List (Option TokenKind × Text) :=
  if s.isCode then (solidLabels s.text).map fun l => (some l.1, l.2) else [(none, s.text)]

/-- Spans with neighbouring code joined. -/
def joinCode (spans : List Span) : List Span :=
  spans.foldr Strip.consMerged []

/-- Whether two spans are not both code, or are parted. -/
def IsClear (a b : Span) : Prop :=
  a.isCode = true → b.isCode = true → Parted a.text b.text

/-- Whether a span of code is a reference to a table right after a word or a number. -/
def IsFused (table : Name) (a b : Span) : Prop :=
  a.isCode = true ∧ b.isCode = true ∧ endsOpenly a.text = true ∧
    ∃ index, b.text = StringTable.reference table index false

section Joining

variable {table : Name}

theorem exists_joinCode_cons (s : Span) (spans : List Span) :
    ∃ first more, joinCode (s :: spans) = first :: more ∧ first.isCode = s.isCode ∧
      s.text <+: first.text :=
  Strip.exists_consMerged_cons s (joinCode spans)

theorem Parted.extend {a b c : Text} (h : Parted a b) (hp : b <+: c) :
    Parted a c := by
  obtain ⟨rest, rfl⟩ := hp
  refine h.imp_right fun ⟨d, hd, hopen⟩ => ⟨d, ?_, hopen⟩
  rw [List.head?_append, hd, Option.some_or]

/-- Joining spans that are clear of each other keeps their items. -/
theorem items_consMerged {s next : Span} {more : List Span} (h : IsClear s next) :
    (Strip.consMerged s (next :: more)).flatMap Span.items =
      s.items ++ (next :: more).flatMap Span.items := by
  rw [Strip.consMerged]
  by_cases hcode : (s.isCode && next.isCode) = true
  · rw [if_pos hcode]
    obtain ⟨hs, hnext⟩ := Bool.and_eq_true_iff.1 hcode
    have hjoined : ∀ stop, Span.items { s with text := s.text ++ next.text, stop := stop } =
        s.items ++ next.items := by
      intro stop
      have hs' : Span.isCode { s with text := s.text ++ next.text, stop := stop } = true := hs
      rw [Span.items, Span.items, Span.items, if_pos hs', if_pos hs, if_pos hnext,
        solidLabels_append_of_parted (h hs hnext), List.map_append]
    rw [List.flatMap_cons, List.flatMap_cons, hjoined, List.append_assoc]
  · rw [if_neg hcode, List.flatMap_cons]

/-- Joining a reference to the word or number before it loses one item. -/
theorem length_items_consMerged {s next : Span} {more : List Span} {index : Nat}
    (htable : Minting.IsLettered table) (hs : s.isCode = true) (hnext : next.isCode = true)
    (hopen : endsOpenly s.text = true)
    (hreference : StringTable.reference table index false <+: next.text) :
    ((Strip.consMerged s (next :: more)).flatMap Span.items).length + 1 =
      s.items.length + ((next :: more).flatMap Span.items).length := by
  obtain ⟨word, rfl, hword⟩ := htable
  obtain ⟨rest, hrest⟩ := hreference
  have hw : ∀ c ∈ word, isWordChar c = true := by
    have hall : Minting.letters.all isWordChar = true := by decide
    exact fun c hc => List.all_eq_true.1 hall c (hword c hc)
  have htext : ∃ b, next.text = '_' :: (word ++ '[' :: b) :=
    ⟨Number.decimal index ++ [']'] ++ rest, by simp [← hrest, StringTable.reference]⟩
  obtain ⟨b, hb⟩ := htext
  have hlength := length_solidLabels_append_of_fused (b := b) hopen hw
  rw [Strip.consMerged, if_pos (by rw [hs, hnext]; rfl)]
  have hs' : ∀ text stop, Span.isCode { s with text := text, stop := stop } = true := fun _ _ => hs
  simp only [List.flatMap_cons, List.length_append, Span.items, if_pos (hs' _ _), if_pos hnext,
    List.length_map, hb]
  omega

/--
Joining spans whose neighbours are clear of each other or fused keeps all items if none are
fused, and loses some otherwise.
-/
theorem items_joinCode_iff (htable : Minting.IsLettered table) {spans : List Span}
    (h : spans.IsChain fun a b => IsClear a b ∨ IsFused table a b) :
    (joinCode spans).flatMap Span.items = spans.flatMap Span.items ↔ spans.IsChain IsClear := by
  have key : (spans.IsChain IsClear →
        (joinCode spans).flatMap Span.items = spans.flatMap Span.items) ∧
      ((joinCode spans).flatMap Span.items).length ≤ (spans.flatMap Span.items).length ∧
      (¬ spans.IsChain IsClear →
        ((joinCode spans).flatMap Span.items).length < (spans.flatMap Span.items).length) := by
    induction spans with
    | nil => exact ⟨fun _ => rfl, le_rfl, fun hn => absurd List.IsChain.nil hn⟩
    | cons s spans ih =>
      cases spans with
      | nil => exact ⟨fun _ => rfl, le_rfl, fun hn => absurd (List.IsChain.singleton s) hn⟩
      | cons n spans =>
        obtain ⟨hrel, hrest⟩ := List.isChain_cons_cons.1 h
        obtain ⟨ihclear, ihle, ihfused⟩ := ih hrest
        obtain ⟨first, more, hfirst, hkind, hprefix⟩ := exists_joinCode_cons n spans
        have hjoin : joinCode (s :: n :: spans) = Strip.consMerged s (first :: more) := by
          rw [← hfirst]
          rfl
        rw [hjoin, List.flatMap_cons, List.isChain_cons_cons]
        rw [hfirst] at ihclear ihle ihfused
        by_cases hclear : IsClear s n
        · have hfirst : IsClear s first := fun hs hf => (hclear hs (hkind ▸ hf)).extend hprefix
          simp only [items_consMerged hfirst, List.length_append, hclear, true_and]
          exact ⟨fun hall => by rw [ihclear hall], by omega, fun hn => by have := ihfused hn; omega⟩
        · obtain ⟨hs, hn, hopen, index, hindex⟩ := hrel.resolve_left hclear
          have hlength : ((Strip.consMerged s (first :: more)).flatMap Span.items).length + 1 =
              s.items.length + ((first :: more).flatMap Span.items).length :=
            length_items_consMerged htable hs (hkind.trans hn) hopen (hindex ▸ hprefix)
          rw [List.length_append]
          exact ⟨fun hall => absurd hall.1 hclear, by omega, fun _ => by omega⟩
  obtain ⟨hclear, -, hfused⟩ := key
  refine ⟨fun heq => ?_, hclear⟩
  by_contra hn
  have hlt := hfused hn
  rw [heq] at hlt
  exact lt_irrefl _ hlt

end Joining

/-! ## Gaps -/

/-- Trivia holds nothing but blanks. -/
theorem isAsciiBlank_of_isTrivia {offset : Nat} {code : Text} {t : Token} {c : Char}
    (ht : t ∈ tokenizeFrom offset code) (htrivia : t.isTrivia = true) (hc : c ∈ t.text) :
    Text.isAsciiBlank c = true := by
  fun_induction tokenizeFrom offset code with
  | case1 => exact absurd ht List.not_mem_nil
  | case2 offset d u first text ih =>
    rcases List.mem_cons.1 ht with rfl | ht
    · have hread : first.kind.Reads d u first.tail first.rest := lexeme_eq_iff.1 rfl
      cases hkind : first.kind with
      | blank =>
        rw [hkind] at hread
        obtain ⟨-, hd, htail, -⟩ := hread
        rcases List.mem_cons.1 hc with rfl | hc
        · simp [Text.isAsciiBlank, hd]
        · rw [← htail] at hc
          simp [Text.isAsciiBlank, List.mem_takeWhile_imp hc]
      | newline =>
        rw [hkind] at hread
        obtain ⟨rfl, htail, -⟩ := hread
        obtain rfl : c = '\n' := by simpa [text, ← htail] using hc
        decide
      | word => simp [Token.isTrivia, hkind] at htrivia
      | number => simp [Token.isTrivia, hkind] at htrivia
      | symbol => simp [Token.isTrivia, hkind] at htrivia
    · exact ih ht

/-- Code is what comes before its gap and the gap, and the gap is blank. -/
theorem splitGap_spec (code : Text) :
    (splitGap code).1 ++ (splitGap code).2 = code ∧
      ∀ c ∈ (splitGap code).2, Text.isAsciiBlank c = true := by
  have hsplit : tokenize code = (reverseTokens code).reverse ++
      ((tokenize code).reverse.takeWhile Token.isTrivia).reverse := by
    rw [reverseTokens, ← List.reverse_append, List.takeWhile_append_dropWhile, List.reverse_reverse]
  have htext := flatMap_text_tokenize code
  rw [hsplit, List.flatMap_append] at htext
  have hgap : (splitGap code).2 =
      ((tokenize code).reverse.takeWhile Token.isTrivia).reverse.flatMap Token.text := by
    have hdrop : ∀ x y : Text, x ++ y = code → code.drop x.length = y := by
      rintro x y rfl
      exact List.drop_left
    exact hdrop _ _ htext
  refine ⟨by rw [hgap]; exact htext, fun c hc => ?_⟩
  rw [hgap] at hc
  obtain ⟨t, ht, hc⟩ := List.mem_flatMap.1 hc
  rw [List.mem_reverse] at ht
  have hmem : t ∈ tokenize code := List.mem_reverse.1 ((List.takeWhile_prefix _).subset ht)
  exact isAsciiBlank_of_isTrivia hmem (List.mem_takeWhile_imp ht) hc

/-- Code that does not end in a blank has no gap. -/
theorem splitGap_of_solid {code : Text} {c : Char} (h : code.getLast? = some c)
    (hc : Text.isAsciiBlank c = false) : splitGap code = (code, []) := by
  obtain ⟨happ, hblank⟩ := splitGap_spec code
  have hgap : (splitGap code).2 = [] := by
    by_contra hne
    rw [← happ, List.getLast?_append_of_ne_nil _ hne] at h
    rw [hblank c (List.mem_of_getLast? h)] at hc
    exact absurd hc (by simp)
  rw [hgap, List.append_nil] at happ
  exact Prod.ext happ hgap

theorem isAsciiBlank_of_mem_joinBreaks {t : Text} {c : Char}
    (ht : ∀ d ∈ t, Text.isAsciiBlank d = true) (hc : c ∈ joinBreaks t) :
    Text.isAsciiBlank c = true := by
  obtain ⟨d, hd, rfl⟩ := List.mem_map.1 hc
  split
  · decide
  · exact ht d hd

/-- A span of blanks is clear of all others. -/
theorem isClear_of_blank {s : Span} (hne : s.text ≠ [])
    (hs : ∀ c ∈ s.text, Text.isAsciiBlank c = true) (a : Span) : IsClear a s ∧ IsClear s a := by
  refine ⟨fun _ _ => .inr ?_, fun _ _ => .inl ?_⟩
  · exact ⟨s.text.head hne, List.head?_eq_some_head hne, .inl (hs _ (List.head_mem hne))⟩
  · exact ⟨s.text.getLast hne, List.getLast?_eq_some_getLast hne,
      .inl (hs _ (List.getLast_mem hne))⟩

/-- A text that begins with an underscore is not parted from a word or a number before it. -/
theorem not_parted_of_endsOpenly {a b : Text} (ha : endsOpenly a = true)
    (hb : b.head? = some '_') : ¬ Parted a b := by
  have hne : a ≠ [] := by
    rintro rfl
    simp [endsOpenly] at ha
  obtain ⟨front, kind, c, t, hlabels, hlex, hsuffix, -⟩ := exists_lastToken hne
  have hkind : kind = .word ∨ kind = .number := by simpa [endsOpenly, hlabels] using ha
  have hsolid : kind ≠ .blank ∧ kind ≠ .newline := by rcases hkind with rfl | rfl <;> decide
  rintro (⟨d, hd, hclose⟩ | ⟨d, hd, hopen⟩)
  · obtain ⟨pre, rfl⟩ := hsuffix
    rw [List.getLast?_append_of_ne_nil _ (List.cons_ne_nil c t)] at hd
    rcases hclose with hblank | hclose
    · rw [not_isAsciiBlank_of_lexeme hlex hsolid (List.mem_of_getLast? hd)] at hblank
      exact absurd hblank (by simp)
    · rw [(eq_of_getLast?_close hlex hsolid hd hclose).1] at hkind
      exact absurd hkind (by decide)
  · rw [hb] at hd
    obtain rfl := Option.some.inj hd
    rcases hopen with hopen | hopen | ⟨-, hopen⟩
    · exact absurd hopen (by decide)
    · exact absurd hopen (by decide)
    · rw [ha] at hopen
      exact absurd hopen (by simp)

/-! ## Closing gaps -/

/-- How a span may meet the span before it when the spans are listed newest first. -/
def Meets (table : Name) (b a : Span) : Prop :=
  IsClear a b ∨ IsFused table a b

/-- A reference does not end in a blank. -/
theorem getLast?_reference (table : Name) (index : Nat) (argument : Bool) :
    ∃ c, (StringTable.reference table index argument).getLast? = some c ∧ (c = ')' ∨ c = ']') := by
  cases argument with
  | true => exact ⟨')', List.getLast?_concat, .inl rfl⟩
  | false =>
    refine ⟨']', ?_, .inr rfl⟩
    show (table ++ '[' :: Number.decimal index ++ [']']).getLast? = _
    exact List.getLast?_concat

theorem reference_ne_nil (table : Name) (index : Nat) (argument : Bool) :
    StringTable.reference table index argument ≠ [] := by
  intro hnil
  obtain ⟨c, hc, -⟩ := getLast?_reference table index argument
  rw [hnil] at hc
  cases hc

/-- Code that is more than its gap meets the span before it as it does with the gap closed. -/
theorem meets_of_closedGap {table : Name} {s : Span} (hkind : s.kind = .code)
    (hfront : (splitGap s.text).1 ≠ []) :
    let s' : Span :=
      ⟨.code, (splitGap s.text).1 ++ joinBreaks (splitGap s.text).2, s.start, s.stop⟩
    (∀ a, IsClear a s' ↔ IsClear a s) ∧ ∀ a, Meets table s a → Meets table s' a := by
  intro s'
  have hcode : s'.isCode = s.isCode := by rw [Span.isCode, Span.isCode, hkind]
  have hhead : s'.text.head? = s.text.head? := by
    obtain ⟨c, front, hc⟩ := List.exists_cons_of_ne_nil hfront
    have hfirst := congrArg List.head? (splitGap_spec s.text).1
    rw [hc] at hfirst
    show ((splitGap s.text).1 ++ joinBreaks (splitGap s.text).2).head? = _
    rw [hc]
    exact hfirst
  have hclear : ∀ a, IsClear a s' ↔ IsClear a s := fun a => by
    simp only [IsClear, hcode, Parted, hhead]
  refine ⟨hclear, fun a hrel => ?_⟩
  rcases hrel with hrel | ⟨ha, hs, hopen, index, hindex⟩
  · exact .inl ((hclear a).2 hrel)
  -- a reference has no gap
  obtain ⟨c, hlast, hc⟩ := getLast?_reference table index false
  have hsolid : splitGap s.text = (s.text, []) := by
    rw [hindex]
    exact splitGap_of_solid hlast (by rcases hc with rfl | rfl <;> decide)
  refine .inr ⟨ha, hcode.trans hs, hopen, index, ?_⟩
  show (splitGap s.text).1 ++ joinBreaks (splitGap s.text).2 = _
  rw [hsolid, ← hindex]
  exact List.append_nil s.text

/--
Closing a gap keeps spans that hold something, keeps how they meet, and neither fuses spans nor
parts fused ones.
-/
theorem closeGap_spec {table : Name} {spans : List Span} (hne : ∀ s ∈ spans, s.text ≠ [])
    (h : spans.IsChain (Meets table)) :
    (∀ s ∈ closeGap spans, s.text ≠ []) ∧ (closeGap spans).IsChain (Meets table) ∧
      ((closeGap spans).IsChain (fun b a => IsClear a b) ↔
        spans.IsChain fun b a => IsClear a b) := by
  induction spans with
  | nil => exact ⟨hne, h, Iff.rfl⟩
  | cons s spans ih =>
    obtain ⟨hs, hspans⟩ := List.forall_mem_cons.1 hne
    obtain ⟨hrel, hrest⟩ := List.isChain_cons.1 h
    obtain ⟨ihne, ihmeets, ihclear⟩ := ih hspans hrest
    -- a span of blanks in front of closed spans
    have hblank : ∀ s' : Span, s'.text ≠ [] → (∀ c ∈ s'.text, Text.isAsciiBlank c = true) →
        (∀ a ∈ spans.head?, IsClear a s) →
        (∀ a ∈ s' :: closeGap spans, a.text ≠ []) ∧
          (s' :: closeGap spans).IsChain (Meets table) ∧
          ((s' :: closeGap spans).IsChain (fun b a => IsClear a b) ↔
            (s :: spans).IsChain fun b a => IsClear a b) := by
      intro s' hs' hall hold
      have hclear := fun a => (isClear_of_blank hs' hall a).1
      refine ⟨List.forall_mem_cons.2 ⟨hs', ihne⟩, ?_, ?_⟩
      · exact List.isChain_cons.2 ⟨fun a _ => .inl (hclear a), ihmeets⟩
      · rw [List.isChain_cons, List.isChain_cons, ihclear]
        exact ⟨fun hc => ⟨hold, hc.2⟩, fun hc => ⟨fun a _ => hclear a, hc.2⟩⟩
    rw [closeGap]
    cases hkind : s.kind with
    | string => exact ⟨hne, h, Iff.rfl⟩
    | comment =>
      refine hblank _ (List.cons_ne_nil _ _) (by simp; decide) fun a _ _ hcode => ?_
      rw [Span.isCode, hkind] at hcode
      exact absurd hcode (by decide)
    | code =>
      obtain ⟨happ, hgap⟩ := splitGap_spec s.text
      by_cases hfront : (splitGap s.text).1 = []
      · have htext : joinBreaks (splitGap s.text).2 ≠ [] := by
          rw [hfront, List.nil_append] at happ
          rw [happ]
          simpa [joinBreaks] using hs
        simp only [hfront, List.isEmpty_nil, if_true, List.nil_append]
        refine hblank _ htext (fun c hc => isAsciiBlank_of_mem_joinBreaks hgap hc) fun a _ => ?_
        refine (isClear_of_blank hs (fun c hc => hgap c ?_) a).1
        rw [hfront, List.nil_append] at happ
        rwa [happ]
      · have hempty : ((splitGap s.text).1).isEmpty = false := by simpa using hfront
        simp only [hempty, Bool.false_eq_true, if_false]
        obtain ⟨hclear, hmeets⟩ := @meets_of_closedGap table s hkind hfront
        refine ⟨?_, List.isChain_cons.2 ⟨fun a ha => hmeets a (hrel a ha), hrest⟩, ?_⟩
        · exact List.forall_mem_cons.2 ⟨by simp [hfront], hspans⟩
        · simp only [List.isChain_cons, hclear]

/-! ## Extraction -/

/-- Whether a span is a literal, so that a reference takes its place. -/
def Span.isLiteral (s : Span) : Bool :=
  s.kind == .string && (Literal.ofText? s.text).isSome

/-- Whether a token is a keyword or a number. -/
def Token.takesName (t : Token) : Bool :=
  match t.kind with
  | .word => isKeyword t.text
  | .number => true
  | _ => false

/-- Whether a literal `b` comes right after a keyword or a number of the code `a`. -/
def Span.touches (a b : Span) : Bool :=
  a.isCode && (tokenize a.text).getLast?.any Token.takesName && b.isLiteral

theorem endsOpenly_eq (code : Text) : endsOpenly code =
    (tokenize code).getLast?.any fun t => t.kind == .word || t.kind == .number := by
  rw [endsOpenly, labels, List.getLast?_map]
  cases (tokenize code).getLast? <;> rfl

/-- The last token of code that is no trivia decides whether the code ends in a callee. -/
theorem endsInCallee?_of_getLast? {code : Text} {t : Token}
    (h : (tokenize code).getLast? = some t) (ht : t.isTrivia = false) :
    endsInCallee? code = some t.endsCallee := by
  obtain ⟨front, hfront⟩ := List.getLast?_eq_some_iff.1 h
  simp [endsInCallee?, reverseTokens, hfront, ht]

namespace Extraction

/-- How the newest span of an extraction stems from the span `p` that was read last. -/
def Follows (table : Name) (p : Span) (x : Extraction) : Prop :=
  ∃ q, x.spans.head? = some q ∧
    ((q = p ∧ p.isLiteral = false ∧
        (p.isCode = true → ∀ t, (tokenize p.text).getLast? = some t → t.isTrivia = false →
          x.callable = t.endsCallee)) ∨
      (p.isLiteral = true ∧ ∃ index argument, q.text = StringTable.reference table index argument))

/-- What holds when the spans `done` have been read: spans are fused where a literal touched. -/
structure Sound (table : Name) (done : List Span) (x : Extraction) : Prop where
  nonempty : ∀ s ∈ x.spans, s.text ≠ []
  meets : x.spans.IsChain (Meets table)
  clear_iff : (x.spans.IsChain fun b a => IsClear a b) ↔
    done.IsChain fun a b => a.touches b = false
  start : done = [] → x.spans = []
  follows : ∀ p, done.getLast? = some p → x.Follows table p

theorem sound_empty (table : Name) : Sound table [] empty :=
  ⟨by simp [empty], List.IsChain.nil, by simp [empty], fun _ => rfl, by simp⟩

variable {table : Name} {done : List Span} {x : Extraction} {s : Span}

/-- A span that is no literal is clear of what was extracted before it. -/
theorem isClear_of_follows {p q : Span} (hq : x.spans.head? = some q) (h : x.Follows table p)
    (hclear : IsClear p s) : IsClear q s := by
  obtain ⟨q', hq', h⟩ := h
  obtain rfl : q = q' := by rw [hq] at hq'; exact Option.some.inj hq'
  rcases h with ⟨rfl, -, -⟩ | ⟨-, index, argument, htext⟩
  · exact hclear
  · obtain ⟨c, hlast, hc⟩ := getLast?_reference table index argument
    exact fun _ _ => .inl ⟨c, by rw [htext, hlast], .inr hc⟩

theorem isChain_concat {α : Type} {R : α → α → Prop} {l : List α} {a : α} :
    (l ++ [a]).IsChain R ↔ l.IsChain R ∧ ∀ b, l.getLast? = some b → R b a := by
  rw [List.isChain_append]
  simp

/-- The invariant after one more span that is no literal. -/
theorem Sound.keep (h : Sound table done x) (hs : s.text ≠ []) (hliteral : s.isLiteral = false)
    (hclear : ∀ p, done.getLast? = some p → IsClear p s) {callable : Bool}
    (hcallable : s.isCode = true → ∀ t, (tokenize s.text).getLast? = some t →
      t.isTrivia = false → callable = t.endsCallee) :
    Sound table (done ++ [s]) { x with spans := s :: x.spans, callable := callable } := by
  have hhead : ∀ q ∈ x.spans.head?, IsClear q s := by
    intro q hq
    cases hlast : done.getLast? with
    | none => simp [h.start (List.getLast?_eq_none_iff.1 hlast)] at hq
    | some p => exact isClear_of_follows hq (h.follows p hlast) (hclear p hlast)
  have htouches : ∀ p : Span, p.touches s = false := by simp [Span.touches, hliteral]
  refine ⟨List.forall_mem_cons.2 ⟨hs, h.nonempty⟩, ?_, ?_, by simp, ?_⟩
  · exact List.isChain_cons.2 ⟨fun q hq => .inl (hhead q hq), h.meets⟩
  · rw [List.isChain_cons, h.clear_iff, isChain_concat]
    exact ⟨fun hc => ⟨hc.2, fun p _ => htouches p⟩, fun hc => ⟨hhead, hc.1⟩⟩
  · intro p hp
    obtain rfl : s = p := by simpa using hp
    exact ⟨s, rfl, .inl ⟨rfl, hliteral, hcallable⟩⟩

/-- After code that ends in no callee, a literal touches what ends in a word or a number. -/
theorem touches_eq_endsOpenly {q : Span} (hq : q.isCode = true) (hliteral : s.isLiteral = true)
    (hcallee : ∀ t, (tokenize q.text).getLast? = some t → t.isTrivia = false →
      t.endsCallee = false) : q.touches s = endsOpenly q.text := by
  rw [Span.touches, endsOpenly_eq, hq, hliteral, Bool.true_and, Bool.and_true]
  cases hlast : (tokenize q.text).getLast? with
  | none => rfl
  | some t =>
    have ht := hcallee t hlast
    obtain ⟨kind, text, offset⟩ := t
    cases kind <;> simp_all [Token.takesName, Token.endsCallee, Token.isTrivia]

/-- Where no callee is before a literal, the reference is clear unless the literal touched. -/
theorem isClear_reference_iff {p q r : Span} (htable : Minting.IsLettered table)
    (hq : x.spans.head? = some q) (hcallable : x.callable = false) (h : x.Follows table p)
    (hliteral : s.isLiteral = true) {index : Nat} (hr : r.isCode = true)
    (htext : r.text = StringTable.reference table index false) :
    Meets table r q ∧ (IsClear q r ↔ p.touches s = false) := by
  obtain ⟨word, hword, -⟩ := htable
  have hhead : r.text.head? = some '_' := by
    rw [htext, hword]
    rfl
  obtain ⟨q', hq', h⟩ := h
  obtain rfl : q = q' := by rw [hq] at hq'; exact Option.some.inj hq'
  rcases h with ⟨rfl, -, hcallee⟩ | ⟨hp, index', argument, hqtext⟩
  · by_cases hcode : q.isCode = true
    · rw [touches_eq_endsOpenly hcode hliteral fun t ht htrivia => by
        rw [← hcallee hcode t ht htrivia, hcallable]]
      cases hopen : endsOpenly q.text with
      | true =>
        have hnot : ¬ IsClear q r := fun hclear =>
          not_parted_of_endsOpenly hopen hhead (hclear hcode hr)
        exact ⟨.inr ⟨hcode, hr, hopen, index, htext⟩, iff_of_false hnot (by simp)⟩
      | false =>
        have hclear : IsClear q r := fun _ _ => .inr ⟨'_', hhead, .inr (.inr ⟨rfl, hopen⟩)⟩
        exact ⟨.inl hclear, iff_of_true hclear rfl⟩
    · have hclear : IsClear q r := fun hc => absurd hc hcode
      exact ⟨.inl hclear, iff_of_true hclear (by simp [Span.touches, hcode])⟩
  · obtain ⟨c, hlast, hc⟩ := getLast?_reference table index' argument
    have hclear : IsClear q r := fun _ _ => .inl ⟨c, by rw [hqtext, hlast], .inr hc⟩
    refine ⟨.inl hclear, iff_of_true hclear ?_⟩
    have hcode : p.isCode = false := by
      rw [Span.isLiteral, Bool.and_eq_true, beq_iff_eq] at hp
      rw [Span.isCode, hp.1]
      rfl
    simp [Span.touches, hcode]

/-- A literal that is the argument of a call does not touch anything. -/
theorem touches_of_callable {p : Span} (hcallable : x.callable = true) (h : x.Follows table p) :
    p.touches s = false := by
  obtain ⟨q, -, ⟨-, -, hcallee⟩ | ⟨hp, -⟩⟩ := h
  · by_contra htouches
    simp only [Span.touches, Bool.not_eq_false, Bool.and_eq_true] at htouches
    obtain ⟨⟨hcode, hlast⟩, -⟩ := htouches
    cases ht : (tokenize p.text).getLast? with
    | none => simp [ht] at hlast
    | some t =>
      have hcallee := hcallee hcode t ht
      rw [ht] at hlast
      obtain ⟨kind, text, offset⟩ := t
      cases kind <;> simp_all [Token.takesName, Token.endsCallee, Token.isTrivia]
  · have hcode : p.isCode = false := by
      rw [Span.isLiteral, Bool.and_eq_true, beq_iff_eq] at hp
      rw [Span.isCode, hp.1]
      rfl
    simp [Span.touches, hcode]

/-- The invariant after a literal has been taken out. -/
theorem Sound.extract (htable : Minting.IsLettered table) (h : Sound table done x)
    (hliteral : s.isLiteral = true) (literal : Literal) (key : Option UInt8) :
    Sound table (done ++ [s]) (x.extract table s literal key) := by
  have hfollows : ∀ y : Extraction, y.spans.head?.map Span.text =
      some (StringTable.reference table x.entries.length x.callable) →
        ∀ p, (done ++ [s]).getLast? = some p → y.Follows table p := by
    intro y hy p hp
    obtain rfl : s = p := by simpa using hp
    obtain ⟨q, hq, hqtext⟩ := Option.map_eq_some_iff.1 hy
    exact ⟨q, hq, .inr ⟨hliteral, _, _, hqtext⟩⟩
  cases hcallable : x.callable with
  | true =>
    obtain ⟨hne, hmeets, hclear⟩ := closeGap_spec h.nonempty h.meets
    have hspans : (x.extract table s literal key).spans =
        { s with kind := .code, text := StringTable.reference table x.entries.length true } ::
          closeGap x.spans := by
      simp [Extraction.extract, hcallable]
    have hnew : ∀ a, IsClear a
        { s with kind := .code, text := StringTable.reference table x.entries.length true } :=
      fun _ _ _ => .inr ⟨'(', rfl, .inr (.inl rfl)⟩
    refine ⟨?_, ?_, ?_, by simp, hfollows _ (by rw [hspans, hcallable]; rfl)⟩
    · rw [hspans]
      exact List.forall_mem_cons.2 ⟨reference_ne_nil table x.entries.length true, hne⟩
    · rw [hspans]
      exact List.isChain_cons.2 ⟨fun a _ => .inl (hnew a), hmeets⟩
    · rw [hspans, List.isChain_cons, hclear, h.clear_iff, isChain_concat]
      exact ⟨fun hc => ⟨hc.2, fun p hp => touches_of_callable hcallable (h.follows p hp)⟩,
        fun hc => ⟨fun a _ => hnew a, hc.1⟩⟩
  | false =>
    have hspans : (x.extract table s literal key).spans =
        { s with kind := .code, text := StringTable.reference table x.entries.length false } ::
          x.spans := by
      simp [Extraction.extract, hcallable]
    have hnew : ∀ q p, x.spans.head? = some q → done.getLast? = some p →
        Meets table
            { s with kind := .code, text := StringTable.reference table x.entries.length false } q ∧
          (IsClear q
              { s with kind := .code, text := StringTable.reference table x.entries.length false } ↔
            p.touches s = false) := fun q p hq hp =>
      isClear_reference_iff htable hq hcallable (h.follows p hp) hliteral rfl rfl
    refine ⟨?_, ?_, ?_, by simp, hfollows _ (by rw [hspans, hcallable]; rfl)⟩
    · rw [hspans]
      exact List.forall_mem_cons.2 ⟨reference_ne_nil table x.entries.length false, h.nonempty⟩
    · rw [hspans]
      refine List.isChain_cons.2 ⟨fun q hq => ?_, h.meets⟩
      cases hlast : done.getLast? with
      | none => simp [h.start (List.getLast?_eq_none_iff.1 hlast)] at hq
      | some p => exact (hnew q p hq hlast).1
    · rw [hspans, List.isChain_cons, h.clear_iff, isChain_concat, and_comm]
      refine and_congr_right fun _ => ⟨fun hc p hp => ?_, fun hc q hq => ?_⟩
      · obtain ⟨q, hq, -⟩ := h.follows p hp
        exact (hnew q p hq hp).2.1 (hc q hq)
      · cases hlast : done.getLast? with
        | none => simp [h.start (List.getLast?_eq_none_iff.1 hlast)] at hq
        | some p => exact (hnew q p hq hlast).2.2 (hc p hlast)

/-- The invariant after one more span. -/
theorem Sound.step (htable : Minting.IsLettered table) (h : Sound table done x) (hs : s.text ≠ [])
    (hclear : ∀ p, done.getLast? = some p → IsClear p s) (encrypt : Bool) (source : Source) :
    Sound table (done ++ [s]) (x.step table encrypt s source).1 := by
  cases hkind : s.kind with
  | code =>
    have hstep : (x.step table encrypt s source).1 =
        { x with spans := s :: x.spans, callable := (endsInCallee? s.text).getD x.callable } := by
      simp only [Extraction.step, hkind]
      rfl
    rw [hstep]
    refine h.keep hs (by simp [Span.isLiteral, hkind]) hclear fun _ t ht htrivia => ?_
    rw [endsInCallee?_of_getLast? ht htrivia, Option.getD_some]
  | comment =>
    have hstep : (x.step table encrypt s source).1 = { x with spans := s :: x.spans } := by
      simp only [Extraction.step, hkind]
      rfl
    rw [hstep]
    exact h.keep hs (by simp [Span.isLiteral, hkind]) hclear (by simp [Span.isCode, hkind])
  | string =>
    cases hliteral : Literal.ofText? s.text with
    | none =>
      have hstep : (x.step table encrypt s source).1 =
          { x with spans := s :: x.spans, callable := true } := by
        simp only [Extraction.step, hkind, hliteral]
        rfl
      rw [hstep]
      exact h.keep hs (by simp [Span.isLiteral, hliteral]) hclear (by simp [Span.isCode, hkind])
    | some literal =>
      have hstep : ∃ key, (x.step table encrypt s source).1 = x.extract table s literal key := by
        simp only [Extraction.step, hkind, hliteral]
        cases encrypt with
        | true => exact ⟨_, rfl⟩
        | false => exact ⟨none, rfl⟩
      obtain ⟨key, hstep⟩ := hstep
      rw [hstep]
      exact h.extract htable (by simp [Span.isLiteral, hkind, hliteral]) literal key

/-- The invariant after all spans. -/
theorem Sound.foldlM (htable : Minting.IsLettered table) (h : Sound table done x)
    {spans : List Span} (hne : ∀ s ∈ spans, s.text ≠ [])
    (hclear : (done ++ spans).IsChain IsClear) (encrypt : Bool) (source : Source) :
    Sound table (done ++ spans) (spans.foldlM (Extraction.step table encrypt) x source).1 := by
  induction spans generalizing done x source with
  | nil => rwa [List.append_nil]
  | cons s spans ih =>
    obtain ⟨hs, hspans⟩ := List.forall_mem_cons.1 hne
    rw [List.append_cons] at hclear ⊢
    rw [List.foldlM_cons]
    have hfirst := (isChain_concat.1 hclear.left_of_append).2
    exact ih (h.step htable hs hfirst encrypt source) hspans hclear _

end Extraction

/--
After the extraction of strings from spans that are clear of each other, joining neighbouring code
keeps all items exactly if no literal touched a keyword or a number.
-/
theorem items_joinCode_of_isClear {spans : List Span} (hne : ∀ s ∈ spans, s.text ≠ [])
    (hclear : spans.IsChain IsClear) (encrypt : Bool) (dialect : Dialect) (m : Mint) :
    (joinCode (extractStrings encrypt dialect spans m).1.2).flatMap Span.items =
        (extractStrings encrypt dialect spans m).1.2.flatMap Span.items ↔
      spans.IsChain fun a b => a.touches b = false := by
  have htable := Minting.isLettered_freshName m
  have hsound := (Extraction.sound_empty (Minting.freshName m).1).foldlM htable hne hclear encrypt
    (Minting.freshName m).2.source
  have hout : (extractStrings encrypt dialect spans m).1.2 =
      (spans.foldlM (Extraction.step (Minting.freshName m).1 encrypt) .empty
        (Minting.freshName m).2.source).1.spans.reverse := by
    rw [extractStrings]
    simp only [Minting.bind_apply]
    split <;> rfl
  have hmeets := List.isChain_reverse.2 hsound.meets
  rw [hout, items_joinCode_iff htable hmeets, List.isChain_reverse]
  exact hsound.clear_iff

/-! ## Scripts -/

/-- The spans that a string table is built from: those of a script, stripped or not. -/
def IsPrepared (source : Text) (spans : List Span) : Prop :=
  ∃ scanned, scan source = .ok scanned ∧
    (spans = scanned ∨ ∃ isDebug, spans = (strip isDebug scanned).1)

theorem isClear_of_isPrepared {source : Text} {spans : List Span} (h : IsPrepared source spans) :
    spans.IsChain IsClear ∧ ∀ s ∈ spans, s.text ≠ [] := by
  obtain ⟨scanned, hscan, rfl | ⟨isDebug, rfl⟩⟩ := h
  · obtain ⟨halternates, hne⟩ := alternates_of_scan hscan
    refine ⟨halternates.imp fun a b hab ha hb => ?_, hne⟩
    rw [hab ha] at hb
    exact absurd hb (by decide)
  · obtain ⟨hmeet, hne⟩ := meetAtLineFeed_strip isDebug (alternates_of_scan hscan).2
    refine ⟨hmeet.imp fun a b hab ha hb => ?_, hne⟩
    rcases hab ha hb with hfeed | hfeed
    · exact .inl ⟨'\n', by rw [hfeed]; rfl, .inl (by decide)⟩
    · exact .inr ⟨'\n', by rw [hfeed]; rfl, .inl (by decide)⟩

/--
The extraction of strings from a script, stripped or not, keeps the tokens around each literal
exactly if no literal comes right after a keyword or a number.
-/
theorem items_joinCode_extractStrings_iff {source : Text} {spans : List Span}
    (h : IsPrepared source spans) (encrypt : Bool) (dialect : Dialect) (m : Mint) :
    (joinCode (extractStrings encrypt dialect spans m).1.2).flatMap Span.items =
        (extractStrings encrypt dialect spans m).1.2.flatMap Span.items ↔
      spans.IsChain fun a b => a.touches b = false := by
  obtain ⟨hclear, hne⟩ := isClear_of_isPrepared h
  exact items_joinCode_of_isClear hne hclear encrypt dialect m

/-- A blank between a keyword and a literal keeps them apart. -/
theorem spaced_literal_kept : IsPrepared "return \"x\"".toList
      [⟨.code, "return ".toList, 0, 7⟩, ⟨.string, "\"x\"".toList, 7, 10⟩] ∧
    ∀ m, (joinCode (extractStrings false .luau
          [⟨.code, "return ".toList, 0, 7⟩, ⟨.string, "\"x\"".toList, 7, 10⟩] m).1.2).flatMap
        Span.items =
      (extractStrings false .luau
          [⟨.code, "return ".toList, 0, 7⟩, ⟨.string, "\"x\"".toList, 7, 10⟩] m).1.2.flatMap
        Span.items := by
  have hprepared : IsPrepared "return \"x\"".toList
      [⟨.code, "return ".toList, 0, 7⟩, ⟨.string, "\"x\"".toList, 7, 10⟩] :=
    ⟨_, by decide +kernel, .inl rfl⟩
  refine ⟨hprepared, fun m => (items_joinCode_extractStrings_iff hprepared false .luau m).2 ?_⟩
  exact List.isChain_pair.2 (by decide +kernel)

/-- The keyword in front of a literal that touches it is lost in the reference. -/
theorem keyword_fused : scan "return\"x\"".toList =
      .ok [⟨.code, "return".toList, 0, 6⟩, ⟨.string, "\"x\"".toList, 6, 9⟩] ∧
    ∀ encrypt dialect m, (joinCode (extractStrings encrypt dialect
          [⟨.code, "return".toList, 0, 6⟩, ⟨.string, "\"x\"".toList, 6, 9⟩] m).1.2).flatMap
        Span.items ≠
      (extractStrings encrypt dialect
          [⟨.code, "return".toList, 0, 6⟩, ⟨.string, "\"x\"".toList, 6, 9⟩] m).1.2.flatMap
        Span.items := by
  refine ⟨by decide +kernel, fun encrypt dialect m heq => ?_⟩
  have hclear : List.IsChain IsClear
      [⟨.code, "return".toList, 0, 6⟩, ⟨.string, "\"x\"".toList, 6, 9⟩] :=
    List.isChain_pair.2 fun _ h => absurd h (by decide)
  have htouches := (items_joinCode_of_isClear (by decide) hclear encrypt dialect m).1 heq
  exact absurd (List.isChain_pair.1 htouches) (by decide +kernel)

end LuaVeil
