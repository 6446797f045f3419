/-
# References to a string table

A reference has the name of its table as its only word. If the name is new to a
script, the spans that have it among their words after extraction are the
references, one for each literal and in the same order.

Main statements:

* `codeWords_reference`, the words of a reference;
* `references_extractStrings`, the slots of the table and the references in the
  script belong to the literals in order.
-/
import LuaVeil.Proofs.Lua.CodeWords
import LuaVeil.Proofs.Names.Shapes
import LuaVeil.Proofs.Random.Draws
import LuaVeil.Proofs.Veil.Fusion
import Mathlib.Data.List.Forall2

namespace LuaVeil

/-- Whether one of some names is a word of a span. -/
def Span.mentions (names : List Name) (s : Span) : Bool :=
  s.words.any fun w => names.contains w

/-- The reference to a slot in the place of its literal. -/
def referenceAt (name : Name) (slot : Span × Nat) (argument : Bool) : Span :=
  ⟨.code, StringTable.reference name slot.2 argument, slot.1.start, slot.1.stop⟩

/-- Whether a span refers to a slot by one of some names, in the place of its literal. -/
def IsReferenceTo (names : List Name) (slot : Span × Nat) (s : Span) : Prop :=
  ∃ name ∈ names, ∃ argument, s = referenceAt name slot argument

/-- A span may change, but not its words, and not at all if one of some names is among them. -/
structure Keeps (names : List Name) (s s' : Span) : Prop where
  start_eq : s'.start = s.start
  stop_eq : s'.stop = s.stop
  words_eq : s'.words = s.words
  eq_of_mentions : s.mentions names = true → s' = s

/-- Whether the only spans with some names among their words are references. -/
def OnlyReferences (names : List Name) (spans : List Span) : Prop :=
  ∀ s ∈ spans, s.mentions names = true → ∃ slot, IsReferenceTo names slot s

section

variable {names : List Name}

theorem Keeps.refl (s : Span) : Keeps names s s :=
  ⟨rfl, rfl, rfl, fun _ => rfl⟩

theorem Keeps.mentions_eq {s s' : Span} (h : Keeps names s s') :
    s'.mentions names = s.mentions names := by
  rw [Span.mentions, h.words_eq, ← Span.mentions]

theorem filter_of_keeps {spans spans' : List Span} (h : List.Forall₂ (Keeps names) spans spans') :
    spans'.filter (Span.mentions names) = spans.filter (Span.mentions names) := by
  induction h with
  | nil => rfl
  | @cons s s' _ _ hs _ ih =>
    rw [List.filter_cons, List.filter_cons, hs.mentions_eq, ih]
    split
    · next hmentions => rw [hs.eq_of_mentions hmentions]
    · rfl

theorem exists_of_mem_right {α β : Type} {R : α → β → Prop} {xs : List α} {ys : List β}
    (h : List.Forall₂ R xs ys) {y : β} (hy : y ∈ ys) : ∃ x ∈ xs, R x y := by
  obtain ⟨i, hi, rfl⟩ := List.mem_iff_getElem.1 hy
  obtain ⟨hlength, hall⟩ := List.forall₂_iff_get.1 h
  exact ⟨xs[i], List.getElem_mem _, hall i (by omega) hi⟩

/-- If the spans with the names are references one by one, there are no others. -/
theorem OnlyReferences.of_forall₂ {slots : List (Span × Nat)} {spans : List Span}
    (h : List.Forall₂ (IsReferenceTo names) slots (spans.filter (Span.mentions names))) :
    OnlyReferences names spans := by
  intro s hs hmentions
  obtain ⟨slot, -, hslot⟩ := exists_of_mem_right h (List.mem_filter.2 ⟨hs, hmentions⟩)
  exact ⟨slot, hslot⟩

/-! ## References -/

theorem all_isDigit_decimal (n : Nat) : ∀ c ∈ Number.decimal n, c.isDigit = true := by
  intro c hc
  unfold Number.decimal Number.digits at hc
  split at hc
  · obtain rfl := List.mem_singleton.1 hc
    decide
  · simp only [List.mem_map, List.mem_reverse] at hc
    obtain ⟨d, hd, rfl⟩ := hc
    have hall : ∀ d < 10, (Number.digitChar d).isDigit = true := by decide
    exact hall d (Number.lt_of_mem_reverseDigits hd)

theorem isWordStart_of_isDigit {c : Char} (h : c.isDigit = true) : isWordStart c = false := by
  by_contra hc
  rw [(plain_of_isWordStart (by simpa using hc)).1] at h
  cases h

/-- The name of the table is the only word of a reference. -/
theorem codeWords_reference {name : Name} (h : isWord name = true) (index : Nat)
    (argument : Bool) : codeWords (StringTable.reference name index argument) = [name] := by
  have hslot : codeWords (name ++ '[' :: Number.decimal index ++ [']']) = [name] := by
    have hindex : codeWords (Number.decimal index ++ [']']) = [] := by
      refine codeWords_eq_nil fun c hc => ?_
      rcases List.mem_append.1 hc with hc | hc
      · exact isWordStart_of_isDigit (all_isDigit_decimal index c hc)
      · obtain rfl := List.mem_singleton.1 hc
        decide
    rw [List.append_assoc, List.cons_append, codeWords_append_cons (by decide), hindex,
      codeWords_of_isWord h]
    rfl
  cases argument with
  | false => exact hslot
  | true =>
    show codeWords ('(' :: (name ++ '[' :: Number.decimal index ++ [']'] ++ [')'])) = [name]
    rw [codeWords_cons_of_separates (by decide), codeWords_append_cons (by decide), hslot,
      codeWords_nil, List.append_nil]

theorem IsReferenceTo.words {slot : Span × Nat} {s : Span}
    (hnames : ∀ name ∈ names, isWord name = true) (hs : IsReferenceTo names slot s) :
    ∃ name ∈ names, s.words = [name] := by
  obtain ⟨name, hname, argument, rfl⟩ := hs
  exact ⟨name, hname, codeWords_reference (hnames name hname) slot.2 argument⟩

theorem IsReferenceTo.mentions {slot : Span × Nat} {s : Span}
    (hnames : ∀ name ∈ names, isWord name = true) (hs : IsReferenceTo names slot s) :
    s.mentions names = true := by
  obtain ⟨name, hname, hwords⟩ := hs.words hnames
  simpa [Span.mentions, hwords] using hname

/-! ## Gaps -/

theorem separates_joinBreaks {t : Text} (h : ∀ c ∈ t, Text.isAsciiBlank c = true) :
    ∀ c ∈ joinBreaks t, separates c = true :=
  fun _ hc => separates_of_isAsciiBlank (isAsciiBlank_of_mem_joinBreaks h hc)

/-- A gap on one line does not change the words of code. -/
theorem codeWords_splitGap (code : Text) :
    codeWords ((splitGap code).1 ++ joinBreaks (splitGap code).2) = codeWords code := by
  obtain ⟨happ, hblank⟩ := splitGap_spec code
  rw [codeWords_append_of_separates (separates_joinBreaks hblank),
    ← codeWords_append_of_separates (fun c hc => separates_of_isAsciiBlank (hblank c hc)), happ]

/-- References have no gap, so that closing gaps keeps them. -/
theorem keeps_closeGap {spans : List Span} (h : OnlyReferences names spans) :
    List.Forall₂ (Keeps names) spans (closeGap spans) := by
  induction spans with
  | nil => exact .nil
  | cons s spans ih =>
    obtain ⟨hs, hspans⟩ := List.forall_mem_cons.1 h
    replace ih := ih hspans
    obtain ⟨kind, text, start, stop⟩ := s
    have hrest := List.forall₂_same.2 fun s (_ : s ∈ spans) => @Keeps.refl names s
    cases kind with
    | string => exact .cons (Keeps.refl _) hrest
    | comment =>
      have hblank : codeWords [' '] = [] :=
        codeWords_eq_nil (List.forall_mem_singleton.2 (by decide))
      refine .cons ⟨rfl, rfl, ?_, fun hmentions => ?_⟩ ih
      · simp [Span.words, hblank]
      · exact absurd hmentions (by simp [Span.mentions, Span.words])
    | code =>
      have hkeeps : Keeps names ⟨.code, text, start, stop⟩
          ⟨.code, (splitGap text).1 ++ joinBreaks (splitGap text).2, start, stop⟩ := by
        refine ⟨rfl, rfl, ?_, fun hmentions => ?_⟩
        · simp only [Span.words, codeWords_splitGap]
        obtain ⟨slot, name, -, argument, hslot⟩ := hs hmentions
        obtain rfl : text = StringTable.reference name slot.2 argument := congrArg Span.text hslot
        obtain ⟨c, hlast, hc⟩ := getLast?_reference name slot.2 argument
        have hsolid : Text.isAsciiBlank c = false := by rcases hc with rfl | rfl <;> decide
        rw [splitGap_of_solid hlast hsolid]
        simp [joinBreaks]
      simp only [closeGap]
      split
      · exact .cons hkeeps ih
      · exact .cons hkeeps hrest

/-! ## Keys -/

/-- A key is drawn from the numbers of a byte without zero. -/
theorem key_ne_zero (source : Source) :
    UInt8.ofNat (Draw.between .byte 1 255 source).1.toNat ≠ 0 := by
  obtain ⟨hlow, hhigh⟩ := Draw.between_mem .byte (by decide : (1 : Int) ≤ 255) source
  generalize (Draw.between .byte 1 255 source).1 = i at hlow hhigh ⊢
  intro hzero
  have hvalue := congrArg UInt8.toNat hzero
  rw [UInt8.toNat_ofNat'] at hvalue
  simp at hvalue
  omega

/-! ## Extraction -/

/-- Whether an entry of a table holds a literal in its slot, hidden by a key or not. -/
structure IsEntryOf (hide : Bool) (slot : Span × Nat) (e : TableEntry) : Prop where
  index_eq : e.index = slot.2
  literal_eq : Literal.ofText? slot.1.text = some e.literal
  key : if hide then ∃ key, e.key = some key ∧ key ≠ 0 else e.key = none

/-- A span takes the place of another, with the same words; or with the table name for a literal. -/
structure TakesPlace (table : Name) (s s' : Span) : Prop where
  start_eq : s'.start = s.start
  stop_eq : s'.stop = s.stop
  words_eq : s'.words = if s.isLiteral then [table] else s.words

/-- What holds after extraction from some spans. -/
structure Extraction.Refers (table : Name) (hide : Bool) (done : List Span) (x : Extraction) :
    Prop where
  entries : List.Forall₂ (IsEntryOf hide) (done.filter Span.isLiteral).zipIdx x.entries.reverse
  references : List.Forall₂ (IsReferenceTo [table]) (done.filter Span.isLiteral).zipIdx
    (x.spans.reverse.filter (Span.mentions [table]))
  places : List.Forall₂ (TakesPlace table) done x.spans.reverse

namespace Extraction

theorem refers_empty (table : Name) (hide : Bool) : Refers table hide [] empty :=
  ⟨.nil, .nil, .nil⟩

variable {table : Name} {hide : Bool} {done : List Span} {x : Extraction} {s : Span}

theorem Refers.onlyReferences (h : Refers table hide done x) : OnlyReferences [table] x.spans :=
  fun s hs => OnlyReferences.of_forall₂ h.references s (List.mem_reverse.2 hs)

theorem Refers.keep (h : Refers table hide done x) (hs : s.mentions [table] = false)
    (hliteral : s.isLiteral = false) (callable : Bool) :
    Refers table hide (done ++ [s]) { x with spans := s :: x.spans, callable := callable } := by
  have hdone : (done ++ [s]).filter Span.isLiteral = done.filter Span.isLiteral := by
    simp [hliteral]
  refine ⟨by rw [hdone]; exact h.entries, ?_, ?_⟩
  · rw [hdone]
    show List.Forall₂ _ _ ((s :: x.spans).reverse.filter _)
    rw [List.reverse_cons, List.filter_append, List.filter_singleton, hs]
    simpa using h.references
  · show List.Forall₂ _ _ (s :: x.spans).reverse
    rw [List.reverse_cons]
    exact List.rel_append h.places (.cons ⟨rfl, rfl, by simp [hliteral]⟩ .nil)

/-- The spans before an argument keep all references. -/
theorem Refers.keeps_before (h : Refers table hide done x) :
    List.Forall₂ (Keeps [table]) x.spans (if x.callable then closeGap x.spans else x.spans) := by
  split
  · exact keeps_closeGap h.onlyReferences
  · exact List.forall₂_same.2 fun s _ => Keeps.refl s

theorem places_of_keeps {spans spans' : List Span}
    (h : List.Forall₂ (TakesPlace table) done spans)
    (hkeeps : List.Forall₂ (Keeps [table]) spans spans') :
    List.Forall₂ (TakesPlace table) done spans' := by
  induction h generalizing spans' with
  | nil =>
    cases hkeeps
    exact .nil
  | cons hs _ ih =>
    obtain - | ⟨hs', hkeeps⟩ := hkeeps
    exact .cons ⟨hs'.start_eq.trans hs.start_eq, hs'.stop_eq.trans hs.stop_eq,
      hs'.words_eq.trans hs.words_eq⟩ (ih hkeeps)

theorem Refers.extract (htable : isWord table = true) (h : Refers table hide done x)
    {literal : Literal} {key : Option UInt8} (hliteral : s.isLiteral = true)
    (hread : Literal.ofText? s.text = some literal)
    (hkey : if hide then ∃ k, key = some k ∧ k ≠ 0 else key = none) :
    Refers table hide (done ++ [s]) (x.extract table s literal key) := by
  have hindex : x.entries.length = (done.filter Span.isLiteral).length := by
    have hlength := h.entries.length_eq
    rw [List.length_zipIdx, List.length_reverse] at hlength
    exact hlength.symm
  have hdone : ((done ++ [s]).filter Span.isLiteral).zipIdx =
      (done.filter Span.isLiteral).zipIdx ++ [(s, x.entries.length)] := by
    simp [List.zipIdx_append, hliteral, hindex]
  let reference := referenceAt table (s, x.entries.length) x.callable
  have hreference : IsReferenceTo [table] (s, x.entries.length) reference :=
    ⟨table, List.mem_singleton_self table, x.callable, rfl⟩
  have hwords : reference.words = [table] := codeWords_reference htable x.entries.length x.callable
  have hmentions : reference.mentions [table] = true := by simp [Span.mentions, hwords]
  have hbefore := h.keeps_before
  have hspans : (x.extract table s literal key).spans =
      reference :: if x.callable then closeGap x.spans else x.spans := rfl
  generalize (if x.callable then closeGap x.spans else x.spans) = before at hbefore hspans
  refine ⟨?_, ?_, ?_⟩
  · rw [hdone]
    show List.Forall₂ _ _ (_ :: x.entries).reverse
    rw [List.reverse_cons]
    exact List.rel_append h.entries (.cons ⟨rfl, hread, hkey⟩ .nil)
  · rw [hdone, hspans, List.filter_reverse, List.filter_cons_of_pos hmentions,
      filter_of_keeps hbefore, List.reverse_cons, ← List.filter_reverse]
    exact List.rel_append h.references (.cons hreference .nil)
  · rw [hspans, List.reverse_cons]
    exact List.rel_append (places_of_keeps h.places (List.rel_reverse hbefore))
      (.cons ⟨rfl, rfl, by simpa [hliteral] using hwords⟩ .nil)

/-- A step leaves a span as it is, or it extracts a literal. -/
theorem step_cases (table : Name) (hide : Bool) (x : Extraction) (s : Span) (source : Source) :
    (s.isLiteral = false ∧ ∃ callable, (x.step table hide s source).1 =
      { x with spans := s :: x.spans, callable := callable }) ∨
    ∃ literal key, s.isLiteral = true ∧ Literal.ofText? s.text = some literal ∧
      (if hide then ∃ k, key = some k ∧ k ≠ 0 else key = none) ∧
      (x.step table hide s source).1 = x.extract table s literal key := by
  cases hkind : s.kind with
  | code =>
    refine .inl ⟨by simp [Span.isLiteral, hkind], (endsInCallee? s.text).getD x.callable, ?_⟩
    simp only [Extraction.step, hkind]
    rfl
  | comment =>
    refine .inl ⟨by simp [Span.isLiteral, hkind], x.callable, ?_⟩
    simp only [Extraction.step, hkind]
    rfl
  | string =>
    cases hread : Literal.ofText? s.text with
    | none =>
      refine .inl ⟨by simp [Span.isLiteral, hread], true, ?_⟩
      simp only [Extraction.step, hkind, hread]
      rfl
    | some literal =>
      have hliteral : s.isLiteral = true := by simp [Span.isLiteral, hkind, hread]
      cases hide with
      | true =>
        refine .inr ⟨literal, some (UInt8.ofNat (Draw.between .byte 1 255 source).1.toNat),
          hliteral, rfl, ⟨_, rfl, key_ne_zero source⟩, ?_⟩
        simp only [Extraction.step, hkind, hread]
        rfl
      | false =>
        refine .inr ⟨literal, none, hliteral, rfl, rfl, ?_⟩
        simp only [Extraction.step, hkind, hread]
        rfl

theorem Refers.step (htable : isWord table = true) (h : Refers table hide done x)
    (hs : s.mentions [table] = false) (source : Source) :
    Refers table hide (done ++ [s]) (x.step table hide s source).1 := by
  rcases step_cases table hide x s source with
    ⟨hliteral, callable, hstep⟩ | ⟨literal, key, hliteral, hread, hkey, hstep⟩
  · rw [hstep]
    exact h.keep hs hliteral callable
  · rw [hstep]
    exact h.extract htable hliteral hread hkey

theorem Refers.foldlM (htable : isWord table = true) (h : Refers table hide done x)
    {spans : List Span} (hspans : ∀ s ∈ spans, s.mentions [table] = false) (source : Source) :
    Refers table hide (done ++ spans) (spans.foldlM (Extraction.step table hide) x source).1 := by
  induction spans generalizing done x source with
  | nil => rwa [List.append_nil]
  | cons s spans ih =>
    obtain ⟨hs, hspans⟩ := List.forall_mem_cons.1 hspans
    have hlonger := ih (h.step htable hs source) hspans (x.step table hide s source).2
    rw [List.append_assoc] at hlonger
    exact hlonger

end Extraction

theorem name_extractStrings (hide : Bool) (dialect : Dialect) (spans : List Span) (m : Mint) :
    (extractStrings hide dialect spans m).1.1.name = (Minting.freshName m).1 := by
  simp only [extractStrings, Minting.bind_apply]
  split <;> rfl

/-- The table and the script after extraction, as the last step leaves them. -/
theorem parts_extractStrings (hide : Bool) (dialect : Dialect) (spans : List Span) (m : Mint) :
    let out := (extractStrings hide dialect spans m).1
    let x := (spans.foldlM (Extraction.step (Minting.freshName m).1 hide) .empty
      (Minting.freshName m).2.source).1
    out.1.entries = x.entries.reverse ∧ out.2 = x.spans.reverse ∧
      out.1.decoder.isSome = (hide && !out.1.entries.isEmpty) := by
  simp only [extractStrings, Minting.bind_apply]
  split
  · next hdecoder =>
    refine ⟨rfl, rfl, ?_⟩
    show true = (hide && !(List.reverse _).isEmpty)
    rw [List.isEmpty_reverse]
    exact hdecoder.symm
  · next hdecoder =>
    refine ⟨rfl, rfl, ?_⟩
    show false = (hide && !(List.reverse _).isEmpty)
    rw [List.isEmpty_reverse]
    exact (Bool.not_eq_true _ ▸ hdecoder).symm

/-- The slots of the table and the references belong to the literals of a script in order. -/
theorem references_extractStrings {hide : Bool} {dialect : Dialect} {spans : List Span} {m : Mint}
    (h : ∀ s ∈ spans, s.mentions [(Minting.freshName m).1] = false) :
    let out := (extractStrings hide dialect spans m).1
    let slots := (spans.filter Span.isLiteral).zipIdx
    out.1.name = (Minting.freshName m).1 ∧
      List.Forall₂ (IsEntryOf hide) slots out.1.entries ∧
      List.Forall₂ (IsReferenceTo [out.1.name]) slots
        (out.2.filter (Span.mentions [out.1.name])) ∧
      List.Forall₂ (TakesPlace out.1.name) spans out.2 ∧
      (out.1.decoder.isSome = (hide && !out.1.entries.isEmpty)) := by
  intro out slots
  have hrefers := (Extraction.refers_empty (Minting.freshName m).1 hide).foldlM
    (Minting.isWord_freshName m) h (Minting.freshName m).2.source
  obtain ⟨hentries, hspans, hdecoder⟩ := parts_extractStrings hide dialect spans m
  simp only [out, slots, name_extractStrings, hspans]
  exact ⟨trivial, hentries ▸ hrefers.entries, hrefers.references, hrefers.places, hdecoder⟩

end

end LuaVeil
