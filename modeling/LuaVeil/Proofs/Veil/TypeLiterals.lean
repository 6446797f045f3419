/-
# Literals in types

A string can be a type. Extraction puts a reference in the place of every constant,
wherever it stands, so that a type keeps its tokens only if there is no constant in
it. A reference is no type: the walk that finds the variables of a script ends a type
in front of it or takes its name for one, and goes on elsewhere.

If no annotation holds a constant, a walk passes each reference as it passes the
constant, and finds the same variables.

Main statements:

* `fits_of_spares`, references fit wherever the walk over a script stands;
* `resolve_extracted`, the tokens and the variables of an extracted script.
-/
import LuaVeil.Proofs.Veil.ExtractedTokens

namespace LuaVeil

/--
Whether references fit where a walk stands: the phrase ahead, if there is one, has no constant in
it or behind it, and a constant ahead is the argument of a call if a name would end an expression.
-/
def sparesConstants (spans : List Span) (reserved : Reserved) (s : ScopeState) (c : Cursor) :
    Bool :=
  s.sparesAhead (isConstantIn spans) reserved c && c.ahead.head?.all fun o =>
    !isConstantIn spans o || !s.isDue c.frame .number || c.frame.any Mark.endsCallee

/-- Only the constants of a script lose their tokens. -/
theorem solidItems_extractedAt_iff (table : Name) (spans : List Span) (i : Nat) (s : Span) :
    (extractedAt table spans i s).solidItems = s.solidItems ↔ s.isConstant = false := by
  cases hconstant : s.isConstant with
  | true =>
    obtain ⟨hkind, -⟩ := Bool.and_eq_true_iff.1 hconstant
    have hitems : s.solidItems = [(none, s.text)] := by
      simp [Span.solidItems, Span.items, Span.isComment, Span.isCode, beq_iff_eq.1 hkind]
    rw [extractedAt, if_pos hconstant, hitems]
    refine iff_of_false (fun hsame => ?_) Bool.noConfusion
    have hcode : (none, s.text) ∈ (referenceAt table (s, constantsBefore spans i)
        (callableAfter (spans.take i))).solidItems := by
      rw [hsame]
      exact List.mem_singleton_self _
    obtain ⟨label, -, hlabel⟩ := List.mem_map.1 hcode
    cases hlabel
  | false =>
    refine iff_of_true ?_ rfl
    rw [extractedAt, hconstant, if_neg Bool.false_ne_true]
    split
    · exact s.solidItems_closed
    · rfl

section

variable {spans : List Span} {reserved : Reserved} {table name : Name} {t : ScopeState}
  {d : Cursor}

/-- A walk sees no name that is no word of the script. -/
theorem not_isVisible_of_leadsTo (hnew : ∀ s ∈ spans, name ∉ s.words)
    (h : ScopeState.LeadsTo reserved .initial (.start (occurrences spans)) t d) :
    t.isVisible name = false := by
  refine Bool.eq_false_iff.2 fun hvisible => ?_
  obtain ⟨hknown, new, hsites, ⟨passed, ⟨hpassed, -⟩, hsub⟩, hnames⟩ := h.notes (.initial reserved)
  obtain ⟨o, ho, rfl⟩ := hknown.exists_of_isVisible hvisible
  have hmem : o ∈ new := by simpa [hsites, ScopeState.initial] using ho
  have hplace : o ∈ occurrences spans := by
    rw [show occurrences spans = passed ++ d.ahead from hpassed]
    exact List.mem_append_left _ (hsub.subset hmem)
  obtain ⟨⟨s, i⟩, hs, ho⟩ := List.mem_flatMap.1 hplace
  have hword : o.mark = .word o.mark.text := by
    have hname := hnames o hmem
    cases hmark : o.mark <;> simp_all [Mark.isName, Mark.text]
  exact hnew s (List.fst_mem_of_mem_zipIdx hs) (Span.mem_words_of_mem_occurrences ho hword)

/-- References fit wherever the walk over a script stands, if they do so at each place alone. -/
theorem fits_of_spares (hword : isWord table = true) (hkeyword : isKeyword table = false)
    (hnew : ∀ s ∈ spans, table ∉ s.words)
    (hspares : ScopeState.everywhere reserved (sparesConstants spans reserved) .initial
      (.start (occurrences spans)) = true)
    (h : ScopeState.LeadsTo reserved .initial (.start (occurrences spans)) t d) :
    (extraction hword hkeyword spans).Fits reserved t d := by
  obtain ⟨hphrase, hcall⟩ := Bool.and_eq_true_iff.1 (h.of_everywhere hspares)
  refine ⟨not_isVisible_of_leadsTo hnew h, fun o ho htaken hdue => ?_, hphrase⟩
  obtain ⟨-, -, -, ⟨passed, ⟨hpassed, hframe⟩, -⟩, -⟩ := h.notes (.initial reserved)
  obtain ⟨back, hback⟩ := List.head?_eq_some_iff.1 ho
  rw [hback] at hpassed
  have hargument : callableAfter (spans.take o.span) = d.frame.any Mark.endsCallee := by
    rw [callableAfter_of_constant hpassed htaken, hframe]
    rfl
  have hnumber : t.isDue d.frame .number = true := by
    have hcontinues : (Mark.word table).continuesExpression = false :=
      Mark.isWordOf_of_not_isKeyword hkeyword (by decide)
    exact (ScopeState.isDue_congr rfl hcontinues).symm.trans hdue
  have hconstant : isConstantIn spans o = true := htaken
  have hthere := (Option.all_eq_true _ _).1 hcall o ho
  rw [hconstant, hnumber] at hthere
  exact hargument.trans hthere

/-- Some tokens are the same after extraction exactly if there is no constant among them. -/
theorem map_mark_replaced_iff (hword : isWord table = true) (hkeyword : isKeyword table = false)
    (os : List Occurrence) :
    (os.flatMap (replaced table spans)).map Occurrence.mark = os.map Occurrence.mark ↔
      ∀ o ∈ os, isConstantIn spans o = false := by
  rw [← apply_extraction hword hkeyword]
  refine ⟨fun hmarks o ho => Bool.eq_false_iff.2 fun htaken => ?_, fun hkept => ?_⟩
  · have hlonger := (extraction hword hkeyword spans).length_lt_apply ho htaken
    have hlength := congrArg List.length hmarks
    rw [List.length_map, List.length_map] at hlength
    exact Nat.ne_of_gt hlonger hlength
  · rw [(extraction hword hkeyword spans).apply_of_kept hkept]

/-! ## Extracted scripts -/

/-- The name of the table is no keyword, and no word of the script. -/
theorem name_extractStrings_fresh (hide : Bool) (dialect : Dialect) {m : Mint}
    (hwords : ∀ s ∈ spans, ∀ w ∈ s.words, w ∈ m.names.taken) :
    let table := (extractStrings hide dialect spans m).1.1.name
    isWord table = true ∧ isKeyword table = false ∧ ∀ s ∈ spans, table ∉ s.words := by
  have htakes := (Minting.freshName_takes m).not_mem_unavailable _ List.mem_cons_self
  intro table
  rw [show table = _ from name_extractStrings hide dialect spans m]
  exact ⟨Minting.isWord_freshName m, isKeyword_eq_false htakes,
    fun s hs hmem => htakes (List.mem_append_right _ (hwords s hs _ hmem))⟩

variable {source : Text}

theorem spans_extractStrings (h : IsPrepared source spans) (hide : Bool) (dialect : Dialect)
    (m : Mint) :
    let out := (extractStrings hide dialect spans m).1
    out.2 = spans.mapIdx (extractedAt out.1.name spans) :=
  (extracted_of_literals (fun _ hs hconstant => isStringLiteral_of_isPrepared h hs hconstant)
    hide dialect m).places

theorem occurrences_extractStrings (h : IsPrepared source spans) (hide : Bool) (dialect : Dialect)
    (m : Mint) :
    let out := (extractStrings hide dialect spans m).1
    occurrences out.2 = (occurrences spans).flatMap (replaced out.1.name spans) := by
  intro out
  rw [show out.2 = _ from spans_extractStrings h hide dialect m, occurrences_extracted]

/-- Extraction keeps the tokens of a script that has no constants. -/
theorem occurrences_extractStrings_of_no_constants (h : IsPrepared source spans) (hide : Bool)
    (dialect : Dialect) (m : Mint) (hnone : ∀ s ∈ spans, s.isConstant = false) :
    occurrences (extractStrings hide dialect spans m).1.2 = occurrences spans := by
  rw [occurrences_extractStrings h]
  conv_rhs => rw [← List.flatMap_singleton' (occurrences spans)]
  refine List.flatMap_congr fun o _ => if_neg fun htaken => ?_
  obtain ⟨-, hconstant⟩ := Bool.and_eq_true_iff.1 htaken
  obtain ⟨s, hs, htrue⟩ := (Option.any_eq_true _ _).1 hconstant
  rw [hnone s (List.mem_of_getElem? hs)] at htrue
  cases htrue

/-- If references fit wherever the walk over a script stands, extraction keeps its variables. -/
theorem resolve_extractStrings (h : IsPrepared source spans) (hide : Bool) (dialect : Dialect)
    {m : Mint} (hwords : ∀ s ∈ spans, ∀ w ∈ s.words, w ∈ m.names.taken)
    (hspares : ScopeState.everywhere reserved (sparesConstants spans reserved) .initial
      (.start (occurrences spans)) = true) :
    resolve reserved (occurrences (extractStrings hide dialect spans m).1.2) =
      resolve reserved (occurrences spans) := by
  obtain ⟨hword, hkeyword, hnew⟩ := name_extractStrings_fresh hide dialect hwords
  rw [occurrences_extractStrings h, ← apply_extraction hword hkeyword]
  exact (extraction hword hkeyword spans).resolve_apply fun t d hleads =>
    fits_of_spares hword hkeyword hnew hspares hleads

end

/--
Extraction puts the tokens of a reference in the places of all constants, and keeps the places of
all other tokens. So the tokens of a type, as of any part of a script, are the same exactly if there
is no constant among them. If no constant stands in an annotation, the same variables are found.
-/
theorem resolve_extracted {source : Text} {spans : List Span} (h : IsPrepared source spans)
    (hide : Bool) (dialect : Dialect) {m : Mint}
    (hwords : ∀ s ∈ spans, ∀ w ∈ s.words, w ∈ m.names.taken) (reserved : Reserved) :
    let out := (extractStrings hide dialect spans m).1
    occurrences out.2 = (occurrences spans).flatMap (replaced out.1.name spans) ∧
      (∀ type : List Occurrence,
        (type.flatMap (replaced out.1.name spans)).map Occurrence.mark = type.map Occurrence.mark ↔
          ∀ o ∈ type, isConstantIn spans o = false) ∧
      (∀ (i : Nat) (s t : Span), spans[i]? = some s → out.2[i]? = some t →
        (t.solidItems = s.solidItems ↔ s.isConstant = false)) ∧
      (ScopeState.everywhere reserved (sparesConstants spans reserved) .initial
          (.start (occurrences spans)) = true →
        resolve reserved (occurrences out.2) = resolve reserved (occurrences spans)) := by
  intro out
  obtain ⟨hword, hkeyword, -⟩ := name_extractStrings_fresh hide dialect hwords
  refine ⟨occurrences_extractStrings h hide dialect m, map_mark_replaced_iff hword hkeyword,
    fun i s t hs ht => ?_, resolve_extractStrings h hide dialect hwords⟩
  rw [show out.2 = _ from spans_extractStrings h hide dialect m, List.getElem?_mapIdx, hs] at ht
  obtain rfl := Option.some.inj ht
  exact solidItems_extractedAt_iff _ _ _ _

/-- A literal on the right of a type alias is no annotation, nor is the argument of a call. -/
theorem annotated_variable_found :
    let spans : List Span := [⟨.code, "type T = ".toList, 0, 9⟩, ⟨.string, "'a'".toList, 9, 12⟩,
      ⟨.code, " local x: T? = f ".toList, 12, 29⟩, ⟨.string, "'b'".toList, 29, 32⟩,
      ⟨.code, " g(x)".toList, 32, 37⟩]
    IsPrepared "type T = 'a' local x: T? = f 'b' g(x)".toList spans ∧ ∀ source,
      let m : Mint := ⟨.ofSpans .default spans, source⟩
      (∀ s ∈ spans, ∀ w ∈ s.words, w ∈ m.names.taken) ∧
        resolve .default (occurrences (extractStrings true .luau spans m).1.2) =
          resolve .default (occurrences spans) := by
  intro spans
  have hprepared : IsPrepared "type T = 'a' local x: T? = f 'b' g(x)".toList spans :=
    ⟨_, by decide +kernel, .inl rfl⟩
  refine ⟨hprepared, fun source => ?_⟩
  have hwords : ∀ s ∈ spans, ∀ w ∈ s.words, w ∈ spans.flatMap Span.words :=
    fun s hs w hw => List.mem_flatMap.2 ⟨s, hs, hw⟩
  exact ⟨hwords, (resolve_extracted hprepared true .luau hwords .default).2.2.2 (by decide +kernel)⟩

/--
The type of a variable is a literal. Its reference ends the type behind the name of the table, so
that the value of the variable is taken for the variable itself.
-/
theorem literal_type_replaced :
    let spans : List Span := [⟨.code, "local x: ".toList, 0, 9⟩, ⟨.string, "\"a\"".toList, 9, 12⟩,
      ⟨.code, " = x print(x)".toList, 12, 25⟩]
    let out := (extractStrings false .luau spans ⟨.ofSpans .default spans, ⟨fun _ => 0, 0⟩⟩).1
    let type := (Cursor.start (occurrences spans)).advanceBy 3
    scan "local x: \"a\" = x print(x)".toList = .ok spans ∧
      type.before = some (.sign ":") ∧ type.peek 0 = some .string ∧
      type.skipType.ahead = type.advance.ahead ∧ out.2.map Span.kind = [.code, .code, .code] ∧
      (resolve .default (occurrences spans)).sites.length = 2 ∧
      (resolve .default (occurrences out.2)).sites.length = 3 := by
  intro spans out type
  refine ⟨?_, ?_, ?_, ?_, ?_, ?_, ?_⟩ <;> decide +kernel

end LuaVeil
