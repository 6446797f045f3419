/-
# Texts that are recast

Passes put new characters in the place of old ones: names for names, a space for a
line break, one space for many. Where neither the old nor the new characters stand
in what opens a string or comment, nothing opens that did not open before.

Main statements:

* `StaysCode.recast`, recast code stays code in front of a recast text;
* `Closed.recast`, a recast string is closed where it was closed before.
-/
import LuaVeil.Proofs.Lua.Rescan

namespace LuaVeil

/--
Whether a text is another with runs of characters replaced: all characters that are replaced, and
all that replace them, have the property `p`, and no run is empty.
-/
inductive Recast (p : Char → Prop) : Text → Text → Prop
  | nil : Recast p [] []
  | keep (c : Char) {t t' : Text} (h : Recast p t t') : Recast p (c :: t) (c :: t')
  | swap {w w' t t' : Text} (hne : w ≠ []) (hne' : w' ≠ []) (hw : ∀ c ∈ w, p c)
      (hw' : ∀ c ∈ w', p c) (h : Recast p t t') : Recast p (w ++ t) (w' ++ t')

/-- The characters that stand in nothing that opens a string or comment. -/
def isInert (c : Char) : Bool :=
  beginsNothing c && c != '='

theorem isInert_iff {c : Char} :
    isInert c = true ↔ (c ≠ '-' ∧ c ≠ '=' ∧ c ≠ '[') ∧ isQuote c = false := by
  simp only [isInert, beginsNothing, Bool.and_eq_true, bne_iff_ne, Bool.not_eq_true']
  tauto

theorem isInert_of_isWordChar {c : Char} (h : isWordChar c = true) : isInert c = true := by
  rw [isInert, beginsNothing_of_isNumeralChar (isNumeralChar_of_isWordChar h), Bool.true_and,
    bne_iff_ne]
  rintro rfl
  exact absurd h (by decide)

/-- Within a string a character of a word neither ends it nor escapes what follows. -/
theorem plain_of_isWordChar {c : Char} (h : isWordChar c = true) :
    isQuote c = false ∧ c ≠ '\\' ∧ c ≠ '\n' := by
  refine ⟨(isInert_iff.1 (isInert_of_isWordChar h)).2, ?_, ?_⟩ <;>
    rintro rfl <;> exact absurd h (by decide)

theorem isInert_of_isDigit {c : Char} (h : c.isDigit = true) : isInert c = true := by
  refine isInert_of_isWordChar ?_
  rw [isWordChar, Char.isAlphanum, h, Bool.or_true, Bool.true_or]

/-- A text of characters that stand in no opener is code, whatever follows it. -/
theorem staysCode_of_isInert {t : Text} (h : ∀ c ∈ t, isInert c = true) (rest : Text) :
    StaysCode t rest :=
  staysCode_of_beginsNothing (fun c hc => (Bool.and_eq_true_iff.1 (h c hc)).1) rest

namespace Recast

variable {p q : Char → Prop} {t t' u u' : Text}

theorem refl (t : Text) : Recast p t t := by
  induction t with
  | nil => exact .nil
  | cons c t ih => exact .keep c ih

theorem append (h : Recast p t t') (hu : Recast p u u') : Recast p (t ++ u) (t' ++ u') := by
  induction h with
  | nil => exact hu
  | keep c _ ih => exact .keep c ih
  | swap hne hne' hw hw' _ ih =>
    rw [List.append_assoc, List.append_assoc]
    exact .swap hne hne' hw hw' ih

theorem mono (h : Recast p t t') (hpq : ∀ c, p c → q c) : Recast q t t' := by
  induction h with
  | nil => exact .nil
  | keep c _ ih => exact .keep c ih
  | swap hne hne' hw hw' _ ih =>
    exact .swap hne hne' (fun c hc => hpq c (hw c hc)) (fun c hc => hpq c (hw' c hc)) ih

/-- A character that is not replaced and replaces nothing is in both texts or in neither. -/
theorem mem_iff {c : Char} (h : Recast p t t') (hc : ¬ p c) : c ∈ t ↔ c ∈ t' := by
  induction h with
  | nil => exact Iff.rfl
  | keep d _ ih => rw [List.mem_cons, List.mem_cons, ih]
  | swap _ _ hw hw' _ ih =>
    rw [List.mem_append, List.mem_append, or_iff_right (fun hmem => hc (hw c hmem)),
      or_iff_right (fun hmem => hc (hw' c hmem)), ih]

/-- The start of a text stays, if none of its characters replaces anything. -/
theorem of_isPrefix {a : Text} (h : Recast p t t') (ha : a <+: t') (hp : ∀ c ∈ a, ¬ p c) :
    a <+: t := by
  induction h generalizing a with
  | nil => exact ha
  | keep c _ ih =>
    cases a with
    | nil => exact List.nil_prefix
    | cons d a =>
      obtain ⟨rfl, hmore⟩ := List.cons_prefix_cons.1 ha
      exact (List.prefix_cons_inj d).2 (ih hmore (List.forall_mem_cons.1 hp).2)
  | @swap w w' _ _ _ hne' _ hw' _ _ =>
    cases a with
    | nil => exact List.nil_prefix
    | cons d a =>
      obtain ⟨c, w', rfl⟩ := List.exists_cons_of_ne_nil hne'
      obtain ⟨rfl, -⟩ := List.cons_prefix_cons.1 ha
      exact absurd (hw' d List.mem_cons_self) (hp d List.mem_cons_self)

theorem of_cons {c : Char} (h : Recast p (c :: t) u) (hc : ¬ p c) :
    ∃ t', u = c :: t' ∧ Recast p t t' := by
  generalize ht : c :: t = whole at h
  cases h with
  | nil => cases ht
  | keep d h =>
    obtain ⟨rfl, rfl⟩ := List.cons.inj ht
    exact ⟨_, rfl, h⟩
  | @swap w _ _ _ hne _ hw _ _ =>
    obtain ⟨d, w, rfl⟩ := List.exists_cons_of_ne_nil hne
    obtain ⟨rfl, -⟩ := List.cons.inj ht
    exact absurd (hw c List.mem_cons_self) hc

theorem eq_nil (h : Recast p [] u) : u = [] := by
  generalize ht : ([] : Text) = whole at h
  cases h with
  | nil => rfl
  | keep => cases ht
  | swap hne => exact absurd (List.append_eq_nil_iff.1 ht.symm).1 hne

theorem symm (h : Recast p t t') : Recast p t' t := by
  induction h with
  | nil => exact .nil
  | keep c _ ih => exact .keep c ih
  | swap hne hne' hw hw' _ ih => exact .swap hne' hne hw' hw ih

theorem of_concat {c : Char} (h : Recast p (t ++ [c]) u) (hc : ¬ p c) :
    ∃ t', u = t' ++ [c] ∧ Recast p t t' := by
  generalize ht : t ++ [c] = whole at h
  induction h generalizing t with
  | nil => simp at ht
  | @keep d a a' h ih =>
    cases t with
    | nil =>
      obtain ⟨rfl, rfl⟩ := List.cons.inj ht
      exact ⟨[], by rw [h.eq_nil]; rfl, .nil⟩
    | cons e t =>
      obtain ⟨rfl, hmore⟩ := List.cons.inj ht
      obtain ⟨t', rfl, hrecast⟩ := ih hmore
      exact ⟨e :: t', rfl, .keep e hrecast⟩
  | @swap w w' a a' hne hne' hw hw' h ih =>
    rcases List.append_eq_append_iff.1 ht with ⟨more, rfl, hmore⟩ | ⟨more, rfl, hmore⟩
    · -- the run does not end behind the last character, which is not replaced
      cases more with
      | nil =>
        obtain ⟨t', rfl, hrecast⟩ := @ih [] hmore
        refine ⟨w' ++ t', (List.append_assoc ..).symm, ?_⟩
        rw [← List.append_nil t]
        exact .swap (by simpa using hne) hne' (fun c hc => hw c (by simpa using hc)) hw' hrecast
      | cons d more =>
        obtain ⟨rfl, -⟩ := List.cons.inj hmore
        exact absurd (hw c (by simp)) hc
    · obtain ⟨t', rfl, hrecast⟩ := ih hmore.symm
      exact ⟨w' ++ t', (List.append_assoc ..).symm, .swap hne hne' hw hw' hrecast⟩

/-! ## Code -/

/-- What opens a recast text opened the text before. -/
theorem opens (h : Recast p t t') (hp : ∀ c, p c → isInert c = true) (ht : Opens t') : Opens t := by
  have hplain : ∀ c, isInert c = false → ¬ p c := by
    intro c hc hpc
    rw [hp c hpc] at hc
    cases hc
  rcases ht with ht | ⟨mark, hmark, ht⟩ | ⟨level, ht⟩
  · refine .inl (h.of_isPrefix ht ?_)
    exact List.forall_mem_cons.2 ⟨hplain _ (by decide),
      List.forall_mem_singleton.2 (hplain _ (by decide))⟩
  · refine .inr (.inl ⟨mark, hmark, h.of_isPrefix ht (List.forall_mem_singleton.2 (hplain mark ?_))⟩)
    by_contra hinert
    have hno := (isInert_iff.1 (by simpa using hinert)).2
    rw [hmark] at hno
    cases hno
  · refine .inr (.inr ⟨level, h.of_isPrefix ht fun c hc => hplain c ?_⟩)
    simp only [Delimiter.opening, List.cons_append, List.mem_cons, List.mem_append,
      List.mem_replicate, List.not_mem_nil, or_false] at hc
    rcases hc with rfl | ⟨-, rfl⟩ | rfl <;> decide

end Recast

section

variable {p : Char → Prop} {code code' rest rest' : Text}

/-- Recast code stays code in front of a recast text. -/
theorem StaysCode.recast (hp : ∀ c, p c → isInert c = true) (hcode : Recast p code code')
    (hrest : Recast p rest rest') (h : StaysCode code rest) : StaysCode code' rest' := by
  induction hcode with
  | nil => exact .nil rest'
  | keep c hmore ih =>
    obtain ⟨hopens, hlater⟩ := staysCode_cons_iff.1 h
    refine staysCode_cons_iff.2 ⟨fun hnew => hopens ?_, ih hlater⟩
    exact (Recast.keep c (hmore.append hrest)).opens hp hnew
  | @swap w w' t t' _ _ _ hw' _ ih =>
    refine StaysCode.append (staysCode_of_beginsNothing (fun c hc => ?_) _) (ih h.right)
    exact (Bool.and_eq_true_iff.1 (hp c (hw' c hc))).1

end

/-! ## Strings -/

section

variable {p : Char → Prop} {mark : Char} {t t' w : Text}

/-- Characters that neither end nor escape anything can be put in front of a content. -/
theorem quotedContent_append_iff (hw : ∀ c ∈ w, c ≠ mark ∧ c ≠ '\\' ∧ c ≠ '\n') :
    QuotedContent mark (w ++ t) ↔ QuotedContent mark t := by
  induction w with
  | nil => exact Iff.rfl
  | cons c w ih =>
    obtain ⟨⟨hmark, hslash, hline⟩, hw⟩ := List.forall_mem_cons.1 hw
    rw [← ih hw]
    show QuotedContent mark (c :: (w ++ t)) ↔ _
    refine ⟨fun h => ?_, .plain hmark hslash hline⟩
    generalize w ++ t = content at h ⊢
    cases h with
    | plain _ _ _ h => exact h
    | escape => exact absurd rfl hslash

/-- A recast content is a content, as if no character were replaced. -/
theorem QuotedContent.recast (hp : ∀ c, p c → c ≠ mark ∧ c ≠ '\\' ∧ c ≠ '\n') (h : Recast p t t')
    (ht : QuotedContent mark t) : QuotedContent mark t' := by
  -- after a backslash the first character is taken as it is, replaced or not
  have key : (QuotedContent mark t → QuotedContent mark t') ∧ ∀ c more, t = c :: more →
      QuotedContent mark more → ∃ c' more', t' = c' :: more' ∧ QuotedContent mark more' := by
    clear ht
    induction h with
    | nil => exact ⟨id, fun c more hnil => by cases hnil⟩
    | @keep c t t' _ ih =>
      refine ⟨fun ht => ?_, fun d more heq hmore => ?_⟩
      · cases ht with
        | plain hmark hslash hline ht => exact .plain hmark hslash hline (ih.1 ht)
        | @escape d t ht =>
          obtain ⟨d', more', rfl, hmore'⟩ := ih.2 d t rfl ht
          exact .escape hmore'
      · obtain ⟨-, rfl⟩ := List.cons.inj heq
        exact ⟨c, t', rfl, ih.1 hmore⟩
    | @swap w w' t t' hne hne' hw hw' _ ih =>
      have hplain : ∀ c ∈ w, c ≠ mark ∧ c ≠ '\\' ∧ c ≠ '\n' := fun c hc => hp c (hw c hc)
      have hplain' : ∀ c ∈ w', c ≠ mark ∧ c ≠ '\\' ∧ c ≠ '\n' := fun c hc => hp c (hw' c hc)
      refine ⟨fun ht => ?_, fun d more heq hmore => ?_⟩
      · exact (quotedContent_append_iff hplain').2 (ih.1 ((quotedContent_append_iff hplain).1 ht))
      · obtain ⟨c, w, rfl⟩ := List.exists_cons_of_ne_nil hne
        obtain ⟨c', w', rfl⟩ := List.exists_cons_of_ne_nil hne'
        obtain ⟨-, rfl⟩ := List.cons.inj heq
        have ht := (quotedContent_append_iff (List.forall_mem_cons.1 hplain).2).1 hmore
        exact ⟨c', w' ++ t', rfl,
          (quotedContent_append_iff (List.forall_mem_cons.1 hplain').2).2 (ih.1 ht)⟩
  exact key.1 ht

/-- A recast string in quotes is closed as it was, if no quote is replaced. -/
theorem Closed.recast {rest : Text}
    (hp : ∀ c, p c → isQuote c = false ∧ c ≠ '\\' ∧ c ≠ '\n') (h : Recast p t t')
    (ht : Closed t rest) (hhead : t.head?.any isQuote = true) : Closed t' rest ∧ t'.head? = t.head? := by
  cases ht with
  | @quote mark content _ hmark hfirst hend =>
    have hkept : ¬ p mark := by
      intro hpmark
      rw [(hp mark hpmark).1] at hmark
      cases hmark
    obtain ⟨body, rfl, hbody⟩ := h.of_cons hkept
    obtain ⟨content', rfl, hcontent⟩ := hbody.of_concat hkept
    have hplain : ∀ c, p c → c ≠ mark ∧ c ≠ '\\' ∧ c ≠ '\n' := by
      refine fun c hc => ⟨?_, (hp c hc).2⟩
      rintro rfl
      exact hkept hc
    obtain ⟨hfirst', hend'⟩ := (quotedContent_iff hmark).1
      (((quotedContent_iff hmark).2 ⟨hfirst, hend⟩).recast hplain hcontent)
    exact ⟨.quote hmark hfirst' hend', rfl⟩
  | long => exact absurd hhead (by simp [Delimiter.enclose, Delimiter.opening, isQuote])
  | blockComment => exact absurd hhead (by simp [isQuote])
  | lineComment => exact absurd hhead (by simp [isQuote])

end
end LuaVeil
