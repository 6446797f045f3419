/-
# What can follow a span

A span that is found in front of one text is found in front of another one, if the
other opens nothing behind code that the first does not open, and ends the line of a
comment where the first did. Whole scripts are changed in this way from their end.

Main statements:

* `Calmer.append` and `Calmer.of_inert`, which texts open nothing more than others;
* `Span.Reads.follow`, a span in front of a calmer text;
* `rescans_append`, spans that are found in front of others.
-/
import LuaVeil.Proofs.Lua.Recast

namespace LuaVeil

/-! ## Calmer texts -/

/-- Whether nothing opens across the start of `calm` that does not open across that of `rest`. -/
def Calmer (rest calm : Text) : Prop :=
  ∀ u, u ≠ [] → Opens (u ++ calm) → Opens (u ++ rest)

/-- Whether a line comment in front of a text is at its end. -/
def IsLineEnd (rest : Text) : Prop :=
  rest = [] ∨ ['\n'] <+: rest

section

variable {rest calm : Text}

theorem Calmer.refl (rest : Text) : Calmer rest rest :=
  fun _ _ h => h

/-- Nothing opens across a character that stands in no opener. -/
theorem Calmer.of_inert (h : ∀ c, calm.head? = some c → isInert c = true) (rest : Text) :
    Calmer rest calm :=
  fun _ hu hopens =>
    (hopens.of_append hu fun c hc => (isInert_iff.1 (h c hc)).1).append rest

/-- The same text in front does not make a calmer text less calm, nor does a recast one. -/
theorem Calmer.append {t t' : Text} (ht : Recast (fun c => isInert c = true) t t')
    (h : Calmer rest calm) : Calmer (t ++ rest) (t' ++ calm) := by
  intro u hu hopens
  rw [← List.append_assoc] at hopens ⊢
  have hrest : Opens (u ++ t' ++ rest) := h _ (by simp [hu]) hopens
  exact (((Recast.refl u).append ht).append (Recast.refl rest)).opens (fun _ hc => hc) hrest

/-- A line ends at its end, or in front of a line feed. -/
theorem isLineEnd_iff : IsLineEnd rest ↔ ∀ c, rest.head? = some c → c = '\n' := by
  cases rest with
  | nil => exact ⟨fun _ c hc => (by cases hc), fun _ => .inl rfl⟩
  | cons d rest =>
    rw [List.head?_cons]
    constructor
    · rintro (hnil | hfeed) c hc
      · cases hnil
      · obtain rfl := Option.some.inj hc
        exact (List.cons_prefix_cons.1 hfeed).1.symm
    · intro h
      obtain rfl := h d rfl
      exact .inr ⟨rest, rfl⟩

/-- Whether a line is at its end is said by the next character. -/
theorem IsLineEnd.of_head {t t' : Text} (ht : t ≠ []) (hhead : t'.head? = t.head?)
    (h : IsLineEnd (t ++ rest)) : IsLineEnd (t' ++ calm) := by
  have hne : t' ≠ [] := by
    rintro rfl
    exact ht (List.head?_eq_none_iff.1 hhead.symm)
  rw [isLineEnd_iff, List.head?_append_of_ne_nil _ ht, ← hhead] at h
  rwa [isLineEnd_iff, List.head?_append_of_ne_nil _ hne]

/-- A recast text is as calm, and ends the line of a comment where the text did. -/
theorem Calmer.of_recast (h : Recast (fun c => isInert c = true) rest calm) : Calmer rest calm := by
  have happ := Calmer.append h (Calmer.refl [])
  rwa [List.append_nil, List.append_nil] at happ

theorem IsLineEnd.recast {p : Char → Prop} (hp : ¬ p '\n') (hrecast : Recast p rest calm)
    (h : IsLineEnd rest) : IsLineEnd calm := by
  rcases h with rfl | ⟨more, rfl⟩
  · exact .inl hrecast.eq_nil
  · obtain ⟨more', rfl, -⟩ := hrecast.of_cons hp
    exact .inr ⟨more', rfl⟩

theorem StaysCode.calmer {code : Text} (h : StaysCode code rest) (hcalm : Calmer rest calm) :
    StaysCode code calm := by
  rw [staysCode_iff] at h ⊢
  exact fun u hu hne hopens => h u hu hne (hcalm u hne hopens)

/-- What follows a line comment does not make it a block comment. -/
theorem NoLongBracket.of_lineEnd {body : Text} (h : NoLongBracket (body ++ rest))
    (hcalm : IsLineEnd calm) : NoLongBracket (body ++ calm) := by
  have hbody : NoLongBracket body := fun level hlevel =>
    h level (hlevel.trans (List.prefix_append body rest))
  rcases hcalm with rfl | ⟨more, rfl⟩
  · rwa [List.append_nil]
  · exact hbody.append more

/-- Closed texts stay closed if the line ends where it did. -/
theorem Closed.follow {text : Text} (h : Closed text rest)
    (hline : BeginsComment text → IsLineEnd rest → IsLineEnd calm) : Closed text calm := by
  cases h with
  | quote hmark hfirst hend => exact .quote hmark hfirst hend
  | long hfirst => exact .long ((longContent_iff calm).1 ((longContent_iff rest).2 hfirst))
  | blockComment hfirst =>
    exact .blockComment ((longContent_iff calm).1 ((longContent_iff rest).2 hfirst))
  | lineComment hlong hfeed hrest =>
    have hcalm := hline ⟨_, rfl⟩ hrest
    exact .lineComment (hlong.of_lineEnd hcalm) hfeed hcalm

/-- A span is found in front of a calmer text that ends the line where it ended. -/
theorem Span.Reads.follow {s : Span} (h : s.Reads rest) (hcalm : Calmer rest calm)
    (hline : s.isComment = true → IsLineEnd rest → IsLineEnd calm) : s.Reads calm := by
  rw [Span.Reads] at h ⊢
  split
  · next hcode =>
    rw [if_pos hcode] at h
    exact StaysCode.calmer h hcalm
  · next hcode =>
    rw [if_neg hcode] at h
    exact ⟨h.1.follow fun hbegins => hline (h.2.2 hbegins), h.2⟩

end

/-! ## Spans in front of a text -/

/-- Whether all spans are found again in front of those that follow, and all of them of a text. -/
def RescansBefore (rest : Text) : List Span → Prop
  | [] => True
  | s :: spans => s.Reads (render spans ++ rest) ∧ RescansBefore rest spans

theorem rescansBefore_nil (spans : List Span) : RescansBefore [] spans ↔ Rescans spans := by
  induction spans with
  | nil => exact Iff.rfl
  | cons s spans ih => rw [RescansBefore, Rescans, List.append_nil, ih]

theorem rescansBefore_append {rest : Text} {xs ys : List Span} :
    RescansBefore rest (xs ++ ys) ↔
      RescansBefore (render ys ++ rest) xs ∧ RescansBefore rest ys := by
  induction xs with
  | nil => exact ⟨fun h => ⟨trivial, h⟩, fun h => h.2⟩
  | cons s xs ih =>
    rw [List.cons_append, RescansBefore, RescansBefore, ih, render_append, List.append_assoc,
      and_assoc]

theorem rescansBefore_codeSpans (start : Nat) {code rest : Text} (h : StaysCode code rest) :
    RescansBefore rest (codeSpans start code) := by
  rw [codeSpans]
  split
  · trivial
  · exact ⟨h, trivial⟩

theorem rescans_append {xs ys : List Span} :
    Rescans (xs ++ ys) ↔ RescansBefore (render ys) xs ∧ Rescans ys := by
  rw [← rescansBefore_nil, rescansBefore_append, List.append_nil, rescansBefore_nil]

/-- Spans are found in front of a calmer text, if a line comment at their end is at its end. -/
theorem RescansBefore.follow {rest calm : Text} {spans : List Span} (h : RescansBefore rest spans)
    (hne : ∀ s ∈ spans.tail, s.text ≠ []) (hcalm : Calmer rest calm)
    (hline : ∀ s, spans.getLast? = some s → s.isComment = true → IsLineEnd rest → IsLineEnd calm) :
    RescansBefore calm spans := by
  induction spans with
  | nil => trivial
  | cons s spans ih =>
    refine ⟨h.1.follow (Calmer.append (Recast.refl _) hcalm) fun hs hend => ?_, ?_⟩
    · cases spans with
      | nil => exact hline s rfl hs hend
      | cons next spans =>
        -- what ends the line is in the next span
        rw [render_cons, List.append_assoc] at hend ⊢
        exact hend.of_head (hne next List.mem_cons_self) rfl
    · cases spans with
      | nil => trivial
      | cons next spans =>
        refine ih h.2 (fun t ht => hne t (List.mem_of_mem_tail ht)) fun t ht => hline t ?_
        rw [List.getLast?_cons_cons]
        exact ht

end LuaVeil
