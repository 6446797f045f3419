/-
# What blanks do not change

Stripping takes blanks off the ends of lines and puts one blank for many, and lines
end at line feeds. A list that is read from code, such as its words or its tokens,
does not change by this if a blank always parts what is read before it and after it.

Main statements: `PartedByBlanks.splitLines`, `PartedByBlanks.squeeze`,
`PartedByBlanks.trimStart` and `PartedByBlanks.trimEnd`.
-/
import LuaVeil.Veil.Stripping
import Mathlib.Data.List.TakeWhile

namespace LuaVeil

theorem Text.trimEnd_append (t : Text) :
    trimEnd t ++ (t.reverse.takeWhile isBlank).reverse = t := by
  rw [trimEnd, ← List.reverse_append, List.takeWhile_append_dropWhile, List.reverse_reverse]

/-- Whether what is read from code is parted by every blank, and nothing is read from a blank. -/
structure PartedByBlanks {β : Type} (read : Text → List β) : Prop where
  nil : read [] = []
  append_cons : ∀ {c : Char}, Text.isBlank c = true → ∀ a b,
    read (a ++ c :: b) = read a ++ read b

namespace PartedByBlanks

variable {β : Type} {read : Text → List β}

theorem cons (h : PartedByBlanks read) {c : Char} (hc : Text.isBlank c = true) (t : Text) :
    read (c :: t) = read t := by
  have hread := h.append_cons hc [] t
  rwa [h.nil, List.nil_append, List.nil_append] at hread

theorem append_blanks (h : PartedByBlanks read) {b : Text} (hb : ∀ c ∈ b, Text.isBlank c = true)
    (a : Text) : read (a ++ b) = read a := by
  induction b generalizing a with
  | nil => rw [List.append_nil]
  | cons c b ih =>
    obtain ⟨hc, hb⟩ := List.forall_mem_cons.1 hb
    have hnone : read b = [] := by
      have hread := ih hb []
      rwa [List.nil_append, h.nil] at hread
    rw [h.append_cons hc, hnone, List.append_nil]

/-- The pieces between line feeds. -/
theorem splitLines (h : PartedByBlanks read) (t : Text) :
    (Text.splitLines t).flatMap read = read t := by
  -- the first piece grows from its end to its start, so the text in front of it is carried along
  suffices hfirst : ∃ first more, Text.splitLines t = first :: more ∧
      ∀ a, read (a ++ t) = read (a ++ first) ++ more.flatMap read by
    obtain ⟨first, more, hsplit, hread⟩ := hfirst
    rw [hsplit, List.flatMap_cons]
    exact (hread []).symm
  induction t with
  | nil => exact ⟨[], [], rfl, fun a => by simp⟩
  | cons c t ih =>
    obtain ⟨first, more, hsplit, hread⟩ := ih
    by_cases hc : c = '\n'
    · subst hc
      refine ⟨[], first :: more, by simp [Text.splitLines, hsplit], fun a => ?_⟩
      rw [h.append_cons (by decide), List.append_nil, List.flatMap_cons]
      exact congrArg _ (hread [])
    · refine ⟨c :: first, more, by simp [Text.splitLines, hc, hsplit, Text.consFirst], fun a => ?_⟩
      have hlonger := hread (a ++ [c])
      rwa [List.append_assoc, List.append_assoc] at hlonger

/-- One space for many blanks. -/
theorem squeeze (h : PartedByBlanks read) (t : Text) : read (Strip.squeeze t) = read t := by
  have hblank : ∀ c, Strip.isSqueezable c = true → Text.isBlank c = true := by
    intro c hc
    simp only [Strip.isSqueezable, Bool.or_eq_true, beq_iff_eq] at hc
    rcases hc with (rfl | rfl) | rfl <;> decide
  have key : (∀ a, read (a ++ Strip.squeezeAfter false t) = read (a ++ t)) ∧
      read (Strip.squeezeAfter true t) = read t := by
    induction t with
    | nil => exact ⟨fun _ => rfl, rfl⟩
    | cons c t ih =>
      obtain ⟨hopen, hafter⟩ := ih
      by_cases hc : Strip.isSqueezable c = true
      · simp only [Strip.squeezeAfter, hc, if_true, Bool.false_eq_true, if_false]
        refine ⟨fun a => ?_, ?_⟩
        · rw [h.append_cons (by decide), hafter, h.append_cons (hblank c hc)]
        · rw [hafter, h.cons (hblank c hc)]
      · simp only [Strip.squeezeAfter, hc]
        refine ⟨fun a => ?_, hopen [c]⟩
        have hlonger := hopen (a ++ [c])
        rwa [List.append_assoc, List.append_assoc] at hlonger
  exact key.1 []

theorem trimStart (h : PartedByBlanks read) (t : Text) : read (Text.trimStart t) = read t := by
  rw [Text.trimStart]
  induction t with
  | nil => rfl
  | cons c t ih =>
    by_cases hc : Text.isBlank c = true
    · rw [List.dropWhile_cons_of_pos hc, ih, h.cons hc]
    · rw [List.dropWhile_cons_of_neg hc]

theorem trimEnd (h : PartedByBlanks read) (t : Text) : read (Text.trimEnd t) = read t := by
  have hblanks : ∀ c ∈ (t.reverse.takeWhile Text.isBlank).reverse, Text.isBlank c = true :=
    fun c hc => List.mem_takeWhile_imp (List.mem_reverse.1 hc)
  have hread := h.append_blanks hblanks (Text.trimEnd t)
  rw [Text.trimEnd_append] at hread
  exact hread.symm

end PartedByBlanks
end LuaVeil
