/-
# The shapes of generated names

All generated names are words: they begin with a letter or an underscore, and
letters, digits and underscores follow.

Main statements:

* `isWord_digits_letterLed`, numerals in base 36 that begin with a letter are
  words;
* `isWord_of_next`, every candidate is a word;
* `isWord_freshName`, so is every fresh name.
-/
import LuaVeil.Proofs.Grammar.Tree
import LuaVeil.Proofs.Names.FreshName
import LuaVeil.Veil.Renaming
import Mathlib.Algebra.Group.Nat.Defs
import Mathlib.Data.List.Basic

namespace LuaVeil

/-! ## Numerals -/

namespace Number

theorem isWordChar_digitChar {d : Nat} (h : d < 36) : isWordChar (digitChar d) = true := by
  have hall : ∀ d < 36, isWordChar (digitChar d) = true := by decide
  exact hall d h

/-- The digits from ten on are letters. -/
theorem isWordStart_digitChar {d : Nat} (hten : 10 ≤ d) (h : d < 36) :
    isWordStart (digitChar d) = true := by
  have hall : ∀ d < 36, 10 ≤ d → isWordStart (digitChar d) = true := by decide
  exact hall d h hten

theorem lt_of_mem_reverseDigits {base n d : Nat} (h : d ∈ reverseDigits base n) : d < base := by
  fun_induction reverseDigits base n with
  | case1 => exact absurd h List.not_mem_nil
  | case2 n hn ih =>
    rcases List.mem_cons.1 h with rfl | h
    · exact Nat.mod_lt n (by omega)
    · exact ih h

/-- The leading digit of a number with `j` more digits. -/
theorem getLast?_reverseDigits {base n j : Nat} (hbase : 2 ≤ base) (hlow : base ^ j ≤ n)
    (hhigh : n < base ^ (j + 1)) : (reverseDigits base n).getLast? = some (n / base ^ j) := by
  have hpos : 0 < base ^ j := Nat.pow_pos (by omega)
  induction j generalizing n with
  | zero =>
    rw [Nat.zero_add, Nat.pow_one] at hhigh
    rw [reverseDigits, dif_neg (by omega), Nat.div_eq_of_lt hhigh, reverseDigits,
      dif_pos (.inl rfl), Nat.mod_eq_of_lt hhigh, Nat.pow_zero, Nat.div_one]
    rfl
  | succ j ih =>
    have hlow' : base ^ j ≤ n / base := by
      rw [Nat.le_div_iff_mul_le (by omega), ← Nat.pow_succ]
      exact hlow
    have hhigh' : n / base < base ^ (j + 1) := by
      rw [Nat.div_lt_iff_lt_mul (by omega), ← Nat.pow_succ]
      exact hhigh
    have hlast := ih hlow' hhigh' (Nat.pow_pos (by omega))
    rw [Nat.div_div_eq_div_mul, ← Nat.pow_succ'] at hlast
    rw [reverseDigits, dif_neg (by omega), List.getLast?_cons, hlast]
    rfl

theorem all_isWordChar_digits {base : Nat} (hbase : base ≤ 36) (n : Nat) :
    ∀ c ∈ digits base n, isWordChar c = true := by
  intro c hc
  unfold digits at hc
  split at hc
  · obtain rfl := List.mem_singleton.1 hc
    decide
  · simp only [List.mem_map, List.mem_reverse] at hc
    obtain ⟨d, hd, rfl⟩ := hc
    exact isWordChar_digitChar (Nat.lt_of_lt_of_le (lt_of_mem_reverseDigits hd) hbase)

/-- A number whose leading digit is a letter has a word as its numeral. -/
theorem isWord_digits {n j : Nat} (hlow : 10 * 36 ^ j ≤ n) (hhigh : n < 36 ^ (j + 1)) :
    isWord (digits 36 n) = true := by
  have hpos : 0 < 36 ^ j := Nat.pow_pos (by omega)
  have hlead := getLast?_reverseDigits (by omega) (by omega) hhigh
  obtain ⟨init, hinit⟩ := List.getLast?_eq_some_iff.1 hlead
  have hlarge : 10 ≤ n / 36 ^ j := by rwa [Nat.le_div_iff_mul_le hpos]
  have hsmall : n / 36 ^ j < 36 := by
    rw [Nat.div_lt_iff_lt_mul hpos, ← Nat.pow_succ']
    exact hhigh
  have hdigits : digits 36 n = digitChar (n / 36 ^ j) :: init.reverse.map digitChar := by
    rw [digits, if_neg (by omega), hinit, List.reverse_append]
    rfl
  have hall := all_isWordChar_digits (Nat.le_refl 36) n
  rw [hdigits] at hall ⊢
  rw [isWord, Bool.and_eq_true, List.all_eq_true]
  exact ⟨isWordStart_digitChar hlarge hsmall, fun c hc => hall c (List.mem_cons_of_mem _ hc)⟩

end Number

/-- The numbers of `letterLedFrom` have a leading digit of at least ten. -/
theorem exists_letterLedFrom (k i : Nat) :
    ∃ j, 10 * 36 ^ j ≤ letterLedFrom (36 ^ k) i ∧ letterLedFrom (36 ^ k) i < 36 ^ (j + 1) := by
  generalize hunit : 36 ^ k = unit
  fun_induction letterLedFrom unit i generalizing k with
  | case1 unit i h =>
    subst hunit
    have hpos : 0 < 36 ^ k := Nat.pow_pos (by omega)
    have hsmall : i < 26 * 36 ^ k := by omega
    refine ⟨k, by omega, ?_⟩
    rw [Nat.pow_succ]
    omega
  | case2 unit i h ih =>
    exact ih (k + 1) (by rw [← hunit, Nat.pow_succ, Nat.mul_comm])

theorem isWord_digits_letterLed (i : Nat) : isWord (Number.digits 36 (letterLed i)) = true := by
  obtain ⟨j, hlow, hhigh⟩ := exists_letterLedFrom 0 i
  exact Number.isWord_digits hlow hhigh

/-! ## Candidates -/

namespace Minting

theorem mem_of_drawChars {alphabet : List Char} {n : Nat} {s : Source} {c : Char}
    (h : c ∈ (drawChars alphabet n s).1) : c ∈ 'a' :: alphabet := by
  induction n generalizing s with
  | zero => exact absurd h List.not_mem_nil
  | succ n ih =>
    have hcons : (drawChars alphabet (n + 1) s).1 =
        (Draw.pick 'a' alphabet s).1 :: (drawChars alphabet n (Draw.pick 'a' alphabet s).2).1 := rfl
    rw [hcons] at h
    rcases List.mem_cons.1 h with rfl | h
    · exact mem_of_pick 'a' alphabet s
    · exact ih h

theorem isWord_of_isLettered {name : Name} (h : IsLettered name) : isWord name = true := by
  obtain ⟨word, rfl, hword⟩ := h
  have hletters : ∀ c ∈ letters, isWordChar c = true := List.all_eq_true.1 (by decide)
  rw [isWord, Bool.and_eq_true, List.all_eq_true]
  exact ⟨by decide, fun c hc => hletters c (hword c hc)⟩

theorem isWord_freshName (m : Mint) : isWord (freshName m).1 = true :=
  isWord_of_isLettered (isLettered_freshName m)

end Minting

namespace Candidates

theorem isWord_of_next (c : Candidates) (s : Source) : isWord (c.next s).1.1 = true := by
  cases c with
  | numerals place => exact isWord_digits_letterLed place
  | hexadecimal number =>
    have hshown : isWord ("_0x".toList ++ Number.digits 16 number) = true := by
      have hdigits := Number.all_isWordChar_digits (by omega : 16 ≤ 36) number
      show (isWordStart '_' && ('0' :: 'x' :: Number.digits 16 number).all isWordChar) = true
      simpa [List.all_eq_true] using ⟨by decide, by decide, by decide, hdigits⟩
    unfold next
    generalize Draw.between .long 1 7 = step
    exact hshown
  | lookAlikes =>
    have hfirst := mem_of_pick 'l' ['l', 'I']
    have hmore : ∀ (s : Source) (c : Char),
        c ∈ (Minting.drawChars ['l', 'I', '1'] lookAlikeTail s).1 → c ∈ ['a', 'l', 'I', '1'] :=
      fun _ _ => Minting.mem_of_drawChars
    have hstart : ∀ c ∈ ['l', 'l', 'I'], isWordStart c = true :=
      List.all_eq_true.1 (by decide)
    have hrest : ∀ c ∈ ['a', 'l', 'I', '1'], isWordChar c = true :=
      List.all_eq_true.1 (by decide)
    -- which words are drawn does not matter any more
    unfold next
    generalize Draw.pick 'l' ['l', 'I'] = first at hfirst ⊢
    generalize Minting.drawChars ['l', 'I', '1'] lookAlikeTail = more at hmore ⊢
    show isWord ((first s).1 :: (more (first s).2).1) = true
    rw [isWord, Bool.and_eq_true, List.all_eq_true]
    exact ⟨hstart _ (hfirst s), fun c hc => hrest c (hmore _ c hc)⟩

theorem isWord_of_claimWithin {tries : Nat} {c : Candidates} {m : Mint}
    {found : Name × Candidates} (h : (claimWithin tries c m).1 = some found) :
    isWord found.1 = true := by
  induction tries generalizing c m with
  | zero => exact absurd h (by simp [claimWithin, Minting.pure_apply])
  | succ tries ih =>
    rw [claimWithin] at h
    simp only [Minting.bind_apply] at h
    split at h
    · obtain rfl := Option.some.inj h
      exact isWord_of_next c m.source
    · exact ih h

theorem isWord_of_bindAll {c : Candidates} {declared : List Name} {m : Mint}
    {bindings : List Binding} (h : (c.bindAll declared m).1 = some bindings) :
    ∀ b ∈ bindings, isWord b.generated = true := by
  induction declared generalizing c m bindings with
  | nil =>
    obtain rfl := Option.some.inj h
    simp
  | cons name declared ih =>
    rw [bindAll] at h
    simp only [Minting.bind_apply] at h
    cases hclaim : (c.claim m).1 with
    | none =>
      rw [hclaim] at h
      exact absurd h (by simp [Minting.pure_apply])
    | some found =>
      rw [hclaim] at h
      obtain ⟨more, hmore, rfl⟩ := Option.map_eq_some_iff.1 h
      intro b hb
      rcases List.mem_cons.1 hb with rfl | hb
      · exact isWord_of_claimWithin hclaim
      · exact ih hmore b hb

end Candidates
end LuaVeil
