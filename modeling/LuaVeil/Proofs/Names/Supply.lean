/-
# Enough names

Candidates in order are all different, so that among as many as there are
unavailable names, and one more, one is free. Renaming at the two lower strengths
therefore finds a name for every variable.

Main statement: `Candidates.isSome_bindAll`.
-/
import LuaVeil.Proofs.Names.Ledger
import LuaVeil.Proofs.Random.Draws
import LuaVeil.Proofs.Veil.Renaming
import Mathlib.Data.List.Perm.Subperm
import Mathlib.Data.Nat.Digits.Defs

namespace LuaVeil

/-! ## Numerals -/

namespace Number

theorem reverseDigits_eq {base : Nat} (hbase : 2 ≤ base) (n : Nat) :
    reverseDigits base n = Nat.digits base n := by
  fun_induction reverseDigits base n with
  | case1 n h =>
    obtain rfl : n = 0 := h.resolve_right (by omega)
    rw [Nat.digits_zero]
  | case2 n h ih => rw [Nat.digits_def' hbase (by omega), ih]

/-- The value of a numeral, with digits up to the letter z. -/
def value (base : Nat) (t : Text) : Nat :=
  Nat.ofDigits base (t.map fun c => (digitValue? 36 c).getD 0).reverse

/-- A numeral has the value of its number. -/
theorem value_digits {base : Nat} (hbase : 2 ≤ base) (hsmall : base ≤ 36) (n : Nat) :
    value base (digits base n) = n := by
  have hvalue : ∀ d < 36, (digitValue? 36 (digitChar d)).getD 0 = d := by decide
  rw [digits]
  split
  · next hzero =>
    subst hzero
    have hmap : (['0'].map fun c => (digitValue? 36 c).getD 0) = [0] := by decide
    rw [value, hmap]
    rfl
  · have hdigits : ((reverseDigits base n).reverse.map digitChar).map
        (fun c => (digitValue? 36 c).getD 0) = (reverseDigits base n).reverse := by
      rw [List.map_map]
      conv_rhs => rw [← List.map_id (reverseDigits base n).reverse]
      refine List.map_congr_left fun d hd => hvalue d ?_
      rw [List.mem_reverse, reverseDigits_eq hbase] at hd
      exact Nat.lt_of_lt_of_le (Nat.digits_lt_base hbase hd) hsmall
    rw [value, hdigits, List.reverse_reverse, reverseDigits_eq hbase, Nat.ofDigits_digits]

/-- Different numbers have different numerals. -/
theorem digits_injective {base : Nat} (hbase : 2 ≤ base) (hsmall : base ≤ 36) :
    Function.Injective (digits base) :=
  Function.LeftInverse.injective (value_digits hbase hsmall)

end Number

/-! ## Candidates in order -/

theorem le_letterLedFrom (unit i : Nat) : 10 * unit ≤ letterLedFrom unit i := by
  fun_induction letterLedFrom unit i with
  | case1 => omega
  | case2 unit i h ih => omega

theorem letterLedFrom_lt {unit i j : Nat} (hunit : unit ≠ 0) (h : i < j) :
    letterLedFrom unit i < letterLedFrom unit j := by
  fun_induction letterLedFrom unit i generalizing j with
  | case1 unit i hi =>
    rw [letterLedFrom]
    split
    · omega
    · have := le_letterLedFrom (36 * unit) (j - 26 * unit)
      omega
  | case2 unit i hi ih =>
    have hj : ¬ (j < 26 * unit ∨ unit = 0) := by omega
    conv_rhs => rw [letterLedFrom, dif_neg hj]
    exact ih (by omega) (by omega)

theorem letterLed_strictMono : StrictMono letterLed :=
  fun _ _ h => letterLedFrom_lt (by decide) h

namespace Candidates

/-- Whether a name may still come when the search is at some candidates in order. -/
def MayCome (name : Name) : Candidates → Prop
  | numerals place => ∃ i, place ≤ i ∧ name = Number.digits 36 (letterLed i)
  | hexadecimal number => ∃ n, number ≤ n ∧ name = "_0x".toList ++ Number.digits 16 n
  | lookAlikes => True

/-- The steps between numbers are not zero. -/
theorem step_pos (s : Source) : 0 < (Draw.between .long 1 7 s).1.toNat := by
  have hlow := (Draw.between_mem .long (by decide : (1 : Int) ≤ 7) s).1
  omega

/-- The next candidate may come, and does not come again. -/
theorem next_spec {c : Candidates} (hc : c ≠ lookAlikes) (s : Source) :
    MayCome (c.next s).1.1 c ∧ (c.next s).1.2 ≠ lookAlikes ∧
      ∀ name, MayCome name (c.next s).1.2 → MayCome name c ∧ name ≠ (c.next s).1.1 := by
  cases c with
  | lookAlikes => exact absurd rfl hc
  | numerals place =>
    refine ⟨⟨place, Nat.le_refl _, rfl⟩, nofun, ?_⟩
    rintro _ ⟨i, hi, rfl⟩
    refine ⟨⟨i, by omega, rfl⟩, fun heq => ?_⟩
    have := letterLed_strictMono.injective (Number.digits_injective (by omega) (by omega) heq)
    omega
  | hexadecimal number =>
    obtain ⟨step, hpos, hnext⟩ : ∃ step : Nat, 0 < step ∧ (next (hexadecimal number) s).1 =
        ("_0x".toList ++ Number.digits 16 number, hexadecimal (number + step)) :=
      ⟨(Draw.between .long 1 7 s).1.toNat, step_pos s, rfl⟩
    rw [hnext]
    refine ⟨⟨number, Nat.le_refl _, rfl⟩, nofun, ?_⟩
    rintro _ ⟨n, hn, rfl⟩
    refine ⟨⟨n, by omega, rfl⟩, fun heq => ?_⟩
    have := Number.digits_injective (by omega) (by omega) (List.append_cancel_left heq)
    omega

/--
A search among candidates in order finds one and stays in order, or it has met as many unavailable
names as it had tries.
-/
theorem claimWithin_spec {tries : Nat} {c : Candidates} {m : Mint} (hc : c ≠ lookAlikes) :
    (∃ name next, (claimWithin tries c m).1 = some (name, next) ∧ next ≠ lookAlikes) ∨
      ∃ names : List Name, names.length = tries ∧ names.Nodup ∧
        ∀ name ∈ names, MayCome name c ∧ name ∈ m.names.unavailable := by
  induction tries generalizing c m with
  | zero => exact .inr ⟨[], rfl, .nil, fun _ hname => by cases hname⟩
  | succ tries ih =>
    have hspec := next_spec hc m.source
    rcases hnext : c.next m.source with ⟨⟨first, next⟩, source⟩
    rw [hnext] at hspec
    obtain ⟨hcomes, hlater, hnever⟩ := hspec
    rw [claimWithin_succ hnext]
    split
    · exact .inl ⟨first, next, rfl, hlater⟩
    · next hmiss =>
      rw [Namespace.isAvailable_iff, not_not] at hmiss
      obtain hfound | ⟨names, hlength, hnodup, hnames⟩ := @ih next ⟨m.names, source⟩ hlater
      · exact .inl hfound
      · refine .inr ⟨first :: names, congrArg (· + 1) hlength,
          List.nodup_cons.2 ⟨fun hmem => ?_, hnodup⟩,
          List.forall_mem_cons.2 ⟨⟨hcomes, hmiss⟩, fun name hname => ?_⟩⟩
        · exact (hnever _ (hnames _ hmem).1).2 rfl
        · exact ⟨(hnever _ (hnames _ hname).1).1, (hnames _ hname).2⟩

theorem claim_eq (c : Candidates) (m : Mint) :
    c.claim m = claimWithin (c.patience m.names) c m := rfl

/-- Candidates in order do not run out. -/
theorem exists_claim {c : Candidates} (hc : c ≠ lookAlikes) (m : Mint) :
    ∃ name next, (c.claim m).1 = some (name, next) ∧ next ≠ lookAlikes := by
  have hpatience : c.patience m.names = m.names.unavailable.length + 1 := by
    cases c with
    | lookAlikes => exact absurd rfl hc
    | numerals _ => rfl
    | hexadecimal _ => rfl
  rw [claim_eq]
  refine (claimWithin_spec hc).resolve_right ?_
  rintro ⟨names, hlength, hnodup, hnames⟩
  have hle := (hnodup.subperm fun name hname => (hnames name hname).2).length_le
  omega

/-- Among candidates in order there is a new name for every variable. -/
theorem isSome_bindAll {c : Candidates} (hc : c ≠ lookAlikes) (declared : List Name) (m : Mint) :
    (c.bindAll declared m).1.isSome = true := by
  induction declared generalizing c m with
  | nil => rfl
  | cons name declared ih =>
    obtain ⟨generated, next, hclaim, hnext⟩ := exists_claim hc m
    rw [bindAll]
    simp only [Minting.bind_apply, hclaim]
    show ((bindAll next declared (c.claim m).2).1.map _).isSome = true
    rw [Option.isSome_map]
    exact ih hnext _

end Candidates

/-- Renaming at the lower strengths has names enough. -/
theorem isSome_renameLocals {strength : Strength} (h : strength ≠ .high) (spans : List Span)
    (m : Mint) : (renameLocals strength spans m).1.isSome = true := by
  have hstart : (Candidates.start strength m.source).1 ≠ .lookAlikes := by
    cases strength with
    | low => exact Candidates.noConfusion
    | medium =>
      have hmedium : ∃ n, (Candidates.start .medium m.source).1 = .hexadecimal n := ⟨_, rfl⟩
      obtain ⟨n, hn⟩ := hmedium
      rw [hn]
      exact Candidates.noConfusion
    | high => exact absurd rfl h
  by_cases hnil : (resolve m.names.reserved (occurrences spans)).declared = []
  · rw [renameLocals_of_nil hnil]
    rfl
  · rw [renameLocals_of_ne_nil hnil, Option.isSome_map]
    exact Candidates.isSome_bindAll hstart _ _

end LuaVeil
