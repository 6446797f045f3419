/-
# Numerals that are read back

`readDigits` reads what `digits` writes, in every base up to 36. Zeros in front do not count,
and letters count alike in both cases.

Main statements: `readDigits_digits`, `readDigits_zeros`, `readDigits_toLowerAscii` and `hex_inj`.
-/
import LuaVeil.Number.Digits

namespace LuaVeil.Number

/-- A digit has the same value in every base that allows it. -/
theorem digitValue?_eq {base : Nat} (hbase : base ≤ 36) (c : Char) :
    digitValue? base c = (digitValue? 36 c).filter (· < base) := by
  have hless : (fun d => decide (d < base)) =
      fun d : Nat => decide (d < 36) && decide (d < base) := by
    funext d
    rw [← Bool.decide_and]
    exact decide_eq_decide.2 (by omega)
  unfold digitValue?
  dsimp only
  rw [Option.filter_filter, hless]

theorem digitValue?_digitChar {base d : Nat} (hbase : base ≤ 36) (hd : d < base) :
    digitValue? base (digitChar d) = some d := by
  have hall : ∀ d < 36, digitValue? 36 (digitChar d) = some d := by decide
  rw [digitValue?_eq hbase, hall d (Nat.lt_of_lt_of_le hd hbase)]
  exact Option.filter_eq_some_iff.2 ⟨rfl, by simpa using hd⟩

theorem readDigits_append (base : Nat) (s t : Text) : readDigits base (s ++ t) =
    (readDigits base s).bind fun value =>
      t.foldlM (fun value c => (digitValue? base c).map (value * base + ·)) value :=
  List.foldlM_append

/-- The digits of a number have its value. -/
theorem readDigits_reverseDigits {base : Nat} (hbase : 2 ≤ base) (hsmall : base ≤ 36) (n : Nat) :
    readDigits base ((reverseDigits base n).reverse.map digitChar) = some n := by
  fun_induction reverseDigits base n with
  | case1 n h =>
    obtain rfl : n = 0 := by omega
    rfl
  | case2 n h ih =>
    have hdigit := digitValue?_digitChar hsmall (Nat.mod_lt n (by omega : 0 < base))
    rw [List.reverse_cons, List.map_append, readDigits_append, ih]
    show ((digitValue? base (digitChar (n % base))).map (n / base * base + ·)).bind _ = some n
    rw [hdigit]
    exact congrArg some (Nat.div_add_mod' n base)

/-- A numeral is read as its number. -/
theorem readDigits_digits {base : Nat} (hbase : 2 ≤ base) (hsmall : base ≤ 36) (n : Nat) :
    readDigits base (digits base n) = some n := by
  unfold digits
  split
  · next hzero =>
    have hdigit := digitValue?_digitChar hsmall (by omega : 0 < base)
    show ((digitValue? base (digitChar 0)).map (0 * base + ·)).bind some = some n
    rw [hdigit, hzero, Nat.zero_mul]
    rfl
  · exact readDigits_reverseDigits hbase hsmall n

theorem readDigits_decimal (n : Nat) : readDigits 10 (decimal n) = some n :=
  readDigits_digits (by decide) (by decide) n

theorem digits_ne_nil {base : Nat} (hbase : 2 ≤ base) (n : Nat) : digits base n ≠ [] := by
  unfold digits
  split
  · exact List.cons_ne_nil _ _
  · next hn =>
    rw [reverseDigits, dif_neg (by omega)]
    simp

/-- Zeros in front of a numeral do not count. -/
theorem readDigits_zeros {base : Nat} (hbase : base ≤ 36) (hpos : 0 < base) (zeros : Nat)
    (t : Text) : readDigits base (List.replicate zeros '0' ++ t) = readDigits base t := by
  have hzero : digitValue? base '0' = some 0 := digitValue?_digitChar hbase hpos
  induction zeros with
  | zero => rfl
  | succ zeros ih =>
    rw [List.replicate_succ, List.cons_append, ← ih]
    show ((digitValue? base '0').map (0 * base + ·)).bind _ = _
    rw [hzero, Option.map_some, Option.bind_some, Nat.zero_mul]
    rfl

/-! ## Small letters and capitals -/

theorem exists_of_isUpper {c : Char} (h : c.isUpper = true) :
    ∃ k < 26, c = Char.ofNat (65 + k) := by
  obtain ⟨hlow, hhigh⟩ := of_decide_eq_true h
  have hrange : 65 ≤ c.toNat ∧ c.toNat ≤ 90 :=
    ⟨UInt32.le_iff_toNat_le.1 hlow, UInt32.le_iff_toNat_le.1 hhigh⟩
  refine ⟨c.toNat - 65, by omega, ?_⟩
  rw [Nat.add_sub_cancel' hrange.1, Char.ofNat_toNat]

/-- Letters count alike in both cases. -/
theorem digitValue?_toLower {base : Nat} (hbase : base ≤ 36) (c : Char) :
    digitValue? base c.toLower = digitValue? base c := by
  cases hupper : c.isUpper with
  | false =>
    have hsame : c.toLower = c := dif_neg (of_decide_eq_false hupper)
    rw [hsame]
  | true =>
    have hall : ∀ k < 26, digitValue? 36 (Char.ofNat (65 + k)).toLower =
        digitValue? 36 (Char.ofNat (65 + k)) := by
      decide
    obtain ⟨k, hk, rfl⟩ := exists_of_isUpper hupper
    rw [digitValue?_eq hbase, digitValue?_eq hbase, hall k hk]

/-- A numeral with small letters for capitals has the same value. -/
theorem readDigits_toLowerAscii {base : Nat} (hbase : base ≤ 36) (t : Text) :
    readDigits base (Text.toLowerAscii t) = readDigits base t := by
  unfold readDigits Text.toLowerAscii
  rw [List.foldlM_map]
  simp only [digitValue?_toLower hbase]

/-! ## Bytes in hexadecimal -/

/-- The two digits of a byte have its value. -/
theorem readDigits_hexByte (b : UInt8) : readDigits 16 (hexByte b) = some b.toNat := by
  have hall : ∀ n < 256, readDigits 16 (hexByte (UInt8.ofNat n)) = some n := by decide +kernel
  simpa using hall b.toNat b.toNat_lt

theorem hexByte_inj {a b : UInt8} : hexByte a = hexByte b ↔ a = b := by
  refine ⟨fun h => ?_, congrArg hexByte⟩
  have hvalue := congrArg (readDigits 16) h
  rw [readDigits_hexByte, readDigits_hexByte] at hvalue
  exact UInt8.toNat_inj.1 (Option.some.inj hvalue)

theorem hex_cons (b : UInt8) (bytes : List UInt8) : hex (b :: bytes) = hexByte b ++ hex bytes :=
  List.flatMap_cons

@[simp] theorem length_hex (bytes : List UInt8) : (hex bytes).length = 2 * bytes.length := by
  induction bytes with
  | nil => rfl
  | cons b bytes ih =>
    rw [hex_cons, List.length_append, ih, List.length_cons, Nat.mul_succ, Nat.add_comm]
    rfl

/-- Bytes are known from their digits. -/
theorem hex_inj {xs ys : List UInt8} : hex xs = hex ys ↔ xs = ys := by
  refine ⟨fun h => ?_, congrArg hex⟩
  induction xs generalizing ys with
  | nil =>
    have hlength := congrArg List.length h
    rw [length_hex, length_hex, List.length_nil] at hlength
    exact (List.length_eq_zero_iff.1 (by omega)).symm
  | cons x xs ih =>
    cases ys with
    | nil => simp [hex, hexByte] at h
    | cons y ys =>
      rw [hex_cons, hex_cons] at h
      obtain ⟨hfirst, hrest⟩ := List.append_inj h rfl
      rw [hexByte_inj.1 hfirst, ih hrest]

end LuaVeil.Number
