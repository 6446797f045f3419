/-
# Seeds in hexadecimal

A seed is written with `0x` in front and small letters. What is read is 64 hexadecimal digits of
either case, with or without `0x`, and they stand for the seed that is written with these digits
in small letters. Everything else is refused, with the size of what should be the digits, or with
the first byte among them that is none.

Main statements:

* `readPairs_of_digits` and `readPairs_of_bad`, what is read of pairs of digits;
* `seed_notation`, writing and reading a seed.
-/
import LuaVeil.Job.Failure
import LuaVeil.Proofs.Number.Numerals
import LuaVeil.Proofs.Text.Utf8

namespace LuaVeil.Seed

/-! ## Digits -/

/-- The hexadecimal digits, in either case. -/
def hexDigits : Text := "0123456789abcdefABCDEF".toList

/-- A text without the `0x` that may stand in front. -/
def withoutMark : Text → Text
  | '0' :: 'x' :: t => t
  | t => t

/-- Why a text is no seed: for its size in bytes, or else for the first byte that is no digit. -/
inductive Refused (digits : Text) : SeedError → Prop
  | size (h : Text.byteSize digits ≠ 64) : Refused digits (.size (Text.byteSize digits))
  | digit {front back : List UInt8} {b : UInt8} (hsize : Text.byteSize digits = 64)
      (hbytes : Text.utf8 digits = front ++ b :: back)
      (hfront : ∀ x ∈ front, x ∈ Text.utf8 hexDigits) (hb : b ∉ Text.utf8 hexDigits) :
      Refused digits (.digit b front.length)

/-- The bytes of digits are those that have a value. -/
theorem hexDigit?_isSome_iff (b : UInt8) :
    (hexDigit? b).isSome = true ↔ b ∈ Text.utf8 hexDigits := by
  have hall : ∀ n < 256, ((hexDigit? (UInt8.ofNat n)).isSome = true ↔
      UInt8.ofNat n ∈ Text.utf8 hexDigits) := by decide +kernel
  simpa using hall b.toNat b.toNat_lt

theorem hexDigit?_eq_none_iff (b : UInt8) : hexDigit? b = none ↔ b ∉ Text.utf8 hexDigits := by
  rw [← hexDigit?_isSome_iff, Bool.not_eq_true, Option.isSome_eq_false_iff, Option.isNone_iff_eq_none]

/-- A digit is one byte, and its value is written as its small letter. -/
theorem exists_hexDigit? {c : Char} (hc : c ∈ hexDigits) : ∃ b v, String.utf8EncodeChar c = [b] ∧
    hexDigit? b = some v ∧ v.toNat < 16 ∧ Number.digitChar v.toNat = c.toLower := by
  have hall : (hexDigits.all fun c => String.utf8EncodeChar c == [UInt8.ofNat c.toNat] &&
      (hexDigit? (UInt8.ofNat c.toNat)).any fun v =>
        v.toNat < 16 && Number.digitChar v.toNat == c.toLower) = true := by decide +kernel
  have hchar := List.all_eq_true.1 hall c hc
  rw [Bool.and_eq_true, beq_iff_eq] at hchar
  obtain ⟨hbytes, hvalue⟩ := hchar
  cases hv : hexDigit? (UInt8.ofNat c.toNat) with
  | none =>
    rw [hv] at hvalue
    cases hvalue
  | some v =>
    rw [hv, Option.any_some, Bool.and_eq_true, decide_eq_true_iff, beq_iff_eq] at hvalue
    exact ⟨_, v, hbytes, hv, hvalue⟩

/-- Two values below 16 make the byte that is written with their digits. -/
theorem hexByte_pair {h l : UInt8} (hh : h.toNat < 16) (hl : l.toNat < 16) :
    Number.hexByte (16 * h + l) = [Number.digitChar h.toNat, Number.digitChar l.toNat] := by
  have hvalue : (16 * h + l).toNat = 16 * h.toNat + l.toNat := by
    rw [UInt8.toNat_add, UInt8.toNat_mul]
    show (16 * h.toNat % 256 + l.toNat) % 256 = _
    omega
  have hhigh : (16 * h + l).toNat / 16 = h.toNat := by omega
  have hlow : (16 * h + l).toNat % 16 = l.toNat := by omega
  rw [Number.hexByte, hhigh, hlow]

/-! ## Pairs of digits -/

/-- Pairs of digits are read as the bytes that are written with them in small letters. -/
theorem readPairs_of_digits (place : Nat) : ∀ {digits : Text}, (∀ c ∈ digits, c ∈ hexDigits) →
    digits.length % 2 = 0 → ∃ bytes, readPairs place (Text.utf8 digits) = .ok bytes ∧
      Number.hex bytes = Text.toLowerAscii digits
  | [], _, _ => ⟨[], rfl, rfl⟩
  | [_], _, heven => by simp at heven
  | c :: d :: digits, hdigits, heven => by
    obtain ⟨hc, hd, hdigits⟩ : c ∈ hexDigits ∧ d ∈ hexDigits ∧ ∀ c ∈ digits, c ∈ hexDigits := by
      simpa using hdigits
    rw [List.length_cons, List.length_cons, Nat.add_assoc, Nat.add_mod_right] at heven
    obtain ⟨bytes, hread, hhex⟩ := readPairs_of_digits (place + 2) hdigits heven
    obtain ⟨a, h, ha, hh, hhigh, hclow⟩ := exists_hexDigit? hc
    obtain ⟨b, l, hb, hl, hlow, hdlow⟩ := exists_hexDigit? hd
    have hbytes : Text.utf8 (c :: d :: digits) = a :: b :: Text.utf8 digits := by
      simp only [Text.utf8, List.flatMap_cons, ha, hb]
      rfl
    refine ⟨(16 * h + l) :: bytes, ?_, ?_⟩
    · rw [hbytes, readPairs, hh, hl, hread]
      rfl
    · rw [Number.hex_cons, hexByte_pair hhigh hlow, hclow, hdlow, hhex]
      rfl

/-- The first byte that is no digit is told, with its place. -/
theorem readPairs_of_bad (place : Nat) {b : UInt8} {back : List UInt8}
    (hb : b ∉ Text.utf8 hexDigits) : ∀ {front : List UInt8}, (∀ x ∈ front, x ∈ Text.utf8 hexDigits) →
      (front ++ b :: back).length % 2 = 0 →
      readPairs place (front ++ b :: back) = .error (.digit b (place + front.length))
  | [], _, heven => by
    cases back with
    | nil => simp at heven
    | cons low back =>
      rw [List.nil_append, readPairs, (hexDigit?_eq_none_iff b).2 hb]
      rfl
  | [h], hfront, _ => by
    have hh := (hexDigit?_isSome_iff h).2 (hfront h List.mem_cons_self)
    obtain ⟨v, hv⟩ := Option.isSome_iff_exists.1 hh
    rw [List.singleton_append, readPairs, hv, (hexDigit?_eq_none_iff b).2 hb]
    rfl
  | h :: l :: front, hfront, heven => by
    obtain ⟨hh, hl, hfront⟩ : h ∈ Text.utf8 hexDigits ∧ l ∈ Text.utf8 hexDigits ∧
        ∀ x ∈ front, x ∈ Text.utf8 hexDigits := by simpa using hfront
    obtain ⟨v, hv⟩ := Option.isSome_iff_exists.1 ((hexDigit?_isSome_iff h).2 hh)
    obtain ⟨w, hw⟩ := Option.isSome_iff_exists.1 ((hexDigit?_isSome_iff l).2 hl)
    rw [List.cons_append, List.cons_append, List.length_cons, List.length_cons, Nat.add_assoc,
      Nat.add_mod_right] at heven
    have hmore := readPairs_of_bad (place + 2) hb hfront heven
    rw [List.cons_append, List.cons_append, readPairs, hv, hw, hmore, List.length_cons,
      List.length_cons]
    simp only [Except.map]
    congr 2
    omega

/-- Bytes that are not all digits have a first one that is none. -/
theorem exists_first_bad {bytes : List UInt8} (h : ¬ ∀ b ∈ bytes, b ∈ Text.utf8 hexDigits) :
    ∃ front b back, bytes = front ++ b :: back ∧ (∀ x ∈ front, x ∈ Text.utf8 hexDigits) ∧
      b ∉ Text.utf8 hexDigits := by
  induction bytes with
  | nil => exact absurd (by simp) h
  | cons b bytes ih =>
    by_cases hb : b ∈ Text.utf8 hexDigits
    · obtain ⟨front, bad, back, rfl, hfront, hbad⟩ :=
        ih fun hall => h (List.forall_mem_cons.2 ⟨hb, hall⟩)
      exact ⟨b :: front, bad, back, rfl, List.forall_mem_cons.2 ⟨hb, hfront⟩, hbad⟩
    · exact ⟨[], b, bytes, rfl, by simp, hb⟩

/-- The bytes of a text are those of digits exactly if its characters are digits. -/
theorem utf8_digits_iff (t : Text) :
    (∀ b ∈ Text.utf8 t, b ∈ Text.utf8 hexDigits) ↔ ∀ c ∈ t, c ∈ hexDigits := by
  have hall : (Text.utf8 hexDigits).all (fun b => b.toNat < 128) = true := by decide
  have hascii : ∀ b ∈ Text.utf8 hexDigits, b.toNat < 128 := by simpa using hall
  constructor
  · intro h c hc
    obtain ⟨b, bytes, hcode⟩ := List.exists_cons_of_ne_nil (@String.utf8EncodeChar_ne_nil c)
    have hb : b ∈ String.utf8EncodeChar c := hcode ▸ List.mem_cons_self
    have hdigit := h b (List.mem_flatMap.2 ⟨c, hc, hb⟩)
    have hvalue := (Text.mem_utf8EncodeChar_iff (hascii b hdigit)).1 hb
    have hmem := (Text.mem_utf8_iff (hascii b hdigit)).1 hdigit
    rwa [← hvalue, Char.ofNat_toNat] at hmem
  · intro h b hb
    obtain ⟨c, hc, hmem⟩ := List.mem_flatMap.1 hb
    exact List.mem_flatMap.2 ⟨c, h c hc, hmem⟩

/-- A text of digits has as many bytes as characters. -/
theorem byteSize_of_digits {t : Text} (h : ∀ c ∈ t, c ∈ hexDigits) : Text.byteSize t = t.length := by
  have hall : hexDigits.all (fun c => c.utf8Size == 1) = true := by decide
  have hone : ∀ c ∈ hexDigits, c.utf8Size = 1 := by simpa using hall
  induction t with
  | nil => rfl
  | cons c t ih =>
    obtain ⟨hc, ht⟩ := List.forall_mem_cons.1 h
    rw [Text.byteSize_cons, hone c hc, ih ht, List.length_cons, Nat.add_comm]

/-! ## Seeds -/

theorem withoutMark_eq (t : Text) :
    withoutMark t = if "0x".toList.isPrefixOf t then t.drop 2 else t := by
  unfold withoutMark
  split
  · rfl
  · next hmark =>
    rw [if_neg]
    intro hprefix
    obtain ⟨digits, hdigits⟩ := List.isPrefixOf_iff_prefix.1 hprefix
    exact hmark digits hdigits.symm

/-- The bytes of a seed are read of what stands behind `0x`, if the size is right. -/
theorem map_bytes_ofHex (t : Text) : (ofHex t).map Seed.bytes =
    if Text.byteSize (withoutMark t) = 64 then readPairs 0 (Text.utf8 (withoutMark t))
    else .error (.size (Text.byteSize (withoutMark t))) := by
  rw [← Text.length_utf8, withoutMark_eq]
  rw [ofHex]
  by_cases hsize : (Text.utf8 (if "0x".toList.isPrefixOf t then t.drop 2 else t)).length = 64
  · rw [dif_pos hsize, if_pos hsize]
    split
    · next hread => exact hread.symm
    · next hread => exact hread.symm
  · rw [dif_neg hsize, if_neg hsize]
    rfl

theorem ext_bytes {s s' : Seed} (h : s.bytes = s'.bytes) : s = s' := by
  cases s
  cases h
  rfl

theorem ofHex_eq_error_iff {t : Text} {e : SeedError} :
    ofHex t = .error e ↔ (ofHex t).map Seed.bytes = .error e := by
  cases ofHex t <;> simp [Except.map]

theorem ofHex_eq_ok_iff {t : Text} {s : Seed} :
    ofHex t = .ok s ↔ (ofHex t).map Seed.bytes = .ok s.bytes := by
  cases ofHex t with
  | error e => simp [Except.map]
  | ok s' => simpa [Except.map] using ⟨congrArg Seed.bytes, ext_bytes⟩

/-- What is no notation of a seed is refused. -/
theorem ofHex_of_refused {t : Text} {e : SeedError} (h : Refused (withoutMark t) e) :
    ofHex t = .error e := by
  rw [ofHex_eq_error_iff, map_bytes_ofHex]
  cases h with
  | size hsize => rw [if_neg hsize]
  | @digit front back b hsize hbytes hfront hb =>
    have hlength : (front ++ b :: back).length % 2 = 0 := by
      rw [← hbytes, Text.length_utf8, hsize]
    rw [if_pos hsize, hbytes, readPairs_of_bad 0 hb hfront hlength, Nat.zero_add]

/-- A text of 64 digits, with or without `0x`, is read as the seed that is written with them. -/
theorem ofHex_of_digits {t : Text} (hlength : (withoutMark t).length = 64)
    (hdigits : ∀ c ∈ withoutMark t, c ∈ hexDigits) :
    ∃ s, ofHex t = .ok s ∧ s.toHex = "0x".toList ++ Text.toLowerAscii (withoutMark t) := by
  obtain ⟨bytes, hread, hhex⟩ := readPairs_of_digits 0 hdigits (by rw [hlength])
  have hsize : bytes.length = 32 := by
    have hlow := congrArg List.length hhex
    rw [Number.length_hex, Text.toLowerAscii, List.length_map, hlength] at hlow
    omega
  refine ⟨⟨bytes, hsize⟩, ?_, by rw [toHex, hhex]⟩
  rw [ofHex_eq_ok_iff, map_bytes_ofHex, if_pos ((byteSize_of_digits hdigits).trans hlength), hread]

/-- A text has 64 digits, or there is a reason to refuse it. -/
theorem digits_or_refused (digits : Text) :
    (digits.length = 64 ∧ ∀ c ∈ digits, c ∈ hexDigits) ∨ ∃ e, Refused digits e := by
  by_cases hsize : Text.byteSize digits = 64
  · by_cases hall : ∀ b ∈ Text.utf8 digits, b ∈ Text.utf8 hexDigits
    · have hdigits := (utf8_digits_iff digits).1 hall
      exact .inl ⟨(byteSize_of_digits hdigits).symm.trans hsize, hdigits⟩
    · obtain ⟨front, b, back, hbytes, hfront, hb⟩ := exists_first_bad hall
      exact .inr ⟨_, .digit hsize hbytes hfront hb⟩
  · exact .inr ⟨_, .size hsize⟩

/-- The digits that a seed is written with. -/
theorem withoutMark_toHex (s : Seed) : withoutMark s.toHex = Number.hex s.bytes := rfl

theorem mem_hex {bytes : List UInt8} {c : Char} (hc : c ∈ Number.hex bytes) :
    c ∈ hexDigits ∧ c.toLower = c := by
  have hall : ∀ d < 16, Number.digitChar d ∈ hexDigits ∧
      (Number.digitChar d).toLower = Number.digitChar d := by decide
  obtain ⟨b, -, hc⟩ := List.mem_flatMap.1 hc
  have hb := b.toNat_lt
  rw [Number.hexByte, List.mem_cons, List.mem_singleton] at hc
  rcases hc with rfl | rfl <;> exact hall _ (by omega)

/-- A seed that is written is read. -/
theorem ofHex_toHex (s : Seed) : ofHex s.toHex = .ok s := by
  have hdigits : ∀ c ∈ withoutMark s.toHex, c ∈ hexDigits := fun c hc => (mem_hex hc).1
  have hlength : (withoutMark s.toHex).length = 64 := by
    rw [withoutMark_toHex, Number.length_hex, s.length_bytes]
  have hlower : Text.toLowerAscii (withoutMark s.toHex) = Number.hex s.bytes := by
    rw [withoutMark_toHex]
    exact (List.map_congr_left fun c hc => (mem_hex hc).2).trans (List.map_id _)
  obtain ⟨s', hs', hhex⟩ := ofHex_of_digits hlength hdigits
  rw [hlower, toHex, List.append_right_inj, Number.hex_inj] at hhex
  rw [hs', ext_bytes hhex]

/-- A text that is no seed is told of as the fault of the request. -/
theorem message_seed (e : SeedError) :
    (Failure.request (.seed e)).message = "Invalid request: ".toList ++ e.message := by
  unfold Failure.message RequestError.detail
  rfl

theorem message_size (size : Nat) : (Failure.request (.seed (.size size))).message =
    "Invalid request: seed must be 64 hex digits, got ".toList ++ Number.decimal size := by
  have hjoin : "Invalid request: ".toList ++ "seed must be 64 hex digits, got ".toList =
      "Invalid request: seed must be 64 hex digits, got ".toList := by simp
  rw [message_seed, ← hjoin, List.append_assoc]
  unfold SeedError.message
  rfl

theorem message_digit (b : UInt8) (place : Nat) :
    (Failure.request (.seed (.digit b place))).message =
      "Invalid request: invalid seed hex: Invalid character ".toList ++
        quoteChar (Char.ofNat b.toNat) ++ " at position ".toList ++ Number.decimal place := by
  have hjoin : "Invalid request: ".toList ++ "invalid seed hex: Invalid character ".toList =
      "Invalid request: invalid seed hex: Invalid character ".toList := by simp
  rw [message_seed, ← hjoin, List.append_assoc, List.append_assoc, List.append_assoc,
    ← List.append_assoc ("invalid seed hex: Invalid character ".toList),
    ← List.append_assoc (_ ++ _)]
  unfold SeedError.message
  rfl

/--
Writing and reading a seed. What is written is read. What is read is 64 hexadecimal digits, with or
without `0x` in front, and the seed is written with these digits in small letters. Every other text
is refused, either for the size of what stands behind `0x` or, if the size is right, for the first
byte that is no digit, and the message names the size, or the byte and its place.
-/
theorem seed_notation :
    (∀ s : Seed, ofHex s.toHex = .ok s) ∧
    (∀ t, (∃ s, ofHex t = .ok s) ↔
      (withoutMark t).length = 64 ∧ ∀ c ∈ withoutMark t, c ∈ hexDigits) ∧
    (∀ t s, ofHex t = .ok s → s.toHex = "0x".toList ++ Text.toLowerAscii (withoutMark t)) ∧
    (∀ t e, ofHex t = .error e ↔ Refused (withoutMark t) e) ∧
    (∀ size, (Failure.request (.seed (.size size))).message =
      "Invalid request: seed must be 64 hex digits, got ".toList ++ Number.decimal size) ∧
    ∀ b place, (Failure.request (.seed (.digit b place))).message =
      "Invalid request: invalid seed hex: Invalid character ".toList ++
        quoteChar (Char.ofNat b.toNat) ++ " at position ".toList ++ Number.decimal place := by
  have hread : ∀ t s, ofHex t = .ok s →
      ((withoutMark t).length = 64 ∧ ∀ c ∈ withoutMark t, c ∈ hexDigits) ∧
        s.toHex = "0x".toList ++ Text.toLowerAscii (withoutMark t) := by
    intro t s hs
    rcases digits_or_refused (withoutMark t) with ⟨hlength, hdigits⟩ | ⟨e, he⟩
    · obtain ⟨s', hs', hhex⟩ := ofHex_of_digits hlength hdigits
      obtain rfl := Except.ok.inj (hs.symm.trans hs')
      exact ⟨⟨hlength, hdigits⟩, hhex⟩
    · rw [ofHex_of_refused he] at hs
      cases hs
  refine ⟨ofHex_toHex, fun t => ⟨fun ⟨s, hs⟩ => (hread t s hs).1, fun ⟨hlength, hdigits⟩ => ?_⟩,
    fun t s hs => (hread t s hs).2, fun t e => ⟨fun h => ?_, ofHex_of_refused⟩, message_size,
    message_digit⟩
  · obtain ⟨s, hs, -⟩ := ofHex_of_digits hlength hdigits
    exact ⟨s, hs⟩
  · rcases digits_or_refused (withoutMark t) with ⟨hlength, hdigits⟩ | ⟨e', he'⟩
    · obtain ⟨s, hs, -⟩ := ofHex_of_digits hlength hdigits
      rw [hs] at h
      cases h
    · rw [ofHex_of_refused he'] at h
      exact Except.error.inj h ▸ he'

/-- Capitals are read as small letters, and of 64 bytes the first of a longer character is told. -/
theorem capitals_read :
    let capitals := "0x".toList ++ List.replicate 64 'A'
    let accented := List.replicate 62 'a' ++ ['é']
    (∃ s, ofHex capitals = .ok s ∧ s.toHex = "0x".toList ++ List.replicate 64 'a') ∧
      ofHex accented = .error (.digit 0xC3 62) := by
  intro capitals accented
  obtain ⟨-, hread, hwritten, hrefused, -⟩ := seed_notation
  obtain ⟨s, hs⟩ := (hread capitals).2
    ⟨by decide, List.forall_mem_replicate.2 (.inr (by decide))⟩
  have hbad : Refused (withoutMark accented) (.digit 0xC3 (List.replicate 62 (97 : UInt8)).length) :=
    @Refused.digit _ _ [0xA9] _ (by decide) (by decide +kernel)
      (List.forall_mem_replicate.2 (.inr (by decide))) (by decide)
  refine ⟨⟨s, hs, ?_⟩, (hrefused accented _).2 hbad⟩
  rw [hwritten capitals s hs]
  decide +kernel

end LuaVeil.Seed
