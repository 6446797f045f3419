/-
# Spellings of bytes

The bytes of a short string can be written in many ways: as characters, as numbers, by name,
as code points. `Spelling` lists these ways, and `SpellsBytes` is a text in which they are
chosen freely, with blanks behind `\z` wherever these cannot swallow what comes next.

No spelling takes the beginning of the next one. Main statement: `unescape_spelled`, every
text that spells some bytes stands for these bytes.
-/
import LuaVeil.Proofs.Lua.EscapeDialects
import LuaVeil.Proofs.Number.Numerals

namespace LuaVeil

/-! ## Ways to write bytes -/

/-- The ways to write one byte, or the bytes of one character. -/
inductive Spelling : Text → List UInt8 → Prop
  /-- a character as it is -/
  | plain {c : Char} (h : c ≠ '\\') : Spelling [c] (Text.utf8 [c])
  /-- three decimal digits -/
  | decimal (byte : UInt8) : Spelling ('\\' :: Number.padded 3 byte.toNat) [byte]
  /-- two hexadecimal digits of either case -/
  | hex {high low : Char} {byte : UInt8}
      (h : Text.toLowerAscii [high, low] = Number.hexByte byte) :
      Spelling ['\\', 'x', high, low] [byte]
  /-- the letter of a control character -/
  | named {c : Char} {byte : UInt8} (h : (c, byte) ∈ Lua51.controls) : Spelling ['\\', c] [byte]
  /-- a quote or a backslash -/
  | marked {c : Char} (h : isQuote c = true ∨ c = '\\') : Spelling ['\\', c] (Text.utf8 [c])
  /-- a code point in hexadecimal digits of either case, with any number of zeros in front -/
  | codePoint {digits : Text} {zeros : Nat} {c : Char}
      (h : Text.toLowerAscii digits = List.replicate zeros '0' ++ Number.digits 16 c.toNat) :
      Spelling ('\\' :: 'u' :: '{' :: (digits ++ ['}'])) (Text.utf8 [c])

/-- Spellings in a row, and the bytes that they spell. -/
inductive SpellsBytes : Text → List UInt8 → Prop
  | nil : SpellsBytes [] []
  | cons {u t : Text} {bytes more : List UInt8} (hu : Spelling u bytes) (h : SpellsBytes t more) :
      SpellsBytes (u ++ t) (bytes ++ more)
  /-- blanks behind `\z`, if what comes next does not begin with a blank -/
  | skip {w t : Text} {bytes : List UInt8} (hw : ∀ c ∈ w, Text.isAsciiBlank c = true)
      (ht : ∀ c, t.head? = some c → Text.isAsciiBlank c = false) (h : SpellsBytes t bytes) :
      SpellsBytes ('\\' :: 'z' :: (w ++ t)) bytes

/-! ## What an escape takes of a spelling -/

namespace Escape

theorem read_control {c : Char} {byte : UInt8} (h : (c, byte) ∈ Lua51.controls) (t : Text) :
    read c t = ([byte], t) := by
  have hall : ∀ p ∈ Lua51.controls, control? p.1 = some p.2 := by decide
  have hcontrol : control? c = some byte := hall _ h
  simp [read, hcontrol]

theorem read_marked {c : Char} (h : isQuote c = true ∨ c = '\\') (t : Text) :
    read c t = (Text.utf8 [c], t) := by
  have hcases : c = '"' ∨ c = '\'' ∨ c = '`' ∨ c = '\\' := by simpa [isQuote, or_assoc] using h
  obtain ⟨hcontrol, hz, hx, hu, hdigit⟩ :
      control? c = none ∧ c ≠ 'z' ∧ c ≠ 'x' ∧ c ≠ 'u' ∧ c.isDigit = false := by
    rcases hcases with rfl | rfl | rfl | rfl <;> decide
  simp [read, hcontrol, hz, hx, hu, hdigit]

/-- The numeral of a byte has three digits, and no digit behind it is taken. -/
theorem read_decimal (byte : UInt8) (t : Text) : ∃ c w, Number.padded 3 byte.toNat = c :: w ∧
    read c (w ++ t) = ([byte], t) := by
  have hall : ∀ n < 256, (Number.padded 3 n).length = 3 ∧
      (Number.padded 3 n).all Char.isDigit = true ∧
        Number.readDigits 10 (Number.padded 3 n) = some n := by decide +kernel
  obtain ⟨hlength, hdigits, hread⟩ := hall byte.toNat byte.toNat_lt
  match hpadded : Number.padded 3 byte.toNat, hlength with
  | [a, b, c], _ =>
    rw [hpadded] at hdigits hread
    simp only [List.all_cons, List.all_nil, Bool.and_true, Bool.and_eq_true] at hdigits
    obtain ⟨ha, hb, hc⟩ := hdigits
    obtain ⟨hcontrol, hz, hx, hu⟩ := ne_of_isDigit ha
    have hmin : min 255 byte.toNat = byte.toNat := by
      have := byte.toNat_lt
      omega
    refine ⟨a, [b, c], rfl, ?_⟩
    simp [read, hcontrol, hz, hx, hu, ha, decimal, hb, hc, hread, hmin]

theorem read_hex {high low : Char} {byte : UInt8}
    (h : Text.toLowerAscii [high, low] = Number.hexByte byte) (t : Text) :
    read 'x' (high :: low :: t) = ([byte], t) := by
  have hread : Number.readDigits 16 [high, low] = some byte.toNat := by
    rw [← Number.readDigits_toLowerAscii (by decide), h, Number.readDigits_hexByte]
  simp [read, control?, hexPair?, hread]

/-- A code point in braces is read to the brace that closes. -/
theorem read_codePoint {digits : Text} {zeros : Nat} {c : Char}
    (h : Text.toLowerAscii digits = List.replicate zeros '0' ++ Number.digits 16 c.toNat)
    (t : Text) : read 'u' ('{' :: (digits ++ ['}']) ++ t) = (Text.utf8 [c], t) := by
  have hread : Number.readDigits 16 digits = some c.toNat := by
    rw [← Number.readDigits_toLowerAscii (by decide), h,
      Number.readDigits_zeros (by decide) (by decide), Number.readDigits_digits] <;> decide
  have hne : digits ≠ [] := by
    rintro rfl
    have hnil := (List.append_eq_nil_iff.1 h.symm).2
    exact Number.digits_ne_nil (by decide) c.toNat hnil
  have hdigits := digits_of_readDigits hread
  have hclose : ∀ d ∈ digits, (d != '}') = true := fun d hd => by
    rw [bne_iff_ne]
    rintro rfl
    exact absurd (hdigits _ hd) (by decide)
  have hpoint : codePoint? digits = some c := by
    have hvalid : c.toNat.isValidChar := c.valid
    have hhex : Number.hexChar? digits = some c := by
      simp [Number.hexChar?, hne, hread, hvalid]
    unfold codePoint?
    split
    · exact absurd (hdigits '+' List.mem_cons_self) (by decide)
    · exact hhex
  have hbraced : braced? ('{' :: (digits ++ '}' :: t)) = some (c, t) := by
    simp [braced?, List.dropWhile_append_of_pos hclose, List.takeWhile_append_of_pos hclose,
      hpoint]
  rw [List.cons_append, List.append_assoc, List.singleton_append]
  simp [read, control?, hbraced]

theorem read_blanks {w t : Text} (hw : ∀ c ∈ w, Text.isAsciiBlank c = true)
    (ht : ∀ c, t.head? = some c → Text.isAsciiBlank c = false) : read 'z' (w ++ t) = ([], t) := by
  have hstop : t.dropWhile Text.isAsciiBlank = t := by
    cases t with
    | nil => rfl
    | cons c t => simp [ht c rfl]
  simp [read, control?, List.dropWhile_append_of_pos hw, hstop]

end Escape

/-! ## Spelled bytes -/

/-- A spelling in front of a text stands for its bytes and takes nothing of the text. -/
theorem unescape_of_spelling {u : Text} {bytes : List UInt8} (h : Spelling u bytes) (t : Text) :
    unescape (u ++ t) = bytes ++ unescape t := by
  have hescape : ∀ {c : Char} {w : Text}, Escape.read c (w ++ t) = (bytes, t) →
      unescape ('\\' :: c :: (w ++ t)) = bytes ++ unescape t := by
    intro c w hread
    rw [unescape_escape, hread]
  cases h with
  | plain hc => exact unescape_cons hc t
  | decimal byte =>
    obtain ⟨c, w, hpadded, hread⟩ := Escape.read_decimal byte t
    rw [hpadded]
    exact hescape hread
  | hex hdigits => exact hescape (w := [_, _]) (Escape.read_hex hdigits t)
  | named hc => exact hescape (w := []) (Escape.read_control hc t)
  | marked hc => exact hescape (w := []) (Escape.read_marked hc t)
  | codePoint hdigits => exact hescape (Escape.read_codePoint hdigits t)

/-- Whatever spellings are chosen for some bytes, the text stands for these bytes. -/
theorem unescape_spelled {t : Text} {bytes : List UInt8} (h : SpellsBytes t bytes) :
    unescape t = bytes := by
  induction h with
  | nil => simp [unescape]
  | cons hu _ ih => rw [unescape_of_spelling hu, ih]
  | skip hw ht _ ih => rw [unescape_escape, Escape.read_blanks hw ht, ih, List.nil_append]

/-- Digits behind digits of an escape, blanks that are skipped, and a zero in front. -/
theorem mixed_spellings_read :
    let text := "\\0651\\z \\x4Af\\u\x7b0263a\x7d".toList
    let bytes : List UInt8 := [65, 49, 74, 102, 0xE2, 0x98, 0xBA]
    SpellsBytes text bytes ∧ unescape text = bytes := by
  intro text bytes
  have hpoint : Text.toLowerAscii "0263a".toList =
      List.replicate 1 '0' ++ Number.digits 16 '☺'.toNat := by decide +kernel
  have htail : SpellsBytes "\\x4Af\\u\x7b0263a\x7d".toList [74, 102, 0xE2, 0x98, 0xBA] :=
    .cons (.hex (by decide +kernel))
      (.cons (.plain (by decide : 'f' ≠ '\\')) (.cons (.codePoint hpoint) .nil))
  have hblank : ∀ c ∈ [' '], Text.isAsciiBlank c = true := List.forall_mem_singleton.2 (by decide)
  have hstop : ∀ c, "\\x4Af\\u\x7b0263a\x7d".toList.head? = some c →
      Text.isAsciiBlank c = false := by
    rintro c hc
    obtain rfl := Option.some.inj hc
    decide
  have hdecimal : Spelling "\\065".toList [65] := by
    have hdigits : Number.padded 3 (65 : UInt8).toNat = "065".toList := by decide +kernel
    have hspelling := Spelling.decimal 65
    rwa [hdigits] at hspelling
  have htext : SpellsBytes text bytes :=
    .cons hdecimal (.cons (.plain (by decide : '1' ≠ '\\')) (.skip hblank hstop htail))
  exact ⟨htext, unescape_spelled htext⟩

end LuaVeil
