/-
# Seeds

A seed is 32 bytes, and all draws of a run come from the source that it opens.
A seed is written as `0x` and 64 hexadecimal digits; it is also derived from a
number, or from the texts of a job so that equal jobs get equal seeds.

Main statement: `length_bytes`, every seed has 32 bytes.
-/
import LuaVeil.Number.Digits
import LuaVeil.Random.Draw
import LuaVeil.Random.Keystream
import LuaVeil.Random.Sha3

namespace LuaVeil

/-- Thirty-two bytes that decide all draws of a run. -/
structure Seed where
  bytes : List UInt8
  length_bytes : bytes.length = 32

/-- Why a text is no seed. -/
inductive SeedError where
  /-- The text without its `0x` has a size other than 64 bytes. -/
  | size (bytes : Nat)
  /-- The byte at a place is no hexadecimal digit. -/
  | digit (byte : UInt8) (place : Nat)
  deriving DecidableEq

/-- Whether a character of a code below 256 is shown as it is. -/
def isShown (c : Char) : Bool :=
  (0x20 ≤ c.toNat && c.toNat < 0x7F) || (0xA0 < c.toNat && c.toNat != 0xAD)

/-- A character between single quotes, with an escape for what could be misread there. -/
def quoteChar (c : Char) : Text :=
  let shown : Text :=
    match c with
    | '\x00' => ['\\', '0']
    | '\t' => ['\\', 't']
    | '\n' => ['\\', 'n']
    | '\r' => ['\\', 'r']
    | '\\' => ['\\', '\\']
    | '\'' => ['\\', '\'']
    | c => if isShown c then [c] else "\\u\x7b".toList ++ Number.digits 16 c.toNat ++ ['\x7d']
  '\'' :: shown ++ ['\'']

/-- What is wrong with a text that is no seed. A byte is shown as the character of its number. -/
def SeedError.message : SeedError → Text
  | size bytes => "seed must be 64 hex digits, got ".toList ++ Number.decimal bytes
  | digit byte place =>
    "invalid seed hex: Invalid character ".toList ++ quoteChar (Char.ofNat byte.toNat) ++
      " at position ".toList ++ Number.decimal place

namespace Seed

/-! ## Hexadecimal notation -/

/-- The value of a hexadecimal digit given by its byte. -/
def hexDigit? (b : UInt8) : Option UInt8 :=
  (Number.digitValue? 16 (Char.ofNat b.toNat)).map UInt8.ofNat

/-- The bytes that pairs of hexadecimal digits stand for; `place` counts the digits before them. -/
def readPairs (place : Nat) : List UInt8 → Except SeedError (List UInt8)
  | high :: low :: rest =>
    match hexDigit? high, hexDigit? low with
    | none, _ => .error (.digit high place)
    | _, none => .error (.digit low (place + 1))
    | some h, some l => (readPairs (place + 2) rest).map ((16 * h + l) :: ·)
  | _ => .ok []

theorem length_readPairs {place : Nat} {digits bytes : List UInt8}
    (h : readPairs place digits = .ok bytes) : bytes.length = digits.length / 2 := by
  fun_induction readPairs place digits generalizing bytes with
  | case1 => simp at h
  | case2 => simp at h
  | case3 place high low rest a hh l hl ih =>
    cases hr : readPairs (place + 2) rest with
    | error e => simp [hr, Except.map] at h
    | ok more =>
      simp only [hr, Except.map, Except.ok.injEq] at h
      have := ih hr
      simp only [← h, List.length_cons]
      omega
  | case4 =>
    rename_i digits _ hd
    simp only [Except.ok.injEq] at h
    rcases digits with _ | ⟨a, _ | ⟨b, rest⟩⟩
    · simp [← h]
    · simp [← h]
    · exact (hd a b rest rfl).elim

/-- The seed that a text stands for: 64 hexadecimal digits of either case, with or without `0x`. -/
def ofHex (t : Text) : Except SeedError Seed :=
  let digits := Text.utf8 (if "0x".toList.isPrefixOf t then t.drop 2 else t)
  if hn : digits.length = 64 then
    match h : readPairs 0 digits with
    | .ok bytes => .ok ⟨bytes, by rw [length_readPairs h, hn]⟩
    | .error e => .error e
  else .error (.size digits.length)

/-- A seed in hexadecimal. -/
def toHex (s : Seed) : Text :=
  "0x".toList ++ Number.hex s.bytes

/-- A seed as it is shown to developers. -/
def describe (s : Seed) : Text :=
  "Seed(".toList ++ s.toHex ++ [')']

/-! ## Derived seeds -/

/-- Eight bytes of a number, the least first. -/
def littleEndian (n : Nat) : List UInt8 :=
  (List.range 8).map fun i => UInt8.ofNat (n / Nat.pow 256 i)

/-- Parts of bytes as one sequence: each part follows its length in eight bytes. -/
def encodeParts (parts : List (List UInt8)) : List UInt8 :=
  parts.flatMap fun part => littleEndian part.length ++ part

/-- The seed derived from some parts. -/
def ofParts (parts : List (List UInt8)) : Seed :=
  ⟨sha3 (encodeParts parts), length_sha3 _⟩

/-- The seed derived from a number of 64 bits. -/
def ofNumber (n : Nat) : Seed :=
  ofParts [Text.utf8 "u64".toList, littleEndian n]

/-- The seed derived from a script and the names of a preset and a variant. -/
def ofJob (source preset variant : Text) : Seed :=
  ofParts [Text.utf8 source, Text.utf8 preset, Text.utf8 variant]

/-! ## The source of a seed -/

/-- What is hashed in front of a seed, so that its stream serves this program alone. -/
def domain : Text :=
  "LUAGUARD_PIPELINE".toList

/-- The source that a seed opens. -/
def source (s : Seed) : Source :=
  ⟨Keystream.word (sha3 (Text.utf8 domain ++ s.bytes)), 0⟩

end Seed
end LuaVeil
