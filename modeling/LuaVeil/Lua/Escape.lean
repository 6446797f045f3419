/-
# Escapes in short strings

`unescape` gives the bytes that the content of a short string stands for. An
escape that is not complete, or that the language does not know, stands for the
character after its backslash.
-/
import LuaVeil.Number.Digits
import LuaVeil.Text.Blank

namespace LuaVeil

namespace Escape

/-- The byte of an escape of one letter that stands for a control character. -/
def control? : Char → Option UInt8
  | 'a' => some 7
  | 'b' => some 8
  | 't' => some 9
  | 'n' => some 10
  | 'v' => some 11
  | 'f' => some 12
  | 'r' => some 13
  | _ => none

/-- Two hexadecimal digits at the start of a text, as a byte, and what follows them. -/
def hexPair? : Text → Option (UInt8 × Text)
  | a :: b :: t => (Number.readDigits 16 [a, b]).map fun n => (UInt8.ofNat n, t)
  | _ => none

/-- The character whose code point is written in hexadecimal, perhaps after a plus sign. -/
def codePoint? (t : Text) : Option Char :=
  Number.hexChar? <|
    match t with
    | '+' :: digits => digits
    | digits => digits

/-- The character in braces at the start of a text, and what follows the braces. -/
def braced? : Text → Option (Char × Text)
  | '{' :: t =>
    match t.dropWhile (· != '}') with
    | _ :: rest => (codePoint? (t.takeWhile (· != '}'))).map fun c => (c, rest)
    | [] => none
  | _ => none

/-- The byte of one to three decimal digits, of which `c` is the first; 255 for larger numbers. -/
def decimal (c : Char) (t : Text) : UInt8 × Text :=
  let more := (t.take 2).takeWhile Char.isDigit
  (UInt8.ofNat (min 255 ((Number.readDigits 10 (c :: more)).getD 0)), t.drop more.length)

/-- The bytes of the escape of a backslash and `c`, and what follows it in a text that goes on with `t`. -/
def read (c : Char) (t : Text) : List UInt8 × Text :=
  match control? c with
  | some b => ([b], t)
  | none =>
    if c = 'z' then ([], t.dropWhile Text.isAsciiBlank)
    else if c = 'x' then
      match hexPair? t with
      | some (b, rest) => ([b], rest)
      | none => (Text.utf8 [c], t)
    else if c = 'u' then
      match braced? t with
      | some (point, rest) => (Text.utf8 [point], rest)
      | none => (Text.utf8 [c], t)
    else if c.isDigit then
      let (b, rest) := decimal c t
      ([b], rest)
    else (Text.utf8 [c], t)

theorem length_dropWhile_le (p : Char → Bool) (t : Text) : (t.dropWhile p).length ≤ t.length :=
  (List.dropWhile_suffix p).length_le

theorem length_braced? {t rest : Text} {c : Char} (h : braced? t = some (c, rest)) :
    rest.length ≤ t.length := by
  unfold braced? at h
  split at h
  · next t =>
    split at h
    · next d u hu =>
      obtain ⟨_, -, he⟩ := Option.map_eq_some_iff.1 h
      have := length_dropWhile_le (· != '}') t
      simp only [Prod.mk.injEq] at he
      rw [hu] at this
      simp only [List.length_cons] at this ⊢
      rw [← he.2]
      omega
    · simp at h
  · simp at h

theorem length_hexPair? {t rest : Text} {b : UInt8} (h : hexPair? t = some (b, rest)) :
    rest.length ≤ t.length := by
  unfold hexPair? at h
  split at h
  · obtain ⟨_, -, he⟩ := Option.map_eq_some_iff.1 h
    simp only [Prod.mk.injEq] at he
    rw [← he.2]
    simp only [List.length_cons]
    omega
  · simp at h

theorem length_read_le (c : Char) (t : Text) : (read c t).2.length ≤ t.length := by
  unfold read
  split
  · exact Nat.le_refl _
  split
  · exact length_dropWhile_le _ t
  split
  · split
    · next h => exact length_hexPair? h
    · exact Nat.le_refl _
  split
  · split
    · next h => exact length_braced? h
    · exact Nat.le_refl _
  split
  · simp [decimal]
  · exact Nat.le_refl _

end Escape

/-- The bytes that the content of a short string stands for. -/
def unescape : Text → List UInt8
  | [] => []
  | [c] => Text.utf8 [c]
  | c :: d :: t =>
    if c = '\\' then
      (Escape.read d t).1 ++ unescape (Escape.read d t).2
    else Text.utf8 [c] ++ unescape (d :: t)
termination_by t => t.length
decreasing_by
  · have := Escape.length_read_le d t
    simp only [List.length_cons]
    omega
  · simp

end LuaVeil
