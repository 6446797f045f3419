/-
# Random draws

A source is a stream of 32-bit words together with how many of them are used.
A draw takes words from a source: `Draw α` is a computation that does so.

* `below w n` is a number below `n`, all equally likely if the words are;
* `between w low high` is a number from `low` to `high`;
* `chance p` succeeds with probability `p`.

A number below `n` is the high half of the product of `n` with a word. To keep
the numbers equally likely, words whose product has too large a low half are
passed over: at most half of all words, so that `patience` words are enough but
for a negligible share of streams.
-/
import LuaVeil.Random.Probability

namespace LuaVeil

/-- A stream of words and how many of them are used. -/
structure Source where
  stream : Nat → UInt32
  used : Nat

/-- A computation that takes words from a source. -/
abbrev Draw (α : Type) := StateM Source α

namespace Draw

/-- The next word. -/
def word : Draw UInt32 := fun s =>
  (s.stream s.used, { s with used := s.used + 1 })

/-- The next two words as one of 64 bits, the low half first. -/
def long : Draw UInt64 := do
  let low ← word
  let high ← word
  return (high.toUInt64 <<< 32) ||| low.toUInt64

/-- The size of drawn numbers. -/
inductive Width where
  /-- numbers of 8 bits, drawn from words of 32 -/
  | byte
  /-- numbers of 32 bits -/
  | word
  /-- numbers of 64 bits -/
  | long
  deriving DecidableEq

namespace Width

/-- The bits of a number of this width. -/
def valueBits : Width → Nat
  | byte => 8
  | word => 32
  | long => 64

/-- The bits that are drawn for it. -/
def drawnBits : Width → Nat
  | byte => 32
  | word => 32
  | long => 64

/-- The bits for one number. -/
def draw : Width → Draw Nat
  | byte => UInt32.toNat <$> Draw.word
  | word => UInt32.toNat <$> Draw.word
  | long => UInt64.toNat <$> Draw.long

/-- The largest low half of a product that is accepted for numbers below `n`. -/
def zone (w : Width) (n : Nat) : Nat :=
  let size := Nat.pow 2 w.drawnBits
  match w with
  | byte => size - 1 - (size - n) % n
  | _ => n * Nat.pow 2 (w.drawnBits - 1 - n.log2) - 1

end Width

/-- How many words are passed over at most. -/
def patience : Nat := 128

/-- A number below `n` from the high half of a product, after passing over at most `tries` words. -/
def belowWithin (w : Width) (n : Nat) : Nat → Draw Nat
  | 0 => do
    let v ← w.draw
    return v * n / Nat.pow 2 w.drawnBits
  | tries + 1 => do
    let v ← w.draw
    if v * n % Nat.pow 2 w.drawnBits ≤ w.zone n then return v * n / Nat.pow 2 w.drawnBits
    else belowWithin w n tries

/-- A number below `n`. -/
def below (w : Width) (n : Nat) : Draw Nat :=
  belowWithin w n patience

/--
An integer from `low` to `high`. If these are as many as there are numbers of the width, no word is
passed over: each integer is drawn by the one number that leaves the same remainder.
-/
def between (w : Width) (low high : Int) : Draw Int :=
  let n := (high - low + 1).toNat
  if n = Nat.pow 2 w.valueBits then (fun (v : Nat) => low + (v - low) % n) <$> w.draw
  else (fun (i : Nat) => low + i) <$> below w n

/-- An index below `n`. -/
def index (n : Nat) : Draw Nat :=
  below .long n

/-- An item of a list that is not empty, and `fallback` otherwise. -/
def pick (fallback : α) (items : List α) : Draw α :=
  (fun i => items.getD i fallback) <$> index items.length

/-- Success with probability `p`. Certainty takes no word. -/
def chance (p : Probability) : Draw Bool :=
  if p.value = 1 then pure true else (fun v => decide (v.toNat < p.threshold)) <$> long

end Draw
end LuaVeil
