/-
# The keystream of ChaCha with twelve rounds

`Keystream.word key n` is word `n` of the keystream of a key of 32 bytes, with a
block counter of 64 bits that begins at zero and a nonce of zero. Blocks have
sixteen words.
-/

namespace LuaVeil.Keystream

/-- The sixteen words that a block is made from. -/
abbrev State := Array UInt32

/-- A word turned to the left by `n` bits, `n` between 1 and 31. -/
def rotate (a n : UInt32) : UInt32 :=
  (a <<< n) ||| (a >>> (32 - n))

/-- Add word `j` to word `i`, and mix the sum into word `k`, which is turned by `n`. -/
def mix (s : State) (i j k : Nat) (n : UInt32) : State :=
  let sum := s.getD i 0 + s.getD j 0
  (s.setIfInBounds i sum).setIfInBounds k (rotate (s.getD k 0 ^^^ sum) n)

/-- A quarter of a round, on four words. -/
def quarterRound (s : State) (a b c d : Nat) : State :=
  mix (mix (mix (mix s a b d 16) c d b 12) a b d 8) c d b 7

/-- A round on the columns and a round on the diagonals. -/
def doubleRound (s : State) : State :=
  let s := quarterRound (quarterRound s 0 4 8 12) 1 5 9 13
  let s := quarterRound (quarterRound s 2 6 10 14) 3 7 11 15
  let s := quarterRound (quarterRound s 0 5 10 15) 1 6 11 12
  quarterRound (quarterRound s 2 7 8 13) 3 4 9 14

/-- The word whose four bytes are given, the least first. -/
def ofLittleEndian (bytes : List UInt8) : UInt32 :=
  bytes.foldr (fun b n => (n <<< 8) ||| b.toUInt32) 0

/-- Word `i` of a key of bytes. -/
def keyWord (key : List UInt8) (i : Nat) : UInt32 :=
  ofLittleEndian ((key.drop (4 * i)).take 4)

/-- The words from which block `counter` is made. -/
def start (key : Array UInt32) (counter : Nat) : State :=
  #[0x61707865, 0x3320646e, 0x79622d32, 0x6b206574] ++ key ++
    #[UInt32.ofNat counter, UInt32.ofNat (counter / Nat.pow 2 32), 0, 0]

/-- Block `counter` of the keystream. -/
def block (key : Array UInt32) (counter : Nat) : State :=
  let s := start key counter
  Array.zipWith (· + ·) s (Nat.repeat doubleRound 6 s)

/-- The words of the keystream of a key. -/
def word (key : List UInt8) : Nat → UInt32 :=
  let words := (Array.range 8).map (keyWord key)
  fun n => (block words (n / 16)).getD (n % 16) 0

end LuaVeil.Keystream
