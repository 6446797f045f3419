/-
# SHA3-256

The hash function of FIPS 202 with a digest of 32 bytes. The state is five by
five lanes of 64 bits; `permute` is the permutation of 24 rounds, and a message
is absorbed in blocks of 136 bytes.

Main statement: `length_sha3`, a digest has 32 bytes.
-/

namespace LuaVeil

namespace Sha3

/-! ## The permutation -/

/-- The lanes of the state, row by row. -/
abbrev State := Array UInt64

/-- The lane in column `x` and row `y`, both taken modulo five. -/
def lane (s : State) (x y : Nat) : UInt64 :=
  s.getD (5 * (y % 5) + x % 5) 0

/-- The state with the given lanes. -/
def ofLanes (f : Nat → Nat → UInt64) : State :=
  (Array.range 25).map fun i => f (i % 5) (i / 5)

/-- A lane turned to the left by `n` bits. -/
def rotate (a : UInt64) (n : UInt64) : UInt64 :=
  if n = 0 then a else (a <<< n) ||| (a >>> (64 - n))

/-- By how many bits each lane is turned, row by row. -/
def rotations : Array UInt64 :=
  #[0, 1, 62, 28, 27, 36, 44, 6, 55, 20, 3, 10, 43, 25, 39, 41, 45, 15, 21, 8, 18, 2, 61, 56, 14]

/-- The constants of the rounds. -/
def roundConstants : List UInt64 :=
  [0x0000000000000001, 0x0000000000008082, 0x800000000000808A, 0x8000000080008000,
   0x000000000000808B, 0x0000000080000001, 0x8000000080008081, 0x8000000000008009,
   0x000000000000008A, 0x0000000000000088, 0x0000000080008009, 0x000000008000000A,
   0x000000008000808B, 0x800000000000008B, 0x8000000000008089, 0x8000000000008003,
   0x8000000000008002, 0x8000000000000080, 0x000000000000800A, 0x800000008000000A,
   0x8000000080008081, 0x8000000000008080, 0x0000000080000001, 0x8000000080008008]

/-- Each lane is changed by the parities of two neighbouring columns. -/
def theta (s : State) : State :=
  let parity := (Array.range 5).map fun x =>
    lane s x 0 ^^^ lane s x 1 ^^^ lane s x 2 ^^^ lane s x 3 ^^^ lane s x 4
  ofLanes fun x y =>
    lane s x y ^^^ parity.getD ((x + 4) % 5) 0 ^^^ rotate (parity.getD ((x + 1) % 5) 0) 1

/-- Each lane is turned. -/
def rho (s : State) : State :=
  ofLanes fun x y => rotate (lane s x y) (rotations.getD (5 * y + x) 0)

/-- The lanes change places. -/
def pi (s : State) : State :=
  ofLanes fun x y => lane s (x + 3 * y) x

/-- Each lane is changed by the two that follow it in its row. -/
def chi (s : State) : State :=
  ofLanes fun x y => lane s x y ^^^ (~~~(lane s (x + 1) y) &&& lane s (x + 2) y)

/-- The first lane is changed by the constant of the round. -/
def iota (constant : UInt64) (s : State) : State :=
  s.modify 0 (· ^^^ constant)

/-- The permutation of the state. -/
def permute (s : State) : State :=
  roundConstants.foldl (fun s constant => iota constant (chi (pi (rho (theta s))))) s

/-! ## Blocks -/

/-- Bytes in a block. -/
def rate : Nat := 136

/-- A message with its padding: a whole number of blocks. -/
def pad (message : List UInt8) : List UInt8 :=
  let room := rate - message.length % rate
  if room = 1 then message ++ [0x86]
  else message ++ 0x06 :: List.replicate (room - 2) 0x00 ++ [0x80]

/-- The number whose bytes are given, the least byte first. -/
def ofLittleEndian (bytes : List UInt8) : UInt64 :=
  bytes.foldr (fun b n => (n <<< 8) ||| b.toUInt64) 0

/-- Mix a block into the state. -/
def absorb (s : State) (block : List UInt8) : State :=
  permute (s.mapIdx fun i a => a ^^^ ofLittleEndian ((block.drop (8 * i)).take 8))

/-- The blocks of a padded message. -/
def blocks (message : List UInt8) : List (List UInt8) :=
  if _ : message.isEmpty then [] else message.take rate :: blocks (message.drop rate)
termination_by message.length
decreasing_by
  simp only [List.length_drop, rate]
  have : 0 < message.length := List.length_pos_iff.2 (by simp_all)
  omega

/-- Byte `i` of the state. -/
def byte (s : State) (i : Nat) : UInt8 :=
  (s.getD (i / 8) 0 >>> (8 * (i % 8)).toUInt64).toUInt8

end Sha3

/-- The SHA3-256 digest of a message. -/
def sha3 (message : List UInt8) : List UInt8 :=
  let state := (Sha3.blocks (Sha3.pad message)).foldl Sha3.absorb (Array.replicate 25 0)
  (List.range 32).map (Sha3.byte state)

/-- A digest has 32 bytes. -/
@[simp] theorem length_sha3 (message : List UInt8) : (sha3 message).length = 32 := by
  simp [sha3]

end LuaVeil
