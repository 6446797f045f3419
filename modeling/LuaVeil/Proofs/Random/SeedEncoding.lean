/-
# Parts of bytes as one sequence

A seed is derived from the digest of its parts, which are written as one sequence of bytes: the
size of each part in eight bytes, and then the part. `decodeParts?` reads such a sequence, so
that the parts are known from it, whatever their bytes are. What has one seed in two ways is
therefore either the same or a pair of messages with one digest.

Main statements:

* `decodeParts?_eq_some_iff`, the parts are read back, and nothing else is read;
* `encodeParts_unambiguous`, equal sequences have equal parts, and equal seeds come from equal
  jobs or from a collision of the hash function.
-/
import LuaVeil.Proofs.Text.Utf8
import LuaVeil.Random.Seed
import Mathlib.Data.Nat.Digits.Lemmas

namespace LuaVeil.Seed

/-! ## Numbers in bytes -/

/-- The number whose bytes are given, the least first. -/
def ofLittleEndian (bytes : List UInt8) : Nat :=
  Nat.ofDigits 256 (bytes.map UInt8.toNat)

@[simp] theorem length_littleEndian (n : Nat) : (littleEndian n).length = 8 := by
  simp [littleEndian]

/-- The digits of a number in base 256, as many as are asked for, give the number modulo a power. -/
theorem ofDigits_range (width n : Nat) :
    Nat.ofDigits 256 ((List.range width).map fun i => n / 256 ^ i % 256) = n % 256 ^ width := by
  induction width generalizing n with
  | zero => rw [Nat.pow_zero, Nat.mod_one, List.range_zero, List.map_nil, Nat.ofDigits_nil]
  | succ width ih =>
    have hlater : ∀ i, n / 256 ^ (i + 1) % 256 = n / 256 / 256 ^ i % 256 := by
      intro i
      rw [Nat.div_div_eq_div_mul, Nat.pow_succ']
    rw [List.range_succ_eq_map, List.map_cons, List.map_map, Nat.ofDigits_cons, Nat.pow_zero,
      Nat.div_one]
    simp only [Function.comp_def, Nat.succ_eq_add_one, hlater]
    rw [ih, Nat.pow_succ', Nat.mod_mul]

/-- Eight bytes hold a number of 64 bits. -/
theorem ofLittleEndian_littleEndian {n : Nat} (h : n < 2 ^ 64) :
    ofLittleEndian (littleEndian n) = n := by
  have hdigit : ∀ i, (UInt8.ofNat (n / Nat.pow 256 i)).toNat = n / 256 ^ i % 256 :=
    fun _ => UInt8.toNat_ofNat'
  unfold ofLittleEndian littleEndian
  rw [List.map_map]
  simp only [Function.comp_def, hdigit]
  rw [ofDigits_range, Nat.mod_eq_of_lt (h.trans_eq (by norm_num))]

theorem ofLittleEndian_lt {bytes : List UInt8} (h : bytes.length = 8) :
    ofLittleEndian bytes < 2 ^ 64 := by
  have hlt : ofLittleEndian bytes < 256 ^ (bytes.map UInt8.toNat).length := by
    refine Nat.ofDigits_lt_base_pow_length (by norm_num) fun d hd => ?_
    obtain ⟨b, -, rfl⟩ := List.mem_map.1 hd
    exact b.toNat_lt
  rw [List.length_map, h] at hlt
  exact hlt.trans_eq (by norm_num)

/-- Eight bytes are those of their number. -/
theorem littleEndian_ofLittleEndian {bytes : List UInt8} (h : bytes.length = 8) :
    littleEndian (ofLittleEndian bytes) = bytes := by
  have hsame := ofLittleEndian_littleEndian (ofLittleEndian_lt h)
  have hdigits : (littleEndian (ofLittleEndian bytes)).map UInt8.toNat = bytes.map UInt8.toNat := by
    refine Nat.ofDigits_inj_of_len_eq (by norm_num : 1 < 256) (by simp [h]) ?_ ?_ hsame
    all_goals
      intro d hd
      obtain ⟨b, -, rfl⟩ := List.mem_map.1 hd
      exact b.toNat_lt
  exact List.map_injective_iff.2 (fun _ _ => UInt8.toNat_inj.1) hdigits

/-! ## Reading parts -/

/-- The parts that a sequence of bytes is made of, each of the size that the bytes before it say. -/
def decodeParts? (bytes : List UInt8) : Option (List (List UInt8)) :=
  if bytes = [] then some []
  else
    let size := ofLittleEndian (bytes.take 8)
    let rest := bytes.drop 8
    if bytes.length < 8 ∨ rest.length < size then none
    else (decodeParts? (rest.drop size)).map (rest.take size :: ·)
termination_by bytes.length
decreasing_by
  simp only [List.length_drop]
  omega

theorem encodeParts_cons (part : List UInt8) (parts : List (List UInt8)) :
    encodeParts (part :: parts) = littleEndian part.length ++ (part ++ encodeParts parts) := by
  rw [encodeParts, List.flatMap_cons, List.append_assoc]
  rfl

/-- Parts are read back. -/
theorem decodeParts?_encodeParts {parts : List (List UInt8)} (h : ∀ p ∈ parts, p.length < 2 ^ 64) :
    decodeParts? (encodeParts parts) = some parts := by
  induction parts with
  | nil =>
    rw [decodeParts?]
    rfl
  | cons part parts ih =>
    obtain ⟨hpart, hparts⟩ := List.forall_mem_cons.1 h
    have hne : encodeParts (part :: parts) ≠ [] := by
      intro hnil
      have hlength := congrArg List.length hnil
      simp [encodeParts_cons] at hlength
    have htake : (encodeParts (part :: parts)).take 8 = littleEndian part.length := by
      rw [encodeParts_cons, List.take_left' (length_littleEndian _)]
    have hdrop : (encodeParts (part :: parts)).drop 8 = part ++ encodeParts parts := by
      rw [encodeParts_cons, List.drop_left' (length_littleEndian _)]
    have hroom : ¬ ((encodeParts (part :: parts)).length < 8 ∨
        (part ++ encodeParts parts).length < part.length) := by
      simp [encodeParts_cons]
    rw [decodeParts?, if_neg hne, htake, hdrop, ofLittleEndian_littleEndian hpart, if_neg hroom,
      List.take_left, List.drop_left, ih hparts, Option.map_some]

/-- What is read was written. -/
theorem encodeParts_of_decodeParts? {bytes : List UInt8} {parts : List (List UInt8)}
    (h : decodeParts? bytes = some parts) :
    encodeParts parts = bytes ∧ ∀ p ∈ parts, p.length < 2 ^ 64 := by
  fun_induction decodeParts? bytes generalizing parts with
  | case1 =>
    obtain rfl := Option.some.inj h
    exact ⟨rfl, by simp⟩
  | case2 => cases h
  | case3 bytes hne size rest hroom =>
    rename_i ih
    rw [not_or, Nat.not_lt, Nat.not_lt] at hroom
    obtain ⟨more, hmore, rfl⟩ := Option.map_eq_some_iff.1 h
    obtain ⟨hcode, hsizes⟩ := ih hmore
    have hprefix : (bytes.take 8).length = 8 := List.length_take_of_le hroom.1
    have hsize : (rest.take size).length = size := List.length_take_of_le hroom.2
    refine ⟨?_, List.forall_mem_cons.2 ⟨hsize.trans_lt (ofLittleEndian_lt hprefix), hsizes⟩⟩
    rw [encodeParts_cons, hcode, hsize, List.take_append_drop, littleEndian_ofLittleEndian hprefix,
      List.take_append_drop]

/-- A sequence is read as some parts exactly if it is how these parts are written. -/
theorem decodeParts?_eq_some_iff {bytes : List UInt8} {parts : List (List UInt8)} :
    decodeParts? bytes = some parts ↔
      encodeParts parts = bytes ∧ ∀ p ∈ parts, p.length < 2 ^ 64 := by
  refine ⟨encodeParts_of_decodeParts?, ?_⟩
  rintro ⟨rfl, hsizes⟩
  exact decodeParts?_encodeParts hsizes

/-- Parts that are written alike are the same. -/
theorem encodeParts_inj {xs ys : List (List UInt8)} (hx : ∀ p ∈ xs, p.length < 2 ^ 64)
    (hy : ∀ p ∈ ys, p.length < 2 ^ 64) : encodeParts xs = encodeParts ys ↔ xs = ys := by
  refine ⟨fun h => ?_, congrArg encodeParts⟩
  have hread := decodeParts?_encodeParts hx
  rw [h, decodeParts?_encodeParts hy] at hread
  exact (Option.some.inj hread).symm

/-! ## Equal seeds -/

/-- Two messages that the hash function cannot tell apart. -/
def IsCollision (x y : List UInt8) : Prop :=
  x ≠ y ∧ sha3 x = sha3 y

theorem ofParts_inj {xs ys : List (List UInt8)} :
    ofParts xs = ofParts ys ↔ sha3 (encodeParts xs) = sha3 (encodeParts ys) := by
  simp [ofParts]

/-- Parts have one seed exactly if they are the same, or the hash function collides on them. -/
theorem ofParts_eq_iff {xs ys : List (List UInt8)} (hx : ∀ p ∈ xs, p.length < 2 ^ 64)
    (hy : ∀ p ∈ ys, p.length < 2 ^ 64) :
    ofParts xs = ofParts ys ↔ xs = ys ∨ IsCollision (encodeParts xs) (encodeParts ys) := by
  rw [ofParts_inj]
  constructor
  · intro h
    by_cases hsame : xs = ys
    · exact .inl hsame
    · exact .inr ⟨fun hcode => hsame ((encodeParts_inj hx hy).1 hcode), h⟩
  · rintro (rfl | h)
    · rfl
    · exact h.2

/-- What a seed is derived from: a script with the names of a preset and a variant, or a number. -/
inductive Origin where
  | job (source preset variant : Text)
  | number (n : Nat)
  deriving DecidableEq

namespace Origin

/-- The seed that is derived. -/
def seed : Origin → Seed
  | job source preset variant => ofJob source preset variant
  | number n => ofNumber n

/-- The parts that a seed is derived from. -/
def parts : Origin → List (List UInt8)
  | job source preset variant => [Text.utf8 source, Text.utf8 preset, Text.utf8 variant]
  | number n => [Text.utf8 "u64".toList, littleEndian n]

/-- Whether the sizes of the texts, or the number, fit in 64 bits. -/
def Fits : Origin → Prop
  | job source preset variant => Text.byteSize source < 2 ^ 64 ∧ Text.byteSize preset < 2 ^ 64 ∧
      Text.byteSize variant < 2 ^ 64
  | number n => n < 2 ^ 64

theorem seed_eq (o : Origin) : o.seed = ofParts o.parts := by
  cases o <;> rfl

theorem Fits.length_lt {o : Origin} (h : o.Fits) : ∀ p ∈ o.parts, p.length < 2 ^ 64 := by
  cases o with
  | job source preset variant => simpa [parts, Text.length_utf8, Fits] using h
  | number n =>
    rintro p hp
    have hsmall : p.length < 9 := by
      rcases List.mem_pair.1 hp with rfl | rfl
      · decide
      · simp
    omega

/-- Parts of different origins are different: of different texts, or of different number. -/
theorem parts_inj {o o' : Origin} (h : o.Fits) (h' : o'.Fits) : o.parts = o'.parts ↔ o = o' := by
  refine ⟨fun heq => ?_, congrArg parts⟩
  cases o with
  | job source preset variant =>
    cases o' with
    | job source' preset' variant' => simpa [parts, Text.utf8_inj] using heq
    | number n => simp [parts] at heq
  | number n =>
    cases o' with
    | job source preset variant => simp [parts] at heq
    | number n' =>
      have hbytes : littleEndian n = littleEndian n' := by simpa [parts] using heq
      have hread := congrArg ofLittleEndian hbytes
      rw [ofLittleEndian_littleEndian h, ofLittleEndian_littleEndian h'] at hread
      rw [hread]

end Origin

/--
Parts of less than 2^64 bytes are known from the sequence that is hashed, in which each part
follows its size in eight bytes, the least first. So two different jobs, or a job and a number,
have one seed exactly if their sequences are a collision of the hash function.
-/
theorem encodeParts_unambiguous :
    (∀ xs ys : List (List UInt8), (∀ p ∈ xs, p.length < 2 ^ 64) → (∀ p ∈ ys, p.length < 2 ^ 64) →
      encodeParts xs = encodeParts ys → xs = ys) ∧
    (∀ bytes parts, decodeParts? bytes = some parts ↔
      encodeParts parts = bytes ∧ ∀ p ∈ parts, p.length < 2 ^ 64) ∧
    ∀ o o' : Origin, o.Fits → o'.Fits →
      (o.seed = o'.seed ↔ o = o' ∨ IsCollision (encodeParts o.parts) (encodeParts o'.parts)) := by
  refine ⟨fun xs ys hx hy => (encodeParts_inj hx hy).1, fun _ _ => decodeParts?_eq_some_iff, ?_⟩
  intro o o' ho ho'
  rw [o.seed_eq, o'.seed_eq, ofParts_eq_iff ho.length_lt ho'.length_lt, Origin.parts_inj ho ho']

/--
A part that looks like sizes with parts behind them is told apart from such parts, and jobs that
differ in the preset have different seeds unless the hash function collides.
-/
theorem nested_part_told_apart :
    let nested := [encodeParts [[97], [98]]]
    let flat : List (List UInt8) := [[97], [98]]
    let weak := Origin.job "print(1)".toList "weak".toList "luau".toList
    let strong := Origin.job "print(1)".toList "strong".toList "luau".toList
    ((∀ p ∈ nested, p.length < 2 ^ 64) ∧ (∀ p ∈ flat, p.length < 2 ^ 64) ∧
      encodeParts nested ≠ encodeParts flat) ∧
    weak.Fits ∧ strong.Fits ∧
      (weak.seed = strong.seed → IsCollision (encodeParts weak.parts) (encodeParts strong.parts)) := by
  intro nested flat weak strong
  have hnested : ∀ p ∈ nested, p.length < 2 ^ 64 := by decide
  have hflat : ∀ p ∈ flat, p.length < 2 ^ 64 := by decide
  have hweak : weak.Fits := by simp only [weak, Origin.Fits]; decide
  have hstrong : strong.Fits := by simp only [strong, Origin.Fits]; decide
  refine ⟨⟨hnested, hflat, fun h => ?_⟩, hweak, hstrong, fun h => ?_⟩
  · have hsame := encodeParts_unambiguous.1 nested flat hnested hflat h
    exact absurd hsame (by decide)
  · refine ((encodeParts_unambiguous.2.2 weak strong hweak hstrong).1 h).resolve_left ?_
    decide

end LuaVeil.Seed
