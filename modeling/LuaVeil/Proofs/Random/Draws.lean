/-
# What can be drawn

What is drawn lies in its range, and every number of the range is drawn from some
words: `d.Gives words a` says that a draw uses up just these words and gives `a`.

Main statements: `between_mem`, `pick_mem`, `exists_gives_index` and `exists_gives_pick`.
-/
import LuaVeil.Random.Draw
import Mathlib.Algebra.Group.Nat.Defs

namespace LuaVeil

namespace Draw

/-! ## What is drawn -/

theorem belowWithin_succ (w : Width) (n tries : Nat) (s : Source) :
    belowWithin w n (tries + 1) s =
      if (w.draw s).1 * n % Nat.pow 2 w.drawnBits ≤ w.zone n then
        ((w.draw s).1 * n / Nat.pow 2 w.drawnBits, (w.draw s).2)
      else belowWithin w n tries (w.draw s).2 := by
  have happly : belowWithin w n (tries + 1) s =
      (if (w.draw s).1 * n % Nat.pow 2 w.drawnBits ≤ w.zone n then
        pure ((w.draw s).1 * n / Nat.pow 2 w.drawnBits)
      else belowWithin w n tries : Draw Nat) (w.draw s).2 := rfl
  rw [happly]
  split <;> rfl

theorem draw_lt (w : Width) (s : Source) : (w.draw s).1 < 2 ^ w.drawnBits := by
  cases w with
  | byte => exact UInt32.toNat_lt _
  | word => exact UInt32.toNat_lt _
  | long => exact UInt64.toNat_lt _

/-- The high half of a product with `n` is below `n`. -/
theorem belowWithin_lt (w : Width) {n : Nat} (hn : 0 < n) (tries : Nat) (s : Source) :
    (belowWithin w n tries s).1 < n := by
  have hhalf : ∀ s, (w.draw s).1 * n / 2 ^ w.drawnBits < n := by
    intro s
    rw [Nat.div_lt_iff_lt_mul (Nat.two_pow_pos _), Nat.mul_comm]
    exact Nat.mul_lt_mul_of_pos_left (draw_lt w s) hn
  induction tries generalizing s with
  | zero => exact hhalf s
  | succ tries ih =>
    rw [belowWithin_succ]
    split
    · exact hhalf s
    · exact ih _

theorem index_lt {n : Nat} (hn : 0 < n) (s : Source) : (index n s).1 < n :=
  belowWithin_lt .long hn patience s

/-- An integer between two others is drawn. -/
theorem between_mem (w : Width) {low high : Int} (h : low ≤ high) (s : Source) :
    low ≤ (between w low high s).1 ∧ (between w low high s).1 ≤ high := by
  unfold between
  split
  · have hpos : (0 : Int) < (high - low + 1).toNat := by omega
    have hnonneg := Int.emod_nonneg ((w.draw s).1 - low) (Int.ne_of_gt hpos)
    have hlt := Int.emod_lt_of_pos ((w.draw s).1 - low) hpos
    show low ≤ low + ((w.draw s).1 - low) % _ ∧ low + ((w.draw s).1 - low) % _ ≤ high
    omega
  · have hlt := belowWithin_lt w (by omega : 0 < (high - low + 1).toNat) patience s
    show low ≤ low + ((belowWithin w _ patience s).1 : Int) ∧
      low + ((belowWithin w _ patience s).1 : Int) ≤ high
    omega

/-- Of a list that is not empty an item is picked. -/
theorem pick_mem {α : Type} {items : List α} (h : items ≠ []) (fallback : α) (s : Source) :
    (pick fallback items s).1 ∈ items := by
  have hlt := index_lt (List.length_pos_iff.2 h) s
  show items.getD (index items.length s).1 fallback ∈ items
  rw [List.getD_eq_getElem?_getD, List.getElem?_eq_getElem hlt, Option.getD_some]
  exact List.getElem_mem hlt

end Draw

/-! ## Words ahead -/

namespace Source

/-- Whether some words are the next ones. -/
def HasNext (s : Source) (words : List UInt32) : Prop :=
  ∀ i w, words[i]? = some w → s.stream (s.used + i) = w

/-- The source after some words are used. -/
def skip (s : Source) (n : Nat) : Source :=
  ⟨s.stream, s.used + n⟩

/-- The source whose first words are some words. -/
def ofWords (words : List UInt32) : Source :=
  ⟨fun i => words.getD i 0, 0⟩

theorem hasNext_ofWords (words : List UInt32) : (ofWords words).HasNext words := by
  intro i w hw
  show words.getD (0 + i) 0 = w
  rw [Nat.zero_add, List.getD_eq_getElem?_getD, hw, Option.getD_some]

theorem skip_skip (s : Source) (n n' : Nat) : (s.skip n).skip n' = s.skip (n + n') := by
  rw [skip, skip, skip, Nat.add_assoc]

theorem HasNext.append {s : Source} {words more : List UInt32} (h : s.HasNext (words ++ more)) :
    s.HasNext words ∧ (s.skip words.length).HasNext more := by
  constructor
  · intro i w hw
    have hi := (List.getElem?_eq_some_iff.1 hw).1
    exact h i w ((List.getElem?_append_left hi).trans hw)
  · intro i w hw
    show s.stream (s.used + words.length + i) = w
    rw [Nat.add_assoc]
    refine h _ w ?_
    rwa [List.getElem?_append_right (by omega), Nat.add_sub_cancel_left]

end Source

namespace Draw

/-- A draw uses up some words, if they are next, and gives a value. -/
def Gives {α : Type} (d : Draw α) (words : List UInt32) (a : α) : Prop :=
  ∀ s : Source, s.HasNext words → d s = (a, s.skip words.length)

namespace Gives

variable {α β : Type} {words more : List UInt32} {a : α} {b : β}

theorem pure (a : α) : Gives (Pure.pure a) [] a :=
  fun _ _ => rfl

theorem bind {d : Draw α} {f : α → Draw β} (h : d.Gives words a) (h' : (f a).Gives more b) :
    Gives (d >>= f) (words ++ more) b := by
  intro s hs
  obtain ⟨hwords, hmore⟩ := hs.append
  have happly : (d >>= f) s = f (d s).1 (d s).2 := rfl
  rw [happly, h s hwords, h' _ hmore, List.length_append, Source.skip_skip]

theorem map {d : Draw α} (f : α → β) (h : d.Gives words a) : Gives (f <$> d) words (f a) := by
  intro s hs
  have happly : (f <$> d) s = (f (d s).1, (d s).2) := rfl
  rw [happly, h s hs]

end Gives

theorem gives_word (w : UInt32) : word.Gives [w] w :=
  fun s hs => congrArg (·, s.skip 1) (hs 0 w rfl)

/-- Every number of 64 bits is drawn from its two halves. -/
theorem exists_gives_long {v : Nat} (hv : v < 2 ^ 64) :
    ∃ words, Width.long.draw.Gives words v := by
  have hvalue : (((UInt32.ofNat (v / 2 ^ 32)).toUInt64 <<< 32) |||
      (UInt32.ofNat (v % 2 ^ 32)).toUInt64).toNat = v := by
    have hhigh : v / 2 ^ 32 < 2 ^ 32 := by omega
    have hlow : v % 2 ^ 32 < 2 ^ 32 := Nat.mod_lt _ (by decide)
    have hshift : (v / 2 ^ 32) <<< 32 < 2 ^ 64 := by
      rw [Nat.shiftLeft_eq]
      omega
    have hhalf : (32 : UInt64).toNat % 64 = 32 := by decide
    rw [UInt64.toNat_or, UInt64.toNat_shiftLeft, UInt32.toNat_toUInt64, UInt32.toNat_toUInt64,
      UInt32.toNat_ofNat_of_lt' hhigh, UInt32.toNat_ofNat_of_lt' hlow, hhalf,
      Nat.mod_eq_of_lt hshift, ← Nat.shiftLeft_add_eq_or_of_lt hlow, Nat.shiftLeft_eq]
    omega
  have hlong : long.Gives [UInt32.ofNat (v % 2 ^ 32), UInt32.ofNat (v / 2 ^ 32)] _ :=
    (gives_word _).bind ((gives_word _).bind (.pure _))
  have hwidth := hlong.map UInt64.toNat
  rw [hvalue] at hwidth
  exact ⟨_, hwidth⟩

/-- Every index is drawn from some words, unless there are too many indices. -/
theorem exists_gives_index {n i : Nat} (hi : i < n) (hn : n ≤ 2 ^ 64) :
    ∃ words, (index n).Gives words i := by
  -- the least number whose product with `n` has `i` as its high half
  obtain ⟨v, hv⟩ : ∃ v, v = (i * 2 ^ 64 + (n - 1)) / n := ⟨_, rfl⟩
  have hupper : v * n ≤ i * 2 ^ 64 + (n - 1) := hv ▸ Nat.div_mul_le_self _ n
  have hlower : i * 2 ^ 64 ≤ v * n := by
    have := Nat.lt_div_mul_add (by omega : 0 < n) (a := i * 2 ^ 64 + (n - 1))
    rw [← hv] at this
    omega
  have hhigh : v * n / 2 ^ 64 = i := by omega
  have hsmall : v < 2 ^ 64 := by
    refine Nat.lt_of_not_le fun hlarge => ?_
    have := Nat.mul_le_mul_right n hlarge
    omega
  have hzone : v * n % 2 ^ 64 ≤ Width.long.zone n := by
    have hpos : 0 < 2 ^ (63 - n.log2) := Nat.pow_pos (by decide)
    have hscaled := Nat.le_mul_of_pos_right n hpos
    show _ ≤ n * 2 ^ (63 - n.log2) - 1
    omega
  obtain ⟨words, hwords⟩ := exists_gives_long hsmall
  refine ⟨words, fun s hs => ?_⟩
  have hdrawn := belowWithin_succ .long n 127 s
  rw [hwords s hs] at hdrawn
  rw [← hhigh]
  exact hdrawn.trans (if_pos hzone)

/-- Every item of a list is picked for some words. -/
theorem exists_gives_pick {α : Type} (fallback : α) {items : List α} {a : α} (ha : a ∈ items)
    (hlength : items.length ≤ 2 ^ 64) : ∃ words, (pick fallback items).Gives words a := by
  obtain ⟨i, hi, rfl⟩ := List.getElem_of_mem ha
  obtain ⟨words, hwords⟩ := exists_gives_index hi hlength
  refine ⟨words, ?_⟩
  have hpick := hwords.map fun i => items.getD i fallback
  rwa [List.getD_eq_getElem?_getD, List.getElem?_eq_getElem hi, Option.getD_some] at hpick

end Draw
end LuaVeil
