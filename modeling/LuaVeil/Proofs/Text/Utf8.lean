/-
# Bytes of texts

A text is known from its bytes, and a byte below 128 stands for one character only: it is in
the code of no other.

Main statements: `utf8_inj` and `mem_utf8_iff`.
-/
import LuaVeil.Text.Basic

namespace LuaVeil.Text

theorem length_utf8 (t : Text) : (utf8 t).length = byteSize t := by
  induction t with
  | nil => rfl
  | cons c t ih =>
    rw [byteSize_cons, ← ih]
    simp [utf8]

/-- A text is known from its bytes. -/
theorem utf8_inj {s t : Text} : utf8 s = utf8 t ↔ s = t := by
  refine ⟨fun h => ?_, congrArg utf8⟩
  have hencode : s.utf8Encode = t.utf8Encode := congrArg List.toByteArray h
  rw [← String.toByteArray_ofList, ← String.toByteArray_ofList] at hencode
  exact String.ofList_inj.1 (String.toByteArray_inj.1 hencode)

/-- A byte below 128 is the code of the character of its number, and in no other code. -/
theorem mem_utf8EncodeChar_iff {b : UInt8} (hb : b.toNat < 128) {c : Char} :
    b ∈ String.utf8EncodeChar c ↔ c.toNat = b.toNat := by
  have hofNat : ∀ n, n < 256 → b = UInt8.ofNat n → n = b.toNat := by
    intro n hn heq
    rw [heq, UInt8.toNat_ofNat']
    omega
  have hvalue : c.toNat = c.val.toNat := rfl
  unfold String.utf8EncodeChar
  simp only
  split
  · next hsmall =>
    rw [List.mem_singleton]
    refine ⟨fun h => hofNat _ (by omega) h, fun h => ?_⟩
    rw [← hvalue, h, UInt8.ofNat_toNat]
  · next hlarge =>
    -- all bytes of a longer code are at least 128
    refine iff_of_false (fun h => ?_) (by omega)
    split at h
    · simp only [List.mem_cons, List.not_mem_nil, or_false] at h
      rcases h with h | h <;> have := hofNat _ (by omega) h <;> omega
    split at h
    · simp only [List.mem_cons, List.not_mem_nil, or_false] at h
      rcases h with h | h | h <;> have := hofNat _ (by omega) h <;> omega
    · simp only [List.mem_cons, List.not_mem_nil, or_false] at h
      rcases h with h | h | h | h <;> have := hofNat _ (by omega) h <;> omega

/-- A byte below 128 is among the bytes of a text exactly if its character is in the text. -/
theorem mem_utf8_iff {b : UInt8} (hb : b.toNat < 128) {t : Text} :
    b ∈ utf8 t ↔ Char.ofNat b.toNat ∈ t := by
  have hchar : ∀ c : Char, c.toNat = b.toNat ↔ c = Char.ofNat b.toNat := by
    intro c
    constructor
    · intro h
      rw [← h, Char.ofNat_toNat]
    · rintro rfl
      have hvalid : b.toNat.isValidChar := .inl (by omega)
      rw [Char.ofNat, dif_pos hvalid]
      rfl
  simp [utf8, mem_utf8EncodeChar_iff hb, hchar]

end LuaVeil.Text
