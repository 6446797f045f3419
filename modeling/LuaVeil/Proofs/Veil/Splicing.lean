/-
# Replacing names at sites

The sites of a script are some of its names, in order. Where they are replaced by
other words, each token of the script stays as it is or is one of the replaced
names, and so it is in the holes of interpolated strings.

Main statements:

* `exists_splice_code`, replacing names at sites in code replaces tokens;
* `exists_splice_pieces`, so it does in the pieces of an interpolated string.
-/
import LuaVeil.Proofs.Lua.Pieces
import LuaVeil.Proofs.Lua.Words
import LuaVeil.Veil.Renaming

namespace LuaVeil

/-! ## Steps of splicing -/

section

variable {rename : Name → Name} {place : Nat} {os : List Occurrence}

@[simp] theorem splice_nil (t : Text) : splice rename place [] t = t := rfl

/-- What stands in front of the first site stays. -/
theorem splice_append (s t : Text) (h : ∀ o ∈ os, place + Text.byteSize s ≤ o.offset) :
    splice rename place os (s ++ t) = s ++ splice rename (place + Text.byteSize s) os t := by
  cases os with
  | nil => rfl
  | cons o os =>
    have ho := h o List.mem_cons_self
    have hplace : o.offset - place = Text.byteSize s + (o.offset - (place + Text.byteSize s)) := by
      omega
    simp only [splice, hplace, splitAtByte_append_right, List.append_assoc]

/-- A site that is next is replaced. -/
theorem splice_site {o : Occurrence} (t : Text) (h : o.offset = place) :
    splice rename place (o :: os) (o.mark.text ++ t) =
      rename o.mark.text ++ splice rename (place + Text.byteSize o.mark.text) os t := by
  rw [splice, h, Nat.sub_self, splitAtByte_zero]
  simp

end

/-! ## Code -/

/-- What may stand for a token: itself, or the new name of a name with the property `p`. -/
def Renames (rename : Name → Name) (p : Name → Prop) (label : TokenKind × Text) (u : Text) : Prop :=
  u = label.2 ∨ label.1 = .word ∧ p label.2 ∧ u = rename label.2

theorem le_offset_of_mem_tokenizeFrom {offset : Nat} {code : Text} {t : Token}
    (h : t ∈ tokenizeFrom offset code) : offset ≤ t.offset := by
  fun_induction tokenizeFrom offset code with
  | case1 => cases h
  | case2 offset c rest first text ih =>
    rcases List.mem_cons.1 h with rfl | h
    · exact Nat.le_refl _
    · exact Nat.le_trans (Nat.le_add_right _ _) (ih h)

/-- The occurrences in code whose tokens begin at byte `offset` of it. -/
def occurrencesFrom (index start offset : Nat) (inHole : Bool) (code : Text) : List Occurrence :=
  (tokenizeFrom offset code).filterMap fun t =>
    t.mark?.map fun mark => ⟨mark, index, start + t.offset, inHole⟩

/-- An occurrence in code is the mark of a token. -/
theorem exists_token_of_mem_occurrencesFrom {index start offset : Nat} {inHole : Bool}
    {code : Text} {o : Occurrence} (h : o ∈ occurrencesFrom index start offset inHole code) :
    ∃ t ∈ tokenizeFrom offset code, ∃ mark,
      t.mark? = some mark ∧ o = ⟨mark, index, start + t.offset, inHole⟩ := by
  obtain ⟨t, ht, ho⟩ := List.mem_filterMap.1 h
  obtain ⟨mark, hmark, rfl⟩ := Option.map_eq_some_iff.1 ho
  exact ⟨t, ht, mark, hmark, rfl⟩

theorem le_offset_of_mem_occurrencesFrom {index start offset : Nat} {inHole : Bool} {code : Text}
    {o : Occurrence} (h : o ∈ occurrencesFrom index start offset inHole code) :
    start + offset ≤ o.offset := by
  obtain ⟨t, ht, mark, -, rfl⟩ := exists_token_of_mem_occurrencesFrom h
  exact Nat.add_le_add_left (le_offset_of_mem_tokenizeFrom ht) start

/-- The mark of a token that is a name. -/
theorem eq_word_of_isName {t : Token} {mark : Mark} (h : t.mark? = some mark)
    (hname : mark.isName = true) : t.kind = .word ∧ mark.text = t.text := by
  unfold Token.mark? at h
  split at h <;> cases h
  · exact ⟨by assumption, rfl⟩
  · cases hname
  · cases hname

/-- The occurrences in code are that of its first token, if it is no trivia, and the others. -/
theorem occurrencesFrom_cons (index start offset : Nat) (inHole : Bool) (c : Char) (t : Text) :
    occurrencesFrom index start offset inHole (c :: t) =
      ((⟨(lexeme c t).kind, c :: (lexeme c t).tail, offset⟩ : Token).mark?.map fun mark =>
        (⟨mark, index, start + offset, inHole⟩ : Occurrence)).toList ++
        occurrencesFrom index start (offset + Text.byteSize (c :: (lexeme c t).tail)) inHole
          (lexeme c t).rest := by
  rw [occurrencesFrom, tokenizeFrom, List.filterMap_cons]
  dsimp only
  cases Token.mark? _ <;> rfl

/-- Replacing names at sites in code replaces tokens, and what follows the code waits. -/
theorem exists_splice_code {rename : Name → Name} {p : Name → Prop} {index start : Nat}
    {inHole : Bool} (offset : Nat) (code : Text) {os : List Occurrence}
    (hos : os.Sublist (occurrencesFrom index start offset inHole code))
    (hnames : ∀ o ∈ os, o.mark.isName = true ∧ p o.mark.text) :
    ∃ us, List.Forall₂ (Renames rename p) (labels code) us ∧ ∀ more rest,
      (∀ o ∈ more, start + offset + Text.byteSize code ≤ o.offset) →
        splice rename (start + offset) (os ++ more) (code ++ rest) =
          us.flatten ++ splice rename (start + offset + Text.byteSize code) more rest := by
  induction code using induction_on_lexemes generalizing offset os with
  | nil =>
    rw [occurrencesFrom, tokenizeFrom] at hos
    obtain rfl := List.sublist_nil.1 hos
    exact ⟨[], by rw [labels_nil]; exact .nil, fun more rest _ => by simp⟩
  | @cons kind c tail left hlex ih =>
    rw [occurrencesFrom_cons, hlex] at hos
    rw [labels_cons, hlex]
    dsimp only at hos ⊢
    obtain ⟨os₁, os₂, rfl, hos₁, hos₂⟩ := List.sublist_append_iff.1 hos
    obtain ⟨us, hus, hsplice⟩ := ih _ hos₂
      fun o ho => hnames o (List.mem_append_right _ ho)
    have hsize : start + offset + Text.byteSize (c :: (tail ++ left)) =
        start + (offset + Text.byteSize (c :: tail)) + Text.byteSize left := by
      rw [← List.cons_append, Text.byteSize_append]
      omega
    have hgo : ∀ more rest, (∀ o ∈ more, start + offset +
        Text.byteSize (c :: (tail ++ left)) ≤ o.offset) →
        splice rename (start + offset + Text.byteSize (c :: tail)) (os₂ ++ more) (left ++ rest) =
          us.flatten ++ splice rename (start + offset + Text.byteSize (c :: (tail ++ left))) more
            rest := by
      intro more rest hmore
      rw [hsize] at hmore ⊢
      rw [Nat.add_assoc start offset]
      exact hsplice more rest hmore
    have hlater : ∀ more : List Occurrence, (∀ o ∈ more, start + offset +
        Text.byteSize (c :: (tail ++ left)) ≤ o.offset) →
        ∀ o ∈ os₂ ++ more, start + offset + Text.byteSize (c :: tail) ≤ o.offset := by
      intro more hmore o ho
      rcases List.mem_append.1 ho with ho | ho
      · have := le_offset_of_mem_occurrencesFrom (hos₂.subset ho)
        omega
      · have := hmore o ho
        omega
    have hmark : os₁ = [] ∨ ∃ mark, Token.mark? ⟨kind, c :: tail, offset⟩ = some mark ∧
        os₁ = [⟨mark, index, start + offset, inHole⟩] := by
      cases hm : Token.mark? ⟨kind, c :: tail, offset⟩ with
      | none =>
        rw [hm] at hos₁
        exact .inl (List.sublist_nil.1 hos₁)
      | some mark =>
        rw [hm] at hos₁
        exact (List.sublist_singleton.1 hos₁).imp_right fun h => ⟨mark, rfl, h⟩
    rcases hmark with rfl | ⟨mark, hmark, rfl⟩
    · refine ⟨(c :: tail) :: us, .cons (.inl rfl) hus, fun more rest hmore => ?_⟩
      have hskip := @splice_append rename _ _ (c :: tail) (left ++ rest) (hlater more hmore)
      rw [hgo more rest hmore, ← List.append_assoc, List.cons_append] at hskip
      rw [List.nil_append, hskip, List.flatten_cons, List.append_assoc]
    · obtain ⟨hname, hp⟩ := hnames _ (List.mem_append_left _ List.mem_cons_self)
      obtain ⟨hkind, htext⟩ := eq_word_of_isName hmark hname
      dsimp only at hkind htext hp
      rw [htext] at hp
      refine ⟨rename (c :: tail) :: us, .cons (.inr ⟨hkind, hp, rfl⟩) hus,
        fun more rest hmore => ?_⟩
      have hsite := @splice_site rename _ (os₂ ++ more) ⟨mark, index, start + offset, inHole⟩
        (left ++ rest) rfl
      dsimp only at hsite
      rw [htext, hgo more rest hmore, ← List.append_assoc, List.cons_append] at hsite
      rw [List.flatten_cons, List.append_assoc (rename _), ← hsite]
      rfl

/-- Replacing names at sites in a span of code replaces tokens of it. -/
theorem exists_splice_codeSpan {rename : Name → Name} {p : Name → Prop} {index : Nat}
    {code : Text} {os : List Occurrence} (hos : os.Sublist (codeOccurrences index 0 false code))
    (hnames : ∀ o ∈ os, o.mark.isName = true ∧ p o.mark.text) :
    ∃ us, List.Forall₂ (Renames rename p) (labels code) us ∧
      splice rename 0 os code = us.flatten := by
  obtain ⟨us, hus, hsplice⟩ := exists_splice_code 0 code hos hnames
  exact ⟨us, hus, by simpa using hsplice [] [] (by simp)⟩

/-! ## Interpolated strings -/

/-- The occurrences in the pieces of an interpolated string. -/
def pieceOccurrences (index place : Nat) (more : List (Text × Text)) : List Occurrence :=
  (placed place more).flatMap fun h => codeOccurrences index h.start true h.text

theorem le_offset_of_mem_pieceOccurrences {index place : Nat} {more : List (Text × Text)}
    {o : Occurrence} (h : o ∈ pieceOccurrences index place more) : place ≤ o.offset := by
  induction more generalizing place with
  | nil => cases h
  | cons x more ih =>
    obtain ⟨piece, next⟩ := x
    rcases List.mem_append.1 h with h | h
    · exact @le_offset_of_mem_occurrencesFrom index place 0 true piece o h
    · have := ih h
      omega

/-- Replacing names at sites in the pieces of a string replaces tokens of the pieces. -/
theorem exists_splice_pieces {rename : Name → Name} {p : Name → Prop} {index : Nat} (place : Nat)
    (gap : Text) (more : List (Text × Text)) {os : List Occurrence}
    (hos : os.Sublist (pieceOccurrences index (place + Text.byteSize gap) more))
    (hnames : ∀ o ∈ os, o.mark.isName = true ∧ p o.mark.text) :
    ∃ more', splice rename place os (assemble gap more) = assemble gap more' ∧
      List.Forall₂ (fun x y => y.2 = x.2 ∧ ∃ us, List.Forall₂ (Renames rename p) (labels x.1) us ∧
        y.1 = us.flatten) more more' := by
  induction more generalizing place gap os with
  | nil =>
    obtain rfl := List.sublist_nil.1 hos
    exact ⟨[], rfl, .nil⟩
  | cons x more ih =>
    obtain ⟨piece, next⟩ := x
    obtain ⟨os₁, os₂, rfl, hos₁, hos₂⟩ := List.sublist_append_iff.1 hos
    obtain ⟨us, hus, hsplice⟩ := exists_splice_code 0 piece hos₁
      fun o ho => hnames o (List.mem_append_left _ ho)
    obtain ⟨more', hmore', hall⟩ := ih _ next hos₂ fun o ho => hnames o (List.mem_append_right _ ho)
    refine ⟨(us.flatten, next) :: more', ?_, .cons ⟨rfl, us, hus, rfl⟩ hall⟩
    have hfirst : ∀ o ∈ os₁ ++ os₂, place + Text.byteSize gap ≤ o.offset := by
      intro o ho
      exact le_offset_of_mem_pieceOccurrences (hos.subset ho)
    have hsecond : ∀ o ∈ os₂, place + Text.byteSize gap + 0 + Text.byteSize piece ≤ o.offset := by
      intro o ho
      have := le_offset_of_mem_pieceOccurrences (hos₂.subset ho)
      omega
    have hpiece := hsplice os₂ (assemble next more) hsecond
    rw [Nat.add_zero, hmore'] at hpiece
    rw [assemble, List.append_assoc, splice_append gap _ hfirst, hpiece, assemble,
      List.append_assoc]

end LuaVeil
