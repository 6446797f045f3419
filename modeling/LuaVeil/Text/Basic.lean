/-
# Texts as lists of characters

A text is a list of characters. Positions and sizes in a text are counted in
bytes of its UTF-8 form: `byteSize` measures a text, `splitAtByte` cuts one,
and `utf8` lists its bytes. The remaining functions search, cut and join:

* `splitAfter? p t` cuts `t` just past the first occurrence of `p`;
* `splitLines` cuts at line feeds, and `joinWith` undoes such a cut;
* `replaceAll` exchanges every occurrence of a pattern, left to right.
-/

namespace LuaVeil

/-- A text: a list of characters. -/
abbrev Text := List Char

/-- A way to read a part at the start of a text: the part, and what follows it. -/
abbrev Reader (α : Type) := Text → Option (α × Text)

namespace Text

/-! ## Bytes -/

/-- Number of bytes that a text takes in UTF-8. -/
def byteSize : Text → Nat
  | [] => 0
  | c :: t => c.utf8Size + byteSize t

@[simp] theorem byteSize_nil : byteSize [] = 0 := rfl

@[simp] theorem byteSize_cons (c : Char) (t : Text) :
    byteSize (c :: t) = c.utf8Size + byteSize t := rfl

@[simp] theorem byteSize_append (s t : Text) : byteSize (s ++ t) = byteSize s + byteSize t := by
  induction s with
  | nil => simp
  | cons c s ih => simp [ih, Nat.add_assoc]

/-- The bytes of a text in UTF-8. -/
def utf8 (t : Text) : List UInt8 :=
  t.flatMap String.utf8EncodeChar

@[simp] theorem utf8_append (s t : Text) : utf8 (s ++ t) = utf8 s ++ utf8 t := by
  simp [utf8]

/-- The characters that begin before byte `n`, and all the others. -/
def splitAtByte : Nat → Text → Text × Text
  | _, [] => ([], [])
  | 0, t => ([], t)
  | n + 1, c :: t =>
    let (before, after) := splitAtByte (n + 1 - c.utf8Size) t
    (c :: before, after)

theorem splitAtByte_append (n : Nat) (t : Text) :
    (splitAtByte n t).1 ++ (splitAtByte n t).2 = t := by
  fun_induction splitAtByte n t <;> simp_all

/-! ## Searching -/

/-- Cut a text just past the first occurrence of `p`; `none` where `p` does not occur. -/
def splitAfter? (p : Text) : Text → Option (Text × Text)
  | [] => if p.isEmpty then some ([], []) else none
  | c :: t =>
    if p.isPrefixOf (c :: t) then some (p, (c :: t).drop p.length)
    else (splitAfter? p t).map fun (before, after) => (c :: before, after)

/-- Nothing is lost by the cut, and the first part ends in the pattern. -/
theorem splitAfter?_eq_some {p t before after : Text}
    (h : splitAfter? p t = some (before, after)) :
    before ++ after = t ∧ p <:+ before := by
  induction t generalizing before with
  | nil =>
    simp only [splitAfter?] at h
    split at h
    · simp at h
      simp_all
    · simp at h
  | cons c t ih =>
    simp only [splitAfter?] at h
    split at h
    · next hp =>
      obtain ⟨rest, hrest⟩ := List.isPrefixOf_iff_prefix.1 hp
      simp only [Option.some.injEq, Prod.mk.injEq] at h
      obtain ⟨rfl, rfl⟩ := h
      simp [← hrest]
    · cases hs : splitAfter? p t with
      | none => simp [hs] at h
      | some cut =>
        simp only [hs, Option.map_some, Option.some.injEq, Prod.mk.injEq] at h
        obtain ⟨rfl, rfl⟩ := h
        obtain ⟨happ, hsuf⟩ := ih hs
        exact ⟨by simp [happ], hsuf.trans (List.suffix_cons _ _)⟩

/-- Whether `p` occurs in `t`. -/
def occursIn (p t : Text) : Bool :=
  (splitAfter? p t).isSome

theorem length_lt_of_splitAfter? {p t before after : Text} (hp : p ≠ [])
    (h : splitAfter? p t = some (before, after)) : after.length < t.length := by
  obtain ⟨rfl, hsuf⟩ := splitAfter?_eq_some h
  have : p.length ≤ before.length := hsuf.length_le
  have : 0 < p.length := List.length_pos_iff.2 hp
  simp only [List.length_append]
  omega

/-- Exchange every occurrence of `p` for `q`, left to right and without overlap. -/
def replaceAll (p q : Text) (t : Text) : Text :=
  if _ : p = [] then t else
    match _ : splitAfter? p t with
    | none => t
    | some (before, after) =>
      before.take (before.length - p.length) ++ q ++ replaceAll p q after
termination_by t.length
decreasing_by exact length_lt_of_splitAfter? (by assumption) (by assumption)

/-! ## Cutting and joining -/

/-- Put `c` in front of the first piece. -/
def consFirst (c : Char) : List Text → List Text
  | [] => [[c]]
  | piece :: pieces => (c :: piece) :: pieces

/-- The pieces of a text between its line feeds: one more than it has line feeds. -/
def splitLines : Text → List Text
  | [] => [[]]
  | c :: t => if c = '\n' then [] :: splitLines t else consFirst c (splitLines t)

/-- The texts in order with a separator between neighbours. -/
def joinWith (separator : Text) (pieces : List Text) : Text :=
  List.intercalate separator pieces

/-- A text with A to Z made small; every other character stays. -/
def toLowerAscii (t : Text) : Text :=
  t.map Char.toLower

end Text
end LuaVeil
