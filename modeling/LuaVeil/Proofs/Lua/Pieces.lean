/-
# Pieces of interpolated strings

The code in an interpolated string is read up to the next quote or closing brace,
so where it begins and ends depends on the braces and quotes in it alone. An
interpolated string is taken apart into its pieces of code and the gaps around
them; other code with the same braces can take the place of a piece.

Main statements:

* `exists_pieces`, the holes of a text are its pieces, and they stay where other
  pieces are put in;
* `replaceHoles_assemble`, a function is applied to each piece.
-/
import LuaVeil.Lua.Hole
import Mathlib.Data.List.Forall2

namespace LuaVeil

/-! ## Gaps and pieces -/

/-- A gap, and pieces of code with the gap after each. -/
def assemble : Text → List (Text × Text) → Text
  | gap, [] => gap
  | gap, (piece, next) :: more => gap ++ piece ++ assemble next more

/-- The pieces of an assembled text as holes; the first begins at byte `place`. -/
def placed (place : Nat) : List (Text × Text) → List Hole
  | [] => []
  | (piece, next) :: more =>
    ⟨place, piece⟩ :: placed (place + Text.byteSize piece + Text.byteSize next) more

/-- The characters at which reading code in a string may end. -/
def isHoleMark (c : Char) : Bool :=
  c == '{' || c == '}' || c == '"' || c == '\''

/-- Another piece of code can take the place of one: it is not empty and has the same braces. -/
def CanReplace (x y : Text × Text) : Prop :=
  y.2 = x.2 ∧ y.1 ≠ [] ∧ y.1.filter isHoleMark = x.1.filter isHoleMark

/-! ## Reading a piece -/

/-- The open braces after some code that is read to its end, given those before it. -/
def depthAfter (depth : Nat) : Text → Option Nat
  | [] => some depth
  | c :: t =>
    if c = '{' then depthAfter (depth + 1) t
    else if c = '}' then if depth = 0 then none else depthAfter (depth - 1) t
    else if c = '"' ∨ c = '\'' then none
    else depthAfter depth t

/-- How far code is read depends on its braces and quotes. -/
theorem depthAfter_filter (depth : Nat) (t : Text) :
    depthAfter depth (t.filter isHoleMark) = depthAfter depth t := by
  induction t generalizing depth with
  | nil => rfl
  | cons c t ih =>
    by_cases hmark : isHoleMark c = true
    · rw [List.filter_cons_of_pos hmark, depthAfter, depthAfter, ih, ih, ih]
    · rw [List.filter_cons_of_neg hmark, ih, depthAfter]
      simp only [isHoleMark, Bool.or_eq_true, beq_iff_eq, not_or] at hmark
      obtain ⟨⟨⟨hopen, hclose⟩, hquote⟩, hsingle⟩ := hmark
      rw [if_neg hopen, if_neg hclose, if_neg (by simp [hquote, hsingle])]

/-- Code that is read to its end is added to what is read. -/
theorem holesFrom_append {depth depth' start place : Nat} {read p : Text} (rest : Text)
    (h : depthAfter depth p = some depth') :
    holesFrom (.code depth start read) place (p ++ rest) =
      holesFrom (.code depth' start (p.reverse ++ read)) (place + Text.byteSize p) rest := by
  induction p generalizing depth read place with
  | nil =>
    obtain rfl := Option.some.inj h
    rfl
  | cons c p ih =>
    have hsize : place + c.utf8Size + Text.byteSize p = place + Text.byteSize (c :: p) := by
      rw [Text.byteSize_cons, Nat.add_assoc]
    have hread : p.reverse ++ c :: read = (c :: p).reverse ++ read := by simp
    rw [depthAfter] at h
    rw [List.cons_append, holesFrom, ← hsize, ← hread]
    split at h
    · next hopen =>
      rw [← ih h]
      simp [HoleMode.step, hopen]
    split at h
    · next hopen hclose =>
      split at h
      · cases h
      next hdepth =>
      obtain ⟨d, rfl⟩ := Nat.exists_eq_succ_of_ne_zero hdepth
      rw [← ih h]
      simp [HoleMode.step, hclose]
    split at h
    · cases h
    next hopen hclose hquote =>
    rw [← ih h]
    simp [HoleMode.step, hopen, hclose, hquote]

theorem depthAfter_cons (depth : Nat) (c : Char) (t : Text) :
    depthAfter depth (c :: t) = (depthAfter depth [c]).bind fun d => depthAfter d t := by
  simp only [depthAfter]
  split
  · rfl
  split
  · split <;> rfl
  split <;> rfl

/-- Code in a string ends at the end of the string, at a quote, or at the closing brace. -/
theorem exists_cut (depth : Nat) (t : Text) :
    ∃ p rest depth', t = p ++ rest ∧ depthAfter depth p = some depth' ∧
      (rest = [] ∨ ∃ c more, rest = c :: more ∧ (c = '}' ∧ depth' = 0 ∨ c = '"' ∨ c = '\'')) := by
  induction t generalizing depth with
  | nil => exact ⟨[], [], depth, rfl, rfl, .inl rfl⟩
  | cons c t ih =>
    cases hc : depthAfter depth [c] with
    | some d =>
      obtain ⟨p, rest, depth', rfl, hp, hrest⟩ := ih d
      exact ⟨c :: p, rest, depth', rfl, by rw [depthAfter_cons, hc]; exact hp, hrest⟩
    | none =>
      refine ⟨[], c :: t, depth, rfl, rfl, .inr ⟨c, t, rfl, ?_⟩⟩
      simp only [depthAfter] at hc
      split at hc
      · cases hc
      split at hc
      · next hclose =>
        split at hc
        · next hdepth => exact .inl ⟨hclose, hdepth⟩
        · cases hc
      split at hc
      · next hquote => exact .inr hquote
      · cases hc

/-! ## Taking a string apart -/

/-- Where a string is read, between its pieces or at the start of one. -/
inductive Zone where
  | plain
  | plainEscape
  /-- at the start of code with `depth` open braces -/
  | code (depth : Nat)
  | quoted (depth : Nat) (mark : Char)
  | quotedEscape (depth : Nat) (mark : Char)

/-- The mode in which a string is read from byte `place` on. -/
def Zone.mode (place : Nat) : Zone → HoleMode
  | plain => .plain
  | plainEscape => .plainEscape
  | code depth => .code depth place []
  | quoted depth mark => .quoted depth mark
  | quotedEscape depth mark => .quotedEscape depth mark

/-- Outside of code, a character completes no piece. -/
theorem Zone.exists_step {z : Zone} (hz : ∀ depth, z ≠ .code depth) (c : Char) :
    ∃ z' : Zone, ∀ place after, (z.mode place).step after c = (z'.mode after, []) := by
  cases z with
  | plain =>
    by_cases hslash : c = '\\'
    · exact ⟨.plainEscape, fun _ _ => by simp [mode, HoleMode.step, hslash]⟩
    by_cases hopen : c = '{'
    · exact ⟨.code 0, fun _ _ => by simp [mode, HoleMode.step, hopen]⟩
    · exact ⟨.plain, fun _ _ => by simp [mode, HoleMode.step, hslash, hopen]⟩
  | plainEscape => exact ⟨.plain, fun _ _ => rfl⟩
  | code depth => exact absurd rfl (hz depth)
  | quoted depth mark =>
    by_cases hmark : c = mark
    · exact ⟨.code depth, fun _ _ => by simp [mode, HoleMode.step, hmark]⟩
    by_cases hslash : c = '\\'
    · subst hslash
      exact ⟨.quotedEscape depth mark, fun _ _ => by simp [mode, HoleMode.step, hmark]⟩
    · exact ⟨.quoted depth mark, fun _ _ => by simp [mode, HoleMode.step, hmark, hslash]⟩
  | quotedEscape depth mark => exact ⟨.quoted depth mark, fun _ _ => rfl⟩

/-- At the end of code, a character completes what is read. -/
theorem Zone.exists_leave {c : Char} {depth : Nat} (hc : c = '}' ∧ depth = 0 ∨ c = '"' ∨ c = '\'') :
    ∃ z : Zone, ∀ after start read,
      (HoleMode.code depth start read).step after c = (z.mode after, holePieces start read) := by
  rcases hc with ⟨rfl, rfl⟩ | rfl | rfl
  · exact ⟨.plain, fun _ _ _ => rfl⟩
  · exact ⟨.quoted depth '"', fun _ _ _ => rfl⟩
  · exact ⟨.quoted depth '\'', fun _ _ _ => rfl⟩

theorem assemble_cons (c : Char) (gap : Text) (more : List (Text × Text)) :
    assemble (c :: gap) more = c :: assemble gap more := by
  cases more <;> rfl

theorem holePieces_reverse (start : Nat) (p : Text) :
    holePieces start p.reverse = if p = [] then [] else [⟨start, p⟩] := by
  cases p <;> simp [holePieces]

/-- Code at the start of a string, up to where it ends. -/
theorem holesFrom_code {depth depth' place : Nat} {q rest : Text} {found : List Hole}
    (hq : depthAfter depth q = some depth')
    (hrest : ∀ read, holesFrom (.code depth' place read) (place + Text.byteSize q) rest =
      holePieces place read ++ found) :
    holesFrom ((Zone.code depth).mode place) place (q ++ rest) =
      (if q = [] then [] else [⟨place, q⟩]) ++ found := by
  rw [Zone.mode, holesFrom_append rest hq, hrest, List.append_nil, holePieces_reverse]

/-- Code in front of a gap with pieces after it is a piece, too, if there is any. -/
theorem exists_pieces_of_code {z : Zone} {p gap : Text} {more : List (Text × Text)}
    (hmore : ∀ x ∈ more, x.1 ≠ [])
    (hgo : ∀ (q : Text) more', q.filter isHoleMark = p.filter isHoleMark →
      List.Forall₂ CanReplace more more' → ∀ place,
        holesFrom (z.mode place) place (q ++ assemble gap more') =
          (if q = [] then [] else [⟨place, q⟩]) ++
            placed (place + Text.byteSize q + Text.byteSize gap) more') :
    ∃ front pieces, assemble front pieces = p ++ assemble gap more ∧ (∀ x ∈ pieces, x.1 ≠ []) ∧
      ∀ place pieces', List.Forall₂ CanReplace pieces pieces' →
        holesFrom (z.mode place) place (assemble front pieces') =
          placed (place + Text.byteSize front) pieces' := by
  by_cases hnil : p = []
  · subst hnil
    exact ⟨gap, more, rfl, hmore, fun place more' h => hgo [] more' rfl h place⟩
  · refine ⟨[], (p, gap) :: more, rfl, List.forall_mem_cons.2 ⟨hnil, hmore⟩, ?_⟩
    rintro place _ (_ | ⟨⟨hgap, hne, hfilter⟩, h⟩)
    rename_i x more'
    obtain ⟨q, next⟩ := x
    obtain rfl : next = gap := hgap
    have hread := hgo q more' hfilter h place
    rw [if_neg hne] at hread
    exact hread

/--
A text that is read from a zone on is a gap with pieces after it. The pieces are the holes, and so
are others that can take their places.
-/
theorem exists_piecesFrom (z : Zone) (t : Text) :
    ∃ gap more, assemble gap more = t ∧ (∀ x ∈ more, x.1 ≠ []) ∧
      ∀ place more', List.Forall₂ CanReplace more more' →
        holesFrom (z.mode place) place (assemble gap more') =
          placed (place + Text.byteSize gap) more' := by
  induction hn : t.length using Nat.strongRecOn generalizing z t with
  | ind n ih =>
    by_cases hz : ∀ depth, z ≠ .code depth
    · cases t with
      | nil =>
        refine ⟨[], [], rfl, by simp, ?_⟩
        rintro place _ (_ | _)
        cases z with
        | code depth => exact absurd rfl (hz depth)
        | _ => rfl
      | cons c t =>
        obtain ⟨z', hstep⟩ := Zone.exists_step hz c
        obtain ⟨gap, more, rfl, hmore, hholes⟩ := ih t.length (by rw [← hn]; simp) z' t rfl
        refine ⟨c :: gap, more, assemble_cons c gap more, hmore, fun place more' h => ?_⟩
        rw [assemble_cons, holesFrom, hstep]
        dsimp only
        rw [hholes _ _ h, Text.byteSize_cons, List.nil_append, Nat.add_assoc]
    · simp only [not_forall, not_not] at hz
      obtain ⟨depth, rfl⟩ := hz
      obtain ⟨p, rest, depth', rfl, hp, hrest⟩ := exists_cut depth t
      have hq : ∀ {q : Text}, q.filter isHoleMark = p.filter isHoleMark →
          depthAfter depth q = some depth' := by
        intro q hfilter
        rw [← depthAfter_filter, hfilter, depthAfter_filter, hp]
      rcases hrest with rfl | ⟨c, rest, rfl, hc⟩
      · refine @exists_pieces_of_code _ p [] [] (by simp) ?_
        rintro q _ hfilter (_ | _) place
        refine holesFrom_code (hq hfilter) fun read => ?_
        rw [assemble, placed, List.append_nil]
        rfl
      · obtain ⟨z', hleave⟩ := Zone.exists_leave hc
        obtain ⟨gap, more, rfl, hmore, hholes⟩ :=
          ih rest.length (by rw [← hn]; simp; omega) z' rest rfl
        rw [← assemble_cons]
        refine exists_pieces_of_code hmore fun q more' hfilter h place => ?_
        refine holesFrom_code (hq hfilter) fun read => ?_
        rw [assemble_cons, holesFrom, hleave]
        dsimp only
        rw [hholes _ _ h, Text.byteSize_cons, Nat.add_assoc (place + Text.byteSize q)]

/-- Only a text that begins with a backtick has holes. -/
theorem holes_of_head? {t : Text} (h : t.head? ≠ some '`') : holes t = [] := by
  unfold holes
  split
  · exact absurd rfl h
  · rfl

/-- The holes of a text are its pieces, and so are others that can take their places. -/
theorem exists_pieces (t : Text) :
    ∃ gap more, assemble gap more = t ∧ (∀ x ∈ more, x.1 ≠ []) ∧
      ∀ more', List.Forall₂ CanReplace more more' →
        holes (assemble gap more') = placed (Text.byteSize gap) more' := by
  by_cases ht : ∃ rest, t = '`' :: rest
  · obtain ⟨rest, rfl⟩ := ht
    obtain ⟨gap, more, rfl, hmore, hholes⟩ := exists_piecesFrom .plain rest
    refine ⟨'`' :: gap, more, assemble_cons _ gap more, hmore, fun more' h => ?_⟩
    rw [assemble_cons]
    exact hholes 1 more' h
  · refine ⟨t, [], rfl, by simp, ?_⟩
    rintro _ (_ | _)
    exact holes_of_head? fun hhead => ht (List.head?_eq_some_iff.1 hhead)

/-! ## Replacing pieces -/

/-- A text from byte `place` on, with a function applied to the code in each of its holes. -/
def replaceHoles (f : Text → Text) (place : Nat) : List Hole → Text → Text
  | [], t => t
  | h :: more, t =>
    let (before, rest) := Text.splitAtByte (h.start - place) t
    before ++ f h.text ++ replaceHoles f h.stop more (rest.drop h.text.length)

theorem splitAtByte_append_right (s t : Text) (n : Nat) :
    Text.splitAtByte (Text.byteSize s + n) (s ++ t) =
      (s ++ (Text.splitAtByte n t).1, (Text.splitAtByte n t).2) := by
  induction s with
  | nil => simp
  | cons c s ih =>
    have hpos := c.utf8Size_pos
    obtain ⟨k, hk⟩ : ∃ k, Text.byteSize (c :: s) + n = k + 1 :=
      ⟨Text.byteSize (c :: s) + n - 1, by rw [Text.byteSize_cons]; omega⟩
    have hrest : k + 1 - c.utf8Size = Text.byteSize s + n := by
      rw [← hk, Text.byteSize_cons]
      omega
    rw [hk, List.cons_append, Text.splitAtByte, hrest, ih]
    rfl

@[simp] theorem splitAtByte_zero (t : Text) : Text.splitAtByte 0 t = ([], t) := by
  cases t <;> rfl

theorem splitAtByte_byteSize (s t : Text) :
    Text.splitAtByte (Text.byteSize s) (s ++ t) = (s, t) := by
  simpa using splitAtByte_append_right s t 0

/-- A function is applied to each piece. -/
theorem replaceHoles_assemble (f : Text → Text) (place : Nat) (gap : Text)
    (more : List (Text × Text)) :
    replaceHoles f place (placed (place + Text.byteSize gap) more) (assemble gap more) =
      assemble gap (more.map fun x => (f x.1, x.2)) := by
  induction more generalizing place gap with
  | nil => rfl
  | cons x more ih =>
    obtain ⟨piece, next⟩ := x
    have hcut := splitAtByte_byteSize gap (piece ++ assemble next more)
    rw [List.map_cons, placed, replaceHoles, assemble, Nat.add_sub_cancel_left, List.append_assoc,
      hcut]
    dsimp only
    rw [List.drop_left, Hole.stop, ih]
    rfl

end LuaVeil
