/-
# Delimiters of strings and comments

A string stands between two equal quotes or between two long brackets of one
level. `Opener` names what begins at a place of a script that is not plain
code, `opener?` finds it, and `Opener.body?` reads on to the end of the string
or comment.

Main statements:

* `prefix_of_opener?`, an opener is found only where it is written;
* `longBody?_eq_splitAfter?`, a long string or comment goes on to the first bracket that closes it;
* `Opener.body?_append`, nothing is lost when the body is cut off.
-/
import LuaVeil.Text.Basic

namespace LuaVeil

/-! ## Strings -/

/-- How a string is delimited. -/
inductive Delimiter where
  /-- by the character `mark` on both sides -/
  | quote (mark : Char)
  /-- by long brackets with `level` equals signs -/
  | long (level : Nat)
  deriving DecidableEq

namespace Delimiter

/-- The text in front of the content. -/
def opening : Delimiter → Text
  | quote mark => [mark]
  | long level => '[' :: List.replicate level '=' ++ ['[']

/-- The text after the content. -/
def closing : Delimiter → Text
  | quote mark => [mark]
  | long level => ']' :: List.replicate level '=' ++ [']']

/-- A content with its delimiters. -/
def enclose (d : Delimiter) (content : Text) : Text :=
  d.opening ++ content ++ d.closing

theorem closing_ne_nil (level : Nat) : (long level).closing ≠ [] :=
  List.cons_ne_nil _ _

end Delimiter

/-- The characters that delimit strings on both sides. -/
def isQuote (c : Char) : Bool :=
  c == '"' || c == '\'' || c == '`'

/-- The level of the long bracket that opens at the start of a text. -/
def longLevel? : Text → Option Nat
  | '[' :: t =>
    if (t.dropWhile (· == '=')).head? = some '[' then some (t.takeWhile (· == '=')).length
    else none
  | _ => none

theorem takeWhile_eq_replicate (a : Char) (t : Text) :
    t.takeWhile (· == a) = List.replicate (t.takeWhile (· == a)).length a := by
  induction t with
  | nil => rfl
  | cons c t ih =>
    by_cases h : c = a
    · subst h
      simp only [List.takeWhile_cons, beq_self_eq_true, if_true, List.length_cons,
        List.replicate_succ]
      rw [← ih]
    · simp [h]

/-- As many equals signs as `level` and then another character. -/
theorem replicate_prefix_iff {level : Nat} {d : Char} (hd : d ≠ '=') {t : Text} :
    List.replicate level '=' ++ [d] <+: t ↔
      (t.takeWhile (· == '=')).length = level ∧ (t.dropWhile (· == '=')).head? = some d := by
  constructor
  · rintro ⟨rest, rfl⟩
    have hsigns : ∀ c ∈ List.replicate level '=', (c == '=') = true :=
      fun c hc => beq_iff_eq.2 (List.eq_of_mem_replicate hc)
    rw [List.append_assoc, List.takeWhile_append_of_pos hsigns, List.dropWhile_append_of_pos hsigns]
    simp [hd]
  · rintro ⟨hlevel, hhead⟩
    obtain ⟨rest, hrest⟩ := List.head?_eq_some_iff.1 hhead
    have hsplit := List.takeWhile_append_dropWhile (p := (· == '=')) (l := t)
    rw [takeWhile_eq_replicate, hlevel, hrest] at hsplit
    exact ⟨rest, by rw [← hsplit, List.append_assoc, List.singleton_append]⟩

theorem prefix_of_longLevel? {t : Text} {level : Nat} (h : longLevel? t = some level) :
    (Delimiter.long level).opening <+: t := by
  unfold longLevel? at h
  split at h
  · split at h
    · next hhead =>
      exact List.cons_prefix_cons.2
        ⟨rfl, (replicate_prefix_iff (by decide)).2 ⟨Option.some.inj h, hhead⟩⟩
    · cases h
  · cases h

/-! ## Openers -/

/-- What can begin at a place of a script that is not plain code. -/
inductive Opener where
  /-- a comment up to the end of its line -/
  | lineComment
  /-- a comment between long brackets -/
  | blockComment (level : Nat)
  | string (delimiter : Delimiter)
  deriving DecidableEq

/-- The opener at the start of a text. -/
def opener? : Text → Option Opener
  | [] => none
  | c :: t =>
    if c = '-' then
      match t with
      | '-' :: u =>
        match longLevel? u with
        | some level => some (.blockComment level)
        | none => some .lineComment
      | _ => none
    else if isQuote c then some (.string (.quote c))
    else (longLevel? (c :: t)).map fun level => .string (.long level)

namespace Opener

/-- The opener as it is written. -/
def text : Opener → Text
  | lineComment => ['-', '-']
  | blockComment level => '-' :: '-' :: (Delimiter.long level).opening
  | string delimiter => delimiter.opening

theorem length_text_pos (o : Opener) : 0 < o.text.length := by
  cases o with
  | lineComment => simp [text]
  | blockComment level => simp [text]
  | string d => cases d <;> simp [text, Delimiter.opening]

end Opener

/-- An opener is found only where it is written. -/
theorem prefix_of_opener? {t : Text} {o : Opener} (h : opener? t = some o) : o.text <+: t := by
  unfold opener? at h
  split at h
  · simp at h
  · next c t =>
    split at h
    · next hc =>
      subst hc
      split at h
      · next u =>
        split at h
        · next level hl =>
          simp only [Option.some.injEq] at h
          subst h
          obtain ⟨rest, hrest⟩ := prefix_of_longLevel? hl
          exact ⟨rest, by simp [Opener.text, hrest]⟩
        · simp only [Option.some.injEq] at h
          subst h
          exact ⟨u, rfl⟩
      · simp at h
    · split at h
      · simp only [Option.some.injEq] at h
        subst h
        exact ⟨t, rfl⟩
      · obtain ⟨level, hl, rfl⟩ := Option.map_eq_some_iff.1 h
        exact prefix_of_longLevel? hl

/-! ## Bodies -/

/--
The rest of a string after its opening quote, closing quote included, and what follows it;
`none` where the line or the text ends first. A backslash takes the next character with it.
-/
def quotedBody? (mark : Char) : Text → Option (Text × Text)
  | [] => none
  | [c] => if c = mark then some ([c], []) else none
  | c :: d :: t =>
    if c = '\\' then
      (quotedBody? mark t).map fun (body, rest) => (c :: d :: body, rest)
    else if c = '\n' then none
    else if c = mark then some ([c], d :: t)
    else (quotedBody? mark (d :: t)).map fun (body, rest) => (c :: body, rest)

theorem quotedBody?_append {mark : Char} {t body rest : Text}
    (h : quotedBody? mark t = some (body, rest)) : body ++ rest = t := by
  fun_induction quotedBody? mark t generalizing body rest with
  | case1 => simp at h
  | case2 =>
    simp only [Option.some.injEq, Prod.mk.injEq] at h
    simp [← h.1, ← h.2]
  | case3 => simp at h
  | case4 d t ih =>
    obtain ⟨⟨b, r⟩, hb, he⟩ := Option.map_eq_some_iff.1 h
    simp only [Prod.mk.injEq] at he
    simp [← he.1, ← he.2, ih hb]
  | case5 => simp at h
  | case6 =>
    simp only [Option.some.injEq, Prod.mk.injEq] at h
    simp [← h.1, ← h.2]
  | case7 c d t _ _ _ ih =>
    obtain ⟨⟨b, r⟩, hb, he⟩ := Option.map_eq_some_iff.1 h
    simp only [Prod.mk.injEq] at he
    simp [← he.1, ← he.2, ih hb]

/--
The rest of a long string or comment after its opener, closing bracket included, and what follows
it; `none` where it does not end. Behind a bracket the equals signs are counted. If they are not
as many as in the opener, or no bracket comes after them, the search goes on after them.
-/
def longBody? (level : Nat) (t : Text) : Option (Text × Text) :=
  match t with
  | [] => none
  | c :: t =>
    if c = ']' then
      let signs := t.takeWhile (· == '=')
      let after := t.dropWhile (· == '=')
      if signs.length = level ∧ after.head? = some ']' then
        some (c :: (signs ++ [']']), after.tail)
      else (longBody? level after).map fun (body, rest) => (c :: (signs ++ body), rest)
    else (longBody? level t).map fun (body, rest) => (c :: body, rest)
termination_by t.length
decreasing_by
  · exact Nat.lt_succ_of_le (List.dropWhile_suffix _).length_le
  · exact Nat.lt_succ_self _

/-- A pattern is searched behind characters with which it does not begin. -/
theorem splitAfter?_append {c : Char} {p s : Text} (h : ∀ d ∈ s, d ≠ c) (t : Text) :
    Text.splitAfter? (c :: p) (s ++ t) =
      (Text.splitAfter? (c :: p) t).map fun (before, after) => (s ++ before, after) := by
  induction s with
  | nil => simp
  | cons d s ih =>
    obtain ⟨hd, hs⟩ := List.forall_mem_cons.1 h
    have hnot : (c :: p).isPrefixOf (d :: (s ++ t)) = false := by
      simp [List.isPrefixOf, Ne.symm hd]
    rw [List.cons_append, Text.splitAfter?, hnot, if_neg Bool.false_ne_true, ih hs, Option.map_map]
    rfl

/-- The search ends at the first closing bracket: none begins where equals signs are skipped. -/
theorem longBody?_eq_splitAfter? (level : Nat) (t : Text) :
    longBody? level t = Text.splitAfter? (Delimiter.long level).closing t := by
  have hclosing : (Delimiter.long level).closing = ']' :: (List.replicate level '=' ++ [']']) := rfl
  have hcloses : ∀ t : Text, (Delimiter.long level).closing.isPrefixOf (']' :: t) = true ↔
      (t.takeWhile (· == '=')).length = level ∧ (t.dropWhile (· == '=')).head? = some ']' := by
    intro t
    rw [List.isPrefixOf_iff_prefix, hclosing, List.cons_prefix_cons, and_iff_right rfl,
      replicate_prefix_iff (by decide)]
  fun_induction longBody? level t with
  | case1 => rfl
  | case2 t signs after hclose =>
    obtain ⟨rest, hrest⟩ := List.head?_eq_some_iff.1 hclose.2
    have hsplit : signs ++ ']' :: rest = t := by
      rw [← hrest]
      exact List.takeWhile_append_dropWhile
    have hsigns : signs = List.replicate level '=' := by
      rw [← hclose.1]
      exact takeWhile_eq_replicate '=' t
    have hwritten : ']' :: t = (Delimiter.long level).closing ++ rest := by
      rw [hclosing, ← hsigns, ← hsplit]
      simp
    rw [Text.splitAfter?, if_pos ((hcloses t).2 hclose), hrest, hwritten, List.drop_left, hsigns]
    rfl
  | case3 t signs after hopen ih =>
    have hnot : ∀ d ∈ signs, d ≠ ']' := by
      intro d hd
      have hsigns : signs = List.replicate signs.length '=' := takeWhile_eq_replicate '=' t
      rw [hsigns] at hd
      rw [List.eq_of_mem_replicate hd]
      decide
    have hsplit : signs ++ after = t := List.takeWhile_append_dropWhile
    rw [Text.splitAfter?, if_neg (mt (hcloses t).1 hopen), ih, ← hsplit, hclosing,
      splitAfter?_append hnot, Option.map_map]
    rfl
  | case4 c t hc ih =>
    rw [ih, hclosing]
    exact (splitAfter?_append (List.forall_mem_singleton.2 hc) t).symm

/--
The rest of a string or comment after its opener, closing delimiter included, and what follows
it; `none` where it does not end. A line comment ends before its line feed.
-/
def Opener.body? : Opener → Text → Option (Text × Text)
  | lineComment, t => some (t.takeWhile (· != '\n'), t.dropWhile (· != '\n'))
  | blockComment level, t => longBody? level t
  | string (.long level), t => longBody? level t
  | string (.quote mark), t => quotedBody? mark t

/-- Nothing is lost when a body is cut off. -/
theorem Opener.body?_append {o : Opener} {t body rest : Text}
    (h : o.body? t = some (body, rest)) : body ++ rest = t := by
  have hlong : ∀ {level : Nat}, longBody? level t = some (body, rest) → body ++ rest = t := by
    intro level h
    rw [longBody?_eq_splitAfter?] at h
    exact (Text.splitAfter?_eq_some h).1
  cases o with
  | lineComment =>
    simp only [body?, Option.some.injEq, Prod.mk.injEq] at h
    simp [← h.1, ← h.2]
  | blockComment level => exact hlong h
  | string d =>
    cases d with
    | quote mark => exact quotedBody?_append h
    | long level => exact hlong h

end LuaVeil
