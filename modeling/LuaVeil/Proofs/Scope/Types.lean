/-
# Types

A type of Luau is built from names, dotted names, generics, optional types,
unions, intersections, arrows, parentheses and tables. A cursor that moves over
one knows nothing of this: it passes simple types, each perhaps optional, with
operators between them, and it passes brackets by counting them.

Main statements:

* `TypePhrase.balanced`, the brackets of a type are balanced;
* `TypePhrase.chain`, a type is a chain of simple types;
* `skipType_of_phrase`, a cursor in front of a type ends right behind it, unless
  the type could go on there.
-/
import LuaVeil.Proofs.Scope.Phrases

namespace LuaVeil

/-- The mark of a symbol. -/
def Mark.sign (s : String) : Mark :=
  .symbol s.toList

theorem isSymbolOf_sign {s : String} {symbols : List String} (h : s ∈ symbols) :
    (Mark.sign s).isSymbolOf symbols = true :=
  List.any_eq_true.2 ⟨s, h, beq_self_eq_true s.toList⟩

/-! ## Types -/

/-- What is written inside a type: types, entries between brackets, lists of entries. -/
inductive TypePart where
  | type
  | entry
  | entries

/-- Whether a mark is a word. -/
def Mark.isWord : Mark → Bool
  | .word _ => true
  | _ => false

/-- A word and the words after it, with points between them. -/
def dotted (w : Text) (path : List Text) : List Mark :=
  .word w :: path.flatMap fun v => [.sign ".", .word v]

/--
The marks of types and of their parts. What stands between brackets is the same for all of them: the
arguments of generics, the parameters of arrows and the fields of tables are lists of entries.
-/
inductive TypePhrase : TypePart → List Mark → Prop
  | name {w : Text} {path : List Text} :
      w ≠ "typeof".toList → TypePhrase .type (dotted w path)
  | generic {w : Text} {path : List Text} {es : List Mark} :
      w ≠ "typeof".toList → TypePhrase .entries es →
      TypePhrase .type (dotted w path ++ .sign "<" :: es ++ [.sign ">"])
  | optional {t : List Mark} : TypePhrase .type t → TypePhrase .type (t ++ [.sign "?"])
  | operator {t u : List Mark} {s : String} :
      s ∈ ["|", "&", "->"] → TypePhrase .type t → TypePhrase .type u →
      TypePhrase .type (t ++ .sign s :: u)
  | parenthesised {es : List Mark} :
      TypePhrase .entries es → TypePhrase .type (.sign "(" :: es ++ [.sign ")"])
  | table {es : List Mark} :
      TypePhrase .entries es → TypePhrase .type (.sign "\x7b" :: es ++ [.sign "\x7d"])
  | plain {t : List Mark} : TypePhrase .type t → TypePhrase .entry t
  | labelled {w : Text} {t : List Mark} :
      TypePhrase .type t → TypePhrase .entry (.word w :: .sign ":" :: t)
  | keyed {k t : List Mark} :
      TypePhrase .type k → TypePhrase .type t →
      TypePhrase .entry (.sign "[" :: k ++ .sign "]" :: .sign ":" :: t)
  | variadic {t : List Mark} : TypePhrase .type t → TypePhrase .entry (.sign "..." :: t)
  | none : TypePhrase .entries []
  | last {e : List Mark} : TypePhrase .entry e → TypePhrase .entries e
  | more {e es : List Mark} {s : String} :
      s ∈ [",", ";"] → TypePhrase .entry e → TypePhrase .entries es →
      TypePhrase .entries (e ++ .sign s :: es)

theorem TypePhrase.word (w : String) (hw : w ≠ "typeof") : TypePhrase .type [.word w.toList] :=
  @TypePhrase.name w.toList [] fun h => hw (String.toList_inj.1 h)

/-! ## Balanced brackets -/

/-- The brackets that open: `<` if `angle` is set, and all others if not. -/
def openers (angle : Bool) : List String :=
  if angle then ["<"] else Cursor.openBrackets

/-- The brackets that close: `>` if `angle` is set, and all others if not. -/
def closers (angle : Bool) : List String :=
  if angle then [">"] else Cursor.closeBrackets

/-- Whether a mark is neither an opening nor a closing bracket. -/
def Mark.isPlain (angle : Bool) (m : Mark) : Bool :=
  !m.isSymbolOf (openers angle) && !m.isSymbolOf (closers angle)

/-- Marks between which every bracket that opens is closed, and none else. -/
inductive Balanced (angle : Bool) : List Mark → Prop
  | nil : Balanced angle []
  | plain {m : Mark} {ms : List Mark} :
      m.isPlain angle = true → Balanced angle ms → Balanced angle (m :: ms)
  | bracketed {b b' : Mark} {inside ms : List Mark} :
      b.isSymbolOf (openers angle) = true → Balanced angle inside →
      b'.isSymbolOf (closers angle) = true → Balanced angle ms →
      Balanced angle (b :: inside ++ b' :: ms)

namespace Balanced

variable {angle : Bool} {ms ms' : List Mark}

theorem append (h : Balanced angle ms) (h' : Balanced angle ms') : Balanced angle (ms ++ ms') := by
  induction h with
  | nil => exact h'
  | plain hm _ ih => exact .plain hm ih
  | bracketed hb hinside hb' _ _ ih =>
    rw [List.cons_append, List.cons_append, List.append_assoc]
    exact .bracketed hb hinside hb' ih

end Balanced

theorem isPlain_word (angle : Bool) (w : Text) : (Mark.word w).isPlain angle = true := rfl

/-- The signs of types other than brackets. -/
theorem isPlain_sign (angle : Bool) {s : String}
    (h : s ∈ [".", "?", "|", "&", "->", ":", "...", ",", ";"]) :
    (Mark.sign s).isPlain angle = true := by
  have hall : ∀ s ∈ [".", "?", "|", "&", "->", ":", "...", ",", ";"],
      (Mark.sign s).isPlain angle = true := by
    cases angle <;> decide
  exact hall s h

/-- Brackets around balanced marks; those of the other sort do not count. -/
theorem Balanced.enclosed (angle : Bool) {inside : List Mark} {s s' : String}
    (hpair : (s, s') ∈ [("<", ">"), ("(", ")"), ("[", "]"), ("\x7b", "\x7d")])
    (h : Balanced angle inside) : Balanced angle (.sign s :: inside ++ [.sign s']) := by
  have hsort : ∀ p ∈ [("<", ">"), ("(", ")"), ("[", "]"), ("\x7b", "\x7d")],
      ((Mark.sign p.1).isSymbolOf (openers angle) = true ∧
        (Mark.sign p.2).isSymbolOf (closers angle) = true) ∨
      ((Mark.sign p.1).isPlain angle = true ∧ (Mark.sign p.2).isPlain angle = true) := by
    cases angle <;> decide
  rcases hsort _ hpair with ⟨hopen, hclose⟩ | ⟨hopen, hclose⟩
  · exact .bracketed hopen h hclose .nil
  · exact .plain hopen (h.append (.plain hclose .nil))

theorem balanced_dotted (angle : Bool) (w : Text) (path : List Text) :
    Balanced angle (dotted w path) := by
  refine .plain (isPlain_word angle w) ?_
  induction path with
  | nil => exact .nil
  | cons v path ih => exact .plain (isPlain_sign angle (by simp)) (.plain (isPlain_word angle v) ih)

/-- The brackets of a type are balanced. -/
theorem TypePhrase.balanced (angle : Bool) {part : TypePart} {ms : List Mark}
    (h : TypePhrase part ms) : Balanced angle ms := by
  induction h with
  | name => exact balanced_dotted angle _ _
  | generic _ _ ih =>
    rw [List.append_assoc]
    exact (balanced_dotted angle _ _).append (ih.enclosed angle (by simp))
  | optional _ ih => exact ih.append (.plain (isPlain_sign angle (by simp)) .nil)
  | operator hs _ _ iht ihu => exact iht.append (.plain (isPlain_sign angle (by grind)) ihu)
  | parenthesised _ ih => exact ih.enclosed angle (by simp)
  | table _ ih => exact ih.enclosed angle (by simp)
  | plain _ ih => exact ih
  | labelled _ ih => exact .plain (isPlain_word angle _) (.plain (isPlain_sign angle (by simp)) ih)
  | keyed _ _ ihk iht =>
    have hkey : Balanced angle (.sign "[" :: _ ++ [.sign "]"]) := ihk.enclosed angle (by simp)
    simpa using hkey.append (.plain (isPlain_sign angle (by simp)) iht)
  | variadic _ ih => exact .plain (isPlain_sign angle (by simp)) ih
  | none => exact .nil
  | last _ ih => exact ih
  | more hs _ _ ihe ihes => exact ihe.append (.plain (isPlain_sign angle (by grind)) ihes)

/-! ## Chains -/

/-- Types without operators, as a cursor passes them. -/
inductive SimplePhrase : List Mark → Prop
  | name {w : Text} {path : List Text} : w ≠ "typeof".toList → SimplePhrase (dotted w path)
  | generic {w : Text} {path : List Text} {inside : List Mark} :
      w ≠ "typeof".toList → Balanced true inside →
      SimplePhrase (dotted w path ++ (.sign "<" :: inside ++ [.sign ">"]))
  | bracketed {s s' : String} {inside : List Mark} :
      s ∈ Cursor.openBrackets → Balanced false inside → s' ∈ Cursor.closeBrackets →
      SimplePhrase (.sign s :: inside ++ [.sign s'])

/-- Simple types, each with question marks behind it, and operators between them. -/
inductive Chain : List Mark → Prop
  | last {t : List Mark} (n : Nat) :
      SimplePhrase t → Chain (t ++ List.replicate n (.sign "?"))
  | more {t u : List Mark} (n : Nat) {s : String} :
      SimplePhrase t → s ∈ ["|", "&", "->"] → Chain u →
      Chain (t ++ List.replicate n (.sign "?") ++ .sign s :: u)

theorem Chain.optional {t : List Mark} (h : Chain t) : Chain (t ++ [.sign "?"]) := by
  induction h with
  | last n ht =>
    rw [List.append_assoc, ← List.replicate_succ']
    exact .last (n + 1) ht
  | more n ht hs _ ih =>
    rw [List.append_assoc, List.cons_append]
    exact .more n ht hs ih

theorem Chain.operator {t u : List Mark} {s : String} (hs : s ∈ ["|", "&", "->"]) (ht : Chain t)
    (hu : Chain u) : Chain (t ++ .sign s :: u) := by
  induction ht with
  | last n ht => exact .more n ht hs hu
  | more n ht hs' _ ih =>
    rw [List.append_assoc, List.cons_append]
    exact .more n ht hs' ih

theorem SimplePhrase.chain {t : List Mark} (h : SimplePhrase t) : Chain t := by
  simpa using Chain.last 0 h

/-- A type is a chain of simple types. -/
theorem TypePhrase.chain {ms : List Mark} (h : TypePhrase .type ms) : Chain ms := by
  generalize hpart : TypePart.type = part at h
  induction h with
  | name hw => exact (SimplePhrase.name hw).chain
  | generic hw hes =>
    rw [List.append_assoc]
    exact (SimplePhrase.generic hw (hes.balanced true)).chain
  | optional _ ih => exact (ih hpart).optional
  | operator hs _ _ iht ihu => exact .operator hs (iht hpart) (ihu hpart)
  | parenthesised hes =>
    exact (SimplePhrase.bracketed (by decide) (hes.balanced false) (by decide)).chain
  | table hes =>
    exact (SimplePhrase.bracketed (by decide) (hes.balanced false) (by decide)).chain
  | plain | labelled | keyed | variadic | none | last | more => cases hpart

/-! ## Occurrences and their marks -/

/-- Whether occurrences, none of them in a hole, have some marks. -/
def ReadsAs (os : List Occurrence) (ms : List Mark) : Prop :=
  os.map Occurrence.mark = ms ∧ ∀ o ∈ os, o.inHole = false

theorem readsAs_nil {os : List Occurrence} : ReadsAs os [] ↔ os = [] := by
  constructor
  · exact fun h => List.map_eq_nil_iff.1 h.1
  · rintro rfl
    exact ⟨rfl, by simp⟩

theorem readsAs_cons {os : List Occurrence} {m : Mark} {ms : List Mark} :
    ReadsAs os (m :: ms) ↔
      ∃ o os', os = o :: os' ∧ o.mark = m ∧ o.inHole = false ∧ ReadsAs os' ms := by
  constructor
  · rintro ⟨hmarks, hholes⟩
    obtain ⟨o, os', rfl, hm, hms⟩ := List.map_eq_cons_iff.1 hmarks
    obtain ⟨ho, hos⟩ := List.forall_mem_cons.1 hholes
    exact ⟨o, os', rfl, hm, ho, hms, hos⟩
  · rintro ⟨o, os', rfl, rfl, ho, rfl, hos⟩
    exact ⟨rfl, List.forall_mem_cons.2 ⟨ho, hos⟩⟩

theorem readsAs_append {os : List Occurrence} {ms ms' : List Mark} :
    ReadsAs os (ms ++ ms') ↔ ∃ os₁ os₂, os = os₁ ++ os₂ ∧ ReadsAs os₁ ms ∧ ReadsAs os₂ ms' := by
  constructor
  · rintro ⟨hmarks, hholes⟩
    obtain ⟨os₁, os₂, rfl, h₁, h₂⟩ := List.map_eq_append_iff.1 hmarks
    obtain ⟨hholes₁, hholes₂⟩ := List.forall_mem_append.1 hholes
    exact ⟨os₁, os₂, rfl, ⟨h₁, hholes₁⟩, h₂, hholes₂⟩
  · rintro ⟨os₁, os₂, rfl, ⟨rfl, h₁⟩, rfl, h₂⟩
    exact ⟨List.map_append, List.forall_mem_append.2 ⟨h₁, h₂⟩⟩

theorem ReadsAs.firstMark_append {os rest : List Occurrence} {m : Mark} {ms : List Mark}
    (h : ReadsAs os (m :: ms)) : firstMark (os ++ rest) = some m := by
  obtain ⟨o, os', rfl, rfl, -⟩ := readsAs_cons.1 h
  rfl

/-- The last of some marks, which follow the mark `f`. -/
def lastMark (f : Option Mark) (ms : List Mark) : Option Mark :=
  ms.getLast?.or f

@[simp] theorem lastMark_nil (f : Option Mark) : lastMark f [] = f := rfl

theorem lastMark_cons (f : Option Mark) (m : Mark) (ms : List Mark) :
    lastMark f (m :: ms) = lastMark (some m) ms := by
  simp [lastMark, List.getLast?_cons, Option.or_some]

theorem lastMark_append (f : Option Mark) (ms ms' : List Mark) :
    lastMark f (ms ++ ms') = lastMark (lastMark f ms) ms' := by
  simp [lastMark, Option.or_assoc]

theorem lastMark_concat (f : Option Mark) (ms : List Mark) (m : Mark) :
    lastMark f (ms ++ [m]) = some m := by
  simp [lastMark]

/-! ## Last marks of types -/

/-- Whether a type can end in this mark. -/
def Mark.endsType (m : Mark) : Bool :=
  m.isWord || m.isSymbolOf ["?", ">", ")", "]", "\x7d"]

theorem isWord_lastMark_dotted (f : Option Mark) (w : Text) (path : List Text) :
    (lastMark f (dotted w path)).any Mark.isWord = true := by
  unfold dotted
  induction path generalizing f w with
  | nil => rfl
  | cons v path ih =>
    rw [List.flatMap_cons, List.cons_append, List.cons_append, List.nil_append, lastMark_cons,
      lastMark_cons]
    exact ih _ v

theorem SimplePhrase.endsType {ms : List Mark} (h : SimplePhrase ms) (f : Option Mark) :
    (lastMark f ms).any Mark.endsType = true := by
  cases h with
  | @name w path hw =>
    obtain ⟨m, hm, hword⟩ := (Option.any_eq_true _ _).1 (isWord_lastMark_dotted f w path)
    rw [hm, Option.any_some, Mark.endsType, hword, Bool.true_or]
  | generic hw hinside =>
    rw [← List.append_assoc, lastMark_concat]
    decide
  | @bracketed s s' inside hs hinside hs' =>
    have hclose : ∀ s ∈ Cursor.closeBrackets, (Mark.sign s).endsType = true := by decide
    rw [lastMark_concat, Option.any_some, hclose s' hs']

theorem Chain.endsType {ms : List Mark} (h : Chain ms) (f : Option Mark) :
    (lastMark f ms).any Mark.endsType = true := by
  induction h generalizing f with
  | last n ht =>
    rw [lastMark_append]
    cases n with
    | zero => exact ht.endsType f
    | succ n =>
      rw [List.replicate_succ', lastMark_concat]
      decide
  | more n ht hs _ ih =>
    rw [lastMark_append, lastMark_cons]
    exact ih _

/-! ## Moving over types -/

/-- Whether a type whose last mark is `last` goes on with `next`. -/
def goesOn (last next : Option Mark) : Bool :=
  next.any (Mark.isSymbolOf ["?", "|", "&", "->"]) ||
    last.any Mark.isWord && next.any (Mark.isSymbolOf [".", "<"])

theorem goesOn_eq_false (last : Option Mark) {next : Option Mark}
    (h : next.any (Mark.isSymbolOf ["?", "|", "&", "->", ".", "<"]) = false) :
    goesOn last next = false := by
  rw [goesOn, any_isSymbolOf_of_subset h _ (by simp),
    any_isSymbolOf_of_subset h [".", "<"] (by simp), Bool.and_false, Bool.or_false]

namespace Cursor

variable {angle : Bool} {os rest : List Occurrence} {ms : List Mark}

/-! ### Brackets -/

variable {c : Cursor} {o : Occurrence} {ahead : List Occurrence}

theorem skipBalanced_cons (hc : c.ahead = o :: ahead)
    (angle : Bool) (depth : Nat) :
    c.skipBalanced angle depth =
      if o.mark.isSymbolOf (openers angle) then (c.past o ahead).skipBalanced angle (depth + 1)
      else if o.mark.isSymbolOf (closers angle) then
        if depth ≤ 1 then c.past o ahead else (c.past o ahead).skipBalanced angle (depth - 1)
      else (c.past o ahead).skipBalanced angle depth := by
  rw [ skipBalanced]
  split
  · next h => cases h.symm.trans hc
  · next o' ahead' h =>
    obtain ⟨rfl, rfl⟩ := List.cons.inj (h.symm.trans hc)
    rfl

/-- Brackets that open where the scripts have not parted yet are longer than what is left. -/
theorem lt_of_skipBalanced {symbols : List String} {angle : Bool} {n : Nat}
    (hs : c.sees 0 symbols = true) (hn : n ≤ (c.skipBalanced angle 0).ahead.length) :
    0 + n < c.ahead.length := by
  obtain ⟨o, ahead, hc⟩ := exists_of_sees hs
  have hlt : (c.skipBalanced angle 0).ahead.length < c.ahead.length := length_skipBalanced_lt hc
  omega

/-- Without brackets everything is passed. -/
theorem ahead_skipBalanced_of_plain (angle : Bool) (depth : Nat)
    (h : ∀ o ∈ c.ahead, o.mark.isPlain angle = true) : (c.skipBalanced angle depth).ahead = [] := by
  obtain ⟨b, f, os⟩ := c
  induction os generalizing b f with
  | nil =>
    unfold skipBalanced
    rfl
  | cons o os ih =>
    obtain ⟨ho, hos⟩ := List.forall_mem_cons.1 h
    rw [Mark.isPlain, Bool.and_eq_true, Bool.not_eq_true', Bool.not_eq_true'] at ho
    rw [skipBalanced_cons rfl, if_neg (by simp [ho.1]), if_neg (by simp [ho.2])]
    exact ih _ _ hos

theorem skipBalanced_after {f : Option Mark} {o : Occurrence} (hhole : o.inHole = false)
    (depth : Nat) :
    (after f (o :: os)).skipBalanced angle depth =
      if o.mark.isSymbolOf (openers angle) then
        (after (some o.mark) os).skipBalanced angle (depth + 1)
      else if o.mark.isSymbolOf (closers angle) then
        if depth ≤ 1 then after (some o.mark) os
        else (after (some o.mark) os).skipBalanced angle (depth - 1)
      else (after (some o.mark) os).skipBalanced angle depth := by
  rw [skipBalanced_cons rfl, past_of_plain hhole]

/-- A bracket that closes opens none. -/
theorem not_opener_of_closer {m : Mark} (h : m.isSymbolOf (closers angle) = true) :
    m.isSymbolOf (openers angle) = false := by
  cases m with
  | symbol t =>
    simp only [Mark.isSymbolOf, List.any_eq_true, beq_iff_eq] at h
    obtain ⟨s, hs, rfl⟩ := h
    have hall : ∀ s ∈ closers angle, (Mark.sign s).isSymbolOf (openers angle) = false := by
      cases angle <;> decide
    exact hall s hs
  | word | number | string => rfl

/-- Inside brackets, balanced marks are passed over. -/
theorem skipBalanced_of_balanced (h : Balanced angle ms) (hos : ReadsAs os ms) (f : Option Mark)
    {depth : Nat} (hdepth : 1 ≤ depth) (rest : List Occurrence) :
    ∃ f', (after f (os ++ rest)).skipBalanced angle depth =
      (after f' rest).skipBalanced angle depth := by
  induction h generalizing os f depth rest with
  | nil =>
    obtain rfl := readsAs_nil.1 hos
    exact ⟨f, rfl⟩
  | plain hm _ ih =>
    obtain ⟨o, os, rfl, rfl, ho, hos⟩ := readsAs_cons.1 hos
    obtain ⟨f', hskip⟩ := ih hos (some o.mark) hdepth rest
    simp only [Mark.isPlain, Bool.and_eq_true, Bool.not_eq_true'] at hm
    exact ⟨f', by rw [List.cons_append, skipBalanced_after ho, hm.1, hm.2]; exact hskip⟩
  | bracketed hb _ hb' _ ihinside ih =>
    rw [List.cons_append] at hos
    obtain ⟨o, os, rfl, rfl, ho, hos⟩ := readsAs_cons.1 hos
    obtain ⟨inside, os, rfl, hinside, hos⟩ := readsAs_append.1 hos
    obtain ⟨o', os, rfl, rfl, ho', hos⟩ := readsAs_cons.1 hos
    -- one bracket deeper until the closing one
    obtain ⟨f₁, hdeep⟩ :=
      ihinside hinside (some o.mark) (Nat.le_succ_of_le hdepth) (o' :: (os ++ rest))
    obtain ⟨f₂, hskip⟩ := ih hos (some o'.mark) hdepth rest
    refine ⟨f₂, ?_⟩
    rw [List.cons_append, skipBalanced_after ho, if_pos hb, List.append_assoc, List.cons_append,
      hdeep, skipBalanced_after ho', not_opener_of_closer hb', if_neg (by simp), if_pos hb',
      if_neg (by omega), Nat.succ_sub_one, hskip]

/-- Balanced marks are passed over with the brackets around them. -/
theorem skipBalanced_of_enclosed {b b' : Mark} (hb : b.isSymbolOf (openers angle) = true)
    (h : Balanced angle ms) (hb' : b'.isSymbolOf (closers angle) = true)
    (hos : ReadsAs os (b :: ms ++ [b'])) (f : Option Mark) (rest : List Occurrence) :
    (after f (os ++ rest)).skipBalanced angle 0 = after (some b') rest := by
  rw [List.cons_append] at hos
  obtain ⟨o, os, rfl, rfl, ho, hos⟩ := readsAs_cons.1 hos
  obtain ⟨inside, os, rfl, hinside, hos⟩ := readsAs_append.1 hos
  obtain ⟨o', os, rfl, rfl, ho', hos⟩ := readsAs_cons.1 hos
  obtain rfl := readsAs_nil.1 hos
  obtain ⟨f', hskip⟩ :=
    skipBalanced_of_balanced h hinside (some o.mark) (Nat.le_refl 1) (o' :: rest)
  rw [List.cons_append, skipBalanced_after ho, if_pos hb, List.append_assoc, List.cons_append,
    List.nil_append, hskip, skipBalanced_after ho', not_opener_of_closer hb', if_neg (by simp),
    if_pos hb', if_pos (Nat.le_refl 1)]

/-! ### Simple types -/

theorem seesWord_eq (c : Cursor) (k : Nat) : c.seesWord k = (c.peek k).any Mark.isWord := by
  unfold seesWord
  split
  · next h => simp [h, Mark.isWord]
  · next h =>
    cases hpeek : c.peek k with
    | none => rfl
    | some m =>
      cases m with
      | word w => exact absurd hpeek (h w)
      | symbol | number | string => rfl

theorem lt_of_seesWord {k : Nat} (h : c.seesWord k = true) : k < c.ahead.length := by
  cases hpeek : c.peek k with
  | none => simp [seesWord, hpeek] at h
  | some m => exact lt_of_peek hpeek

/-- The words behind the first one of a dotted name are passed over. -/
theorem skipPath_after (path : List Text) {f : Option Mark}
    (hos : ReadsAs os (path.flatMap fun v => [.sign ".", .word v]))
    (hrest : (firstMark rest).any (Mark.isSymbolOf ["."]) = false) :
    (after f (os ++ rest)).skipPath =
      after (lastMark f (path.flatMap fun v => [.sign ".", .word v])) rest := by
  induction path generalizing os f with
  | nil =>
    obtain rfl := readsAs_nil.1 hos
    rw [List.nil_append, skipPath, sees_after, hrest, dif_neg (by simp)]
    rfl
  | cons v path ih =>
    rw [List.flatMap_cons, List.cons_append, List.cons_append, List.nil_append] at hos ⊢
    obtain ⟨point, os, rfl, hpoint, hpointhole, hos⟩ := readsAs_cons.1 hos
    obtain ⟨word, os, rfl, hword, hwordhole, hos⟩ := readsAs_cons.1 hos
    have hsees : (after f (point :: word :: os ++ rest)).sees 0 ["."] ∧
        (after f (point :: word :: os ++ rest)).seesWord 1 := by
      constructor
      · rw [sees_after, List.cons_append, firstMark_cons, hpoint]
        decide
      · simp [seesWord, peek, after, hword]
    have htwo : (after f (point :: word :: os ++ rest)).advanceBy 2 =
        after (some (.word v)) (os ++ rest) := by
      show (after f (point :: word :: os ++ rest)).advance.advance = _
      rw [List.cons_append, advance_after hpointhole, List.cons_append, advance_after hwordhole,
        hword]
    rw [skipPath, dif_pos hsees, htwo, ih hos, lastMark_cons, lastMark_cons]

/-- Question marks are passed over. -/
theorem skipOptional_after (n : Nat) {f : Option Mark}
    (hos : ReadsAs os (List.replicate n (.sign "?")))
    (hrest : (firstMark rest).any (Mark.isSymbolOf ["?"]) = false) :
    (after f (os ++ rest)).skipOptional =
      after (lastMark f (List.replicate n (.sign "?"))) rest := by
  induction n generalizing os f with
  | zero =>
    obtain rfl := readsAs_nil.1 hos
    rw [List.nil_append, skipOptional, sees_after, hrest, dif_neg (by simp)]
    rfl
  | succ n ih =>
    rw [List.replicate_succ] at hos ⊢
    obtain ⟨o, os, rfl, ho, hhole, hos⟩ := readsAs_cons.1 hos
    have hsees : (after f (o :: os ++ rest)).sees 0 ["?"] = true := by
      rw [sees_after, List.cons_append, firstMark_cons, ho]
      decide
    rw [skipOptional, dif_pos hsees, List.cons_append, advance_after hhole, ho, ih hos,
      lastMark_cons]

/-- At a word, its path and its arguments are passed over. -/
theorem skipSimpleType?_word {f : Option Mark} {o : Occurrence} {w : Text}
    (hhole : o.inHole = false) (hmark : o.mark = .word w) :
    (after f (o :: os)).skipSimpleType? =
      some ((after (some (.word w)) os).skipPath.skipTypeArguments w) := by
  have hpast : (after f (o :: os)).past o os = after (some (.word w)) os := by
    rw [past_of_plain hhole, hmark]
  simp only [after] at hpast ⊢
  simp only [skipSimpleType?, hmark, hpast]

/-- A simple type is passed over, unless its name goes on. -/
theorem skipSimpleType?_of_phrase (h : SimplePhrase ms) (hos : ReadsAs os ms) (f : Option Mark)
    (hrest : (lastMark f ms).any Mark.isWord = true →
      (firstMark rest).any (Mark.isSymbolOf [".", "<"]) = false) :
    (after f (os ++ rest)).skipSimpleType? = some (after (lastMark f ms) rest) := by
  cases h with
  | name hw =>
    have hnext := hrest (isWord_lastMark_dotted f _ _)
    obtain ⟨o, os, rfl, ho, hhole, hos⟩ := readsAs_cons.1 hos
    rw [List.cons_append, skipSimpleType?_word hhole ho,
      skipPath_after _ hos (any_isSymbolOf_of_subset hnext _ (by simp)), skipTypeArguments,
      sees_after, any_isSymbolOf_of_subset hnext ["<"] (by simp), if_neg (by simp),
      if_neg fun h => hw h.1, dotted, lastMark_cons]
  | generic hw hinside =>
    obtain ⟨names, arguments, rfl, hnames, harguments⟩ := readsAs_append.1 hos
    have hfirst : firstMark (arguments ++ rest) = some (.sign "<") := harguments.firstMark_append
    have hpoint : (firstMark (arguments ++ rest)).any (Mark.isSymbolOf ["."]) = false := by
      rw [hfirst]
      decide
    have hangle : (firstMark (arguments ++ rest)).any (Mark.isSymbolOf ["<"]) = true := by
      rw [hfirst]
      decide
    obtain ⟨o, path, rfl, ho, hhole, hpath⟩ := readsAs_cons.1 hnames
    rw [List.append_assoc, List.cons_append, skipSimpleType?_word hhole ho,
      skipPath_after _ hpath hpoint, skipTypeArguments, sees_after, hangle, if_pos rfl,
      skipBalanced_of_enclosed (isSymbolOf_sign (List.mem_singleton.2 rfl)) hinside
        (isSymbolOf_sign (List.mem_singleton.2 rfl)) harguments,
      ← List.append_assoc, lastMark_concat]
  | @bracketed s s' inside hs hinside hs' =>
    have hopen : (Mark.sign s).isSymbolOf (openers false) = true := isSymbolOf_sign hs
    have hclose : (Mark.sign s').isSymbolOf (closers false) = true := isSymbolOf_sign hs'
    have hskip := skipBalanced_of_enclosed hopen hinside hclose hos f rest
    rw [lastMark_concat, ← hskip]
    rw [List.cons_append] at hos
    obtain ⟨o, os, rfl, ho, hhole, hos⟩ := readsAs_cons.1 hos
    have hbracket : (Mark.symbol s.toList).isSymbolOf openBrackets = true := hopen
    simp only [skipSimpleType?, after, List.cons_append, ho, Mark.sign, hbracket, if_true]

/-- Whether a type can begin with a mark. -/
def beginsType : Mark → Bool
  | .word _ => true
  | .string => true
  | .symbol s => (Mark.symbol s).isSymbolOf ("..." :: openBrackets)
  | .number => false

theorem skipSimpleType?_eq_none :
    c.skipSimpleType? = none ↔ (firstMark c.ahead).any beginsType = false := by
  obtain ⟨b, f, os⟩ := c
  cases os with
  | nil => simp [skipSimpleType?]
  | cons o os =>
    rw [firstMark_cons, Option.any_some]
    simp only [skipSimpleType?]
    cases hmark : o.mark with
    | word name => simp [beginsType]
    | string => simp [beginsType]
    | number => simp [beginsType]
    | symbol s =>
      have hbegins : beginsType (.symbol s) =
          ("...".toList == s || (Mark.symbol s).isSymbolOf openBrackets) := rfl
      dsimp only
      rw [hbegins]
      cases (Mark.symbol s).isSymbolOf openBrackets with
      | true => simp only [if_true, Bool.or_true, reduceCtorEq]
      | false =>
        rw [if_neg Bool.false_ne_true, Bool.or_false, beq_eq_false_iff_ne, ne_comm]
        by_cases hdots : s = "...".toList
        · rw [if_pos hdots]
          exact ⟨fun h => (by cases h), fun h => absurd hdots h⟩
        · rw [if_neg hdots]
          exact ⟨fun _ => hdots, fun _ => rfl⟩

theorem skipType_of_none (h : c.skipSimpleType? = none) : c.skipType = c := by
  rw [skipType]
  split
  · rfl
  · next h' => cases h.symm.trans h'

/-- A type begins with a simple one, and goes on after an operator. -/
theorem skipType_eq {c d : Cursor} (h : c.skipSimpleType? = some d) :
    c.skipType =
      if d.skipOptional.sees 0 ["|", "&", "->"] then d.skipOptional.advance.skipType
      else d.skipOptional := by
  rw [skipType]
  split
  · next h' => cases h.symm.trans h'
  · next d' h' =>
    obtain rfl := Option.some.inj (h.symm.trans h')
    rfl

/-- A chain of simple types is passed over, unless it goes on. -/
theorem skipType_of_chain (h : Chain ms) (hos : ReadsAs os ms) (f : Option Mark)
    (hrest : goesOn (lastMark f ms) (firstMark rest) = false) :
    (after f (os ++ rest)).skipType = after (lastMark f ms) rest := by
  induction h generalizing os f with
  | @last t n ht =>
    obtain ⟨simple, marks, rfl, hsimple, hmarks⟩ := readsAs_append.1 hos
    rw [lastMark_append] at hrest ⊢
    simp only [goesOn, Bool.or_eq_false_iff] at hrest
    have hpath : (lastMark f t).any Mark.isWord = true →
        (firstMark (marks ++ rest)).any (Mark.isSymbolOf [".", "<"]) = false := by
      intro hword
      cases n with
      | zero =>
        obtain rfl := readsAs_nil.1 hmarks
        rw [List.replicate_zero, lastMark_nil, hword, Bool.true_and] at hrest
        exact hrest.2
      | succ n =>
        rw [hmarks.firstMark_append]
        decide
    rw [List.append_assoc, skipType_eq (skipSimpleType?_of_phrase ht hsimple f hpath),
      skipOptional_after n hmarks (any_isSymbolOf_of_subset hrest.1 _ (by simp)), sees_after,
      any_isSymbolOf_of_subset hrest.1 ["|", "&", "->"] (by simp), if_neg (by simp)]
  | @more t u n s ht hs _ ih =>
    obtain ⟨first, more, rfl, hfirst, hmore⟩ := readsAs_append.1 hos
    obtain ⟨simple, marks, rfl, hsimple, hmarks⟩ := readsAs_append.1 hfirst
    obtain ⟨o, os, rfl, ho, hhole, hos⟩ := readsAs_cons.1 hmore
    rw [lastMark_append, lastMark_append, lastMark_cons] at hrest ⊢
    have hoperators : ∀ s ∈ ["|", "&", "->"], (Mark.sign s).isSymbolOf [".", "<", "?"] = false := by
      decide
    have hnext : (firstMark (o :: os ++ rest)).any (Mark.isSymbolOf [".", "<", "?"]) = false := by
      rw [List.cons_append, firstMark_cons, ho]
      exact hoperators s hs
    have hpath :
        (firstMark (marks ++ (o :: os ++ rest))).any (Mark.isSymbolOf [".", "<"]) = false := by
      cases n with
      | zero =>
        obtain rfl := readsAs_nil.1 hmarks
        exact any_isSymbolOf_of_subset hnext _ (by simp)
      | succ n =>
        rw [hmarks.firstMark_append]
        decide
    rw [List.append_assoc, List.append_assoc,
      skipType_eq (skipSimpleType?_of_phrase ht hsimple f fun _ => hpath),
      skipOptional_after n hmarks (any_isSymbolOf_of_subset hnext _ (by simp)), sees_after,
      List.cons_append, firstMark_cons, Option.any_some, ho, isSymbolOf_sign hs, if_pos rfl,
      advance_after hhole, ho, ih hos _ hrest]

/-- A type is passed over, unless it goes on. -/
theorem skipType_of_phrase {last : Mark} (h : TypePhrase .type ms) (hlast : ms.getLast? = some last)
    (hos : ReadsAs os ms) (hrest : goesOn (some last) (firstMark rest) = false) (f : Option Mark) :
    (after f (os ++ rest)).skipType = after (some last) rest := by
  have hlastMark : lastMark f ms = some last := by
    rw [lastMark, hlast, Option.some_or]
  rw [skipType_of_chain h.chain hos f (hlastMark.symm ▸ hrest), hlastMark]

end Cursor
end LuaVeil
