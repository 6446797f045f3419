/-
# The words of decoys

A template is a row of parts: texts, and holes for a name and for a number. A
filled template is the row with its holes filled, so that its words are those of
the texts and the name.

Main statements:

* `replaceAll_fillParts`, filling a template fills the holes of its parts;
* `words_fill`, the words of a decoy from a default template are keywords and its
  name.
-/
import LuaVeil.Proofs.Grammar.Lexemes
import LuaVeil.Proofs.Lua.CodeWords
import LuaVeil.Proofs.Names.Generated
import LuaVeil.Proofs.Veil.References

namespace LuaVeil

namespace Text

/-! ## Replacing -/

section

variable {p q t : Text}

@[simp] theorem replaceAll_nil (p q : Text) : replaceAll p q [] = [] := by
  rw [replaceAll]
  split
  · rfl
  · next hp =>
    have hnone : splitAfter? p [] = none := by simp [splitAfter?, hp]
    split
    · rfl
    · next hsome =>
      rw [hnone] at hsome
      cases hsome

theorem replaceAll_of_not_occursIn (h : occursIn p t = false) (q : Text) :
    replaceAll p q t = t := by
  have hnone : splitAfter? p t = none := by simpa [occursIn] using h
  rw [replaceAll]
  split
  · rfl
  · split
    · rfl
    · next hsome =>
      rw [hnone] at hsome
      cases hsome

/-- An occurrence at the start is replaced. -/
theorem replaceAll_append_self (hp : p ≠ []) : replaceAll p q (p ++ t) = q ++ replaceAll p q t := by
  have hsplit : splitAfter? p (p ++ t) = some (p, t) := by
    cases p with
    | nil => exact absurd rfl hp
    | cons c p =>
      have hprefix : (c :: p).isPrefixOf (c :: (p ++ t)) = true :=
        List.isPrefixOf_iff_prefix.2 (List.prefix_append (c :: p) t)
      simp [splitAfter?, hprefix]
  rw [replaceAll, dif_neg hp]
  split
  · next hnone =>
    rw [hsplit] at hnone
    cases hnone
  · next before after hsome =>
    rw [hsplit] at hsome
    obtain ⟨rfl, rfl⟩ := Prod.mk.inj (Option.some.inj hsome)
    simp

/-- A character at which the pattern does not begin stays. -/
theorem replaceAll_cons {c : Char} (hp : p ≠ []) (h : ¬p <+: c :: t) :
    replaceAll p q (c :: t) = c :: replaceAll p q t := by
  have hsplit : splitAfter? p (c :: t) =
      (splitAfter? p t).map fun cut => (c :: cut.1, cut.2) := by
    have hprefix : p.isPrefixOf (c :: t) = false := by
      rw [← Bool.not_eq_true, List.isPrefixOf_iff_prefix]
      exact h
    simp [splitAfter?, hprefix]
  cases ht : splitAfter? p t with
  | none =>
    rw [ht] at hsplit
    rw [replaceAll_of_not_occursIn (by rw [occursIn, hsplit]; rfl),
      replaceAll_of_not_occursIn (by rw [occursIn, ht]; rfl)]
  | some cut =>
    obtain ⟨before, after⟩ := cut
    have hlength := (splitAfter?_eq_some ht).2.length_le
    rw [ht] at hsplit
    have hopen : ∀ {t before after : Text}, splitAfter? p t = some (before, after) →
        replaceAll p q t =
          before.take (before.length - p.length) ++ q ++ replaceAll p q after := by
      intro t before after ht
      rw [replaceAll, dif_neg hp]
      split
      · next hnone =>
        rw [ht] at hnone
        cases hnone
      · next hsome =>
        rw [ht] at hsome
        obtain ⟨rfl, rfl⟩ := Prod.mk.inj (Option.some.inj hsome)
        rfl
    rw [hopen hsplit, hopen ht]
    have hsize : (c :: before).length - p.length = (before.length - p.length) + 1 := by
      simp only [List.length_cons]
      omega
    rw [hsize]
    rfl

end

end Text

namespace Decoy

/-! ## Holes -/

/-- What stands for something else in a template: a name in braces. -/
def IsHole (p : Text) : Prop :=
  ∃ c t, p = '{' :: c :: t ∧ c ≠ '}'

/-- Whether no hole begins in a text, whatever follows it. -/
def isHoleless : Text → Bool
  | [] => true
  | c :: t => (c != '{' || t.head? == some '}') && isHoleless t

section

variable {p q t : Text}

theorem isHole_nameHole : IsHole nameHole :=
  ⟨'n', _, rfl, by decide⟩

theorem isHole_numberHole : IsHole numberHole :=
  ⟨'n', _, rfl, by decide⟩

theorem IsHole.ne_nil (hp : IsHole p) : p ≠ [] := by
  obtain ⟨c, t, rfl, -⟩ := hp
  exact List.cons_ne_nil _ _

theorem replaceAll_append_of_isHoleless (hp : IsHole p) (ht : isHoleless t = true) (rest : Text) :
    Text.replaceAll p q (t ++ rest) = t ++ Text.replaceAll p q rest := by
  induction t with
  | nil => rfl
  | cons c t ih =>
    simp only [isHoleless, Bool.and_eq_true, Bool.or_eq_true, bne_iff_ne, beq_iff_eq] at ht
    obtain ⟨hc, ht⟩ := ht
    rw [List.cons_append, Text.replaceAll_cons hp.ne_nil, ih ht, List.cons_append]
    obtain ⟨d, more, rfl, hd⟩ := hp
    rintro hprefix
    obtain ⟨rfl, hmore⟩ := List.cons_prefix_cons.1 hprefix
    obtain ⟨e, u, rfl⟩ : ∃ e u, t = e :: u := by
      cases t with
      | nil => exact absurd hc (by simp)
      | cons e u => exact ⟨e, u, rfl⟩
    obtain rfl : e = '}' := by simpa using hc
    exact hd (List.cons_prefix_cons.1 hmore).1

theorem isHoleless_of_isWord (h : isWord t = true) : isHoleless t = true := by
  have hchars : ∀ c ∈ t, c ≠ '{' := by
    rintro c hc rfl
    exact absurd (isWordChar_of_mem h _ hc) (by decide)
  clear h
  induction t with
  | nil => rfl
  | cons c t ih =>
    obtain ⟨hc, ht⟩ := List.forall_mem_cons.1 hchars
    simp [isHoleless, hc, ih ht]

end

/-! ## Parts -/

/-- A part of a template. -/
inductive Part where
  | text (t : Text)
  | name
  /-- the name after a minus sign -/
  | negatedName
  | number
  deriving DecidableEq

namespace Part

/-- What a part shows when the holes are filled. -/
def shown (name number : Text) : Part → Text
  | text t => t
  | .name => name
  | negatedName => '-' :: name
  | .number => number

/-- The words of a part when the holes are filled. -/
def words (name : Name) : Part → List Name
  | text t => codeWords t
  | .name => [name]
  | negatedName => [name]
  | .number => []

/-- Whether a part begins no hole but its own and has no words but keywords. -/
def isPlain : Part → Bool
  | text t => isHoleless t && (codeWords t).all isKeyword
  | _ => true

/-- Whether two parts are kept apart, whatever is filled in. -/
def isApart : Part → Part → Bool
  | text t, text u => t.getLast?.any separates || u.head?.any separates
  | text t, _ => t.getLast?.any separates
  | _, text u => u.head?.any separates
  | _, _ => false

end Part

/-- A row of parts with the holes filled. -/
def fillParts (name number : Text) (parts : List Part) : Text :=
  parts.flatMap (Part.shown name number)

/-- The parts of the default templates. -/
def defaultParts : List (List Part) :=
  [[.text "do local ".toList, .name, .text " = ".toList, .number, .text " end".toList],
   [.text "do local ".toList, .name, .text " = \x7b\x7d end".toList],
   [.text "do local ".toList, .name, .text " = (".toList, .number, .text " * 3) % 7 end".toList],
   [.text "do local ".toList, .name, .text " = nil end".toList],
   [.text "do local ".toList, .name, .text " = function() return ".toList, .number,
     .text " end end".toList],
   [.text "do local ".toList, .name, .text " = ".toList, .number, .text " if ".toList, .name,
     .text " < 0 then ".toList, .name, .text " = ".toList, .negatedName,
     .text " end end".toList],
   [.text "do local ".toList, .name, .text " = #\"".toList, .number, .text "\" end".toList]]

theorem defaultTemplates_eq :
    defaultTemplates = defaultParts.map (fillParts nameHole numberHole) := by
  decide +kernel

theorem plain_of_mem_defaultParts : ∀ parts ∈ defaultParts,
    (∀ part ∈ parts, part.isPlain = true) ∧ parts.IsChain fun a b => a.isApart b = true := by
  decide +kernel

theorem occursIn_nameHole : ∀ template ∈ defaultTemplates,
    Text.occursIn nameHole template = true := by
  decide +kernel

section

variable {name : Name} {number : Text} {parts : List Part}

theorem replaceAll_flatMap {p q : Text} {f g : Part → Text}
    (h : ∀ part ∈ parts, ∀ t, Text.replaceAll p q (f part ++ t) = g part ++ Text.replaceAll p q t) :
    Text.replaceAll p q (parts.flatMap f) = parts.flatMap g := by
  induction parts with
  | nil => exact Text.replaceAll_nil p q
  | cons part parts ih =>
    obtain ⟨hpart, hparts⟩ := List.forall_mem_cons.1 h
    rw [List.flatMap_cons, List.flatMap_cons, hpart, ih hparts]

/-- Filling a template fills the holes of its parts. -/
theorem replaceAll_fillParts (hname : isWord name = true)
    (h : ∀ part ∈ parts, part.isPlain = true) :
    Text.replaceAll numberHole number
      (Text.replaceAll nameHole name (fillParts nameHole numberHole parts)) =
        fillParts name number parts := by
  have htext : ∀ {t : Text}, (Part.text t).isPlain = true → isHoleless t = true :=
    fun ht => (Bool.and_eq_true_iff.1 ht).1
  have hminus : isHoleless ['-'] = true := by decide
  have hnamed : Text.replaceAll nameHole name (fillParts nameHole numberHole parts) =
      fillParts name numberHole parts := by
    refine replaceAll_flatMap fun part hpart t => ?_
    cases part with
    | text u => exact replaceAll_append_of_isHoleless isHole_nameHole (htext (h _ hpart)) t
    | name => exact Text.replaceAll_append_self isHole_nameHole.ne_nil
    | negatedName =>
      have hfront := replaceAll_append_of_isHoleless (q := name) isHole_nameHole hminus
        (nameHole ++ t)
      rw [Text.replaceAll_append_self isHole_nameHole.ne_nil] at hfront
      exact hfront
    | number =>
      have hbrace : ¬nameHole <+: '{' :: ('n' :: '}' :: t) := by
        have hhole : nameHole = ['{', 'n', 'a', 'm', 'e', '}'] := by decide
        simp [hhole, List.cons_prefix_cons]
      have hrest : isHoleless ['n', '}'] = true := by decide
      have hback := replaceAll_append_of_isHoleless (q := name) isHole_nameHole hrest t
      show Text.replaceAll nameHole name ('{' :: 'n' :: '}' :: t) = _
      rw [Text.replaceAll_cons isHole_nameHole.ne_nil hbrace]
      exact congrArg ('{' :: ·) hback
  rw [hnamed]
  have hword := isHoleless_of_isWord hname
  refine replaceAll_flatMap fun part hpart t => ?_
  cases part with
  | text u => exact replaceAll_append_of_isHoleless isHole_numberHole (htext (h _ hpart)) t
  | name => exact replaceAll_append_of_isHoleless isHole_numberHole hword t
  | negatedName =>
    refine replaceAll_append_of_isHoleless isHole_numberHole ?_ t
    show (('-' != '{' || _) && isHoleless name) = true
    rw [hword]
    rfl
  | number => exact Text.replaceAll_append_self isHole_numberHole.ne_nil

theorem codeWords_negated (hname : isWord name = true) : codeWords ('-' :: name) = [name] := by
  have hlex : lexeme '-' name = ⟨.symbol, [], name⟩ := by
    have hlong : ∀ l ∈ longSymbols, l.head? = some '-' →
        l.tail.head?.any (fun c => !isWordStart c) = true := by decide
    refine lexeme_of_symbol (t := []) (by decide) (fun l hl hprefix => ?_) (by simp)
    obtain ⟨rest, hrest⟩ := hprefix
    match l, hrest with
    | [], _ => exact List.nil_prefix
    | [_], hrest =>
      obtain ⟨rfl, -⟩ := List.cons.inj hrest
      exact List.prefix_refl _
    | _ :: d :: l, hrest =>
      -- a longer symbol would go on with the first letter of the name
      obtain ⟨rfl, rfl⟩ := List.cons.inj hrest
      have hstart : isWordStart d = true := (isWord_cons.1 hname).1
      simpa [hstart] using hlong _ hl rfl
  rw [codeWords_cons, hlex, codeWords_of_isWord hname]
  rfl

/-- The words of a row of parts are those of its parts. -/
theorem codeWords_fillParts (hname : isWord name = true)
    (hnumber : ∀ c ∈ number, isWordStart c = false)
    (h : parts.IsChain fun a b => a.isApart b = true) :
    codeWords (fillParts name number parts) = parts.flatMap (Part.words name) := by
  have hchain : (parts.map (Part.shown name number)).IsChain Apart := by
    rw [List.isChain_map]
    refine h.imp fun a b hab => ?_
    cases a <;> cases b <;> simp_all [Part.isApart, Part.shown, Apart]
  rw [fillParts, List.flatMap_def, codeWords_flatten hchain, List.flatMap_map]
  refine List.flatMap_congr fun part _ => ?_
  cases part with
  | text t => rfl
  | name => exact codeWords_of_isWord hname
  | negatedName => exact codeWords_negated hname
  | number => exact codeWords_eq_nil hnumber

end

/-! ## Decoys -/

theorem isWordStart_decimalInt (n : Int) : ∀ c ∈ Number.decimalInt n, isWordStart c = false := by
  have hdigits : ∀ c ∈ Number.decimal n.natAbs, isWordStart c = false :=
    fun c hc => isWordStart_of_isDigit (all_isDigit_decimal _ c hc)
  unfold Number.decimalInt
  split
  · exact List.forall_mem_cons.2 ⟨by decide, hdigits⟩
  · exact hdigits

theorem Filled.fillNumber_text {d : Filled} (h : d.number = none) (m : Mint) :
    ∃ n, (d.fillNumber m).1.text = Text.replaceAll numberHole (Number.decimalInt n) d.named := by
  unfold Filled.fillNumber
  generalize Draw.between .word 1 maxNumber = number
  split
  · exact ⟨(number m.source).1, rfl⟩
  · next hnone =>
    refine ⟨0, ?_⟩
    rw [Text.replaceAll_of_not_occursIn (Bool.not_eq_true _ ▸ hnone)]
    show Filled.text d = _
    rw [Filled.text, h]

/-- The name and the number of a decoy stand in the holes of its template. -/
theorem fill_text {template : Text} (h : Text.occursIn nameHole template = true) (m : Mint) :
    ∃ name n, isWord name = true ∧ (fill template m).1.name = some name ∧
      (fill template m).1.text = Text.replaceAll numberHole (Number.decimalInt n)
        (Text.replaceAll nameHole name template) := by
  have hfill : fill template m =
      Filled.fillNumber ⟨template, some (Minting.freshName m).1, none⟩ (Minting.freshName m).2 := by
    rw [fill, if_pos h]
    rfl
  obtain ⟨n, htext⟩ := Filled.fillNumber_text
    (d := ⟨template, some (Minting.freshName m).1, none⟩) rfl (Minting.freshName m).2
  refine ⟨_, n, Minting.isWord_freshName m, ?_, by rw [hfill]; exact htext⟩
  rw [hfill]
  exact (fillNumber_names _ _).1

/-- The words of a decoy from a default template are keywords and its name. -/
theorem words_fill {template : Text} (h : template ∈ [] :: defaultTemplates) (m : Mint) :
    ∀ w ∈ codeWords (fill template m).1.text,
      isKeyword w = true ∨ (fill template m).1.name = some w := by
  intro w hw
  rcases List.mem_cons.1 h with rfl | h
  · have hempty : (fill [] m).1.text = [] := rfl
    rw [hempty, codeWords_nil] at hw
    cases hw
  obtain ⟨name, n, hname, hfilled, htext⟩ := fill_text (occursIn_nameHole template h) m
  rw [defaultTemplates_eq] at h
  obtain ⟨parts, hparts, rfl⟩ := List.mem_map.1 h
  obtain ⟨hplain, hchain⟩ := plain_of_mem_defaultParts parts hparts
  have hnumber : ∀ c ∈ Number.decimalInt n, isWordStart c = false := isWordStart_decimalInt n
  rw [htext, replaceAll_fillParts hname hplain, codeWords_fillParts hname hnumber hchain] at hw
  obtain ⟨part, hpart, hw⟩ := List.mem_flatMap.1 hw
  have hwords := hplain part hpart
  cases part with
  | text t =>
    refine .inl ?_
    exact List.all_eq_true.1 (Bool.and_eq_true_iff.1 hwords).2 w hw
  | name => exact .inr (by rw [hfilled, List.mem_singleton.1 hw])
  | negatedName => exact .inr (by rw [hfilled, List.mem_singleton.1 hw])
  | number => cases hw

end Decoy
end LuaVeil
