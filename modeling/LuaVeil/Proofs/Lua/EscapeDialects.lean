/-
# Escapes of two dialects

`unescape` knows the escapes of Luau. Lua 5.1 has fewer of them: there `\x`, `\z` and `\u`
stand for the letter behind the backslash. And where `unescape` takes a carriage return as
it is, Lua 5.1 takes it as part of a line break, which is a line feed at run time.

`Lua51.bytes?` reads a short string as the lexer of Lua 5.1 does. Both readings go through a
content side by side, and they differ exactly where a newer escape or a carriage return is:
a carriage return is in the one reading only, and all newer escapes make it shorter.

Main statements:

* `aligned_of_readQuoted?`, both readings side by side;
* `unescape_eq_iff`, when they give the same bytes.
-/
import LuaVeil.Proofs.Lua.EscapeUnits
import LuaVeil.Proofs.Lua.LongStrings

namespace LuaVeil

/-! ## The lexer of Lua 5.1 -/

namespace Lua51

/-- The letters that stand for control characters behind a backslash. -/
def controls : List (Char × UInt8) :=
  [('a', 7), ('b', 8), ('f', 12), ('n', 10), ('r', 13), ('t', 9), ('v', 11)]

/--
The bytes of an escape at the start of a text, the backslash left off, and what follows it; `none`
for a number above 255. A line break is a line feed, and it may be of two characters.
-/
def readEscape? : Text → Option (List UInt8 × Text)
  | [] => none
  | c :: t =>
    match controls.lookup c with
    | some byte => some ([byte], t)
    | none =>
      if c = '\n' ∨ c = '\r' then some ([10], Dialect.lua51.dropBreak (c :: t))
      else if c.isDigit then
        let digits := ((c :: t).take 3).takeWhile Char.isDigit
        ((Number.readDigits 10 digits).filter (· ≤ 255)).map fun n =>
          ([UInt8.ofNat n], (c :: t).drop digits.length)
      else some (Text.utf8 [c], t)

theorem length_dropBreak_le (d : Dialect) (t : Text) : (d.dropBreak t).length ≤ t.length := by
  have hdrop : d.dropBreak t <:+ t := by
    fun_cases Dialect.dropBreak d t with
    | case1 d t => exact ⟨['\r', '\n'], rfl⟩
    | case2 t => exact ⟨['\n', '\r'], rfl⟩
    | case3 t => exact ⟨['\r'], rfl⟩
    | case4 d t => exact ⟨['\n'], rfl⟩
    | case5 => exact List.suffix_rfl
  exact hdrop.length_le

theorem length_readEscape?_le {t rest : Text} {bytes : List UInt8}
    (h : readEscape? t = some (bytes, rest)) : rest.length ≤ t.length := by
  cases t with
  | nil => cases h
  | cons c t =>
    have htail : t.length ≤ (c :: t).length := Nat.le_succ _
    rw [readEscape?] at h
    split at h
    · obtain ⟨-, rfl⟩ := Prod.mk.inj (Option.some.inj h)
      exact htail
    split at h
    · obtain ⟨-, rfl⟩ := Prod.mk.inj (Option.some.inj h)
      exact length_dropBreak_le _ _
    split at h
    · obtain ⟨n, -, he⟩ := Option.map_eq_some_iff.1 h
      obtain ⟨-, rfl⟩ := Prod.mk.inj he
      rw [List.length_drop]
      exact Nat.sub_le _ _
    · obtain ⟨-, rfl⟩ := Prod.mk.inj (Option.some.inj h)
      exact htail

/--
The bytes of a string behind its opening quote, and what follows its closing quote; `none` where
the line or the text ends first, or an escape has no meaning.
-/
def readQuoted? (mark : Char) : Text → Option (List UInt8 × Text)
  | [] => none
  | c :: t =>
    if c = mark then some ([], t)
    else if c = '\n' ∨ c = '\r' then none
    else if c = '\\' then
      match _ : readEscape? t with
      | none => none
      | some (bytes, rest) => (readQuoted? mark rest).map fun read => (bytes ++ read.1, read.2)
    else (readQuoted? mark t).map fun read => (Text.utf8 [c] ++ read.1, read.2)
termination_by t => t.length
decreasing_by
  · have := length_readEscape?_le (by assumption)
    simp only [List.length_cons]
    omega
  · simp

/-- The bytes of a literal in quotes at run time; `none` for what is no such literal. -/
def bytes? : Text → Option (List UInt8)
  | [] => none
  | mark :: t =>
    match readQuoted? mark t with
    | some (bytes, []) => some bytes
    | _ => none

end Lua51

/-! ## Both readings side by side -/

/-- Whether a unit is an escape that is the letter behind its backslash in Lua 5.1 only. -/
def isNewer : Text → Bool
  | '\\' :: c :: w => c == 'z' || (c == 'x' || c == 'u') && !w.isEmpty
  | _ => false

/-- A content with its bytes by `unescape` and by the lexer of Lua 5.1. -/
inductive Aligned : Text → List UInt8 → List UInt8 → Prop
  | nil : Aligned [] [] []
  | plain {c : Char} {t : Text} {ours theirs : List UInt8} (hslash : c ≠ '\\') (hreturn : c ≠ '\r')
      (h : Aligned t ours theirs) :
      Aligned (c :: t) (Text.utf8 [c] ++ ours) (Text.utf8 [c] ++ theirs)
  /-- an escape that both know -/
  | known {c : Char} {t : Text} {ours theirs : List UInt8} (hreturn : '\r' ∉ c :: Escape.taken c t)
      (hknown : isNewer ('\\' :: c :: Escape.taken c t) = false)
      (h : Aligned (Escape.read c t).2 ours theirs) :
      Aligned ('\\' :: c :: t) ((Escape.read c t).1 ++ ours) ((Escape.read c t).1 ++ theirs)
  /-- an escape that gives fewer bytes than its characters -/
  | newer {c : Char} {t : Text} {ours theirs : List UInt8} (hreturn : '\r' ∉ c :: Escape.taken c t)
      (hnewer : isNewer ('\\' :: c :: Escape.taken c t) = true)
      (hshort : (Escape.read c t).1.length < (Text.utf8 (c :: Escape.taken c t)).length)
      (h : Aligned (Escape.read c t).2 ours theirs) :
      Aligned ('\\' :: c :: t) ((Escape.read c t).1 ++ ours)
        (Text.utf8 (c :: Escape.taken c t) ++ theirs)
  /-- an escaped line break with a carriage return -/
  | lineBreak {w t : Text} {ours theirs : List UInt8} (hreturn : '\r' ∈ w)
      (h : Aligned t ours theirs) :
      Aligned ('\\' :: (w ++ t)) (Text.utf8 w ++ ours) (10 :: theirs)

theorem return_not_mem_escape {c : Char} {t : Text} : '\r' ∉ '\\' :: c :: t ↔
    '\r' ∉ c :: Escape.taken c t ∧ '\r' ∉ (Escape.read c t).2 := by
  conv_lhs => rw [← Escape.taken_append c t]
  simp [and_assoc]

namespace Aligned

variable {t : Text} {ours theirs : List UInt8}

/-- Only `unescape` gives the byte of a carriage return for one in the content. -/
theorem count_return (h : Aligned t ours theirs) : theirs.count 13 ≤ ours.count 13 ∧
    (ours.count 13 = theirs.count 13 → '\r' ∉ t) := by
  induction h with
  | nil => simp
  | plain _ hreturn _ ih =>
    rw [List.count_append, List.count_append]
    refine ⟨by omega, fun heq => ?_⟩
    rw [List.mem_cons, not_or]
    exact ⟨hreturn.symm, ih.2 (by omega)⟩
  | known hreturn _ _ ih =>
    rw [List.count_append, List.count_append]
    exact ⟨by omega, fun heq => return_not_mem_escape.2 ⟨hreturn, ih.2 (by omega)⟩⟩
  | newer hreturn _ _ _ ih =>
    have hnone := List.count_eq_zero.2 (mt return_mem_utf8.1 hreturn)
    rw [List.count_append, List.count_append, hnone]
    exact ⟨by omega, fun heq => return_not_mem_escape.2 ⟨hreturn, ih.2 (by omega)⟩⟩
  | @lineBreak w _ _ theirs hreturn _ ih =>
    have hsome := List.count_pos_iff.2 (return_mem_utf8.2 hreturn)
    have hfeed : (10 :: theirs).count 13 = theirs.count 13 := by simp
    rw [List.count_append, hfeed]
    exact ⟨by omega, fun heq => by omega⟩

/-- Without carriage returns each newer escape makes the bytes of `unescape` fewer. -/
theorem length_le (h : Aligned t ours theirs) (hreturn : '\r' ∉ t) :
    ours.length ≤ theirs.length ∧
      (ours.length = theirs.length → ∀ u ∈ units t, isNewer u = false) := by
  induction h with
  | nil => simp [units]
  | plain hslash _ _ ih =>
    have ih := ih (List.not_mem_of_not_mem_cons hreturn)
    rw [List.length_append, List.length_append, units_cons hslash]
    refine ⟨by omega, fun heq => List.forall_mem_cons.2 ⟨?_, ih.2 (by omega)⟩⟩
    simp [isNewer]
  | known _ hknown _ ih =>
    have ih := ih (return_not_mem_escape.1 hreturn).2
    rw [List.length_append, List.length_append, units_escape]
    exact ⟨by omega, fun heq => List.forall_mem_cons.2 ⟨hknown, ih.2 (by omega)⟩⟩
  | newer _ _ hshort _ ih =>
    have ih := ih (return_not_mem_escape.1 hreturn).2
    rw [List.length_append, List.length_append]
    exact ⟨by omega, fun heq => by omega⟩
  | lineBreak hmem =>
    exact absurd (List.mem_cons_of_mem _ (List.mem_append_left _ hmem)) hreturn

/-- With neither of them the bytes are the same. -/
theorem eq_of_known (h : Aligned t ours theirs) (hreturn : '\r' ∉ t)
    (hunits : ∀ u ∈ units t, isNewer u = false) : ours = theirs := by
  induction h with
  | nil => rfl
  | plain hslash _ _ ih =>
    rw [units_cons hslash, List.forall_mem_cons] at hunits
    rw [ih (List.not_mem_of_not_mem_cons hreturn) hunits.2]
  | known _ _ _ ih =>
    rw [units_escape, List.forall_mem_cons] at hunits
    rw [ih (return_not_mem_escape.1 hreturn).2 hunits.2]
  | newer _ hnewer =>
    rw [units_escape, List.forall_mem_cons, hnewer] at hunits
    cases hunits.1
  | lineBreak hmem =>
    exact absurd (List.mem_cons_of_mem _ (List.mem_append_left _ hmem)) hreturn

/-- The bytes are the same exactly if there is neither a newer escape nor a carriage return. -/
theorem eq_iff (h : Aligned t ours theirs) :
    ours = theirs ↔ (∀ u ∈ units t, isNewer u = false) ∧ '\r' ∉ t := by
  constructor
  · rintro rfl
    have hreturn := h.count_return.2 rfl
    exact ⟨(h.length_le hreturn).2 rfl, hreturn⟩
  · rintro ⟨hunits, hreturn⟩
    exact h.eq_of_known hreturn hunits

end Aligned

/-! ## What the lexer makes of a content -/

namespace Lua51

theorem lookup_controls (c : Char) : controls.lookup c = Escape.control? c := by
  unfold Escape.control?
  split <;> first | rfl | skip
  next ha hb ht hn hv hf hr =>
    simp only [controls, List.lookup_cons, List.lookup_nil, beq_false_of_ne ha, beq_false_of_ne hb,
      beq_false_of_ne ht, beq_false_of_ne hn, beq_false_of_ne hv, beq_false_of_ne hf,
      beq_false_of_ne hr]

section

variable {c mark : Char} {t : Text}

theorem readEscape?_of_control {byte : UInt8} (h : Escape.control? c = some byte) (t : Text) :
    readEscape? (c :: t) = some ([byte], t) := by
  rw [readEscape?, lookup_controls, h]

theorem readEscape?_of_break (h : c = '\n' ∨ c = '\r') (t : Text) :
    readEscape? (c :: t) = some ([10], Dialect.lua51.dropBreak (c :: t)) := by
  have hcontrol : Escape.control? c = none := by rcases h with rfl | rfl <;> rfl
  simp only [readEscape?, lookup_controls, hcontrol, if_pos h]

theorem readEscape?_of_letter (hcontrol : Escape.control? c = none)
    (hbreak : ¬ (c = '\n' ∨ c = '\r')) (hdigit : c.isDigit = false) (t : Text) :
    readEscape? (c :: t) = some (Text.utf8 [c], t) := by
  simp only [readEscape?, lookup_controls, hcontrol, if_neg hbreak, hdigit]
  rfl

/-- A number of at most 255 is read as `unescape` reads it. -/
theorem readEscape?_of_isDigit {w rest after : Text} {bytes : List UInt8} (hc : c.isDigit = true)
    (hw : ((w ++ rest).take 2).takeWhile Char.isDigit = w) (hmark : mark.isDigit = false)
    (h : readEscape? (c :: (w ++ rest ++ [mark])) = some (bytes, after)) :
    bytes = [UInt8.ofNat (min 255 ((Number.readDigits 10 (c :: w)).getD 0))] ∧
      after = rest ++ [mark] := by
  have hbreak : ¬ (c = '\n' ∨ c = '\r') := by
    rintro (rfl | rfl) <;> cases hc
  have hend : ∀ k, ([mark].take k).takeWhile Char.isDigit = [] := by
    rintro (_ | k) <;> simp [hmark]
  have hmore : ((w ++ rest ++ [mark]).take 2).takeWhile Char.isDigit = w := by
    rw [List.take_append, List.takeWhile_append, hend, hw]
    split
    · next hall =>
      have hstarts := List.takeWhile_prefix Char.isDigit (l := (w ++ rest).take 2)
      rw [hw] at hstarts
      rw [List.append_nil, (hstarts.eq_of_length hall).symm]
    · rfl
  have hdigits : ((c :: (w ++ rest ++ [mark])).take 3).takeWhile Char.isDigit = c :: w := by
    rw [List.take_succ_cons, List.takeWhile_cons_of_pos hc, hmore]
  simp only [readEscape?, lookup_controls, (Escape.ne_of_isDigit hc).1, if_neg hbreak, if_pos hc,
    hdigits] at h
  obtain ⟨n, hn, he⟩ := Option.map_eq_some_iff.1 h
  obtain ⟨rfl, rfl⟩ := Prod.mk.inj he
  obtain ⟨hn, hle⟩ := Option.filter_eq_some_iff.1 hn
  rw [hn, Option.getD_some, Nat.min_eq_right (by simpa using hle)]
  exact ⟨rfl, by simp⟩

theorem readQuoted?_cons (hquote : c ≠ mark) (hslash : c ≠ '\\') (t : Text) :
    readQuoted? mark (c :: t) = if c = '\n' ∨ c = '\r' then none
      else (readQuoted? mark t).map fun read => (Text.utf8 [c] ++ read.1, read.2) := by
  rw [readQuoted?, if_neg hquote, if_neg hslash]

theorem readQuoted?_append_plain {w after : Text} {bytes : List UInt8}
    (hw : ∀ d ∈ w, d ≠ '\\' ∧ d ≠ mark) (h : readQuoted? mark (w ++ t) = some (bytes, after)) :
    '\r' ∉ w ∧ ∃ more, readQuoted? mark t = some (more, after) ∧ bytes = Text.utf8 w ++ more := by
  induction w generalizing bytes with
  | nil => exact ⟨List.not_mem_nil, bytes, h, rfl⟩
  | cons d w ih =>
    obtain ⟨⟨hslash, hquote⟩, hw⟩ := List.forall_mem_cons.1 hw
    rw [List.cons_append, readQuoted?_cons hquote hslash] at h
    split at h
    · cases h
    · next hbreak =>
      obtain ⟨⟨more, rest⟩, hmore, he⟩ := Option.map_eq_some_iff.1 h
      obtain ⟨rfl, rfl⟩ := Prod.mk.inj he
      obtain ⟨hreturn, last, hlast, rfl⟩ := ih hw hmore
      refine ⟨?_, last, hlast, ?_⟩
      · rw [List.mem_cons, not_or]
        exact ⟨fun hd => hbreak (.inr hd.symm), hreturn⟩
      · simp [Text.utf8]

theorem readQuoted?_escape (hmark : mark ≠ '\\') {after : Text} {bytes : List UInt8}
    (h : readQuoted? mark ('\\' :: t) = some (bytes, after)) :
    ∃ first rest more, readEscape? t = some (first, rest) ∧
      readQuoted? mark rest = some (more, after) ∧ bytes = first ++ more := by
  rw [readQuoted?, if_neg hmark.symm, if_neg (by decide), if_pos rfl] at h
  split at h
  · cases h
  · next first rest hfirst =>
    obtain ⟨⟨more, last⟩, hmore, he⟩ := Option.map_eq_some_iff.1 h
    obtain ⟨rfl, rfl⟩ := Prod.mk.inj he
    exact ⟨first, rest, more, hfirst, hmore, rfl⟩

end

/-! ### Escapes of three kinds -/

section

open Escape

variable {c mark : Char} {t w rest after : Text} {ours theirs : List UInt8}

/-- An escape that both dialects know. -/
theorem readEscape?_of_known (hform : Form c w ours rest)
    (hknown : isNewer ('\\' :: c :: w) = false) (hbreak : ¬ (c = '\n' ∨ c = '\r'))
    (hmark : mark.isDigit = false)
    (h : readEscape? (c :: (w ++ rest ++ [mark])) = some (theirs, after)) :
    theirs = ours ∧ after = rest ++ [mark] ∧ '\r' ∉ c :: w := by
  have hreturn : '\r' ∉ c :: w := by
    rw [List.mem_cons, not_or]
    refine ⟨fun hc => hbreak (.inr hc.symm), fun hmem => ?_⟩
    rcases hform.mem_taken _ hmem with hno | hno | ⟨rfl, -⟩
    · exact absurd hno (by decide)
    · exact absurd hno (by decide)
    · cases hknown
  cases hform with
  | control hcontrol =>
    rw [readEscape?_of_control hcontrol] at h
    obtain ⟨rfl, rfl⟩ := Prod.mk.inj (Option.some.inj h)
    exact ⟨rfl, rfl, hreturn⟩
  | blanks => cases hknown
  | hexPair => cases hknown
  | braced => cases hknown
  | decimal hc hw =>
    obtain ⟨rfl, rfl⟩ := readEscape?_of_isDigit hc hw hmark h
    exact ⟨rfl, rfl, hreturn⟩
  | plain hcontrol _ _ _ hdigit =>
    rw [readEscape?_of_letter hcontrol hbreak hdigit] at h
    obtain ⟨rfl, rfl⟩ := Prod.mk.inj (Option.some.inj h)
    exact ⟨rfl, rfl, hreturn⟩

theorem letter_of_isNewer (h : isNewer ('\\' :: c :: w) = true) :
    c = 'z' ∨ (c = 'x' ∨ c = 'u') ∧ w ≠ [] := by
  simpa [isNewer] using h

/-- Of a newer escape the letter is read. -/
theorem readEscape?_of_newer (h : isNewer ('\\' :: c :: w) = true) (t : Text) :
    readEscape? (c :: t) = some (Text.utf8 [c], t) := by
  rcases letter_of_isNewer h with rfl | ⟨rfl | rfl, -⟩ <;>
    exact readEscape?_of_letter rfl (by decide) rfl t

theorem length_le_byteSize (t : Text) : t.length ≤ Text.byteSize t := by
  induction t with
  | nil => exact Nat.le_refl 0
  | cons c t ih =>
    have hpos := c.utf8Size_pos
    rw [List.length_cons, Text.byteSize_cons]
    omega

/-- A character takes fewer bytes than its code point in braces. -/
theorem utf8Size_lt_of_codePoint? {point : Char} (h : codePoint? w = some point) :
    point.utf8Size < w.length + 3 := by
  obtain ⟨digits, n, hdigits, hne, hn, rfl⟩ := exists_of_codePoint? h
  have hlength : digits.length ≤ w.length := by
    rcases hdigits with rfl | rfl
    · exact Nat.le_refl _
    · exact Nat.le_succ _
  have hfour := (Char.ofNat n).utf8Size_le_four
  match digits, hne with
  | [d], _ =>
    have hsmall : n < 16 := by
      obtain ⟨v, hv, he⟩ : ∃ v, Number.digitValue? 16 d = some v ∧ 0 * 16 + v = n := by
        simpa [Number.readDigits] using hn
      obtain ⟨-, hlt⟩ := Option.filter_eq_some_iff.1 hv
      have hlt := of_decide_eq_true hlt
      omega
    have hone : ∀ n < 16, (Char.ofNat n).utf8Size = 1 := by decide
    rw [hone n hsmall]
    omega
  | _ :: _ :: _, _ =>
    simp only [List.length_cons] at hlength
    omega

/-- A newer escape stands for fewer bytes than its characters. -/
theorem length_lt_of_newer (hform : Form c w ours rest) (h : isNewer ('\\' :: c :: w) = true) :
    ours.length < (Text.utf8 (c :: w)).length := by
  have hletter := letter_of_isNewer h
  rw [Text.length_utf8]
  refine Nat.lt_of_lt_of_le ?_ (length_le_byteSize (c :: w))
  rw [List.length_cons]
  cases hform with
  | control hcontrol =>
    obtain rfl := hletter.resolve_right fun hno => hno.2 rfl
    cases hcontrol
  | blanks => exact Nat.succ_pos _
  | hexPair => simp
  | @braced w _ point _ hpoint =>
    have hsize := utf8Size_lt_of_codePoint? hpoint
    have hbytes : (Text.utf8 [point]).length = point.utf8Size := Text.length_utf8 [point]
    simp only [List.length_cons, List.length_append, List.length_nil]
    omega
  | decimal hc =>
    obtain ⟨-, hz, hx, hu⟩ := ne_of_isDigit hc
    rcases hletter with h | ⟨h | h, -⟩
    · exact absurd h hz
    · exact absurd h hx
    · exact absurd h hu
  | plain _ hz => exact absurd (hletter.resolve_right fun hno => hno.2 rfl) hz

theorem dropBreak_feed (h : t.head? ≠ some '\r') : Dialect.lua51.dropBreak ('\n' :: t) = t := by
  cases t with
  | nil => rfl
  | cons d t =>
    unfold Dialect.dropBreak
    split <;> simp_all

theorem dropBreak_return (h : t.head? ≠ some '\n') : Dialect.lua51.dropBreak ('\r' :: t) = t := by
  cases t with
  | nil => rfl
  | cons d t =>
    unfold Dialect.dropBreak
    split <;> simp_all

/-- Behind a backslash a line break is one line feed; `unescape` gives each of its characters. -/
theorem exists_break (hc : c = '\n' ∨ c = '\r') (hmark : mark ≠ '\n' ∧ mark ≠ '\r') (t : Text) :
    ∃ w rest, c :: t = w ++ rest ∧ Dialect.lua51.dropBreak (c :: (t ++ [mark])) = rest ++ [mark] ∧
      unescape ('\\' :: c :: t) = Text.utf8 w ++ unescape rest ∧ (w = ['\n'] ∨ '\r' ∈ w) := by
  have hread : unescape ('\\' :: c :: t) = Text.utf8 [c] ++ unescape t := by
    rw [unescape_escape]
    rcases hc with rfl | rfl <;> rfl
  have hhead : ∀ d, mark ≠ d → t.head? ≠ some d → (t ++ [mark]).head? ≠ some d := by
    intro d hd ht
    cases t with
    | nil => simpa using hd
    | cons => exact ht
  have htwo : ∀ d t', t = d :: t' → (d = '\n' ∨ d = '\r') →
      unescape ('\\' :: c :: t) = Text.utf8 [c, d] ++ unescape t' := by
    rintro d t' rfl hd
    have hplain : d ≠ '\\' := by rcases hd with rfl | rfl <;> decide
    rw [hread, unescape_cons hplain, ← List.append_assoc, ← Text.utf8_append]
    rfl
  rcases hc with rfl | rfl
  · by_cases ht : t.head? = some '\r'
    · obtain ⟨t', rfl⟩ := List.head?_eq_some_iff.1 ht
      exact ⟨['\n', '\r'], t', rfl, rfl, htwo _ _ rfl (.inr rfl), .inr (by decide)⟩
    · exact ⟨['\n'], t, rfl, dropBreak_feed (hhead _ hmark.2 ht), hread, .inl rfl⟩
  · by_cases ht : t.head? = some '\n'
    · obtain ⟨t', rfl⟩ := List.head?_eq_some_iff.1 ht
      exact ⟨['\r', '\n'], t', rfl, rfl, htwo _ _ rfl (.inl rfl), .inr (by decide)⟩
    · exact ⟨['\r'], t, rfl, dropBreak_return (hhead _ hmark.1 ht), hread, .inr (by decide)⟩

end

end Lua51

section

variable {mark : Char} {content : Text} {bytes : List UInt8}

/-- An escape and what follows it, if what follows is read side by side. -/
theorem aligned_escape (hmark : isQuote mark = true) {c : Char} {t after : Text}
    {first more : List UInt8}
    (hfirst : Lua51.readEscape? (c :: (t ++ [mark])) = some (first, after))
    (hmore : Lua51.readQuoted? mark after = some (more, []))
    (ih : ∀ (rest : Text) (bytes : List UInt8), rest.length ≤ t.length →
      Lua51.readQuoted? mark (rest ++ [mark]) = some (bytes, []) →
        Aligned rest (unescape rest) bytes) :
    Aligned ('\\' :: c :: t) (unescape ('\\' :: c :: t)) (first ++ more) := by
  have hdigit : mark.isDigit = false := by
    rcases cases_of_isQuote hmark with rfl | rfl | rfl <;> rfl
  by_cases hbreak : c = '\n' ∨ c = '\r'
  · obtain ⟨w, rest, happ, hdrop, hours, hw⟩ := Lua51.exists_break hbreak
      ⟨ne_of_isQuote hmark rfl, ne_of_isQuote hmark rfl⟩ t
    rw [Lua51.readEscape?_of_break hbreak, hdrop] at hfirst
    obtain ⟨rfl, rfl⟩ := Prod.mk.inj (Option.some.inj hfirst)
    rcases hw with rfl | hw
    · obtain ⟨rfl, rfl⟩ := List.cons.inj happ
      have htaken : Escape.taken '\n' t = [] :=
        List.append_left_eq_self.1 (Escape.taken_append '\n' t)
      rw [unescape_escape]
      exact .known (by rw [htaken]; decide) (by rw [htaken]; decide) (ih _ _ (Nat.le_refl _) hmore)
    · have hlength := congrArg List.length happ
      have hpos := List.length_pos_of_mem hw
      rw [List.length_cons, List.length_append] at hlength
      rw [hours, happ]
      exact .lineBreak hw (ih _ _ (by omega) hmore)
  have hform := Escape.form_read c t
  rw [← Escape.taken_append c t] at hfirst
  have hrest := Escape.length_read_le c t
  rw [unescape_escape]
  cases hnewer : isNewer ('\\' :: c :: Escape.taken c t) with
  | false =>
    obtain ⟨rfl, rfl, hnone⟩ := Lua51.readEscape?_of_known hform hnewer hbreak hdigit hfirst
    exact .known hnone hnewer (ih _ _ hrest hmore)
  | true =>
    rw [Lua51.readEscape?_of_newer hnewer] at hfirst
    obtain ⟨rfl, rfl⟩ := Prod.mk.inj (Option.some.inj hfirst)
    have hplain : ∀ d ∈ Escape.taken c t, d ≠ '\\' ∧ d ≠ mark := fun d hd =>
      Escape.ne_of_mem_taken hmark hd
    rw [List.append_assoc] at hmore
    obtain ⟨hnone, last, hlast, rfl⟩ := Lua51.readQuoted?_append_plain hplain hmore
    rw [← List.append_assoc, ← Text.utf8_append]
    refine .newer ?_ hnewer (Lua51.length_lt_of_newer hform hnewer) (ih _ _ hrest hlast)
    rw [List.mem_cons, not_or]
    exact ⟨fun hc => hbreak (.inr hc.symm), hnone⟩

/-- What a lexer of Lua 5.1 reads as a whole string is read side by side with `unescape`. -/
theorem aligned_of_readQuoted? (hmark : isQuote mark = true)
    (h : Lua51.readQuoted? mark (content ++ [mark]) = some (bytes, [])) :
    Aligned content (unescape content) bytes := by
  have hslash : mark ≠ '\\' := ne_of_isQuote hmark rfl
  induction hlength : content.length using Nat.strong_induction_on generalizing content bytes with
  | _ n ih =>
  cases content with
  | nil =>
    rw [List.nil_append, Lua51.readQuoted?, if_pos rfl] at h
    obtain ⟨rfl, -⟩ := Prod.mk.inj (Option.some.inj h)
    simpa [unescape] using Aligned.nil
  | cons c t =>
    rw [List.length_cons] at hlength
    by_cases hc : c = '\\'
    · subst hc
      obtain ⟨first, after, more, hfirst, hmore, rfl⟩ := Lua51.readQuoted?_escape hslash h
      cases t with
      | nil =>
        -- the backslash takes the quote, and nothing ends the string
        have hquote : Lua51.readEscape? [mark] = some (Text.utf8 [mark], []) := by
          rcases cases_of_isQuote hmark with rfl | rfl | rfl <;>
            exact Lua51.readEscape?_of_letter rfl (by decide) rfl []
        obtain ⟨-, rfl⟩ := Prod.mk.inj (Option.some.inj (hquote.symm.trans hfirst))
        rw [Lua51.readQuoted?] at hmore
        cases hmore
      | cons c t =>
        rw [List.length_cons] at hlength
        exact aligned_escape hmark hfirst hmore fun rest bytes hrest hread =>
          ih rest.length (by omega) hread rfl
    · by_cases hquote : c = mark
      · rw [List.cons_append, Lua51.readQuoted?, if_pos hquote] at h
        simp at h
      rw [List.cons_append, Lua51.readQuoted?_cons hquote hc] at h
      split at h
      · cases h
      next hbreak =>
      obtain ⟨⟨more, after⟩, hmore, he⟩ := Option.map_eq_some_iff.1 h
      obtain ⟨rfl, rfl⟩ := Prod.mk.inj he
      rw [unescape_cons hc]
      exact .plain hc (fun hreturn => hbreak (.inr hreturn)) (ih t.length (by omega) hmore rfl)

/-- The bytes of a short string are those in Lua 5.1 without newer escapes and carriage returns only. -/
theorem unescape_eq_iff (hmark : isQuote mark = true)
    (h : Lua51.bytes? ((Delimiter.quote mark).enclose content) = some bytes) :
    unescape content = bytes ↔ (∀ u ∈ units content, isNewer u = false) ∧ '\r' ∉ content := by
  have hread : Lua51.readQuoted? mark (content ++ [mark]) = some (bytes, []) := by
    have htext : (Delimiter.quote mark).enclose content = mark :: (content ++ [mark]) := rfl
    rw [htext, Lua51.bytes?] at h
    split at h
    · next found hfound =>
      rw [hfound, Option.some.inj h]
    · cases h
  exact (aligned_of_readQuoted? hmark hread).eq_iff

end

/-! ## Slots -/

/-- A literal in quotes is what stands between them. -/
theorem enclose_of_ofText? {t content : Text} {mark : Char} (h : IsStringLiteral t)
    (hread : Literal.ofText? t = some ⟨.quote mark, content⟩) :
    t = (Delimiter.quote mark).enclose content ∧ isQuote mark = true := by
  have htext : t = (Delimiter.quote mark).enclose content := by
    obtain ⟨l, hl, htext⟩ := exists_literal_of_isStringLiteral h
    obtain rfl := Option.some.inj (hl.symm.trans hread)
    exact htext.symm
  refine ⟨htext, ?_⟩
  cases h with
  | quoted hquote =>
    obtain rfl := (List.cons.inj htext).1
    rcases hquote with rfl | rfl <;> rfl
  | @long level =>
    -- a text that begins with a bracket is read as a long literal
    obtain ⟨rfl, -⟩ := List.cons.inj htext
    rw [htext] at hread
    change Literal.ofText? ('[' :: (content ++ ['['])) = _ at hread
    rw [Literal.ofText?, if_neg (by decide), Option.map_eq_some_iff] at hread
    obtain ⟨_, -, he⟩ := hread
    cases he

/--
The table of a script for Lua 5.1, with all constants hidden. The slot of a short string that
Lua 5.1 can read holds the bytes that it has there, exactly if its content has no newer escape
and no carriage return.
-/
theorem slots_of_short_strings {source : Text} {spans : List Span} (h : IsPrepared source spans)
    (m : Mint) :
    let table := (extractStrings true .lua51 spans m).1.1
    ∃ slots, readTable table.declaration = some (table.name, slots) ∧
      List.Forall₂ (fun (constant : Span × Nat) slot => slot.index = constant.2 ∧
        ∀ (mark : Char) (content : Text) (bytes : List UInt8),
          Literal.ofText? constant.1.text = some ⟨.quote mark, content⟩ →
          Lua51.bytes? constant.1.text = some bytes →
            (slot.bytes = bytes.map UInt8.toNat ↔
              (∀ u ∈ units content, isNewer u = false) ∧ '\r' ∉ content))
        (spans.filter Span.isConstant).zipIdx slots := by
  intro table
  have hliterals : ∀ s ∈ spans, s.isConstant = true → IsStringLiteral s.text :=
    fun _ hs hconstant => isStringLiteral_of_isPrepared h hs hconstant
  obtain ⟨slots, hread, hslots⟩ := readTable_of_literals hliterals .lua51 m
  have hmem : ∀ constant ∈ (spans.filter Span.isConstant).zipIdx,
      IsStringLiteral constant.1.text := fun constant hconstant =>
    have hin := List.fst_mem_of_mem_zipIdx hconstant
    hliterals _ (List.mem_of_mem_filter hin) (List.of_mem_filter hin)
  refine ⟨slots, hread, ((List.forall₂_and_left _ _).2 ⟨hmem, hslots⟩).imp ?_⟩
  rintro constant slot ⟨hliteral, hslot⟩
  refine ⟨hslot.index_eq, fun mark content bytes hquoted hbytes => ?_⟩
  obtain ⟨literal, hsome, hours⟩ := hslot.bytes_eq
  obtain rfl := Option.some.inj (hsome.symm.trans hquoted)
  obtain ⟨htext, hmark⟩ := enclose_of_ofText? hliteral hquoted
  rw [htext] at hbytes
  rw [← unescape_eq_iff hmark hbytes, hours]
  exact (List.map_injective_iff.2 fun _ _ => UInt8.toNat_inj.1).eq_iff

/-- A number and a line break are hidden as Lua 5.1 reads them, but a newer escape is not. -/
theorem slots_of_two_strings :
    IsPrepared "f('\\65\\\n', '\\x41')".toList
      [⟨.code, "f(".toList, 0, 2⟩, ⟨.string, "'\\65\\\n'".toList, 2, 9⟩,
        ⟨.code, ", ".toList, 9, 11⟩, ⟨.string, "'\\x41'".toList, 11, 17⟩,
        ⟨.code, ")".toList, 17, 18⟩] ∧
    ∀ m, ∃ name first second,
      readTable (extractStrings true .lua51
        [⟨.code, "f(".toList, 0, 2⟩, ⟨.string, "'\\65\\\n'".toList, 2, 9⟩,
          ⟨.code, ", ".toList, 9, 11⟩, ⟨.string, "'\\x41'".toList, 11, 17⟩,
          ⟨.code, ")".toList, 17, 18⟩] m).1.1.declaration = some (name, [first, second]) ∧
        first.bytes = [65, 10] ∧ second.bytes ≠ [120, 52, 49] := by
  have hprepared : IsPrepared "f('\\65\\\n', '\\x41')".toList
      [⟨.code, "f(".toList, 0, 2⟩, ⟨.string, "'\\65\\\n'".toList, 2, 9⟩,
        ⟨.code, ", ".toList, 9, 11⟩, ⟨.string, "'\\x41'".toList, 11, 17⟩,
        ⟨.code, ")".toList, 17, 18⟩] := ⟨_, by decide +kernel, .inl rfl⟩
  refine ⟨hprepared, fun m => ?_⟩
  obtain ⟨slots, hread, hslots⟩ := slots_of_short_strings hprepared m
  cases hslots with
  | @cons _ first _ _ hfirst hslots =>
    cases hslots with
    | @cons _ second _ _ hsecond hnil =>
      cases hnil
      refine ⟨_, first, second, hread, ?_, fun hbytes => ?_⟩
      · exact (hfirst.2 '\'' "\\65\\\n".toList [65, 10] (by decide +kernel)
          (by decide +kernel)).2 (by decide +kernel)
      · have hknown := (hsecond.2 '\'' "\\x41".toList [120, 52, 49] (by decide +kernel)
          (by decide +kernel)).1 hbytes
        exact absurd hknown (by decide +kernel)

/-- Lua 5.1 reads three letters where the slot holds the one that their number stands for. -/
theorem newer_escape_hidden :
    scan "x = \"\\x41\"".toList =
        .ok [⟨.code, "x = ".toList, 0, 4⟩, ⟨.string, "\"\\x41\"".toList, 4, 10⟩] ∧
      Lua51.bytes? "\"\\x41\"".toList = some (Text.utf8 "x41".toList) ∧
      ∀ m, ∃ name slot,
        readTable (extractStrings true .lua51 [⟨.code, "x = ".toList, 0, 4⟩,
          ⟨.string, "\"\\x41\"".toList, 4, 10⟩] m).1.1.declaration = some (name, [slot]) ∧
        slot.bytes = (Text.utf8 "A".toList).map UInt8.toNat := by
  refine ⟨by decide +kernel, by decide +kernel, fun m => ?_⟩
  have hprepared : IsPrepared "x = \"\\x41\"".toList
      [⟨.code, "x = ".toList, 0, 4⟩, ⟨.string, "\"\\x41\"".toList, 4, 10⟩] :=
    ⟨_, by decide +kernel, .inl rfl⟩
  obtain ⟨slots, hread, hslots⟩ := readTable_of_literals
    (fun _ hs hconstant => isStringLiteral_of_isPrepared hprepared hs hconstant) .lua51 m
  cases hslots with
  | @cons _ slot _ _ hslot hnil =>
    cases hnil
    obtain ⟨literal, hliteral, hbytes⟩ := hslot.bytes_eq
    have hquoted : Literal.ofText? "\"\\x41\"".toList = some ⟨.quote '"', "\\x41".toList⟩ := by
      decide +kernel
    obtain rfl := Option.some.inj (hquoted.symm.trans hliteral)
    exact ⟨_, slot, hread, by rw [hbytes]; decide +kernel⟩

end LuaVeil
