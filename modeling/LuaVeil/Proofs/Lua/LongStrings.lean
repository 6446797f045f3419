/-
# Line breaks in long strings

At run time a long string has no line break at its start, and each other line break
is one line feed. The dialects differ in what a line break is: in Lua 5.1 it is a line
feed, a carriage return or both in either order; in Luau it is a line feed, perhaps with
a carriage return in front.

`Literal.bytes` takes the first line break off and leaves the others as they are. For a
text in which each carriage return is in front of a line feed, as on systems that end
lines with both, the dialects agree, and the carriage returns are what `Literal.bytes`
has too much.

Main statements:

* `Dialect.longContent_of_isPaired`, both dialects read such a text alike;
* `bytes_of_long_literal`, the bytes of a long literal and those at run time.
-/
import LuaVeil.Lua.Dialect
import LuaVeil.Proofs.Lua.Strings
import LuaVeil.Proofs.Text.Utf8

namespace LuaVeil

/-! ## What a long string stands for at run time -/

namespace Dialect

/-- A text with a line feed for each of its line breaks. -/
def normalizeBreaks : Dialect → Text → Text
  | _, [] => []
  | d, '\r' :: '\n' :: t => '\n' :: normalizeBreaks d t
  | lua51, '\n' :: '\r' :: t => '\n' :: normalizeBreaks lua51 t
  | lua51, '\r' :: t => '\n' :: normalizeBreaks lua51 t
  | d, c :: t => c :: normalizeBreaks d t

/-- A text without the line break at its start. -/
def dropBreak : Dialect → Text → Text
  | _, '\r' :: '\n' :: t => t
  | lua51, '\n' :: '\r' :: t => t
  | lua51, '\r' :: t => t
  | _, '\n' :: t => t
  | _, t => t

/-- What a long string with the given content holds at run time. -/
def longContent (d : Dialect) (content : Text) : Text :=
  d.normalizeBreaks (d.dropBreak content)

end Dialect

/-! ## Carriage returns in front of line feeds -/

/-- Whether each carriage return of a text is right in front of a line feed. -/
def IsPaired : Text → Prop
  | [] => True
  | c :: t => (c = '\r' → t.head? = some '\n') ∧ IsPaired t

/-- A text without its carriage returns. -/
def dropReturns (t : Text) : Text :=
  t.filter (· != '\r')

@[simp] theorem dropReturns_nil : dropReturns [] = [] := rfl

@[simp] theorem dropReturns_return (t : Text) : dropReturns ('\r' :: t) = dropReturns t := rfl

theorem dropReturns_cons {c : Char} (h : c ≠ '\r') (t : Text) :
    dropReturns (c :: t) = c :: dropReturns t := by
  simp [dropReturns, h]

@[simp] theorem dropReturns_feed (t : Text) : dropReturns ('\n' :: t) = '\n' :: dropReturns t :=
  dropReturns_cons (by decide) t

namespace Dialect

/-- If carriage returns stand in front of line feeds only, breaks are joined by dropping them. -/
theorem normalizeBreaks_of_isPaired (d : Dialect) {t : Text} (h : IsPaired t) :
    d.normalizeBreaks t = dropReturns t := by
  fun_induction normalizeBreaks d t with
  | case1 => rfl
  | case2 d t ih =>
    rw [ih h.2.2]
    simp
  | case3 t ih =>
    -- the carriage return belongs to the next line feed, which is a break of its own
    obtain ⟨-, hreturn, ht⟩ := h
    rw [ih ht]
    simp
  | case4 t hfeed ih =>
    cases t with
    | nil => cases h.1 rfl
    | cons c t =>
      obtain rfl : c = '\n' := Option.some.inj (h.1 rfl)
      exact absurd rfl (hfeed t)
  | case5 d c t hboth _ _ ih =>
    have hc : c ≠ '\r' := by
      intro hc
      obtain ⟨u, rfl⟩ := List.head?_eq_some_iff.1 (h.1 hc)
      exact hboth u hc rfl
    rw [ih h.2, dropReturns_cons hc]

/-- If carriage returns stand in front of line feeds only, one break is taken off the start. -/
theorem dropReturns_dropBreak (d : Dialect) {t : Text} (h : IsPaired t) :
    IsPaired (d.dropBreak t) ∧
      dropReturns (d.dropBreak t) = dropReturns (Literal.dropLineBreak t) := by
  fun_cases dropBreak d t with
  | case1 d t => exact ⟨h.2.2, rfl⟩
  | case2 t =>
    -- in Lua 5.1 the next break lends its carriage return to the first one
    exact ⟨h.2.2, rfl⟩
  | case3 t hfeed =>
    obtain ⟨u, rfl⟩ := List.head?_eq_some_iff.1 (h.1 rfl)
    exact absurd rfl (hfeed u)
  | case4 d t hreturn =>
    exact ⟨h.2, rfl⟩
  | case5 d t hboth _ _ hfeed =>
    refine ⟨h, ?_⟩
    have hsame : Literal.dropLineBreak t = t := by
      unfold Literal.dropLineBreak
      split
      · exact absurd rfl (hboth _)
      · exact absurd rfl (hfeed _)
      · rfl
    rw [hsame]

/-- Both dialects read a text alike if its carriage returns stand in front of line feeds only. -/
theorem longContent_of_isPaired (d : Dialect) {content : Text} (h : IsPaired content) :
    d.longContent content = dropReturns (Literal.dropLineBreak content) := by
  obtain ⟨hpaired, hdrop⟩ := d.dropReturns_dropBreak h
  rw [longContent, d.normalizeBreaks_of_isPaired hpaired, hdrop]

end Dialect

/-! ## Bytes of long strings -/

/-- The byte of the carriage return is in the code of no other character. -/
theorem return_mem_utf8EncodeChar {c : Char} : 13 ∈ String.utf8EncodeChar c ↔ c = '\r' := by
  rw [Text.mem_utf8EncodeChar_iff (by decide)]
  exact ⟨fun h => Char.toNat_inj.1 h, fun h => congrArg Char.toNat h⟩

theorem return_mem_utf8 {t : Text} : 13 ∈ Text.utf8 t ↔ '\r' ∈ t := by
  simp [Text.utf8, return_mem_utf8EncodeChar]

theorem utf8_dropReturns (t : Text) :
    Text.utf8 (dropReturns t) = (Text.utf8 t).filter (· != 13) := by
  induction t with
  | nil => rfl
  | cons c t ih =>
    have hcons : ∀ t, Text.utf8 (c :: t) = String.utf8EncodeChar c ++ Text.utf8 t :=
      fun _ => List.flatMap_cons
    by_cases hc : c = '\r'
    · subst hc
      rw [hcons, dropReturns_return, ih]
      rfl
    · have hkept : (String.utf8EncodeChar c).filter (· != 13) = String.utf8EncodeChar c := by
        refine List.filter_eq_self.2 fun b hb => ?_
        rw [bne_iff_ne]
        rintro rfl
        exact hc (return_mem_utf8EncodeChar.1 hb)
      rw [hcons, List.filter_append, hkept, dropReturns_cons hc, hcons, ih]

/--
A long literal of a script is what stands between its brackets. If carriage returns stand in front
of line feeds only, its bytes at run time are `Literal.bytes` without carriage returns, in both
dialects: the two are the same exactly if there is none behind a line break at the start.
-/
theorem bytes_of_long_literal {source : Text} {spans : List Span} (h : scan source = .ok spans)
    {s : Span} (hs : s ∈ spans) (hkind : s.kind = .string) {level : Nat} {content : Text}
    (hread : Literal.ofText? s.text = some ⟨.long level, content⟩) (hpaired : IsPaired content)
    (d : Dialect) :
    s.text = (Delimiter.long level).enclose content ∧
      Text.utf8 (d.longContent content) =
        (Literal.bytes ⟨.long level, content⟩).filter (· != 13) ∧
      (Literal.bytes ⟨.long level, content⟩ = Text.utf8 (d.longContent content) ↔
        '\r' ∉ Literal.dropLineBreak content) := by
  have hbytes : Text.utf8 (d.longContent content) =
      (Literal.bytes ⟨.long level, content⟩).filter (· != 13) := by
    rw [d.longContent_of_isPaired hpaired, utf8_dropReturns]
    rfl
  refine ⟨?_, hbytes, ?_⟩
  · obtain ⟨l, hl, htext⟩ : ∃ l, Literal.ofText? s.text = some l ∧ l.text = s.text := by
      rcases isStringLiteral_of_mem_scan h hs hkind with hliteral | htick
      · exact exists_literal_of_isStringLiteral hliteral
      · rw [ofText?_of_backtick htick] at hread
        cases hread
    obtain rfl := Option.some.inj (hl.symm.trans hread)
    exact htext.symm
  · have hkept : (∀ b ∈ Text.utf8 (Literal.dropLineBreak content), (b != 13) = true) ↔
        '\r' ∉ Literal.dropLineBreak content := by
      rw [← return_mem_utf8]
      refine ⟨fun hall hmem => absurd (hall 13 hmem) (by decide), fun hnone b hb => ?_⟩
      rw [bne_iff_ne]
      rintro rfl
      exact hnone hb
    rw [hbytes, eq_comm, List.filter_eq_self]
    exact hkept

/-- Both dialects drop the carriage returns of a long string at run time. -/
theorem paired_breaks_joined : scan "x = [=[\r\na\r\n]]\n\r\n]=]".toList =
      .ok [⟨.code, "x = ".toList, 0, 4⟩,
        ⟨.string, "[=[\r\na\r\n]]\n\r\n]=]".toList, 4, 20⟩] ∧
    IsPaired "\r\na\r\n]]\n\r\n".toList ∧ ∀ d : Dialect,
      Text.utf8 (d.longContent "\r\na\r\n]]\n\r\n".toList) = [97, 10, 93, 93, 10, 10] := by
  have hscan : scan "x = [=[\r\na\r\n]]\n\r\n]=]".toList =
      .ok [⟨.code, "x = ".toList, 0, 4⟩,
        ⟨.string, "[=[\r\na\r\n]]\n\r\n]=]".toList, 4, 20⟩] := by decide +kernel
  have hread : Literal.ofText? "[=[\r\na\r\n]]\n\r\n]=]".toList =
      some ⟨.long 1, "\r\na\r\n]]\n\r\n".toList⟩ := by decide +kernel
  have hpaired : IsPaired "\r\na\r\n]]\n\r\n".toList := by simp [IsPaired]
  refine ⟨hscan, hpaired, fun d => ?_⟩
  obtain ⟨-, hbytes, -⟩ := bytes_of_long_literal hscan (List.mem_cons_of_mem _ List.mem_cons_self)
    rfl hread hpaired d
  rw [hbytes]
  decide +kernel

/-- A line break of two characters inside a long string: both dialects make it one. -/
theorem break_kept : ∃ spans s content, scan "x = [[a\r\nb]]".toList = .ok spans ∧ s ∈ spans ∧
    Literal.ofText? s.text = some ⟨.long 0, content⟩ ∧ IsPaired content ∧
    Literal.bytes ⟨.long 0, content⟩ = [97, 13, 10, 98] ∧
    ∀ d : Dialect, Text.utf8 (d.longContent content) = [97, 10, 98] := by
  refine ⟨[⟨.code, "x = ".toList, 0, 4⟩, ⟨.string, "[[a\r\nb]]".toList, 4, 12⟩],
    ⟨.string, "[[a\r\nb]]".toList, 4, 12⟩, "a\r\nb".toList, by decide +kernel,
    List.mem_cons_of_mem _ List.mem_cons_self, by decide +kernel, ?_, by decide +kernel,
    fun d => ?_⟩
  · simp [IsPaired]
  · cases d <;> decide +kernel

end LuaVeil
