/-
# Where the holes of a string lie

What stands in front of a character of an interpolated string decides whether it is
read as text, as code or as part of a string quoted in code. Such fronts are described
here from left to right, without the automaton that finds the holes: `Outside`,
`InCode` and `InQuotes`. A front is of one kind only, and the holes are made of those
characters that stand in code.

Main statements:

* `Zone.tells_iff`, the automaton is in the zone that the front of a character tells;
* `areHoles_holesFrom`, from any mode on, the automaton finds the code that is left;
* `holes_wellPlaced`, the holes of a text are not empty, lie apart from left to right,
  and take up exactly the code behind unescaped braces, less what is quoted there.
-/
import LuaVeil.Proofs.Lua.Partition
import LuaVeil.Proofs.Lua.Pieces
import Mathlib.Algebra.Group.Nat.Even

namespace LuaVeil

open Text

/-! ## In front of a character -/

/-- A character that quotes a string in code. -/
abbrev QuotesInCode (c : Char) : Prop :=
  c = '"' ∨ c = '\''

/-- What has been read of a quoted string, behind its quote. -/
inductive Quoted (mark : Char) : Text → Prop
  | nil : Quoted mark []
  | char {t : Text} {c : Char} (h : Quoted mark t) (hmark : c ≠ mark) (hslash : c ≠ '\\') :
      Quoted mark (t ++ [c])
  | escape {t : Text} (h : Quoted mark t) (c : Char) : Quoted mark (t ++ ['\\', c])

/-- Code behind the brace that begins it, with `depth` braces open. -/
inductive HoleCode : Nat → Text → Prop
  | nil : HoleCode 0 []
  | char {depth : Nat} {t : Text} {c : Char} (h : HoleCode depth t) (hc : isHoleMark c = false) :
      HoleCode depth (t ++ [c])
  | opening {depth : Nat} {t : Text} (h : HoleCode depth t) : HoleCode (depth + 1) (t ++ ['{'])
  | closing {depth : Nat} {t : Text} (h : HoleCode (depth + 1) t) : HoleCode depth (t ++ ['}'])
  | quoted {depth : Nat} {t s : Text} {mark : Char} (h : HoleCode depth t)
      (hmark : QuotesInCode mark) (hs : Quoted mark s) : HoleCode depth (t ++ mark :: s ++ [mark])

/-- The start of an interpolated string that ends outside of code and behind no escape. -/
inductive Outside : Text → Prop
  | start : Outside ['`']
  | char {t : Text} {c : Char} (h : Outside t) (hslash : c ≠ '\\') (hopen : c ≠ '{') :
      Outside (t ++ [c])
  | escape {t : Text} (h : Outside t) (c : Char) : Outside (t ++ ['\\', c])
  | code {t s : Text} (h : Outside t) (hs : HoleCode 0 s) : Outside (t ++ '{' :: s ++ ['}'])

/-- Whether a front ends in code with `depth` braces open, behind an unescaped brace. -/
def InCode (depth : Nat) (front : Text) : Prop :=
  ∃ before code, before ++ '{' :: code = front ∧ Outside before ∧ HoleCode depth code

/-- Whether a front ends in a string quoted in such code, behind no escape. -/
def InQuotes (depth : Nat) (mark : Char) (front : Text) : Prop :=
  ∃ before s, before ++ mark :: s = front ∧ InCode depth before ∧ QuotesInCode mark ∧ Quoted mark s

/-- Whether a front ends in a string quoted in code. -/
def InString (front : Text) : Prop :=
  ∃ depth mark, InQuotes depth mark front ∨ ∃ t, t ++ ['\\'] = front ∧ InQuotes depth mark t

/--
Whether the character behind a front is code: neither a quote nor something quoted, and not the
brace that ends the code, which stands where no other is open.
-/
def IsCodeChar (front : Text) (c : Char) : Prop :=
  ∃ depth, InCode depth front ∧ ¬ QuotesInCode c ∧ (c = '}' → depth ≠ 0)

/-! ## The zone behind a front -/

/-- The zone in which a mode reads. -/
def HoleMode.zone : HoleMode → Zone
  | plain => .plain
  | plainEscape => .plainEscape
  | code depth _ _ => .code depth
  | quoted depth mark => .quoted depth mark
  | quotedEscape depth mark => .quotedEscape depth mark

namespace Zone

/-- The zone behind a character. -/
def after (z : Zone) (c : Char) : Zone :=
  ((z.mode 0).step 0 c).1.zone

theorem after_plain (c : Char) :
    plain.after c = if c = '\\' then plainEscape else if c = '{' then code 0 else plain := by
  unfold after
  simp only [mode, HoleMode.step]
  split_ifs <;> rfl

theorem after_code (depth : Nat) (c : Char) :
    (code depth).after c =
      if c = '{' then code (depth + 1)
      else if c = '}' then if depth = 0 then plain else code (depth - 1)
      else if QuotesInCode c then quoted depth c
      else code depth := by
  unfold after
  cases depth <;> simp only [mode, HoleMode.step] <;> split_ifs <;> first | rfl | contradiction

theorem after_quoted (depth : Nat) (mark c : Char) :
    (quoted depth mark).after c =
      if c = mark then code depth
      else if c = '\\' then quotedEscape depth mark
      else quoted depth mark := by
  unfold after
  simp only [mode, HoleMode.step]
  split_ifs <;> rfl

/-- What stands in front of a zone. -/
def Tells (front : Text) : Zone → Prop
  | plain => Outside front
  | plainEscape => ∃ t, t ++ ['\\'] = front ∧ Outside t
  | code depth => InCode depth front
  | quoted depth mark => InQuotes depth mark front
  | quotedEscape depth mark => ∃ t, t ++ ['\\'] = front ∧ InQuotes depth mark t

end Zone

/-- The zone of a mode does not depend on the code that it holds. -/
theorem zone_step (mode : HoleMode) (place : Nat) (c : Char) :
    (mode.step place c).1.zone = mode.zone.after c := by
  cases mode with
  | plain =>
    rw [HoleMode.zone, Zone.after_plain, HoleMode.step]
    split_ifs <;> rfl
  | code depth start read =>
    unfold Zone.after
    cases depth <;> simp only [Zone.mode, HoleMode.zone, HoleMode.step] <;> split_ifs <;> rfl
  | quoted depth mark =>
    rw [HoleMode.zone, Zone.after_quoted, HoleMode.step]
    split_ifs <;> rfl
  | _ => rfl

/-- A character goes on from what stands in front of its zone to what stands behind it. -/
theorem Zone.Tells.after {z : Zone} {front : Text} (h : z.Tells front) (c : Char) :
    (z.after c).Tells (front ++ [c]) := by
  cases z with
  | plain =>
    rw [after_plain]
    split_ifs with hslash hopen
    · subst hslash
      exact ⟨front, rfl, h⟩
    · subst hopen
      exact ⟨front, [], rfl, h, .nil⟩
    · exact .char h hslash hopen
  | plainEscape =>
    obtain ⟨t, rfl, h⟩ := h
    rw [List.append_assoc]
    exact .escape h c
  | code depth =>
    obtain ⟨before, code, rfl, hbefore, hcode⟩ := h
    rw [after_code]
    split_ifs with hopen hclose hdepth hquote
    · subst hopen
      exact ⟨before, code ++ ['{'], by simp, hbefore, .opening hcode⟩
    · subst hclose hdepth
      exact .code hbefore hcode
    · subst hclose
      obtain ⟨d, rfl⟩ := Nat.exists_eq_succ_of_ne_zero hdepth
      exact ⟨before, code ++ ['}'], by simp, hbefore, .closing hcode⟩
    · exact ⟨before ++ '{' :: code, [], rfl, ⟨before, code, rfl, hbefore, hcode⟩, hquote, .nil⟩
    · have hmark : isHoleMark c = false := by
        obtain ⟨hdouble, hsingle⟩ := not_or.1 hquote
        simp [isHoleMark, hopen, hclose, hdouble, hsingle]
      exact ⟨before, code ++ [c], by simp, hbefore, .char hcode hmark⟩
  | quoted depth mark =>
    obtain ⟨front, s, rfl, hfront, hmark, hs⟩ := h
    rw [after_quoted]
    split_ifs with hend hslash
    · subst hend
      obtain ⟨before, code, rfl, hbefore, hcode⟩ := hfront
      exact ⟨before, code ++ c :: s ++ [c], by simp, hbefore, .quoted hcode hmark hs⟩
    · subst hslash
      exact ⟨_, rfl, front, s, rfl, hfront, hmark, hs⟩
    · exact ⟨front, s ++ [c], by simp, hfront, hmark, .char hs hend hslash⟩
  | quotedEscape depth mark =>
    obtain ⟨_, rfl, front, s, rfl, hfront, hmark, hs⟩ := h
    exact ⟨front, s ++ ['\\', c], by simp, hfront, hmark, .escape hs c⟩

/-! ## One kind of front -/

/-- The zone behind the start of an interpolated string. -/
def zoneAt (front : Text) : Zone :=
  front.tail.foldl Zone.after .plain

theorem zoneAt_append {front : Text} (h : front ≠ []) (t : Text) :
    zoneAt (front ++ t) = t.foldl Zone.after (zoneAt front) := by
  rw [zoneAt, List.tail_append_of_ne_nil h, List.foldl_append, zoneAt]

theorem QuotesInCode.not_slash {mark : Char} (h : QuotesInCode mark) : '\\' ≠ mark := by
  rcases h with rfl | rfl <;> decide

theorem Quoted.foldl_after {mark : Char} (hmark : QuotesInCode mark) {s : Text} (h : Quoted mark s)
    (depth : Nat) : s.foldl Zone.after (.quoted depth mark) = .quoted depth mark := by
  induction h with
  | nil => rfl
  | @char t c _ hend hslash ih =>
    rw [List.foldl_append, ih, List.foldl_cons, List.foldl_nil, Zone.after_quoted, if_neg hend,
      if_neg hslash]
  | @escape t _ c ih =>
    rw [List.foldl_append, ih, List.foldl_cons, List.foldl_cons, List.foldl_nil, Zone.after_quoted,
      if_neg hmark.not_slash, if_pos rfl]
    rfl

/-- A quote in code begins a quoted string. -/
theorem Quoted.foldl_quote {mark : Char} (hmark : QuotesInCode mark) {s : Text} (h : Quoted mark s)
    (depth : Nat) : (mark :: s).foldl Zone.after (.code depth) = .quoted depth mark := by
  have hquote : (Zone.code depth).after mark = .quoted depth mark := by
    rcases hmark with rfl | rfl <;> rfl
  rw [List.foldl_cons, hquote, h.foldl_after hmark]

theorem HoleCode.foldl_after {depth : Nat} {code : Text} (h : HoleCode depth code) :
    code.foldl Zone.after (.code 0) = .code depth := by
  induction h with
  | nil => rfl
  | @char depth t c _ hc ih =>
    simp only [isHoleMark, Bool.or_eq_false_iff, beq_eq_false_iff_ne] at hc
    obtain ⟨⟨⟨hopen, hclose⟩, hdouble⟩, hsingle⟩ := hc
    have hquote : ¬ QuotesInCode c := not_or.2 ⟨hdouble, hsingle⟩
    rw [List.foldl_append, ih, List.foldl_cons, List.foldl_nil, Zone.after_code, if_neg hopen,
      if_neg hclose, if_neg hquote]
  | opening _ ih =>
    rw [List.foldl_append, ih]
    rfl
  | closing _ ih =>
    rw [List.foldl_append, ih]
    rfl
  | @quoted depth t s mark _ hmark hs ih =>
    have hend : (Zone.quoted depth mark).after mark = .code depth := by
      rw [Zone.after_quoted, if_pos rfl]
    rw [List.foldl_append, List.foldl_append, ih, hs.foldl_quote hmark, List.foldl_cons, hend,
      List.foldl_nil]

theorem Outside.ne_nil {front : Text} (h : Outside front) : front ≠ [] := by
  cases h <;> simp

theorem Outside.zoneAt_eq {front : Text} (h : Outside front) : zoneAt front = .plain := by
  induction h with
  | start => rfl
  | @char t c h hslash hopen ih =>
    rw [zoneAt_append h.ne_nil, ih, List.foldl_cons, List.foldl_nil, Zone.after_plain,
      if_neg hslash, if_neg hopen]
  | escape h c ih =>
    rw [zoneAt_append h.ne_nil, ih]
    rfl
  | @code t s h hs ih =>
    have hopen : (Zone.plain).after '{' = .code 0 := rfl
    rw [List.append_assoc, zoneAt_append h.ne_nil, ih, List.cons_append, List.foldl_cons, hopen,
      List.foldl_append, hs.foldl_after]
    rfl

theorem InCode.ne_nil {depth : Nat} {front : Text} (h : InCode depth front) : front ≠ [] := by
  obtain ⟨before, code, rfl, -, -⟩ := h
  simp

theorem InCode.zoneAt_eq {depth : Nat} {front : Text} (h : InCode depth front) :
    zoneAt front = .code depth := by
  obtain ⟨before, code, rfl, hbefore, hcode⟩ := h
  have hopen : (Zone.plain).after '{' = .code 0 := rfl
  rw [zoneAt_append hbefore.ne_nil, hbefore.zoneAt_eq, List.foldl_cons, hopen, hcode.foldl_after]

theorem InQuotes.ne_nil {depth : Nat} {mark : Char} {front : Text} (h : InQuotes depth mark front) :
    front ≠ [] := by
  obtain ⟨before, s, rfl, -⟩ := h
  simp

theorem InQuotes.zoneAt_eq {depth : Nat} {mark : Char} {front : Text}
    (h : InQuotes depth mark front) : zoneAt front = .quoted depth mark := by
  obtain ⟨before, s, rfl, hbefore, hmark, hs⟩ := h
  rw [zoneAt_append hbefore.ne_nil, hbefore.zoneAt_eq, hs.foldl_quote hmark]

/-- A front is of one kind only. -/
theorem Zone.Tells.zoneAt_eq {z : Zone} {front : Text} (h : z.Tells front) : zoneAt front = z := by
  cases z with
  | plain => exact Outside.zoneAt_eq h
  | plainEscape =>
    obtain ⟨t, rfl, h⟩ := h
    rw [zoneAt_append h.ne_nil, h.zoneAt_eq]
    rfl
  | code depth => exact InCode.zoneAt_eq h
  | quoted depth mark => exact InQuotes.zoneAt_eq h
  | quotedEscape depth mark =>
    obtain ⟨t, rfl, h⟩ := h
    obtain ⟨-, -, -, -, hmark, -⟩ := id h
    rw [zoneAt_append h.ne_nil, h.zoneAt_eq, List.foldl_cons, List.foldl_nil, after_quoted,
      if_neg hmark.not_slash, if_pos rfl]

/-- Each start of an interpolated string is of the kind that its zone tells. -/
theorem Zone.tells_zoneAt (t : Text) : (zoneAt ('`' :: t)).Tells ('`' :: t) := by
  induction t using List.reverseRecOn with
  | nil => exact Outside.start
  | append_singleton t c ih =>
    have h := ih.after c
    have hzone : (zoneAt ('`' :: t)).after c = zoneAt ('`' :: (t ++ [c])) :=
      (zoneAt_append (List.cons_ne_nil _ _) [c]).symm
    rwa [hzone] at h

theorem Zone.tells_iff {z : Zone} {t : Text} : z.Tells ('`' :: t) ↔ zoneAt ('`' :: t) = z :=
  ⟨Tells.zoneAt_eq, fun h => h ▸ tells_zoneAt t⟩

/-- Code is read in the zones of code, up to a quote or the brace that ends it. -/
theorem Zone.Tells.isCodeChar_iff {z : Zone} {front : Text} (h : z.Tells front) (c : Char) :
    IsCodeChar front c ↔ ∃ depth, z = .code depth ∧ ¬ QuotesInCode c ∧ (c = '}' → depth ≠ 0) := by
  refine exists_congr fun depth => and_congr_left fun _ => ⟨fun hcode => ?_, fun hz => ?_⟩
  · rw [← h.zoneAt_eq, hcode.zoneAt_eq]
  · subst hz
    exact h

/-- What is quoted in code is not code. -/
theorem InString.not_isCodeChar {front : Text} (h : InString front) (c : Char) :
    ¬ IsCodeChar front c := by
  rintro ⟨depth, hcode, -⟩
  obtain ⟨depth', mark, hquotes | hescape⟩ := h
  · have hzone := hcode.zoneAt_eq.symm.trans hquotes.zoneAt_eq
    cases hzone
  · have htells : (Zone.quotedEscape depth' mark).Tells front := hescape
    have hzone := hcode.zoneAt_eq.symm.trans htells.zoneAt_eq
    cases hzone

/-! ## Reading code -/

/-- Whether a mode behind some text holds the code that has been read from there on. -/
def HoleMode.Holds (before read : Text) : HoleMode → Prop
  | code _ start held => start = byteSize before ∧ held = read.reverse
  | _ => read = []

/-- The code that has been read behind some text, if any. -/
def holeAt (before read : Text) : List Hole :=
  if read = [] then [] else [⟨byteSize before, read⟩]

theorem HoleMode.Holds.finish_eq {mode : HoleMode} {before read : Text}
    (h : mode.Holds before read) : mode.finish = holeAt before read := by
  cases mode with
  | code depth start held =>
    obtain ⟨rfl, rfl⟩ := h
    exact holePieces_reverse _ read
  | _ =>
    obtain rfl : read = [] := h
    rfl

/-- A character of code is held with what has been read. -/
theorem HoleMode.Holds.step_code {mode : HoleMode} {before read : Text} {c : Char}
    (h : mode.Holds before read)
    (hc : ∃ depth, mode.zone = .code depth ∧ ¬ QuotesInCode c ∧ (c = '}' → depth ≠ 0))
    (place : Nat) :
    (mode.step place c).2 = [] ∧ (mode.step place c).1.Holds before (read ++ [c]) := by
  obtain ⟨depth, hzone, hquote, hclose⟩ := hc
  cases mode with
  | code depth' start held =>
    obtain rfl : depth' = depth := Zone.code.inj hzone
    obtain ⟨rfl, rfl⟩ := h
    simp only [HoleMode.step]
    split_ifs with hopen hbrace
    · exact ⟨rfl, rfl, by simp⟩
    · obtain ⟨d, rfl⟩ := Nat.exists_eq_succ_of_ne_zero (hclose hbrace)
      exact ⟨rfl, rfl, by simp⟩
    · exact ⟨rfl, rfl, by simp⟩
  | _ => cases hzone

/-- Any other character completes what has been read, and nothing is held behind it. -/
theorem HoleMode.Holds.step_other {mode : HoleMode} {before read : Text} {c : Char}
    (h : mode.Holds before read)
    (hc : ¬ ∃ depth, mode.zone = .code depth ∧ ¬ QuotesInCode c ∧ (c = '}' → depth ≠ 0))
    (front : Text) :
    (mode.step (byteSize front) c).2 = holeAt before read ∧
      (mode.step (byteSize front) c).1.Holds front [] := by
  cases mode with
  | code depth start held =>
    obtain ⟨rfl, rfl⟩ := h
    by_cases hquote : QuotesInCode c
    · rcases hquote with rfl | rfl <;> exact ⟨holePieces_reverse _ read, rfl⟩
    · have hend : c = '}' ∧ depth = 0 := by
        by_contra hne
        exact hc ⟨depth, rfl, hquote, fun hbrace hdepth => hne ⟨hbrace, hdepth⟩⟩
      obtain ⟨rfl, rfl⟩ := hend
      exact ⟨holePieces_reverse _ read, rfl⟩
  | plainEscape | quotedEscape =>
    obtain rfl : read = [] := h
    exact ⟨rfl, rfl⟩
  | plain =>
    obtain rfl : read = [] := h
    simp only [HoleMode.step]
    split_ifs
    · exact ⟨rfl, rfl⟩
    · exact ⟨rfl, rfl, rfl⟩
    · exact ⟨rfl, rfl⟩
  | quoted depth mark =>
    obtain rfl : read = [] := h
    simp only [HoleMode.step]
    split_ifs
    · exact ⟨rfl, rfl, rfl⟩
    · exact ⟨rfl, rfl⟩
    · exact ⟨rfl, rfl⟩

/-! ## Holes from a place on -/

theorem byteSize_le_of_isPrefix {s t : Text} (h : s <+: t) : byteSize s ≤ byteSize t := by
  obtain ⟨rest, rfl⟩ := h
  rw [byteSize_append]
  exact Nat.le_add_right _ _

/-- Of two characters of a text, the later one is the same or begins behind the other. -/
theorem eq_or_byteSize_le {source front front' : Text} {c c' : Char}
    (h : front ++ [c] <+: source) (h' : front' ++ [c'] <+: source)
    (hle : byteSize front ≤ byteSize front') :
    front' = front ∧ c' = c ∨ byteSize (front ++ [c]) ≤ byteSize front' := by
  obtain ⟨rest, rfl⟩ := h
  obtain ⟨rest', happ⟩ := h'
  rw [List.append_assoc, List.append_assoc] at happ
  obtain ⟨more, rfl, hmore⟩ := exists_of_byteSize_le happ hle
  cases more with
  | nil => exact .inl ⟨List.append_nil _, (List.cons.inj hmore).1.symm⟩
  | cons d more =>
    obtain ⟨rfl, -⟩ := List.cons.inj hmore
    right
    simp only [byteSize_append, byteSize_cons, byteSize_nil]
    omega

/-- A character that begins where a part of the text is written is one of this part. -/
theorem exists_of_byteSize_lt {source before part front : Text} {c : Char}
    (h : front ++ [c] <+: source) (hpart : before ++ part <+: source)
    (hle : byteSize before ≤ byteSize front) (hlt : byteSize front < byteSize (before ++ part)) :
    ∃ s, front = before ++ s ∧ s ++ [c] <+: part := by
  have hprefix : front ++ [c] <+: before ++ part := by
    rcases List.prefix_or_prefix_of_prefix h hpart with hprefix | hback
    · exact hprefix
    rcases List.prefix_concat_iff.1 hback with heq | hback
    · exact heq ▸ List.prefix_rfl
    · exact absurd hlt (Nat.not_lt.2 (byteSize_le_of_isPrefix hback))
  obtain ⟨rest, happ⟩ := hprefix
  rw [List.append_assoc] at happ
  obtain ⟨s, rfl, rfl⟩ := exists_of_byteSize_le happ hle
  refine ⟨s, rfl, ?_⟩
  rw [← List.append_assoc]
  exact List.prefix_append _ rest

/-- Whether a byte lies in one of some holes. -/
def Covers (found : List Hole) (place : Nat) : Prop :=
  ∃ h ∈ found, h.start ≤ place ∧ place < h.stop

theorem covers_cons {h : Hole} {found : List Hole} {place : Nat} :
    Covers (h :: found) place ↔ (h.start ≤ place ∧ place < h.stop) ∨ Covers found place := by
  simp [Covers]

/-- Whether a hole is not empty and its text is written at its offset in a source. -/
def Hole.IsIn (h : Hole) (source : Text) : Prop :=
  h.text ≠ [] ∧ HoldsAt (h.text <+: ·) source h.start

/-- Holes of a source from a byte on, which take up all the code that begins there or later. -/
structure AreHoles (source : Text) (place : Nat) (found : List Hole) : Prop where
  isIn : ∀ h ∈ found, h.IsIn source
  after : ∀ h ∈ found, place ≤ h.start
  apart : found.Pairwise fun a b => a.stop < b.start
  covers : ∀ front c, front ++ [c] <+: source → place ≤ byteSize front →
    (Covers found (byteSize front) ↔ IsCodeChar front c)

/-- No hole begins at a character that is no code. -/
theorem AreHoles.skip {source front : Text} {c : Char} {found : List Hole}
    (h : AreHoles source (byteSize (front ++ [c])) found) (hfront : front ++ [c] <+: source)
    (hc : ¬ IsCodeChar front c) :
    AreHoles source (byteSize front) found ∧ ∀ x ∈ found, byteSize front < x.start := by
  have hlt : ∀ x ∈ found, byteSize front < x.start := by
    intro x hx
    have hle := h.after x hx
    have hpos := c.utf8Size_pos
    simp only [byteSize_append, byteSize_cons, byteSize_nil] at hle
    omega
  refine ⟨⟨h.isIn, fun x hx => Nat.le_of_lt (hlt x hx), h.apart, fun front' c' hfront' hle => ?_⟩,
    hlt⟩
  rcases eq_or_byteSize_le hfront hfront' hle with ⟨rfl, rfl⟩ | hle
  · refine iff_of_false ?_ hc
    rintro ⟨x, hx, hstart, -⟩
    exact Nat.not_le.2 (hlt x hx) hstart
  · exact h.covers front' c' hfront' hle

/-- The code that has been read is a hole before the others. -/
theorem AreHoles.holeAt_append {source before read : Text} {found : List Hole}
    (h : AreHoles source (byteSize (before ++ read)) found)
    (hlt : ∀ x ∈ found, byteSize (before ++ read) < x.start) (hread : before ++ read <+: source)
    (hcode : ∀ s c, s ++ [c] <+: read → IsCodeChar (before ++ s) c) :
    AreHoles source (byteSize before) (holeAt before read ++ found) := by
  by_cases hnil : read = []
  · subst hnil
    rwa [List.append_nil] at h
  have hstop : Hole.stop ⟨byteSize before, read⟩ = byteSize (before ++ read) :=
    (byteSize_append _ _).symm
  rw [holeAt, if_neg hnil, List.singleton_append]
  refine ⟨?_, ?_, ?_, fun front c hfront hle => ?_⟩
  · refine List.forall_mem_cons.2 ⟨⟨hnil, ?_⟩, h.isIn⟩
    obtain ⟨rest, rfl⟩ := hread
    rw [List.append_assoc]
    exact holdsAt_iff.2 (List.prefix_append _ _)
  · refine List.forall_mem_cons.2 ⟨Nat.le_refl _, fun x hx => ?_⟩
    rw [byteSize_append] at hlt
    exact Nat.le_of_lt (Nat.lt_of_le_of_lt (Nat.le_add_right _ _) (hlt x hx))
  · exact List.pairwise_cons.2 ⟨fun x hx => hstop ▸ hlt x hx, h.apart⟩
  by_cases hin : byteSize front < byteSize (before ++ read)
  · have hcovered : Covers (⟨byteSize before, read⟩ :: found) (byteSize front) :=
      ⟨_, List.mem_cons_self, hle, hstop ▸ hin⟩
    obtain ⟨s, rfl, hs⟩ := exists_of_byteSize_lt hfront hread hle hin
    exact iff_of_true hcovered (hcode s c hs)
  · rw [← h.covers front c hfront (Nat.not_lt.1 hin), covers_cons]
    refine or_iff_right ?_
    rintro ⟨-, hlast⟩
    exact hin (hstop ▸ hlast)

/-- Where the automaton reads on, it finds the code that is left. -/
theorem areHoles_holesFrom {source : Text} (mode : HoleMode) (before read front t : Text)
    (hfront : before ++ read = front) (hsource : front ++ t = source)
    (htells : mode.zone.Tells front) (hholds : mode.Holds before read)
    (hcode : ∀ s c, s ++ [c] <+: read → IsCodeChar (before ++ s) c) :
    AreHoles source (byteSize before) (holesFrom mode (byteSize front) t) := by
  induction t generalizing mode before read front with
  | nil =>
    subst hfront
    rw [List.append_nil] at hsource
    have hend : AreHoles source (byteSize (before ++ read)) [] := by
      refine ⟨by simp, by simp, .nil, fun front c hfront hle => ?_⟩
      have hlt := byteSize_le_of_isPrefix hfront
      have hpos := c.utf8Size_pos
      rw [← hsource, byteSize_append front, byteSize_cons] at hlt
      omega
    have hall := hend.holeAt_append (by simp) (hsource ▸ List.prefix_rfl) hcode
    rwa [List.append_nil, ← hholds.finish_eq] at hall
  | cons c t ih =>
    have hnext : front ++ [c] ++ t = source := by rw [← hsource, List.append_assoc]; rfl
    have hplace : byteSize front + c.utf8Size = byteSize (front ++ [c]) := by simp
    have htells' := htells.after c
    rw [← zone_step mode (byteSize (front ++ [c]))] at htells'
    rw [holesFrom]
    dsimp only
    rw [hplace]
    by_cases hc : IsCodeChar front c
    · -- the character is read as well
      obtain ⟨hfound, hholds'⟩ := hholds.step_code ((htells.isCodeChar_iff c).1 hc)
        (byteSize (front ++ [c]))
      rw [hfound, List.nil_append]
      refine ih _ before (read ++ [c]) _ (by rw [← hfront, List.append_assoc]) hnext htells' hholds'
        fun s d hs => ?_
      rcases List.prefix_concat_iff.1 hs with heq | hs
      · obtain ⟨rfl, hd⟩ := List.append_inj' heq rfl
        rwa [hfront, (List.cons.inj hd).1]
      · exact hcode s d hs
    · -- the character ends what is read, and is skipped
      have hread : front ++ [c] <+: source := ⟨t, hnext⟩
      obtain ⟨hfound, hholds'⟩ := hholds.step_other (fun h => hc ((htells.isCodeChar_iff c).2 h))
        (front ++ [c])
      have hrest := ih _ (front ++ [c]) [] _ (List.append_nil _) hnext htells' hholds' (by simp)
      obtain ⟨hrest, hlt⟩ := hrest.skip hread hc
      subst hfront
      rw [hfound]
      exact hrest.holeAt_append hlt ((List.prefix_append _ _).trans hread) hcode

theorem Outside.exists_eq_cons {front : Text} (h : Outside front) : ∃ t, front = '`' :: t := by
  induction h with
  | start => exact ⟨[], rfl⟩
  | char _ _ _ ih | escape _ _ ih | code _ _ ih =>
    obtain ⟨t, rfl⟩ := ih
    exact ⟨_, rfl⟩

theorem areHoles_holes (t : Text) : AreHoles t 0 (holes t) := by
  by_cases h : t.head? = some '`'
  · obtain ⟨t, rfl⟩ := List.head?_eq_some_iff.1 h
    have hread : AreHoles ('`' :: t) (byteSize ([] ++ ['`'])) (holes ('`' :: t)) :=
      areHoles_holesFrom .plain ['`'] [] ['`'] t rfl rfl .start rfl (by simp)
    have hquote : ¬ IsCodeChar [] '`' := fun ⟨_, hcode, _⟩ => hcode.ne_nil rfl
    exact (hread.skip ⟨t, rfl⟩ hquote).1
  · rw [holes_of_head? h]
    refine ⟨by simp, by simp, .nil, fun front c hfront _ => iff_of_false (by simp [Covers]) ?_⟩
    rintro ⟨depth, ⟨before, code, rfl, hbefore, -⟩, -⟩
    obtain ⟨rest, rfl⟩ := hfront
    obtain ⟨more, rfl⟩ := hbefore.exists_eq_cons
    exact h rfl

/-! ## The holes of a text -/

/-- The number of backslashes at the end of a text. -/
def slashes (t : Text) : Nat :=
  (t.reverse.takeWhile (· == '\\')).length

theorem slashes_concat (t : Text) (c : Char) :
    slashes (t ++ [c]) = if c = '\\' then slashes t + 1 else 0 := by
  rw [slashes, List.reverse_concat, List.takeWhile_cons]
  split_ifs <;> simp_all [slashes]

/-- Outside of code, the backslashes in front of a character escape each other. -/
theorem Outside.even_slashes {t : Text} (h : Outside t) : Even (slashes t) := by
  induction h with
  | start => exact ⟨0, rfl⟩
  | char _ hslash _ _ =>
    rw [slashes_concat, if_neg hslash]
    exact ⟨0, rfl⟩
  | @escape t _ c ih =>
    have hsplit : t ++ ['\\', c] = t ++ ['\\'] ++ [c] := by simp
    rw [hsplit, slashes_concat, slashes_concat, if_pos rfl]
    split_ifs
    · exact ih.add ⟨1, rfl⟩
    · exact ⟨0, rfl⟩
  | code _ _ _ =>
    rw [slashes_concat, if_neg (by decide)]
    exact ⟨0, rfl⟩

/--
Whether a hole is read behind an open brace that no backslash escapes, up to which the string is no
code.
-/
def Hole.IsOpened (h : Hole) (source : Text) : Prop :=
  ∃ before code behind depth, before ++ '{' :: code ++ h.text ++ behind = source ∧
    byteSize (before ++ '{' :: code) = h.start ∧ Outside before ∧ Even (slashes before) ∧
    HoleCode depth code

/-- Holes of a text that lie where its code does. -/
structure WellPlaced (source : Text) (found : List Hole) : Prop where
  isIn : ∀ h ∈ found, h.IsIn source
  bounds : ∀ h ∈ found, h.start < h.stop ∧ h.stop ≤ byteSize source
  apart : found.Pairwise fun a b => a.stop < b.start
  unquoted : ∀ h ∈ found, ∀ c ∈ h.text, ¬ QuotesInCode c
  opened : ∀ h ∈ found, h.IsOpened source
  /-- No hole reaches into a string that is quoted in code. -/
  strings : ∀ front c, front ++ [c] <+: source → InString front → ¬ Covers found (byteSize front)
  /-- A closing brace in a hole closes one that was opened in the code before it. -/
  closes : ∀ front, front ++ ['}'] <+: source → Covers found (byteSize front) →
    ∃ depth, InCode (depth + 1) front
  covers : ∀ front c, front ++ [c] <+: source →
    (Covers found (byteSize front) ↔ IsCodeChar front c)

/-- Each character of a hole is code. -/
theorem AreHoles.isCodeChar {source : Text} {found : List Hole} (h : AreHoles source 0 found)
    {hole : Hole} (hmem : hole ∈ found) {before s more behind : Text} {c : Char}
    (hsource : before ++ (s ++ c :: more) ++ behind = source)
    (hplace : byteSize before = hole.start) (htext : hole.text = s ++ c :: more) :
    IsCodeChar (before ++ s) c := by
  have hfront : before ++ s ++ [c] <+: source := ⟨more ++ behind, by rw [← hsource]; simp⟩
  refine (h.covers _ c hfront (Nat.zero_le _)).1 ⟨hole, hmem, ?_⟩
  have hpos := c.utf8Size_pos
  rw [Hole.stop, htext, ← hplace]
  simp only [byteSize_append, byteSize_cons]
  omega

theorem AreHoles.wellPlaced {source : Text} {found : List Hole} (h : AreHoles source 0 found) :
    WellPlaced source found where
  isIn := h.isIn
  bounds := by
    intro hole hmem
    obtain ⟨hne, before, after, rfl, hplace, behind, rfl⟩ := h.isIn hole hmem
    have hpos := byteSize_pos hne
    rw [Hole.stop, ← hplace]
    simp only [byteSize_append]
    omega
  apart := h.apart
  unquoted := by
    intro hole hmem c hc
    obtain ⟨-, before, after, rfl, hplace, behind, rfl⟩ := h.isIn hole hmem
    obtain ⟨s, more, htext⟩ := List.append_of_mem hc
    obtain ⟨-, -, hquote, -⟩ := h.isCodeChar hmem (by rw [← htext, List.append_assoc]) hplace htext
    exact hquote
  opened := by
    intro hole hmem
    obtain ⟨hne, before, after, rfl, hplace, behind, rfl⟩ := h.isIn hole hmem
    obtain ⟨c, more, htext⟩ := List.exists_cons_of_ne_nil hne
    obtain ⟨depth, hcode, -⟩ := h.isCodeChar (s := []) hmem
      (by rw [List.nil_append, ← htext, List.append_assoc]) hplace htext
    rw [List.append_nil] at hcode
    obtain ⟨front, code, rfl, hfront, hcode⟩ := hcode
    exact ⟨front, code, behind, depth, List.append_assoc _ _ _, hplace, hfront,
      hfront.even_slashes, hcode⟩
  strings := fun front c hfront hstring hcovers =>
    hstring.not_isCodeChar c ((h.covers front c hfront (Nat.zero_le _)).1 hcovers)
  closes := by
    intro front hfront hcovers
    obtain ⟨depth, hcode, -, hdepth⟩ := (h.covers front '}' hfront (Nat.zero_le _)).1 hcovers
    obtain ⟨d, rfl⟩ := Nat.exists_eq_succ_of_ne_zero (hdepth rfl)
    exact ⟨d, hcode⟩
  covers := fun front c hfront => h.covers front c hfront (Nat.zero_le _)

/--
The holes of a text are not empty, begin and end between characters of the text, and lie apart from
left to right. Each stands behind an unescaped brace and holds no quote. They take up exactly the
code of the text, so none lies in a string that is quoted in code, and a closing brace is part of
one only where another brace is open. A text that does not begin with a backtick has none.
-/
theorem holes_wellPlaced (t : Text) :
    WellPlaced t (holes t) ∧ (t.head? ≠ some '`' → holes t = []) :=
  ⟨(areHoles_holes t).wellPlaced, holes_of_head?⟩

/-- A brace that is quoted in code begins no hole, and neither does one in another string. -/
theorem quoted_braces_left_out :
    holes "`\x7bf(\"\x7bx\x7d\", y)\x7d`".toList = [⟨2, "f(".toList⟩, ⟨9, ", y)".toList⟩] ∧
      ¬ Covers (holes "`\x7bf(\"\x7bx\x7d\", y)\x7d`".toList) 5 ∧
      holes "\"\x7bx\x7d\"".toList = [] := by
  have hcode : InCode 0 ['`', '{', 'f', '('] :=
    ⟨['`'], ['f', '('], rfl, .start, .char (.char .nil (by decide)) (by decide)⟩
  have hstring : InString ['`', '{', 'f', '(', '"'] :=
    ⟨0, '"', .inl ⟨['`', '{', 'f', '('], [], rfl, hcode, .inl rfl, .nil⟩⟩
  refine ⟨by decide +kernel, ?_, (holes_wellPlaced "\"\x7bx\x7d\"".toList).2 (by decide +kernel)⟩
  exact (holes_wellPlaced "`\x7bf(\"\x7bx\x7d\", y)\x7d`".toList).1.strings _ '{'
    ⟨"x\x7d\", y)\x7d`".toList, by decide +kernel⟩ hstring

end LuaVeil
