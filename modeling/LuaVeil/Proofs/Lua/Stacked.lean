/-
# Scripts below each other

A line feed parts scripts: nothing opens across it, and what is closed in front of it
stays closed. So texts with a line feed between neighbours are scanned one by one, and
code that meets at the line feeds is joined.

Main statements:

* `SideBySide.eq_of_shape`, spans side by side are known by their kinds and texts;
* `rescans_stacked`, the spans of texts below each other are found again;
* `scan_below`, a scan of two texts, of any number of texts, and of a script with what
  stands in front of it.
-/
import LuaVeil.Proofs.Lua.Follow
import LuaVeil.Proofs.Lua.Partition
import LuaVeil.Proofs.Veil.Front
import LuaVeil.Veil.Banner

namespace LuaVeil

/-- A span that begins and ends some bytes later. -/
def Span.shift (n : Nat) (s : Span) : Span :=
  { s with start := s.start + n, stop := s.stop + n }

/-- The line feed at byte `place`. -/
def feedAt (place : Nat) : Span :=
  ⟨.code, ['\n'], place, place + 1⟩

/-- The spans of texts that stand below each other, with a line feed between neighbours. -/
def stacked : List (List Span) → List Span
  | [] => []
  | [spans] => spans
  | spans :: more =>
    let size := Text.byteSize (render spans)
    spans ++ feedAt size :: (stacked more).map (Span.shift (size + 1))

/-- Whether each span begins where the one before it ends, the first one at byte `place`. -/
def SideBySide (place : Nat) : List Span → Prop
  | [] => True
  | s :: spans => s.start = place ∧ s.stop = place + Text.byteSize s.text ∧ SideBySide s.stop spans

/-! ## Spans side by side -/

namespace SideBySide

variable {place n : Nat} {xs ys : List Span}

theorem append (hx : SideBySide place xs)
    (hy : SideBySide (place + Text.byteSize (render xs)) ys) : SideBySide place (xs ++ ys) := by
  induction xs generalizing place with
  | nil => exact hy
  | cons s xs ih =>
    obtain ⟨hstart, hstop, hxs⟩ := hx
    refine ⟨hstart, hstop, ih hxs ?_⟩
    rwa [hstop, Nat.add_assoc, ← Text.byteSize_append, ← render_cons]

theorem shift (h : SideBySide place xs) : SideBySide (place + n) (xs.map (Span.shift n)) := by
  induction xs generalizing place with
  | nil => trivial
  | cons s xs ih =>
    obtain ⟨hstart, hstop, hxs⟩ := h
    refine ⟨congrArg (· + n) hstart, ?_, ih hxs⟩
    show s.stop + n = place + n + Text.byteSize s.text
    omega

theorem joinCode (h : SideBySide place xs) : SideBySide place (joinCode xs) := by
  induction xs generalizing place with
  | nil => trivial
  | cons s xs ih =>
    obtain ⟨hstart, hstop, hxs⟩ := h
    have hmore := ih hxs
    show SideBySide place (Strip.consMerged s (LuaVeil.joinCode xs))
    cases hjoined : LuaVeil.joinCode xs with
    | nil => exact ⟨hstart, hstop, trivial⟩
    | cons next more =>
      rw [hjoined] at hmore
      rw [Strip.consMerged]
      split
      · obtain ⟨-, hnext, hlater⟩ := hmore
        refine ⟨hstart, ?_, hlater⟩
        rw [hnext, hstop, Text.byteSize_append, Nat.add_assoc]
      · exact ⟨hstart, hstop, hmore⟩

/-- Spans side by side are known by where the first begins, and by their kinds and texts. -/
theorem eq_of_shape (hx : SideBySide place xs) (hy : SideBySide place ys)
    (h : xs.map Span.shape = ys.map Span.shape) : xs = ys := by
  induction xs generalizing place ys with
  | nil => exact (List.map_eq_nil_iff.1 h.symm).symm
  | cons s xs ih =>
    cases ys with
    | nil => cases h
    | cons t ys =>
      obtain ⟨hshape, hshapes⟩ := List.cons.inj h
      obtain ⟨hkind, htext⟩ := Prod.mk.inj hshape
      obtain ⟨hstart, hstop, hxs⟩ := hx
      obtain ⟨hstart', hstop', hys⟩ := hy
      have hsame : s.stop = t.stop := by rw [hstop, hstop', htext]
      rw [ih hxs (hsame ▸ hys) hshapes]
      cases s
      cases t
      simp_all

theorem of_laid {source : Text} (h : Laid source place xs) : SideBySide place xs := by
  induction h with
  | done => trivial
  | next hs _ ih => exact ⟨rfl, hs.2, ih⟩

end SideBySide

/-- A scan finds spans side by side. -/
theorem sideBySide_of_scan {source : Text} {spans : List Span} (h : scan source = .ok spans) :
    SideBySide 0 spans :=
  .of_laid (partition_scanFrom [] rfl h).1

/-! ## Texts below each other -/

theorem isInert_lineFeed : isInert '\n' = true := by decide

theorem rescans_map_shift {n : Nat} {spans : List Span} (h : Rescans spans) :
    Rescans (spans.map (Span.shift n)) ∧ render (spans.map (Span.shift n)) = render spans := by
  induction spans with
  | nil => exact ⟨trivial, rfl⟩
  | cons s spans ih =>
    obtain ⟨hspans, hrender⟩ := ih h.2
    rw [List.map_cons, render_cons, render_cons, hrender]
    refine ⟨⟨?_, hspans⟩, rfl⟩
    rw [hrender]
    exact h.1

/-- Spans that are found are found in front of a line feed, too. -/
theorem Rescans.before_lineFeed {spans : List Span} (h : Rescans spans)
    (hne : ∀ s ∈ spans, s.text ≠ []) (t : Text) : RescansBefore ('\n' :: t) spans := by
  refine ((rescansBefore_nil spans).2 h).follow (fun s hs => hne s (List.mem_of_mem_tail hs))
    (Calmer.of_inert (fun c hc => ?_) []) fun _ _ _ _ => .inr ⟨t, rfl⟩
  obtain rfl := Option.some.inj hc
  exact isInert_lineFeed

section

variable {found : List (List Span)}

theorem stacked_cons (spans : List Span) (hne : found ≠ []) :
    stacked (spans :: found) = spans ++ feedAt (Text.byteSize (render spans)) ::
      (stacked found).map (Span.shift (Text.byteSize (render spans) + 1)) := by
  cases found with
  | nil => exact absurd rfl hne
  | cons next found => rfl

/-- The spans of texts below each other are found again, side by side. -/
theorem rescans_stacked (h : ∀ spans ∈ found, Rescans spans ∧ SideBySide 0 spans)
    (hne : ∀ spans ∈ found, ∀ s ∈ spans, s.text ≠ []) :
    Rescans (stacked found) ∧ SideBySide 0 (stacked found) ∧
      (∀ s ∈ stacked found, s.text ≠ []) ∧
      render (stacked found) = Text.joinWith ['\n'] (found.map render) := by
  induction found with
  | nil => exact ⟨trivial, trivial, nofun, rfl⟩
  | cons spans found ih =>
    obtain ⟨⟨hrescans, hside⟩, hfound⟩ := List.forall_mem_cons.1 h
    obtain ⟨hspans, hmore⟩ := List.forall_mem_cons.1 hne
    obtain ⟨hrescans', hside', hne', hrender'⟩ := ih hfound hmore
    by_cases hnil : found = []
    · subst hnil
      exact ⟨hrescans, hside, hspans, by simp [stacked, Text.joinWith]⟩
    obtain ⟨next, later, rfl⟩ := List.exists_cons_of_ne_nil hnil
    obtain ⟨hshifted, hsame⟩ := rescans_map_shift (n := Text.byteSize (render spans) + 1) hrescans'
    rw [stacked_cons spans hnil]
    refine ⟨rescans_append.2 ⟨hrescans.before_lineFeed hspans _, ?_, hshifted⟩,
      hside.append ⟨(Nat.zero_add _).symm, ?_, ?_⟩, ?_, ?_⟩
    · exact staysCode_of_isInert (List.forall_mem_singleton.2 isInert_lineFeed) _
    · show Text.byteSize (render spans) + 1 = _
      rw [Nat.zero_add]
      rfl
    · have hlater := hside'.shift (n := Text.byteSize (render spans) + 1)
      rwa [Nat.zero_add] at hlater
    · refine List.forall_mem_append.2 ⟨hspans, List.forall_mem_cons.2 ⟨List.cons_ne_nil _ _, ?_⟩⟩
      intro s hs
      obtain ⟨old, hold, rfl⟩ := List.mem_map.1 hs
      exact hne' old hold
    · rw [render_append, render_cons, hsame, hrender']
      simp only [List.map_cons, joinWith_cons_cons]
      rfl

/-- A scan of texts below each other finds the spans of each, with neighbouring code joined. -/
theorem scan_joinWith {pieces : List Text}
    (h : List.Forall₂ (fun t spans => scan t = .ok spans) pieces found) :
    scan (Text.joinWith ['\n'] pieces) = .ok (joinCode (stacked found)) := by
  have hall : ∀ spans ∈ found, ∃ t, scan t = .ok spans := by
    intro spans hspans
    obtain ⟨t, -, ht⟩ := exists_of_mem_right h hspans
    exact ⟨t, ht⟩
  have hpieces : found.map render = pieces := by
    rw [← List.forall₂_eq_eq_eq, List.forall₂_map_left_iff]
    exact h.flip.imp fun _ _ ht => render_scan ht
  obtain ⟨hrescans, hside, hne, hrender⟩ := rescans_stacked
    (fun spans hspans => (hall spans hspans).elim fun _ ht =>
      ⟨rescans_of_scan ht, sideBySide_of_scan ht⟩)
    (fun spans hspans => (hall spans hspans).elim fun _ ht => (alternates_of_scan ht).2)
  obtain ⟨again, hscan, hshape⟩ := scan_of_rescans hrescans hne
  rw [hrender, hpieces] at hscan
  rw [hscan, (sideBySide_of_scan hscan).eq_of_shape hside.joinCode hshape]

end

/-! ## A script and what stands in front of it -/

/-- Header, stub and declarations stand above the script, each on lines of its own. -/
theorem Banner.wrap_eq_joinWith (b : Banner) (declarations : List Text) (body : Text)
    (stubName : Name) : b.wrap declarations body stubName = Text.joinWith ['\n']
      (b.header.dropLast :: (stub body stubName).dropLast :: (declarations ++ [body])) := by
  have hlines : ∀ texts : List Text, Text.joinWith ['\n'] (texts ++ [body]) =
      texts.flatMap (· ++ ['\n']) ++ body := by
    intro texts
    induction texts with
    | nil => simp [Text.joinWith]
    | cons t texts ih =>
      cases texts with
      | nil => simp [Text.joinWith, List.intercalate]
      | cons next texts =>
        rw [List.cons_append, List.cons_append, joinWith_cons_cons, ← List.cons_append, ih]
        simp
  have hends : ∀ t : Text, t.getLast? = some '\n' → t.dropLast ++ ['\n'] = t := by
    intro t ht
    obtain ⟨front, rfl⟩ := List.getLast?_eq_some_iff.1 ht
    rw [List.dropLast_concat]
  have hheader : b.header.getLast? = some '\n' := List.getLast?_concat
  have hlast : ∀ {front back : Text}, back.getLast? = some '\n' →
      (front ++ back).getLast? = some '\n' := by
    intro front back hback
    rw [List.getLast?_append, hback, Option.some_or]
  have hstub : (stub body stubName).getLast? = some '\n' := hlast (by decide)
  have hjoin := hlines (b.header.dropLast :: (stub body stubName).dropLast :: declarations)
  rw [List.flatMap_cons, List.flatMap_cons, hends _ hheader, hends _ hstub] at hjoin
  rw [wrap, ← List.cons_append, ← List.cons_append, hjoin]
  simp only [List.append_assoc]

/--
Two texts that scan are scanned one by one when a line feed stands between them, and so is any
number of texts; so a script with header, stub and declarations in front of it is scanned piece by
piece, too. Code that meets at the line feeds is joined.
-/
theorem scan_below :
    (∀ {a b : Text} {xs ys : List Span}, scan a = .ok xs → scan b = .ok ys →
      scan (a ++ '\n' :: b) = .ok (joinCode (xs ++ feedAt (Text.byteSize a) ::
        ys.map (Span.shift (Text.byteSize a + 1))))) ∧
    (∀ {pieces : List Text} {found : List (List Span)},
      List.Forall₂ (fun t spans => scan t = .ok spans) pieces found →
        scan (Text.joinWith ['\n'] pieces) = .ok (joinCode (stacked found))) ∧
    ∀ (b : Banner) {declarations : List Text} {body : Text} {stubName : Name}
      {found : List (List Span)},
      List.Forall₂ (fun t spans => scan t = .ok spans)
        (b.header.dropLast :: (Banner.stub body stubName).dropLast :: (declarations ++ [body]))
        found →
      scan (b.wrap declarations body stubName) = .ok (joinCode (stacked found)) := by
  refine ⟨fun {a b xs ys} ha hb => ?_, fun h => scan_joinWith h, fun b declarations body stubName
    found h => ?_⟩
  · have hboth := scan_joinWith (.cons ha (.cons hb .nil))
    have htext : Text.joinWith ['\n'] [a, b] = a ++ '\n' :: b := by
      simp [Text.joinWith, List.intercalate]
    rw [htext, stacked_cons xs (List.cons_ne_nil _ _), render_scan ha] at hboth
    exact hboth
  · rw [b.wrap_eq_joinWith]
    exact scan_joinWith h

/-- A bracket on each side of a line feed opens nothing, behind code as behind two dashes. -/
theorem brackets_parted_by_lineFeeds :
    scan "x = t[\n[1]]--[=".toList =
        .ok [⟨.code, "x = t[\n[1]]".toList, 0, 11⟩, ⟨.comment, "--[=".toList, 11, 15⟩] ∧
      scan "x = t[\n[1]]--[=\n[y".toList =
        .ok [⟨.code, "x = t[\n[1]]".toList, 0, 11⟩, ⟨.comment, "--[=".toList, 11, 15⟩,
          ⟨.code, "\n[y".toList, 15, 18⟩] ∧
      ∃ found, found.length = 4 ∧
        scan (Banner.wrap ⟨.weak, .lua51, ⟨0, 0⟩⟩ ["local t = \x7b\"--\"\x7d".toList] "f(t[0])".toList
          "s".toList) = .ok (joinCode (stacked found)) := by
  obtain ⟨htwo, hmany, hwrap⟩ := scan_below
  have hfirst : scan "x = t[".toList = .ok [⟨.code, "x = t[".toList, 0, 6⟩] := by decide +kernel
  have hsecond : scan "[1]]--[=".toList =
      .ok [⟨.code, "[1]]".toList, 0, 4⟩, ⟨.comment, "--[=".toList, 4, 8⟩] := by decide +kernel
  have hthird : scan "[y".toList = .ok [⟨.code, "[y".toList, 0, 2⟩] := by decide +kernel
  -- a text that scans is all that the pieces of a script have to be
  have hpiece : ∀ {t : Text}, (scan t).isOk = true → ∃ spans, scan t = .ok spans := by
    intro t ht
    cases hscan : scan t with
    | ok spans => exact ⟨spans, rfl⟩
    | error e =>
      rw [hscan] at ht
      cases ht
  refine ⟨(htwo hfirst hsecond).trans (by decide +kernel),
    (hmany (.cons hfirst (.cons hsecond (.cons hthird .nil)))).trans (by decide +kernel), ?_⟩
  obtain ⟨header, hheader⟩ : ∃ spans,
      scan (Banner.header ⟨.weak, .lua51, ⟨0, 0⟩⟩).dropLast = .ok spans :=
    hpiece (by decide +kernel)
  obtain ⟨stub, hstub⟩ : ∃ spans,
      scan (Banner.stub "f(t[0])".toList "s".toList).dropLast = .ok spans := by
    obtain ⟨line, htext, hline⟩ := exists_line_of_stub "f(t[0])".toList
      (show isWord "s".toList = true by decide)
    obtain ⟨spans, hscan, -⟩ := hline.scanned
    exact ⟨spans, by rw [htext, List.dropLast_concat, hscan]⟩
  obtain ⟨table, htable⟩ : ∃ spans, scan "local t = \x7b\"--\"\x7d".toList = .ok spans :=
    hpiece (by decide +kernel)
  obtain ⟨body, hbody⟩ : ∃ spans, scan "f(t[0])".toList = .ok spans :=
    hpiece (by decide +kernel)
  exact ⟨_, rfl, hwrap _ (.cons hheader (.cons hstub (.cons htable (.cons hbody .nil))))⟩

end LuaVeil
