/-
# Where decoys are put

After each line of a script stands at most one decoy, on a line of its own, and only where a
statement may follow the line. The lines of the script stay as they are: without the decoys,
and one line feed for each, the script is back.

Main statements:

* `Decoy.map_isSome_scatter_of_one` and `Decoy.scatter_of_zero`, which lines get a decoy;
* `thinned_interleave`, what lines put between others bring into a script;
* `injectDecoys_decoyed`, what becomes of a script.
-/
import LuaVeil.Proofs.Veil.Guarded

namespace LuaVeil

/-! ## Lines between lines -/

/-- Lines with a new line, or none, after each. -/
def interleave : List Line → List (Option Line) → List Line
  | l :: lines, new :: news => l :: (new.toList ++ interleave lines news)
  | lines, _ => lines

/-- Whether spans are others without some spans of code, each taken out with a line feed next to it. -/
inductive Thinned : List Span → List Span → List Span → Prop
  | nil : Thinned [] [] []
  | keep {out xs ys : List Span} (s : Span) : Thinned out xs ys → Thinned out (s :: xs) (s :: ys)
  | before {out xs ys : List Span} {s feed : Span} : s.isCode = true → feed.isCode = true →
      feed.text = ['\n'] → Thinned out xs ys → Thinned (s :: out) xs (s :: feed :: ys)
  | after {out xs ys : List Span} {s feed : Span} : feed.isCode = true → feed.text = ['\n'] →
      s.isCode = true → Thinned out xs ys → Thinned (s :: out) xs (feed :: s :: ys)

namespace Thinned

variable {out xs ys : List Span}

theorem refl (xs : List Span) : Thinned [] xs xs := by
  induction xs with
  | nil => exact .nil
  | cons s xs ih => exact .keep s ih

theorem append_left (zs : List Span) (h : Thinned out xs ys) :
    Thinned out (zs ++ xs) (zs ++ ys) := by
  induction zs with
  | nil => exact h
  | cons s zs ih => exact .keep s ih

/-- Only code is taken out. -/
theorem stringSpans_eq (h : Thinned out xs ys) : stringSpans xs = stringSpans ys := by
  induction h with
  | nil => rfl
  | keep s _ ih => rw [stringSpans, stringSpans, List.filter_cons, List.filter_cons, ← stringSpans,
      ← stringSpans, ih]
  | before hs hfeed _ _ ih => rw [ih]; simp [stringSpans, hs, hfeed]
  | after hfeed _ hs _ ih => rw [ih]; simp [stringSpans, hs, hfeed]

theorem eq_of_nil (h : Thinned [] xs ys) : xs = ys := by
  generalize hout : [] = out at h
  induction h with
  | nil => rfl
  | keep s _ ih => rw [ih hout]
  | before => cases hout
  | after => cases hout

end Thinned

/-- The spans of the lines that are new. -/
def newSpans (news : List (Option Line)) : List Span :=
  (news.filterMap id).flatMap fun l => l.spans

theorem joinLines_cons (l : Line) {lines : List Line} (h : lines ≠ []) :
    joinLines (l :: lines) = l.spans ++ l.lineFeed :: joinLines lines := by
  obtain ⟨next, more, rfl⟩ := List.exists_cons_of_ne_nil h
  rfl

theorem interleave_ne_nil {lines : List Line} (h : lines ≠ []) (news : List (Option Line)) :
    interleave lines news ≠ [] := by
  obtain ⟨l, lines, rfl⟩ := List.exists_cons_of_ne_nil h
  cases news <;> exact List.cons_ne_nil _ _

/-- Joined lines are kept when lines of code are put between them, which bring a line feed each. -/
theorem thinned_interleave {lines : List Line} {news : List (Option Line)}
    (hlength : news.length ≤ lines.length)
    (hnews : ∀ l, some l ∈ news → ∃ text place, l = .synthetic text place) :
    Thinned (newSpans news) (joinLines lines) (joinLines (interleave lines news)) := by
  fun_induction interleave lines news with
  | case1 l lines new news ih =>
    have hmore := ih (by simpa using hlength) fun l hl => hnews l (List.mem_cons_of_mem _ hl)
    by_cases hnil : lines = []
    · -- behind the last line the line feed comes first
      subst hnil
      obtain rfl : news = [] := List.length_eq_zero_iff.1 (by simpa using hlength)
      cases new with
      | none => exact .refl _
      | some d =>
        obtain ⟨text, place, rfl⟩ := hnews d List.mem_cons_self
        have hafter : Thinned [.codeAt text place] [] [l.lineFeed, .codeAt text place] :=
          .after l.isCode_lineFeed l.text_lineFeed rfl .nil
        have hlast := hafter.append_left l.spans
        rwa [List.append_nil] at hlast
    · have hne := interleave_ne_nil hnil news
      cases new with
      | none =>
        simp only [Option.toList_none, List.nil_append, joinLines_cons l hnil, joinLines_cons l hne]
        exact .append_left _ (.keep _ hmore)
      | some d =>
        obtain ⟨text, place, rfl⟩ := hnews d List.mem_cons_self
        simp only [Option.toList_some, List.singleton_append, joinLines_cons l hnil,
          joinLines_cons l (List.cons_ne_nil _ _), joinLines_cons _ hne]
        refine .append_left _ (.keep _ ?_)
        show Thinned (Span.codeAt text place :: newSpans news) _ (Span.codeAt text place :: _ :: _)
        exact .before rfl (Line.isCode_lineFeed _) (Line.text_lineFeed _) hmore
  | case2 lines news hcons =>
    have hnews : news = [] := by
      cases lines with
      | nil => exact List.length_eq_zero_iff.1 (by simpa using hlength)
      | cons l lines =>
        cases news with
        | nil => rfl
        | cons new news => exact absurd rfl (hcons l lines new news rfl)
    rw [hnews]
    exact .refl _

/-- The text of joined lines is that of the lines with line feeds between them. -/
theorem render_joinLines (lines : List Line) :
    render (joinLines lines) = Text.joinWith ['\n'] (lines.map fun l => render l.spans) := by
  rw [joinLines_eq, render_joinRows, List.map_map]
  rfl

namespace Decoy

/-! ## Which lines get a decoy -/

variable {p : Probability} {templates : List Text} {places : List Bool} {m : Mint}

/-- Where a decoy may stand, chance decides. What is put there is a filled template. -/
theorem decide?_cases (p : Probability) (h : templates ≠ []) (boundary : Bool) (m : Mint) :
    (decide? p templates boundary m).1 = none ∧
        (boundary = true → (Draw.chance p m.source).1 = false) ∨
      ∃ d, (decide? p templates boundary m).1 = some d ∧ boundary = true ∧
        (Draw.chance p m.source).1 = true ∧
        ∃ template ∈ templates, ∃ m', d = (fill template m').1 := by
  cases boundary with
  | false => exact .inl ⟨rfl, nofun⟩
  | true =>
    have hpick := Draw.pick_mem h []
    unfold decide?
    generalize Draw.chance p = chance
    generalize Draw.pick [] templates = pick at hpick
    simp only [Minting.bind_apply]
    split
    · next hhit => exact .inr ⟨_, rfl, trivial, hhit, _, hpick _, _, rfl⟩
    · next hmiss => exact .inl ⟨rfl, fun _ => Bool.eq_false_iff.2 hmiss⟩

theorem scatter_cons (p : Probability) (templates : List Text) (boundary : Bool)
    (places : List Bool) (m : Mint) :
    (scatter p templates (boundary :: places) m).1 =
      (decide? p templates boundary m).1 ::
        (scatter p templates places (decide? p templates boundary m).2).1 :=
  rfl

theorem length_scatter (p : Probability) (templates : List Text) (places : List Bool) (m : Mint) :
    (scatter p templates places m).1.length = places.length := by
  induction places generalizing m with
  | nil => rfl
  | cons boundary places ih => rw [scatter_cons, List.length_cons, List.length_cons, ih]

/-- Decoys are filled templates, and stand only where this is allowed. -/
theorem of_scatter_eq_some (h : templates ≠ []) {i : Nat} {d : Filled}
    (hd : (scatter p templates places m).1[i]? = some (some d)) :
    places[i]? = some true ∧ ∃ template ∈ templates, ∃ m', d = (fill template m').1 := by
  induction places generalizing m i with
  | nil => cases hd
  | cons boundary places ih =>
    rw [scatter_cons] at hd
    cases i with
    | succ i => exact ih hd
    | zero =>
      rw [List.getElem?_cons_zero, Option.some.injEq] at hd
      rcases decide?_cases p h boundary m with ⟨hnone, -⟩ | ⟨d', hsome, rfl, -, hfilled⟩
      · rw [hnone] at hd
        cases hd
      · obtain rfl := Option.some.inj (hsome.symm.trans hd)
        exact ⟨rfl, hfilled⟩

/-- A certain decoy stands wherever one may. -/
theorem map_isSome_scatter_of_one (h : templates ≠ []) (hp : p.value = 1) (places : List Bool)
    (m : Mint) : (scatter p templates places m).1.map Option.isSome = places := by
  induction places generalizing m with
  | nil => rfl
  | cons boundary places ih =>
    rw [scatter_cons, List.map_cons, ih]
    rcases decide?_cases p h boundary m with ⟨hnone, hmiss⟩ | ⟨d, hsome, rfl, -⟩
    · cases boundary with
      | false => rw [hnone]; rfl
      | true => exact absurd (hmiss rfl) (by rw [Guard.chance_of_one hp]; decide)
    · rw [hsome]
      rfl

/-- An impossible decoy stands nowhere. -/
theorem scatter_of_zero (h : templates ≠ []) (hp : p.value = 0) (places : List Bool) (m : Mint) :
    ∀ d ∈ (scatter p templates places m).1, d = none := by
  induction places generalizing m with
  | nil => exact fun d hd => nomatch hd
  | cons boundary places ih =>
    rw [scatter_cons]
    refine List.forall_mem_cons.2 ⟨?_, ih _⟩
    rcases decide?_cases p h boundary m with ⟨hnone, -⟩ | ⟨d, -, -, hhit, -⟩
    · exact hnone
    · rw [Guard.chance_of_zero hp] at hhit
      cases hhit

/-! ## The lines of decoys -/

/-- The lines of decided decoys, indented like the lines that follow them. -/
def linesOf : List Line → List (Option Filled) → List (Option Line)
  | l :: lines, d :: decoys =>
    (d.map fun d => .synthetic ((lines.head?.getD l).indent ++ d.text) l.stop) ::
      linesOf lines decoys
  | _, _ => []

theorem weave_eq (lines : List Line) (decoys : List (Option Filled)) :
    weave lines decoys = interleave lines (linesOf lines decoys) := by
  fun_induction weave lines decoys with
  | case1 l lines d decoys ih => rw [ih]; rfl
  | case2 l lines decoys ih => rw [ih]; rfl
  | case3 lines decoys hsome hnone =>
    cases lines with
    | nil => rfl
    | cons l lines =>
      cases decoys with
      | nil => rfl
      | cons d decoys =>
        cases d with
        | none => exact absurd rfl (hnone l lines decoys rfl)
        | some d => exact absurd rfl (hsome l lines d decoys rfl)

theorem getElem?_linesOf {lines : List Line} {decoys : List (Option Filled)} {i : Nat} {l : Line}
    (hl : lines[i]? = some l) : (linesOf lines decoys)[i]? = decoys[i]?.map fun d =>
      d.map fun d => .synthetic ((lines[i + 1]?.getD l).indent ++ d.text) l.stop := by
  induction lines generalizing decoys i with
  | nil => cases hl
  | cons first lines ih =>
    cases decoys with
    | nil => rfl
    | cons d decoys =>
      cases i with
      | zero =>
        obtain rfl := Option.some.inj hl
        simp [linesOf, List.head?_eq_getElem?]
      | succ i => exact ih hl

theorem map_isSome_linesOf {lines : List Line} {decoys : List (Option Filled)}
    (h : decoys.length = lines.length) :
    (linesOf lines decoys).map Option.isSome = decoys.map Option.isSome := by
  induction lines generalizing decoys with
  | nil =>
    rw [List.length_eq_zero_iff.1 h]
    rfl
  | cons l lines ih =>
    cases decoys with
    | nil => cases h
    | cons d decoys =>
      rw [linesOf, List.map_cons, List.map_cons, Option.isSome_map, ih (by simpa using h)]

/-- The line of a decoy, with the line before it. -/
theorem of_linesOf_eq_some {lines : List Line} {decoys : List (Option Filled)}
    (h : decoys.length = lines.length) {i : Nat} {d : Line}
    (hd : (linesOf lines decoys)[i]? = some (some d)) : ∃ l f, lines[i]? = some l ∧
      decoys[i]? = some (some f) ∧
      d = .synthetic ((lines[i + 1]?.getD l).indent ++ f.text) l.stop := by
  have hlength := congrArg List.length (map_isSome_linesOf h)
  rw [List.length_map, List.length_map, h] at hlength
  have hi : i < lines.length := hlength ▸ (List.getElem?_eq_some_iff.1 hd).1
  have hl := List.getElem?_eq_getElem hi
  rw [getElem?_linesOf hl, Option.map_eq_some_iff] at hd
  obtain ⟨d', hd', hmap⟩ := hd
  obtain ⟨f, rfl, rfl⟩ := Option.map_eq_some_iff.1 hmap
  exact ⟨_, f, hl, hd', rfl⟩

/-! ## The decoys of a script -/

/-- Where decoys may stand in a script. -/
def boundaries (spans : List Span) : List Bool :=
  (splitLines spans).mapIdx fun i _ => isBoundaryAfter (splitLines spans) i

/-- The decoys of a script: a new line, or none, after each of its lines. -/
def newLines (p : Probability) (templates : List Text) (spans : List Span) (m : Mint) :
    List (Option Line) :=
  linesOf (splitLines spans) (scatter p templates (boundaries spans) m).1

variable {spans : List Span}

theorem length_decided : (scatter p templates (boundaries spans) m).1.length =
    (splitLines spans).length :=
  (length_scatter ..).trans List.length_mapIdx

theorem map_isSome_newLines : (newLines p templates spans m).map Option.isSome =
    (scatter p templates (boundaries spans) m).1.map Option.isSome :=
  map_isSome_linesOf length_decided

theorem length_newLines : (newLines p templates spans m).length = (splitLines spans).length := by
  simpa only [List.length_map, length_decided] using
    congrArg List.length (@map_isSome_newLines p templates m spans)

/-- The lines of a script stay, with the decoys between them, which are counted. -/
theorem injectDecoys_apply (h : templates ≠ []) : (injectDecoys p templates spans m).1 =
    (joinLines (interleave (splitLines spans) (newLines p templates spans m)),
      (newLines p templates spans m).countP Option.isSome) := by
  have hempty : templates.isEmpty = false := List.isEmpty_eq_false_iff.2 h
  have hcount := congrArg (List.countP id) (@map_isSome_newLines p templates m spans)
  rw [List.countP_map, List.countP_map] at hcount
  rw [injectDecoys_eq h, decisions, hempty, newLines, ← weave_eq]
  exact congrArg (Prod.mk _) ((List.countP_eq_length_filter ..).symm.trans hcount.symm)

/-- A decoy is a filled template after a line that a statement may follow. -/
theorem of_newLines_eq_some (h : templates ≠ []) {i : Nat} {d : Line}
    (hd : (newLines p templates spans m)[i]? = some (some d)) :
    isBoundaryAfter (splitLines spans) i = true ∧ ∃ l, (splitLines spans)[i]? = some l ∧
      ∃ template ∈ templates, ∃ m', d = .synthetic
        (((splitLines spans)[i + 1]?.getD l).indent ++ (make template m').1) l.stop := by
  obtain ⟨l, f, hl, hf, rfl⟩ := of_linesOf_eq_some length_decided hd
  obtain ⟨hplace, template, htemplate, m', rfl⟩ := of_scatter_eq_some h hf
  refine ⟨?_, l, hl, template, htemplate, m', by rw [make_eq]; rfl⟩
  simpa [boundaries, hl] using hplace

theorem thinned_newLines (h : templates ≠ []) :
    Thinned (newSpans (newLines p templates spans m)) (joinLines (splitLines spans))
      (joinLines (interleave (splitLines spans) (newLines p templates spans m))) := by
  refine thinned_interleave length_newLines.le fun l hl => ?_
  obtain ⟨i, hi⟩ := List.mem_iff_getElem?.1 hl
  obtain ⟨-, _, -, _, -, _, rfl⟩ := of_newLines_eq_some h hi
  exact ⟨_, _, rfl⟩

/-- A certain decoy stands after each line that a statement may follow. -/
theorem exists_newLine_of_one (h : templates ≠ []) (hp : p.value = 1) {i : Nat}
    (hi : isBoundaryAfter (splitLines spans) i = true) :
    ∃ d, (newLines p templates spans m)[i]? = some (some d) := by
  have hlt : i < (splitLines spans).length := by
    by_contra hge
    rw [isBoundaryAfter, List.getElem?_eq_none (Nat.not_lt.1 hge)] at hi
    cases hi
  have hplace := congrArg (fun isSome : List Bool => isSome[i]?)
    ((@map_isSome_newLines p templates m spans).trans (map_isSome_scatter_of_one h hp _ m))
  simp only [List.getElem?_map, boundaries, List.getElem?_mapIdx, List.getElem?_eq_getElem hlt,
    Option.map_some, Option.map_eq_some_iff] at hplace
  obtain ⟨d, hd, hplaced⟩ := hplace
  obtain ⟨d, rfl⟩ := Option.isSome_iff_exists.1 (hplaced.trans hi)
  exact ⟨d, hd⟩

/-- An impossible decoy stands nowhere. -/
theorem newLines_of_zero (h : templates ≠ []) (hp : p.value = 0) :
    ∀ d ∈ newLines p templates spans m, d = none := by
  intro d hd
  have hmem := List.mem_map_of_mem (f := Option.isSome) hd
  rw [map_isSome_newLines] at hmem
  obtain ⟨f, hf, hsome⟩ := List.mem_map.1 hmem
  rw [scatter_of_zero h hp _ m f hf] at hsome
  exact Option.isNone_iff_eq_none.1 (Option.isSome_eq_false_iff.1 hsome.symm)

end Decoy

/-! ## Scripts -/

/-- What decoys make of a script, given the new line, or none, after each of its lines. -/
structure Decoyed (p : Probability) (templates : List Text) (spans out : List Span)
    (decoys : List (Option Line)) : Prop where
  /-- The lines of the script stay, with at most one decoy after each. -/
  length_eq : decoys.length = (splitLines spans).length
  lines_eq : out = joinLines (interleave (splitLines spans) decoys)
  /-- A decoy is a filled template where a statement may follow, indented like the next line. -/
  boundary : ∀ (i : Nat) (d : Line), decoys[i]? = some (some d) →
    isBoundaryAfter (splitLines spans) i = true
  filled : ∀ (i : Nat) (l d : Line), (splitLines spans)[i]? = some l →
    decoys[i]? = some (some d) → ∃ template ∈ templates, ∃ m,
      d = .synthetic (((splitLines spans)[i + 1]?.getD l).indent ++ (Decoy.make template m).1) l.stop
  /-- Without the decoys, and a line feed for each, the script is back. -/
  thinned : Thinned (newSpans decoys) (joinLines (splitLines spans)) out
  back_eq : render (joinLines (splitLines spans)) = render spans
  text_eq : render spans =
    Text.joinWith ['\n'] ((splitLines spans).map fun l => render l.spans)
  text_out_eq : render out =
    Text.joinWith ['\n'] ((interleave (splitLines spans) decoys).map fun l => render l.spans)
  strings_eq : stringSpans out = stringSpans spans
  /-- A certain decoy stands wherever one may, an impossible one nowhere. -/
  all_of_one : p.value = 1 → ∀ i, isBoundaryAfter (splitLines spans) i = true →
    ∃ d, decoys[i]? = some (some d)
  none_of_zero : p.value = 0 → decoys.countP Option.isSome = 0 ∧ render out = render spans

/-- Decoys are put between the lines of a script, and nothing else changes. -/
theorem injectDecoys_decoyed {templates : List Text} (h : templates ≠ []) (p : Probability)
    (spans : List Span) (m : Mint) :
    ∃ decoys, (injectDecoys p templates spans m).1.2 = decoys.countP Option.isSome ∧
      Decoyed p templates spans (injectDecoys p templates spans m).1.1 decoys := by
  have hthinned := @Decoy.thinned_newLines p templates m spans h
  have hback : render (joinLines (splitLines spans)) = render spans := by
    rw [render_joinLines, ← render_splitLines]
  rw [Decoy.injectDecoys_apply h]
  refine ⟨Decoy.newLines p templates spans m, rfl, Decoy.length_newLines, rfl,
    fun i d hd => (Decoy.of_newLines_eq_some h hd).1, fun i l d hl hd => ?_, hthinned, hback,
    render_splitLines spans, render_joinLines _, ?_,
    fun hone i hi => Decoy.exists_newLine_of_one h hone hi, fun hzero => ?_⟩
  · obtain ⟨-, l', hl', hfilled⟩ := Decoy.of_newLines_eq_some h hd
    obtain rfl := Option.some.inj (hl.symm.trans hl')
    exact hfilled
  · rw [← hthinned.stringSpans_eq, stringSpans_joinLines, stringSpans_splitLines]
  · have hnone := @Decoy.newLines_of_zero p templates m spans h hzero
    have hnew : newSpans (Decoy.newLines p templates spans m) = [] := by
      have hfilter : (Decoy.newLines p templates spans m).filterMap id = [] :=
        List.filterMap_eq_nil_iff.2 hnone
      rw [newSpans, hfilter, List.flatMap_nil]
    rw [hnew] at hthinned
    refine ⟨List.countP_eq_zero.2 fun d hd => ?_, by rw [← hthinned.eq_of_nil, hback]⟩
    rw [hnone d hd]
    exact Bool.false_ne_true

/-- A call over two lines, and a last line with an indentation and a comment. -/
theorem calls_decoyed : ["do end".toList] ≠ [] ∧ ∀ m,
    (injectDecoys ⟨1, by decide, by decide⟩ ["do end".toList]
      [⟨.code, "f(\n1)\n  g() ".toList, 0, 12⟩, ⟨.comment, "-- c".toList, 12, 16⟩] m).1.2 = 2 ∧
    render (injectDecoys ⟨1, by decide, by decide⟩ ["do end".toList]
      [⟨.code, "f(\n1)\n  g() ".toList, 0, 12⟩, ⟨.comment, "-- c".toList, 12, 16⟩] m).1.1 =
        "f(\n1)\n  do end\n  g() -- c\n  do end".toList := by
  refine ⟨List.cons_ne_nil _ _, fun m => ?_⟩
  obtain ⟨decoys, hcount, hdecoyed⟩ := injectDecoys_decoyed
    (List.cons_ne_nil "do end".toList []) ⟨1, by decide, by decide⟩
    [⟨.code, "f(\n1)\n  g() ".toList, 0, 12⟩, ⟨.comment, "-- c".toList, 12, 16⟩] m
  have hmake : ∀ m, (Decoy.make "do end".toList m).1 = "do end".toList := by
    intro m
    have hname : Text.occursIn Decoy.nameHole "do end".toList = false := by decide +kernel
    have hnumber : Text.occursIn Decoy.numberHole "do end".toList = false := by decide +kernel
    simp only [Decoy.make, Decoy.fillName, Decoy.fillNumber, hname, Bool.false_eq_true, if_false,
      pure_bind, hnumber]
    rfl
  obtain ⟨hlength, -, hboundary, hfilled, -, -, -, htext, -, hall, -⟩ := hdecoyed
  rw [hcount, htext]
  have hthree : (splitLines [⟨.code, "f(\n1)\n  g() ".toList, 0, 12⟩,
      ⟨.comment, "-- c".toList, 12, 16⟩]).length = 3 := by decide +kernel
  have hviews : (splitLines [⟨.code, "f(\n1)\n  g() ".toList, 0, 12⟩,
      ⟨.comment, "-- c".toList, 12, 16⟩]).map (fun l => (render l.spans, l.indent)) =
      [("f(".toList, []), ("1)".toList, []), ("  g() -- c".toList, "  ".toList)] := by
    decide +kernel
  have hplaces : isBoundaryAfter (splitLines [⟨.code, "f(\n1)\n  g() ".toList, 0, 12⟩,
      ⟨.comment, "-- c".toList, 12, 16⟩]) 0 = false := by decide +kernel
  obtain ⟨d, hd⟩ := hall rfl 1 (by decide +kernel)
  obtain ⟨e, he⟩ := hall rfl 2 (by decide +kernel)
  generalize splitLines _ = lines at *
  obtain ⟨c, d', e', rfl⟩ := List.length_eq_three.1 (hlength.trans hthree)
  obtain ⟨l₀, l₁, l₂, rfl⟩ := List.length_eq_three.1 hthree
  obtain rfl := Option.some.inj hd
  obtain rfl := Option.some.inj he
  obtain ⟨_, htemplate, _, rfl⟩ := hfilled 1 _ _ rfl rfl
  obtain rfl := List.mem_singleton.1 htemplate
  obtain ⟨_, htemplate, _, rfl⟩ := hfilled 2 _ _ rfl rfl
  obtain rfl := List.mem_singleton.1 htemplate
  cases c with
  | some c =>
    have := hplaces.symm.trans (hboundary 0 c rfl)
    cases this
  | none =>
    simp only [List.map_cons, List.map_nil, List.cons.injEq, Prod.mk.injEq, and_true] at hviews
    obtain ⟨⟨htext₀, -⟩, ⟨htext₁, -⟩, htext₂, hindent₂⟩ := hviews
    refine ⟨rfl, ?_⟩
    have hsynthetic : ∀ text place, render (Line.synthetic text place).spans = text :=
      fun text _ => by simp [Line.synthetic, Span.codeAt]
    simp only [interleave, hmake, List.map_cons, List.map_nil, Option.toList_none,
      Option.toList_some, List.nil_append, List.cons_append, hsynthetic, htext₀, htext₁, htext₂]
    simp only [List.getElem?_cons_succ, List.getElem?_cons_zero, List.getElem?_nil,
      Option.getD_some, Option.getD_none, hindent₂]
    decide

end LuaVeil
