/-
# The output of a run, scanned again

A run puts a header, a stub and declarations in front of a script, and puts guards and
decoys into it. A scan of all this finds the parts again: the header is the only
comment, and there are no strings but those of the parts.

Main statements:

* `scan_wrap`, a scan of a script with what is put in front of it;
* `stands_unwoven`, what the passes leave of a script, but for decoys, stands;
* `Rules.Finishes.rescans` and `output_rescans`, a scan of the output of a run.
-/
import LuaVeil.Proofs.Job.Endings
import LuaVeil.Proofs.Veil.Snippets

namespace LuaVeil

/-! ## Scripts in front of which something is put -/

theorem commentTexts_append (xs ys : List Span) :
    commentTexts (xs ++ ys) = commentTexts xs ++ commentTexts ys := by
  rw [commentTexts, List.filter_append, List.map_append]
  rfl

/-- Spans that stand are no comments. -/
theorem commentTexts_of_steady {spans : List Span} (h : Steady spans) : commentTexts spans = [] := by
  refine List.map_eq_nil_iff.2 (List.filter_eq_nil_iff.2 fun s hs => ?_)
  cases hcode : s.isCode with
  | true => simp [Span.isComment, Strip.kind_of_isCode hcode]
  | false => simp [Span.isComment, (h.string s hs hcode).1]

/-- The spans of what stands in front of a script. -/
def frontSpans (declarations : List Text) (body : Text) (stubName : Name) : List Span :=
  scanned (Banner.stub body stubName) ++ declarations.flatMap fun d => scanned (d ++ ['\n'])

/-- A stub and declarations are found as they are, in front of everything. -/
theorem quiet_frontSpans {declarations : List Text} {literals : List (List Text)} {stubName : Name}
    (hdeclarations : List.Forall₂ Readable declarations literals)
    (hstub : isWord stubName = true) (body : Text) :
    let front := frontSpans declarations body stubName
    Quiet front ∧
      render front = Banner.stub body stubName ++ declarations.flatMap (· ++ ['\n']) ∧
      stringTexts front = Banner.stubLiterals body ++ literals.flatten ∧
      ∀ s ∈ front, s.text ≠ [] := by
  obtain ⟨hquiet, hrender, htexts, hne⟩ := (readable_stub body hstub).spans
  dsimp only [frontSpans]
  suffices hrest : Quiet (declarations.flatMap fun d => scanned (d ++ ['\n'])) ∧
      render (declarations.flatMap fun d => scanned (d ++ ['\n'])) =
        declarations.flatMap (· ++ ['\n']) ∧
      stringTexts (declarations.flatMap fun d => scanned (d ++ ['\n'])) = literals.flatten ∧
      ∀ s ∈ declarations.flatMap fun d => scanned (d ++ ['\n']), s.text ≠ [] by
    obtain ⟨hquiet', hrender', htexts', hne'⟩ := hrest
    refine ⟨hquiet.append hquiet', ?_, ?_, List.forall_mem_append.2 ⟨hne, hne'⟩⟩
    · rw [render_append, hrender, hrender']
    · rw [stringTexts_append, htexts, htexts']
  clear hquiet hrender htexts hne
  induction hdeclarations with
  | nil => exact ⟨⟨by simp, by simp⟩, rfl, rfl, by simp⟩
  | @cons d found declarations literals hd _ ih =>
    obtain ⟨hquiet', hrender', htexts', hne'⟩ := ih
    have hfeed : Readable ['\n'] [] := .of_plain (by decide)
    obtain ⟨hquiet, hrender, htexts, hne⟩ := (hd.append hfeed).spans
    simp only [List.flatMap_cons]
    refine ⟨hquiet.append hquiet', ?_, ?_, List.forall_mem_append.2 ⟨hne, hne'⟩⟩
    · rw [render_append, hrender, hrender']
    · rw [stringTexts_append, htexts, htexts', List.append_nil]
      rfl

theorem Banner.texts_spans (b : Banner) :
    stringTexts b.spans = [] ∧ commentTexts b.spans = b.lines ∧ ∀ s ∈ b.spans, s.text ≠ [] := by
  refine ⟨rfl, rfl, fun s hs => ?_⟩
  obtain ⟨line, hline, hs⟩ := List.mem_flatMap.1 hs
  rcases List.mem_cons.1 hs with rfl | hs
  · obtain ⟨⟨rest, rfl⟩, -⟩ := of_mem_lines hline
    exact List.cons_ne_nil _ _
  · obtain rfl := List.mem_singleton.1 hs
    exact List.cons_ne_nil _ _

/--
A scan of a script with header, stub and declarations in front finds the spans of each. The lines
of the header are the only comments.
-/
theorem scan_wrap (b : Banner) {declarations : List Text} {literals : List (List Text)}
    {spans : List Span} {texts : List Text} {stubName : Name}
    (hdeclarations : List.Forall₂ Readable declarations literals) (hspans : Resolved spans texts)
    (hstub : isWord stubName = true) :
    let body := render spans
    ∃ found, scan (b.wrap declarations body stubName) = .ok found ∧
      found.map Span.shape = (joinCode (b.spans ++ (frontSpans declarations body stubName ++
        spans.flatMap Span.parts))).map Span.shape ∧
      commentTexts found = b.lines ∧
      stringTexts found = Banner.stubLiterals body ++ (literals.flatten ++ texts) := by
  intro body
  obtain ⟨hquiet, hrender, htexts, hne⟩ := quiet_frontSpans hdeclarations hstub body
  obtain ⟨hstrings, hcomments, hne'⟩ := b.texts_spans
  have hsteady := hquiet.append_steady hspans.steady
  obtain ⟨found, hscan, hshape⟩ := scan_of_rescans (b.rescans_header hsteady.rescans)
    (List.forall_mem_append.2 ⟨hne', List.forall_mem_append.2 ⟨hne, hspans.solid⟩⟩)
  have htext : render (b.spans ++ (frontSpans declarations body stubName ++
      spans.flatMap Span.parts)) = b.wrap declarations body stubName := by
    rw [render_append, render_append, b.render_spans, hrender, hspans.render_eq, Banner.wrap]
    simp only [List.append_assoc]
    rfl
  rw [htext] at hscan
  refine ⟨found, hscan, hshape, ?_, ?_⟩
  · have hfound : commentTexts found = _ := texts_of_shape hshape .comment
    have hjoined := commentTexts_joinCode
      (b.spans ++ (frontSpans declarations body stubName ++ spans.flatMap Span.parts))
    rw [commentTexts_append, hcomments, commentTexts_of_steady hsteady, List.append_nil] at hjoined
    exact hfound.trans hjoined
  · rw [stringTexts_of_shape hshape, stringTexts_joinCode, stringTexts_append, hstrings,
      stringTexts_append, htexts, hspans.strings, List.append_assoc]
    rfl

/-! ## What the passes leave -/

/-- A string in backticks, with holes or without. -/
def Span.isInterpolated (s : Span) : Bool :=
  s.kind == .string && s.text.head? == some '`'

/-- Whether passes have left a script that stands, with some strings, and declarations with some
literals. -/
structure Work.Stands (w : Work) (literals : List Text) (strings : List Span) : Prop where
  undisturbed : Undisturbed w.spans
  strings_eq : stringSpans w.spans = strings
  declarations : ∃ shown, List.Forall₂ Readable w.declarations shown ∧ shown.flatten = literals

/-- What becomes of some strings of a script when it is renamed, or not. -/
def RenamesStrings (spans : List Span) (m : Mint) (strings strings' : List Span) :
    Option Strength → Prop
  | none => strings' = strings
  | some strength => ∃ out bindings, (renameLocals strength spans m).1 = some (out, bindings) ∧
      List.Forall₂ (RenamedSpan bindings) strings strings' ∧
      strings'.map (Span.mapWords (oldName bindings)) = strings

namespace Work.Stands

variable {w w' : Work} {m : Mint} {literals : List Text} {strings : List Span} {changed : Bool}

/-- Renaming leaves a script that stands, with new names in the holes of its strings at most. -/
theorem rename {strength : Strength} (h : w.Stands literals strings)
    (htaken : ∀ s ∈ w.spans, ∀ x ∈ s.words, x ∈ m.names.taken)
    (hrun : ((Pass.rename strength).run w m).1 = some (w', changed)) :
    w'.Stands literals (stringSpans w'.spans) ∧
      RenamesStrings w.spans m strings (stringSpans w'.spans) (some strength) := by
  obtain ⟨⟨out, bindings⟩, hrenamed, hw⟩ := Option.map_eq_some_iff.1 hrun
  replace hrenamed : (renameLocals strength w.spans m).1 = some (out, bindings) := hrenamed
  obtain ⟨rfl, -⟩ := Prod.mk.inj hw
  obtain ⟨hundisturbed, hstrings, hback⟩ := undisturbed_renameLocals h.undisturbed htaken hrenamed
  rw [h.strings_eq] at hstrings hback
  exact ⟨⟨hundisturbed, rfl, h.declarations⟩, out, bindings, hrenamed, hstrings, hback⟩

/-- Guards leave a script that stands, with the strings that it has, and have no literals. -/
theorem guards {chance : Probability} (h : w.Stands literals strings)
    (hrun : ((Pass.guards chance).run w m).1 = some (w', changed)) :
    w'.Stands literals strings := by
  obtain ⟨-, hword⟩ := choose_uses m
  obtain ⟨hundisturbed, hstrings⟩ := @undisturbed_guardLines (OpaquePredicate.choose m).1 chance
    w.spans hword h.undisturbed (OpaquePredicate.choose m).2.source
  obtain rfl := congrArg Prod.fst (Option.some.inj hrun)
  refine ⟨hundisturbed, hstrings.trans h.strings_eq, ?_⟩
  obtain ⟨shown, hshown, hliterals⟩ := h.declarations
  dsimp only
  split
  · exact ⟨shown, hshown, hliterals⟩
  · refine ⟨shown ++ [[]], List.rel_append hshown (.cons (readable_predicate hword) .nil), ?_⟩
    rw [List.flatten_append, hliterals]
    exact List.append_nil _

end Work.Stands

/-! ## Runs -/

namespace Rules

/-- The texts of the literals that the table of a run shows: its constants at the lowest preset. -/
def shownConstants (rules : Rules) (r : Request) (spans : List Span) : List Text :=
  if r.preset = .minify then ((rules.stripped spans).filter Span.isConstant).map Span.text else []

/-- What the passes of a run leave, but for decoys. -/
def unwoven (rules : Rules) (r : Request) (source : Source) (spans : List Span) :
    Option Work × Mint :=
  Pass.runAll (.start spans r.dialect) ({ r.preset.plan with decoys := false }.passes rules)
    (rules.mint spans source)

end Rules

section

variable {rules : Rules} {r : Request} {source : Source} {spans : List Span}

/-- The strings of a stripped script that are no literals are in backticks. -/
theorem filter_isInterpolated (hscan : scan r.source = .ok spans) :
    (stringSpans (rules.stripped spans)).filter (fun s => !s.isLiteral) =
      (rules.stripped spans).filter Span.isInterpolated := by
  rw [stringSpans, List.filter_filter]
  refine List.filter_congr fun s hs => ?_
  obtain ⟨halternates, hne⟩ := alternates_of_scan hscan
  cases hcode : s.isCode with
  | true => simp [Span.isInterpolated, Strip.kind_of_isCode hcode]
  | false =>
    have hsteady := steady_strip (matchesAny rules.debugPatterns) (rescans_of_scan hscan)
      halternates hne
    have hkind := (hsteady.string s hs hcode).1
    rcases isStringLiteral_of_mem_strip hscan hs hkind with hliteral | htick
    · obtain ⟨l, hread, -⟩ := exists_literal_of_isStringLiteral hliteral
      have hhead := head?_of_isStringLiteral hliteral
      simp [Span.isLiteral, Span.isInterpolated, hread, hkind, hhead]
    · simp [Span.isLiteral, Span.isInterpolated, ofText?_of_backtick htick, hkind, htick]

/-- A script stands after extraction. Its strings are those in backticks. -/
theorem stands_extracted (hscan : scan r.source = .ok spans) (stats : Stats) :
    let out := rules.extracted r source spans
    (⟨out.2, r.dialect, [out.1.declaration], stats⟩ : Work).Stands
      (rules.shownConstants r spans) ((rules.stripped spans).filter Span.isInterpolated) := by
  intro out
  obtain ⟨halternates, hne⟩ := alternates_of_scan hscan
  obtain ⟨hundisturbed, hstrings⟩ := undisturbed_extractStrings r.preset.plan.hideStrings r.dialect
    (undisturbed_strip (matchesAny rules.debugPatterns) (rescans_of_scan hscan) halternates hne)
    (rules.mint spans source)
  obtain ⟨hentries, -, -, hdecoder⟩ := @references_extracted rules r source spans hscan
  obtain ⟨hname, hdecoders⟩ := isWord_extracted rules r source spans
  obtain ⟨-, htexts, hliterals⟩ := literals_of_entries hentries
    fun s hs => isStringLiteral_of_isConstant hscan hs
  refine ⟨hundisturbed, hstrings.trans (filter_isInterpolated hscan), _,
    .cons (readable_declaration hname hdecoders hliterals) .nil, ?_⟩
  rw [List.flatten_singleton, Rules.shownConstants]
  split
  · next hpreset =>
    have hhide : r.preset.plan.hideStrings = false := by rw [hpreset]; rfl
    have hnone : out.1.decoder = none := by
      rw [hhide, Bool.false_and] at hdecoder
      simpa using hdecoder
    rw [hnone, shown_none, htexts]
  · next hpreset =>
    have hhide := (hideStrings_iff r.preset).2 hpreset
    rw [hhide] at hentries hdecoder
    refine List.flatMap_eq_nil_iff.2 fun e he => ?_
    have hsome : out.1.decoder.isSome = true := by
      rw [hdecoder, Bool.true_and]
      simpa using List.ne_nil_of_mem he
    rw [TableEntry.shown, key_of_mem_entries hentries he, hsome]
    rfl

/--
What the passes but decoys leave of a script stands. Its strings are those in backticks, renamed if
the run renames.
-/
theorem stands_unwoven {w : Work} {m : Mint} (hscan : scan r.source = .ok spans)
    (hrun : rules.unwoven r source spans = (some w, m)) :
    let out := extractStrings r.preset.plan.hideStrings r.dialect (rules.stripped spans)
      (rules.mint spans source)
    w.Stands (rules.shownConstants r spans) (stringSpans w.spans) ∧
      RenamesStrings out.1.2 out.2 ((rules.stripped spans).filter Span.isInterpolated)
        (stringSpans w.spans) r.preset.plan.rename := by
  intro out
  obtain ⟨-, -, hplaces, -⟩ := @references_extracted rules r source spans hscan
  obtain ⟨-, htaken⟩ := tracked_extracted hscan hplaces
  let later := if r.preset.plan.guards then [Pass.guards rules.guardChance] else []
  obtain ⟨stats, hstart⟩ := runAll_strings (matchesAny rules.debugPatterns)
    r.preset.plan.hideStrings r.dialect spans (r.preset.plan.rename.toList.map .rename ++ later)
    (rules.mint spans source)
  have hpasses : { r.preset.plan with decoys := false }.passes rules =
      .strip (matchesAny rules.debugPatterns) :: .strings r.preset.plan.hideStrings ::
        (r.preset.plan.rename.toList.map .rename ++ later) := by
    simp [Plan.passes, later]
  rw [Rules.unwoven, hpasses, hstart] at hrun
  have hstands := @stands_extracted rules r source spans hscan stats
  -- guards change no strings
  have hguards : ∀ {next : Work} {m' : Mint} {literals strings}, next.Stands literals strings →
      Pass.runAll next later m' = (some w, m) →
      w.Stands literals strings ∧ stringSpans w.spans = strings := by
    intro next m' literals strings hnext hlater
    suffices hw : w.Stands literals strings from ⟨hw, hw.strings_eq⟩
    by_cases hplan : r.preset.plan.guards = true
    · rw [show later = [Pass.guards rules.guardChance] from if_pos hplan] at hlater
      obtain ⟨w', changed, hguard, hcons⟩ := Pass.exists_of_runAll_cons (congrArg Prod.fst hlater)
      obtain rfl : w' = w := Option.some.inj (congrArg Prod.fst (hcons.symm.trans hlater))
      exact hnext.guards hguard
    · rw [show later = [] from if_neg hplan] at hlater
      obtain rfl : next = w := Option.some.inj (congrArg Prod.fst hlater)
      exact hnext
  cases hrename : r.preset.plan.rename with
  | none =>
    rw [hrename] at hrun
    obtain ⟨hw, hstrings⟩ := hguards hstands hrun
    exact ⟨hstrings ▸ hw, hstrings⟩
  | some strength =>
    rw [hrename] at hrun
    have hopen : Pass.runAll _ (.rename strength :: later) out.2 = (some w, m) := hrun
    obtain ⟨renamed, changed, hfirst, hcons⟩ :=
      Pass.exists_of_runAll_cons (congrArg Prod.fst hopen)
    obtain ⟨hrenamed, hstrings⟩ := hstands.rename htaken hfirst
    obtain ⟨hw, hsame⟩ := hguards hrenamed (hcons.symm.trans hopen)
    exact ⟨hsame ▸ hw, hsame ▸ hstrings⟩

/-- Decoys come last: they are put between the lines of a script that stands. -/
theorem resolved_runAll {w : Work} (htemplates : rules.decoyTemplates = Decoy.defaultTemplates)
    (hscan : scan r.source = .ok spans)
    (hrun : (Pass.runAll (.start spans r.dialect) (r.preset.plan.passes rules)
      (rules.mint spans source)).1 = some w) :
    ∃ script m, rules.unwoven r source spans = (some script, m) ∧
      w.declarations = script.declarations ∧
      let lines := splitLines script.spans
      let decoys :=
        (Decoy.decisions rules.decoyChance rules.decoyTemplates script.spans m).1
      (w.spans = if r.preset.plan.decoys then joinLines (Decoy.weave lines decoys)
        else script.spans) ∧
      Resolved w.spans (if r.preset.plan.decoys then (Decoy.lineStrings lines decoys).flatten
        else stringTexts script.spans) := by
  let unwoven := { r.preset.plan with decoys := false }.passes rules
  by_cases hplan : r.preset.plan.decoys = true
  · have hpasses : r.preset.plan.passes rules =
        unwoven ++ [.decoys rules.decoyChance rules.decoyTemplates] := by
      simp [Plan.passes, unwoven, hplan]
    rw [hpasses] at hrun
    obtain ⟨script, hscript, hlast⟩ := Pass.exists_of_runAll_append hrun
    let m := (rules.unwoven r source spans).2
    have hlater : w.spans =
          (injectDecoys rules.decoyChance rules.decoyTemplates script.spans m).1.1 ∧
        w.declarations = script.declarations := by
      rw [hlast] at hrun
      obtain rfl := Option.some.inj hrun
      exact ⟨rfl, rfl⟩
    have hunwoven : rules.unwoven r source spans = (some script, m) := Prod.ext hscript rfl
    obtain ⟨hstands, -⟩ := stands_unwoven hscan hunwoven
    refine ⟨script, m, hunwoven, hlater.2, ?_⟩
    intro lines decoys
    rw [if_pos hplan, if_pos hplan, hlater.1]
    simp only [lines, decoys, htemplates]
    refine ⟨?_, resolved_injectDecoys hstands.undisturbed m⟩
    have hinject :=
      @Decoy.injectDecoys_eq rules.decoyChance Decoy.defaultTemplates (by decide) script.spans
    exact congrArg (fun out => out.1.1) (congrFun hinject m)
  · have hpasses : r.preset.plan.passes rules = unwoven := by
      simp [Plan.passes, unwoven, hplan]
    rw [hpasses] at hrun
    have hunwoven : rules.unwoven r source spans =
        (some w, (rules.unwoven r source spans).2) := Prod.ext hrun rfl
    obtain ⟨hstands, -⟩ := stands_unwoven hscan hunwoven
    refine ⟨w, _, hunwoven, rfl, ?_⟩
    intro lines decoys
    rw [if_neg hplan, if_neg hplan]
    exact ⟨rfl, .of_steady hstands.undisturbed.steady⟩

/--
A scan of what a run puts together finds its parts, whatever the words are that the run draws and
whatever the header says.
-/
theorem Rules.Finishes.rescans {v : Veiled} (h : rules.Finishes r source spans v)
    (htemplates : rules.decoyTemplates = Decoy.defaultTemplates) (b : Banner) :
    ∃ script m w found,
      rules.unwoven r source spans = (some script, m) ∧
      v.body = render w.spans ∧ v.declarations = w.declarations ∧
      let lines := splitLines script.spans
      let decoys := (Decoy.decisions rules.decoyChance rules.decoyTemplates script.spans m).1
      let strings := script.spans.filter fun s => s.kind == .string
      let out := extractStrings r.preset.plan.hideStrings r.dialect (rules.stripped spans)
        (rules.mint spans source)
      (Pass.runAll (.start spans r.dialect) (r.preset.plan.passes rules)
        (rules.mint spans source)).1 = some w ∧
      (w.spans = if r.preset.plan.decoys then joinLines (Decoy.weave lines decoys)
        else script.spans) ∧
      scan (b.wrap v.declarations v.body v.stubName) = .ok found ∧
      found.map Span.shape = (joinCode (b.spans ++ (frontSpans v.declarations v.body v.stubName ++
        w.spans.flatMap Span.parts))).map Span.shape ∧
      commentTexts found = b.lines ∧
      stringTexts found = Banner.stubLiterals v.body ++ (rules.shownConstants r spans ++
        if r.preset.plan.decoys then (Decoy.lineStrings lines decoys).flatten
        else strings.map Span.text) ∧
      RenamesStrings out.1.2 out.2 ((rules.stripped spans).filter Span.isInterpolated) strings
        r.preset.plan.rename ∧
      ∀ s, s ∈ script.spans ∨ (∃ l ∈ lines, s ∈ l.spans) → s.isCode = true →
        s.parts = codeSpans 0 s.text := by
  obtain ⟨w, hrun, rfl⟩ := veil_eq_some_iff.1 h.veiled
  obtain ⟨script, m, hscript, hdeclarations, hspans, hresolved⟩ :=
    resolved_runAll htemplates h.scanned hrun
  obtain ⟨hstands, hstrings⟩ := stands_unwoven h.scanned hscript
  obtain ⟨literals, hliterals, hshown⟩ := hstands.declarations
  rw [← hdeclarations] at hliterals
  obtain ⟨found, hfound, hshape, hcomments, htexts⟩ :=
    scan_wrap b hliterals hresolved (Minting.isWord_freshName _)
  rw [hshown] at htexts
  rw [← filter_string_of_steady hstands.undisturbed.steady] at hstrings
  refine ⟨script, m, w, found, hscript, rfl, rfl, hrun, hspans, hfound, hshape, hcomments, htexts,
    hstrings, fun s hs hcode => ?_⟩
  rw [Span.parts, if_pos hcode]
  refine scanned_of_staysCode ?_
  rcases hs with hs | ⟨l, hl, hs⟩
  · exact hstands.undisturbed.steady.code s hs hcode
  · exact (hstands.undisturbed.lines hl).1.code s hs hcode

/--
A scan of the output of a run succeeds and finds what was put together: header, stub, declarations
and script, with the spans that each has on its own. The lines of the header are the only comments.
The strings are those of the stub, the constants in the table at the lowest preset, and the strings
of the script: those in backticks, renamed if the run renames, and those of decoys between the lines.
Code of the script is found as code.
-/
theorem output_rescans {now : Instant} {seed : Seed} {outcome : Outcome}
    (h : rules.runWithSeed now r seed = .ok outcome)
    (htemplates : rules.decoyTemplates = Decoy.defaultTemplates) :
    ∃ spans script m w stubName found,
      scan r.source = .ok spans ∧
      rules.unwoven r seed.source spans = (some script, m) ∧
      let b : Banner := ⟨r.preset, r.dialect, now⟩
      let body := render w.spans
      let lines := splitLines script.spans
      let decoys := (Decoy.decisions rules.decoyChance rules.decoyTemplates script.spans m).1
      let strings := script.spans.filter fun s => s.kind == .string
      let out := extractStrings r.preset.plan.hideStrings r.dialect (rules.stripped spans)
        (rules.mint spans seed.source)
      (Pass.runAll (.start spans r.dialect) (r.preset.plan.passes rules)
        (rules.mint spans seed.source)).1 = some w ∧
      (w.spans = if r.preset.plan.decoys then joinLines (Decoy.weave lines decoys)
        else script.spans) ∧
      outcome.output = b.wrap w.declarations body stubName ∧
      scan outcome.output = .ok found ∧
      found.map Span.shape = (joinCode (b.spans ++ (frontSpans w.declarations body stubName ++
        w.spans.flatMap Span.parts))).map Span.shape ∧
      commentTexts found = b.lines ∧
      stringTexts found = Banner.stubLiterals body ++ (rules.shownConstants r spans ++
        if r.preset.plan.decoys then (Decoy.lineStrings lines decoys).flatten
        else strings.map Span.text) ∧
      RenamesStrings out.1.2 out.2 ((rules.stripped spans).filter Span.isInterpolated) strings
        r.preset.plan.rename ∧
      ∀ s, s ∈ script.spans ∨ (∃ l ∈ lines, s ∈ l.spans) → s.isCode = true →
        s.parts = codeSpans 0 s.text := by
  obtain ⟨spans, v, hfinish, rfl⟩ := Rules.runWithSeed_eq_ok_iff.1 h
  obtain ⟨script, m, w, found, hscript, hbody, hdeclarations, hrun, hspans, hfound, hshape, hcomments,
    htexts, hstrings, hcode⟩ := hfinish.rescans htemplates ⟨r.preset, r.dialect, now⟩
  rw [hbody, hdeclarations] at hshape
  rw [hbody] at htexts
  refine ⟨spans, script, m, w, v.stubName, found, hfinish.scanned, hscript, hrun, hspans, ?_, hfound,
    hshape, hcomments, htexts, hstrings, hcode⟩
  rw [← hbody, ← hdeclarations]
  rfl

end

/-- A script with a variable, a constant, a string in backticks and a comment. -/
def annotated : Request :=
  ⟨"local n = \"c\"\nprint(`\x7bn\x7d`) -- note".toList, .luau, .strong⟩

/-- The spans of the script. -/
def annotatedSpans : List Span :=
  [⟨.code, "local n = ".toList, 0, 10⟩, ⟨.string, "\"c\"".toList, 10, 13⟩,
    ⟨.code, "\nprint(".toList, 13, 20⟩, ⟨.string, "`\x7bn\x7d`".toList, 20, 25⟩,
    ⟨.code, ") ".toList, 25, 27⟩, ⟨.comment, "-- note".toList, 27, 34⟩]

/-- Every run of the script finishes, with one constant and one variable. -/
theorem exists_finishes_annotated (source : Source) :
    ∃ v, certainRules.Finishes annotated source annotatedSpans v ∧ v.stats.stringsExtracted = 1 ∧
      v.stats.identifiersRenamed = 1 := by
  have hscan : scan annotated.source = .ok annotatedSpans := by decide +kernel
  have hspares : ScopeState.everywhere certainRules.reserved
      (sparesConstants (certainRules.stripped annotatedSpans) certainRules.reserved) .initial
      (.start (occurrences (certainRules.stripped annotatedSpans))) = true := by decide +kernel
  have hone : (resolve certainRules.reserved
      (occurrences (certainRules.stripped annotatedSpans))).declared = [['n']] := by decide +kernel
  have hplain : ((certainRules.reserved.names ++ annotatedSpans.flatMap Span.words).all fun w =>
      !w.all ['l', 'I', '1'].contains) = true := by decide +kernel
  obtain ⟨v, hfinish, hstrings, hnames⟩ := @Rules.exists_finishes_of_one_variable certainRules
    annotated source annotatedSpans (by decide +kernel) hscan hspares _ hone fun w hw =>
      Candidates.not_mem_lookAlikeNames (by simpa using List.all_eq_true.1 hplain w hw)
  have hconstants : ((certainRules.stripped annotatedSpans).filter Span.isConstant).length = 1 := by
    decide +kernel
  exact ⟨v, hfinish, hstrings.trans hconstants, hnames⟩

/-- The script after a run that draws multiples: renamed, with a guard and two decoys. -/
def annotatedBody : Text :=
  "local I1lI1llI1lI1 = _GSeD[0]\ndo local _TgsE = function() return 13543 end end\n".toList ++
    "if _FeqP(4083) then print(`\x7bI1lI1llI1lI1\x7d`) end\ndo local _JVuG = nil end".toList

theorem veil_annotated :
    (veil (annotated.preset.plan.passes certainRules) annotated.dialect annotatedSpans
      (certainRules.mint annotatedSpans multiples)).1.map (fun v => (v.body, v.stats)) =
        some (annotatedBody, ⟨1, 1, 1, 2, 1, 0⟩) ∧
      let out := certainRules.unwoven annotated multiples annotatedSpans
      out.1.map (fun w => (Decoy.lineStrings (splitLines w.spans) (Decoy.decisions
        certainRules.decoyChance certainRules.decoyTemplates w.spans out.2).1).flatten) =
          some ["`\x7bI1lI1llI1lI1\x7d`".toList] := by
  constructor <;> decide +kernel

/--
Runs at the strongest preset. The comment is gone and the constant is hidden; the string in backticks
stands in the script with the new name of its variable, whatever that is. With words that are known
the run has a guard and two decoys, and the strings are those of the stub and this one.
-/
theorem annotated_rescans :
    (∃ outcome stats body script decoys found s bindings,
      certainRules.runWithSeed ⟨0, 0⟩ annotated (.ofNumber 1) = .ok outcome ∧
        outcome.metadata.stats = some stats ∧
        stats.stringsExtracted = 1 ∧ stats.identifiersRenamed = 1 ∧
        scan outcome.output = .ok found ∧
        commentTexts found = (⟨.strong, .luau, ⟨0, 0⟩⟩ : Banner).lines ∧
        stringTexts found =
          Banner.stubLiterals body ++ (Decoy.lineStrings (splitLines script) decoys).flatten ∧
        (script.filter fun s => s.kind == .string) = [s] ∧
        RenamedSpan bindings ⟨.string, "`\x7bn\x7d`".toList, 20, 25⟩ s ∧
        s.mapWords (oldName bindings) = ⟨.string, "`\x7bn\x7d`".toList, 20, 25⟩) ∧
      ∃ v found, certainRules.Finishes annotated multiples annotatedSpans v ∧
        v.body = annotatedBody ∧ v.stats = ⟨1, 1, 1, 2, 1, 0⟩ ∧
        scan ((⟨.strong, .luau, ⟨0, 0⟩⟩ : Banner).wrap v.declarations v.body v.stubName) = .ok found ∧
        commentTexts found = (⟨.strong, .luau, ⟨0, 0⟩⟩ : Banner).lines ∧
        stringTexts found = Banner.stubLiterals annotatedBody ++ ["`\x7bI1lI1llI1lI1\x7d`".toList] := by
  have hscan : scan annotated.source = .ok annotatedSpans := by decide +kernel
  constructor
  · obtain ⟨v, hfinish, hconstants, hnames⟩ := exists_finishes_annotated (Seed.ofNumber 1).source
    have hrun : certainRules.runWithSeed ⟨0, 0⟩ annotated (.ofNumber 1) = .ok _ :=
      Rules.runWithSeed_eq_ok_iff.2 ⟨annotatedSpans, v, hfinish, rfl⟩
    obtain ⟨spans, script, m, w, -, found, hspans, -, -, -, -, hfound, -, hcomments, hstrings,
      hbackticks, -⟩ := output_rescans hrun rfl
    obtain rfl : annotatedSpans = spans := Except.ok.inj (hscan.symm.trans hspans)
    have hkept : (certainRules.stripped annotatedSpans).filter Span.isInterpolated =
        [⟨.string, "`\x7bn\x7d`".toList, 20, 25⟩] := by decide +kernel
    obtain ⟨-, bindings, -, hrenamed, hback⟩ := hbackticks
    rw [hkept] at hrenamed hback
    obtain ⟨s, hsingle⟩ := List.length_eq_one_iff.1 hrenamed.length_eq.symm
    rw [hsingle] at hrenamed hback
    cases hrenamed with
    | cons hs _ =>
    exact ⟨_, v.stats, render w.spans, script.spans, _, found, s, bindings, hrun, rfl, hconstants,
      hnames, hfound, hcomments, hstrings, hsingle, hs, List.singleton_inj.1 hback⟩
  · obtain ⟨hveil, hwoven⟩ := veil_annotated
    obtain ⟨v, hv, hsame⟩ := Option.map_eq_some_iff.1 hveil
    obtain ⟨hbody, hstats⟩ := Prod.mk.inj hsame
    have hfinish : certainRules.Finishes annotated multiples annotatedSpans v :=
      ⟨by decide +kernel, hscan, hv⟩
    obtain ⟨script, m, w, found, hscript, -, -, -, -, hfound, -, hcomments, hstrings, -⟩ :=
      hfinish.rescans rfl ⟨.strong, .luau, ⟨0, 0⟩⟩
    rw [hscript] at hwoven
    rw [hbody] at hstrings
    exact ⟨v, found, hfinish, hbody, hstats, hfound, hcomments,
      hstrings.trans (congrArg _ (Option.some.inj hwoven))⟩

end LuaVeil
