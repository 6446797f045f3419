/-
# Runs of stripped scripts

Every run strips its script first, and a stripped script is as stripping leaves it. So
without patterns of debug statements a run makes the same of a script and of the
stripped script: the words of both are the same, which decide on the names that are
taken, and so is every span that a later pass sees. Only the comments of the stripped
script are no longer counted. At the strongest preset neither run may end, since the
look-alike names can run out.

Main statements:

* `run_of_stripped`, runs of a script and of the stripped script;
* `spells_line`, blocks on one line are a stripped script;
* `crowded_line_never_named`, a stripped script for which there are too few names.
-/
import LuaVeil.Proofs.Job.Independence
import LuaVeil.Proofs.Veil.StrippedAgain

namespace LuaVeil

/-! ## Counted comments do not matter -/

/-- Counts in which no comment is counted. -/
def Stats.withoutComments (s : Stats) : Stats :=
  { s with commentsRemoved := 0 }

/-- A script under work of which no comment was counted. -/
def Work.withoutComments (w : Work) : Work :=
  { w with stats := w.stats.withoutComments }

namespace Pass

variable {w : Work} {m : Mint}

/-- A pass after extraction does not look at the comments that were counted. -/
theorem run_withoutComments {p : Pass} (hp : p.ComesLater) :
    (p.run w.withoutComments m).1 =
        (p.run w m).1.map (fun out => (out.1.withoutComments, out.2)) ∧
      (p.run w.withoutComments m).2 = (p.run w m).2 := by
  cases p with
  | strip _ => exact hp.elim
  | strings _ => exact hp.elim
  | rename strength =>
    rw [run_rename, run_rename, Option.map_map]
    exact ⟨rfl, rfl⟩
  | guards chance => exact ⟨rfl, rfl⟩
  | decoys chance templates => exact ⟨rfl, rfl⟩

theorem runAll_withoutComments {passes : List Pass} (hp : ∀ p ∈ passes, p.ComesLater) :
    (runAll w.withoutComments passes m).1 = (runAll w passes m).1.map Work.withoutComments ∧
      (runAll w.withoutComments passes m).2 = (runAll w passes m).2 := by
  induction passes generalizing w m with
  | nil => exact ⟨rfl, rfl⟩
  | cons p passes ih =>
    obtain ⟨hfirst, hmore⟩ := List.forall_mem_cons.1 hp
    obtain ⟨hrun, hmint⟩ := @run_withoutComments w m p hfirst
    rw [runAll, runAll, Minting.bind_apply, Minting.bind_apply, hrun, hmint]
    cases (p.run w m).1 with
    | none => exact ⟨rfl, rfl⟩
    | some out => exact ih hmore

end Pass

/-! ## Scripts that strip alike -/

section

variable {rules : Rules} {r r' : Request} {source : Source} {spans again : List Span}

/-- Spans have the same words if stripping leaves the same of them. -/
theorem words_of_alike_strip {t t' : Text} (hscan : scan t = .ok spans)
    (hscan' : scan t' = .ok again)
    (h : SpansAlike false (strip (fun _ => false) spans).1 (strip (fun _ => false) again).1) :
    again.flatMap Span.words = spans.flatMap Span.words := by
  have hstrip : ∀ {t : Text} {spans : List Span}, scan t = .ok spans →
      (strip (fun _ => false) spans).1.flatMap Span.words = spans.flatMap Span.words := by
    intro t spans hscan
    obtain ⟨halternates, hne⟩ := alternates_of_scan hscan
    refine Strip.flatMap_strip partedByBlanks_codeWords (fun s hs => ?_) (fun s hs => ?_)
      halternates hne
    · rw [Span.words, Strip.kind_of_isCode hs]
    · have hkind : s.kind = .comment := by simpa [Span.isComment] using hs
      rw [Span.words, hkind]
  rw [← hstrip hscan, ← hstrip hscan', words_of_alike h]

/-- The literals of a table are read from the constants in order. -/
theorem literals_of_isEntryOf {hide : Bool} {constants : List Span} {entries : List TableEntry}
    (h : List.Forall₂ (IsEntryOf hide) constants.zipIdx entries) :
    entries.map (fun e => some e.literal) = constants.map fun s => Literal.ofText? s.text := by
  have hfst := congrArg (List.map fun s : Span => Literal.ofText? s.text)
    (List.zipIdx_map_fst 0 constants)
  rw [List.map_map] at hfst
  rw [← hfst, eq_comm, ← List.forall₂_eq_eq_eq, List.forall₂_map_left_iff,
    List.forall₂_map_right_iff]
  exact h.imp fun slot e he => he.literal_eq

/-- Alike tables with the same literals are the same. -/
theorem StringTable.Alike.eq {t t' : StringTable} (h : t.Alike t')
    (hliterals : t'.entries.map (fun e => some e.literal) = t.entries.map fun e => some e.literal) :
    t' = t := by
  obtain ⟨name, decoder, dialect, entries⟩ := t
  obtain ⟨name', decoder', dialect', entries'⟩ := t'
  obtain ⟨rfl, rfl, rfl, hentries⟩ := h
  refine congrArg (StringTable.mk _ _ _) ?_
  dsimp only at hentries hliterals
  induction hentries with
  | nil => rfl
  | @cons e e' entries entries' he _ ih =>
    obtain ⟨hliteral, hmore⟩ := List.cons.inj hliterals
    obtain ⟨index, literal, key⟩ := e
    obtain ⟨index', literal', key'⟩ := e'
    obtain ⟨rfl, rfl⟩ := he
    obtain rfl := Option.some.inj hliteral
    rw [ih hmore]

/-- The same table is made of scripts that strip alike, and the same script. -/
theorem extracted_of_alike_strip (hscan : scan r.source = .ok spans)
    (hscan' : scan r'.source = .ok again) (hpreset : r'.preset = r.preset)
    (hdialect : r'.dialect = r.dialect)
    (h : SpansAlike false (rules.stripped spans) (rules.stripped again))
    (hmint : rules.mint again source = rules.mint spans source) :
    let out := extractStrings r.preset.plan.hideStrings r.dialect (rules.stripped spans)
      (rules.mint spans source)
    let out' := extractStrings r.preset.plan.hideStrings r.dialect (rules.stripped again)
      (rules.mint spans source)
    out'.1.1 = out.1.1 ∧ SpansAlike false out.1.2 out'.1.2 ∧ out'.2 = out.2 := by
  intro out out'
  have hvary : SpansAlike true (rules.stripped spans) (rules.stripped again) :=
    h.imp fun _ _ hs => .of_eq hs.1 hs.text_eq
  obtain ⟨htable, hspans, hafter⟩ := alike_extractStrings r.preset.plan.hideStrings r.dialect hvary
    (rules.mint spans source)
  obtain ⟨hentries, -⟩ := @references_extracted rules r source spans hscan
  obtain ⟨hentries', -⟩ := @references_extracted rules r' source again hscan'
  rw [Rules.extracted, hpreset, hdialect, hmint] at hentries'
  refine ⟨htable.eq ?_, hspans, hafter⟩
  have hconstants : List.Forall₂ (fun s s' : Span => s'.text = s.text)
      ((rules.stripped spans).filter Span.isConstant)
      ((rules.stripped again).filter Span.isConstant) := by
    refine (List.rel_filter (fun s s' hs => ?_) h).imp fun _ _ hs => hs.text_eq
    show s.isConstant = true ↔ s'.isConstant = true
    rw [Span.isConstant, Span.isConstant, hs.1, hs.text_eq]
  refine (literals_of_isEntryOf hentries').trans (Eq.trans ?_ (literals_of_isEntryOf hentries).symm)
  rw [eq_comm, ← List.forall₂_eq_eq_eq, List.forall₂_map_left_iff, List.forall₂_map_right_iff]
  exact hconstants.imp fun s s' htext => by rw [htext]

/-- Runs of scripts that strip alike leave the same; only comments are counted for one of them. -/
theorem veil_of_alike_strip (hscan : scan r.source = .ok spans)
    (hscan' : scan r'.source = .ok again) (hpreset : r'.preset = r.preset)
    (hdialect : r'.dialect = r.dialect)
    (h : SpansAlike false (rules.stripped spans) (rules.stripped again))
    (hreport : (strip (matchesAny rules.debugPatterns) again).2 =
      ⟨0, (strip (matchesAny rules.debugPatterns) spans).2.debugLines⟩)
    (hmint : rules.mint again source = rules.mint spans source) :
    Option.Rel (fun v v' : Veiled => v'.body = v.body ∧ v'.stubName = v.stubName ∧
        v'.declarations = v.declarations ∧ v'.stats = v.stats.withoutComments)
      (veil (r.preset.plan.passes rules) r.dialect spans (rules.mint spans source)).1
      (veil (r.preset.plan.passes rules) r.dialect again (rules.mint spans source)).1 := by
  obtain ⟨htable, hspans, hafter⟩ := @extracted_of_alike_strip rules r r' source spans again
    hscan hscan' hpreset hdialect h hmint
  obtain ⟨later, hpasses, hlater⟩ := Plan.exists_later r.preset.plan rules
  let isDebug := matchesAny rules.debugPatterns
  let hide := r.preset.plan.hideStrings
  let m := rules.mint spans source
  let after := (extractStrings hide r.dialect (rules.stripped spans) m).2
  let work (spans : List Span) : Work :=
    let report := (strip isDebug spans).2
    let out := extractStrings hide r.dialect (rules.stripped spans) m
    ⟨out.1.2, r.dialect, [out.1.1.declaration],
      ⟨0 + out.1.1.entries.length, 0, 0, 0, 0 + report.comments, 0 + report.debugLines⟩⟩
  have hrun : Pass.runAll (.start spans r.dialect) (r.preset.plan.passes rules) m =
      Pass.runAll (work spans) later after := by
    rw [hpasses]
    exact (runAll_start isDebug hide r.dialect spans later m).1
  have hrun' : Pass.runAll (.start again r.dialect) (r.preset.plan.passes rules) m =
      Pass.runAll (work again) later after := by
    rw [hpasses]
    exact (runAll_start isDebug hide r.dialect again later m).1.trans
      (congrArg (Pass.runAll (work again) later) hafter)
  let declaration := (extractStrings hide r.dialect (rules.stripped spans) m).1.1.declaration
  have hwork : (work spans).withoutComments.Alike declaration declaration (work again) := by
    refine ⟨hspans, ?_, [], rfl, ?_⟩
    · simp only [work, Work.withoutComments, Stats.withoutComments]
      rw [hreport, htable]
      rfl
    · simp only [work, declaration]
      rw [htable]
  obtain ⟨hrel, hlast, -⟩ := Pass.runAll_alike hlater hwork after
  obtain ⟨hforget, hsame⟩ := @Pass.runAll_withoutComments (work spans) after later hlater
  rw [hforget] at hrel
  rw [veil_fst, veil_fst, hrun, hrun', hlast, hsame]
  generalize (Pass.runAll (work spans) later after).1 = left at hrel ⊢
  generalize (Pass.runAll (work again) later after).1 = right at hrel ⊢
  cases left with
  | none =>
    cases hrel with
    | none => exact .none
  | some w =>
    cases hrel with
    | some hw =>
      obtain ⟨more, hmore, hmore'⟩ := hw.declarations
      exact .some ⟨render_of_alike hw.spans, rfl, hmore'.trans hmore.symm, hw.stats_eq⟩

/-! ## Runs -/

/-- The characters of a text that are no blanks. -/
def Text.solid (t : Text) : Text :=
  t.filter fun c => !Text.isBlank c

theorem partedByBlanks_solid : PartedByBlanks Text.solid :=
  ⟨rfl, fun hc a b => by simp [Text.solid, hc]⟩

/-- The characters of a span that stripping keeps. -/
def Span.solidText (s : Span) : Text :=
  if s.isComment then [] else Text.solid s.text

theorem Span.solidText_of_isCode {s : Span} (h : s.isCode = true) :
    s.solidText = Text.solid s.text :=
  if_neg (by simp [Span.isComment, Strip.kind_of_isCode h])

/-- A script is not blank if the stripped script is not. -/
theorem check_of_stripped (hscan : scan r.source = .ok spans)
    (h : (Text.trim (render (strip (fun _ => false) spans).1)).isEmpty = false) :
    r.check = .ok () := by
  obtain ⟨halternates, hne⟩ := alternates_of_scan hscan
  have hsame := Strip.flatMap_strip partedByBlanks_solid (fun s hs => s.solidText_of_isCode hs)
    (fun s hs => if_pos hs) halternates hne
  rw [Request.check, if_neg]
  rw [Text.isEmpty_trim, ← render_scan hscan]
  intro hall
  have hspans : spans.flatMap Span.solidText = [] := by
    refine List.flatMap_eq_nil_iff.2 fun s hs => ?_
    have htext : ∀ c ∈ s.text, Text.isBlank c = true := fun c hc =>
      List.all_eq_true.1 hall c (List.mem_flatMap.2 ⟨s, hs, hc⟩)
    have hsolid : Text.solid s.text = [] :=
      List.filter_eq_nil_iff.2 fun c hc => by simp [htext c hc]
    simp [Span.solidText, hsolid]
  have hstripped : Text.solid (render (strip (fun _ => false) spans).1) =
      (strip (fun _ => false) spans).1.flatMap Span.solidText := by
    have hcomments := isComment_of_mem_strip (fun _ => false) hscan
    rw [Text.solid, render, List.filter_flatMap]
    exact List.flatMap_congr fun s hs => (if_neg (by simp [hcomments s hs])).symm
  rw [hsame, hspans] at hstripped
  rw [Text.isEmpty_trim, ← Bool.not_eq_true, List.all_eq_true] at h
  refine h fun c hc => ?_
  simpa using List.filter_eq_nil_iff.1 hstripped c hc

/--
Both runs finish, with one output but for the time, and with the same counts but for the comments, of
which the second has none.
-/
def Rules.SameRuns (rules : Rules) (r r' : Request) (seed : Seed) (now now' : Instant) : Prop :=
  ∃ outcome outcome' stats script,
    rules.runWithSeed now r seed = .ok outcome ∧ rules.runWithSeed now' r' seed = .ok outcome' ∧
    outcome.output = (⟨r.preset, r.dialect, now⟩ : Banner).header ++ script ∧
    outcome'.output = (⟨r.preset, r.dialect, now'⟩ : Banner).header ++ script ∧
    outcome.metadata.stats = some stats ∧
    outcome'.metadata.stats = some { stats with commentsRemoved := 0 }

/-- Without patterns of debug statements a script and the stripped script have the same passes. -/
theorem veil_of_stripped (seed : Seed) (hdebug : rules.debugPatterns = [])
    (hscan : scan r.source = .ok spans)
    (hscan' : scan (render (strip (fun _ => false) spans).1) = .ok again)
    (hshape : (strip (fun _ => false) again).1.map Span.shape =
      (strip (fun _ => false) spans).1.map Span.shape)
    (hreport : (strip (fun _ => false) again).2 = ⟨0, 0⟩) :
    rules.mint again seed.source = rules.mint spans seed.source ∧
      Option.Rel (fun v v' : Veiled => v'.body = v.body ∧ v'.stubName = v.stubName ∧
          v'.declarations = v.declarations ∧ v'.stats = v.stats.withoutComments)
        (veil (r.preset.plan.passes rules) r.dialect spans (rules.mint spans seed.source)).1
        (veil (r.preset.plan.passes rules) r.dialect again (rules.mint spans seed.source)).1 := by
  have hnever : matchesAny rules.debugPatterns = fun _ => false := by
    rw [hdebug]
    rfl
  have halike := alike_of_shape hshape
  have hmint : rules.mint again seed.source = rules.mint spans seed.source := by
    rw [Rules.mint, Rules.mint, Namespace.ofSpans, Namespace.ofSpans,
      words_of_alike_strip hscan hscan' halike]
  let r' : Request := { r with source := render (strip (fun _ => false) spans).1 }
  exact ⟨hmint, @veil_of_alike_strip rules r r' seed.source spans again hscan hscan' rfl rfl
    (by rw [Rules.stripped, Rules.stripped, hnever]; exact halike)
    (by rw [hnever, hreport, Strip.strip_of_never fun _ => rfl]) hmint⟩

/--
A run of a stripped script does what the run of the script does. With no patterns of debug
statements both finish and do the same, at every preset but the strongest whatever the script is. At
the strongest preset they do unless the search for look-alike names outlasts its patience, and then
neither finds names for all variables. In particular stripping once more changes nothing and finds
nothing to remove, both for the spans of a script that was stripped with any patterns and for those
that a scan finds.
-/
theorem run_of_stripped {seed : Seed} {now now' : Instant} (hdebug : rules.debugPatterns = [])
    (hscan : scan r.source = .ok spans)
    (hblank : (Text.trim (render (strip (fun _ => false) spans).1)).isEmpty = false) :
    let r' : Request := { r with source := render (strip (fun _ => false) spans).1 }
    let outlasts := rules.Outlasts (64 * 354294) r seed.source spans
    (r.preset ≠ .strong → rules.SameRuns r r' seed now now') ∧
    (r.preset = .strong → ¬ outlasts → rules.SameRuns r r' seed now now') ∧
    (r.preset = .strong → outlasts → rules.runWithSeed now r seed = .error .namesExhausted ∧
      rules.runWithSeed now' r' seed = .error .namesExhausted) ∧
    ∀ isDebug : Text → Bool,
      let stripped := (strip isDebug spans).1
      (strip (fun _ => false) stripped).1.map Span.shape = stripped.map Span.shape ∧
      (strip (fun _ => false) stripped).2 = ⟨0, 0⟩ ∧
      ∃ again, scan (render stripped) = .ok again ∧
        render (strip (fun _ => false) again).1 = render stripped ∧
        (strip (fun _ => false) again).2 = ⟨0, 0⟩ := by
  intro r' outlasts
  obtain ⟨again, hscan', hshape, hreport, -⟩ := strip_scan_strip (fun _ => false) hscan
  obtain ⟨hmint, hveiled⟩ := veil_of_stripped seed hdebug hscan hscan' hshape hreport
  have hcheck := check_of_stripped hscan hblank
  have hcheck' : r'.check = .ok () := if_neg (by simp [r', hblank])
  have hrun' := @Rules.runWithSeed_of_scan rules r' again now' seed hscan'
  rw [hcheck', hmint] at hrun'
  have hsame : ¬ (r.preset = .strong ∧ outlasts) → rules.SameRuns r r' seed now now' := by
    intro hfound
    obtain ⟨hno, -⟩ | ⟨-, hstrong, hlong, -⟩ | ⟨-, -, v, hfinish, hrun⟩ :=
      @Rules.runWithSeed_ends rules r spans now seed hscan
    · cases hcheck.symm.trans hno
    · exact absurd ⟨hstrong, hlong⟩ hfound
    rw [hfinish.veiled] at hveiled
    generalize hright : (veil (r.preset.plan.passes rules) r.dialect again
      (rules.mint spans seed.source)).1 = right at hveiled
    have hright' : (veil (r'.preset.plan.passes rules) r'.dialect again
      (rules.mint spans seed.source)).1 = right := hright
    rw [hright'] at hrun'
    cases hveiled with
    | @some _ v' hv =>
    obtain ⟨hbody, hstub, hdeclarations, hstats⟩ := hv
    refine ⟨_, _, v.stats, Banner.stub v.body v.stubName ++
      (v.declarations.flatMap (· ++ ['\n']) ++ v.body), hrun, hrun', ?_, ?_, rfl, ?_⟩
    · show Banner.wrap _ v.declarations v.body v.stubName = _
      simp only [Banner.wrap, List.append_assoc]
    · show Banner.wrap _ v'.declarations v'.body v'.stubName = _
      rw [hbody, hstub, hdeclarations]
      simp only [Banner.wrap, List.append_assoc]
      rfl
    · show some v'.stats = _
      rw [hstats]
      rfl
  refine ⟨fun hpreset => hsame fun hlong => hpreset hlong.1, fun _ hfound => hsame fun hlong =>
    hfound hlong.2, fun hstrong hlong => ?_, fun isDebug => ?_⟩
  · have hnone := veil_eq_none_iff.2 ⟨hstrong, hlong⟩
    rw [hnone] at hveiled
    have hnone' : (veil (r'.preset.plan.passes rules) r'.dialect again
        (rules.mint spans seed.source)).1 = none := by
      generalize hright : (veil (r.preset.plan.passes rules) r.dialect again
        (rules.mint spans seed.source)).1 = right at hveiled
      cases hveiled
      rfl
    rw [hnone'] at hrun'
    have hrun := @Rules.runWithSeed_of_scan rules r spans now seed hscan
    rw [hcheck, hnone] at hrun
    exact ⟨hrun, hrun'⟩
  · obtain ⟨hshape, hreport⟩ := strip_strip isDebug hscan
    obtain ⟨again, hscan', hshape', hreport', -⟩ := strip_scan_strip isDebug hscan
    exact ⟨hshape, hreport, again, hscan', render_of_alike (alike_of_shape hshape'), hreport'⟩

end

/-- The script with a comment and the same script without it become one script. -/
theorem brief_of_stripped : ∃ outcome outcome' stats script,
    certainRules.runWithSeed ⟨0, 0⟩ brief (.ofNumber 1) = .ok outcome ∧
      certainRules.runWithSeed ⟨1, 0⟩ { brief with source := "local n = \"a\"\nprint(n)".toList }
        (.ofNumber 1) = .ok outcome' ∧
      outcome.output = (⟨.strong, .luau, ⟨0, 0⟩⟩ : Banner).header ++ script ∧
      outcome'.output = (⟨.strong, .luau, ⟨1, 0⟩⟩ : Banner).header ++ script ∧
      outcome.metadata.stats = some stats ∧
      outcome'.metadata.stats = some { stats with commentsRemoved := 0 } ∧
      stats.stringsExtracted = 1 ∧ stats.identifiersRenamed = 1 := by
  have hscan : scan brief.source = .ok briefSpans := by decide +kernel
  have hstripped : render (strip (fun _ => false) briefSpans).1 =
      "local n = \"a\"\nprint(n)".toList := by decide +kernel
  obtain ⟨v, hfinish, hstrings, hnames, -⟩ := exists_finishes_brief (Seed.ofNumber 1).source
  have hfound : ¬ certainRules.Outlasts (64 * 354294) brief (Seed.ofNumber 1).source briefSpans := by
    intro hlong
    have hnone := veil_eq_none_iff.2 ⟨rfl, hlong⟩
    rw [hfinish.veiled] at hnone
    cases hnone
  obtain ⟨outcome, outcome', stats, script, hrun, hrun', hout, hout', hstats, hstats'⟩ :=
    (@run_of_stripped certainRules brief briefSpans (.ofNumber 1) ⟨0, 0⟩ ⟨1, 0⟩ rfl hscan
      (by decide +kernel)).2.1 rfl hfound
  have hsame := hrun.symm.trans (Rules.runWithSeed_eq_ok_iff.2 ⟨briefSpans, v, hfinish, rfl⟩)
  obtain rfl : stats = v.stats := by
    rw [Except.ok.inj hsame] at hstats
    exact (Option.some.inj hstats).symm
  rw [← hstripped]
  exact ⟨outcome, outcome', v.stats, script, hrun, hrun', hout, hout', hstats, hstats', hstrings,
    hnames⟩

/-! ## Scripts with too many variables -/

/--
A script with more variables than there are look-alike names. At the strongest preset the search for
names for all of them never ends, so that no patience is enough.
-/
theorem Rules.runWithSeed_of_crowded {rules : Rules} {r : Request} {spans : List Span} (now : Instant)
    (seed : Seed) (hstrong : r.preset = .strong) (hcheck : r.check = .ok ())
    (hscan : scan r.source = .ok spans) :
    let declared :=
      (resolve rules.reserved (occurrences (rules.extracted r seed.source spans).2)).declared
    354294 < declared.length →
      (∀ k bindings m, ¬ Candidates.BindsAll .high 0 (rules.minted r seed.source spans) declared
        k bindings m) ∧
      rules.runWithSeed now r seed = .error .namesExhausted := by
  intro declared hmany
  have hlt : Candidates.lookAlikesLeft (rules.minted r seed.source spans).names <
      declared.length :=
    Nat.lt_of_le_of_lt (Candidates.lookAlikesLeft_le _) hmany
  refine ⟨fun k bindings m hrun => absurd hrun.length_le (Nat.not_le.2 hlt), ?_⟩
  have hnone := veil_eq_none_iff.2 ⟨hstrong, Candidates.outlasts_of_lt hlt (64 * 354294)⟩
  rw [runWithSeed_of_scan now seed hscan, hcheck, hnone]
  rfl

/-- Terminals with a space between neighbours are a layout if the last of them can end it. -/
theorem layout_joinWith {isBlank : Char → Bool} (hspace : isBlank ' ' = true) (ts : List Terminal)
    {last : Terminal} (hlast : last.EndsBefore []) :
    Layout isBlank (ts ++ [last]) (Text.joinWith [' '] ((ts ++ [last]).map Terminal.text)) := by
  induction ts with
  | nil =>
    have htext : Text.joinWith [' '] [last.text] = last.text ++ [] := by
      rw [joinWith_singleton, List.append_nil]
    rw [List.nil_append, List.map_singleton, htext]
    exact .next last .done hlast
  | cons t ts ih =>
    have hend := t.endsBefore_of_isLuaBlank (c := ' ') (by decide)
    cases ts with
    | nil =>
      rw [List.cons_append, List.map_cons, List.nil_append, List.map_singleton, joinWith_cons_cons]
      exact .next t (.space (.blank ' ' hspace) ih) (hend _)
    | cons u ts =>
      rw [List.cons_append, List.map_cons, List.cons_append, List.map_cons, joinWith_cons_cons]
      exact .next t (.space (.blank ' ' hspace) ih) (hend _)

/-- The terminals of a chunk of blocks are words and commas, and the last of them is a word. -/
theorem words_scopes (groups : List (Identifier × List Identifier)) :
    (∀ t ∈ (scopes groups).terminals, isWord t.text = true ∨ t.text = [',']) ∧
      (groups ≠ [] → ∃ init, (scopes groups).terminals = init ++ [.keyword "end"]) := by
  induction groups with
  | nil => exact ⟨nofun, fun hne => absurd rfl hne⟩
  | cons g more ih =>
    obtain ⟨n, ns⟩ := g
    obtain ⟨hwords, hlast⟩ := ih
    rw [terminals_scopes]
    constructor
    · have hnames : ∀ t ∈ commaNames n ns, isWord t.text = true ∨ t.text = [','] := by
        simp only [commaNames, List.mem_cons, List.mem_flatMap, List.not_mem_nil, or_false]
        rintro t (rfl | ⟨m, -, rfl | rfl⟩)
        · exact .inl n.isWord
        · exact .inr rfl
        · exact .inl m.isWord
      refine List.forall_mem_cons.2 ⟨.inl (by decide), List.forall_mem_cons.2 ⟨.inl (by decide),
        List.forall_mem_append.2 ⟨hnames, List.forall_mem_cons.2 ⟨.inl (by decide), hwords⟩⟩⟩⟩
    · intro _
      cases more with
      | nil =>
        exact ⟨.keyword "do" :: .keyword "local" :: commaNames n ns, by simp [scopes, Tree.terminals]⟩
      | cons g more =>
        obtain ⟨init, hinit⟩ := hlast (List.cons_ne_nil _ _)
        rw [hinit]
        exact ⟨.keyword "do" :: .keyword "local" :: (commaNames n ns ++ .keyword "end" :: init),
          by simp⟩

/-- In words and commas there are no blanks, and nothing opens. -/
theorem isSolid_of_isWord {t : Text} (h : isWord t = true ∨ t = [',']) :
    Strip.IsSolid t ∧ ∀ c ∈ t, isInert c = true := by
  rcases h with hword | rfl
  · have hchars := isWordChar_of_mem hword
    refine ⟨⟨fun hnil => by simp [hnil, isWord] at hword, fun c hc => ?_⟩, fun c hc =>
      isInert_of_isWordChar (hchars c hc)⟩
    refine Bool.eq_false_iff.2 fun hblank => ?_
    obtain ⟨-, hplain, -⟩ := plain_of_separates (separates_of_isBlank hblank)
    rw [hchars c hc] at hplain
    cases hplain
  · exact ⟨⟨List.cons_ne_nil _ _, List.forall_mem_singleton.2 (by decide)⟩,
      List.forall_mem_singleton.2 (by decide)⟩

/-- A text that begins with no blank is not blank. -/
theorem isEmpty_trim_of_head? {t : Text} (hne : t ≠ [])
    (hhead : ∀ c, t.head? = some c → Text.isBlank c = false) : (Text.trim t).isEmpty = false := by
  obtain ⟨c, rest, rfl⟩ := List.exists_cons_of_ne_nil hne
  rw [Text.isEmpty_trim, List.all_cons, hhead c rfl, Bool.false_and]

/-- A line of words and commas with single spaces between them is one span of code, and tidy. -/
theorem stripped_joinWith {texts : List Text} (hne : texts ≠ [])
    (h : ∀ t ∈ texts, isWord t = true ∨ t = [',']) :
    let line := Text.joinWith [' '] texts
    let spans : List Span := [⟨.code, line, 0, 0 + Text.byteSize line⟩]
    scan line = .ok spans ∧ (strip (fun _ => false) spans).1 = spans ∧
      (Text.trim line).isEmpty = false := by
  intro line spans
  obtain ⟨hline, hsqueezed, hhead, hlast⟩ :=
    Strip.isSqueezed_joinWith hne fun t ht => (isSolid_of_isWord (h t ht)).1
  have hchars : ∀ c ∈ line, c = ' ' ∨ ∃ t ∈ texts, c ∈ t := fun c hc =>
    (of_mem_joinWith hc).imp_left List.mem_singleton.1
  have hinert : ∀ c ∈ line, isInert c = true := by
    intro c hc
    obtain rfl | ⟨t, ht, hc⟩ := hchars c hc
    · decide
    · exact (isSolid_of_isWord (h t ht)).2 c hc
  have hfeed : '\n' ∉ line := by
    intro hc
    obtain hspace | ⟨t, ht, hc⟩ := hchars _ hc
    · exact absurd hspace (by decide)
    · exact absurd ((isSolid_of_isWord (h t ht)).1.2 _ hc) (by decide)
  have htidy : Strip.IsTidy spans :=
    ⟨List.cons_ne_nil _ _, List.forall_mem_singleton.2 hline,
      fun s hs _ => by cases hs; exact hhead, fun s hs _ => by cases hs; exact hlast⟩
  refine ⟨?_, Strip.strip_line rfl hfeed htidy hsqueezed, isEmpty_trim_of_head? hline hhead⟩
  rw [scan_of_staysCode (staysCode_of_isInert hinert []), codeSpans, if_neg (by simpa using hline)]

/-- A chunk of blocks on one line is what stripping leaves of it, and its tokens are its terminals. -/
theorem spells_line {groups : List (Identifier × List Identifier)} (hne : groups ≠ []) :
    let line := Text.joinWith [' '] ((scopes groups).terminals.map Terminal.text)
    ∃ spans, scan line = .ok spans ∧ (strip (fun _ => false) spans).1 = spans ∧
      (Text.trim line).isEmpty = false ∧ (∀ s ∈ spans, s.isCode = true) ∧
      Spells (occurrences spans) (scopes groups).terminals := by
  intro line
  obtain ⟨hwords, hinit⟩ := words_scopes groups
  obtain ⟨init, hinit⟩ := hinit hne
  obtain ⟨hscan, hstrip, hblank⟩ := @stripped_joinWith ((scopes groups).terminals.map Terminal.text)
    (by simp [hinit]) (List.forall_mem_map.2 hwords)
  have hlayout : Layout Text.isSeparator (scopes groups).terminals line := by
    show Layout Text.isSeparator _ (Text.joinWith [' '] _)
    rw [hinit]
    exact layout_joinWith (by decide) init fun c hc => by cases hc
  obtain ⟨spans, hscan', hspells⟩ := spells_of_layout hlayout
  obtain rfl := Except.ok.inj (hscan.symm.trans hscan')
  exact ⟨_, hscan, hstrip, hblank, List.forall_mem_singleton.2 rfl, hspells⟩

/--
A stripped script of one line with more local variables than there are look-alike names. It is what
stripping leaves of it, and at the strongest preset no seed and no patience find names for all
variables.
-/
theorem crowded_line_never_named :
    let source := Text.joinWith [' '] ((scopes crowd).terminals.map Terminal.text)
    let r : Request := ⟨source, .luau, .strong⟩
    ∃ spans, scan source = .ok spans ∧ render (strip (fun _ => false) spans).1 = source ∧
      (Text.trim source).isEmpty = false ∧
      ∀ (rules : Rules) (now : Instant) (seed : Seed), rules.reserved = .default →
        rules.debugPatterns = [] →
        (∀ k bindings m, ¬ Candidates.BindsAll .high 0 (rules.minted r seed.source spans)
          (resolve .default (occurrences (rules.extracted r seed.source spans).2)).declared k
            bindings m) ∧
        rules.runWithSeed now r seed = .error .namesExhausted := by
  intro source
  obtain ⟨spans, hscan, hstrip, hblank, hcode, hspells⟩ : ∃ spans, scan source = .ok spans ∧
      (strip (fun _ => false) spans).1 = spans ∧ (Text.trim source).isEmpty = false ∧
      (∀ s ∈ spans, s.isCode = true) ∧ Spells (occurrences spans) (scopes crowd).terminals :=
    spells_line (List.ne_nil_of_length_pos (by simp [crowd]))
  have hmany := le_length_declared_crowd hspells
  clear_value source
  refine ⟨spans, hscan, ?_, hblank, fun rules now seed hreserved hdebug => ?_⟩
  · rw [hstrip]
    exact render_scan hscan
  let r : Request := ⟨source, .luau, .strong⟩
  have hstripped : rules.stripped spans = spans := by
    rw [Rules.stripped, hdebug]
    exact hstrip
  have hprepared : IsPrepared source (rules.stripped spans) := ⟨spans, hscan, .inr ⟨_, rfl⟩⟩
  have htokens : occurrences (rules.extracted r seed.source spans).2 = occurrences spans := by
    refine (occurrences_extractStrings_of_no_constants hprepared _ _ _ fun s hs => ?_).trans
      (congrArg occurrences hstripped)
    rw [hstripped] at hs
    simp [Span.isConstant, Strip.kind_of_isCode (hcode s hs)]
  have hfails := @Rules.runWithSeed_of_crowded rules r spans now seed rfl (if_neg (by simp [r, hblank]))
    hscan
  rw [htokens, hreserved] at hfails
  rw [htokens]
  exact hfails (by omega)

end LuaVeil
