/-
# What a run does not depend on

What comments say and what literals stand for does not show in what a run makes of a
script: another script with other comments and literals in their places takes the same
words from the seed, gets the same names and keys, and becomes the same script. Only
the declarations of the tables differ.

Main statements:

* `run_alike` and `runAll_alike`, passes after extraction do the same to alike scripts;
* `extracted_alike`, before them such scripts become alike, with tables that are alike;
* `run_independent`, so runs differ in the declarations of their tables only.
-/
import LuaVeil.Proofs.Job.Endings
import LuaVeil.Proofs.Veil.Alike

namespace LuaVeil

/-! ## Passes after extraction -/

/-- Whether two scripts under work are alike, with `d` and `d'` as declarations of their tables. -/
structure Work.Alike (d d' : Text) (w w' : Work) : Prop where
  spans : SpansAlike false w.spans w'.spans
  stats_eq : w'.stats = w.stats
  declarations : ∃ more, w.declarations = d :: more ∧ w'.declarations = d' :: more

namespace Pass

/-- Whether a pass comes after stripping and extraction. -/
def ComesLater : Pass → Prop
  | strip _ => False
  | strings _ => False
  | _ => True

variable {d d' : Text} {w w' : Work}

/-- A pass after extraction does the same to alike scripts, and takes the same from the mint. -/
theorem run_alike {p : Pass} (hp : p.ComesLater) (h : w.Alike d d' w') (m : Mint) :
    Option.Rel (fun out out' => out.1.Alike d d' out'.1) (p.run w m).1 (p.run w' m).1 ∧
      (p.run w' m).2 = (p.run w m).2 ∧ p.uses w' m = p.uses w m := by
  cases p with
  | strip _ => exact hp.elim
  | strings _ => exact hp.elim
  | rename strength =>
    obtain ⟨hrel, hmint⟩ := alike_renameLocals strength h.spans m
    simp only [uses]
    rw [run_rename, run_rename]
    generalize (renameLocals strength w.spans m).1 = out at hrel ⊢
    generalize (renameLocals strength w'.spans m).1 = out' at hrel ⊢
    cases hrel with
    | none => exact ⟨.none, hmint, rfl⟩
    | some hout =>
      obtain ⟨hspans, hbindings⟩ := hout
      refine ⟨.some ⟨hspans, ?_, h.declarations⟩, hmint, ?_⟩
      · dsimp only
        rw [h.stats_eq, hbindings]
      · dsimp only
        rw [hbindings]
  | guards chance =>
    obtain ⟨more, hmore, hmore'⟩ := h.declarations
    rw [run_guards, run_guards, uses, uses]
    generalize OpaquePredicate.choose m = predicate
    obtain ⟨hspans, hcount, hsource⟩ := alike_guardLines chance predicate.1 h.spans
      predicate.2.source
    dsimp only
    generalize guardLines chance predicate.1 w.spans predicate.2.source = out at hspans hcount hsource ⊢
    generalize guardLines chance predicate.1 w'.spans predicate.2.source = out' at hspans hcount hsource ⊢
    refine ⟨.some ⟨hspans, ?_, ?_⟩, congrArg (Mint.mk _) hsource, rfl⟩
    · dsimp only
      rw [h.stats_eq, hcount]
    · dsimp only
      rw [hcount, hmore, hmore']
      split
      · exact ⟨more, rfl, rfl⟩
      · exact ⟨_, rfl, rfl⟩
  | decoys chance templates =>
    obtain ⟨hspans, hcount, hmint⟩ := alike_injectDecoys chance templates h.spans m
    rw [run_decoys, run_decoys, uses, uses, decisions_of_alike chance templates h.spans]
    generalize injectDecoys chance templates w.spans m = out at hspans hcount hmint ⊢
    generalize injectDecoys chance templates w'.spans m = out' at hspans hcount hmint ⊢
    refine ⟨.some ⟨hspans, ?_, h.declarations⟩, hmint, rfl⟩
    dsimp only
    rw [h.stats_eq, hcount]

/-- Passes after extraction do the same to alike scripts, and take the same from the mint. -/
theorem runAll_alike {passes : List Pass} (hp : ∀ p ∈ passes, p.ComesLater)
    (h : w.Alike d d' w') (m : Mint) :
    Option.Rel (Work.Alike d d') (runAll w passes m).1 (runAll w' passes m).1 ∧
      (runAll w' passes m).2 = (runAll w passes m).2 ∧
      usesAll w' m passes = usesAll w m passes := by
  induction passes generalizing w w' m with
  | nil => exact ⟨.some h, rfl, rfl⟩
  | cons p passes ih =>
    obtain ⟨hfirst, hmore⟩ := List.forall_mem_cons.1 hp
    obtain ⟨hrel, hmint, huses⟩ := run_alike hfirst h m
    rw [runAll, runAll, Minting.bind_apply, Minting.bind_apply, usesAll, usesAll, hmint, huses]
    generalize (p.run w m).1 = out at hrel ⊢
    generalize (p.run w' m).1 = out' at hrel ⊢
    cases hrel with
    | none => exact ⟨.none, rfl, rfl⟩
    | some hout =>
      obtain ⟨hlater, hlast, hall⟩ := ih hmore hout (p.run w m).2
      refine ⟨hlater, hlast, ?_⟩
      dsimp only
      rw [hall]

end Pass

/-- All passes of a plan but the first two come after extraction. -/
theorem Plan.exists_later (p : Plan) (rules : Rules) :
    ∃ later, p.passes rules =
        [.strip (matchesAny rules.debugPatterns), .strings p.hideStrings] ++ later ∧
      ∀ pass ∈ later, pass.ComesLater := by
  obtain ⟨last, hpasses, hlast⟩ := p.exists_last rules
  refine ⟨_, hpasses, fun pass hpass => ?_⟩
  rcases List.mem_append.1 hpass with hpass | hpass
  · obtain ⟨_, -, rfl⟩ := List.mem_map.1 hpass
    trivial
  · rcases hlast pass hpass with rfl | rfl <;> trivial

/-! ## Scripts with other comments and literals -/

/-- Whether a span may take the place of another: it is of the same kind, and has the same text
unless both are comments or constants. -/
structure Span.Resembles (s s' : Span) : Prop where
  kind_eq : s'.kind = s.kind
  code : s.kind = .code → s'.text = s.text
  string : s.kind = .string → s'.text = s.text ∨ s.isConstant = true ∧ s'.isConstant = true

section

variable {source source' : Text} {spans spans' : List Span} {s s' : Span}

theorem isLiteral_of_isConstant (hscan : scan source = .ok spans) (hs : s ∈ spans)
    (h : s.isConstant = true) : s.isLiteral = true := by
  obtain ⟨hkind, hhead⟩ := Bool.and_eq_true_iff.1 h
  have hliteral := (isStringLiteral_of_mem_scan hscan hs (by simpa using hkind)).resolve_right
    fun htick => by
      rw [htick] at hhead
      cases hhead
  obtain ⟨l, hread, -⟩ := exists_literal_of_isStringLiteral hliteral
  rw [Span.isLiteral, hread, hkind]
  rfl

theorem words_of_resembles (h : s.Resembles s') : s'.words = s.words := by
  rw [Span.words, Span.words, h.kind_eq]
  cases hkind : s.kind with
  | code => rw [h.code hkind]
  | comment => rfl
  | string =>
    rcases h.string hkind with htext | ⟨hs, hs'⟩
    · rw [htext]
    · have hnone : ∀ {t : Span}, t.isConstant = true → holes t.text = [] := by
        intro t ht
        exact holes_of_head? (by simpa using (Bool.and_eq_true_iff.1 ht).2)
      rw [hnone hs, hnone hs']

/-- Such scripts are alike without their comments. -/
theorem alike_of_resembles (hscan : scan source = .ok spans) (hscan' : scan source' = .ok spans')
    (h : List.Forall₂ Span.Resembles spans spans') :
    SpansAlike true (spans.map Strip.blankComment) (spans'.map Strip.blankComment) := by
  have hmem := (List.forall₂_and_left _ _).2 ⟨fun s hs => hs, h⟩
  have hmem' := ((List.forall₂_and_left _ _).2 ⟨fun s' hs' => hs', hmem.flip⟩).flip
  refine List.forall₂_map_left_iff.2 (List.forall₂_map_right_iff.2 (hmem'.imp fun s s' hs => ?_))
  obtain ⟨hs', hs, hresembles⟩ := hs
  have hcomment : s'.isComment = s.isComment := by
    rw [Span.isComment, Span.isComment, hresembles.kind_eq]
  rw [Strip.blankComment, Strip.blankComment, hcomment]
  split
  · exact .of_eq rfl rfl
  · next hno =>
    refine ⟨hresembles.kind_eq, ?_⟩
    cases hkind : s.kind with
    | code => exact .inl (hresembles.code hkind)
    | comment => exact absurd (by rw [Span.isComment, hkind]; rfl) hno
    | string =>
      exact (hresembles.string hkind).imp_right fun hconstants =>
        ⟨rfl, isLiteral_of_isConstant hscan hs hconstants.1,
          isLiteral_of_isConstant hscan' hs' hconstants.2⟩

/-! ### Blank scripts -/

theorem Text.isEmpty_trim (t : Text) : (Text.trim t).isEmpty = t.all Text.isBlank := by
  rw [Bool.eq_iff_iff, List.isEmpty_iff, List.all_eq_true, Text.trim, Text.trimEnd,
    List.reverse_eq_nil_iff, List.dropWhile_eq_nil_iff]
  constructor
  · intro h c hc
    by_contra hblank
    have hne : Text.trimStart t ≠ [] := fun hnil =>
      hblank (List.dropWhile_eq_nil_iff.1 hnil c hc)
    have hhead := List.head_dropWhile_not Text.isBlank hne
    exact Bool.false_ne_true (hhead.symm.trans (h _ (List.mem_reverse.2 (List.head_mem hne))))
  · intro h c hc
    exact h c (List.dropWhile_subset _ (List.mem_reverse.1 hc))

/-- A string or comment does not begin with a blank. -/
theorem Closed.not_blank {t rest : Text} (h : Closed t rest) : t.all Text.isBlank = false := by
  cases h with
  | quote hmark =>
    rcases cases_of_isQuote hmark with rfl | rfl | rfl <;> rfl
  | long => rfl
  | blockComment => rfl
  | lineComment => rfl

theorem exists_reads (h : Rescans spans) (hs : s ∈ spans) : ∃ rest, s.Reads rest := by
  induction spans with
  | nil => cases hs
  | cons t spans ih =>
    rcases List.mem_cons.1 hs with rfl | hs
    · exact ⟨_, h.1⟩
    · exact ih h.2 hs

/-- Such scripts are both blank, or neither is. -/
theorem check_of_resembles {r r' : Request} (hscan : scan r.source = .ok spans)
    (hscan' : scan r'.source = .ok spans') (h : List.Forall₂ Span.Resembles spans spans') :
    r'.check = r.check := by
  have hsolid : ∀ {source spans}, scan source = .ok spans → ∀ s ∈ spans, s.isCode = false →
      s.text.all Text.isBlank = false := by
    intro source spans hscan s hs hcode
    obtain ⟨rest, hreads⟩ := exists_reads (rescans_of_scan hscan) hs
    rw [Span.Reads, if_neg (by simp [hcode])] at hreads
    exact hreads.1.not_blank
  have hrender : ∀ spans : List Span, (render spans).all Text.isBlank =
      spans.all fun s => s.text.all Text.isBlank := fun spans => List.all_flatMap
  have hblank : r'.source.all Text.isBlank = r.source.all Text.isBlank := by
    rw [← render_scan hscan, ← render_scan hscan', hrender, hrender]
    have hsame : List.Forall₂ (fun s s' : Span => s.text.all Text.isBlank = s'.text.all Text.isBlank)
        spans spans' := by
      have hmem := (List.forall₂_and_left _ _).2 ⟨fun s hs => hs, h⟩
      have hmem' := ((List.forall₂_and_left _ _).2 ⟨fun s' hs' => hs', hmem.flip⟩).flip
      refine hmem'.imp fun s s' hs => ?_
      obtain ⟨hs', hs, hresembles⟩ := hs
      cases hcode : s.isCode with
      | true => rw [hresembles.code (Strip.kind_of_isCode hcode)]
      | false =>
        have hcode' : s'.isCode = false := by rw [Span.isCode, hresembles.kind_eq]; exact hcode
        rw [hsolid hscan s hs hcode, hsolid hscan' s' hs' hcode']
    clear hscan hscan' h
    induction hsame with
    | nil => rfl
    | cons hs _ ih => rw [List.all_cons, List.all_cons, hs, ih]
  rw [Request.check, Request.check, Text.isEmpty_trim, Text.isEmpty_trim, hblank]

end

/-! ## Runs -/

section

variable {rules : Rules} {r r' : Request} {source : Source} {spans spans' : List Span}

theorem StringTable.Alike.uses_eq {t t' : StringTable} (h : t.Alike t') : t'.uses = t.uses := by
  rw [StringTable.uses, StringTable.uses, h.name_eq, h.decoder_eq]

theorem StringTable.Alike.keys_eq {t t' : StringTable} (h : t.Alike t') :
    t'.entries.map TableEntry.key = t.entries.map TableEntry.key := by
  rw [← List.forall₂_eq_eq_eq, List.forall₂_map_left_iff, List.forall₂_map_right_iff]
  exact (h.entries.imp fun _ _ he => he.key_eq).flip

/-- Extraction makes one script of both. -/
theorem extracted_alike (hdebug : rules.debugPatterns = []) (hpreset : r'.preset = r.preset)
    (hdialect : r'.dialect = r.dialect) (hscan : scan r.source = .ok spans)
    (hscan' : scan r'.source = .ok spans') (h : List.Forall₂ Span.Resembles spans spans') :
    (strip (matchesAny rules.debugPatterns) spans').2 =
        (strip (matchesAny rules.debugPatterns) spans).2 ∧
      rules.mint spans' source = rules.mint spans source ∧
      let out := extractStrings r.preset.plan.hideStrings r.dialect (rules.stripped spans)
        (rules.mint spans source)
      let out' := extractStrings r'.preset.plan.hideStrings r'.dialect (rules.stripped spans')
        (rules.mint spans' source)
      out.1.1.Alike out'.1.1 ∧ SpansAlike false out.1.2 out'.1.2 ∧ out'.2 = out.2 := by
  have hnever : ∀ t, matchesAny rules.debugPatterns t = false := by
    intro t
    rw [hdebug]
    rfl
  have hkinds : spans'.map Span.kind = spans.map Span.kind := by
    rw [← List.forall₂_eq_eq_eq, List.forall₂_map_left_iff, List.forall₂_map_right_iff]
    exact (h.imp fun _ _ hs => hs.kind_eq).flip
  obtain ⟨hstripped, hreport⟩ := alike_strip hnever hkinds (alike_of_resembles hscan hscan' h)
  have hwords : spans'.flatMap Span.words = spans.flatMap Span.words := by
    clear hscan hscan' hkinds hstripped hreport
    induction h with
    | nil => rfl
    | cons hs _ ih => rw [List.flatMap_cons, List.flatMap_cons, words_of_resembles hs, ih]
  have hmint : rules.mint spans' source = rules.mint spans source := by
    rw [Rules.mint, Rules.mint, Namespace.ofSpans, Namespace.ofSpans, hwords]
  rw [hmint, hpreset, hdialect]
  exact ⟨hreport, rfl, alike_extractStrings _ _ hstripped _⟩

/-- Whether two runs leave the same, with `d` and `d'` as declarations of their tables. -/
structure Veiled.Alike (d d' : Text) (v v' : Veiled) : Prop where
  body_eq : v'.body = v.body
  stubName_eq : v'.stubName = v.stubName
  stats_eq : v'.stats = v.stats
  declarations : ∃ more, v.declarations = d :: more ∧ v'.declarations = d' :: more

/-- Both runs leave the same, or there are not names enough for either. -/
theorem veil_alike (hdebug : rules.debugPatterns = []) (hpreset : r'.preset = r.preset)
    (hdialect : r'.dialect = r.dialect) (hscan : scan r.source = .ok spans)
    (hscan' : scan r'.source = .ok spans') (h : List.Forall₂ Span.Resembles spans spans') :
    let passes := r.preset.plan.passes rules
    Option.Rel (Veiled.Alike (rules.extracted r source spans).1.declaration
        (rules.extracted r' source spans').1.declaration)
      (veil passes r.dialect spans (rules.mint spans source)).1
      (veil passes r'.dialect spans' (rules.mint spans' source)).1 ∧
    Pass.usesAll (.start spans' r'.dialect) (rules.mint spans' source) passes =
      Pass.usesAll (.start spans r.dialect) (rules.mint spans source) passes := by
  obtain ⟨hreport, hmint, htable, hspans, hafter⟩ :=
    @extracted_alike rules r r' source spans spans' hdebug hpreset hdialect hscan hscan' h
  rw [hpreset, hdialect, hmint] at htable hspans hafter
  intro passes
  let isDebug := matchesAny rules.debugPatterns
  let hide := r.preset.plan.hideStrings
  let m := rules.mint spans source
  obtain ⟨later, hpasses, hlater⟩ : ∃ later, passes = [.strip isDebug, .strings hide] ++ later ∧
      ∀ p ∈ later, p.ComesLater := Plan.exists_later r.preset.plan rules
  obtain ⟨hstart, huses⟩ := runAll_start isDebug hide r.dialect spans later m
  obtain ⟨hstart', huses'⟩ := runAll_start isDebug hide r.dialect spans' later m
  let work (spans : List Span) : Work :=
    let report := (strip isDebug spans).2
    let out := extractStrings hide r.dialect (rules.stripped spans) m
    ⟨out.1.2, r.dialect, [out.1.1.declaration],
      ⟨0 + out.1.1.entries.length, 0, 0, 0, 0 + report.comments, 0 + report.debugLines⟩⟩
  have hwork : (work spans).Alike (rules.extracted r source spans).1.declaration
      (rules.extracted r' source spans').1.declaration (work spans') := by
    refine ⟨hspans, ?_, [], rfl, ?_⟩
    · simp only [work]
      rw [hreport, htable.entries.length_eq]
    · rw [Rules.extracted, hpreset, hdialect, hmint]
  let after := (extractStrings hide r.dialect (rules.stripped spans) m).2
  obtain ⟨hrel, hlast, hall⟩ := Pass.runAll_alike hlater hwork after
  have hrun : Pass.runAll (.start spans r.dialect) passes m =
      Pass.runAll (work spans) later after := by
    rw [hpasses]
    exact hstart
  have hrun' : Pass.runAll (.start spans' r.dialect) passes m =
      Pass.runAll (work spans') later after := by
    rw [hpasses]
    exact hstart'.trans (congrArg (Pass.runAll (work spans') later) hafter)
  rw [hmint, hdialect]
  constructor
  · rw [veil_fst, veil_fst, hrun, hrun', hlast]
    generalize (Pass.runAll (work spans) later after).1 = left at hrel ⊢
    generalize (Pass.runAll (work spans') later after).1 = right at hrel ⊢
    cases hrel with
    | none => exact .none
    | some hw => exact .some ⟨render_of_alike hw.spans, rfl, hw.stats_eq, hw.declarations⟩
  · have hnames : (extractStrings hide r.dialect (rules.stripped spans') m).1.1.uses =
        (extractStrings hide r.dialect (rules.stripped spans) m).1.1.uses := htable.uses_eq
    rw [hpasses]
    refine huses'.trans (Eq.trans ?_ huses.symm)
    exact congrArg₂ (· ++ ·) hnames
      ((congrArg (fun m => Pass.usesAll (work spans') m later) hafter).trans hall)

/--
Runs of two scripts that differ in what comments say and what literals stand for. Without patterns of
debug statements both scripts are blank and refused, or both searches for look-alike names outlast
their patience, which only happens at the strongest preset; otherwise both runs finish, with one body,
one stub, the same names, keys and counts, and the same declarations after those of the tables. The
outputs have the declaration of the table of each in the same place, and are otherwise the same but
for the time.
-/
theorem run_independent {now now' : Instant} {seed : Seed} (hdebug : rules.debugPatterns = [])
    (hpreset : r'.preset = r.preset) (hdialect : r'.dialect = r.dialect)
    (hscan : scan r.source = .ok spans) (hscan' : scan r'.source = .ok spans')
    (h : List.Forall₂ Span.Resembles spans spans') :
    let table := (rules.extracted r seed.source spans).1
    let table' := (rules.extracted r' seed.source spans').1
    let outlasts := r.preset = .strong ∧ rules.Outlasts (64 * 354294) r seed.source spans
    table.Alike table' ∧ r'.check = r.check ∧
      (r.check = .error .blankSource ∧
          rules.runWithSeed now r seed = .error (.request .blankSource) ∧
          rules.runWithSeed now' r' seed = .error (.request .blankSource) ∨
        r.check = .ok () ∧ outlasts ∧ rules.runWithSeed now r seed = .error .namesExhausted ∧
          rules.runWithSeed now' r' seed = .error .namesExhausted ∨
        r.check = .ok () ∧ ¬ outlasts ∧ ∃ v v' outcome outcome' more,
          rules.Finishes r seed.source spans v ∧ rules.Finishes r' seed.source spans' v' ∧
          rules.runWithSeed now r seed = .ok outcome ∧
          rules.runWithSeed now' r' seed = .ok outcome' ∧
          v'.body = v.body ∧ v'.stubName = v.stubName ∧ v'.stats = v.stats ∧
          outcome.metadata.stats = some v.stats ∧ outcome'.metadata.stats = some v'.stats ∧
          rules.uses r' seed.source spans' v' = rules.uses r seed.source spans v ∧
          v.declarations = table.declaration :: more ∧
          v'.declarations = table'.declaration :: more ∧
          let stub := Banner.stub v.body v.stubName
          let rest := '\n' :: (more.flatMap (· ++ ['\n']) ++ v.body)
          outcome.output = (⟨r.preset, r.dialect, now⟩ : Banner).header ++
            (stub ++ (table.declaration ++ rest)) ∧
          outcome'.output = (⟨r.preset, r.dialect, now'⟩ : Banner).header ++
            (stub ++ (table'.declaration ++ rest))) := by
  intro table table' outlasts
  obtain ⟨-, -, htable, -⟩ :=
    @extracted_alike rules r r' seed.source spans spans' hdebug hpreset hdialect hscan hscan' h
  obtain ⟨hveiled, huses⟩ :=
    @veil_alike rules r r' seed.source spans spans' hdebug hpreset hdialect hscan hscan' h
  have hcheck := check_of_resembles hscan hscan' h
  have hrun' := @Rules.runWithSeed_of_scan rules r' spans' now' seed hscan'
  rw [hpreset, hdialect, hcheck] at hrun'
  rw [hdialect] at hveiled huses
  refine ⟨htable, hcheck, ?_⟩
  obtain ⟨hblank, hrun⟩ | ⟨hok, hstrong, hlong, hrun⟩ | ⟨hok, hfound, v, hfinish, hrun⟩ :=
    @Rules.runWithSeed_ends rules r spans now seed hscan
  · rw [hblank] at hrun'
    exact .inl ⟨hblank, hrun, hrun'⟩
  · rw [hok] at hrun'
    rw [veil_eq_none_iff.2 ⟨hstrong, hlong⟩] at hveiled
    generalize (veil (r.preset.plan.passes rules) r.dialect spans'
      (rules.mint spans' seed.source)).1 = right at hveiled hrun'
    cases hveiled
    exact .inr (.inl ⟨hok, ⟨hstrong, hlong⟩, hrun, hrun'⟩)
  · rw [hok] at hrun'
    rw [hfinish.veiled] at hveiled
    generalize hright : (veil (r.preset.plan.passes rules) r.dialect spans'
      (rules.mint spans' seed.source)).1 = right at hveiled hrun'
    cases hveiled with
    | @some _ v' hv =>
    obtain ⟨more, hmore, hmore'⟩ := hv.declarations
    have hfinish' : rules.Finishes r' seed.source spans' v' :=
      ⟨hcheck.trans hok, hscan', by rw [hpreset, hdialect]; exact hright⟩
    have hwrap : ∀ (b : Banner) (d body name : Text),
        b.wrap (d :: more) body name = b.header ++ (Banner.stub body name ++
          (d ++ '\n' :: (more.flatMap (· ++ ['\n']) ++ body))) := by
      intro b d body name
      rw [Banner.wrap, List.flatMap_cons]
      simp only [List.append_assoc, List.cons_append, List.nil_append]
    refine .inr (.inr ⟨hok, fun hlong => hfound hlong.1 hlong.2, v, v', _, _, more, hfinish, hfinish',
      hrun, hrun', hv.body_eq, hv.stubName_eq, hv.stats_eq, rfl, rfl, ?_, hmore, hmore', ?_, ?_⟩)
    · rw [Rules.uses, Rules.uses, hpreset, hdialect, huses, hv.stubName_eq]
    · show Banner.wrap _ v.declarations v.body v.stubName = _
      rw [hmore]
      exact hwrap _ _ _ _
    · show Banner.wrap _ v'.declarations v'.body v'.stubName = _
      rw [hmore', hv.body_eq, hv.stubName_eq]
      exact hwrap _ _ _ _

end

/-- A script with a literal, a comment and a variable. -/
def brief : Request :=
  ⟨"local n = \"a\" -- one\nprint(n)\n".toList, .luau, .strong⟩

/-- The spans of the script. -/
def briefSpans : List Span :=
  [⟨.code, "local n = ".toList, 0, 10⟩, ⟨.string, "\"a\"".toList, 10, 13⟩,
    ⟨.code, " ".toList, 13, 14⟩, ⟨.comment, "-- one".toList, 14, 20⟩,
    ⟨.code, "\nprint(n)\n".toList, 20, 30⟩]

/-- The script with another literal and another comment, each of two lines. -/
def wordy : Request :=
  ⟨"local n = [[b\nc]] --[[one\nmore]]\nprint(n)\n".toList, .luau, .strong⟩

/-- The spans of the script. -/
def wordySpans : List Span :=
  [⟨.code, "local n = ".toList, 0, 10⟩, ⟨.string, "[[b\nc]]".toList, 10, 17⟩,
    ⟨.code, " ".toList, 17, 18⟩, ⟨.comment, "--[[one\nmore]]".toList, 18, 32⟩,
    ⟨.code, "\nprint(n)\n".toList, 32, 42⟩]

/-- A run of the script finishes, with one constant, one variable and a predicate. -/
theorem exists_finishes_brief (source : Source) :
    ∃ v, certainRules.Finishes brief source briefSpans v ∧ v.stats.stringsExtracted = 1 ∧
      v.stats.identifiersRenamed = 1 ∧
      ∃ name, (.predicate, name) ∈ certainRules.uses brief source briefSpans v := by
  have hscan : scan brief.source = .ok briefSpans := by decide +kernel
  have hspares : ScopeState.everywhere certainRules.reserved
      (sparesConstants (certainRules.stripped briefSpans) certainRules.reserved) .initial
      (.start (occurrences (certainRules.stripped briefSpans))) = true := by decide +kernel
  have hone : (resolve certainRules.reserved
      (occurrences (certainRules.stripped briefSpans))).declared = [['n']] := by decide +kernel
  have hplain : ((certainRules.reserved.names ++ briefSpans.flatMap Span.words).all fun w =>
      !w.all ['l', 'I', '1'].contains) = true := by decide +kernel
  obtain ⟨v, hfinish, hstrings, hnames⟩ := @Rules.exists_finishes_of_one_variable certainRules brief
    source briefSpans (by decide +kernel) hscan hspares _ hone fun w hw =>
      Candidates.not_mem_lookAlikeNames (by simpa using List.all_eq_true.1 hplain w hw)
  have hconstants : ((certainRules.stripped briefSpans).filter Span.isConstant).length = 1 := by
    decide +kernel
  exact ⟨v, hfinish, hstrings.trans hconstants, hnames, hfinish.exists_predicate rfl⟩

/-- The scripts become the same, with one name for the tables. -/
theorem wordy_alike : ∃ v v' outcome outcome',
    certainRules.runWithSeed ⟨0, 0⟩ brief (.ofNumber 1) = .ok outcome ∧
      certainRules.runWithSeed ⟨1, 0⟩ wordy (.ofNumber 1) = .ok outcome' ∧
      certainRules.Finishes brief (Seed.ofNumber 1).source briefSpans v ∧
      certainRules.Finishes wordy (Seed.ofNumber 1).source wordySpans v' ∧
      v'.body = v.body ∧ v'.stubName = v.stubName ∧ v'.stats = v.stats ∧
      v.stats.stringsExtracted = 1 ∧ v.stats.identifiersRenamed = 1 ∧
      certainRules.uses wordy (Seed.ofNumber 1).source wordySpans v' =
        certainRules.uses brief (Seed.ofNumber 1).source briefSpans v ∧
      (∃ name, (.predicate, name) ∈ certainRules.uses brief (Seed.ofNumber 1).source briefSpans v) ∧
      (certainRules.extracted wordy (Seed.ofNumber 1).source wordySpans).1.entries.map TableEntry.key =
        (certainRules.extracted brief (Seed.ofNumber 1).source briefSpans).1.entries.map
          TableEntry.key := by
  have hscan : scan brief.source = .ok briefSpans := by decide +kernel
  have hscan' : scan wordy.source = .ok wordySpans := by decide +kernel
  have hcode : ∀ text start stop start' stop',
      Span.Resembles ⟨.code, text, start, stop⟩ ⟨.code, text, start', stop'⟩ :=
    fun _ _ _ _ _ => ⟨rfl, fun _ => rfl, fun _ => .inl rfl⟩
  have hliteral : Span.Resembles ⟨.string, "\"a\"".toList, 10, 13⟩
      ⟨.string, "[[b\nc]]".toList, 10, 17⟩ :=
    ⟨rfl, fun h => absurd h (by decide), fun _ => .inr (by decide)⟩
  have hcomment : Span.Resembles ⟨.comment, "-- one".toList, 14, 20⟩
      ⟨.comment, "--[[one\nmore]]".toList, 18, 32⟩ :=
    ⟨rfl, fun h => absurd h (by decide), fun h => absurd h (by decide)⟩
  have hresembles : List.Forall₂ Span.Resembles briefSpans wordySpans :=
    .cons (hcode _ _ _ _ _) <| .cons hliteral <| .cons (hcode _ _ _ _ _) <| .cons hcomment <|
      .cons (hcode _ _ _ _ _) .nil
  obtain ⟨v, hfinish, hstrings, hnames, hpredicate⟩ :=
    exists_finishes_brief (Seed.ofNumber 1).source
  obtain ⟨outcome, hrun⟩ : ∃ outcome,
      certainRules.runWithSeed ⟨0, 0⟩ brief (.ofNumber 1) = .ok outcome :=
    ⟨_, Rules.runWithSeed_eq_ok_iff.2 ⟨briefSpans, v, hfinish, rfl⟩⟩
  obtain ⟨htable, -, ⟨-, herror, -⟩ | ⟨-, -, herror, -⟩ | ⟨-, -, found, v', _, outcome', _, hfound,
      hfinish', -, hrun', hbody, hstub, hstats, -, -, huses, -⟩⟩ :=
    @run_independent certainRules brief wordy briefSpans wordySpans ⟨0, 0⟩ ⟨1, 0⟩ (.ofNumber 1)
      rfl rfl rfl hscan hscan' hresembles
  · cases hrun.symm.trans herror
  · cases hrun.symm.trans herror
  · obtain rfl : v = found := Option.some.inj (hfinish.veiled.symm.trans hfound.veiled)
    exact ⟨v, v', outcome, outcome', hrun, hrun', hfinish, hfinish', hbody, hstub, hstats, hstrings,
      hnames, huses, hpredicate, htable.keys_eq⟩

end LuaVeil
