/-
# How runs end

A run of a script that can be scanned ends in one of three ways. A blank script is
refused. At the strongest preset the search for look-alike names can outlast its
patience, so that there are no names for all variables. Every other run finishes:
among candidates in order there is always a free one.

Main statements:

* `veil_eq_none_iff`, which passes do not go through;
* `Rules.runWithSeed_ends`, how a run ends;
* `Rules.exists_finishes_of_one_variable`, runs that find their name at once.
-/
import LuaVeil.Proofs.Names.Patience
import LuaVeil.Proofs.Names.Supply
import LuaVeil.Proofs.Veil.TypeLiterals

namespace LuaVeil

namespace Pass

variable {w : Work} {m : Mint}

/-- Passes go through unless names are drawn of which there are finitely many. -/
theorem isSome_run {p : Pass} (hp : p ≠ .rename .high) : (p.run w m).1.isSome = true := by
  cases p with
  | strip _ => rfl
  | strings _ => rfl
  | rename strength =>
    have hstrength : strength ≠ .high := fun heq => hp (by rw [heq])
    rw [run_rename, Option.isSome_map]
    exact isSome_renameLocals hstrength w.spans m
  | guards chance => rfl
  | decoys chance templates => rfl

theorem isSome_runAll {passes : List Pass} (hp : ∀ p ∈ passes, p ≠ .rename .high) :
    (runAll w passes m).1.isSome = true := by
  induction passes generalizing w m with
  | nil => rfl
  | cons p passes ih =>
    obtain ⟨hfirst, hmore⟩ := List.forall_mem_cons.1 hp
    obtain ⟨out, hout⟩ := Option.isSome_iff_exists.1 (@isSome_run w m p hfirst)
    rw [runAll, Minting.bind_apply, hout]
    exact ih hmore

/-- If names are drawn in the first pass only, no other pass fails. -/
theorem runAll_rename_eq_none_iff {later : List Pass} (hlater : ∀ p ∈ later, p ≠ .rename .high) :
    (runAll w (.rename .high :: later) m).1 = none ↔ (renameLocals .high w.spans m).1 = none := by
  rw [runAll, Minting.bind_apply, run_rename]
  cases (renameLocals .high w.spans m).1 with
  | none => exact iff_of_true rfl rfl
  | some out =>
    refine iff_of_false (fun hnone => ?_) (Option.some_ne_none _)
    exact Option.isSome_iff_ne_none.1 (isSome_runAll hlater) hnone

/-- If passes go through, the names of each of them are names of all. -/
theorem exists_uses_subset {p : Pass} {passes : List Pass} {w' : Work} (hp : p ∈ passes)
    (h : (runAll w passes m).1 = some w') : ∃ next later, p.uses next later ⊆ usesAll w m passes := by
  induction passes generalizing w m with
  | nil => cases hp
  | cons q passes ih =>
    obtain ⟨next, changed, hrun, hlater⟩ := exists_of_runAll_cons h
    rw [hlater] at h
    rw [usesAll, hrun]
    rcases List.mem_cons.1 hp with rfl | hp
    · exact ⟨w, m, List.subset_append_left _ _⟩
    · obtain ⟨later, m', hsub⟩ := ih hp h
      exact ⟨later, m', fun u hu => List.mem_append_right _ (hsub hu)⟩

/-- Guards and decoys are counted apart from constants and variables. -/
theorem counts_runAll {passes : List Pass} {rules : Rules} {w' : Work}
    (hp : ∀ p ∈ passes, p = .guards rules.guardChance ∨
      p = .decoys rules.decoyChance rules.decoyTemplates)
    (h : (runAll w passes m).1 = some w') :
    w'.stats.stringsExtracted = w.stats.stringsExtracted ∧
      w'.stats.identifiersRenamed = w.stats.identifiersRenamed := by
  induction passes generalizing w m with
  | nil =>
    obtain rfl := Option.some.inj h
    exact ⟨rfl, rfl⟩
  | cons p passes ih =>
    obtain ⟨hfirst, hmore⟩ := List.forall_mem_cons.1 hp
    obtain ⟨next, changed, hrun, hlater⟩ := exists_of_runAll_cons h
    rw [hlater] at h
    obtain ⟨hstrings, hnames⟩ := ih hmore h
    rw [hstrings, hnames]
    rcases hfirst with rfl | rfl
    · rw [run_guards] at hrun
      obtain ⟨rfl, -⟩ := Prod.mk.inj (Option.some.inj hrun)
      exact ⟨rfl, rfl⟩
    · rw [run_decoys] at hrun
      obtain ⟨rfl, -⟩ := Prod.mk.inj (Option.some.inj hrun)
      exact ⟨rfl, rfl⟩

/-- Every variable is counted once if it is renamed. -/
theorem counts_runAll_rename {rename : Option Strength} {passes : List Pass} {rules : Rules}
    {w' : Work} (hp : ∀ p ∈ passes, p = .guards rules.guardChance ∨
      p = .decoys rules.decoyChance rules.decoyTemplates)
    (h : (runAll w (rename.toList.map .rename ++ passes) m).1 = some w') :
    w'.stats.stringsExtracted = w.stats.stringsExtracted ∧
      w'.stats.identifiersRenamed = w.stats.identifiersRenamed +
        if rename.isSome then (resolve m.names.reserved (occurrences w.spans)).declared.length
        else 0 := by
  cases rename with
  | none => exact counts_runAll hp h
  | some strength =>
    have hopen : (runAll w (.rename strength :: passes) m).1 = some w' := h
    obtain ⟨next, changed, hnext, hlater⟩ := exists_of_runAll_cons hopen
    rw [hlater] at hopen
    obtain ⟨hstrings, hnames⟩ := counts_runAll hp hopen
    rw [run_rename] at hnext
    obtain ⟨out, hout, hwork⟩ := Option.map_eq_some_iff.1 hnext
    obtain ⟨rfl, -⟩ := Prod.mk.inj hwork
    obtain ⟨-, hdeclared, -⟩ := renameLocals_spec hout
    have hlength := congrArg List.length hdeclared
    rw [List.length_map] at hlength
    exact ⟨hstrings, hnames.trans (congrArg (w.stats.identifiersRenamed + ·) hlength)⟩

end Pass

/-- A script is refused if it is blank. -/
theorem Request.check_cases (r : Request) : r.check = .error .blankSource ∨ r.check = .ok () := by
  rw [check]
  split
  · exact .inl rfl
  · exact .inr rfl

namespace Rules

/-- What a run takes names from after the second pass. -/
def minted (rules : Rules) (r : Request) (source : Source) (spans : List Span) : Mint :=
  (extractStrings r.preset.plan.hideStrings r.dialect (rules.stripped spans)
    (rules.mint spans source)).2

/-- Look-alike names for the variables of a script are not found within some rounds for each. -/
def Outlasts (limit : Nat) (rules : Rules) (r : Request) (source : Source) (spans : List Span) :
    Prop :=
  let script := (rules.extracted r source spans).2
  Candidates.Outlasts limit (resolve rules.reserved (occurrences script)).declared
    (rules.minted r source spans)

end Rules

section

variable {rules : Rules} {r : Request} {source : Source} {spans : List Span}

/-- Only the strongest preset can run out of names. -/
theorem isSome_veil {p : Preset} (hp : p ≠ .strong) (dialect : Dialect) (spans : List Span)
    (m : Mint) : (veil (p.plan.passes rules) dialect spans m).1.isSome = true := by
  rw [veil_fst, Option.isSome_map]
  refine Pass.isSome_runAll fun pass hpass => ?_
  rintro rfl
  cases p with
  | strong => exact hp rfl
  | minify => simp [Preset.plan, Plan.passes] at hpass
  | weak => simp [Preset.plan, Plan.passes] at hpass
  | medium => simp [Preset.plan, Plan.passes] at hpass

theorem reserved_minted : (rules.minted r source spans).names.reserved = rules.reserved := by
  obtain ⟨htakes, -⟩ := extractStrings_uses r.preset.plan.hideStrings r.dialect
    (rules.stripped spans) (rules.mint spans source)
  exact htakes.reserved_eq

/-- The passes do not go through exactly if look-alike names are searched for too long. -/
theorem veil_eq_none_iff :
    (veil (r.preset.plan.passes rules) r.dialect spans (rules.mint spans source)).1 = none ↔
      r.preset = .strong ∧ rules.Outlasts (64 * 354294) r source spans := by
  by_cases hstrong : r.preset = .strong
  · rw [and_iff_right hstrong, Rules.Outlasts, ← reserved_minted, ← renameLocals_eq_none_iff,
      veil_fst, Option.map_eq_none_iff]
    let later := [Pass.guards rules.guardChance, .decoys rules.decoyChance rules.decoyTemplates]
    have hpasses : r.preset.plan.passes rules = .strip (matchesAny rules.debugPatterns) ::
        .strings r.preset.plan.hideStrings :: .rename .high :: later := by
      rw [hstrong]
      rfl
    obtain ⟨stats, hstart⟩ := runAll_strings (matchesAny rules.debugPatterns)
      r.preset.plan.hideStrings r.dialect spans (.rename .high :: later) (rules.mint spans source)
    rw [hpasses, hstart]
    exact Pass.runAll_rename_eq_none_iff (by simp [later])
  · refine iff_of_false (fun hnone => ?_) fun h => hstrong h.1
    have hsome := @isSome_veil rules _ hstrong r.dialect spans (rules.mint spans source)
    rw [hnone] at hsome
    cases hsome

/-! ## Runs -/

/--
A run of a script that can be scanned. A blank script is refused; at the strongest preset look-alike
names may be searched for too long; every other run finishes.
-/
theorem Rules.runWithSeed_ends (now : Instant) (seed : Seed) (hscan : scan r.source = .ok spans) :
    r.check = .error .blankSource ∧
        rules.runWithSeed now r seed = .error (.request .blankSource) ∨
      r.check = .ok () ∧ r.preset = .strong ∧ rules.Outlasts (64 * 354294) r seed.source spans ∧
        rules.runWithSeed now r seed = .error .namesExhausted ∨
      r.check = .ok () ∧ (r.preset = .strong → ¬ rules.Outlasts (64 * 354294) r seed.source spans) ∧
        ∃ v, rules.Finishes r seed.source spans v ∧ rules.runWithSeed now r seed =
          .ok (r.outcome ((⟨r.preset, r.dialect, now⟩ : Banner).wrap v.declarations v.body v.stubName)
            (some v.stats)) := by
  rw [runWithSeed_of_scan now seed hscan]
  rcases r.check_cases with hcheck | hcheck
  · rw [hcheck]
    exact .inl ⟨rfl, rfl⟩
  cases hveil : (veil (r.preset.plan.passes rules) r.dialect spans
      (rules.mint spans seed.source)).1 with
  | none =>
    obtain ⟨hstrong, hlong⟩ := veil_eq_none_iff.1 hveil
    rw [hcheck]
    exact .inr (.inl ⟨rfl, hstrong, hlong, rfl⟩)
  | some v =>
    refine .inr (.inr ⟨hcheck, fun hstrong hlong => ?_, v, ⟨hcheck, hscan, hveil⟩, ?_⟩)
    · rw [veil_eq_none_iff.2 ⟨hstrong, hlong⟩] at hveil
      cases hveil
    · rw [hcheck]
      rfl

/-- What a run counts: the constants of its script, and the variables if it renames them. -/
theorem Rules.Finishes.counts {v : Veiled} (h : rules.Finishes r source spans v) :
    v.stats.stringsExtracted = ((rules.stripped spans).filter Span.isConstant).length ∧
      v.stats.identifiersRenamed = if r.preset.plan.rename.isSome then
        (resolve rules.reserved (occurrences (rules.extracted r source spans).2)).declared.length
      else 0 := by
  obtain ⟨hentries, -⟩ := @references_extracted rules r source spans h.scanned
  have hcount := hentries.length_eq
  rw [List.length_zipIdx] at hcount
  obtain ⟨w, hrun, rfl⟩ := veil_eq_some_iff.1 h.veiled
  obtain ⟨last, hpasses, hlast⟩ := r.preset.plan.exists_last rules
  rw [hpasses, (runAll_start ..).1] at hrun
  obtain ⟨hstrings, hnames⟩ := Pass.counts_runAll_rename hlast hrun
  rw [hcount, ← @reserved_minted rules r source spans]
  exact ⟨hstrings.trans (Nat.zero_add _), hnames.trans (Nat.zero_add _)⟩

/-- A run with guards generates a name for its predicate. -/
theorem Rules.Finishes.exists_predicate {v : Veiled} (h : rules.Finishes r source spans v)
    (hguards : r.preset.plan.guards = true) :
    ∃ name, (.predicate, name) ∈ rules.uses r source spans v := by
  obtain ⟨w, hrun, -⟩ := veil_eq_some_iff.1 h.veiled
  have hmem : .guards rules.guardChance ∈ r.preset.plan.passes rules := by
    simp [Plan.passes, hguards]
  obtain ⟨next, m, hsub⟩ := Pass.exists_uses_subset hmem hrun
  exact ⟨_, List.mem_append_left _ (hsub (List.mem_singleton_self _))⟩

/-- Extraction keeps the variables of a script if references fit in it. -/
theorem resolve_extracted_script (hscan : scan r.source = .ok spans)
    (hspares : ScopeState.everywhere rules.reserved
      (sparesConstants (rules.stripped spans) rules.reserved) .initial
      (.start (occurrences (rules.stripped spans))) = true) :
    resolve rules.reserved (occurrences (rules.extracted r source spans).2) =
      resolve rules.reserved (occurrences (rules.stripped spans)) := by
  refine resolve_extractStrings ⟨spans, hscan, .inr ⟨_, rfl⟩⟩ _ _ (fun s hs w hw => ?_) hspares
  exact (of_mem_strip (alternates_of_scan hscan).1 hs).2 w hw

/-- A script with one variable and no look-alike names finds a name for it at once. -/
theorem Rules.exists_finishes_of_one_variable (hcheck : r.check = .ok ())
    (hscan : scan r.source = .ok spans)
    (hspares : ScopeState.everywhere rules.reserved
      (sparesConstants (rules.stripped spans) rules.reserved) .initial
      (.start (occurrences (rules.stripped spans))) = true) {name : Name}
    (hone : (resolve rules.reserved (occurrences (rules.stripped spans))).declared = [name])
    (hfree : ∀ w ∈ rules.reserved.names ++ spans.flatMap Span.words, w ∉ Candidates.lookAlikeNames) :
    ∃ v, rules.Finishes r source spans v ∧
      v.stats.stringsExtracted = ((rules.stripped spans).filter Span.isConstant).length ∧
      v.stats.identifiersRenamed = if r.preset.plan.rename.isSome then 1 else 0 := by
  have hdeclared := congrArg Resolution.declared
    (@resolve_extracted_script rules r source spans hscan hspares)
  rw [hone] at hdeclared
  have hsome : (veil (r.preset.plan.passes rules) r.dialect spans (rules.mint spans source)).1 ≠
      none := by
    rw [Ne, veil_eq_none_iff, Rules.Outlasts, hdeclared]
    rintro ⟨-, hlong⟩
    refine Candidates.not_outlasts_singleton (by decide) (fun look hlook => ?_) name hlong
    obtain ⟨htakes, -⟩ := extractStrings_uses r.preset.plan.hideStrings r.dialect
      (rules.stripped spans) (rules.mint spans source)
    have hlettered := isLettered_of_mem_uses r.preset.plan.hideStrings r.dialect
      (rules.stripped spans) (rules.mint spans source)
    rw [Namespace.isAvailable_iff, Namespace.unavailable, reserved_minted]
    show look ∉ rules.reserved.names ++ (rules.minted r source spans).names.taken
    rw [show (rules.minted r source spans).names.taken = _ from htakes.taken_eq]
    intro hmem
    rcases List.mem_append.1 hmem with hmem | hmem
    · exact hfree look (List.mem_append_left _ hmem) hlook
    rcases List.mem_append.1 hmem with hmem | hmem
    · obtain ⟨u, hu, rfl⟩ := List.mem_map.1 (List.mem_reverse.1 hmem)
      obtain ⟨word, hword, -⟩ := hlettered u hu
      rw [hword] at hlook
      exact Candidates.not_mem_lookAlikeNames rfl hlook
    · exact hfree look (List.mem_append_right _ hmem) hlook
  obtain ⟨v, hv⟩ := Option.ne_none_iff_exists'.1 hsome
  have hfinish : rules.Finishes r source spans v := ⟨hcheck, hscan, hv⟩
  obtain ⟨hstrings, hnames⟩ := hfinish.counts
  rw [hdeclared] at hnames
  exact ⟨v, hfinish, hstrings, hnames⟩

end

end LuaVeil
