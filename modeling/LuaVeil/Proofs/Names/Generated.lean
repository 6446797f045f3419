/-
# The names of a run

A run generates names for the string table and its decoder, for the variables of
the script, for the predicate of guards, for decoys and for the stub. `Pass.uses`
lists the names that a pass generates with what each is for, and `Rules.uses`
those of a run.

Main statements:

* `run_takes`, what a pass takes from the namespace are the names it generates;
* `runAll_takes`, so it is for passes in a row;
* `generated_names_fresh`, all names of a run are different from each other, from
  the reserved names and from the words of the script.
-/
import LuaVeil.Proofs.Job.Finishing
import LuaVeil.Proofs.Names.Ledger
import LuaVeil.Proofs.Names.Shapes
import LuaVeil.Proofs.Veil.DecoyLines
import LuaVeil.Proofs.Veil.Renaming

namespace LuaVeil

/-- What a generated name is for. -/
inductive NameUse where
  | table
  | decoder
  /-- the new name of a variable of the script -/
  | variable (declared : Name)
  | predicate
  | decoy
  | stub
  deriving DecidableEq

/-- The names of a string table. -/
def StringTable.uses (t : StringTable) : List (NameUse × Name) :=
  (.table, t.name) :: t.decoder.toList.map (.decoder, ·)

/-- The new name of a variable. -/
def Binding.use (b : Binding) : NameUse × Name :=
  (.variable b.declared, b.generated)

namespace Pass

/-- The names that a pass over `w` generates from a mint, in order. -/
def uses (w : Work) (m : Mint) : Pass → List (NameUse × Name)
  | strip _ => []
  | strings hide => (extractStrings hide w.dialect w.spans m).1.1.uses
  | rename strength =>
    match (renameLocals strength w.spans m).1 with
    | some (_, bindings) => bindings.map Binding.use
    | none => []
  | guards _ => [(.predicate, (OpaquePredicate.choose m).1.name)]
  | decoys chance templates =>
    ((Decoy.decisions chance templates w.spans m).1.filterMap fun d => d.bind Decoy.Filled.name).map
      (.decoy, ·)

/-- The names that passes in a row generate. -/
def usesAll (w : Work) (m : Mint) : List Pass → List (NameUse × Name)
  | [] => []
  | p :: passes =>
    p.uses w m ++
      match (p.run w m).1 with
      | some (next, _) => usesAll next (p.run w m).2 passes
      | none => []

end Pass

/-- The names of a run that leaves `v`. -/
def Rules.uses (rules : Rules) (r : Request) (source : Source) (spans : List Span) (v : Veiled) :
    List (NameUse × Name) :=
  Pass.usesAll (.start spans r.dialect) (rules.mint spans source) (r.preset.plan.passes rules) ++
    [(.stub, v.stubName)]

/-! ## String tables, predicates and decoys -/

section

variable (hide : Bool) (dialect : Dialect) (spans : List Span) (m : Mint)

/-- The table of a script is named first, and its decoder last. -/
theorem extractStrings_uses :
    m.names.Takes ((extractStrings hide dialect spans m).1.1.uses.map Prod.snd)
        (extractStrings hide dialect spans m).2.names ∧
      ∀ u ∈ (extractStrings hide dialect spans m).1.1.uses, isWord u.2 = true := by
  have hname := Minting.freshName_takes m
  have hword := Minting.isWord_freshName m
  rw [extractStrings]
  simp only [Minting.bind_apply]
  generalize Minting.freshName m = table at hname hword ⊢
  generalize hm' : (Minting.draw _ table.2).2 = m'
  have hnames : m'.names = table.2.names := by rw [← hm', Minting.draw_names]
  split
  · -- the decoder takes a second name
    have hdecoder := Minting.freshName_takes m'
    have hword' := Minting.isWord_freshName m'
    rw [hnames] at hdecoder
    refine ⟨hname.append hdecoder, ?_⟩
    rintro u hu
    rcases List.mem_cons.1 hu with rfl | hu
    · exact hword
    · obtain rfl := List.mem_singleton.1 hu
      exact hword'
  · refine ⟨?_, ?_⟩
    · show m.names.Takes [table.1] m'.names
      rw [hnames]
      exact hname
    · rintro u hu
      obtain rfl := List.mem_singleton.1 hu
      exact hword

/-- All names of a table are an underscore with letters after it. -/
theorem isLettered_of_mem_uses : ∀ u ∈ (extractStrings hide dialect spans m).1.1.uses,
    Minting.IsLettered u.2 := by
  rw [extractStrings]
  simp only [Minting.bind_apply]
  have hname := Minting.isLettered_freshName m
  generalize Minting.freshName m = table at hname
  generalize (Minting.draw _ table.2).2 = m'
  split
  · intro u hu
    rcases List.mem_cons.1 hu with rfl | hu
    · exact hname
    · obtain rfl := List.mem_singleton.1 hu
      exact Minting.isLettered_freshName m'
  · intro u hu
    obtain rfl := List.mem_singleton.1 hu
    exact hname

theorem choose_uses :
    m.names.Takes [(OpaquePredicate.choose m).1.name] (OpaquePredicate.choose m).2.names ∧
      isWord (OpaquePredicate.choose m).1.name = true := by
  unfold OpaquePredicate.choose
  generalize Draw.pick .evenProduct PredicateForm.all = form
  exact ⟨Minting.freshName_takes (Minting.draw form m).2, Minting.isWord_freshName _⟩

end

namespace Decoy

theorem fillNumber_names (d : Filled) (m : Mint) :
    (d.fillNumber m).1.name = d.name ∧ (d.fillNumber m).2.names = m.names := by
  unfold Filled.fillNumber
  generalize Draw.between .word 1 maxNumber = number
  split
  · exact ⟨rfl, rfl⟩
  · exact ⟨rfl, rfl⟩

/-- A filled template has taken its name, if it asks for one. -/
theorem fill_uses (template : Text) (m : Mint) :
    m.names.Takes (fill template m).1.name.toList (fill template m).2.names ∧
      ∀ name ∈ (fill template m).1.name, isWord name = true := by
  unfold fill
  split
  · rw [Minting.bind_apply]
    obtain ⟨hname, hnames⟩ :=
      fillNumber_names ⟨template, some (Minting.freshName m).1, none⟩ (Minting.freshName m).2
    rw [hname, hnames]
    refine ⟨Minting.freshName_takes m, fun name h => ?_⟩
    obtain rfl := Option.mem_some.1 h
    exact Minting.isWord_freshName m
  · obtain ⟨hname, hnames⟩ := fillNumber_names ⟨template, none, none⟩ m
    rw [hname, hnames]
    exact ⟨.nil _, fun _ h => nomatch h⟩

theorem decide?_uses (p : Probability) (templates : List Text) (boundary : Bool) (m : Mint) :
    m.names.Takes ((decide? p templates boundary m).1.bind Filled.name).toList
        (decide? p templates boundary m).2.names ∧
      ∀ name ∈ (decide? p templates boundary m).1.bind Filled.name, isWord name = true := by
  cases boundary with
  | false => exact ⟨.nil _, fun _ h => absurd h (Option.not_mem_none _)⟩
  | true =>
    unfold decide?
    generalize Draw.chance p = chance
    generalize Draw.pick [] templates = pick
    simp only [Minting.bind_apply]
    split
    · rw [Minting.bind_apply]
      exact fill_uses _ (Minting.draw pick (Minting.draw chance m).2).2
    · exact ⟨.nil _, fun _ h => absurd h (Option.not_mem_none _)⟩

/-- The decoys of a script take their names in order. -/
theorem scatter_uses (p : Probability) (templates : List Text) (places : List Bool) (m : Mint) :
    m.names.Takes ((scatter p templates places m).1.filterMap fun d => d.bind Filled.name)
        (scatter p templates places m).2.names ∧
      ∀ name ∈ (scatter p templates places m).1.filterMap fun d => d.bind Filled.name,
        isWord name = true := by
  induction places generalizing m with
  | nil => exact ⟨.nil _, fun _ h => absurd h List.not_mem_nil⟩
  | cons boundary places ih =>
    obtain ⟨htakes, hwords⟩ := decide?_uses p templates boundary m
    obtain ⟨hmore, hmoreWords⟩ := ih (decide? p templates boundary m).2
    rw [scatter]
    simp only [Minting.bind_apply, Minting.pure_apply, List.filterMap_cons]
    generalize ((decide? p templates boundary m).1.bind Filled.name) = name? at htakes hwords ⊢
    cases name? with
    | none =>
      rw [← htakes.eq_of_nil]
      exact ⟨hmore, hmoreWords⟩
    | some name =>
      refine ⟨htakes.append hmore, fun other h => ?_⟩
      rcases List.mem_cons.1 h with rfl | h
      · exact hwords other rfl
      · exact hmoreWords other h

theorem decisions_uses (p : Probability) (templates : List Text) (spans : List Span) (m : Mint) :
    m.names.Takes ((decisions p templates spans m).1.filterMap fun d => d.bind Filled.name)
        (decisions p templates spans m).2.names ∧
      ∀ name ∈ (decisions p templates spans m).1.filterMap fun d => d.bind Filled.name,
        isWord name = true := by
  unfold decisions
  split
  · exact ⟨.nil _, fun _ h => absurd h List.not_mem_nil⟩
  · exact scatter_uses p templates _ m

theorem injectDecoys_mint (p : Probability) (templates : List Text) (spans : List Span) (m : Mint) :
    (injectDecoys p templates spans m).2 = (decisions p templates spans m).2 := by
  by_cases h : templates = []
  · subst h
    rfl
  · rw [injectDecoys_eq h]
    rfl

end Decoy

/-! ## Passes and runs -/

namespace Pass

/-- What a pass that goes through takes are the names it generates. -/
theorem run_takes {p : Pass} {w : Work} {m : Mint} {out : Work × Bool}
    (h : (p.run w m).1 = some out) :
    m.names.Takes ((p.uses w m).map Prod.snd) (p.run w m).2.names ∧
      ∀ u ∈ p.uses w m, isWord u.2 = true := by
  cases p with
  | strip isDebug => exact ⟨.nil _, fun _ h => absurd h List.not_mem_nil⟩
  | strings hide => exact extractStrings_uses hide w.dialect w.spans m
  | rename strength =>
    obtain ⟨⟨spans, bindings⟩, hrenamed, rfl⟩ := Option.map_eq_some_iff.1 h
    replace hrenamed : (renameLocals strength w.spans m).1 = some (spans, bindings) := hrenamed
    obtain ⟨-, -, htakes, hwords⟩ := renameLocals_spec hrenamed
    simp only [uses, hrenamed, List.map_map, List.mem_map]
    refine ⟨htakes, ?_⟩
    rintro _ ⟨b, hb, rfl⟩
    exact hwords b hb
  | guards chance =>
    obtain ⟨htakes, hword⟩ := choose_uses m
    refine ⟨htakes, fun u hu => ?_⟩
    obtain rfl := List.mem_singleton.1 hu
    exact hword
  | decoys chance templates =>
    obtain ⟨htakes, hwords⟩ := Decoy.decisions_uses chance templates w.spans m
    rw [← Decoy.injectDecoys_mint] at htakes
    simp only [uses, List.map_map, List.mem_map]
    refine ⟨?_, ?_⟩
    · have hsnd : (Prod.snd ∘ fun name : Name => (NameUse.decoy, name)) = id := rfl
      rw [hsnd, List.map_id]
      exact htakes
    · rintro _ ⟨name, hname, rfl⟩
      exact hwords name hname

/-- What passes in a row take are the names they generate. -/
theorem runAll_takes {passes : List Pass} {w w' : Work} {m : Mint}
    (h : (runAll w passes m).1 = some w') :
    m.names.Takes ((usesAll w m passes).map Prod.snd) (runAll w passes m).2.names ∧
      ∀ u ∈ usesAll w m passes, isWord u.2 = true := by
  induction passes generalizing w m with
  | nil => exact ⟨.nil _, fun _ h => absurd h List.not_mem_nil⟩
  | cons p passes ih =>
    obtain ⟨next, changed, hrun, hnext⟩ := exists_of_runAll_cons h
    rw [hnext] at h ⊢
    obtain ⟨htakes, hwords⟩ := run_takes hrun
    obtain ⟨hmore, hmoreWords⟩ := ih h
    rw [usesAll, hrun]
    dsimp only
    rw [List.map_append]
    refine ⟨htakes.append hmore, fun u hu => ?_⟩
    rcases List.mem_append.1 hu with hu | hu
    · exact hwords u hu
    · exact hmoreWords u hu

end Pass

/-- The names of a run are all that its namespace takes beside the words of the script. -/
theorem Rules.Finishes.takes {rules : Rules} {r : Request} {source : Source} {spans : List Span}
    {v : Veiled} (h : rules.Finishes r source spans v) :
    (rules.mint spans source).names.Takes ((rules.uses r source spans v).map Prod.snd)
        (veil (r.preset.plan.passes rules) r.dialect spans (rules.mint spans source)).2.names ∧
      ∀ u ∈ rules.uses r source spans v, isWord u.2 = true := by
  have hveil := h.veiled
  unfold veil at hveil ⊢
  simp only [Minting.bind_apply] at hveil ⊢
  unfold Rules.uses
  generalize r.preset.plan.passes rules = passes at hveil ⊢
  cases hrun : (Pass.runAll (.start spans r.dialect) passes (rules.mint spans source)).1 with
  | none =>
    rw [hrun] at hveil
    exact absurd hveil (by simp [Minting.pure_apply])
  | some w =>
    rw [hrun] at hveil
    obtain rfl := Option.some.inj hveil
    obtain ⟨htakes, hwords⟩ := Pass.runAll_takes hrun
    rw [List.map_append]
    refine ⟨htakes.append (Minting.freshName_takes _), fun u hu => ?_⟩
    rcases List.mem_append.1 hu with hu | hu
    · exact hwords u hu
    · obtain rfl := List.mem_singleton.1 hu
      exact Minting.isWord_freshName _

/--
All names of a run that finishes are different words. None is a keyword, reserved or a word of the
script, and beside the words of the script the run takes no other names.
-/
theorem generated_names_fresh {rules : Rules} {r : Request} {source : Source} {spans : List Span}
    {v : Veiled} (h : rules.Finishes r source spans v) :
    let names := (rules.uses r source spans v).map Prod.snd
    names.Nodup ∧
      (∀ name ∈ names, isWord name = true ∧ isKeyword name = false ∧
        rules.reserved.contains name = false ∧ ∀ s ∈ spans, name ∉ s.words) ∧
      (veil (r.preset.plan.passes rules) r.dialect spans
        (rules.mint spans source)).2.names.taken = names.reverse ++ spans.flatMap Span.words := by
  intro names
  obtain ⟨htakes, hwords⟩ := h.takes
  refine ⟨htakes.nodup, fun name hname => ?_, htakes.taken_eq⟩
  have hfree : name ∉ rules.reserved.names ++ spans.flatMap Span.words :=
    htakes.not_mem_unavailable name hname
  obtain ⟨hreserved, hscript⟩ := not_or.1 (List.mem_append.not.1 hfree)
  obtain ⟨u, hu, rfl⟩ := List.mem_map.1 hname
  refine ⟨hwords u hu, ?_, ?_, fun s hs hmem => hscript (List.mem_flatMap.2 ⟨s, hs, hmem⟩)⟩
  · rw [isKeyword, ← Bool.not_eq_true, List.contains_iff_mem]
    intro hkey
    exact hreserved (List.mem_append_left _ (List.mem_append_left _ hkey))
  · rw [Reserved.contains, ← Bool.not_eq_true, List.contains_iff_mem]
    exact hreserved

/-- Rules by which guards and decoys stand wherever they may. -/
def certainRules : Rules :=
  ⟨.default, [], ⟨1, by decide, by decide⟩, ⟨1, by decide, by decide⟩, Decoy.defaultTemplates,
    .input⟩

/-- A script of two lines with a variable and a literal. -/
def greeting : Request :=
  ⟨"local x = \"a\"\nprint(x)".toList, .luau, .strong⟩

/-- The spans of the script. -/
def greetingSpans : List Span :=
  [⟨.code, "local x = ".toList, 0, 10⟩, ⟨.string, "\"a\"".toList, 10, 13⟩,
    ⟨.code, "\nprint(x)".toList, 13, 22⟩]

/-- Words that look random, as multiples of an odd number. -/
def multiples : Source :=
  ⟨fun i => UInt32.ofNat (i * 2654435769), 0⟩

/-- A run with a table, a decoder, a variable, a guard, decoys and a stub finishes. -/
theorem greeting_names : ∃ v, certainRules.Finishes greeting multiples greetingSpans v ∧
    ((certainRules.uses greeting multiples greetingSpans v).map Prod.snd).Nodup := by
  have hveil : (veil (greeting.preset.plan.passes certainRules) greeting.dialect greetingSpans
      (certainRules.mint greetingSpans multiples)).1.isSome = true := by decide +kernel
  obtain ⟨v, hv⟩ := Option.isSome_iff_exists.1 hveil
  have hrun : certainRules.Finishes greeting multiples greetingSpans v :=
    ⟨by decide +kernel, by decide +kernel, hv⟩
  exact ⟨v, hrun, (generated_names_fresh hrun).1⟩

end LuaVeil
