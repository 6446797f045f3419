/-
# The constants of a script, read back after a run

The constants of a script are its strings but those in backticks. After a run they
stand in the table in front of the script, each in its slot, and the references to
the slots stand in their places, whatever passes came later.

Main statements:

* `references_runAll`, renaming, guards and decoys keep all references;
* `readTable_hidden` and `declaration_plain`, what is read back from a declaration;
* `string_round_trip`, what a run makes of the constants of a script;
* `misplaced_literal_renamed`, a literal that is taken for a declared name.
-/
import LuaVeil.Proofs.Job.Finishing
import LuaVeil.Proofs.Veil.Front
import LuaVeil.Proofs.Veil.Insertions
import LuaVeil.Proofs.Veil.RenamedReferences

namespace LuaVeil

/-- A string that can move to a table. -/
def Span.isConstant (s : Span) : Bool :=
  s.kind == .string && s.text.head? != some '`'

/-- Whether a slot of a table holds a constant, hidden by a key. -/
structure HiddenSlot.Holds (constant : Span × Nat) (slot : HiddenSlot) : Prop where
  index_eq : slot.index = constant.2
  key_pos : 1 ≤ slot.key
  key_le : slot.key ≤ 255
  bytes_eq : ∃ literal, Literal.ofText? constant.1.text = some literal ∧
    slot.bytes = literal.bytes.map UInt8.toNat

/-- A slot with a constant as it was written. -/
def plainSlot (constant : Span × Nat) : Text :=
  '[' :: (Number.decimal constant.2 ++ "] = ".toList) ++ constant.1.text

/-- The declaration of a table with its constants as they were written. -/
def plainDeclaration (name : Name) (constants : List Span) : Text :=
  "local ".toList ++ (name ++ (" = \x7b".toList ++
    (Text.joinWith ", ".toList (constants.zipIdx.map plainSlot) ++ ['\x7d'])))

namespace Rules

/-- A script after the first pass of a run. -/
def stripped (rules : Rules) (spans : List Span) : List Span :=
  (strip (matchesAny rules.debugPatterns) spans).1

/-- The string table of a run, and the script after the second pass. -/
def extracted (rules : Rules) (r : Request) (source : Source) (spans : List Span) :
    StringTable × List Span :=
  (extractStrings r.preset.plan.hideStrings r.dialect (rules.stripped spans)
    (rules.mint spans source)).1

/-- The places where renaming, if a run has it, puts new names: its variables, and their uses. -/
def sites (rules : Rules) (r : Request) (source : Source) (spans : List Span) : List Occurrence :=
  if r.preset.plan.rename.isSome then
    (resolve rules.reserved (occurrences (rules.extracted r source spans).2)).sites
  else []

end Rules

/-! ## Constants -/

section

variable {source : Text} {spans : List Span} {isDebug : Text → Bool} {s : Span}

theorem head?_of_isStringLiteral {t : Text} (h : IsStringLiteral t) : t.head? ≠ some '`' := by
  intro hhead
  obtain ⟨l, hread, -⟩ := exists_literal_of_isStringLiteral h
  rw [ofText?_of_backtick hhead] at hread
  cases hread

/-- The strings of a stripped script are literals, or they are in backticks. -/
theorem isStringLiteral_of_mem_strip (h : scan source = .ok spans)
    (hs : s ∈ (strip isDebug spans).1) (hkind : s.kind = .string) :
    IsStringLiteral s.text ∨ s.text.head? = some '`' := by
  have hcode : s.isCode = false := by simp [Span.isCode, hkind]
  exact isStringLiteral_of_mem_scan h ((of_mem_strip (alternates_of_scan h).1 hs).1 hcode) hkind

/-- The literals of a stripped script are its constants. -/
theorem filter_isLiteral (h : scan source = .ok spans) :
    (strip isDebug spans).1.filter Span.isLiteral =
      (strip isDebug spans).1.filter Span.isConstant := by
  refine List.filter_congr fun s hs => ?_
  by_cases hkind : s.kind = .string
  · rcases isStringLiteral_of_mem_strip h hs hkind with hliteral | htick
    · obtain ⟨l, hread, -⟩ := exists_literal_of_isStringLiteral hliteral
      have hhead : (s.text.head? != some '`') = true := by
        rw [bne_iff_ne]
        exact head?_of_isStringLiteral hliteral
      rw [Span.isLiteral, Span.isConstant, hread, hhead]
      rfl
    · rw [Span.isLiteral, Span.isConstant, ofText?_of_backtick htick, htick]
      rfl
  · simp [Span.isLiteral, Span.isConstant, beq_eq_false_iff_ne.2 hkind]

/-- The constants of a stripped script are literals. -/
theorem isStringLiteral_of_isConstant (h : scan source = .ok spans)
    (hs : s ∈ (strip isDebug spans).1.filter Span.isConstant) : IsStringLiteral s.text := by
  obtain ⟨hs, hconstant⟩ := List.mem_filter.1 hs
  obtain ⟨hkind, hhead⟩ := Bool.and_eq_true_iff.1 hconstant
  refine (isStringLiteral_of_mem_strip h hs (by simpa using hkind)).resolve_right fun htick => ?_
  rw [htick] at hhead
  cases hhead

end

/-! ## Declarations -/

/-- The literals of a table are its constants. -/
theorem literals_of_entries {hide : Bool} {constants : List Span} {entries : List TableEntry}
    (h : List.Forall₂ (IsEntryOf hide) constants.zipIdx entries)
    (hconstants : ∀ s ∈ constants, IsStringLiteral s.text) :
    List.Forall₂ (fun (slot : Span × Nat) e => e.index = slot.2 ∧ e.literal.text = slot.1.text)
        constants.zipIdx entries ∧
      entries.map (fun e => e.literal.text) = constants.map Span.text ∧
      ∀ e ∈ entries, IsStringLiteral e.literal.text := by
  have hmem : ∀ slot ∈ constants.zipIdx, IsStringLiteral slot.1.text :=
    fun slot hslot => hconstants slot.1 (List.fst_mem_of_mem_zipIdx hslot)
  have hentries : List.Forall₂ (fun (slot : Span × Nat) e => e.index = slot.2 ∧
      e.literal.text = slot.1.text) constants.zipIdx entries := by
    refine ((List.forall₂_and_left _ _).2 ⟨hmem, h⟩).imp ?_
    rintro slot e ⟨hliteral, he⟩
    obtain ⟨l, hread, htext⟩ := exists_literal_of_isStringLiteral hliteral
    obtain rfl : l = e.literal := Option.some.inj (hread.symm.trans he.literal_eq)
    exact ⟨he.index_eq, htext⟩
  refine ⟨hentries, ?_, fun e he => ?_⟩
  · have hfst := congrArg (List.map Span.text) (List.zipIdx_map_fst 0 constants)
    rw [List.map_map] at hfst
    rw [← hfst, eq_comm, ← List.forall₂_eq_eq_eq, List.forall₂_map_left_iff,
      List.forall₂_map_right_iff]
    exact hentries.imp fun slot e he => he.2.symm
  · obtain ⟨slot, hslot, -, htext⟩ := exists_of_mem_right hentries he
    rw [htext]
    exact hmem slot hslot

/-- The entries of a hidden table have keys. -/
theorem key_of_mem_entries {slots : List (Span × Nat)} {entries : List TableEntry} {e : TableEntry}
    (h : List.Forall₂ (IsEntryOf true) slots entries) (he : e ∈ entries) :
    e.key.isSome = true := by
  obtain ⟨_, -, hentry⟩ := exists_of_mem_right h he
  obtain ⟨key, hkey, -⟩ := hentry.key
  rw [hkey]
  rfl

/-- A table and its decoder have names. -/
theorem isWord_extractStrings (hide : Bool) (dialect : Dialect) (spans : List Span) (m : Mint) :
    let table := (extractStrings hide dialect spans m).1.1
    isWord table.name = true ∧ ∀ decoder ∈ table.decoder, isWord decoder = true := by
  obtain ⟨-, hwords⟩ := extractStrings_uses hide dialect spans m
  refine ⟨hwords _ List.mem_cons_self, fun decoder hmem => ?_⟩
  refine hwords (.decoder, decoder) (List.mem_cons_of_mem _ (List.mem_map.2 ⟨decoder, ?_, rfl⟩))
  exact Option.mem_toList.2 hmem

/-- The slots that are read from the declaration of a hidden table hold its constants. -/
theorem readTable_hidden {t : StringTable} {slots : List (Span × Nat)}
    (hname : isWord t.name = true) (hwords : ∀ decoder ∈ t.decoder, isWord decoder = true)
    (hdecoder : t.decoder.isSome = !t.entries.isEmpty)
    (h : List.Forall₂ (IsEntryOf true) slots t.entries) :
    ∃ read, readTable t.declaration = some (t.name, read) ∧
      List.Forall₂ HiddenSlot.Holds slots read := by
  have hhidden : t.entries = [] ∧ t.decoder = none ∨ t.decoder.isSome = true := by
    cases hentries : t.entries with
    | nil => exact .inl ⟨rfl, by simpa [hentries] using hdecoder⟩
    | cons e entries => exact .inr (by rw [hdecoder, hentries]; rfl)
  refine ⟨_, readTable_declaration hname hwords hhidden fun e he => key_of_mem_entries h he, ?_⟩
  rw [List.forall₂_map_right_iff]
  refine h.imp fun slot e he => ?_
  obtain ⟨key, hkey, hne⟩ := he.key
  have hpos : key.toNat ≠ 0 := fun hzero => hne (UInt8.toNat_inj.1 hzero)
  have hlt := UInt8.toNat_lt key
  refine ⟨he.index_eq, ?_, ?_, e.literal, he.literal_eq, bytes_hidden _ e⟩
  · show 1 ≤ (e.key.getD 0).toNat
    rw [hkey]
    exact Nat.one_le_iff_ne_zero.2 hpos
  · show (e.key.getD 0).toNat ≤ 255
    rw [hkey]
    exact Nat.le_of_lt_succ hlt

/-- A plain table declares its constants as they were written, and a scan finds them there. -/
theorem declaration_plain {t : StringTable} {constants : List Span}
    (hname : isWord t.name = true) (hdecoder : t.decoder = none)
    (h : List.Forall₂ (IsEntryOf false) constants.zipIdx t.entries)
    (hconstants : ∀ s ∈ constants, IsStringLiteral s.text) :
    t.declaration = plainDeclaration t.name constants ∧
      ∃ found, scan t.declaration = .ok found ∧ stringTexts found = constants.map Span.text := by
  obtain ⟨hentries, htexts, hliterals⟩ := literals_of_entries h hconstants
  have hslots : t.entries.map (TableEntry.slot none) = constants.zipIdx.map plainSlot := by
    rw [eq_comm, ← List.forall₂_eq_eq_eq, List.forall₂_map_left_iff, List.forall₂_map_right_iff]
    refine hentries.imp fun slot e he => ?_
    rw [slot_none, he.1, he.2, plainSlot]
  constructor
  · rw [declaration_of_plain hdecoder, hslots]
    rfl
  · rw [← htexts]
    exact strings_declaration hname hdecoder hliterals

/-! ## References -/

section

variable {names : List Name} {table other : Name} {spans spans' : List Span}

/-- Each reference has one word, and no other span has a word that is one of the names. -/
theorem countP_words (hword : ∀ name ∈ names, isWord name = true) (h : OnlyReferences names spans) :
    (spans.flatMap Span.words).countP (fun w => names.contains w) =
      (spans.filter (Span.mentions names)).length := by
  induction spans with
  | nil => rfl
  | cons s spans ih =>
    obtain ⟨hs, hspans⟩ := List.forall_mem_cons.1 h
    rw [List.flatMap_cons, List.countP_append, ih hspans, List.filter_cons]
    split
    · next hmentions =>
      obtain ⟨slot, hslot⟩ := hs hmentions
      obtain ⟨name, hname, hwords⟩ := hslot.words hword
      rw [hwords, List.countP_singleton, List.contains_iff_mem.2 hname, List.length_cons]
      exact Nat.add_comm ..
    · next hmentions =>
      have hnone : s.words.countP (fun w => names.contains w) = 0 := by
        rw [Span.mentions, Bool.not_eq_true, List.any_eq_false] at hmentions
        exact List.countP_eq_zero.2 hmentions
      rw [hnone, Nat.zero_add]

theorem OnlyReferences.of_renamed {sites : List Occurrence} {slots : List (Span × Nat)}
    (h : List.Forall₂ (RenamedReference table other sites) slots
      (spans.filter (Span.mentions [table, other]))) : OnlyReferences [table, other] spans := by
  intro s hs hmentions
  obtain ⟨x, -, slot, argument, -, hslot⟩ :=
    exists_of_mem_right h (List.mem_filter.2 ⟨hs, hmentions⟩)
  refine ⟨slot, _, ?_, argument, hslot⟩
  split
  · exact List.mem_cons_of_mem _ (List.mem_singleton_self other)
  · exact List.mem_cons_self

theorem mentions_pair_self (table : Name) : Span.mentions [table, table] = Span.mentions [table] := by
  funext s
  simp [Span.mentions]

/-- The spans with one of the names, with and without their places. -/
theorem map_fst_mentions (names : List Name) (spans : List Span) :
    (spans.zipIdx.filter fun x => x.1.mentions names).map Prod.fst =
      spans.filter (Span.mentions names) := by
  rw [← List.zipIdx_map_fst 0 spans, List.filter_map, List.zipIdx_map_fst]
  rfl

/-- Without sites the references are those to the table. -/
theorem OnlyReferences.renamed_nil (h : OnlyReferences [table] spans) :
    List.Forall₂ (RenamedReference table table []) (spans.zipIdx.filter fun x => x.1.mentions [table])
      (spans.filter (Span.mentions [table, table])) := by
  rw [mentions_pair_self, ← map_fst_mentions, List.forall₂_map_right_iff, List.forall₂_same]
  intro x hx
  obtain ⟨hplace, hmentions⟩ := List.mem_filter.1 hx
  obtain ⟨slot, name, hname, argument, hslot⟩ :=
    h x.1 (List.fst_mem_of_mem_zipIdx hplace) hmentions
  obtain rfl := List.mem_singleton.1 hname
  exact ⟨slot, argument, hslot, hslot⟩

/-- A name that is free is no keyword. -/
theorem isKeyword_eq_false {n : Namespace} {name : Name} (h : name ∉ n.unavailable) :
    isKeyword name = false := by
  rw [isKeyword, ← Bool.not_eq_true, List.contains_iff_mem]
  intro hkey
  exact h (List.mem_append_left _ (List.mem_append_left _ (List.mem_append_left _ hkey)))

/-- If new names are taken, the new name of a name in use is in use too. -/
theorem Tracked.renamed {bindings : List Binding} {m m' : Mint} (h : Tracked [table] m)
    (htakes : m.names.Takes (bindings.map Binding.generated) m'.names)
    (hwords : ∀ b ∈ bindings, isWord b.generated = true) :
    Tracked [table, newName bindings table] m' := by
  have hmem := List.mem_singleton_self table
  have htaken : ∀ name, name ∈ m.names.taken ∨ name ∈ bindings.map Binding.generated →
      name ∈ m'.names.taken := by
    intro name hname
    rw [htakes.taken_eq, List.mem_append, List.mem_reverse]
    exact hname.symm
  have hnew : newName bindings table = table ∨
      ∃ b ∈ bindings, newName bindings table = b.generated := by
    by_cases hdeclared : table ∈ bindings.map Binding.declared
    · obtain ⟨b, hb, -, hnew⟩ := exists_binding_of_declared hdeclared
      exact .inr ⟨b, hb, hnew⟩
    · exact .inl (newName_of_not_mem hdeclared)
  rcases hnew with hnew | ⟨b, hb, hnew⟩
  · rw [hnew]
    constructor <;> simp only [List.forall_mem_cons]
    · exact ⟨h.word _ hmem, h.word _ hmem, nofun⟩
    · exact ⟨h.keyword _ hmem, h.keyword _ hmem, nofun⟩
    · exact ⟨htaken _ (.inl (h.taken _ hmem)), htaken _ (.inl (h.taken _ hmem)), nofun⟩
  · have hgenerated := List.mem_map_of_mem (f := Binding.generated) hb
    rw [hnew]
    constructor <;> simp only [List.forall_mem_cons]
    · exact ⟨h.word _ hmem, hwords b hb, nofun⟩
    · exact ⟨h.keyword _ hmem, isKeyword_eq_false (htakes.not_mem_unavailable _ hgenerated), nofun⟩
    · exact ⟨htaken _ (.inl (h.taken _ hmem)), htaken _ (.inr hgenerated), nofun⟩

/-- Renaming, guards and decoys keep all references, but for the name of those that are sites. -/
theorem references_runAll {rename : Option Strength} {passes : List Pass} {w w' : Work} {m : Mint}
    (hpasses : ∀ p ∈ passes, p.Inserts) (ht : Tracked [table] m)
    (htaken : ∀ s ∈ w.spans, ∀ x ∈ s.words, x ∈ m.names.taken)
    (h : OnlyReferences [table] w.spans)
    (hrun : (Pass.runAll w (rename.toList.map .rename ++ passes) m).1 = some w') :
    let found := resolve m.names.reserved (occurrences w.spans)
    ∃ other, isWord other = true ∧
      List.Forall₂ (RenamedReference table other (if rename.isSome then found.sites else []))
        (w.spans.zipIdx.filter fun x => x.1.mentions [table])
        (w'.spans.filter (Span.mentions [table, other])) ∧
      (other = table ↔ rename = none ∨ table ∉ found.declared) ∧
      w.declarations <+: w'.declarations := by
  intro found
  cases rename with
  | none =>
    obtain ⟨hfilter, hprefix⟩ := Pass.filter_runAll hpasses ht h hrun
    have hkept : w'.spans.filter (Span.mentions [table, table]) =
        w.spans.filter (Span.mentions [table, table]) := by
      rw [mentions_pair_self, hfilter]
    refine ⟨table, ht.word table (by simp), ?_, by simp, hprefix⟩
    rw [hkept]
    exact h.renamed_nil
  | some strength =>
    have hopen : (Pass.runAll w (.rename strength :: passes) m).1 = some w' := hrun
    obtain ⟨next, changed, hout, hnext⟩ := Pass.exists_of_runAll_cons hopen
    rw [hnext] at hopen
    obtain ⟨⟨spans, bindings⟩, hrenamed, hwork⟩ := Option.map_eq_some_iff.1 hout
    obtain ⟨rfl, -⟩ := Prod.mk.inj hwork
    replace hrenamed : (renameLocals strength w.spans m).1 = some (spans, bindings) := hrenamed
    have hword := ht.word table (by simp)
    obtain ⟨hreferences, hdeclared⟩ :=
      references_renameLocals hword (ht.taken table (by simp)) htaken h hrenamed
    obtain ⟨-, -, htakes, hwords⟩ := renameLocals_spec hrenamed
    generalize hother : newName bindings table = other at hreferences hdeclared
    have htracked : Tracked [table, other] (renameLocals strength w.spans m).2 := by
      rw [← hother]
      exact ht.renamed htakes hwords
    obtain ⟨hfilter, hprefix⟩ := Pass.filter_runAll hpasses htracked (.of_renamed hreferences) hopen
    refine ⟨other, htracked.word other (by simp), ?_, ?_, hprefix⟩
    · rw [hfilter]
      exact hreferences
    · rw [or_iff_right (by simp)]
      exact hdeclared

end

/-! ## Runs -/

/-- A run strips and extracts, renames if its plan says so, and then puts in guards and decoys. -/
theorem Plan.exists_last (p : Plan) (rules : Rules) :
    ∃ last, p.passes rules = [.strip (matchesAny rules.debugPatterns), .strings p.hideStrings] ++
        (p.rename.toList.map .rename ++ last) ∧
      ∀ pass ∈ last, pass = .guards rules.guardChance ∨
        pass = .decoys rules.decoyChance rules.decoyTemplates := by
  refine ⟨(if p.guards then [.guards rules.guardChance] else []) ++
    if p.decoys then [.decoys rules.decoyChance rules.decoyTemplates] else [], ?_, ?_⟩
  · simp [Plan.passes]
  · intro pass hpass
    rcases List.mem_append.1 hpass with hpass | hpass
    · exact .inl (List.mem_singleton.1 (List.mem_ite_nil_right.1 hpass).2)
    · exact .inr (List.mem_singleton.1 (List.mem_ite_nil_right.1 hpass).2)

/-- What is left after stripping and extraction, with what was done. -/
theorem runAll_start (isDebug : Text → Bool) (hide : Bool) (dialect : Dialect)
    (spans : List Span) (passes : List Pass) (m : Mint) :
    let report := (strip isDebug spans).2
    let out := extractStrings hide dialect (strip isDebug spans).1 m
    let w : Work := ⟨out.1.2, dialect, [out.1.1.declaration],
      ⟨0 + out.1.1.entries.length, 0, 0, 0, 0 + report.comments, 0 + report.debugLines⟩⟩
    let first := [.strip isDebug, .strings hide]
    Pass.runAll (.start spans dialect) (first ++ passes) m = Pass.runAll w passes out.2 ∧
      Pass.usesAll (.start spans dialect) m (first ++ passes) =
        out.1.1.uses ++ Pass.usesAll w out.2 passes :=
  ⟨rfl, rfl⟩

theorem runAll_strings (isDebug : Text → Bool) (hide : Bool) (dialect : Dialect)
    (spans : List Span) (passes : List Pass) (m : Mint) :
    let out := extractStrings hide dialect (strip isDebug spans).1 m
    ∃ stats, Pass.runAll (.start spans dialect) (.strip isDebug :: .strings hide :: passes) m =
      Pass.runAll ⟨out.1.2, dialect, [out.1.1.declaration], stats⟩ passes out.2 :=
  ⟨_, (runAll_start isDebug hide dialect spans passes m).1⟩

theorem hideStrings_iff (p : Preset) : p.plan.hideStrings = true ↔ p ≠ .minify := by
  cases p <;> decide

section

variable {rules : Rules} {r : Request} {source : Source} {spans : List Span} {v : Veiled}

/-- The name of the table is no word of the script. -/
theorem mentions_stripped (hscan : scan r.source = .ok spans) :
    ∀ s ∈ rules.stripped spans, s.mentions [(rules.extracted r source spans).1.name] = false := by
  obtain ⟨htakes, -⟩ := extractStrings_uses r.preset.plan.hideStrings r.dialect
    (rules.stripped spans) (rules.mint spans source)
  intro s hs
  refine mentions_eq_false fun w hw hname => ?_
  obtain rfl := List.mem_singleton.1 hname
  refine htakes.not_mem_unavailable _ List.mem_cons_self (List.mem_append_right _ ?_)
  exact (of_mem_strip (alternates_of_scan hscan).1 hs).2 _ hw

/-- The name of the table is in use after extraction, and so are all words of the script. -/
theorem tracked_extracted (hscan : scan r.source = .ok spans)
    (hplaces : List.Forall₂ (TakesPlace (rules.extracted r source spans).1.name)
      (rules.stripped spans) (rules.extracted r source spans).2) :
    let m := (extractStrings r.preset.plan.hideStrings r.dialect (rules.stripped spans)
      (rules.mint spans source)).2
    Tracked [(rules.extracted r source spans).1.name] m ∧
      ∀ s ∈ (rules.extracted r source spans).2, ∀ w ∈ s.words, w ∈ m.names.taken := by
  intro m
  obtain ⟨htakes, hwords⟩ := extractStrings_uses r.preset.plan.hideStrings r.dialect
    (rules.stripped spans) (rules.mint spans source)
  have htaken : ∀ w, w = (rules.extracted r source spans).1.name ∨
      w ∈ spans.flatMap Span.words → w ∈ m.names.taken := by
    intro w hw
    rw [htakes.taken_eq, List.mem_append, List.mem_reverse]
    refine hw.imp_left ?_
    rintro rfl
    exact List.mem_cons_self
  refine ⟨⟨?_, ?_, ?_⟩, fun s hs w hw => htaken w ?_⟩
  · exact fun name hname => List.mem_singleton.1 hname ▸ hwords _ List.mem_cons_self
  · intro name hname
    rw [List.mem_singleton.1 hname]
    exact isKeyword_eq_false (htakes.not_mem_unavailable _ List.mem_cons_self)
  · exact fun name hname => htaken name (.inl (List.mem_singleton.1 hname))
  · obtain ⟨old, hold, hplace⟩ := exists_of_mem_right hplaces hs
    rw [hplace.words_eq] at hw
    split at hw
    · exact .inl (List.mem_singleton.1 hw)
    · exact .inr ((of_mem_strip (alternates_of_scan hscan).1 hold).2 w hw)

/-- The entries of the table and the references to it belong to the constants in order. -/
theorem references_extracted (hscan : scan r.source = .ok spans) :
    let constants := (rules.stripped spans).filter Span.isConstant
    let out := rules.extracted r source spans
    List.Forall₂ (IsEntryOf r.preset.plan.hideStrings) constants.zipIdx out.1.entries ∧
      List.Forall₂ (IsReferenceTo [out.1.name]) constants.zipIdx
        (out.2.filter (Span.mentions [out.1.name])) ∧
      List.Forall₂ (TakesPlace out.1.name) (rules.stripped spans) out.2 ∧
      out.1.decoder.isSome = (r.preset.plan.hideStrings && !out.1.entries.isEmpty) := by
  have hnew : ∀ s ∈ rules.stripped spans,
      s.mentions [(Minting.freshName (rules.mint spans source)).1] = false := by
    rw [← name_extractStrings r.preset.plan.hideStrings r.dialect (rules.stripped spans)]
    exact mentions_stripped hscan
  obtain ⟨-, hentries, hreferences, hplaces, hdecoder⟩ :=
    @references_extractStrings r.preset.plan.hideStrings r.dialect _ _ hnew
  rw [Rules.stripped, filter_isLiteral hscan, ← Rules.stripped] at hentries hreferences
  exact ⟨hentries, hreferences, hplaces, hdecoder⟩

/-- The table and its decoder have names. -/
theorem isWord_extracted (rules : Rules) (r : Request) (source : Source) (spans : List Span) :
    let table := (rules.extracted r source spans).1
    isWord table.name = true ∧ ∀ decoder ∈ table.decoder, isWord decoder = true :=
  isWord_extractStrings r.preset.plan.hideStrings r.dialect (rules.stripped spans)
    (rules.mint spans source)

/--
The constants of a script after a run. Above the lowest preset the declaration of the table has a
slot with a key for each, in order, and the bytes of the slot are those of the constant; at the
lowest it has them as they were written. The references stand in their places, and later passes
keep them, but for their name: those that renaming takes for a variable, or for a use of it, have
its new name, and the others that of the table. There are such only if the table name is declared.
-/
theorem string_round_trip (h : rules.Finishes r source spans v)
    (htemplates : rules.decoyTemplates = Decoy.defaultTemplates) :
    let constants := (rules.stripped spans).filter Span.isConstant
    let name := (rules.extracted r source spans).1.name
    let script := (rules.extracted r source spans).2
    ∃ declaration more w other,
      (Pass.runAll (.start spans r.dialect) (r.preset.plan.passes rules)
        (rules.mint spans source)).1 = some w ∧
      v.declarations = declaration :: more ∧ v.body = render w.spans ∧
      (r.preset ≠ .minify → ∃ slots, readTable declaration = some (name, slots) ∧
        List.Forall₂ HiddenSlot.Holds constants.zipIdx slots) ∧
      (r.preset = .minify → declaration = plainDeclaration name constants ∧
        ∃ found, scan declaration = .ok found ∧ stringTexts found = constants.map Span.text) ∧
      List.Forall₂ (TakesPlace name) (rules.stripped spans) script ∧
      List.Forall₂ (IsReferenceTo [name]) constants.zipIdx
        (script.filter (Span.mentions [name])) ∧
      List.Forall₂ (RenamedReference name other (rules.sites r source spans))
        (script.zipIdx.filter fun x => x.1.mentions [name])
        (w.spans.filter (Span.mentions [name, other])) ∧
      (w.spans.flatMap Span.words).countP (fun x => [name, other].contains x) =
        constants.length ∧
      (other = name ↔ r.preset.plan.rename = none ∨
        name ∉ (resolve rules.reserved (occurrences script)).declared) := by
  intro constants name script
  have hscan := h.scanned
  have hveil := h.veiled
  obtain ⟨htakes, -⟩ := extractStrings_uses r.preset.plan.hideStrings r.dialect
    (rules.stripped spans) (rules.mint spans source)
  obtain ⟨hentries, hreferences, hplaces, hdecoder⟩ :=
    @references_extracted rules r source spans hscan
  obtain ⟨htracked, htaken⟩ := tracked_extracted hscan hplaces
  obtain ⟨hname, hdecoders⟩ : isWord name = true ∧ _ := isWord_extracted rules r source spans
  obtain ⟨w, hrun, rfl⟩ := veil_eq_some_iff.1 hveil
  obtain ⟨later, hpasses, hlast⟩ := r.preset.plan.exists_last rules
  have hlater : ∀ p ∈ later, p.Inserts := by
    intro p hp
    rcases hlast p hp with rfl | rfl
    · trivial
    · exact htemplates
  obtain ⟨stats, hstart⟩ := runAll_strings (matchesAny rules.debugPatterns)
    r.preset.plan.hideStrings r.dialect spans (r.preset.plan.rename.toList.map .rename ++ later)
    (rules.mint spans source)
  have hmore := hrun
  rw [hpasses, List.cons_append, List.cons_append, List.nil_append, hstart] at hmore
  have honly : OnlyReferences [name] script := .of_forall₂ hreferences
  obtain ⟨other, hother, hrenamed, hkept, hdeclarations⟩ :=
    references_runAll hlater htracked htaken honly hmore
  rw [htakes.reserved_eq] at hrenamed hkept
  obtain ⟨more, hmore⟩ : [(rules.extracted r source spans).1.declaration] <+: w.declarations :=
    hdeclarations
  refine ⟨(rules.extracted r source spans).1.declaration, more, w, other, hrun, hmore.symm, rfl,
    fun hpreset => ?_, fun hpreset => ?_, hplaces, hreferences, hrenamed, ?_, hkept⟩
  · have hhide := (hideStrings_iff r.preset).2 hpreset
    refine readTable_hidden hname hdecoders ?_ (hentries.imp fun slot e he => hhide ▸ he)
    rwa [hhide, Bool.true_and] at hdecoder
  · have hhide : r.preset.plan.hideStrings = false := by rw [hpreset]; rfl
    refine declaration_plain hname ?_ (hentries.imp fun slot e he => hhide ▸ he)
      fun s hs => isStringLiteral_of_isConstant hscan hs
    rw [hhide, Bool.false_and] at hdecoder
    simpa using hdecoder
  · have hmentioned : (script.zipIdx.filter fun x => x.1.mentions [name]).length =
        (script.filter (Span.mentions [name])).length := by
      rw [← map_fst_mentions, List.length_map]
    have hlength := hreferences.length_eq.trans (hmentioned.symm.trans hrenamed.length_eq)
    rw [List.length_zipIdx] at hlength
    rw [hlength]
    refine countP_words ?_ (.of_renamed hrenamed)
    simp [hname, hother]

end

/-- A script with a literal that is hidden. -/
def hiddenCall : Request :=
  ⟨"print(\"a\")".toList, .luau, .weak⟩

/-- The spans of the script. -/
def hiddenCallSpans : List Span :=
  [⟨.code, "print(".toList, 0, 6⟩, ⟨.string, "\"a\"".toList, 6, 9⟩, ⟨.code, [')'], 9, 10⟩]

theorem hidden_call_read : ∃ v, certainRules.Finishes hiddenCall multiples hiddenCallSpans v ∧
    certainRules.decoyTemplates = Decoy.defaultTemplates ∧
    ∃ declaration more name slots, v.declarations = declaration :: more ∧
      readTable declaration = some (name, slots) ∧
      List.Forall₂ HiddenSlot.Holds [(⟨.string, "\"a\"".toList, 6, 9⟩, 0)] slots := by
  have hveil : (veil (hiddenCall.preset.plan.passes certainRules) hiddenCall.dialect
      hiddenCallSpans (certainRules.mint hiddenCallSpans multiples)).1.isSome = true := by
    decide +kernel
  obtain ⟨v, hv⟩ := Option.isSome_iff_exists.1 hveil
  have hrun : certainRules.Finishes hiddenCall multiples hiddenCallSpans v :=
    ⟨by decide +kernel, by decide +kernel, hv⟩
  obtain ⟨declaration, more, -, -, -, hdeclarations, -, hhidden, -⟩ := string_round_trip hrun rfl
  obtain ⟨slots, hread, hslots⟩ := hhidden (by decide)
  have hconstants : ((certainRules.stripped hiddenCallSpans).filter Span.isConstant).zipIdx =
      [(⟨.string, "\"a\"".toList, 6, 9⟩, 0)] := by decide +kernel
  rw [hconstants] at hslots
  exact ⟨v, hrun, rfl, declaration, more, _, slots, hdeclarations, hread, hslots⟩

/-! ## A literal in the place of a name -/

/-- A script in which a literal stands where a name is declared. -/
def misplaced : Request :=
  ⟨"local \"x\"".toList, .luau, .weak⟩

/-- The literal of the script. -/
def misplacedLiteral : Span :=
  ⟨.string, "\"x\"".toList, 6, 9⟩

/-- The spans of the script. -/
def misplacedSpans : List Span :=
  [⟨.code, "local ".toList, 0, 6⟩, misplacedLiteral]

section

variable {name : Name}

/-- The literal gives way to a reference. -/
theorem extractStrings_misplaced (m : Mint) :
    (extractStrings true .luau misplacedSpans m).1.2 = [⟨.code, "local ".toList, 0, 6⟩,
      referenceAt (Minting.freshName m).1 (misplacedLiteral, 0) false] := by
  have hcallee : endsInCallee? "local ".toList = some false := by decide +kernel
  have hread : Literal.ofText? "\"x\"".toList = some ⟨.quote '"', ['x']⟩ := by decide +kernel
  rw [extractStrings]
  simp only [Minting.bind_apply]
  generalize Minting.freshName m = table
  split <;>
    · simp only [Minting.draw, misplacedSpans, misplacedLiteral, List.foldlM_cons,
        Extraction.step, hcallee, hread]
      rfl

theorem occurrences_misplaced (h : isWord name = true) :
    ∃ place, occurrences [⟨.code, "local ".toList, 0, 6⟩,
        referenceAt name (misplacedLiteral, 0) false] =
      [⟨.word "local".toList, 0, 0, false⟩, ⟨.word name, 1, 0, false⟩,
        ⟨.symbol ['['], 1, place, false⟩, ⟨.number, 1, place + 1, false⟩,
        ⟨.symbol [']'], 1, place + 2, false⟩] := by
  have hlocal : codeOccurrences 0 0 false "local ".toList =
      [⟨.word "local".toList, 0, 0, false⟩] := by decide +kernel
  have hslot : ∀ place, tokenizeFrom place ['[', '0', ']'] =
      [⟨.symbol, ['['], place⟩, ⟨.number, ['0'], place + 1⟩, ⟨.symbol, [']'], place + 2⟩] := by
    intro place
    have hopen : lexeme '[' ['0', ']'] = ⟨.symbol, [], ['0', ']']⟩ := rfl
    have hnumber : lexeme '0' [']'] = ⟨.number, [], [']']⟩ := rfl
    have hclose : lexeme ']' [] = ⟨.symbol, [], []⟩ := rfl
    rw [tokenizeFrom, hopen, tokenizeFrom, hnumber, tokenizeFrom, hclose, tokenizeFrom]
    rfl
  have htokens : tokenize (StringTable.reference name 0 false) =
      ⟨.word, name, 0⟩ :: tokenizeFrom (0 + Text.byteSize name) ['[', '0', ']'] := by
    cases name with
    | nil => cases h
    | cons c w =>
      have htext : StringTable.reference (c :: w) 0 false = c :: (w ++ ['[', '0', ']']) := by
        simp [StringTable.reference, Number.decimal, Number.digits]
      rw [htext, tokenize, tokenizeFrom, lexeme_of_isWord h]
      intro d hd
      obtain rfl := Option.some.inj hd
      decide
  refine ⟨0 + Text.byteSize name, ?_⟩
  show codeOccurrences 0 0 false _ ++ (codeOccurrences 1 0 false _ ++ []) = _
  rw [hlocal, codeOccurrences, referenceAt, htokens, hslot]
  simp [Token.mark?]

open ScopeState in
theorem resolve_misplaced {reserved : Reserved} {name : Name} (hkey : isKeyword name = false)
    (hreserved : reserved.contains name = false) (place : Nat) :
    resolve reserved [⟨.word "local".toList, 0, 0, false⟩, ⟨.word name, 1, 0, false⟩,
        ⟨.symbol ['['], 1, place, false⟩, ⟨.number, 1, place + 1, false⟩,
        ⟨.symbol [']'], 1, place + 2, false⟩] = ⟨[name], [⟨.word name, 1, 0, false⟩]⟩ := by
  let word : Occurrence := ⟨.word "local".toList, 0, 0, false⟩
  let o : Occurrence := ⟨.word name, 1, 0, false⟩
  let os : List Occurrence := [⟨.symbol ['['], 1, place, false⟩, ⟨.number, 1, place + 1, false⟩,
    ⟨.symbol [']'], 1, place + 2, false⟩]
  let t : ScopeState := { initial with scope := [name], declared := [name], sites := [o] }
  have hname : o.mark.isName = true := by simp [o, Mark.isName, hkey]
  have hnames : (Cursor.after (some word.mark) (o :: os)).names =
      ([o], .after (some o.mark) os) := by
    rw [Cursor.names_after rfl hname rfl]
    rfl
  have hlocal : initial.localNames reserved (.after (some word.mark) (o :: os)) =
      (t, .after (some o.mark) os) := by
    rw [localNames, hnames]
    simp only [declareAll, List.filter_cons, o, Mark.text, hreserved]
    rfl
  have hstep : initial.step reserved (.start (word :: o :: os)) word
      (.after (some word.mark) (o :: os)) = (t, .after (some o.mark) os) :=
    (step_local rfl (@Cursor.not_function_of_isName (o :: os) _ hname)).trans hlocal
  have hwalk : initial.walk reserved (.start (word :: o :: os)) =
      t.walk reserved (.after (some o.mark) os) := walk_of_step rfl rfl hstep
  rw [resolve, hwalk, walk_cons rfl, if_neg Bool.false_ne_true, walk_cons rfl, if_neg Bool.false_ne_true,
    walk_cons rfl, if_neg Bool.false_ne_true, walk_nil rfl]
  rfl

theorem bindAll_misplaced {m : Mint} (h : m.names.isAvailable ['a'] = true) (name : Name) :
    ((Candidates.numerals 0).bindAll [name] m).1 = some [⟨name, ['a']⟩] := by
  have hclaim : Minting.claim ['a'] m = (true, { m with names := m.names.take ['a'] }) := by
    rw [Minting.claim, Namespace.claim?, if_pos h]
  have hnext : ∀ source, (Candidates.numerals 0).next source = ((['a'], .numerals 1), source) := by
    intro source
    have hdigits : Number.digits 36 (letterLed 0) = ['a'] := by decide +kernel
    rw [Candidates.next, hdigits]
    rfl
  have hfirst : (Candidates.numerals 0).claim m =
      (some (['a'], .numerals 1), { m with names := m.names.take ['a'] }) := by
    rw [Candidates.claim, Minting.bind_apply]
    show Candidates.claimWithin (m.names.unavailable.length + 1) (.numerals 0) m = _
    rw [Candidates.claimWithin, Minting.bind_apply]
    simp only [Minting.draw, hnext]
    rw [Minting.bind_apply]
    rw [hclaim]
    rfl
  rw [Candidates.bindAll, Minting.bind_apply, hfirst]
  rfl

theorem renameSites_misplaced (h : isWord name = true) :
    renameSites (newName [⟨name, ['a']⟩]) [⟨.word name, 1, 0, false⟩]
        [⟨.code, "local ".toList, 0, 6⟩, referenceAt name (misplacedLiteral, 0) false] =
      [⟨.code, "local ".toList, 0, 6⟩, ⟨.code, "a[0]".toList, 6, 9⟩] := by
  obtain ⟨c, w, rfl⟩ : ∃ c w, name = c :: w := by
    cases name with
    | nil => cases h
    | cons c w => exact ⟨c, w, rfl⟩
  have hnew : newName [⟨c :: w, ['a']⟩] (c :: w) = ['a'] := by simp [newName]
  have hsplice : splice (newName [⟨c :: w, ['a']⟩]) 0 [⟨.word (c :: w), 1, 0, false⟩]
      (StringTable.reference (c :: w) 0 false) = "a[0]".toList := by
    have htext : StringTable.reference (c :: w) 0 false = c :: (w ++ ['[', '0', ']']) := by
      simp [StringTable.reference, Number.decimal, Number.digits]
    have hcut : Text.splitAtByte 0 (c :: (w ++ ['[', '0', ']'])) =
        ([], c :: w ++ ['[', '0', ']']) := rfl
    rw [htext, splice]
    simp only [Mark.text, Nat.sub_zero, hcut, hnew, List.drop_left]
    rfl
  show [Span.mk .code _ 0 6, Span.mk .code _ 6 9] = _
  rw [← hsplice]
  rfl

theorem renameLocals_misplaced {m : Mint} (hword : isWord name = true)
    (hkey : isKeyword name = false) (hreserved : m.names.reserved.contains name = false)
    (havailable : m.names.isAvailable ['a'] = true) :
    (renameLocals .low [⟨.code, "local ".toList, 0, 6⟩,
        referenceAt name (misplacedLiteral, 0) false] m).1 =
      some ([⟨.code, "local ".toList, 0, 6⟩, ⟨.code, "a[0]".toList, 6, 9⟩],
        [⟨name, ['a']⟩]) := by
  obtain ⟨place, hoccurrences⟩ := occurrences_misplaced hword
  have hbind := bindAll_misplaced havailable name
  have hresolve := resolve_misplaced hkey hreserved place
  rw [← hoccurrences] at hresolve
  rw [renameLocals_of_ne_nil (by rw [hresolve]; exact List.cons_ne_nil _ _), hresolve]
  show ((Candidates.numerals 0).bindAll [name] m).1.map _ = _
  rw [hbind, Option.map_some, renameSites_misplaced hword]

/-- The reference is taken for a declaration, and renamed. -/
theorem runAll_misplaced (source : Source) : ∃ w,
    (Pass.runAll (.start misplacedSpans misplaced.dialect)
      (misplaced.preset.plan.passes certainRules)
      (certainRules.mint misplacedSpans source)).1 = some w ∧
    w.spans = [⟨.code, "local ".toList, 0, 6⟩, ⟨.code, "a[0]".toList, 6, 9⟩] := by
  have hstripped : (strip (matchesAny []) misplacedSpans).1 = misplacedSpans := by decide +kernel
  obtain ⟨stats, hstart⟩ := runAll_strings (matchesAny []) true .luau misplacedSpans [.rename .low]
    (certainRules.mint misplacedSpans source)
  rw [hstripped] at hstart
  show ∃ w, (Pass.runAll (.start misplacedSpans .luau)
    [.strip (matchesAny []), .strings true, .rename .low] _).1 = some w ∧ _
  rw [hstart]
  obtain ⟨htakes, hwords⟩ := extractStrings_uses true .luau misplacedSpans
    (certainRules.mint misplacedSpans source)
  have hlettered := isLettered_of_mem_uses true .luau misplacedSpans
    (certainRules.mint misplacedSpans source)
  have hspans := extractStrings_misplaced (certainRules.mint misplacedSpans source)
  rw [← name_extractStrings true .luau misplacedSpans] at hspans
  generalize extractStrings true .luau misplacedSpans (certainRules.mint misplacedSpans source) =
    out at *
  have hfree := htakes.not_mem_unavailable out.1.1.name List.mem_cons_self
  have hreserved : out.2.names.reserved.contains out.1.1.name = false := by
    rw [htakes.reserved_eq, Reserved.contains, ← Bool.not_eq_true, List.contains_iff_mem]
    exact fun hmem => hfree (List.mem_append_left _ hmem)
  have havailable : out.2.names.isAvailable ['a'] = true := by
    rw [Namespace.isAvailable_iff, Namespace.unavailable, htakes.reserved_eq, htakes.taken_eq,
      List.mem_append, List.mem_append, List.mem_reverse]
    rintro (hmem | hmem | hmem)
    · exact absurd hmem (by decide +kernel : ['a'] ∉ Reserved.default.names)
    · obtain ⟨u, hu, hua⟩ := List.mem_map.1 hmem
      obtain ⟨word, hword, -⟩ := hlettered u hu
      rw [hword] at hua
      cases hua
    · exact absurd hmem
        (by decide +kernel : ['a'] ∉ (Namespace.ofSpans .default misplacedSpans).taken)
  have hrenamed := renameLocals_misplaced (hwords _ List.mem_cons_self) (isKeyword_eq_false hfree)
    hreserved havailable
  rw [← hspans] at hrenamed
  rw [Pass.runAll, Minting.bind_apply]
  rw [Pass.run_rename, hrenamed]
  exact ⟨_, rfl, rfl⟩

/-- After any run the name of the table is no word of the script. -/
theorem finishes_misplaced (source : Source) : ∃ v w,
    certainRules.Finishes misplaced source misplacedSpans v ∧
      (Pass.runAll (.start misplacedSpans misplaced.dialect)
        (misplaced.preset.plan.passes certainRules)
        (certainRules.mint misplacedSpans source)).1 = some w ∧
      v.body = render w.spans ∧
      ((certainRules.stripped misplacedSpans).filter Span.isConstant).length = 1 ∧
      (w.spans.flatMap Span.words).count
        (certainRules.extracted misplaced source misplacedSpans).1.name = 0 := by
  obtain ⟨w, hrun, hspans⟩ := runAll_misplaced source
  have hscan : scan misplaced.source = .ok misplacedSpans := by decide +kernel
  refine ⟨_, w, ⟨by decide +kernel, hscan, veil_eq_some_iff.2 ⟨w, hrun, rfl⟩⟩, hrun, rfl,
    by decide +kernel, ?_⟩
  have hwords : w.spans.flatMap Span.words = ["local".toList, ['a']] := by
    rw [hspans]
    decide +kernel
  obtain ⟨word, hname, -⟩ := isLettered_of_mem_uses true .luau
    (certainRules.stripped misplacedSpans) (certainRules.mint misplacedSpans source) _
    List.mem_cons_self
  replace hname : (certainRules.extracted misplaced source misplacedSpans).1.name = '_' :: word :=
    hname
  rw [hwords, hname]
  refine List.count_eq_zero.2 fun hmem => ?_
  simp only [List.mem_cons, List.not_mem_nil, or_false] at hmem
  rcases hmem with hmem | hmem <;> cases hmem

end

/-- The script has one constant, but after the run the name of the table is no word of it. -/
theorem misplaced_literal_renamed :
    let source := (Seed.ofNumber 1).source
    ∃ v w, certainRules.Finishes misplaced source misplacedSpans v ∧
      (Pass.runAll (.start misplacedSpans misplaced.dialect)
        (misplaced.preset.plan.passes certainRules)
        (certainRules.mint misplacedSpans source)).1 = some w ∧
      v.body = render w.spans ∧
      ((certainRules.stripped misplacedSpans).filter Span.isConstant).length = 1 ∧
      (w.spans.flatMap Span.words).count
        (certainRules.extracted misplaced source misplacedSpans).1.name = 0 :=
  finishes_misplaced (Seed.ofNumber 1).source

end LuaVeil
