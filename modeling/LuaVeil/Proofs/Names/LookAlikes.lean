/-
# Look-alike names

There are 354294 look-alike names. Whatever is drawn, every new name is one of
them, so that they can run out: the search for a new name, which draws them
without a bound, can go on exactly as long as one of them is available. Scripts
may have more local variables than that.

Main statements:

* `next_mem_lookAlikeNames` and `exists_gives_next`, the look-alike names are what
  is drawn;
* `Reaches.lookAlikesLeft_add`, how many are left at every place of a search;
* `declared_of_scopes`, the variables of a script that has many;
* `lookAlikes_suffice_iff`, when there are enough.
-/
import LuaVeil.Proofs.Names.Search
import LuaVeil.Proofs.Random.Draws
import LuaVeil.Proofs.Scope.Keys
import LuaVeil.Proofs.Scope.Order
import Mathlib.Data.List.ProdSigma

namespace LuaVeil

/-! ## Texts of one length -/

/-- The texts with one of some characters in front of one of some texts. -/
def headed (heads : List Char) (tails : List Text) : List Text :=
  (heads ×ˢ tails).map fun p => p.1 :: p.2

/-- The texts of a length over an alphabet. -/
def textsOver (alphabet : List Char) : Nat → List Text
  | 0 => [[]]
  | n + 1 => headed alphabet (textsOver alphabet n)

theorem mem_headed {heads : List Char} {tails : List Text} {t : Text} :
    t ∈ headed heads tails ↔ ∃ c ∈ heads, ∃ rest ∈ tails, c :: rest = t := by
  simp only [headed, List.mem_map, Prod.exists, List.mem_product, and_assoc, exists_and_left]

theorem length_headed (heads : List Char) (tails : List Text) :
    (headed heads tails).length = heads.length * tails.length := by
  rw [headed, List.length_map, List.length_product]

theorem nodup_headed {heads : List Char} {tails : List Text} (hheads : heads.Nodup)
    (htails : tails.Nodup) : (headed heads tails).Nodup :=
  (hheads.product htails).map fun _ _ h =>
    Prod.ext (List.cons.inj h).1 (List.cons.inj h).2

theorem length_textsOver (alphabet : List Char) (n : Nat) :
    (textsOver alphabet n).length = alphabet.length ^ n := by
  induction n with
  | zero => rfl
  | succ n ih => rw [textsOver, length_headed, ih, Nat.pow_succ']

theorem nodup_textsOver {alphabet : List Char} (h : alphabet.Nodup) (n : Nat) :
    (textsOver alphabet n).Nodup := by
  induction n with
  | zero => exact List.nodup_singleton []
  | succ n ih => exact nodup_headed h ih

theorem mem_of_mem_textsOver {alphabet : List Char} {n : Nat} {t : Text}
    (h : t ∈ textsOver alphabet n) : ∀ c ∈ t, c ∈ alphabet := by
  induction n generalizing t with
  | zero =>
    obtain rfl := List.mem_singleton.1 h
    nofun
  | succ n ih =>
    obtain ⟨c, hc, rest, hrest, rfl⟩ := mem_headed.1 h
    exact List.forall_mem_cons.2 ⟨hc, ih hrest⟩

namespace Minting

theorem drawChars_mem {alphabet : List Char} (h : alphabet ≠ []) (n : Nat) (s : Source) :
    (drawChars alphabet n s).1 ∈ textsOver alphabet n := by
  induction n generalizing s with
  | zero => exact List.mem_singleton.2 rfl
  | succ n ih => exact mem_headed.2 ⟨_, Draw.pick_mem h 'a' s, _, ih _, rfl⟩

theorem exists_gives_drawChars {alphabet : List Char} (h : alphabet.length ≤ 2 ^ 64) {n : Nat}
    {t : Text} (ht : t ∈ textsOver alphabet n) :
    ∃ words, (drawChars alphabet n).Gives words t := by
  induction n generalizing t with
  | zero =>
    obtain rfl := List.mem_singleton.1 ht
    exact ⟨[], .pure []⟩
  | succ n ih =>
    obtain ⟨c, hc, rest, hrest, rfl⟩ := mem_headed.1 ht
    obtain ⟨words, hwords⟩ := Draw.exists_gives_pick 'a' hc h
    obtain ⟨more, hmore⟩ := ih hrest
    exact ⟨_, hwords.bind (hmore.bind (.pure _))⟩

end Minting

/-! ## Look-alike names -/

namespace Candidates

/-- All look-alike names. -/
def lookAlikeNames : List Name :=
  headed ['l', 'I'] (textsOver ['l', 'I', '1'] lookAlikeTail)

theorem length_lookAlikeNames : lookAlikeNames.length = lookAlikeCount := by
  rw [lookAlikeNames, length_headed, length_textsOver]
  rfl

theorem nodup_lookAlikeNames : lookAlikeNames.Nodup :=
  nodup_headed (by decide) (nodup_textsOver (by decide) _)

/-- A name with another character is none of them. -/
theorem not_mem_lookAlikeNames {name : Name} (h : name.all ['l', 'I', '1'].contains = false) :
    name ∉ lookAlikeNames := by
  intro hmem
  obtain ⟨first, hfirst, rest, hrest, rfl⟩ := mem_headed.1 hmem
  have hinit : first ∈ ['l', 'I', '1'] := List.mem_append_left ['1'] hfirst
  have hall := List.forall_mem_cons.2 ⟨hinit, mem_of_mem_textsOver hrest⟩
  rw [← Bool.not_eq_true, List.all_eq_true] at h
  exact h fun c hc => List.contains_iff_mem.2 (hall c hc)

/-- A look-alike name is drawn. -/
theorem next_mem_lookAlikeNames (s : Source) :
    (lookAlikes.next s).1.1 ∈ lookAlikeNames := by
  have hfirst := Draw.pick_mem (by simp : ['l', 'I'] ≠ []) 'l'
  have hmore := Minting.drawChars_mem (by simp : ['l', 'I', '1'] ≠ []) lookAlikeTail
  unfold next
  generalize Draw.pick 'l' ['l', 'I'] = first at hfirst ⊢
  generalize Minting.drawChars ['l', 'I', '1'] lookAlikeTail = more at hmore ⊢
  exact mem_headed.2 ⟨_, hfirst s, _, hmore _, rfl⟩

/-- Every look-alike name is drawn for some words. -/
theorem exists_gives_next {name : Name} (h : name ∈ lookAlikeNames) :
    ∃ words, lookAlikes.next.Gives words (name, lookAlikes) := by
  obtain ⟨c, hc, rest, hrest, rfl⟩ := mem_headed.1 h
  obtain ⟨words, hwords⟩ := Draw.exists_gives_pick 'l' hc (by decide)
  obtain ⟨more, hmore⟩ := Minting.exists_gives_drawChars (by decide) hrest
  exact ⟨_, hwords.bind (hmore.bind (.pure _))⟩

/-- How many look-alike names are available. -/
def lookAlikesLeft (n : Namespace) : Nat :=
  lookAlikeNames.countP n.isAvailable

theorem lookAlikesLeft_le (n : Namespace) : lookAlikesLeft n ≤ lookAlikeCount :=
  length_lookAlikeNames ▸ List.countP_le_length

/-- One look-alike name less is left when one is taken. -/
theorem lookAlikesLeft_take {n : Namespace} {name : Name} (hname : name ∈ lookAlikeNames)
    (free : n.isAvailable name = true) :
    lookAlikesLeft (n.take name) + 1 = lookAlikesLeft n := by
  have hfilter : lookAlikeNames.filter (n.take name).isAvailable =
      (lookAlikeNames.filter n.isAvailable).erase name := by
    rw [(nodup_lookAlikeNames.filter _).erase_eq_filter, List.filter_filter]
    refine List.filter_congr fun other _ => ?_
    rw [Bool.eq_iff_iff, Namespace.isAvailable_take, Bool.and_eq_true, bne_iff_ne]
  have hmem : name ∈ lookAlikeNames.filter n.isAvailable := List.mem_filter.2 ⟨hname, free⟩
  rw [lookAlikesLeft, lookAlikesLeft, List.countP_eq_length_filter, List.countP_eq_length_filter,
    hfilter, List.length_erase_of_mem hmem]
  exact Nat.sub_add_cancel (List.length_pos_of_mem hmem)

/-! ## Places of a search -/

/--
The search for new names comes from a counter, a mint and the variables that have no name yet to
others, in some rounds.
-/
inductive Reaches (s : Strength) : Nat → Mint → List Name → Nat → Mint → List Name → Prop
  | refl {n : Nat} {m : Mint} {rest : List Name} : Reaches s n m rest n m rest
  | refused {n n' n'' : Nat} {m m' m'' : Mint} {name : Name} {rest rest' : List Name}
      (round : searchRound s n m = (.inl n', m'))
      (more : Reaches s n' m' (name :: rest) n'' m'' rest') :
      Reaches s n m (name :: rest) n'' m'' rest'
  | named {n n' n'' : Nat} {m m' m'' : Mint} {name new : Name} {rest rest' : List Name}
      (round : searchRound s n m = (.inr (new, n'), m'))
      (more : Reaches s n' m' rest n'' m'' rest') : Reaches s n m (name :: rest) n'' m'' rest'

/-- Whether some random words make the search go on with a new name. -/
def CanFind (s : Strength) (n : Nat) (names : Namespace) : Prop :=
  ∃ source found m, searchRound s n ⟨names, source⟩ = (.inr found, m)

/-- A round takes no name, or a look-alike name. -/
theorem searchRound_high {n : Nat} {m m' : Mint} {result : Nat ⊕ (Name × Nat)}
    (h : searchRound .high n m = (result, m')) :
    (∃ n', result = .inl n') ∧ m'.names = m.names ∨
      ∃ name ∈ lookAlikeNames, m.names.isAvailable name = true ∧ (∃ n', result = .inr (name, n')) ∧
        m'.names = m.names.take name := by
  have hlook := next_mem_lookAlikeNames m.source
  rcases hnext : lookAlikes.next m.source with ⟨⟨drawn, next⟩, source⟩
  rw [hnext] at hlook
  obtain ⟨candidate?, n', hat, ⟨hresult, hnames, -⟩ | ⟨name, rfl, free, hresult, htake⟩⟩ :=
    searchRound_cases h
  · exact .inl ⟨⟨n', hresult⟩, hnames⟩
  · obtain ⟨rfl, -⟩ : drawn = name ∧ n = n' := by
      simpa using congrArg Prod.fst ((candidateAt_high hnext).2.symm.trans hat)
    exact .inr ⟨drawn, hlook, free, ⟨n', hresult⟩, htake⟩

/-- With every new name one look-alike name less is left. -/
theorem Reaches.lookAlikesLeft_add {n n' : Nat} {m m' : Mint} {declared rest : List Name}
    (h : Reaches .high n m declared n' m' rest) :
    lookAlikesLeft m'.names + declared.length = lookAlikesLeft m.names + rest.length := by
  induction h with
  | refl => rfl
  | refused round _ ih =>
    obtain ⟨-, hsame⟩ | ⟨_, -, -, ⟨_, hresult⟩, -⟩ := searchRound_high round
    · rwa [hsame] at ih
    · cases hresult
  | named round _ ih =>
    obtain ⟨⟨_, hresult⟩, -⟩ | ⟨name, hname, free, -, htake⟩ := searchRound_high round
    · cases hresult
    · have hleft := lookAlikesLeft_take hname free
      rw [htake] at ih
      rw [List.length_cons]
      omega

/-- A new name can be found exactly if a look-alike name is left. -/
theorem canFind_high_iff {n : Nat} {names : Namespace} :
    CanFind .high n names ↔ 0 < lookAlikesLeft names := by
  rw [lookAlikesLeft, List.countP_pos_iff]
  constructor
  · rintro ⟨source, found, m, hround⟩
    obtain ⟨⟨_, hresult⟩, -⟩ | ⟨name, hname, free, -⟩ := searchRound_high hround
    · cases hresult
    · exact ⟨name, hname, free⟩
  · rintro ⟨name, hname, free⟩
    obtain ⟨words, hwords⟩ := exists_gives_next hname
    obtain ⟨-, hat⟩ := candidateAt_high (n := n) (hwords _ (Source.hasNext_ofWords words))
    exact ⟨.ofWords words, _, _, (searchRound_some (m := ⟨names, _⟩) hat).trans (if_pos free)⟩

/-! ## Searches that end, and searches that do not -/

/-- A search that ends is a way to the next variable. -/
theorem reaches_of_loopRuns {s : Strength} {n n'' k : Nat} {m m' m'' : Mint} {found : Name × Nat}
    (h : Minting.LoopRuns (searchRound s) n m k found m') {name : Name} {rest rest' : List Name}
    (more : Reaches s found.2 m' rest n'' m'' rest') :
    Reaches s n m (name :: rest) n'' m'' rest' := by
  induction h with
  | stop last => exact .named last more
  | again round _ ih => exact .refused round (ih more)

theorem BindsAll.reaches {s : Strength} {n k : Nat} {m m' : Mint} {declared : List Name}
    {bindings : List Binding} (h : BindsAll s n m declared k bindings m') (rest : List Name) :
    ∃ n', Reaches s n m (declared ++ rest) n' m' rest := by
  induction h with
  | nil => exact ⟨_, .refl⟩
  | cons search _ ih =>
    obtain ⟨n', hmore⟩ := ih
    exact ⟨n', reaches_of_loopRuns search hmore⟩

/-- A search tries the first candidate at least. -/
theorem claim_of_isAvailable {c next : Candidates} {names : Namespace} {source source' : Source}
    {name : Name} (hnext : c.next source = ((name, next), source'))
    (free : names.isAvailable name = true) :
    c.claim ⟨names, source⟩ = (some (name, next), ⟨names.take name, source'⟩) := by
  have hpatience : c.patience names ≠ 0 := by
    cases c with
    | lookAlikes =>
      have hpos : lookAlikePatience ≠ 0 := by decide +kernel
      rwa [patience]
    | numerals _ => exact Nat.succ_ne_zero _
    | hexadecimal _ => exact Nat.succ_ne_zero _
  rw [claim_eq]
  generalize c.patience _ = tries at hpatience ⊢
  cases tries with
  | zero => exact absurd rfl hpatience
  | succ tries =>
    rw [claimWithin_succ hnext]
    exact if_pos free

/-- Look-alike names that can be taken in order are the new names for some words. -/
theorem exists_bindAll {new declared : List Name} {names names' : Namespace}
    (htakes : names.Takes new names') (hnew : ∀ name ∈ new, name ∈ lookAlikeNames)
    (hlength : declared.length = new.length) :
    ∃ words, ∀ source : Source, source.HasNext words →
      ∃ bindings m, lookAlikes.bindAll declared ⟨names, source⟩ = (some bindings, m) := by
  induction htakes generalizing declared with
  | nil =>
    obtain rfl := List.length_eq_zero_iff.1 hlength
    exact ⟨[], fun source _ => ⟨[], ⟨_, source⟩, rfl⟩⟩
  | @cons names names' name new free _ ih =>
    cases declared with
    | nil => cases hlength
    | cons old declared =>
      obtain ⟨hname, hnew⟩ := List.forall_mem_cons.1 hnew
      obtain ⟨words, hwords⟩ := exists_gives_next hname
      obtain ⟨later, hlater⟩ := ih hnew (Nat.succ.inj hlength)
      refine ⟨words ++ later, fun source hsource => ?_⟩
      obtain ⟨hfirst, hrest⟩ := hsource.append
      obtain ⟨more, m, hmore⟩ := hlater _ hrest
      have hclaim := claim_of_isAvailable (hwords source hfirst) free
      refine ⟨⟨old, name⟩ :: more, m, ?_⟩
      rw [bindAll, Minting.bind_apply, hclaim]
      simp only [Minting.bind_apply, hmore]
      rfl

/-- If there are enough look-alike names, some words make the search end. -/
theorem exists_bindAll_of_le {names : Namespace} {declared : List Name}
    (h : declared.length ≤ lookAlikesLeft names) :
    ∃ source bindings m, lookAlikes.bindAll declared ⟨names, source⟩ = (some bindings, m) := by
  obtain ⟨new, hnew⟩ : ∃ new,
      new = (lookAlikeNames.filter names.isAvailable).take declared.length := ⟨_, rfl⟩
  have hmem : ∀ name ∈ new, name ∈ lookAlikeNames ∧ names.isAvailable name = true :=
    fun name hname => List.mem_filter.1 (List.mem_of_mem_take (hnew ▸ hname))
  have hnodup : new.Nodup :=
    hnew ▸ (nodup_lookAlikeNames.filter _).sublist (List.take_sublist _ _)
  have hlength : declared.length = new.length := by
    rw [hnew, List.length_take, ← List.countP_eq_length_filter]
    exact (Nat.min_eq_left h).symm
  obtain ⟨names', htakes⟩ := Namespace.exists_takes hnodup fun name hname => (hmem name hname).2
  obtain ⟨words, hwords⟩ := exists_bindAll htakes (fun name hname => (hmem name hname).1) hlength
  exact ⟨.ofWords words, hwords _ (Source.hasNext_ofWords words)⟩

/-- A search that ends had enough look-alike names. -/
theorem BindsAll.length_le {n k : Nat} {m m' : Mint} {declared : List Name}
    {bindings : List Binding} (h : BindsAll .high n m declared k bindings m') :
    declared.length ≤ lookAlikesLeft m.names := by
  obtain ⟨n', hreaches⟩ := h.reaches []
  have hleft := hreaches.lookAlikesLeft_add
  rw [List.append_nil, List.length_nil] at hleft
  omega

/-- If there are not enough, some words lead to a place where no new name can be found. -/
theorem exists_stuck_of_lt {names : Namespace} {declared : List Name}
    (h : lookAlikesLeft names < declared.length) :
    ∃ source n m name rest, Reaches .high 0 ⟨names, source⟩ declared n m (name :: rest) ∧
      ¬ CanFind .high n m.names := by
  obtain ⟨first, rest, hsplit, hfirst⟩ : ∃ first rest, first ++ rest = declared ∧
      first.length = lookAlikesLeft names :=
    ⟨_, _, List.take_append_drop (lookAlikesLeft names) declared, List.length_take_of_le h.le⟩
  obtain ⟨source, bindings, m, hbind⟩ := exists_bindAll_of_le hfirst.le
  obtain ⟨k, hrun⟩ := bindsAll_of_bindAll (n := 0) .high hbind
  obtain ⟨n, hreaches⟩ := hrun.reaches rest
  have hleft := hreaches.lookAlikesLeft_add
  rw [List.length_append] at hleft
  dsimp only at hleft
  cases rest with
  | nil =>
    rw [← hsplit, List.append_nil] at h
    omega
  | cons name rest =>
    refine ⟨source, n, m, name, rest, hsplit ▸ hreaches, ?_⟩
    rw [canFind_high_iff]
    omega

end Candidates

/-! ## Scripts with many local variables -/

/-- A chunk of blocks, each of which declares some names. -/
def scopes : List (Identifier × List Identifier) → Tree .block
  | [] => .done
  | (n, ns) :: more => .next (.doBlock (.next (.localNames n ns) false .done)) false (scopes more)

theorem isPlain_scopes (groups : List (Identifier × List Identifier)) :
    (scopes groups).IsPlain false := by
  induction groups with
  | nil => trivial
  | cons g more ih =>
    refine ⟨⟨trivial, trivial, .inr rfl, by simp⟩, ih, .inr ?_, by simp⟩
    cases more with
    | nil => rfl
    | cons g more => rfl

theorem terminals_scopes (n : Identifier) (ns : List Identifier)
    (more : List (Identifier × List Identifier)) :
    (scopes ((n, ns) :: more)).terminals =
      .keyword "do" :: .keyword "local" ::
        (commaNames n ns ++ .keyword "end" :: (scopes more).terminals) := by
  simp [scopes, Tree.terminals, semicolonIf]

theorem roles_scopes (n : Identifier) (ns : List Identifier)
    (more : List (Identifier × List Identifier)) (env : List Name) :
    (scopes ((n, ns) :: more)).roles env =
      .other :: .other ::
        (declaredRoles (commaNames n ns) ++ .other :: (scopes more).roles env) := by
  simp [scopes, Tree.roles, Tree.binds, otherRoles, semicolonIf]

/-- The sites of such a chunk are the names of its blocks. -/
theorem texts_localSites_scopes {reserved : Reserved} {groups : List (Identifier × List Identifier)}
    (hfree : ∀ g ∈ groups, ∀ name ∈ texts (g.1 :: g.2), reserved.contains name = false)
    {os : List Occurrence} (h : Spells os (scopes groups).terminals) (env : List Name) :
    (localSites reserved os ((scopes groups).roles env)).map (fun o => o.mark.text) =
      groups.flatMap fun g => texts (g.1 :: g.2) := by
  induction groups generalizing os with
  | nil =>
    obtain rfl := spells_nil.1 h
    rfl
  | cons g more ih =>
    obtain ⟨n, ns⟩ := g
    obtain ⟨hnames, hmore⟩ := List.forall_mem_cons.1 hfree
    rw [terminals_scopes] at h
    obtain ⟨_, os, rfl, -, -, h⟩ := spells_cons.1 h
    obtain ⟨_, os, rfl, -, -, h⟩ := spells_cons.1 h
    obtain ⟨os₁, os₂, rfl, hdeclared, h⟩ := spells_append.1 h
    obtain ⟨_, os₂, rfl, -, -, h⟩ := spells_cons.1 h
    have htexts := texts_nameOccurrences hdeclared
    rw [terminalNames_commaNames] at htexts
    have hfree : freeNames reserved os₁ = nameOccurrences os₁ := by
      refine List.filter_eq_self.2 fun o ho => ?_
      rw [hnames _ (htexts ▸ List.mem_map_of_mem ho)]
      rfl
    rw [roles_scopes, localSites_other, localSites_other, localSites_declared hdeclared,
      localSites_other, hfree, List.map_append, htexts, ih hmore h, List.flatMap_cons]

/-- All names of such a chunk are declared, if they are not reserved. -/
theorem declared_of_scopes {reserved : Reserved} (hself : reserved.contains "self".toList = true)
    {groups : List (Identifier × List Identifier)}
    (hfree : ∀ g ∈ groups, ∀ name ∈ texts (g.1 :: g.2), reserved.contains name = false)
    {os : List Occurrence} (h : Spells os (scopes groups).terminals) :
    ∀ name ∈ groups.flatMap fun g => texts (g.1 :: g.2), name ∈ (resolve reserved os).declared := by
  intro name hname
  rw [← texts_localSites_scopes hfree h [], ← sites_of_spells hself (isPlain_scopes groups) h]
    at hname
  obtain ⟨o, ho, rfl⟩ := List.mem_map.1 hname
  exact (declared_of_site reserved _ ho).2

/-! ## Enough names, and too few -/

/--
There are 354294 look-alike names at most. Renaming at the highest strength can go on from every
place that its search reaches exactly if at least as many look-alike names are available as there
are variables. Exactly then some random words make the search end, and some make renaming succeed.
-/
theorem lookAlikes_suffice_iff (spans : List Span) (names : Namespace) :
    let declared := (resolve names.reserved (occurrences spans)).declared
    Candidates.lookAlikesLeft names ≤ 354294 ∧
      ((∀ source n m name rest,
          Candidates.Reaches .high 0 ⟨names, source⟩ declared n m (name :: rest) →
            Candidates.CanFind .high n m.names) ↔
        declared.length ≤ Candidates.lookAlikesLeft names) ∧
      ((∃ source k bindings m, Candidates.BindsAll .high 0 ⟨names, source⟩ declared k bindings m) ↔
        declared.length ≤ Candidates.lookAlikesLeft names) ∧
      ((∃ source, (renameLocals .high spans ⟨names, source⟩).1.isSome = true) ↔
        declared.length ≤ Candidates.lookAlikesLeft names) := by
  intro declared
  refine ⟨Candidates.lookAlikesLeft_le names, ⟨fun hall => ?_, fun hle => ?_⟩,
    ⟨?_, fun hle => ?_⟩, ⟨?_, fun hle => ?_⟩⟩
  · by_contra hlt
    obtain ⟨source, n, m, name, rest, hreaches, hstuck⟩ :=
      Candidates.exists_stuck_of_lt (Nat.lt_of_not_le hlt)
    exact hstuck (hall source n m name rest hreaches)
  · intro source n m name rest hreaches
    have hleft := hreaches.lookAlikesLeft_add
    rw [List.length_cons] at hleft
    dsimp only at hleft
    rw [Candidates.canFind_high_iff]
    omega
  · rintro ⟨source, k, bindings, m, hrun⟩
    exact hrun.length_le
  · obtain ⟨source, bindings, m, hbind⟩ := Candidates.exists_bindAll_of_le hle
    obtain ⟨k, hrun⟩ := Candidates.bindsAll_of_bindAll (n := 0) .high hbind
    exact ⟨source, k, bindings, m, hrun⟩
  · rintro ⟨source, hsome⟩
    by_cases hnil : declared = []
    · rw [hnil]
      exact Nat.zero_le _
    · rw [renameLocals_of_ne_nil hnil, Option.isSome_map] at hsome
      obtain ⟨bindings, hbind⟩ := Option.isSome_iff_exists.1 hsome
      obtain ⟨k, hrun⟩ := Candidates.bindsAll_of_bindAll (n := 0) .high (Prod.ext hbind rfl)
      exact hrun.length_le
  · obtain ⟨source, bindings, m, hbind⟩ := Candidates.exists_bindAll_of_le hle
    refine ⟨source, ?_⟩
    by_cases hnil : declared = []
    · rw [renameLocals_of_nil hnil]
      rfl
    · rw [renameLocals_of_ne_nil hnil, Option.isSome_map]
      exact Option.isSome_iff_exists.2 ⟨bindings, congrArg Prod.fst hbind⟩

/-- A name with a number. -/
def numbered (i : Nat) : Identifier where
  text := 'z' :: Number.digits 36 i
  isWord := by
    rw [isWord, Bool.and_eq_true, List.all_eq_true]
    exact ⟨by decide, Number.all_isWordChar_digits (Nat.le_refl 36) i⟩
  notKeyword := by
    have hnone : ∀ w ∈ keywords, w.head? ≠ some 'z' := by decide
    refine Bool.eq_false_iff.2 fun h => ?_
    rw [isKeyword, List.contains_iff_mem] at h
    exact hnone _ h rfl

/-- Blocks with two hundred names each. -/
def crowd : List (Identifier × List Identifier) :=
  (List.range 1772).map fun j =>
    (numbered (200 * j), (List.range 199).map fun k => numbered (200 * j + (k + 1)))

theorem reserved_crowd {g : Identifier × List Identifier} (hg : g ∈ crowd) {name : Name}
    (hname : name ∈ texts (g.1 :: g.2)) : Reserved.default.contains name = false := by
  have hnone : ∀ w ∈ Reserved.default.names, w.head? ≠ some 'z' := by decide
  have hnumbered : ∀ i, Reserved.default.contains (numbered i).text = false := fun i => by
    refine Bool.eq_false_iff.2 fun h => ?_
    rw [Reserved.contains, List.contains_iff_mem] at h
    exact hnone _ h rfl
  obtain ⟨j, -, rfl⟩ := List.mem_map.1 hg
  obtain ⟨n, hn, rfl⟩ := List.mem_map.1 hname
  rcases List.mem_cons.1 hn with rfl | hn
  · exact hnumbered _
  · obtain ⟨k, -, rfl⟩ := List.mem_map.1 hn
    exact hnumbered _

/-- The names of the blocks are those of all numbers. -/
theorem subset_crowd : ((List.range 354400).map fun i => (numbered i).text) ⊆
    crowd.flatMap fun g => texts (g.1 :: g.2) := by
  intro name hname
  obtain ⟨i, hi, rfl⟩ := List.mem_map.1 hname
  rw [List.mem_range] at hi
  refine List.mem_flatMap.2 ⟨_, List.mem_map.2 ⟨i / 200, List.mem_range.2 (by omega), rfl⟩, ?_⟩
  have hplace : 200 * (i / 200) + i % 200 = i := Nat.div_add_mod i 200
  cases hrest : i % 200 with
  | zero =>
    rw [hrest, Nat.add_zero] at hplace
    rw [hplace]
    exact List.mem_cons_self
  | succ k =>
    refine List.mem_cons_of_mem _ (List.mem_map.2 ⟨numbered i, ?_, rfl⟩)
    exact List.mem_map.2 ⟨k, List.mem_range.2 (by omega), by rw [← hrest, hplace]⟩

theorem nodup_numbered (n : Nat) : ((List.range n).map fun i => (numbered i).text).Nodup :=
  List.nodup_range.map fun _ _ h =>
    Number.digits_injective (by omega) (by omega) (List.cons.inj h).2

/-- However the blocks are laid out, they declare more names than there are look-alike names. -/
theorem le_length_declared_crowd {os : List Occurrence} (h : Spells os (scopes crowd).terminals) :
    354400 ≤ (resolve .default os).declared.length := by
  have hdeclared := declared_of_scopes (by decide)
    (fun g hg name hname => reserved_crowd hg hname) h
  have hmany := ((nodup_numbered 354400).subperm fun name hname =>
    hdeclared name (subset_crowd hname)).length_le
  rwa [List.length_map, List.length_range] at hmany

/--
A script with more local variables than there are look-alike names. Renaming comes to a place where
no new name can be found, and its search never ends.
-/
theorem lookAlikes_run_out :
    let source := (scopes crowd).terminals.flatMap fun t => t.text ++ [' ']
    ∃ spans, scan source = .ok spans ∧
      let names := Namespace.ofSpans .default spans
      let declared := (resolve .default (occurrences spans)).declared
      354400 ≤ declared.length ∧
      (∃ source n m name rest,
        Candidates.Reaches .high 0 ⟨names, source⟩ declared n m (name :: rest) ∧
          ¬ Candidates.CanFind .high n m.names) ∧
      ∀ source k bindings m,
        ¬ Candidates.BindsAll .high 0 ⟨names, source⟩ declared k bindings m := by
  intro source
  have hlayout : Layout Text.isSeparator (scopes crowd).terminals source :=
    layout_spaced (by decide) (scopes crowd).terminals
  obtain ⟨spans, hscan, hspells⟩ := spells_of_layout hlayout
  have hmany := le_length_declared_crowd hspells
  have hfew : Candidates.lookAlikesLeft (Namespace.ofSpans .default spans) ≤ 354294 :=
    Candidates.lookAlikesLeft_le _
  refine ⟨spans, hscan, hmany, Candidates.exists_stuck_of_lt (by omega), ?_⟩
  intro source k bindings m hrun
  have hle := hrun.length_le
  dsimp only at hle
  omega

end LuaVeil
