/-
# Sites in their places

The occurrences of a script lie side by side: each begins behind the one before it, and in one
span it begins where that one has ended or later. The sites of a script are some of them, so they
can be replaced one by one from left to right, and none is in the way of another.

Main statements:

* `occurrences_pairwise`, the occurrences of a script precede each other;
* `isWritten_of_mem_occurrences`, an occurrence is written where it is said to stand;
* `unblocked_of_pairwise`, of the edits of a span none begins before the one in front of it has
  ended;
* `resolution_orderly`, resolution of any script moves forward, ends, and finds sites in order.
-/
import LuaVeil.Proofs.Lua.HolePlaces
import LuaVeil.Proofs.Lua.TokenPartition
import LuaVeil.Proofs.Scope.Progress
import LuaVeil.Proofs.Veil.Renaming

namespace LuaVeil

open Text

/-! ## Places in a text -/

namespace Text.HoldsAt

variable {s piece source : Text} {place inner : Nat}

theorem end_le (h : HoldsAt (s <+: ·) source place) : place + byteSize s ≤ byteSize source := by
  obtain ⟨before, after, rfl, rfl, hprefix⟩ := h
  rw [byteSize_append]
  exact Nat.add_le_add_left (byteSize_le_of_isPrefix hprefix) _

/-- What is written in a piece of a text is written in the text. -/
theorem of_piece (hpiece : HoldsAt (piece <+: ·) source place)
    (h : HoldsAt (s <+: ·) piece inner) : HoldsAt (s <+: ·) source (place + inner) := by
  obtain ⟨before, after, rfl, rfl, hprefix⟩ := hpiece
  obtain ⟨before', after', rfl, rfl, hprefix'⟩ := h
  obtain ⟨rest, rfl⟩ := hprefix
  refine ⟨before ++ before', after' ++ rest, by simp, byteSize_append _ _, ?_⟩
  exact hprefix'.trans (List.prefix_append _ _)

end Text.HoldsAt

/-! ## Tokens side by side -/

namespace TokensLaid

variable {source : Text} {place : Nat} {tokens : List Token}

theorem le_offset (h : TokensLaid source place tokens) : ∀ t ∈ tokens, place ≤ t.offset := by
  induction h with
  | done => exact List.forall_mem_nil _
  | next _ _ _ ih =>
    refine List.forall_mem_cons.2 ⟨Nat.le_refl _, fun t' ht' => ?_⟩
    exact Nat.le_trans (Nat.le_add_right _ _) (ih t' ht')

theorem isIn (h : TokensLaid source place tokens) :
    ∀ t ∈ tokens, t.text ≠ [] ∧ HoldsAt (t.text <+: ·) source t.offset := by
  induction h with
  | done => exact List.forall_mem_nil _
  | next hne hat _ ih => exact List.forall_mem_cons.2 ⟨⟨hne, hat⟩, ih⟩

/-- A token begins behind another one, and where that one has ended or later. -/
theorem pairwise (h : TokensLaid source place tokens) :
    tokens.Pairwise fun t t' =>
      t.offset < t'.offset ∧ t.offset + byteSize t.text ≤ t'.offset := by
  induction h with
  | done => exact .nil
  | @next t tokens hne _ h ih =>
    refine List.pairwise_cons.2 ⟨fun t' ht' => ?_, ih⟩
    have hend := h.le_offset t' ht'
    have hpos := byteSize_pos hne
    exact ⟨by omega, hend⟩

end TokensLaid

/-! ## Places of occurrences -/

namespace Occurrence

/-- Whether an occurrence lies in front of another one, and has ended where the other begins. -/
def Precedes (o o' : Occurrence) : Prop :=
  o.span < o'.span ∨
    o.span = o'.span ∧ o.offset < o'.offset ∧ o.offset + byteSize o.mark.text ≤ o'.offset

/-- Whether the text of an occurrence is written at its place in a script. -/
def IsWritten (spans : List Span) (o : Occurrence) : Prop :=
  ∃ s, spans[o.span]? = some s ∧ HoldsAt (o.mark.text <+: ·) s.text o.offset

end Occurrence

/-- The text of a mark is that of its token, or is left out. -/
theorem isPrefix_of_mark? {t : Token} {mark : Mark} (h : t.mark? = some mark) :
    mark.text <+: t.text := by
  unfold Token.mark? at h
  split at h <;> cases h
  · exact List.prefix_rfl
  · exact List.prefix_rfl
  · exact List.nil_prefix

section

variable {index start : Nat} {inHole : Bool} {code : Text} {o : Occurrence}

theorem span_of_mem_codeOccurrences (h : o ∈ codeOccurrences index start inHole code) :
    o.span = index := by
  obtain ⟨t, -, mark, -, rfl⟩ := exists_token_of_mem_occurrencesFrom h
  rfl

/-- An occurrence in code is written there. -/
theorem holdsAt_of_mem_codeOccurrences (h : o ∈ codeOccurrences index start inHole code) :
    ∃ place, o.offset = start + place ∧ place < byteSize code ∧
      HoldsAt (o.mark.text <+: ·) code place := by
  obtain ⟨t, ht, mark, hmark, rfl⟩ := exists_token_of_mem_occurrencesFrom h
  obtain ⟨hne, hat⟩ := (isTokenized_tokenize code).laid.isIn t ht
  have hend := hat.end_le
  have hpos := byteSize_pos hne
  obtain ⟨before, after, rfl, hplace, hprefix⟩ := hat
  exact ⟨t.offset, rfl, by omega, before, after, rfl, hplace,
    (isPrefix_of_mark? hmark).trans hprefix⟩

end

theorem codeOccurrences_pairwise (index start : Nat) (inHole : Bool) (code : Text) :
    (codeOccurrences index start inHole code).Pairwise Occurrence.Precedes := by
  refine (isTokenized_tokenize code).laid.pairwise.filterMap _ fun t t' hlt o ho o' ho' => ?_
  obtain ⟨mark, hmark, rfl⟩ := Option.map_eq_some_iff.1 ho
  obtain ⟨mark', -, rfl⟩ := Option.map_eq_some_iff.1 ho'
  have hsize := byteSize_le_of_isPrefix (isPrefix_of_mark? hmark)
  exact .inr ⟨rfl, by dsimp only; omega, by dsimp only; omega⟩

/-- The occurrences in a span precede each other: in a string, the string itself and its holes. -/
theorem span_occurrences_pairwise (index : Nat) (s : Span) :
    (s.occurrences index).Pairwise Occurrence.Precedes := by
  unfold Span.occurrences
  split
  · exact codeOccurrences_pairwise _ _ _ _
  · have hplaced := (areHoles_holes s.text).wellPlaced
    refine List.pairwise_cons.2 ⟨fun o ho => ?_, List.pairwise_flatMap.2 ⟨fun h _ => ?_, ?_⟩⟩
    · -- a hole does not begin with the string
      obtain ⟨h, hh, ho⟩ := List.mem_flatMap.1 ho
      obtain ⟨before, code, -, -, -, hstart, -⟩ := hplaced.opened h hh
      obtain ⟨place, hplace, -⟩ := holdsAt_of_mem_codeOccurrences ho
      have hpos : 0 < byteSize (before ++ '{' :: code) := byteSize_pos (by simp)
      have hlt : 0 < o.offset := by omega
      exact .inr ⟨(span_of_mem_codeOccurrences ho).symm, hlt, hlt.le⟩
    · exact codeOccurrences_pairwise _ _ _ _
    · refine hplaced.apart.imp fun hapart o ho o' ho' => ?_
      obtain ⟨place, hplace, hlt, hat⟩ := holdsAt_of_mem_codeOccurrences ho
      obtain ⟨place', hplace', -⟩ := holdsAt_of_mem_codeOccurrences ho'
      have hend := hat.end_le
      rw [Hole.stop] at hapart
      have hspan := (span_of_mem_codeOccurrences ho).trans (span_of_mem_codeOccurrences ho').symm
      exact .inr ⟨hspan, by omega, by omega⟩
  · exact .nil

theorem holdsAt_of_mem_span_occurrences {index : Nat} {s : Span} {o : Occurrence}
    (h : o ∈ s.occurrences index) : HoldsAt (o.mark.text <+: ·) s.text o.offset := by
  unfold Span.occurrences at h
  split at h
  · obtain ⟨place, hplace, -, hat⟩ := holdsAt_of_mem_codeOccurrences h
    rw [hplace, Nat.zero_add]
    exact hat
  · rcases List.mem_cons.1 h with rfl | h
    · exact ⟨[], s.text, rfl, rfl, List.nil_prefix⟩
    · obtain ⟨hole, hhole, ho⟩ := List.mem_flatMap.1 h
      obtain ⟨-, hpiece⟩ := (areHoles_holes s.text).isIn hole hhole
      obtain ⟨place, hplace, -, hat⟩ := holdsAt_of_mem_codeOccurrences ho
      rw [hplace]
      exact hpiece.of_piece hat
  · cases h

section

variable {spans : List Span} {o : Occurrence}

/-- The occurrences of a script precede each other. -/
theorem occurrences_pairwise (spans : List Span) :
    (occurrences spans).Pairwise Occurrence.Precedes := by
  have hindex : spans.zipIdx.Pairwise fun x y => x.2 < y.2 := by
    rw [← List.pairwise_map (f := Prod.snd) (R := (· < ·)), List.zipIdx_map_snd]
    exact List.pairwise_lt_range'
  refine List.pairwise_flatMap.2 ⟨fun x _ => span_occurrences_pairwise x.2 x.1, ?_⟩
  refine hindex.imp fun hlt o ho o' ho' => .inl ?_
  rwa [span_of_mem_occurrences ho, span_of_mem_occurrences ho']

/-- An occurrence of a script is written where it is said to stand. -/
theorem isWritten_of_mem_occurrences (h : o ∈ occurrences spans) : o.IsWritten spans := by
  obtain ⟨⟨s, i⟩, hi, ho⟩ := List.mem_flatMap.1 h
  refine ⟨s, ?_, holdsAt_of_mem_span_occurrences ho⟩
  rw [span_of_mem_occurrences ho]
  exact List.mk_mem_zipIdx_iff_getElem?.1 hi

end

/-! ## Edits of a span -/

/-- The edits from byte `place` on that begin no earlier than the last one before them has ended. -/
def unblocked (place : Nat) : List Occurrence → List Occurrence
  | [] => []
  | o :: edits =>
    if o.offset < place then unblocked place edits
    else o :: unblocked (o.offset + byteSize o.mark.text) edits

/-- Edits that precede each other in a span are all unblocked. -/
theorem unblocked_of_pairwise {i place : Nat} {edits : List Occurrence}
    (hspan : ∀ o ∈ edits, o.span = i) (hle : ∀ o ∈ edits, place ≤ o.offset)
    (h : edits.Pairwise Occurrence.Precedes) : unblocked place edits = edits := by
  induction edits generalizing place with
  | nil => rfl
  | cons o edits ih =>
    obtain ⟨hfirst, hrest⟩ := List.pairwise_cons.1 h
    have hplace := hle o List.mem_cons_self
    have hafter : ∀ o' ∈ edits, o.offset + byteSize o.mark.text ≤ o'.offset := by
      intro o' ho'
      have heq := (hspan o List.mem_cons_self).trans (hspan o' (List.mem_cons_of_mem o ho')).symm
      rcases hfirst o' ho' with hlt | ⟨-, -, hend⟩
      · exact absurd heq hlt.ne
      · exact hend
    rw [unblocked, if_neg (Nat.not_lt.2 hplace),
      ih (fun o' ho' => hspan o' (List.mem_cons_of_mem o ho')) hafter hrest]

/-- However the edits of a span are collected, sorting them brings back the order of the script. -/
theorem eq_of_perm_of_sorted {i : Nat} {sites edits : List Occurrence}
    (hspan : ∀ o ∈ sites, o.span = i) (h : sites.Pairwise Occurrence.Precedes)
    (hperm : edits.Perm sites) (hsorted : edits.Pairwise fun o o' => o.offset ≤ o'.offset) :
    edits = sites := by
  have hlt : sites.Pairwise fun o o' => o.offset < o'.offset := by
    refine List.Pairwise.imp_of_mem (fun {o o'} ho ho' hprecedes => ?_) h
    rcases hprecedes with hlt | ⟨-, hlt, -⟩
    · exact absurd ((hspan o ho).trans (hspan o' ho').symm) hlt.ne
    · exact hlt
  have hplaces : (sites.map Occurrence.offset).Nodup :=
    List.pairwise_map.2 (hlt.imp fun h => h.ne)
  refine hperm.eq_of_pairwise (fun o o' ho ho' hle hge => ?_) hsorted (hlt.imp fun h => h.le)
  exact List.inj_on_of_nodup_map hplaces (hperm.subset ho) ho' (Nat.le_antisymm hle hge)

/-! ## Resolution of any script -/

open ScopeState in
/-- What resolution does at the places of a script, and the order of what it finds. -/
structure OrderlyResolution (reserved : Reserved) (spans : List Span) : Prop where
  /--
  Types, names and functions are read from behind the occurrence that leads to them, up to a place
  of the script, and never backwards.
  -/
  reads : ∀ i c, c.StandsAt (occurrences spans) i →
    c.skipType.StandsFrom (occurrences spans) i ∧ c.names.2.StandsFrom (occurrences spans) i ∧
      ∀ s : ScopeState, (s.enterFunction reserved c).2.StandsFrom (occurrences spans) i
  /-- A step, and what it does at a keyword, end behind the occurrence at which the step begins. -/
  steps : ∀ i c, c.StandsAt (occurrences spans) i → ∀ o ahead, c.ahead = o :: ahead →
    ∀ s : ScopeState,
      (s.step reserved c o (c.past o ahead)).2.StandsFrom (occurrences spans) (i + 1) ∧
        ∀ word branch before,
          (s.atKeyword reserved word branch before (c.past o ahead)).2.StandsFrom
            (occurrences spans) (i + 1)
  /-- Wherever brackets are skipped, none is closed while none is open. -/
  balances : ∀ c : Cursor, c.skipGenerics? = some c.skipGenerics ∧
    (∀ name, c.skipTypeArguments? name = some (c.skipTypeArguments name)) ∧
      c.skipSimpleType?? = some c.skipSimpleType?
  /-- The outermost scope stays open, and holds what it held before. -/
  outermost : ∀ n m, n ≤ m →
    KeepsOutermost (afterTurns reserved (occurrences spans) n).1
      (afterTurns reserved (occurrences spans) m).1
  /-- A turn ends behind the place at which it begins, unless the script has ended. -/
  turns : ∀ n i, (afterTurns reserved (occurrences spans) n).2.StandsAt (occurrences spans) i →
    i < (occurrences spans).length →
      (afterTurns reserved (occurrences spans) (n + 1)).2.StandsFrom (occurrences spans) (i + 1)
  /-- With as many turns as there are occurrences the walk has come to its end. -/
  ends : ∀ n, (occurrences spans).length ≤ n →
    (afterTurns reserved (occurrences spans) n).1 =
        initial.walk reserved (.start (occurrences spans)) ∧
      (afterTurns reserved (occurrences spans) n).2.ahead = []
  /-- Sites are names that are not reserved, and are written where they are said to stand. -/
  sites : ∀ o ∈ (resolve reserved (occurrences spans)).sites,
    o ∈ occurrences spans ∧ o.mark.isName = true ∧ reserved.contains o.mark.text = false ∧
      o.IsWritten spans
  /-- Sites are found in the order of the script. -/
  ordered : (resolve reserved (occurrences spans)).sites.Pairwise Occurrence.Precedes
  /-- However the edits of a span are collected, once they are sorted none of them is left out. -/
  edits : ∀ (i : Nat) (edits : List Occurrence),
    edits.Perm ((resolve reserved (occurrences spans)).sites.filter fun o => o.span == i) →
    edits.Pairwise (fun o o' => o.offset ≤ o'.offset) →
      edits = ((resolve reserved (occurrences spans)).sites.filter fun o => o.span == i) ∧
        unblocked 0 edits = edits

/--
Whatever stands in a script, resolution goes through it once from left to right: no reader leaves
the script or turns back, no bracket and no scope is closed that is not open, and the walk ends.
The sites that it finds are names of the script in strict order, so that none of the edits at
these sites overlaps another.
-/
theorem resolution_orderly (reserved : Reserved) (spans : List Span) :
    OrderlyResolution reserved spans where
  reads := fun i c h =>
    ⟨h.onward (Cursor.onward_skipType c), h.onward c.names_passes.onward,
      fun s => h.onward (ScopeState.onward_enterFunction reserved s c)⟩
  steps := fun i c h o ahead hc s =>
    ⟨(h.past hc).onward (ScopeState.onward_step reserved s c o _),
      fun word branch before =>
        (h.past hc).onward (ScopeState.onward_atKeyword reserved s word branch before _)⟩
  balances := fun c =>
    ⟨c.skipGenerics?_eq, fun name => c.skipTypeArguments?_eq name, c.skipSimpleType??_eq⟩
  outermost := fun n m h => ScopeState.keepsOutermost_afterTurns reserved _ h
  turns := by
    intro n i h hi
    rw [ScopeState.afterTurns_succ]
    exact ScopeState.standsFrom_turn h hi
  ends := fun n h => ScopeState.afterTurns_of_length_le h
  sites := by
    intro o ho
    have hmem : o ∈ occurrences spans := (sites_sublist reserved _).subset ho
    obtain ⟨hname, hdeclared⟩ := declared_of_site reserved _ ho
    exact ⟨hmem, hname, not_reserved_of_declared reserved _ hdeclared,
      isWritten_of_mem_occurrences hmem⟩
  ordered := (occurrences_pairwise spans).sublist (sites_sublist reserved _)
  edits := by
    intro i edits hperm hsorted
    have hordered : ((resolve reserved (occurrences spans)).sites.filter
        fun o => o.span == i).Pairwise Occurrence.Precedes :=
      (occurrences_pairwise spans).sublist
        (List.filter_sublist.trans (sites_sublist reserved _))
    have hspan : ∀ o ∈ (resolve reserved (occurrences spans)).sites.filter fun o => o.span == i,
        o.span = i :=
      fun o ho => by simpa using (List.mem_filter.1 ho).2
    obtain rfl := eq_of_perm_of_sorted hspan hordered hperm hsorted
    exact ⟨rfl, unblocked_of_pairwise hspan (fun o _ => Nat.zero_le _) hordered⟩

/-- A script of stray words, brackets that nothing closes and a declaration that is cut off. -/
def strayScript : List Span :=
  [⟨.code, "end ) until x local x : f<a = x ] y > = x ; y(x".toList, 0, 47⟩,
    ⟨.string, "`\x7bx".toList, 47, 50⟩, ⟨.code, " local function".toList, 50, 65⟩]

theorem stray_words_resolved :
    let os := occurrences strayScript
    let found := (resolve .default os).sites
    found.map (fun o => (o.span, o.offset)) = [(0, 20), (0, 46), (1, 2)] ∧
      found.Pairwise Occurrence.Precedes ∧
      (∀ edits : List Occurrence, edits.Perm (found.filter fun o => o.span == 0) →
        edits.Pairwise (fun o o' => o.offset ≤ o'.offset) → unblocked 0 edits = edits) ∧
      (ScopeState.afterTurns .default os os.length).2.ahead = [] := by
  intro os found
  have h : OrderlyResolution .default strayScript := resolution_orderly .default strayScript
  exact ⟨by decide +kernel, h.ordered, fun edits hperm hsorted => (h.edits 0 edits hperm hsorted).2,
    (h.ends _ (Nat.le_refl _)).2⟩

end LuaVeil
