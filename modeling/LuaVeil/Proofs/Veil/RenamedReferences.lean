/-
# References after renaming

No variable of a script has the name of its string table, unless a literal stood
where a name is declared, as in `local "x"`. Then renaming gives the table name a
new name in the places that are bound to it: exactly the references that are sites
have the new name. Nothing else about a reference changes.

Main statements:

* `renamed_referenceAt`, a reference has the new name exactly if it is a site;
* `references_renameLocals`, the references of a renamed script.
-/
import LuaVeil.Proofs.Veil.Edits
import LuaVeil.Proofs.Veil.References

namespace LuaVeil

/-- A word after renaming: the word itself, or the new name of a variable. -/
def RenamedWord (bindings : List Binding) (w w' : Name) : Prop :=
  w' = w ∨ ∃ b ∈ bindings, b.declared = w ∧ b.generated = w'

/--
Whether a reference at a place of a script has become one to the same slot: by the name `other` if
one of the sites lies in it, and by the name of the table if not.
-/
def RenamedReference (table other : Name) (sites : List Occurrence) (x : Span × Nat) (s' : Span) :
    Prop :=
  ∃ slot argument, x.1 = referenceAt table slot argument ∧
    s' = referenceAt (if sites.any fun o => o.span == x.2 then other else table) slot argument

section

variable {bindings : List Binding} {s s' : Span} {table : Name}

/-! ## Words -/

theorem RenamedCode.words {code code' : Text} (h : RenamedCode bindings code code') :
    List.Forall₂ (RenamedWord bindings) (codeWords code) (codeWords code') := by
  rw [codeWords, codeWords, List.forall₂_map_left_iff, List.forall₂_map_right_iff]
  rw [RenamedCode] at h
  generalize tokenize code = ts at h
  generalize tokenize code' = ts' at h
  induction h with
  | nil => exact .nil
  | @cons t t' _ _ ht _ ih =>
    obtain ⟨hkind, htext⟩ := ht
    rw [List.filter_cons, List.filter_cons, hkind]
    split
    · exact .cons (htext.imp_right And.right) ih
    · exact ih

/-- The words of a span change as they are renamed. -/
theorem RenamedSpan.words (h : RenamedSpan bindings s s') :
    List.Forall₂ (RenamedWord bindings) s.words s'.words := by
  rw [Span.words, Span.words, h.kind_eq]
  cases hkind : s.kind with
  | code => exact (h.code hkind).words
  | comment => exact .nil
  | string => exact List.rel_flatMap (h.holes hkind) fun _ _ hhole => hhole.words

theorem newName_of_mem (hnodup : (bindings.map Binding.declared).Nodup) {b : Binding}
    (hb : b ∈ bindings) : newName bindings b.declared = b.generated := by
  obtain ⟨b', hb', hdeclared, hnew⟩ :=
    exists_binding_of_declared (List.mem_map_of_mem (f := Binding.declared) hb)
  rw [hnew, List.inj_on_of_nodup_map hnodup hb' hb hdeclared]

theorem newName_of_not_mem {name : Name} (h : name ∉ bindings.map Binding.declared) :
    newName bindings name = name := by
  unfold newName
  cases hfind : bindings.find? fun b => b.declared == name with
  | some b =>
    refine absurd (List.mem_map.2 ⟨b, List.mem_of_find?_eq_some hfind, ?_⟩) h
    simpa using List.find?_some hfind
  | none => rfl

/-- The table name, or its new name, is a word of the spans that had the table name. -/
theorem mentions_of_renamed (h : RenamedSpan bindings s s')
    (hdeclared : (bindings.map Binding.declared).Nodup)
    (hgenerated : (bindings.map Binding.generated).Nodup)
    (hfresh : ∀ b ∈ bindings, b.generated ∉ s.words)
    (htable : ∀ b ∈ bindings, b.generated ≠ table) :
    s'.mentions [table, newName bindings table] = s.mentions [table] := by
  have hword : ∀ w w', w ∈ s.words → RenamedWord bindings w w' →
      [table, newName bindings table].contains w' = [table].contains w := by
    intro w w' hw hrenamed
    have hnew : newName bindings table = table ∨
        ∃ b ∈ bindings, b.declared = table ∧ newName bindings table = b.generated := by
      by_cases hmem : table ∈ bindings.map Binding.declared
      · exact .inr (exists_binding_of_declared hmem)
      · exact .inl (newName_of_not_mem hmem)
    rw [Bool.eq_iff_iff]
    simp only [List.contains_cons, List.contains_nil, Bool.or_false, Bool.or_eq_true, beq_iff_eq]
    rcases hrenamed with rfl | ⟨b, hb, rfl, rfl⟩
    · refine or_iff_left_of_imp fun heq => ?_
      rcases hnew with hnew | ⟨b, hb, -, hnew⟩
      · rw [heq, hnew]
      · exact absurd (heq.trans hnew ▸ hw) (hfresh b hb)
    · rw [or_iff_right (htable b hb)]
      constructor
      · intro heq
        rcases hnew with hnew | ⟨b', hb', rfl, hnew⟩
        · exact absurd (heq.trans hnew) (htable b hb)
        · rw [List.inj_on_of_nodup_map hgenerated hb hb' (heq.trans hnew)]
      · rintro rfl
        exact (newName_of_mem hdeclared hb).symm
  have hwords := (List.forall₂_and_left s.words s'.words).2 ⟨fun w hw => hw, h.words⟩
  replace hwords := hwords.imp fun w w' hw => hword w w' hw.1 hw.2
  rw [Span.mentions, Span.mentions]
  generalize s.words = ws at hwords
  generalize s'.words = ws' at hwords
  induction hwords with
  | nil => rfl
  | cons hw _ ih => rw [List.any_cons, List.any_cons, hw, ih]

/-! ## References -/

/-- The tokens around the name of a reference are no words. -/
theorem labels_reference {name : Name} (h : isWord name = true) (index : Nat) (argument : Bool) :
    ∃ front back, labels (StringTable.reference name index argument) =
        front ++ (.word, name) :: back ∧
      (∀ l ∈ front ++ back, l.1 ≠ .word) ∧
      ∀ other : Name, front.flatMap Prod.snd ++ other ++ back.flatMap Prod.snd =
        StringTable.reference other index argument := by
  have hname : ∀ t, labels (name ++ '[' :: t) = (.word, name) :: labels ('[' :: t) := by
    intro t
    cases name with
    | nil => cases h
    | cons c name =>
      have hstop : ∀ d, ('[' :: t).head? = some d → isWordChar d = false := by
        intro d hd
        obtain rfl := Option.some.inj hd
        decide
      rw [List.cons_append, labels_cons, lexeme_of_isWord h hstop]
  have hslot : ∀ {t : Text}, (∀ c ∈ t, isWordStart c = false) →
      ∀ l ∈ labels ('[' :: (Number.decimal index ++ t)), l.1 ≠ .word := by
    rintro t ht ⟨kind, w⟩ hl rfl
    have hnone : codeWords ('[' :: (Number.decimal index ++ t)) = [] := by
      refine codeWords_eq_nil (List.forall_mem_cons.2 ⟨by decide, fun c hc => ?_⟩)
      rcases List.mem_append.1 hc with hc | hc
      · exact isWordStart_of_isDigit (all_isDigit_decimal index c hc)
      · exact ht c hc
    have hmem := mem_codeWords.2 hl
    rw [hnone] at hmem
    cases hmem
  cases argument with
  | false =>
    refine ⟨[], labels ('[' :: (Number.decimal index ++ [']'])), ?_,
      hslot (List.forall_mem_singleton.2 (by decide)), fun other => ?_⟩
    · have htext : StringTable.reference name index false =
          name ++ '[' :: (Number.decimal index ++ [']']) := by simp [StringTable.reference]
      rw [htext, hname]
      rfl
    · rw [flatMap_snd_labels]
      simp [StringTable.reference]
  | true =>
    refine ⟨[(.symbol, ['('])], labels ('[' :: (Number.decimal index ++ [']', ')'])), ?_, ?_,
      fun other => ?_⟩
    · have htext : StringTable.reference name index true =
          '(' :: (name ++ '[' :: (Number.decimal index ++ [']', ')'])) := by
        simp [StringTable.reference]
      have hlex : ∀ t, lexeme '(' t = ⟨.symbol, [], t⟩ := fun _ => rfl
      rw [htext, labels_cons, hlex, hname]
      rfl
    · have hclose : ∀ c ∈ [']', ')'], isWordStart c = false :=
        List.forall_mem_cons.2 ⟨by decide, List.forall_mem_singleton.2 (by decide)⟩
      exact List.forall_mem_cons.2 ⟨by decide, hslot hclose⟩
    · rw [flatMap_snd_labels]
      simp [StringTable.reference]

/-- A label after renaming. -/
abbrev RenamedLabel (bindings : List Binding) (l l' : TokenKind × Text) : Prop :=
  l'.1 = l.1 ∧ (l'.2 = l.2 ∨ l.1 = .word ∧ ∃ b ∈ bindings, b.declared = l.2 ∧ b.generated = l'.2)

theorem RenamedCode.labels {code code' : Text} (h : RenamedCode bindings code code') :
    List.Forall₂ (RenamedLabel bindings) (labels code) (labels code') := by
  rw [LuaVeil.labels, LuaVeil.labels, List.forall₂_map_left_iff, List.forall₂_map_right_iff]
  exact h

/-- Labels with one word among them stay but for this word. -/
theorem renamed_labels {name : Name} {front back ls : List (TokenKind × Text)}
    (hno : ∀ l ∈ front ++ back, l.1 ≠ .word)
    (h : List.Forall₂ (RenamedLabel bindings) (front ++ (.word, name) :: back) ls) :
    ∃ other, RenamedWord bindings name other ∧ ls = front ++ (.word, other) :: back := by
  have hsame : ∀ {l l' : TokenKind × Text}, l.1 ≠ .word → RenamedLabel bindings l l' → l' = l :=
    fun hl h => Prod.ext h.1 (h.2.resolve_right fun hword => hl hword.1)
  induction front generalizing ls with
  | nil =>
    obtain - | ⟨⟨hkind, htext⟩, hback⟩ := h
    have hrest : ∀ {ls}, List.Forall₂ (RenamedLabel bindings) back ls → ls = back := by
      clear hback
      intro ls h
      induction h with
      | nil => rfl
      | cons hl _ ih =>
        obtain ⟨hfirst, hno⟩ := List.forall_mem_cons.1 hno
        rw [hsame hfirst hl, ih hno]
    refine ⟨_, htext.imp_right And.right, ?_⟩
    rw [hrest hback]
    exact congrArg (· :: back) (Prod.ext hkind rfl)
  | cons l front ih =>
    obtain - | ⟨hl, hmore⟩ := h
    obtain ⟨hfirst, hno⟩ := List.forall_mem_cons.1 hno
    obtain ⟨other, hother, rfl⟩ := ih hno hmore
    exact ⟨other, hother, by rw [hsame hfirst hl]; rfl⟩

/-- A reference by another name at most is one by the same or by the new name. -/
theorem referenceAt_of_renamed (hword : isWord table = true)
    (hdeclared : (bindings.map Binding.declared).Nodup) {slot : Span × Nat} {argument : Bool}
    (h : RenamedSpan bindings (referenceAt table slot argument) s') :
    s' = referenceAt table slot argument ∨
      s' = referenceAt (newName bindings table) slot argument := by
  obtain ⟨front, back, hlabels, hno, hother⟩ := labels_reference hword slot.2 argument
  have hcode := (h.code rfl).labels
  rw [show labels (referenceAt table slot argument).text = _ from hlabels] at hcode
  obtain ⟨other, hrenamed, hlabels'⟩ := renamed_labels hno hcode
  have htext : s'.text = StringTable.reference other slot.2 argument := by
    rw [← flatMap_snd_labels s'.text, hlabels', ← hother other]
    simp
  have hs' : s' = referenceAt other slot argument := by
    obtain ⟨kind, text, start, stop⟩ := s'
    obtain rfl : kind = .code := h.kind_eq
    obtain rfl : start = slot.1.start := h.start_eq
    obtain rfl : stop = slot.1.stop := h.stop_eq
    obtain rfl : text = _ := htext
    rfl
  rcases hrenamed with rfl | ⟨b, hb, rfl, rfl⟩
  · exact .inl hs'
  · exact .inr (by rw [hs', newName_of_mem hdeclared hb])

/-- The names that occur in code are its words but for keywords. -/
theorem names_codeOccurrences (index start : Nat) (inHole : Bool) (code : Text) :
    ((codeOccurrences index start inHole code).filter fun o => o.mark.isName).map
        (fun o => o.mark.text) = (codeWords code).filter fun w => !isKeyword w := by
  rw [codeOccurrences, codeWords]
  induction tokenize code with
  | nil => rfl
  | cons t ts ih =>
    rw [List.filterMap_cons, List.filter_cons]
    cases hkind : t.kind with
    | word =>
      have hmark : t.mark? = some (.word t.text) := by rw [Token.mark?, hkind]
      have hname : (Mark.word t.text).isName = !isKeyword t.text := rfl
      rw [hmark]
      simp only [Option.map_some, beq_self_eq_true, if_true, List.map_cons, List.filter_cons, hname]
      cases isKeyword t.text with
      | true => exact ih
      | false => exact congrArg (t.text :: ·) ih
    | symbol | number =>
      simp only [Token.mark?, hkind, Option.map_some, List.filter_cons, Mark.isName]
      exact ih
    | blank | newline =>
      simp only [Token.mark?, hkind, Option.map_none]
      exact ih

/-- In the code of a reference no name but that of the table occurs, and that once. -/
theorem sites_of_reference (hword : isWord table = true) {slot : Span × Nat} {argument : Bool}
    {index : Nat} {sites : List Occurrence}
    (hsites : sites.Sublist ((referenceAt table slot argument).occurrences index))
    (hnames : ∀ o ∈ sites, o.mark.isName = true) :
    sites = [] ∨ ∃ o, sites = [o] ∧ o.mark.text = table := by
  have hsub := (hsites.filter fun o => o.mark.isName).map fun o => o.mark.text
  have htexts := names_codeOccurrences index 0 false
    (StringTable.reference table slot.2 argument)
  rw [codeWords_reference hword] at htexts
  rw [List.filter_eq_self.2 hnames, show ((referenceAt table slot argument).occurrences index) =
    codeOccurrences index 0 false (StringTable.reference table slot.2 argument) from rfl,
    htexts] at hsub
  replace hsub := hsub.trans List.filter_sublist
  cases sites with
  | nil => exact .inl rfl
  | cons o sites =>
    obtain hnil | hone := List.sublist_singleton.1 hsub
    · cases hnil
    · obtain ⟨htext, hrest⟩ := List.cons.inj hone
      exact .inr ⟨o, by rw [List.map_eq_nil_iff.1 hrest], htext⟩

/-- The only site of a text is replaced in its place. -/
theorem exists_splice_singleton (rename : Name → Name) {o : Occurrence} {t : Text}
    (h : Text.HoldsAt (o.mark.text <+: ·) t o.offset) :
    ∃ before after, t = before ++ (o.mark.text ++ after) ∧
      splice rename 0 [o] t = before ++ (rename o.mark.text ++ after) := by
  obtain ⟨before, rest, rfl, hplace, after, rfl⟩ := h
  refine ⟨before, after, rfl, ?_⟩
  have hle : ∀ o' ∈ [o], 0 + Text.byteSize before ≤ o'.offset := by
    intro o' ho'
    rw [List.mem_singleton.1 ho', Nat.zero_add, hplace]
  rw [splice_append _ _ hle, Nat.zero_add, splice_site after hplace.symm, splice_nil]

/-- A renamed reference has the new name of the table exactly if it is a site. -/
theorem renamed_referenceAt (hword : isWord table = true)
    (hdeclared : (bindings.map Binding.declared).Nodup) {slot : Span × Nat} {argument : Bool}
    {index : Nat} {sites : List Occurrence}
    (hsites : sites.Sublist ((referenceAt table slot argument).occurrences index))
    (hnames : ∀ o ∈ sites, o.mark.isName = true)
    (hs' : s' = { referenceAt table slot argument with
      text := splice (newName bindings) 0 sites (referenceAt table slot argument).text })
    (h : RenamedSpan bindings (referenceAt table slot argument) s') :
    s' = referenceAt (if sites = [] then table else newName bindings table) slot argument := by
  rcases sites_of_reference hword hsites hnames with rfl | ⟨o, rfl, htable⟩
  · rw [hs', splice_nil, if_pos rfl]
  · rw [if_neg (List.cons_ne_nil _ _)]
    rcases referenceAt_of_renamed hword hdeclared h with hsame | hnew
    · -- the name is replaced, so it is its own new name
      obtain ⟨before, after, htext, hsplice⟩ := exists_splice_singleton (newName bindings)
        (holdsAt_of_mem_span_occurrences (hsites.subset (List.mem_singleton_self o)))
      rw [hsplice] at hs'
      have heq := congrArg Span.text (hs'.symm.trans hsame)
      rw [htext] at heq
      have hname := List.append_cancel_right (List.append_cancel_left heq)
      rw [htable] at hname
      rw [hsame, hname]
    · exact hnew

/--
The references of a renamed script. Those that are sites have the new name of the table, and the
others its old one. The new name is another one exactly if the table name is declared.
-/
theorem references_renameLocals {strength : Strength} {spans out : List Span} {m : Mint}
    (hword : isWord table = true) (htable : table ∈ m.names.taken)
    (htaken : ∀ s ∈ spans, ∀ w ∈ s.words, w ∈ m.names.taken) (href : OnlyReferences [table] spans)
    (h : (renameLocals strength spans m).1 = some (out, bindings)) :
    let found := resolve m.names.reserved (occurrences spans)
    List.Forall₂ (RenamedReference table (newName bindings table) found.sites)
        (spans.zipIdx.filter fun x => x.1.mentions [table])
        (out.filter (Span.mentions [table, newName bindings table])) ∧
      (newName bindings table = table ↔ table ∉ found.declared) := by
  intro found
  obtain ⟨hspans, -⟩ := renamed_renameLocals htaken h
  obtain ⟨hout, hdeclared, htakes, -⟩ := renameLocals_spec h
  dsimp only at hout hdeclared
  have hdistinct : (bindings.map Binding.declared).Nodup := by
    rw [hdeclared]
    exact declared_nodup _ _
  have hgenerated : (bindings.map Binding.generated).Nodup := htakes.nodup
  have hnew : ∀ b ∈ bindings, b.generated ∉ m.names.taken := by
    intro b hb hmem
    exact htakes.not_mem_unavailable _ (List.mem_map_of_mem hb) (List.mem_append_right _ hmem)
  let renamed (x : Span × Nat) : Span := { x.1 with
    text := splice (newName bindings) 0 (found.sites.filter fun o => o.span == x.2) x.1.text }
  have hplaced : out = spans.zipIdx.map renamed := hout.trans (List.mapIdx_eq_zipIdx_map ..)
  have hspan : ∀ x ∈ spans.zipIdx, RenamedSpan bindings x.1 (renamed x) := by
    have hpairs : List.Forall₂ (RenamedSpan bindings) (spans.zipIdx.map Prod.fst) out := by
      rwa [List.zipIdx_map_fst]
    rw [hplaced, List.forall₂_map_left_iff, List.forall₂_map_right_iff, List.forall₂_same] at hpairs
    exact hpairs
  have hmentions : ∀ x ∈ spans.zipIdx,
      (renamed x).mentions [table, newName bindings table] = x.1.mentions [table] :=
    fun x hx => mentions_of_renamed (hspan x hx) hdistinct hgenerated
      (fun b hb hw => hnew b hb (htaken x.1 (List.fst_mem_of_mem_zipIdx hx) _ hw))
      (fun b hb heq => hnew b hb (by rw [heq]; exact htable))
  refine ⟨?_, fun heq hmem => ?_, fun hnone => newName_of_not_mem (by rwa [hdeclared])⟩
  · have hfilter : spans.zipIdx.filter (Span.mentions [table, newName bindings table] ∘ renamed) =
        spans.zipIdx.filter fun x => x.1.mentions [table] := List.filter_congr hmentions
    rw [hplaced, List.filter_map, hfilter, List.forall₂_map_right_iff, List.forall₂_same]
    intro x hx
    obtain ⟨hplace, hmentioned⟩ := List.mem_filter.1 hx
    obtain ⟨slot, name, hname, argument, hslot⟩ :=
      href x.1 (List.fst_mem_of_mem_zipIdx hplace) hmentioned
    obtain rfl := List.mem_singleton.1 hname
    have hsites : (found.sites.filter fun o => o.span == x.2).Sublist (x.1.occurrences x.2) := by
      rw [← filter_occurrences (List.mk_mem_zipIdx_iff_getElem?.1 hplace)]
      exact (sites_sublist _ _).filter _
    have hnames : ∀ o ∈ found.sites.filter (fun o => o.span == x.2), o.mark.isName = true :=
      fun o ho => (declared_of_site _ _ (List.mem_filter.1 ho).1).1
    have hsame : renamed x = { x.1 with
        text := splice (newName bindings) 0 (found.sites.filter fun o => o.span == x.2) x.1.text } := rfl
    have hrenamed := hspan x hplace
    rw [hslot] at hsites hsame hrenamed
    refine ⟨slot, argument, hslot, ?_⟩
    rw [renamed_referenceAt hword hdistinct hsites hnames hsame hrenamed]
    cases hany : found.sites.any fun o => o.span == x.2 with
    | true =>
      have hne : found.sites.filter (fun o => o.span == x.2) ≠ [] := by
        obtain ⟨o, ho, hspan⟩ := List.any_eq_true.1 hany
        exact List.ne_nil_of_mem (List.mem_filter.2 ⟨ho, hspan⟩)
      rw [if_neg hne, if_pos rfl]
    | false =>
      have hnil : found.sites.filter (fun o => o.span == x.2) = [] :=
        List.filter_eq_nil_iff.2 (List.any_eq_false.1 hany)
      rw [if_pos hnil, if_neg Bool.false_ne_true]
  · rw [← hdeclared] at hmem
    obtain ⟨b, hb, -, hname⟩ := exists_binding_of_declared hmem
    exact hnew b hb (by rw [← hname, heq]; exact htable)

/-- Of two references one stands where a name is declared, and it alone is a site. -/
example :
    let spans : List Span := [⟨.code, "print(".toList, 0, 6⟩, ⟨.code, "_t[0]".toList, 6, 9⟩,
      ⟨.code, ") local ".toList, 9, 17⟩, ⟨.code, "_t[1]".toList, 17, 20⟩]
    (resolve .default (occurrences spans)).sites.map Occurrence.span = [3] := by
  decide +kernel

end

end LuaVeil
