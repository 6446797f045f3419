/-
# Guards and decoys between references

Guards and decoys are put between the spans of a script. Their words are keywords
and new names, so that the references to names in use stay as they are and in
order.

Main statements:

* `filter_guardLines` and `filter_injectDecoys`, guards and decoys keep all
  references;
* `Pass.filter_runAll`, so do passes that only insert.
-/
import LuaVeil.Proofs.Names.Generated
import LuaVeil.Proofs.Veil.DecoyWords
import LuaVeil.Proofs.Veil.References
import LuaVeil.Proofs.Veil.StrippedWords

namespace LuaVeil

/-- Names in use that new words are kept apart from. -/
structure Tracked (names : List Name) (m : Mint) : Prop where
  word : ∀ name ∈ names, isWord name = true
  keyword : ∀ name ∈ names, isKeyword name = false
  taken : ∀ name ∈ names, name ∈ m.names.taken

section

variable {names : List Name} {m : Mint} {spans : List Span} {s : Span} {l : Line}

theorem Tracked.mono {m' : Mint} (h : Tracked names m)
    (htaken : ∀ name ∈ m.names.taken, name ∈ m'.names.taken) : Tracked names m' :=
  { h with taken := fun name hname => htaken name (h.taken name hname) }

/-- Names that are taken from a mint are none of the names in use. -/
theorem Tracked.not_mem {new : List Name} {n : Namespace} (h : Tracked names m)
    (htakes : m.names.Takes new n) : ∀ w ∈ new, w ∉ names :=
  fun w hw hname =>
    htakes.not_mem_unavailable w hw (List.mem_append_right _ (h.taken w hname))

theorem mentions_eq_false (h : ∀ w ∈ s.words, w ∉ names) : s.mentions names = false := by
  rw [Span.mentions, List.any_eq_false]
  intro w hw
  simpa using h w hw

/-! ## Lines -/

theorem mentions_lineFeed (l : Line) : l.lineFeed.mentions names = false := by
  simp [Span.mentions, l.words_lineFeed]

theorem reference_ne_lineFeed {name : Name} (h : isWord name = true) (index : Nat)
    (argument : Bool) : ∀ c ∈ StringTable.reference name index argument, c ≠ '\n' := by
  have hslot : ∀ c ∈ name ++ '[' :: Number.decimal index ++ [']'], c ≠ '\n' := by
    rintro c hc rfl
    simp only [List.append_assoc, List.cons_append, List.mem_append, List.mem_cons,
      List.not_mem_nil, or_false] at hc
    rcases hc with hc | hc | hc | hc
    · exact absurd (isWordChar_of_mem h _ hc) (by decide)
    · exact absurd hc (by decide)
    · exact absurd (all_isDigit_decimal index _ hc) (by decide)
    · exact absurd hc (by decide)
  cases argument with
  | false => exact hslot
  | true =>
    intro c hc
    rcases List.mem_cons.1 hc with rfl | hc
    · decide
    rcases List.mem_append.1 hc with hc | hc
    · exact hslot c hc
    · obtain rfl := List.mem_singleton.1 hc
      decide

/-- The spans with some names on the lines of a script are those of the script. -/
theorem filter_splitLines (hword : ∀ name ∈ names, isWord name = true)
    (h : OnlyReferences names spans) :
    ((splitLines spans).flatMap fun l => l.spans.filter (Span.mentions names)) =
      spans.filter (Span.mentions names) := by
  have hrows : ((splitLines spans).flatMap fun l => l.spans.filter (Span.mentions names)) =
      (splitRows spans).flatMap fun row => row.spans.filter (Span.mentions names) := by
    rw [← toRow_splitLines, List.flatMap_map]
  rw [hrows]
  refine filter_splitRows fun s hs hcode hfeed => ?_
  have hnone : s.mentions names = false := by
    by_contra hmentions
    obtain ⟨slot, name, hname, argument, rfl⟩ := h s hs (by simpa using hmentions)
    have hmem : '\n' ∈ StringTable.reference name slot.2 argument := List.contains_iff_mem.1 hfeed
    exact reference_ne_lineFeed (hword name hname) _ _ _ hmem rfl
  refine ⟨hnone, fun piece hpiece start t ht => mentions_eq_false fun w hw hname => ?_⟩
  have hwords : w ∈ codeWords piece := by
    rw [← flatMap_words_codeSpans start piece]
    exact List.mem_flatMap.2 ⟨t, ht, hw⟩
  have hold : w ∈ s.words := by
    rw [Span.words, Strip.kind_of_isCode hcode, ← partedByBlanks_codeWords.splitLines]
    exact List.mem_flatMap.2 ⟨piece, hpiece, hwords⟩
  rw [Span.mentions, List.any_eq_false] at hnone
  exact hnone w hold (by simpa using hname)

theorem OnlyReferences.of_filter_eq {spans' : List Span} (h : OnlyReferences names spans)
    (heq : spans'.filter (Span.mentions names) = spans.filter (Span.mentions names)) :
    OnlyReferences names spans' := by
  intro s hs hmentions
  have hmem : s ∈ spans.filter (Span.mentions names) := by
    rw [← heq]
    exact List.mem_filter.2 ⟨hs, hmentions⟩
  exact h s (List.mem_filter.1 hmem).1 hmentions

theorem OnlyReferences.line (hword : ∀ name ∈ names, isWord name = true)
    (h : OnlyReferences names spans) (hl : l ∈ splitLines spans) :
    OnlyReferences names l.spans := by
  intro s hs hmentions
  have hmem : s ∈ spans.filter (Span.mentions names) := by
    rw [← filter_splitLines hword h]
    exact List.mem_flatMap.2 ⟨l, hl, List.mem_filter.2 ⟨hs, hmentions⟩⟩
  exact h s (List.mem_filter.1 hmem).1 hmentions

/-! ## Guards -/

theorem separates_of_mem_indent : ∀ c ∈ l.indent, separates c = true := by
  intro c hc
  rw [Line.indent] at hc
  split at hc
  · split at hc
    · have hblank := List.mem_takeWhile_imp hc
      simp only [Bool.or_eq_true, beq_iff_eq] at hblank
      rcases hblank with rfl | rfl <;> decide
    · cases hc
  · cases hc

theorem exists_reference_cons {name : Name} (h : isWord name = true) (index : Nat)
    (argument : Bool) : ∃ c t, StringTable.reference name index argument = c :: t ∧
      (c == ' ' || c == '\t') = false := by
  cases argument with
  | true => exact ⟨'(', _, rfl, by decide⟩
  | false =>
    obtain ⟨c, t, rfl⟩ : ∃ c t, name = c :: t := by
      cases name with
      | nil => cases h
      | cons c t => exact ⟨c, t, rfl⟩
    refine ⟨c, _, rfl, ?_⟩
    by_contra hblank
    rw [Bool.not_eq_false, Bool.or_eq_true, beq_iff_eq, beq_iff_eq] at hblank
    have hstart := (isWord_cons.1 h).1
    rcases hblank with rfl | rfl <;> exact absurd hstart (by decide)

/-- References have no indentation. -/
theorem keeps_dropIndent (hword : ∀ name ∈ names, isWord name = true)
    (h : OnlyReferences names l.spans) :
    List.Forall₂ (Keeps names) l.spans (Guard.dropIndent l) := by
  obtain ⟨⟨spans, newlineAt⟩, facts⟩ := l
  cases spans with
  | nil => exact .nil
  | cons s spans =>
    refine .cons ?_ (List.forall₂_same.2 fun s _ => Keeps.refl s)
    let indent := Line.indent ⟨⟨s :: spans, newlineAt⟩, facts⟩
    show Keeps names s (if s.isCode = true then { s with text := s.text.drop indent.length } else s)
    split
    · next hcode =>
      have hindent : indent = s.text.takeWhile fun c => c == ' ' || c == '\t' := by
        simp only [indent, Line.indent, if_pos hcode]
      have hblank : ∀ c ∈ indent, separates c = true := separates_of_mem_indent
      rw [hindent] at hblank ⊢
      have hkind := Strip.kind_of_isCode hcode
      have hsplit := List.prefix_iff_eq_append.1
        (List.takeWhile_prefix (l := s.text) fun c => c == ' ' || c == '\t')
      refine ⟨rfl, rfl, ?_, fun hmentions => ?_⟩
      · simp only [Span.words, hkind]
        conv_rhs => rw [← hsplit]
        exact (codeWords_of_separates hblank _).symm
      · obtain ⟨slot, name, hname, argument, rfl⟩ := h s List.mem_cons_self hmentions
        have hfirst : (StringTable.reference name slot.2 argument).takeWhile
            (fun c => c == ' ' || c == '\t') = [] := by
          obtain ⟨c, t, hc, hblank⟩ := exists_reference_cons (hword name hname) slot.2 argument
          rw [hc, List.takeWhile_cons, hblank]
          rfl
        have htext : (referenceAt name slot argument).text =
            StringTable.reference name slot.2 argument := rfl
        rw [htext, hfirst]
        rfl
    · exact Keeps.refl s

/-- A guard around a line keeps the references on it. -/
theorem filter_wrap {guard : Text} {predicate : Name} (ht : Tracked names m)
    (hguard : codeWords guard = [predicate]) (hpredicate : predicate ∉ names)
    (h : OnlyReferences names l.spans) :
    (Guard.wrap guard l).spans.filter (Span.mentions names) =
      l.spans.filter (Span.mentions names) := by
  have hkeyword : ∀ w, isKeyword w = true → w ∉ names := by
    intro w hw hname
    rw [ht.keyword w hname] at hw
    cases hw
  have hfront : ∀ place, (Span.codeAt (l.indent ++ "if ".toList ++ guard ++ " then ".toList)
      place).mentions names = false := by
    intro place
    have hwords : codeWords (l.indent ++ "if ".toList ++ guard ++ " then ".toList) =
        ["if".toList, predicate, "then".toList] := by
      have htext : l.indent ++ "if ".toList ++ guard ++ " then ".toList =
          l.indent ++ ("if".toList ++ ' ' :: (guard ++ ' ' :: "then ".toList)) := by simp
      have hif : codeWords "if".toList = ["if".toList] := by decide +kernel
      have hthen : codeWords "then ".toList = ["then".toList] := by decide +kernel
      rw [htext, codeWords_of_separates separates_of_mem_indent, codeWords_append_cons (by decide),
        codeWords_append_cons (by decide), hif, hguard, hthen]
      rfl
    refine mentions_eq_false fun w hw => ?_
    rw [show (Span.codeAt _ place).words = _ from hwords] at hw
    simp only [List.mem_cons, List.not_mem_nil, or_false] at hw
    rcases hw with rfl | rfl | rfl
    · exact hkeyword _ (by decide)
    · exact hpredicate
    · exact hkeyword _ (by decide)
  have hend : ∀ place, (Span.codeAt " end".toList place).mentions names = false := by
    intro place
    refine mentions_eq_false fun w hw => hkeyword w ?_
    have hwords : ∀ w ∈ codeWords " end".toList, isKeyword w = true := by decide +kernel
    exact hwords w hw
  have hdrop := filter_of_keeps (keeps_dropIndent ht.word h)
  generalize hspans : Guard.dropIndent l = spans at hdrop
  simp only [Guard.wrap, hspans, List.filter_cons, List.filter_append, hfront, hend,
    Bool.false_eq_true, if_false]
  rw [← hdrop, ← List.filter_append, List.take_append_drop]

theorem codeWords_guard {p : OpaquePredicate} (hname : isWord p.name = true) (source : Source) :
    codeWords (p.guard source).1 = [p.name] := by
  have hguard : ∀ n, codeWords (p.name ++ '(' :: Number.decimalInt n ++ [')']) = [p.name] := by
    intro n
    have hnumber : codeWords (Number.decimalInt n ++ [')']) = [] := by
      refine codeWords_eq_nil fun c hc => ?_
      rcases List.mem_append.1 hc with hc | hc
      · exact Decoy.isWordStart_decimalInt n c hc
      · obtain rfl := List.mem_singleton.1 hc
        decide
    rw [List.append_assoc, List.cons_append, codeWords_append_cons (by decide), hnumber,
      codeWords_of_isWord hname]
    rfl
  unfold OpaquePredicate.guard
  generalize Draw.between .word 1 OpaquePredicate.maxArgument = number
  exact hguard (number source).1

/-- The lines of a script that get a guard, with their guards. -/
def Guard.drawn (p : Probability) (predicate : OpaquePredicate) (spans : List Span) :
    Draw (List (Nat × Text)) := do
  let lines := splitLines spans
  let chosen ← choose p ((List.range lines.length).filter (isWrappable lines))
  chosen.mapM fun i => (fun guard => (i, guard)) <$> predicate.guard

/-- A line in the guard that was drawn for it, if any. -/
def Guard.put (guards : List (Nat × Text)) (i : Nat) (l : Line) : Line :=
  match guards.lookup i with
  | some guard => wrap guard l
  | none => l

theorem guardLines_spans (p : Probability) (predicate : OpaquePredicate) (spans : List Span)
    (source : Source) :
    (guardLines p predicate spans source).1.1 =
      joinLines ((splitLines spans).mapIdx (Guard.put (Guard.drawn p predicate spans source).1)) :=
  rfl

theorem mem_guards {p : OpaquePredicate} {chosen : List Nat} {source : Source}
    {place : Nat × Text}
    (h : place ∈ (chosen.mapM (fun i => (fun guard => (i, guard)) <$> p.guard) source).1) :
    ∃ source, place.2 = (p.guard source).1 := by
  induction chosen generalizing source with
  | nil => cases h
  | cons i chosen ih =>
    rw [List.mapM_cons] at h
    rcases List.mem_cons.1 h with rfl | h
    · exact ⟨source, rfl⟩
    · exact ih h

/-- A line is kept, or put into a guard of the predicate. -/
theorem Guard.put_cases (p : Probability) (predicate : OpaquePredicate) (spans : List Span)
    (source : Source) (i : Nat) (l : Line) :
    put (drawn p predicate spans source).1 i l = l ∨
      ∃ source', put (drawn p predicate spans source).1 i l = wrap (predicate.guard source').1 l := by
  unfold put
  split
  · next guard hguard =>
    obtain ⟨before, after, hguards, -⟩ := List.lookup_eq_some_iff.1 hguard
    obtain ⟨source', hdrawn⟩ := mem_guards (hguards ▸ List.mem_append_right _ List.mem_cons_self)
    exact .inr ⟨source', by rw [← hdrawn]⟩
  · exact .inl rfl

/-- What guards leave of each line they leave of all lines. -/
theorem Guard.flatMap_put {β : Type} {f : Line → List β} {p : Probability}
    {predicate : OpaquePredicate} {spans : List Span} {source : Source} {lines : List Line}
    (h : ∀ l ∈ lines, ∀ source', f (wrap (predicate.guard source').1 l) = f l) :
    (lines.mapIdx (put (drawn p predicate spans source).1)).flatMap f = lines.flatMap f := by
  rw [List.flatMap_def, List.flatMap_def]
  congr 1
  refine List.ext_getElem (by simp) fun i hi _ => ?_
  have hlength : i < lines.length := by simpa using hi
  simp only [List.getElem_map, List.getElem_mapIdx]
  rcases put_cases p predicate spans source i lines[i] with hput | ⟨source', hput⟩
  · rw [hput]
  · rw [hput]
    exact h _ (List.getElem_mem hlength) source'

/-- Guards keep the references of a script. -/
theorem filter_guardLines {chance : Probability} {predicate : OpaquePredicate}
    (ht : Tracked names m) (hname : isWord predicate.name = true)
    (hpredicate : predicate.name ∉ names) (h : OnlyReferences names spans) (source : Source) :
    (guardLines chance predicate spans source).1.1.filter (Span.mentions names) =
      spans.filter (Span.mentions names) := by
  rw [guardLines_spans, filter_joinLines mentions_lineFeed, ← filter_splitLines ht.word h,
    Guard.flatMap_put fun l hl source => ?_]
  exact filter_wrap ht (codeWords_guard hname source) hpredicate (h.line ht.word hl)

/-! ## Decoys -/

namespace Decoy

theorem of_mem_scatter {p : Probability} {templates : List Text} {places : List Bool} {m : Mint}
    {d : Filled} (h : some d ∈ (scatter p templates places m).1) :
    ∃ template ∈ [] :: templates, ∃ m', d = (fill template m').1 := by
  induction places generalizing m with
  | nil => cases h
  | cons boundary places ih =>
    rw [scatter, Minting.bind_apply] at h
    rcases List.mem_cons.1 h with hd | h
    · cases boundary with
      | false => cases hd
      | true =>
        have hpick := fun source => mem_of_pick [] templates source
        unfold decide? at hd
        generalize Draw.chance p = chance at hd
        generalize Draw.pick [] templates = pick at hd hpick
        simp only [Minting.bind_apply] at hd
        split at hd
        · obtain rfl := Option.some.inj hd
          exact ⟨_, hpick _, _, rfl⟩
        · cases hd
    · exact ih h

theorem flatMap_weave {β : Type} {f : Line → List β} {lines : List Line}
    {decoys : List (Option Filled)}
    (h : ∀ d, some d ∈ decoys → ∀ (l : Line) (place : Nat),
      f (.synthetic (l.indent ++ d.text) place) = []) :
    (weave lines decoys).flatMap f = lines.flatMap f := by
  fun_induction weave lines decoys with
  | case1 l lines d decoys ih =>
    have hsynthetic := h d List.mem_cons_self (lines.head?.getD l) l.stop
    rw [List.flatMap_cons, List.flatMap_cons, hsynthetic, List.flatMap_cons, List.nil_append,
      ih fun d hd => h d (List.mem_cons_of_mem _ hd)]
  | case2 l lines decoys ih =>
    rw [List.flatMap_cons, List.flatMap_cons, ih fun d hd => h d (List.mem_cons_of_mem _ hd)]
  | case3 => rfl

end Decoy

/-- Decoys keep the references of a script. -/
theorem filter_injectDecoys {chance : Probability} (ht : Tracked names m)
    (h : OnlyReferences names spans) :
    (injectDecoys chance Decoy.defaultTemplates spans m).1.1.filter (Span.mentions names) =
      spans.filter (Span.mentions names) := by
  have hdecoy : ∀ d, some d ∈ (Decoy.decisions chance Decoy.defaultTemplates spans m).1 →
      ∀ w ∈ codeWords d.text, w ∉ names := by
    intro d hd w hw hname
    rw [Decoy.decisions] at hd
    obtain ⟨template, htemplate, m', rfl⟩ := Decoy.of_mem_scatter hd
    rcases Decoy.words_fill htemplate m' w hw with hkeyword | hdname
    · rw [ht.keyword w hname] at hkeyword
      cases hkeyword
    · have htakes := (Decoy.decisions_uses chance Decoy.defaultTemplates spans m).1
      exact ht.not_mem htakes w (List.mem_filterMap.2 ⟨_, hd, hdname⟩) hname
  rw [Decoy.injectDecoys_eq (by decide)]
  show (joinLines (Decoy.weave (splitLines spans)
    (Decoy.decisions chance Decoy.defaultTemplates spans m).1)).filter (Span.mentions names) = _
  rw [filter_joinLines mentions_lineFeed, Decoy.flatMap_weave, filter_splitLines ht.word h]
  intro d hd l place
  refine List.filter_eq_nil_iff.2 fun s hs => ?_
  obtain rfl := List.mem_singleton.1 hs
  rw [Bool.not_eq_true]
  refine mentions_eq_false fun w hw => hdecoy d hd w ?_
  rw [← codeWords_of_separates (separates_of_mem_indent (l := l)) d.text]
  exact hw

/-! ## Passes -/

namespace Pass

/-- Whether a pass only puts guards or decoys into a script. -/
def Inserts : Pass → Prop
  | guards _ => True
  | decoys _ templates => templates = Decoy.defaultTemplates
  | _ => False

/-- A pass that only inserts keeps all references and declarations. -/
theorem filter_run {p : Pass} {w w' : Work} {changed : Bool} (hp : p.Inserts)
    (ht : Tracked names m) (h : OnlyReferences names w.spans)
    (hrun : (p.run w m).1 = some (w', changed)) :
    w'.spans.filter (Span.mentions names) = w.spans.filter (Span.mentions names) ∧
      w.declarations <+: w'.declarations := by
  cases p with
  | guards chance =>
    obtain ⟨htakes, hword⟩ := choose_uses m
    have hpredicate := ht.not_mem htakes _ (List.mem_singleton_self _)
    have hfilter := @filter_guardLines names m w.spans chance (OpaquePredicate.choose m).1
      ht hword hpredicate h (OpaquePredicate.choose m).2.source
    obtain rfl := congrArg Prod.fst (Option.some.inj hrun)
    refine ⟨hfilter, ?_⟩
    dsimp only
    split
    · exact List.prefix_refl _
    · exact List.prefix_append _ _
  | decoys chance templates =>
    obtain rfl : templates = Decoy.defaultTemplates := hp
    have hfilter := @filter_injectDecoys names m w.spans chance ht h
    obtain rfl := congrArg Prod.fst (Option.some.inj hrun)
    exact ⟨hfilter, List.prefix_refl _⟩
  | _ => exact hp.elim

/-- Passes that only insert keep all references and declarations. -/
theorem filter_runAll {passes : List Pass} {w w' : Work} (hp : ∀ p ∈ passes, p.Inserts)
    (ht : Tracked names m) (h : OnlyReferences names w.spans)
    (hrun : (runAll w passes m).1 = some w') :
    w'.spans.filter (Span.mentions names) = w.spans.filter (Span.mentions names) ∧
      w.declarations <+: w'.declarations := by
  induction passes generalizing w m with
  | nil =>
    obtain rfl := Option.some.inj hrun
    exact ⟨rfl, List.prefix_refl _⟩
  | cons p passes ih =>
    obtain ⟨hfirst, hmore⟩ := List.forall_mem_cons.1 hp
    obtain ⟨next, changed, hout, hnext⟩ := exists_of_runAll_cons hrun
    rw [hnext] at hrun
    obtain ⟨hfilter, hprefix⟩ := filter_run hfirst ht h hout
    have htaken := (run_takes hout).1.taken_eq
    have hlater := ih hmore (ht.mono fun name hname => by simp [htaken, hname])
      (h.of_filter_eq hfilter) hrun
    exact ⟨hlater.1.trans hfilter, hprefix.trans hlater.2⟩

end Pass

end

end LuaVeil
