/-
# Scripts that stay legible

A script is legible if a scan of its text finds its spans again, none of them empty,
with neighbouring code joined. A scanned script is legible, comments and all, and so is a
stripped one; extraction and renaming leave a legible script legible, whatever they make
of its comments.

Main statements:

* `Legible.extractStrings` and `Legible.renameLocals`, a legible script after a pass;
* `IsScript.legible`, so a script is legible before lines are guarded.
-/
import LuaVeil.Proofs.Lua.Follow
import LuaVeil.Proofs.Veil.PutBack
import LuaVeil.Proofs.Veil.Undisturbed

namespace LuaVeil

/-- Whether a scan finds all spans again where they are, and none of them is empty. -/
structure Legible (spans : List Span) : Prop where
  rescans : Rescans spans
  ne_nil : ∀ s ∈ spans, s.text ≠ []

/-- A scanned script is legible, and so is a stripped one. -/
theorem legible_of_isPrepared {source : Text} {spans : List Span} (h : IsPrepared source spans) :
    Legible spans := by
  refine ⟨?_, (isClear_of_isPrepared h).2⟩
  obtain ⟨scanned, hscan, rfl | ⟨isDebug, rfl⟩⟩ := h
  · exact rescans_of_scan hscan
  · obtain ⟨halternates, hne⟩ := alternates_of_scan hscan
    exact (steady_strip isDebug (rescans_of_scan hscan) halternates hne).rescans

/-! ## Extraction -/

section

variable {s : Span} {rest : Text} {table : Name} {spans : List Span}

/-- A string that is found is a string literal if it does not begin with a backtick. -/
theorem isStringLiteral_of_reads (h : s.Reads rest) (hconstant : s.isConstant = true) :
    IsStringLiteral s.text := by
  obtain ⟨hkind, hhead⟩ := Bool.and_eq_true_iff.1 hconstant
  have hkind : s.kind = .string := by simpa using hkind
  rw [Span.Reads, if_neg (by simp [Span.isCode, hkind])] at h
  obtain ⟨o, body, ho, htext, hb⟩ := closed_iff.1 h.1
  have hbody : o.body? ((s.text ++ rest).drop o.text.length) = some (body, rest) := by
    rw [htext, List.append_assoc, List.drop_left, hb]
  have hstring : o.kind ≠ .comment := by
    rw [ne_eq, kind_eq_comment_iff ho, h.1.beginsComment_append, ← h.2, Span.isComment, hkind]
    decide
  cases o with
  | lineComment => exact absurd rfl hstring
  | blockComment => exact absurd rfl hstring
  | string d =>
    have hread := isStringLiteral_of_body? ho hbody
    rw [← htext] at hread
    refine hread.resolve_right fun htick => ?_
    rw [htick] at hhead
    cases hhead

theorem Rescans.exists_reads (h : Rescans spans) : ∀ s ∈ spans, ∃ rest, s.Reads rest := by
  induction spans with
  | nil => exact fun s hs => by cases hs
  | cons s spans ih => exact List.forall_mem_cons.2 ⟨⟨_, h.1⟩, ih h.2⟩

/-- Strings and comments do not begin with a line feed. -/
theorem not_isLineEnd_of_reads (h : s.Reads rest) (hcode : s.isCode = false) (more : Text) :
    ¬ IsLineEnd (s.text ++ more) := by
  rw [Span.Reads, if_neg (by simp [hcode])] at h
  obtain ⟨c, t, htext, -, hc⟩ := exists_of_closed h.1
  rw [isLineEnd_iff, htext]
  exact fun hend => hc (hend c rfl)

theorem recast_closed (h : s.isCode = true) :
    Recast (fun c => isInert c = true) s.text s.closed.text := by
  have hkind := Strip.kind_of_isCode h
  have hfront := (Recast.refl (p := fun c => isInert c = true) (splitGap s.text).1).append
    (recast_joinBreaks (splitGap s.text).2)
  rw [(splitGap_spec s.text).1] at hfront
  rwa [Span.closed, hkind]

theorem isCode_closed (h : s.kind ≠ .string) : s.closed.isCode = true := by
  cases hkind : s.kind with
  | code => simp [Span.closed, hkind, Span.isCode]
  | string => exact absurd hkind h
  | comment => simp [Span.closed, hkind, Span.isCode]

theorem closed_ne_nil (h : s.text ≠ []) : s.closed.text ≠ [] := by
  cases hkind : s.kind with
  | code =>
    intro hnil
    have hcode : s.isCode = true := by rw [Span.isCode, hkind]; rfl
    have hrecast := recast_closed hcode
    rw [hnil] at hrecast
    exact h hrecast.symm.eq_nil
  | string => rwa [Span.closed, hkind]
  | comment =>
    rw [Span.closed, hkind]
    exact List.cons_ne_nil _ _

/-- A closed span that is no comment any more needs no line end after it. -/
theorem reads_closed {rest' : Text} (h : s.Reads rest) (hcalm : Calmer rest rest') :
    s.closed.Reads rest' := by
  cases hkind : s.kind with
  | code =>
    have hcode : s.isCode = true := by rw [Span.isCode, hkind]; rfl
    rw [Span.Reads, if_pos hcode] at h
    rw [Span.Reads, if_pos (isCode_closed (by simp [hkind]))]
    exact (h.recast (fun _ hc => hc) (recast_closed hcode) (.refl rest)).calmer hcalm
  | string =>
    have hsame : s.closed = s := by rw [Span.closed, hkind]
    rw [hsame]
    exact h.follow hcalm fun hcomment => by simp [Span.isComment, hkind] at hcomment
  | comment =>
    rw [Span.Reads, if_pos (isCode_closed (by simp [hkind])), Span.closed, hkind]
    exact staysCode_of_isInert (List.forall_mem_singleton.2 (by decide)) _

theorem calmer_closed {rest' : Text} (hcalm : Calmer rest rest') :
    Calmer (s.text ++ rest) (s.closed.text ++ rest') := by
  cases hkind : s.kind with
  | code => exact Calmer.append (recast_closed (by rw [Span.isCode, hkind]; rfl)) hcalm
  | string =>
    have hsame : s.closed = s := by rw [Span.closed, hkind]
    rw [hsame]
    exact Calmer.append (.refl _) hcalm
  | comment =>
    refine .of_inert (fun c hc => ?_) _
    rw [Span.closed, hkind] at hc
    obtain rfl := Option.some.inj hc
    decide

/-- Where no line ends in a gap, lines end after extraction where they ended before. -/
theorem IsLineEnd.closed {rest' : Text} (hmarks : s.marks ≠ []) (hne : s.text ≠ [])
    (h : IsLineEnd (s.text ++ rest)) : IsLineEnd (s.closed.text ++ rest') := by
  refine h.of_head hne ?_
  cases hkind : s.kind with
  | code =>
    have hfront : (splitGap s.text).1 ≠ [] := by
      rw [← List.isEmpty_eq_false_iff, isEmpty_splitGap hkind, List.isEmpty_eq_false_iff]
      exact hmarks
    conv_rhs => rw [← (splitGap_spec s.text).1]
    rw [Span.closed, hkind, List.head?_append_of_ne_nil _ hfront,
      List.head?_append_of_ne_nil _ hfront]
  | string => rw [Span.closed, hkind]
  | comment => exact absurd (by rw [Span.marks, hkind]) hmarks

/--
The spans that extraction leaves are found again, and what comes before them is in front of a
calmer text. Where no argument follows, a line ends where it ended before.
-/
theorem rescans_extractedAt (htable : isWord table = true) (done : List Span)
    (h : Rescans spans) (hne : ∀ s ∈ spans, s.text ≠ []) :
    let out := spans.mapIdx fun i s => extractedAt table (done ++ spans) (done.length + i) s
    Rescans out ∧ Calmer (render spans) (render out) ∧
      ((callableAfter done && constantNext spans) = false →
        IsLineEnd (render spans) → IsLineEnd (render out)) := by
  induction spans generalizing done with
  | nil => exact ⟨trivial, .refl _, fun _ hend => hend⟩
  | cons s spans ih =>
    obtain ⟨hs, hspans⟩ := List.forall_mem_cons.1 hne
    obtain ⟨hreads, hmore⟩ := h
    obtain ⟨hrescans, hcalm, hline⟩ := ih (done ++ [s]) hmore hspans
    dsimp only
    rw [mapIdx_extractedAt_cons, extractedAt_append]
    generalize (spans.mapIdx fun i t =>
      extractedAt table (done ++ [s] ++ spans) ((done ++ [s]).length + i) t) = out at *
    rw [render_cons, render_cons]
    by_cases hconstant : s.isConstant = true
    · rw [if_pos hconstant]
      have hcode : s.isCode = false := by
        rw [Span.isCode, show s.kind = .string by simpa using (Bool.and_eq_true_iff.1 hconstant).1]
        rfl
      refine ⟨⟨?_, hrescans⟩, .of_inert (fun c hc => ?_) _, fun _ hend => ?_⟩
      · exact staysCode_reference htable _ _ _
      · rw [List.head?_append_of_ne_nil] at hc
        · exact isInert_of_head?_reference htable hc
        · exact reference_ne_nil _ _ _
      · exact absurd hend (not_isLineEnd_of_reads hreads hcode _)
    · rw [if_neg hconstant]
      -- without marks a span is in the gap exactly if its end is
      have hsame : s.marks = [] → (callableAfter done && constantNext (s :: spans)) =
          (callableAfter (done ++ [s]) && constantNext spans) := fun hmarks => by
        rw [callableAfter_of_no_marks (List.forall_mem_singleton.2 hmarks), constantNext_cons,
          hmarks]
        rfl
      cases hgap : callableAfter (done ++ [s]) && constantNext spans with
      | true =>
        rw [if_pos rfl]
        rw [hgap] at hsame
        refine ⟨⟨?_, hrescans⟩, ?_, fun hnot hend => ?_⟩
        · exact reads_closed hreads hcalm
        · exact calmer_closed hcalm
        · exact IsLineEnd.closed (fun hmarks => by simp [hsame hmarks] at hnot) hs hend
      | false =>
        rw [if_neg (by decide)]
        refine ⟨⟨?_, hrescans⟩, Calmer.append (.refl _) hcalm, fun _ hend => ?_⟩
        · exact hreads.follow hcalm fun _ => hline hgap
        · exact hend.of_head hs rfl

theorem extractedAt_ne_nil (table : Name) {i : Nat} (hne : s.text ≠ []) :
    (extractedAt table spans i s).text ≠ [] := by
  rw [extractedAt]
  split
  · exact reference_ne_nil _ _ _
  · split
    · exact closed_ne_nil hne
    · exact hne

/-- A script is legible with references in the places of its literals. -/
theorem Legible.extractStrings (h : Legible spans) (hide : Bool) (dialect : Dialect) (m : Mint) :
    Legible (extractStrings hide dialect spans m).1.2 := by
  have hliterals : ∀ s ∈ spans, s.isConstant = true → IsStringLiteral s.text := by
    intro s hs hconstant
    obtain ⟨rest, hreads⟩ := h.rescans.exists_reads s hs
    exact isStringLiteral_of_reads hreads hconstant
  have hword : isWord (LuaVeil.extractStrings hide dialect spans m).1.1.name = true := by
    rw [name_extractStrings]
    exact Minting.isWord_freshName m
  rw [(extracted_of_literals hliterals hide dialect m).places]
  refine ⟨?_, fun t ht => ?_⟩
  · simpa using (rescans_extractedAt hword [] h.rescans h.ne_nil).1
  · obtain ⟨i, hi, rfl⟩ := List.mem_mapIdx.1 ht
    exact extractedAt_ne_nil _ (h.ne_nil _ (List.getElem_mem hi))

end

/-! ## Renaming -/

section

variable {spans out : List Span} {s s' : Span} {rest rest' : Text} {bindings : List Binding}

theorem recast_render (h : List.Forall₂ RecastWords spans out) :
    Recast (fun c => isWordChar c = true) (render spans) (render out) := by
  induction h with
  | nil => exact .nil
  | cons hs _ ih => exact hs.text.append ih

/-- A span with new names is found in front of a text with new names. -/
theorem RecastWords.reads (h : RecastWords s s')
    (hrest : Recast (fun c => isWordChar c = true) rest rest') (hreads : s.Reads rest) :
    s'.Reads rest' := by
  have hinert : ∀ c, isWordChar c = true → isInert c = true := fun _ => isInert_of_isWordChar
  have hfeed : ¬ isWordChar '\n' = true := by decide
  have hcode : s'.isCode = s.isCode := by rw [Span.isCode, h.kind_eq, Span.isCode]
  have hcomment : s'.isComment = s.isComment := by rw [Span.isComment, h.kind_eq, Span.isComment]
  by_cases hs : s.isCode = true
  · rw [Span.Reads, if_pos hs] at hreads
    rw [Span.Reads, if_pos (hcode.trans hs)]
    exact hreads.recast hinert h.text hrest
  have hfollow : s.Reads rest' :=
    hreads.follow (.of_recast (hrest.mono hinert)) fun _ hend => hend.recast hfeed hrest
  rw [Span.Reads, if_neg hs] at hfollow
  rw [Span.Reads, hcode, if_neg hs, hcomment]
  by_cases htick : s.text.head? = some '`'
  · obtain ⟨hclosed, hhead⟩ := hfollow.1.recast (fun _ => plain_of_isWordChar) h.text
      (by rw [htick]; rfl)
    have hno : ∀ {t : Text}, t.head? = some '`' → ¬ BeginsComment t := by
      rintro t ht ⟨more, rfl⟩
      cases ht
    exact ⟨hclosed, hfollow.2.trans (iff_of_false (hno htick) (hno (hhead.trans htick)))⟩
  · rwa [h.fixed (by simpa using hs) htick]

/-- A script is legible with new names. -/
theorem Legible.renameLocals {strength : Strength} {m : Mint} (h : Legible spans)
    (hrun : (renameLocals strength spans m).1 = some (out, bindings)) : Legible out := by
  have hrecast := recast_renameLocals hrun
  obtain ⟨hrescans, hne⟩ := h
  clear hrun
  induction hrecast with
  | nil => exact ⟨trivial, hne⟩
  | @cons s s' spans out hs hmore ih =>
    obtain ⟨hfirst, hne⟩ := List.forall_mem_cons.1 hne
    obtain ⟨hlater, hlaterne⟩ := ih hrescans.2 hne
    refine ⟨⟨hs.reads (recast_render hmore) hrescans.1, hlater⟩,
      List.forall_mem_cons.2 ⟨fun hnil => hfirst ?_, hlaterne⟩⟩
    have htext := hs.text
    rw [hnil] at htext
    exact htext.symm.eq_nil

end

/-! ## Scripts before guards -/

/-- The spans of a script as they are before lines are guarded. -/
inductive IsScript : List Span → Prop
  /-- scanned, and stripped or not -/
  | prepared {source : Text} {spans : List Span} (h : IsPrepared source spans) : IsScript spans
  /-- with references in place of its literals -/
  | extracted {spans : List Span} (h : IsScript spans) (hide : Bool) (dialect : Dialect)
      (m : Mint) : IsScript (extractStrings hide dialect spans m).1.2
  /-- with new names -/
  | renamed {spans out : List Span} {bindings : List Binding} {strength : Strength} {m : Mint}
      (h : IsScript spans) (hrun : (renameLocals strength spans m).1 = some (out, bindings)) :
      IsScript out

/-- A script is legible before lines are guarded. -/
theorem IsScript.legible {spans : List Span} (h : IsScript spans) : Legible spans := by
  induction h with
  | prepared h => exact legible_of_isPrepared h
  | extracted _ hide dialect m ih => exact ih.extractStrings hide dialect m
  | renamed _ hrun ih => exact ih.renameLocals hrun

end LuaVeil
