/-
# What renaming does

Renaming changes a script token by token: a token is the same as before, or it
was the name of a variable and is now the new name of this variable. Since the new
names are no words of the script, they tell where a name was replaced, and the
script can be restored.

Main statements:

* `renamedCode_flatten`, code with new names has the old tokens but for these;
* `renamed_of_sites`, so has each span of a script;
* `renaming_tokenwise`, what renaming does to a script, and that it can be undone.
-/
import LuaVeil.Proofs.Lua.CodeWords
import LuaVeil.Proofs.Names.Ledger
import LuaVeil.Proofs.Names.Shapes
import LuaVeil.Proofs.Scope.Order
import LuaVeil.Proofs.Veil.Splicing

namespace LuaVeil

/-! ## Renamed tokens -/

/-- A token after renaming: the token itself, or the new name in the place of a variable. -/
def RenamedToken (bindings : List Binding) (t t' : Token) : Prop :=
  t'.kind = t.kind ∧ (t'.text = t.text ∨
    t.kind = .word ∧ ∃ b ∈ bindings, b.declared = t.text ∧ b.generated = t'.text)

/-- Code after renaming, token by token. -/
def RenamedCode (bindings : List Binding) (code code' : Text) : Prop :=
  List.Forall₂ (RenamedToken bindings) (tokenize code) (tokenize code')

/-- A span after renaming. Strings change in their holes at most, and comments not at all. -/
structure RenamedSpan (bindings : List Binding) (s s' : Span) : Prop where
  kind_eq : s'.kind = s.kind
  start_eq : s'.start = s.start
  stop_eq : s'.stop = s.stop
  code : s.kind = .code → RenamedCode bindings s.text s'.text
  holes : s.kind = .string → List.Forall₂ (fun h h' => RenamedCode bindings h.text h'.text)
    (holes s.text) (holes s'.text)
  quoted : s.kind = .string → s.text.head? ≠ some '`' → s'.text = s.text
  comment : s.kind = .comment → s'.text = s.text

/-- The variable that has a new name; other names stay. -/
def oldName (bindings : List Binding) (name : Name) : Name :=
  match bindings.find? fun b => b.generated == name with
  | some b => b.declared
  | none => name

/-- A span with `f` applied to each word of its code, or of the code in its holes. -/
def Span.mapWords (f : Name → Name) (s : Span) : Span :=
  match s.kind with
  | .code => { s with text := LuaVeil.mapWords f s.text }
  | .string => { s with text := replaceHoles (LuaVeil.mapWords f) 0 (LuaVeil.holes s.text) s.text }
  | .comment => s

/-! ## New and old names -/

section

variable {bindings : List Binding}

theorem exists_binding_of_declared {name : Name} (h : name ∈ bindings.map Binding.declared) :
    ∃ b ∈ bindings, b.declared = name ∧ newName bindings name = b.generated := by
  unfold newName
  cases hfind : bindings.find? fun b => b.declared == name with
  | some b =>
    exact ⟨b, List.mem_of_find?_eq_some hfind, by simpa using List.find?_some hfind, rfl⟩
  | none =>
    obtain ⟨b, hb, rfl⟩ := List.mem_map.1 h
    simpa using List.find?_eq_none.1 hfind b hb

/-- The old name of a new name is the variable, if no two variables have the same new name. -/
theorem oldName_generated (hnodup : (bindings.map Binding.generated).Nodup) {b : Binding}
    (hb : b ∈ bindings) : oldName bindings b.generated = b.declared := by
  unfold oldName
  cases hfind : bindings.find? fun b' => b'.generated == b.generated with
  | some b' =>
    have hsame : b'.generated = b.generated := by simpa using List.find?_some hfind
    rw [List.inj_on_of_nodup_map hnodup (List.mem_of_find?_eq_some hfind) hb hsame]
  | none => simpa using List.find?_eq_none.1 hfind b hb

theorem oldName_of_not_mem {name : Name} (h : name ∉ bindings.map Binding.generated) :
    oldName bindings name = name := by
  unfold oldName
  cases hfind : bindings.find? fun b => b.generated == name with
  | some b =>
    refine absurd (List.mem_map.2 ⟨b, List.mem_of_find?_eq_some hfind, ?_⟩) h
    simpa using List.find?_some hfind
  | none => rfl

/-! ## Code -/

/-- The texts that stand for the tokens of some code after renaming. -/
abbrev NamedAnew (bindings : List Binding) (code : Text) (us : List Text) : Prop :=
  List.Forall₂ (Renames (newName bindings) (· ∈ bindings.map Binding.declared)) (labels code) us

variable {code : Text} {us : List Text}

theorem NamedAnew.replacesWord (h : NamedAnew bindings code us)
    (hword : ∀ b ∈ bindings, isWord b.generated = true) :
    List.Forall₂ ReplacesWord (labels code) us := by
  refine h.imp fun label u hu => hu.imp_right ?_
  rintro ⟨hkind, hname, rfl⟩
  obtain ⟨b, hb, -, hnew⟩ := exists_binding_of_declared hname
  exact ⟨hkind, by rw [hnew]; exact hword b hb⟩

/-- Code with new names has the old tokens but for these. -/
theorem renamedCode_flatten (h : NamedAnew bindings code us)
    (hword : ∀ b ∈ bindings, isWord b.generated = true) :
    RenamedCode bindings code us.flatten := by
  have hzip : ∀ {ls : List (TokenKind × Text)} {us : List Text},
      List.Forall₂ (Renames (newName bindings) (· ∈ bindings.map Binding.declared)) ls us →
      List.Forall₂ (fun l l' : TokenKind × Text => l'.1 = l.1 ∧ (l'.2 = l.2 ∨
        l.1 = .word ∧ ∃ b ∈ bindings, b.declared = l.2 ∧ b.generated = l'.2))
        ls (List.zipWith (fun l u => (l.1, u)) ls us) := by
    intro ls us h
    induction h with
    | nil => exact .nil
    | cons hu _ ih =>
      refine .cons ⟨rfl, hu.imp_right ?_⟩ ih
      rintro ⟨hkind, hname, rfl⟩
      obtain ⟨b, hb, hdeclared, hnew⟩ := exists_binding_of_declared hname
      exact ⟨hkind, b, hb, hdeclared, hnew.symm⟩
  have hlabels := hzip h
  rw [← (labels_flatten (h.replacesWord hword)).1, labels, labels, List.forall₂_map_left_iff,
    List.forall₂_map_right_iff] at hlabels
  exact hlabels

/-- New names that are no words of the code are replaced back. -/
theorem mapWords_oldName (h : NamedAnew bindings code us)
    (hword : ∀ b ∈ bindings, isWord b.generated = true)
    (hnodup : (bindings.map Binding.generated).Nodup)
    (hfresh : ∀ b ∈ bindings, b.generated ∉ codeWords code) :
    mapWords (oldName bindings) us.flatten = code := by
  refine mapWords_flatten (h.replacesWord hword) ?_
  have hkept : ∀ l ∈ labels code, l.1 = .word → oldName bindings l.2 = l.2 := by
    rintro ⟨kind, w⟩ hl rfl
    refine oldName_of_not_mem fun hmem => ?_
    obtain ⟨b, hb, rfl⟩ := List.mem_map.1 hmem
    exact hfresh b hb (mem_codeWords.2 hl)
  refine ((List.forall₂_and_left _ _).2 ⟨hkept, h⟩).imp ?_
  rintro label u ⟨hlabel, rfl | ⟨-, hname, rfl⟩⟩ hkind
  · exact hlabel hkind
  · obtain ⟨b, hb, hdeclared, hnew⟩ := exists_binding_of_declared hname
    rw [hnew, oldName_generated hnodup hb, hdeclared]

theorem isHoleMark_of_isWordChar {c : Char} (h : isWordChar c = true) : isHoleMark c = false := by
  by_contra hmark
  rw [Bool.not_eq_false] at hmark
  simp only [isHoleMark, Bool.or_eq_true, beq_iff_eq] at hmark
  rcases hmark with ((rfl | rfl) | rfl) | rfl <;> exact absurd h (by decide)

theorem filter_isHoleMark_of_isWord {w : Text} (h : isWord w = true) :
    w.filter isHoleMark = [] := by
  rw [List.filter_eq_nil_iff]
  intro c hc
  rw [Bool.not_eq_true]
  cases w with
  | nil => cases hc
  | cons d w =>
    obtain ⟨hd, hw⟩ := isWord_cons.1 h
    rcases List.mem_cons.1 hc with rfl | hc
    · exact isHoleMark_of_isWordChar (isWordChar_of_isWordStart hd)
    · exact isHoleMark_of_isWordChar (hw c hc)

/-- Renamed code can take the place of the code in a string. -/
theorem canReplace_flatten (h : NamedAnew bindings code us)
    (hword : ∀ b ∈ bindings, isWord b.generated = true) (hcode : code ≠ []) (next : Text) :
    CanReplace (code, next) (us.flatten, next) := by
  have hreplaces := h.replacesWord hword
  refine ⟨rfl, fun hnil => ?_, ?_⟩
  · rcases (labels_flatten hreplaces).2.cases_head with ⟨rfl, -⟩ | ⟨c, t, t', -, hus, -⟩ | ⟨-, hus⟩
    · exact hcode rfl
    · exact List.cons_ne_nil _ _ (hus.symm.trans hnil)
    · replace hnil : us.flatten = [] := hnil
      rw [hnil] at hus
      cases hus
  · have hwords : ∀ l ∈ labels code, l.1 = .word → l.2.filter isHoleMark = [] := by
      rintro ⟨kind, w⟩ hl rfl
      exact filter_isHoleMark_of_isWord (isWord_of_mem_labels hl)
    have hsame : List.Forall₂ (fun (l : TokenKind × Text) (u : Text) =>
        u.filter isHoleMark = l.2.filter isHoleMark) (labels code) us := by
      refine ((List.forall₂_and_left _ _).2 ⟨hwords, hreplaces⟩).imp ?_
      rintro label u ⟨hlabel, rfl | ⟨hkind, hu⟩⟩
      · rfl
      · rw [hlabel hkind, filter_isHoleMark_of_isWord hu]
    have hflat : ∀ {ls : List (TokenKind × Text)} {us : List Text},
        List.Forall₂ (fun l u => u.filter isHoleMark = l.2.filter isHoleMark) ls us →
        us.flatten.filter isHoleMark = (ls.flatMap Prod.snd).filter isHoleMark := by
      intro ls us h
      induction h with
      | nil => rfl
      | cons hu _ ih =>
        rw [List.flatten_cons, List.flatMap_cons, List.filter_append, List.filter_append, hu, ih]
    show us.flatten.filter isHoleMark = code.filter isHoleMark
    rw [hflat hsame, flatMap_snd_labels]

/-! ## Spans -/

/-- New names for variables, as renaming chooses them: different words that are new to a script. -/
structure IsNewTo (words : List Name) (bindings : List Binding) : Prop where
  word : ∀ b ∈ bindings, isWord b.generated = true
  nodup : (bindings.map Binding.generated).Nodup
  fresh : ∀ b ∈ bindings, b.generated ∉ words

theorem IsNewTo.mono {words fewer : List Name} (h : IsNewTo words bindings)
    (hsub : ∀ w ∈ fewer, w ∈ words) : IsNewTo fewer bindings :=
  { h with fresh := fun b hb hmem => h.fresh b hb (hsub _ hmem) }

variable {index : Nat} {s : Span} {sites : List Occurrence}

/-- A piece of code, renamed, with the gap after it. -/
abbrev RenamedPiece (bindings : List Binding) (x y : Text × Text) : Prop :=
  y.2 = x.2 ∧ ∃ us, NamedAnew bindings x.1 us ∧ y.1 = us.flatten

/-- Pieces of code, renamed, with the gaps after them. -/
theorem NamedAnew.of_pieces {more more' : List (Text × Text)}
    (h : List.Forall₂ (RenamedPiece bindings) more more')
    (hmore : ∀ x ∈ more, x.1 ≠ []) (hnew : IsNewTo (more.flatMap fun x => codeWords x.1) bindings) :
    List.Forall₂ CanReplace more more' ∧
      (∀ place place', List.Forall₂ (fun h h' => RenamedCode bindings h.text h'.text)
        (placed place more) (placed place' more')) ∧
      more'.map (fun y => (mapWords (oldName bindings) y.1, y.2)) = more := by
  induction h with
  | nil => exact ⟨.nil, fun _ _ => .nil, rfl⟩
  | @cons x y more more' hx _ ih =>
    obtain ⟨piece, next⟩ := x
    obtain ⟨piece', next'⟩ := y
    obtain ⟨rfl, us, hus, rfl⟩ := hx
    obtain ⟨hpiece, hmore⟩ := List.forall_mem_cons.1 hmore
    have hfirst : IsNewTo (codeWords piece) bindings :=
      hnew.mono fun w hw => List.mem_append_left _ hw
    obtain ⟨hcan, hcode, hback⟩ := ih hmore (hnew.mono fun w hw => List.mem_append_right _ hw)
    refine ⟨.cons (canReplace_flatten hus hnew.word hpiece next') hcan, fun place place' => ?_, ?_⟩
    · exact .cons (renamedCode_flatten hus hnew.word) (hcode _ _)
    · rw [List.map_cons, hback, mapWords_oldName hus hnew.word hnew.nodup hfirst.fresh]

theorem map_text_placed (place : Nat) (more : List (Text × Text)) :
    (placed place more).map Hole.text = more.map Prod.fst := by
  induction more generalizing place with
  | nil => rfl
  | cons x more ih => exact congrArg (x.1 :: ·) (ih _)

/-- Names at some sites in the holes of a string are replaced in its pieces. -/
theorem exists_splice_string {text : Text} {start stop : Nat}
    (hsites : sites.Sublist ((⟨.string, text, start, stop⟩ : Span).occurrences index))
    (hnames : ∀ o ∈ sites, o.mark.isName = true ∧ o.mark.text ∈ bindings.map Binding.declared) :
    ∃ gap more more', assemble gap more = text ∧ (∀ x ∈ more, x.1 ≠ []) ∧
      (∀ others, List.Forall₂ CanReplace more others →
        LuaVeil.holes (assemble gap others) = placed (Text.byteSize gap) others) ∧
      splice (newName bindings) 0 sites text = assemble gap more' ∧
      List.Forall₂ (RenamedPiece bindings) more more' := by
  obtain ⟨gap, more, rfl, hmore, hholes⟩ := exists_pieces text
  have hsame := hholes more (List.forall₂_same.2 fun x hx => ⟨rfl, hmore x hx, rfl⟩)
  -- the string itself is no name, so all sites lie in the pieces
  have hpieces : sites.Sublist (pieceOccurrences index (0 + Text.byteSize gap) more) := by
    rw [Nat.zero_add, pieceOccurrences, ← hsame]
    rcases List.sublist_cons_iff.1 hsites with h | ⟨rest, rfl, -⟩
    · exact h
    · exact absurd (hnames _ List.mem_cons_self).1 (by simp [Mark.isName])
  obtain ⟨more', hsplice, hall⟩ := exists_splice_pieces 0 gap more hpieces hnames
  exact ⟨gap, more, more', rfl, hmore, hholes, hsplice, hall⟩

/-- A string with new names at some sites in its holes. -/
theorem renamed_of_sites_string {text : Text} {start stop : Nat}
    (hsites : sites.Sublist ((⟨.string, text, start, stop⟩ : Span).occurrences index))
    (hnames : ∀ o ∈ sites, o.mark.isName = true ∧ o.mark.text ∈ bindings.map Binding.declared)
    (hnew : IsNewTo (⟨.string, text, start, stop⟩ : Span).words bindings) :
    let s' : Span := ⟨.string, splice (newName bindings) 0 sites text, start, stop⟩
    RenamedSpan bindings ⟨.string, text, start, stop⟩ s' ∧
      s'.mapWords (oldName bindings) = ⟨.string, text, start, stop⟩ := by
  intro s'
  obtain ⟨gap, more, more', rfl, hmore, hholes, hsplice, hall⟩ :=
    exists_splice_string hsites hnames
  have hsame := hholes more (List.forall₂_same.2 fun x hx => ⟨rfl, hmore x hx, rfl⟩)
  have hwords : IsNewTo (more.flatMap fun x => codeWords x.1) bindings := by
    refine hnew.mono fun w hw => ?_
    show w ∈ (LuaVeil.holes (assemble gap more)).flatMap fun h => codeWords h.text
    have hflat := congrArg (List.flatMap codeWords) (map_text_placed (Text.byteSize gap) more)
    rw [List.flatMap_map, List.flatMap_map] at hflat
    rw [hsame, hflat]
    exact hw
  obtain ⟨hcan, hcode, hback⟩ := NamedAnew.of_pieces hall hmore hwords
  have htext : s' = ⟨.string, assemble gap more', start, stop⟩ := by rw [← hsplice]
  rw [htext]
  refine ⟨⟨rfl, rfl, rfl, fun hcode => ?_, fun _ => ?_, fun _ hquote => ?_, fun hcomment => ?_⟩, ?_⟩
  · cases hcode
  · show List.Forall₂ _ (LuaVeil.holes (assemble gap more)) (LuaVeil.holes (assemble gap more'))
    rw [hsame, hholes more' hcan]
    exact hcode _ _
  · cases hcan with
    | nil => rfl
    | cons _ _ =>
      rw [holes_of_head? hquote] at hsame
      cases hsame
  · cases hcomment
  · show (⟨.string, replaceHoles _ 0 (LuaVeil.holes (assemble gap more')) (assemble gap more'),
      start, stop⟩ : Span) = _
    have hreplace := replaceHoles_assemble (mapWords (oldName bindings)) 0 gap more'
    rw [Nat.zero_add, hback] at hreplace
    rw [hholes more' hcan, hreplace]

/-- A span with new names at some sites. -/
theorem renamed_of_sites (hsites : sites.Sublist (s.occurrences index))
    (hnames : ∀ o ∈ sites, o.mark.isName = true ∧ o.mark.text ∈ bindings.map Binding.declared)
    (hnew : IsNewTo s.words bindings) :
    let s' := { s with text := splice (newName bindings) 0 sites s.text }
    RenamedSpan bindings s s' ∧ s'.mapWords (oldName bindings) = s := by
  intro s'
  obtain ⟨kind, text, start, stop⟩ := s
  cases kind with
  | code =>
    obtain ⟨us, hus, htext⟩ := exists_splice_codeSpan hsites hnames
    refine ⟨⟨rfl, rfl, rfl, fun _ => ?_, nofun, nofun, nofun⟩, ?_⟩
    · show RenamedCode bindings text (splice (newName bindings) 0 sites text)
      rw [htext]
      exact renamedCode_flatten hus hnew.word
    · show (⟨.code, mapWords (oldName bindings) (splice (newName bindings) 0 sites text), start,
        stop⟩ : Span) = _
      rw [htext, mapWords_oldName hus hnew.word hnew.nodup hnew.fresh]
  | string => exact renamed_of_sites_string hsites hnames hnew
  | comment =>
    obtain rfl := List.sublist_nil.1 hsites
    exact ⟨⟨rfl, rfl, rfl, nofun, nofun, nofun, fun _ => rfl⟩, rfl⟩

end

/-! ## Scripts -/

theorem span_of_mem_occurrences {index : Nat} {s : Span} {o : Occurrence}
    (h : o ∈ s.occurrences index) : o.span = index := by
  have hcode : ∀ {start inHole code}, o ∈ codeOccurrences index start inHole code →
      o.span = index := by
    intro start inHole code h
    obtain ⟨t, -, mark, -, rfl⟩ := exists_token_of_mem_occurrencesFrom h
    rfl
  unfold Span.occurrences at h
  split at h
  · exact hcode h
  · rcases List.mem_cons.1 h with rfl | h
    · rfl
    · obtain ⟨_, -, h⟩ := List.mem_flatMap.1 h
      exact hcode h
  · cases h

/-- The occurrences in one span of a script. -/
theorem filter_occurrences {spans : List Span} {i : Nat} {s : Span} (h : spans[i]? = some s) :
    (occurrences spans).filter (fun o => o.span == i) = s.occurrences i := by
  have hfrom : ∀ (spans : List Span) (first i : Nat), spans[i]? = some s →
      ((spans.zipIdx first).flatMap fun x => x.1.occurrences x.2).filter
        (fun o => o.span == first + i) = s.occurrences (first + i) := by
    intro spans
    induction spans with
    | nil => simp
    | cons x spans ih =>
      intro first i h
      have hlater : ∀ o ∈ (spans.zipIdx (first + 1)).flatMap fun x => x.1.occurrences x.2,
          first + 1 ≤ o.span := by
        intro o ho
        obtain ⟨⟨s', j⟩, hj, ho⟩ := List.mem_flatMap.1 ho
        rw [span_of_mem_occurrences ho]
        exact List.le_snd_of_mem_zipIdx hj
      rw [List.zipIdx_cons, List.flatMap_cons, List.filter_append]
      cases i with
      | zero =>
        obtain rfl : x = s := by simpa using h
        rw [List.filter_eq_self.2, List.filter_eq_nil_iff.2, List.append_nil]
        · rfl
        · intro o ho
          have := hlater o ho
          simp only [beq_iff_eq]
          omega
        · intro o ho
          simp [span_of_mem_occurrences ho]
      | succ i =>
        have hrest := ih (first + 1) i (by simpa using h)
        rw [Nat.add_assoc, Nat.add_comm 1 i] at hrest
        rw [hrest, List.filter_eq_nil_iff.2, List.nil_append]
        intro o ho
        simp only [span_of_mem_occurrences ho, beq_iff_eq]
        omega
  simpa [occurrences] using hfrom spans 0 i h

/-- A script with new names at its sites. -/
theorem renamed_spans {bindings : List Binding} {spans : List Span} {sites : List Occurrence}
    (hsites : sites.Sublist (occurrences spans))
    (hnames : ∀ o ∈ sites, o.mark.isName = true ∧ o.mark.text ∈ bindings.map Binding.declared)
    (hnew : IsNewTo (spans.flatMap Span.words) bindings) :
    let out := renameSites (newName bindings) sites spans
    List.Forall₂ (RenamedSpan bindings) spans out ∧
      out.map (Span.mapWords (oldName bindings)) = spans := by
  intro out
  have hspan : ∀ (i : Nat) (hi : i < spans.length),
      let s' := { spans[i] with
        text := splice (newName bindings) 0 (sites.filter fun o => o.span == i) spans[i].text }
      RenamedSpan bindings spans[i] s' ∧ s'.mapWords (oldName bindings) = spans[i] := by
    intro i hi
    have hsub : (sites.filter fun o => o.span == i).Sublist (spans[i].occurrences i) := by
      rw [← filter_occurrences (List.getElem?_eq_getElem hi)]
      exact hsites.filter _
    refine renamed_of_sites hsub (fun o ho => hnames o (List.mem_of_mem_filter ho)) ?_
    exact hnew.mono fun w hw => List.mem_flatMap.2 ⟨spans[i], List.getElem_mem hi, hw⟩
  constructor
  · refine List.forall₂_iff_get.2 ⟨by simp [out, renameSites], fun i hi _ => ?_⟩
    simpa [out, renameSites] using (hspan i hi).1
  · refine List.ext_getElem (by simp [out, renameSites]) fun i _ hi => ?_
    simpa [out, renameSites] using (hspan i hi).2

/-! ## Renaming -/

/-- A script without variables stays as it is. -/
theorem renameLocals_of_nil {strength : Strength} {spans : List Span} {m : Mint}
    (h : (resolve m.names.reserved (occurrences spans)).declared = []) :
    renameLocals strength spans m = (some (spans, []), m) := by
  unfold renameLocals
  rw [Minting.bind_apply]
  exact congrFun (if_pos (List.isEmpty_iff.2 h)) m

/-- The variables of a script are bound to new names, which replace them. -/
theorem renameLocals_of_ne_nil {strength : Strength} {spans : List Span} {m : Mint}
    (h : (resolve m.names.reserved (occurrences spans)).declared ≠ []) :
    let found := resolve m.names.reserved (occurrences spans)
    let start := Candidates.start strength m.source
    let named := start.1.bindAll found.declared ⟨m.names, start.2⟩
    renameLocals strength spans m =
      (named.1.map fun bindings =>
        (renameSites (newName bindings) found.sites spans, bindings), named.2) := by
  intro found start named
  have hsome : ¬ found.declared.isEmpty = true := by rwa [List.isEmpty_iff]
  unfold renameLocals
  rw [Minting.bind_apply]
  exact congrFun (if_neg hsome) m

/-- A script is renamed by new names for its variables, if it has any. -/
theorem renameLocals_eq_some {strength : Strength} {spans : List Span} {m : Mint}
    {out : List Span × List Binding} (h : (renameLocals strength spans m).1 = some out) :
    let found := resolve m.names.reserved (occurrences spans)
    (found.declared = [] ∧ out = (spans, []) ∧ (renameLocals strength spans m).2 = m) ∨
      ∃ (c : Candidates) (source : Source),
        (c.bindAll found.declared ⟨m.names, source⟩).1 = some out.2 ∧
          out.1 = renameSites (newName out.2) found.sites spans ∧
          (renameLocals strength spans m).2 = (c.bindAll found.declared ⟨m.names, source⟩).2 := by
  intro found
  by_cases hnone : found.declared = []
  · rw [renameLocals_of_nil hnone] at h ⊢
    exact .inl ⟨hnone, (Option.some.inj h).symm, rfl⟩
  · rw [renameLocals_of_ne_nil hnone] at h ⊢
    obtain ⟨bindings, hbindings, rfl⟩ := Option.map_eq_some_iff.1 h
    exact .inr ⟨_, _, hbindings, rfl, rfl⟩

/-- What renaming makes of a script, and what its new names are. -/
theorem renameLocals_spec {strength : Strength} {spans : List Span} {m : Mint}
    {out : List Span × List Binding} (h : (renameLocals strength spans m).1 = some out) :
    let found := resolve m.names.reserved (occurrences spans)
    out.1 = renameSites (newName out.2) found.sites spans ∧
      out.2.map Binding.declared = found.declared ∧
      m.names.Takes (out.2.map Binding.generated) (renameLocals strength spans m).2.names ∧
      ∀ b ∈ out.2, isWord b.generated = true := by
  intro found
  rcases renameLocals_eq_some h with ⟨hnone, rfl, hmint⟩ | ⟨c, source, hbind, hout, hmint⟩
  · have hsites : found.sites = [] := by
      refine List.eq_nil_iff_forall_not_mem.2 fun o ho => ?_
      have hmem := (declared_of_site _ _ ho).2
      rw [hnone] at hmem
      cases hmem
    refine ⟨?_, hnone.symm, by rw [hmint]; exact .nil _, nofun⟩
    rw [hsites]
    exact (List.ext_getElem (by simp [renameSites]) fun i _ _ => by simp [renameSites])
  · obtain ⟨hdeclared, htakes⟩ := Candidates.bindAll_takes hbind
    rw [hmint]
    exact ⟨hout, hdeclared, htakes, Candidates.isWord_of_bindAll hbind⟩

/-- Renamed spans are those of the script with new names, and the old names bring them back. -/
theorem renamed_renameLocals {strength : Strength} {spans out : List Span} {m : Mint}
    {bindings : List Binding} (htaken : ∀ s ∈ spans, ∀ w ∈ s.words, w ∈ m.names.taken)
    (h : (renameLocals strength spans m).1 = some (out, bindings)) :
    List.Forall₂ (RenamedSpan bindings) spans out ∧
      out.map (Span.mapWords (oldName bindings)) = spans := by
  obtain ⟨hout, hdeclared, htakes, hword⟩ := renameLocals_spec h
  dsimp only at hout hdeclared
  have hnew : IsNewTo (spans.flatMap Span.words) bindings := by
    refine ⟨hword, htakes.nodup, fun b hb hmem => ?_⟩
    obtain ⟨s, hs, hw⟩ := List.mem_flatMap.1 hmem
    exact htakes.not_mem_unavailable _ (List.mem_map_of_mem hb)
      (List.mem_append_right _ (htaken s hs _ hw))
  rw [hout]
  exact renamed_spans (sites_sublist m.names.reserved (occurrences spans))
    (fun o ho => by rw [hdeclared]; exact declared_of_site _ _ ho) hnew

/--
Renaming changes a script token by token: spans keep their kinds and places, and each token of code
and holes is the same as before or was a variable and is now its new name. The variables are the
declared names, none of them reserved; variables and new names match one to one. If all words of
the script are taken before, the script comes back when new names are replaced by the old ones.
-/
theorem renaming_tokenwise {strength : Strength} {spans out : List Span} {m : Mint}
    {bindings : List Binding} (htaken : ∀ s ∈ spans, ∀ w ∈ s.words, w ∈ m.names.taken)
    (h : (renameLocals strength spans m).1 = some (out, bindings)) :
    List.Forall₂ (RenamedSpan bindings) spans out ∧
      bindings.map Binding.declared =
        (resolve m.names.reserved (occurrences spans)).declared ∧
      (bindings.map Binding.declared).Nodup ∧ (bindings.map Binding.generated).Nodup ∧
      (∀ b ∈ bindings, isKeyword b.declared = false ∧
        m.names.reserved.contains b.declared = false) ∧
      out.map (Span.mapWords (oldName bindings)) = spans := by
  obtain ⟨-, hdeclared, htakes, -⟩ := renameLocals_spec h
  dsimp only at hdeclared
  have hspans := renamed_renameLocals htaken h
  refine ⟨hspans.1, hdeclared, ?_, htakes.nodup, fun b hb => ?_, hspans.2⟩
  · rw [hdeclared]
    exact declared_nodup _ _
  · have hmem := List.mem_map_of_mem (f := Binding.declared) hb
    rw [hdeclared] at hmem
    have hfree := not_reserved_of_declared _ _ hmem
    refine ⟨?_, hfree⟩
    rw [← Bool.not_eq_true] at hfree ⊢
    intro hkey
    exact hfree (List.contains_iff_mem.2
      (List.mem_append_left _ (List.mem_append_left _ (List.contains_iff_mem.1 hkey))))

/-- The name in the hole is not that of the variable, which is declared after it. -/
def holeSpans : List Span :=
  [⟨.code, "local x = ".toList, 0, 10⟩, ⟨.string, "`\x7bx\x7d`".toList, 10, 15⟩,
    ⟨.code, " print(x)".toList, 15, 24⟩]

theorem hole_keeps_name :
    let bindings : List Binding := [⟨['x'], ['a']⟩]
    let out : List Span := [⟨.code, "local a = ".toList, 0, 10⟩,
      ⟨.string, "`\x7bx\x7d`".toList, 10, 15⟩, ⟨.code, " print(a)".toList, 15, 24⟩]
    (renameLocals .low holeSpans ⟨.ofSpans .default holeSpans, ⟨fun _ => 0, 0⟩⟩).1 =
        some (out, bindings) ∧
      out.map (Span.mapWords (oldName bindings)) = holeSpans := by
  intro bindings out
  have h : (renameLocals .low holeSpans ⟨.ofSpans .default holeSpans, ⟨fun _ => 0, 0⟩⟩).1 =
      some (out, bindings) := by decide +kernel
  have htaken : ∀ s ∈ holeSpans, ∀ w ∈ s.words,
      w ∈ (Namespace.ofSpans .default holeSpans).taken :=
    fun s hs w hw => List.mem_flatMap.2 ⟨s, hs, hw⟩
  exact ⟨h, (renaming_tokenwise htaken h).2.2.2.2.2⟩

end LuaVeil
