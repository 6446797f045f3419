/-
# Labels

Two colons lead to a type. So in front of a label's name and behind it a type is
looked for: the name itself is taken for the first, and what follows the label for
the second. A label is passed over without a trace only if what follows it can be
missed.

Main statements:

* `walk_label`, what a label does: it ends nothing, and a type behind it is passed
  over;
* `labels_transparent`, labels make no difference if no action is due in front of
  what follows them, and if that is no type, or a word that changes no scope;
* `walk_label_end` and `end_swallowed_by_label`, an `end` behind a label is a type.
-/
import LuaVeil.Proofs.Scope.Likeness
import LuaVeil.Proofs.Scope.Standing
import Mathlib.Logic.Relation

namespace LuaVeil

/-! ## Words that are types -/

namespace Cursor

/-- Signs with which a type goes on behind a word. -/
def typeSigns : List String :=
  ["?", "|", "&", "->", ".", "<"]

/-- A word with its path is a type. -/
theorem skipType_dotted {w : Text} {path : List Text} {os rest : List Occurrence}
    (hos : ReadsAs os (dotted w path))
    (hrest : (firstMark rest).any (Mark.isSymbolOf typeSigns) = false)
    (htypeof : w = "typeof".toList → (firstMark rest).any (Mark.isSymbolOf ["("]) = false)
    (f : Option Mark) :
    (after f (os ++ rest)).skipType = after (lastMark f (dotted w path)) rest := by
  have hnot := fun signs => any_isSymbolOf_of_subset hrest signs
  obtain ⟨o, os, rfl, ho, hhole, hpath⟩ := readsAs_cons.1 hos
  have hskip := skipPath_after path (f := some (.word w)) hpath (hnot ["."] (by simp [typeSigns]))
  have harguments : ∀ g, (after g rest).skipTypeArguments w = after g rest := by
    intro g
    rw [skipTypeArguments, sees_after, sees_after, hnot ["<"] (by simp [typeSigns]),
      if_neg Bool.false_ne_true, if_neg]
    rintro ⟨hw, hopen⟩
    exact Bool.false_ne_true ((htypeof hw).symm.trans hopen)
  have hoptional : ∀ g, (after g rest).skipOptional = after g rest := fun g =>
    skipOptional_after 0 (readsAs_nil.2 rfl) (hnot ["?"] (by simp [typeSigns]))
  have hsimple := @skipSimpleType?_word (os ++ rest) f o w hhole ho
  rw [hskip, harguments] at hsimple
  rw [List.cons_append, skipType_eq hsimple, hoptional, sees_after,
    hnot ["|", "&", "->"] (by simp [typeSigns]), if_neg Bool.false_ne_true, dotted, lastMark_cons]

end Cursor

/-! ## Labels -/

/-- Whether some occurrences are a label: a name between two pairs of colons. -/
def IsLabel (os : List Occurrence) : Prop :=
  ∃ w, isKeyword w = false ∧ ReadsAs os [.sign "::", .word w, .sign "::"]

namespace ScopeState

open Cursor

variable {reserved : Reserved} {s : ScopeState} {f : Option Mark}

/-- What a label does: its name is passed over as a type, and so is a type behind it. -/
theorem walk_label {label : List Occurrence} (hlabel : IsLabel label) (b : Option Mark)
    (os : List Occurrence) :
    s.walk reserved ⟨b, f, label ++ os⟩ =
      s.goOn.walk reserved (after (some (.sign "::")) os).skipType := by
  obtain ⟨w, -, hmarks⟩ := hlabel
  obtain ⟨l, os', rfl, hl, hlhole, hname⟩ := readsAs_cons.1 hmarks
  obtain ⟨n, os', rfl, hn, hnhole, hname⟩ := readsAs_cons.1 hname
  obtain ⟨r, os', rfl, hr, hrhole, hname⟩ := readsAs_cons.1 hname
  obtain rfl := readsAs_nil.1 hname
  have hskip : (after (some l.mark) (n :: r :: os)).skipType =
      after (some (.word w)) (r :: os) := by
    have hfirst : firstMark (r :: os) = some (.sign "::") := by rw [firstMark_cons, hr]
    refine @skipType_dotted w [] [n] (r :: os) (readsAs_cons.2 ⟨n, [], rfl, hn, hnhole, ?_⟩)
      ?_ ?_ _
    · exact readsAs_nil.2 rfl
    · rw [hfirst]
      decide
    · rw [hfirst]
      exact fun _ => by decide
  have hfirst := @walk_of_step reserved s ⟨b, f, l :: n :: r :: os⟩ _ _ _ _ rfl hlhole
    ((step_colons hl).trans (by rw [hskip]))
  have hsecond := @walk_of_step reserved s.goOn (after (some (.word w)) (r :: os)) _ _ _ _ rfl
    hrhole (step_colons hr)
  rw [List.cons_append, List.cons_append, List.cons_append, List.nil_append, hfirst, hsecond,
    goOn_goOn, hr]

/-- An `end` behind a label closes no scope. -/
theorem walk_label_end {label : List Occurrence} {o : Occurrence} {os : List Occurrence}
    (hlabel : IsLabel label) (ho : o.mark = .word "end".toList) (hhole : o.inHole = false)
    (hos : (firstMark os).any (Mark.isSymbolOf typeSigns) = false) (b : Option Mark) :
    s.walk reserved ⟨b, f, label ++ o :: os⟩ =
      s.goOn.walk reserved (after (some o.mark) os) := by
  have hend : ReadsAs [o] (dotted "end".toList []) :=
    readsAs_cons.2 ⟨o, [], rfl, ho, hhole, readsAs_nil.2 rfl⟩
  rw [walk_label hlabel, ho]
  exact congrArg _ (skipType_dotted hend hos (fun h => absurd h (by decide)) _)

/-! ## What is missed behind a label -/

/-- Keywords at which a scope opens or closes, or names are declared. -/
def scopeWords : List String :=
  ["local", "for", "function", "do", "then", "elseif", "else", "repeat", "until", "end"]

/--
Whether a word can be missed behind the mark `f`: a name of no local variable, or a keyword that
changes no scope and begins no conditional expression.
-/
structure Missable (s : ScopeState) (f : Option Mark) (w : Text) : Prop where
  name : isKeyword w = false → s.isVisible w = false
  keyword : isKeyword w = true → (Mark.word w).isWordOf scopeWords = false
  conditional : w = "if".toList → s.inBranch = false ∧ f.any Mark.opensExpression = false

/--
Whether a walk makes the same of some occurrences behind a label as it does without the label. They
may not begin with a type, except for words that can be missed.
-/
inductive Unharmed (s : ScopeState) (f : Option Mark) : List Occurrence → Prop
  | ended : Unharmed s f []
  | symbol {o : Occurrence} {os : List Occurrence} :
    o.inHole = false → beginsType o.mark = false → o.mark.isSymbolOf ["="] = false →
      s.isDue f o.mark = false → Unharmed s f (o :: os)
  | word {w : Text} {path : List Text} {os rest : List Occurrence} :
    ReadsAs os (dotted w path) → (∀ v ∈ path, isKeyword v = false) → s.Missable f w →
      s.isDue f (.word w) = false → (firstMark rest).any (Mark.isSymbolOf typeSigns) = false →
      (w = "typeof".toList → (firstMark rest).any (Mark.isSymbolOf ["("]) = false) →
      Unharmed s f (os ++ rest)

/-- A keyword that changes no scope does nothing. -/
theorem keyword_of_missable {w : Text} (hw : (Mark.word w).isWordOf scopeWords = false)
    {branch : Bool} (hif : w = "if".toList → branch = false ∧ f.any Mark.opensExpression = false) :
    s.keyword w branch f = s := by
  have hne : ∀ v ∈ scopeWords, String.ofList w ≠ v := by
    rintro v hv rfl
    have hmem : (Mark.word w).isWordOf scopeWords = true :=
      List.any_eq_true.2 ⟨_, hv, by rw [String.toList_ofList, beq_self_eq_true]⟩
    cases hw.symm.trans hmem
  unfold keyword
  split
  · next h => exact absurd h (hne "do" (by decide))
  · next h =>
    obtain ⟨hbranch, hf⟩ := hif (by rw [← h, String.toList_ofList])
    rw [enterIf, hbranch, hf]
    rfl
  · next h => exact absurd h (hne "then" (by decide))
  · next h => exact absurd h (hne "elseif" (by decide))
  · next h => exact absurd h (hne "else" (by decide))
  · next h => exact absurd h (hne "repeat" (by decide))
  · next h => exact absurd h (hne "until" (by decide))
  · next h => exact absurd h (hne "end" (by decide))
  · rfl

/-- A word that can be missed leaves the state as two colons do. -/
theorem step_missable {w : Text} {c next : Cursor} {o : Occurrence} (ho : o.mark = .word w)
    (hmiss : s.Missable c.frame w) (hdue : s.isDue c.frame (.word w) = false) :
    s.step reserved c o next = (s.goOn, next) := by
  cases hkeyword : isKeyword w with
  | false => exact step_of_hidden ho hkeyword (hmiss.name hkeyword) hdue
  | true =>
    rw [← ho] at hdue
    have hname : o.mark.isName = false := by rw [ho, Mark.isName, hkeyword]; rfl
    have hword := hmiss.keyword hkeyword
    have hne : ∀ v ∈ scopeWords, w ≠ v.toList := by
      rintro v hv rfl
      cases hword.symm.trans (List.any_eq_true.2 ⟨v, hv, beq_self_eq_true v.toList⟩)
    have hbranch : w = "if".toList → (s.settle c.frame o.mark).inBranch = false ∧
        c.frame.any Mark.opensExpression = false := by
      rw [settle_of_not_due hdue]
      exact hmiss.conditional
    rw [step_of_keyword ho hname, arrive_of_not_due hdue, atKeyword, if_neg (hne "local" (by decide)),
      if_neg (hne "for" (by decide)), if_neg (hne "function" (by decide)),
      keyword_of_missable hword hbranch]

/-- The fields behind a word are passed one by one, and nothing is noted. -/
theorem walk_fields {path : List Text} {os rest : List Occurrence} {m : Mark}
    (hos : ReadsAs os (path.flatMap fun v => [.sign ".", .word v]))
    (hpath : ∀ v ∈ path, isKeyword v = false) (hs : s.goOn = s) :
    s.walk reserved (after (some m) (os ++ rest)) =
      s.walk reserved
        (after (lastMark (some m) (path.flatMap fun v => [.sign ".", .word v])) rest) := by
  induction path generalizing os m with
  | nil =>
    obtain rfl := readsAs_nil.1 hos
    rfl
  | cons v path ih =>
    obtain ⟨hv, hpath⟩ := List.forall_mem_cons.1 hpath
    rw [List.flatMap_cons, List.cons_append, List.cons_append, List.nil_append] at hos ⊢
    obtain ⟨point, os, rfl, hpoint, hpointhole, hos⟩ := readsAs_cons.1 hos
    obtain ⟨word, os, rfl, hword, hwordhole, hos⟩ := readsAs_cons.1 hos
    have hstep : ∀ next,
        s.step reserved (after (some m) (point :: word :: (os ++ rest))) point next = (s, next) := by
      intro next
      have hcontinues : point.mark.continuesExpression = true := by
        rw [hpoint]
        decide
      rw [step_of_symbol hpoint, arrive_of_continues hcontinues, hs, atSymbol]
      rfl
    have hfield : ∀ next,
        s.step reserved (after (some point.mark) (word :: (os ++ rest))) word next = (s, next) := by
      intro next
      have hname : word.mark.isName = true := by rw [hword, Mark.isName, hv]; rfl
      have hends : (after (some point.mark) (word :: (os ++ rest))).frame.any Mark.endsOperand =
          false := by
        show point.mark.endsOperand = false
        rw [hpoint]
        decide
      have hbefore : (after (some point.mark) (word :: (os ++ rest))).before.any leadsToField =
          true := by
        show leadsToField point.mark = true
        rw [hpoint]
        decide
      rw [step_of_name hname, arrive_of_not_endsOperand hends, hs, atName, hbefore]
      rfl
    rw [lastMark_cons, lastMark_cons, ← ih hos hpath, ← hword]
    rw [List.cons_append, List.cons_append, walk_of_step rfl hpointhole (hstep _),
      walk_of_step rfl hwordhole (hfield _)]

/-- What is unharmed is walked the same behind a label. -/
theorem Unharmed.walk_eq {os : List Occurrence} (h : s.Unharmed f os) (hos : os ≠ [])
    (b : Option Mark) :
    s.goOn.walk reserved (after (some (.sign "::")) os).skipType =
      s.walk reserved ⟨b, f, os⟩ := by
  cases h with
  | ended => exact absurd rfl hos
  | @symbol o os hhole htype _ hdue =>
    have hskip : (after (some (.sign "::")) (o :: os)).skipType =
        after (some (.sign "::")) (o :: os) :=
      skipType_of_none (skipSimpleType?_eq_none.2 htype)
    have harrive : s.goOn.arrive (some (.sign "::")) o.mark = s.arrive f o.mark := by
      rw [arrive_of_not_due hdue, arrive_of_not_endsOperand (by decide), goOn_goOn]
    have hstep : ∀ next, s.goOn.step reserved (after (some (.sign "::")) (o :: os)) o next =
        s.step reserved ⟨b, f, o :: os⟩ o next := by
      intro next
      cases hmark : o.mark with
      | word w => simp [hmark, beginsType] at htype
      | string => simp [hmark, beginsType] at htype
      | symbol t =>
        rw [step_of_symbol hmark, step_of_symbol hmark]
        exact congrArg (fun s : ScopeState => s.atSymbol t next) harrive
      | number =>
        rw [step_of_literal (.inl hmark), step_of_literal (.inl hmark)]
        exact congrArg (·, next) harrive
    rw [hskip]
    exact (walk_of_step rfl hhole (hstep _)).trans (walk_of_step rfl hhole rfl).symm
  | @word w path os rest hword hpath hmiss hdue hrest htypeof =>
    obtain ⟨o, os, rfl, ho, hhole, hfields⟩ := readsAs_cons.1 hword
    have hstep : s.step reserved ⟨b, f, o :: (os ++ rest)⟩ o (after (some o.mark) (os ++ rest)) =
        (s.goOn, after (some (.word w)) (os ++ rest)) := by
      rw [step_missable ho hmiss hdue, ho]
    rw [skipType_dotted hword hrest htypeof, List.cons_append, walk_of_step rfl hhole hstep,
      walk_fields hfields hpath (goOn_goOn s), dotted, lastMark_cons]

/-- The open scopes at the end of a script, the innermost first. -/
def openScopes (reserved : Reserved) (os : List Occurrence) : List (List Name) :=
  let s := initial.walk reserved (.start os)
  s.scope :: s.outer

end ScopeState

/-! ## Scripts with labels -/

/-- Whether a label has been put into a script where a walk stands, and what follows is unharmed. -/
inductive LabelPut (reserved : Reserved) : List Occurrence → List Occurrence → Prop
  | mk {front label rest : List Occurrence} {s : ScopeState} {b f : Option Mark} :
    IsLabel label → ScopeState.LeadsTo reserved .initial (.start (front ++ rest)) s ⟨b, f, rest⟩ →
      s.Unharmed f rest → LabelPut reserved (front ++ rest) (front ++ label ++ rest)

theorem ScopeState.Unharmed.not_equals {s : ScopeState} {f : Option Mark} {os : List Occurrence}
    (h : s.Unharmed f os) : (firstMark os).any (Mark.isSymbolOf ["="]) = false := by
  cases h with
  | ended => rfl
  | symbol _ _ hequals => exact hequals
  | word hword =>
    rw [hword.firstMark_append]
    rfl

theorem fork_label {label rest : List Occurrence} (hlabel : IsLabel label)
    (hrest : (firstMark rest).any (Mark.isSymbolOf ["="]) = false) :
    Cursor.Fork rest (label ++ rest) := by
  obtain ⟨w, -, hmarks⟩ := hlabel
  obtain ⟨l, os, rfl, hl, -, hname⟩ := readsAs_cons.1 hmarks
  obtain ⟨n, os, rfl, hn, -, hname⟩ := readsAs_cons.1 hname
  obtain ⟨r, os, rfl, hr, -, hname⟩ := readsAs_cons.1 hname
  obtain rfl := readsAs_nil.1 hname
  refine ⟨.inl (congrArg some hl), ?_, ?_, ?_⟩
  · intro k hk hclose
    obtain ⟨o, ho, hmark⟩ := Cursor.sees_iff.1 hclose
    rcases List.mem_cons.1 hk with rfl | hk
    · obtain rfl := Option.some.inj ho
      rw [hn] at hmark
      cases hmark
    · obtain rfl := List.mem_singleton.1 hk
      obtain rfl := Option.some.inj ho
      rw [hr] at hmark
      cases hmark
  · rw [hrest, List.cons_append, firstMark_cons, hl]
    decide
  · rintro rfl angle
    have hcolons : (Mark.sign "::").isPlain angle = true := by cases angle <;> decide
    rw [List.append_nil]
    intro o ho
    simp only [List.mem_cons, List.not_mem_nil, or_false] at ho
    rcases ho with rfl | rfl | rfl
    · rw [hl, hcolons]
    · rw [hn, isPlain_word]
    · rw [hr, hcolons]

/-- A label that does no harm makes no difference. -/
theorem LabelPut.transparent {reserved : Reserved} {os os' : List Occurrence}
    (h : LabelPut reserved os os') :
    resolve reserved os' = resolve reserved os ∧
      ScopeState.openScopes reserved os' = ScopeState.openScopes reserved os := by
  obtain @⟨front, label, rest, s, b, f, hlabel, hleads, hunharmed⟩ := h
  have habreast : Cursor.Abreast rest (label ++ rest) (.start (front ++ rest))
      (.start (front ++ (label ++ rest))) := .before none none front
  obtain ⟨d, hleads', hd⟩ :=
    hleads.parallel (fork_label hlabel hunharmed.not_equals) habreast (Nat.le_refl _)
  -- The walks end in states that differ at most in what still waits.
  have hwalk : ∃ pending inBranch,
      ScopeState.initial.walk reserved (.start (front ++ label ++ rest)) =
        { ScopeState.initial.walk reserved (.start (front ++ rest)) with pending, inBranch } := by
    rw [List.append_assoc, hleads.walk_eq, hleads'.walk_eq]
    rcases hd.at_fork with rfl | ⟨rfl, hnil⟩
    · rw [ScopeState.walk_label hlabel]
      by_cases hrest : rest = []
      · subst hrest
        have hskip : (Cursor.after (some (.sign "::")) []).skipType.ahead = [] :=
          List.eq_nil_of_length_eq_zero (Nat.le_zero.1 (Cursor.length_skipType_le _))
        rw [ScopeState.walk_nil hskip, ScopeState.walk_nil rfl]
        exact ⟨_, _, rfl⟩
      · rw [hunharmed.walk_eq hrest]
        exact ⟨_, _, rfl⟩
    · rw [ScopeState.walk_nil hnil, ScopeState.walk_nil rfl]
      exact ⟨_, _, rfl⟩
  obtain ⟨pending, inBranch, hwalk⟩ := hwalk
  rw [resolve, resolve, ScopeState.openScopes, ScopeState.openScopes, hwalk]
  exact ⟨rfl, rfl⟩

/--
Labels make no difference to what is found, nor to the scopes that are open in the end, if each of
them stands where the walk stands and does no harm to what follows it.
-/
theorem labels_transparent (reserved : Reserved) {os os' : List Occurrence}
    (h : Relation.ReflTransGen (LabelPut reserved) os os') :
    resolve reserved os' = resolve reserved os ∧
      ScopeState.openScopes reserved os' = ScopeState.openScopes reserved os := by
  induction h with
  | refl => exact ⟨rfl, rfl⟩
  | tail _ h ih => exact ⟨h.transparent.1.trans ih.1, h.transparent.2.trans ih.2⟩

/-- A call of a global function goes on behind a label with the local variable in its arguments. -/
theorem label_before_call :
    let os := occurrences [⟨.code, "local a = 1; ::l:: f(a)".toList, 0, 23⟩]
    Relation.ReflTransGen (LabelPut .default) (os.take 5 ++ os.drop 8) os ∧
      resolve .default os = resolve .default (os.take 5 ++ os.drop 8) ∧
      ScopeState.openScopes .default os =
        ScopeState.openScopes .default (os.take 5 ++ os.drop 8) := by
  intro os
  let at' (offset : Nat) (m : Mark) : Occurrence := ⟨m, 0, offset, false⟩
  let word := at' 0 (.word "local".toList)
  let a := at' 6 (.word "a".toList)
  let rest := [at' 19 (.word "f".toList), at' 20 (.sign "("), at' 21 (.word "a".toList),
    at' 22 (.sign ")")]
  let values := [at' 8 (.sign "="), at' 10 .number, at' 11 (.sign ";")] ++ rest
  have hos : os = (word :: a :: values.take 3) ++ [at' 13 (.sign "::"),
      at' 15 (.word "l".toList), at' 16 (.sign "::")] ++ rest := by
    decide +kernel
  have hnames : (Cursor.after (some word.mark) (a :: values)).names =
      ([a], .after (some a.mark) values) := by
    rw [Cursor.names_after rfl (by decide) (by decide)]
    rfl
  let declared : ScopeState :=
    { ScopeState.initial with
      pending := [⟨1, 0, 0, .bind ["a".toList]⟩], declared := ["a".toList], sites := [a] }
  have hlocal : ScopeState.initial.step .default (.start (word :: a :: values)) word
      (.after (some word.mark) (a :: values)) =
      (declared, .after (some (.sign "=")) values.tail) := by
    rw [ScopeState.step_local rfl rfl, ScopeState.localNames, hnames]
    rfl
  have hvalues : ScopeState.LeadsTo .default declared (.after (some (.sign "=")) values.tail)
      { declared with scope := ["a".toList], pending := [] } (.after (some (.sign ";")) rest) :=
    .step rfl rfl (.step rfl rfl (.here _ _))
  have hput : LabelPut .default (os.take 5 ++ os.drop 8) os := by
    rw [hos]
    refine .mk ⟨"l".toList, by decide, rfl, by decide⟩ (.of_step rfl rfl hlocal hvalues) ?_
    exact @ScopeState.Unharmed.word _ _ "f".toList [] [at' 19 (.word "f".toList)] _
      ⟨rfl, by decide⟩ (by simp) ⟨by decide, by decide, by decide⟩ rfl (by decide) (by decide)
  exact ⟨.single hput, labels_transparent .default (.single hput)⟩

/--
An `end` behind a label is taken for a type: the scope that it should close stays open, and its
variables are visible in the rest of the script.
-/
theorem end_swallowed_by_label :
    let os := occurrences [⟨.code, "do local x = 1 ::l:: end print(x)".toList, 0, 33⟩]
    let unlabelled := os.take 5 ++ os.drop 8
    IsLabel ((os.drop 5).take 3) ∧ "l".toList ∉ (resolve .default unlabelled).declared ∧
      (resolve .default os).sites ≠ (resolve .default unlabelled).sites ∧
      ScopeState.openScopes .default os ≠ ScopeState.openScopes .default unlabelled := by
  intro os unlabelled
  exact ⟨⟨"l".toList, by decide, by decide +kernel, by decide +kernel⟩, by decide +kernel,
    by decide +kernel, by decide +kernel⟩

end LuaVeil
