/-
# Literals exchanged for references

Where literals of a script give way to references into a table, one mark becomes
several. A walk that comes to a reference goes on behind it as it does behind the
literal: the name of the table is no variable, the brackets are closed again, and
no expression ends in front of either.

Phrases are another matter. What they pass may not change, and what they end in
front of decides where they end. So no phrase may pass a literal, and none may end
in front of one, but for the values of a `local`.

Main statements:

* `walk_reference`, a walk passes a reference as it passes a string;
* `step_apply`, a step at any other place is the same in both scripts;
* `walk_apply`, so the walks are the same.
-/
import LuaVeil.Proofs.Scope.Likeness
import LuaVeil.Proofs.Scope.Standing

namespace LuaVeil

/-! ## References -/

/-- The marks of a reference into a table. -/
def referenceMarks (table : Name) (argument : Bool) : List Mark :=
  let slot := [.word table, .sign "[", .number, .sign "]"]
  if argument then .sign "(" :: (slot ++ [.sign ")"]) else slot

namespace ScopeState

open Cursor

variable {reserved : Reserved} {s : ScopeState} {f : Option Mark} {table : Name}
  {os rest : List Occurrence}

/-! ### Brackets -/

/-- The state behind a bracket that opens where an expression goes on or begins. -/
def inBracket (s : ScopeState) (b : Text) : ScopeState :=
  { s.goOn with brackets := b :: s.brackets }

/-- In a bracket that has just been opened everything waits. -/
theorem waits_inBracket (s : ScopeState) (b : Text) : Waits (s.inBracket b) := by
  have hbracket := waits_openBracket s none .number b
  rwa [arrive_of_not_endsOperand rfl] at hbracket

theorem arrive_inBracket (s : ScopeState) (b : Text) (f : Option Mark) (m : Mark) :
    (s.inBracket b).arrive f m = s.inBracket b :=
  arrive_of_settled ((waits_inBracket s b).settle f m) rfl

theorem goOn_inBracket (s : ScopeState) (b : Text) : (s.inBracket b).goOn = s.inBracket b := by
  rw [← arrive_of_not_endsOperand (f := none) (m := .number) rfl, arrive_inBracket]

theorem step_open {c next : Cursor} {o : Occurrence} {b : String} (ho : o.mark = .sign b)
    (hb : b ∈ openBrackets) : s.step reserved c o next = (s.inBracket b.toList, next) := by
  have hcontinues : o.mark.continuesExpression = true := by
    rw [ho]
    exact (by decide : ∀ b ∈ openBrackets, (Mark.sign b).continuesExpression = true) b hb
  rw [step_of_symbol ho, arrive_of_continues hcontinues, atSymbol]
  exact if_pos (isSymbolOf_sign hb)

theorem step_close {c next : Cursor} {o : Occurrence} {b : Text} {b' : String}
    (ho : o.mark = .sign b') (hb' : b' ∈ closeBrackets) :
    (s.inBracket b).step reserved c o next = (s.goOn, next) := by
  have hnot : (Mark.sign b').isSymbolOf openBrackets = false :=
    (by decide : ∀ b ∈ closeBrackets, (Mark.sign b).isSymbolOf openBrackets = false) b' hb'
  rw [step_of_symbol ho, arrive_inBracket, atSymbol]
  exact (if_neg (by simpa [Mark.sign] using hnot)).trans (if_pos (isSymbolOf_sign hb'))

/-! ### Slots -/

/-- The slot of a table, whose name is no variable, is passed without a trace. -/
theorem walk_slot (hos : ReadsAs os [.word table, .sign "[", .number, .sign "]"])
    (htable : isKeyword table = false) (hnew : s.isVisible table = false)
    (hdue : s.isDue f (.word table) = false) (b : Option Mark) :
    s.walk reserved ⟨b, f, os ++ rest⟩ =
      s.goOn.walk reserved (after (some (.sign "]")) rest) := by
  obtain ⟨name, os, rfl, hname, hnamehole, hos⟩ := readsAs_cons.1 hos
  obtain ⟨opening, os, rfl, hopening, hopeninghole, hos⟩ := readsAs_cons.1 hos
  obtain ⟨index, os, rfl, hindex, hindexhole, hos⟩ := readsAs_cons.1 hos
  obtain ⟨closing, os, rfl, hclosing, hclosinghole, hos⟩ := readsAs_cons.1 hos
  obtain rfl := readsAs_nil.1 hos
  have hindexed : ∀ c next, (s.goOn.inBracket "[".toList).step reserved c index next =
      (s.goOn.inBracket "[".toList, next) := by
    intro c next
    rw [step_of_literal (.inl hindex), arrive_inBracket]
  simp only [List.cons_append, List.nil_append]
  rw [walk_of_step rfl hnamehole (step_of_hidden hname htable hnew hdue),
    walk_of_step rfl hopeninghole (step_open hopening (by decide)),
    walk_of_step rfl hindexhole (hindexed _ _),
    walk_of_step rfl hclosinghole (step_close hclosing (by decide)), goOn_goOn, hclosing]

/-- So is a slot in parentheses. -/
theorem walk_argument
    (hos : ReadsAs os (.sign "(" :: ([.word table, .sign "[", .number, .sign "]"] ++ [.sign ")"])))
    (htable : isKeyword table = false) (hnew : s.isVisible table = false) (b : Option Mark) :
    s.walk reserved ⟨b, f, os ++ rest⟩ =
      s.goOn.walk reserved (after (some (.sign ")")) rest) := by
  obtain ⟨opening, os, rfl, hopening, hopeninghole, hos⟩ := readsAs_cons.1 hos
  obtain ⟨slot, os, rfl, hslot, hos⟩ := readsAs_append.1 hos
  obtain ⟨closing, os, rfl, hclosing, hclosinghole, hos⟩ := readsAs_cons.1 hos
  obtain rfl := readsAs_nil.1 hos
  have hdue : (s.inBracket "(".toList).isDue (some opening.mark) (.word table) = false := by
    refine (Option.any_eq_false _ _).2 fun p _ => ?_
    have hends : (some opening.mark).any Mark.endsOperand = false := by
      rw [hopening]
      decide
    simp only [hasEnded, hends, Bool.and_false, Bool.false_and]
  have hinside := @walk_slot reserved (s.inBracket "(".toList) (some opening.mark) table slot
    (closing :: rest) hslot htable hnew hdue (some opening.mark)
  rw [List.cons_append, List.append_assoc, List.singleton_append,
    walk_of_step rfl hopeninghole (step_open hopening (by decide)), after, hinside,
    goOn_inBracket, walk_of_step rfl hclosinghole (step_close hclosing (by decide)), hclosing]

/-- A walk that comes to a reference goes on behind it as it does behind a string. -/
theorem walk_reference {argument : Bool} (hos : ReadsAs os (referenceMarks table argument))
    (htable : isKeyword table = false) (hnew : s.isVisible table = false)
    (hargument : s.isDue f (.word table) = true → argument = true) (b : Option Mark) :
    ∃ last, last.endsOperand = true ∧ leadsToField last = false ∧
      s.walk reserved ⟨b, f, os ++ rest⟩ = s.goOn.walk reserved (after (some last) rest) := by
  cases argument with
  | true => exact ⟨.sign ")", by decide, by decide, walk_argument hos htable hnew b⟩
  | false =>
    have hdue : s.isDue f (.word table) = false := by simpa using hargument
    exact ⟨.sign "]", by decide, by decide, walk_slot hos htable hnew hdue b⟩

end ScopeState

/-! ## Phrases -/

/-- Whether a mark begins a phrase: names that are declared, a function, or a type. -/
def Mark.beginsPhrase (m : Mark) : Bool :=
  m.isWordOf ["local", "for", "function"] || m.isSymbolOf ["::"]

/--
Whether a cursor that moves from `c` to `d` spares some occurrences: it passes none of them, and
none of them is next, nor is a field.
-/
def Cursor.spares (p : Occurrence → Bool) (c d : Cursor) : Bool :=
  (c.ahead.take (c.ahead.length - d.ahead.length)).all (fun o => !p o) &&
    d.ahead.head?.all fun o => !p o && !ScopeState.leadsToField o.mark

namespace ScopeState

/-- Where the phrase ends that `o` begins. The values of a `local` are no part of it. -/
def phraseEnd (reserved : Reserved) (s : ScopeState) (c : Cursor) (o : Occurrence)
    (next : Cursor) : Cursor :=
  if o.mark.isWordOf ["local"] && !(next.peek 0).any (Mark.isWordOf ["function"]) then next.names.2
  else (s.step reserved c o next).2

/-- Whether the phrase ahead of `c`, if there is one, spares some occurrences. -/
def sparesAhead (p : Occurrence → Bool) (reserved : Reserved) (s : ScopeState) (c : Cursor) :
    Bool :=
  match c.ahead with
  | [] => true
  | o :: ahead =>
    let next := c.past o ahead
    o.inHole || !o.mark.beginsPhrase || next.spares p (s.phraseEnd reserved c o next)

variable {reserved : Reserved} {s : ScopeState} {f f' : Option Mark} {w : Text} {branch : Bool}

/-- Of the mark before it only an `if` knows. -/
theorem keyword_congr
    (h : w = "if".toList → f'.any Mark.opensExpression = f.any Mark.opensExpression) :
    s.keyword w branch f' = s.keyword w branch f := by
  unfold keyword
  split
  case h_2 hword =>
    unfold enterIf
    rw [h (by rw [← hword, String.toList_ofList])]
  all_goals rfl

theorem atKeyword_congr
    (h : w = "if".toList → f'.any Mark.opensExpression = f.any Mark.opensExpression)
    (next : Cursor) :
    s.atKeyword reserved w branch f' next = s.atKeyword reserved w branch f next := by
  unfold atKeyword
  rw [keyword_congr h]

theorem atKeyword_of_plain (h : (Mark.word w).beginsPhrase = false) (next : Cursor) :
    s.atKeyword reserved w branch f next = (s.keyword w branch f, next) := by
  have hne : ∀ v ∈ ["local", "for", "function"], w ≠ v.toList := by
    rintro v hv rfl
    have hmem : (Mark.word v.toList).isWordOf ["local", "for", "function"] = true :=
      List.any_eq_true.2 ⟨v, hv, beq_self_eq_true v.toList⟩
    rw [Mark.beginsPhrase, hmem] at h
    cases h
  rw [atKeyword, if_neg (hne "local" (by simp)), if_neg (hne "for" (by simp)),
    if_neg (hne "function" (by simp))]

theorem atSymbol_of_plain {b : Text} (h : (Mark.symbol b).beginsPhrase = false) :
    ∃ t, ∀ next, s.atSymbol b next = (t, next) := by
  have hcolons : ¬ (Mark.symbol b).isSymbolOf ["::"] = true := by
    rw [show (Mark.symbol b).isSymbolOf ["::"] = false from h]
    exact Bool.false_ne_true
  unfold atSymbol
  dsimp only
  split
  · exact ⟨_, fun _ => rfl⟩
  split
  · exact ⟨_, fun _ => rfl⟩
  · exact ⟨s, fun _ => rfl⟩

end ScopeState

/-! ## Scripts with references -/

/-- References that take the places of some literals of a script. -/
structure Exchange where
  /-- the name of the table -/
  table : Name
  /-- whether an occurrence is a literal that is replaced -/
  isTaken : Occurrence → Bool
  /-- whether a reference in its place has parentheses -/
  argument : Occurrence → Bool
  reference : Occurrence → List Occurrence
  notKeyword : isKeyword table = false
  isString : ∀ o, isTaken o = true → o.mark = .string ∧ o.inHole = false
  reads : ∀ o, ReadsAs (reference o) (referenceMarks table (argument o))

namespace Exchange

open Cursor ScopeState

variable (e : Exchange) {o : Occurrence} {os ahead : List Occurrence}

/-- What takes the place of an occurrence. -/
def put (o : Occurrence) : List Occurrence :=
  if e.isTaken o then e.reference o else [o]

/-- Some occurrences with references in the places of literals. -/
def apply (os : List Occurrence) : List Occurrence :=
  os.flatMap e.put

@[simp] theorem apply_nil : e.apply [] = [] := rfl

theorem apply_cons (o : Occurrence) (os : List Occurrence) :
    e.apply (o :: os) = e.put o ++ e.apply os := rfl

theorem apply_append (os os' : List Occurrence) :
    e.apply (os ++ os') = e.apply os ++ e.apply os' :=
  List.flatMap_append

theorem apply_cons_kept (h : e.isTaken o = false) (os : List Occurrence) :
    e.apply (o :: os) = o :: e.apply os := by
  rw [apply_cons, put, h, if_neg Bool.false_ne_true, List.singleton_append]

theorem apply_cons_taken (h : e.isTaken o = true) (os : List Occurrence) :
    e.apply (o :: os) = e.reference o ++ e.apply os := by
  rw [apply_cons, put, if_pos h]

theorem apply_of_kept (h : ∀ o ∈ os, e.isTaken o = false) : e.apply os = os := by
  induction os with
  | nil => rfl
  | cons o os ih =>
    obtain ⟨ho, hos⟩ := List.forall_mem_cons.1 h
    rw [e.apply_cons_kept ho, ih hos]

/-! ### What lies ahead -/

/-- The first two marks of a reference. -/
theorem reference_eq (o : Occurrence) : ∃ first second more,
    e.reference o = first :: second :: more ∧
      (first.mark = .word e.table ∧ second.mark = .sign "[" ∨
        first.mark = .sign "(" ∧ second.mark = .word e.table) := by
  have hreads := e.reads o
  cases hargument : e.argument o with
  | true =>
    rw [hargument] at hreads
    obtain ⟨first, os, hos, hfirst, -, hreads⟩ := readsAs_cons.1 hreads
    obtain ⟨second, more, rfl, hsecond, -, -⟩ := readsAs_cons.1 hreads
    exact ⟨first, second, more, hos, .inr ⟨hfirst, hsecond⟩⟩
  | false =>
    rw [hargument] at hreads
    obtain ⟨first, os, hos, hfirst, -, hreads⟩ := readsAs_cons.1 hreads
    obtain ⟨second, more, rfl, hsecond, -, -⟩ := readsAs_cons.1 hreads
    exact ⟨first, second, more, hos, .inl ⟨hfirst, hsecond⟩⟩

theorem length_le_apply (os : List Occurrence) : os.length ≤ (e.apply os).length := by
  induction os with
  | nil => exact Nat.le_refl _
  | cons o os ih =>
    have hput : 1 ≤ (e.put o).length := by
      rw [put]
      split
      · obtain ⟨first, second, more, hreference, -⟩ := e.reference_eq o
        rw [hreference]
        exact Nat.succ_le_succ (Nat.zero_le _)
      · exact Nat.le_refl _
    rw [apply_cons, List.length_append, List.length_cons]
    omega

/-- A reference has more tokens than a literal. -/
theorem length_lt_apply (h : o ∈ os) (ho : e.isTaken o = true) :
    os.length < (e.apply os).length := by
  obtain ⟨front, back, rfl⟩ := List.append_of_mem h
  obtain ⟨first, second, more, hreference, -⟩ := e.reference_eq o
  have hfront := e.length_le_apply front
  have hback := e.length_le_apply back
  rw [apply_append, e.apply_cons_taken ho, hreference]
  simp only [List.length_append, List.length_cons]
  omega

/-- What a literal and the first mark of a reference have in common is common to both scripts. -/
theorem firstMark_apply {p : Mark → Bool} (hstring : p .string = false)
    (hword : p (.word e.table) = false) (hopen : p (.sign "(") = false) (os : List Occurrence) :
    (firstMark (e.apply os)).any p = (firstMark os).any p := by
  cases os with
  | nil => rfl
  | cons o os =>
    cases ho : e.isTaken o with
    | false => rw [e.apply_cons_kept ho, firstMark_cons, firstMark_cons]
    | true =>
      obtain ⟨first, second, more, hreference, hmarks⟩ := e.reference_eq o
      rw [e.apply_cons_taken ho, hreference, List.cons_append, firstMark_cons, firstMark_cons,
        (e.isString o ho).1, Option.any_some, Option.any_some, hstring]
      rcases hmarks with ⟨hfirst, -⟩ | ⟨hfirst, -⟩
      · rw [hfirst, hword]
      · rw [hfirst, hopen]

theorem firstMark_apply_sign {symbols : List String} (h : "(" ∉ symbols) (os : List Occurrence) :
    (firstMark (e.apply os)).any (Mark.isSymbolOf symbols) =
      (firstMark os).any (Mark.isSymbolOf symbols) := by
  refine e.firstMark_apply rfl rfl ?_ os
  rw [Mark.sign, Mark.isSymbolOf, List.any_eq_false]
  intro v hv hsame
  exact h (String.toList_inj.1 (beq_iff_eq.1 hsame) ▸ hv)

/-- In front of neither a literal nor a field, no phrase goes on that ended before. -/
theorem fork {rest : List Occurrence}
    (h : ∀ o ∈ rest.head?, e.isTaken o = false ∧ leadsToField o.mark = false) :
    Fork rest (e.apply rest) := by
  have hangle : "(" ∉ [">"] := by decide
  cases rest with
  | nil => exact ⟨.inr ⟨rfl, rfl⟩, fun _ _ hclose => hclose, rfl, by simp⟩
  | cons o os =>
    obtain ⟨ho, hfield⟩ := h o rfl
    rw [e.apply_cons_kept ho]
    refine ⟨.inr ⟨rfl, hfield⟩, fun k hk hclose => ?_, rfl, by simp⟩
    rcases List.mem_cons.1 hk with rfl | hk
    · rw [sees_one rfl] at hclose ⊢
      rwa [e.firstMark_apply_sign hangle] at hclose
    obtain rfl := List.mem_singleton.1 hk
    cases os with
    | nil => exact hclose
    | cons p os =>
      cases hp : e.isTaken p with
      | true =>
        -- The second mark of a reference is no angle.
        obtain ⟨first, second, more, hreference, hmarks⟩ := e.reference_eq p
        rw [e.apply_cons_taken hp, hreference] at hclose
        have hsecond : second.mark.isSymbolOf [">"] = true := hclose
        rcases hmarks with ⟨-, hmark⟩ | ⟨-, hmark⟩
        · rw [hmark] at hsecond
          exact absurd hsecond (by decide)
        · rw [hmark] at hsecond
          cases hsecond
      | false =>
        rw [e.apply_cons_kept hp] at hclose
        have hthird : (start (p :: e.apply os)).sees 1 [">"] = true := hclose
        show (start (p :: os)).sees 1 [">"] = true
        rw [sees_one rfl] at hthird ⊢
        rwa [e.firstMark_apply_sign hangle] at hthird

/-! ### Places -/

/-- Whether two places, the second with references, are alike. -/
structure Akin (c c' : Cursor) : Prop where
  ahead : c'.ahead = e.apply c.ahead
  field : c.ahead ≠ [] → c'.before.any leadsToField = c.before.any leadsToField
  frame : c.ahead ≠ [] → c'.frame = c.frame ∨
    c.frame.any Mark.endsOperand = true ∧ c'.frame.any Mark.endsOperand = true

variable {e} {c c' : Cursor} {s : ScopeState} {reserved : Reserved}

theorem Akin.after (m : Mark) (os : List Occurrence) :
    e.Akin (after (some m) os) (after (some m) (e.apply os)) :=
  ⟨rfl, fun _ => rfl, fun _ => .inl rfl⟩

/-- Where a phrase ends, the scripts have not parted, or both have ended. -/
theorem Akin.of_abreast {d d' : Cursor} (h : Abreast d.ahead (e.apply d.ahead) d d') :
    e.Akin d d' := by
  rcases h.at_fork with rfl | ⟨hnil, hnil'⟩
  · exact ⟨rfl, fun _ => rfl, fun _ => .inl rfl⟩
  · exact ⟨by rw [hnil, hnil', apply_nil], fun hne => absurd hnil hne, fun hne => absurd hnil hne⟩

/-- At alike places the mark before makes no difference. -/
theorem Akin.agree (h : e.Akin c c') (hne : c.ahead ≠ []) (s : ScopeState) (m : Mark) :
    Agree s c.frame c'.frame m := by
  rcases h.frame hne with hframe | ⟨hends, hends'⟩
  · rw [hframe]
    exact ⟨rfl, fun _ => rfl, rfl⟩
  · obtain ⟨l, hl, hends⟩ := (Option.any_eq_true _ _).1 hends
    obtain ⟨l', hl', hends'⟩ := (Option.any_eq_true _ _).1 hends'
    rw [hl, hl']
    exact agree_of_endsOperand s m hends hends'

/-- What a reader leads to from one place, another leads to from an alike place. -/
def Matches (e : Exchange) (r r' : ScopeState × Cursor) : Prop :=
  r'.1 = r.1 ∧ e.Akin r.2 r'.2

theorem Akin.past (h : e.Akin c c') (hc : c.ahead = o :: ahead) :
    e.Akin (c.past o ahead) (c'.past o (e.apply ahead)) := by
  have hne : c.ahead ≠ [] := by
    rw [hc]
    exact List.cons_ne_nil o ahead
  refine ⟨rfl, fun _ => rfl, fun _ => ?_⟩
  unfold Cursor.past
  split
  · exact h.frame hne
  · exact .inl rfl

/-! ### Steps -/

/-- A phrase that spares the literals has the same occurrences in both scripts. -/
theorem abreast_of_spares {m : Mark} {d : Cursor} (hd : (after (some m) os).Onward d)
    (h : (after (some m) os).spares e.isTaken d = true) :
    Fork d.ahead (e.apply d.ahead) ∧
      Abreast d.ahead (e.apply d.ahead) (after (some m) os) (after (some m) (e.apply os)) := by
  obtain ⟨passed, hpassed, -⟩ := hd
  obtain rfl : os = passed ++ d.ahead := hpassed
  obtain ⟨hkept, hnext⟩ := Bool.and_eq_true_iff.1 h
  refine ⟨e.fork fun o ho => ?_, ?_⟩
  · simpa using (Option.all_eq_true _ _).1 hnext o ho
  · have htaken : ∀ o ∈ passed, e.isTaken o = false := by
      simpa [after] using hkept
    rw [apply_append, e.apply_of_kept htaken]
    exact .before _ _ passed

/-- The names of a `local` are the same, and so is whether values follow. -/
theorem localNames_apply {m : Mark} {t : ScopeState}
    (h : (after (some m) os).spares e.isTaken (after (some m) os).names.2 = true) :
    e.Matches (t.localNames reserved (after (some m) os))
      (t.localNames reserved (after (some m) (e.apply os))) := by
  obtain ⟨hfork, habreast⟩ := abreast_of_spares (names_passes _).onward h
  obtain ⟨hnames, hlast⟩ := habreast.names hfork (Nat.le_refl _)
  have hakin := Akin.of_abreast hlast
  have hvalues : (after (some m) (e.apply os)).names.2.sees 0 ["="] =
      (after (some m) os).names.2.sees 0 ["="] := by
    rw [sees_zero, sees_zero, hakin.ahead, e.firstMark_apply_sign (by decide)]
  unfold localNames
  dsimp only
  rw [hnames, hvalues]
  split
  · next hs =>
    obtain ⟨sign, values, hsign⟩ := exists_of_sees hs
    have hkept : e.isTaken sign = false := by
      have hnext := (Bool.and_eq_true_iff.1 h).2
      rw [hsign] at hnext
      simpa using (Bool.and_eq_true_iff.1 hnext).1
    have hsign' := hakin.ahead
    rw [hsign, e.apply_cons_kept hkept] at hsign'
    refine ⟨rfl, ?_⟩
    simpa only [advance, hsign, hsign'] using hakin.past hsign
  · exact ⟨rfl, hakin⟩

theorem atKeyword_apply {m : Mark} {t : ScopeState} {w : Text} {branch : Bool} {f : Option Mark}
    (ht : Known reserved t)
    (h : (Mark.word w).beginsPhrase = true → (after (some m) os).spares e.isTaken
      (if (Mark.word w).isWordOf ["local"] &&
          !((after (some m) os).peek 0).any (Mark.isWordOf ["function"]) then
        (after (some m) os).names.2
      else (t.atKeyword reserved w branch f (after (some m) os)).2) = true) :
    e.Matches (t.atKeyword reserved w branch f (after (some m) os))
      (t.atKeyword reserved w branch f (after (some m) (e.apply os))) := by
  cases hbegins : (Mark.word w).beginsPhrase with
  | false =>
    rw [atKeyword_of_plain hbegins, atKeyword_of_plain hbegins]
    exact ⟨rfl, .after m os⟩
  | true =>
    replace h := h hbegins
    split at h
    · next hnames =>
      obtain ⟨hlocal, hfunction⟩ := Bool.and_eq_true_iff.1 hnames
      obtain ⟨v, hv, hw⟩ := List.any_eq_true.1 hlocal
      obtain rfl := List.mem_singleton.1 hv
      obtain rfl := beq_iff_eq.1 hw
      have hword : (Mark.word e.table).isWordOf ["function"] = false :=
        Mark.isWordOf_of_not_isKeyword e.notKeyword (by decide)
      have hnot : ((after (some m) os).peek 0).any (Mark.isWordOf ["function"]) = false := by
        simpa using hfunction
      have hnot' : ((after (some m) (e.apply os)).peek 0).any (Mark.isWordOf ["function"]) =
          false := by
        rw [peek_zero] at hnot ⊢
        exact (e.firstMark_apply rfl hword rfl os).trans hnot
      rw [atKeyword, atKeyword, if_pos rfl, if_pos rfl, hnot, hnot', if_neg Bool.false_ne_true,
        if_neg Bool.false_ne_true]
      exact localNames_apply h
    · obtain ⟨-, new, -, hpasses⟩ := ht.atKeyword w branch f (after (some m) os)
      obtain ⟨hfork, habreast⟩ := abreast_of_spares hpasses.onward h
      obtain ⟨hstate, hlast⟩ :=
        parallel_atKeyword hfork habreast w branch f (Nat.le_refl _)
      exact ⟨hstate, .of_abreast hlast⟩

theorem atSymbol_apply {m : Mark} {t : ScopeState} {b : Text} (ht : Known reserved t)
    (h : (Mark.symbol b).beginsPhrase = true → (after (some m) os).spares e.isTaken
      (t.atSymbol b (after (some m) os)).2 = true) :
    e.Matches (t.atSymbol b (after (some m) os)) (t.atSymbol b (after (some m) (e.apply os))) := by
  cases hbegins : (Mark.symbol b).beginsPhrase with
  | false =>
    obtain ⟨t', ht'⟩ := atSymbol_of_plain (s := t) hbegins
    rw [ht', ht']
    exact ⟨rfl, .after m os⟩
  | true =>
    obtain ⟨-, new, -, hpasses⟩ := ht.atSymbol b (after (some m) os)
    obtain ⟨hfork, habreast⟩ := abreast_of_spares hpasses.onward (h hbegins)
    obtain ⟨hstate, hlast⟩ := parallel_atSymbol hfork habreast b (Nat.le_refl _)
    exact ⟨hstate, .of_abreast hlast⟩

/-- A step in front of no literal is the same in both scripts if the phrase ahead spares them. -/
theorem step_apply (h : e.Akin c c') (hs : Known reserved s) (hc : c.ahead = o :: ahead)
    (hhole : o.inHole = false) (ho : e.isTaken o = false)
    (hphrase : s.sparesAhead e.isTaken reserved c = true) :
    e.Matches (s.step reserved c o (after (some o.mark) ahead))
      (s.step reserved c' o (after (some o.mark) (e.apply ahead))) := by
  have hne : c.ahead ≠ [] := by
    rw [hc]
    exact List.cons_ne_nil o ahead
  have hagree := h.agree hne s o.mark
  have harrive : s.arrive c'.frame o.mark = s.arrive c.frame o.mark := by
    rw [arrive, arrive, hagree.settle]
  have hpast : c.past o ahead = after (some o.mark) ahead := by simp [Cursor.past, after, hhole]
  have hspares : o.mark.beginsPhrase = true → (after (some o.mark) ahead).spares e.isTaken
      (s.phraseEnd reserved c o (after (some o.mark) ahead)) = true := by
    intro hbegins
    rw [sparesAhead, hc] at hphrase
    simpa only [hhole, hbegins, hpast, Bool.not_true, Bool.false_or] using hphrase
  cases hmark : o.mark with
  | word w =>
    cases hname : o.mark.isName with
    | true =>
      have hc' : c'.ahead = o :: e.apply ahead := by rw [h.ahead, hc, e.apply_cons_kept ho]
      have hkey : (s.arrive c.frame o.mark).isConstructorKey c' =
          (s.arrive c.frame o.mark).isConstructorKey c := by
        have hsigns := hagree.key
        rw [isConstructorKey, isConstructorKey, sees_one hc', sees_one hc,
          e.firstMark_apply_sign (by decide)]
        exact congrArg (fun k => _ && k && _) hsigns
      rw [step_of_name hname, step_of_name hname, harrive, atName, atName, h.field hne, hkey]
      exact ⟨rfl, .after _ _⟩
    | false =>
      rw [step_of_keyword hmark hname, step_of_keyword hmark hname, harrive, hagree.settle,
        atKeyword_congr fun hif => hagree.opens (by rw [hmark, hif])]
      refine atKeyword_apply (hs.arrive c.frame o.mark) fun hbegins => ?_
      have hphraseEnd := hspares (by rw [hmark]; exact hbegins)
      simpa only [phraseEnd, step_of_keyword hmark hname, hmark] using hphraseEnd
  | symbol b =>
    rw [step_of_symbol hmark, step_of_symbol hmark, harrive]
    refine atSymbol_apply (hs.arrive c.frame o.mark) fun hbegins => ?_
    have hphraseEnd := hspares (by rw [hmark]; exact hbegins)
    have hnot : (Mark.symbol b).isWordOf ["local"] = false := rfl
    simpa only [phraseEnd, step_of_symbol hmark, hmark, hnot, Bool.false_and,
      if_neg Bool.false_ne_true] using hphraseEnd
  | number =>
    rw [step_of_literal (.inl hmark), step_of_literal (.inl hmark), harrive]
    exact ⟨rfl, .after _ _⟩
  | string =>
    rw [step_of_literal (.inr hmark), step_of_literal (.inr hmark), harrive]
    exact ⟨rfl, .after _ _⟩

/-! ### Walks -/

/-- What a walk needs to know of a place to make the same of both scripts. -/
structure Fits (e : Exchange) (reserved : Reserved) (s : ScopeState) (c : Cursor) : Prop where
  /-- The name of the table is not that of a variable. -/
  hidden : s.isVisible e.table = false
  /-- A literal in front of which a name would end an expression is the argument of a call. -/
  argument : ∀ o ∈ c.ahead.head?, e.isTaken o = true → s.isDue c.frame (.word e.table) = true →
    e.argument o = true
  phrase : s.sparesAhead e.isTaken reserved c = true

/-- If everything fits where a walk stands, the walk does the same in both scripts. -/
theorem walk_apply (h : e.Akin c c') (hs : Known reserved s)
    (hfits : ∀ t d, LeadsTo reserved s c t d → e.Fits reserved t d) :
    s.walk reserved c' = s.walk reserved c := by
  fun_induction ScopeState.walk reserved s c generalizing c' with
  | case1 s c hc =>
    rw [walk_nil]
    rw [h.ahead, hc, apply_nil]
  | case2 s c o ahead hc next hhole =>
    rename_i ih
    have ho : e.isTaken o = false := by
      refine Bool.eq_false_iff.2 fun htaken => ?_
      rw [(e.isString o htaken).2] at hhole
      cases hhole
    have hc' : c'.ahead = o :: e.apply ahead := by rw [h.ahead, hc, e.apply_cons_kept ho]
    have hfield := h.field (by rw [hc]; exact List.cons_ne_nil o ahead)
    have hsame : s.atHole c' o = s.atHole c o := by rw [atHole, atHole, hfield]
    rw [walk_cons hc', if_pos hhole, hsame]
    exact ih (h.past hc) (hs.atHole hc).1 fun t d hleads => hfits t d (.hole hc hhole hleads)
  | case3 s c o ahead hc next hhole step =>
    rename_i ih
    have hhole : o.inHole = false := by simpa using hhole
    replace ih := fun {c'} (hakin : e.Akin step.2 c') =>
      ih hakin (hs.step hc).1 fun t d hleads => hfits t d (.step hc hhole hleads)
    obtain ⟨hhidden, hargument, hphrase⟩ := hfits s c (.here s c)
    have hnext : next = after (some o.mark) ahead := by simp [next, Cursor.past, after, hhole]
    have hstep : step = s.step reserved c o (after (some o.mark) ahead) := by rw [← hnext]
    rw [hstep] at ih ⊢
    cases ho : e.isTaken o with
    | true =>
      obtain ⟨hmark, -⟩ := e.isString o ho
      have hliteral : s.step reserved c o (after (some o.mark) ahead) =
          (s.goOn, after (some o.mark) ahead) := by
        rw [step_of_literal (.inr hmark), hmark, arrive_of_continues rfl]
      have hcall : s.isDue c'.frame (.word e.table) = true → e.argument o = true := by
        intro hdue
        refine hargument o (by rw [hc]; rfl) ho ?_
        rcases h.frame (by rw [hc]; exact List.cons_ne_nil o ahead) with hframe | ⟨hends, hends'⟩
        · rwa [hframe] at hdue
        · rwa [isDue_congr (hends'.trans hends.symm) rfl] at hdue
      obtain ⟨last, hlast, hfield, hwalk⟩ := @walk_reference reserved s c'.frame e.table
        (e.reference o) (e.apply ahead) _ (e.reads o) e.notKeyword hhidden hcall c'.before
      have hc' : c' = ⟨c'.before, c'.frame, e.reference o ++ e.apply ahead⟩ := by
        rw [← e.apply_cons_taken ho, ← hc, ← h.ahead]
      rw [hliteral] at ih ⊢
      rw [hc', hwalk]
      refine ih ⟨rfl, fun _ => ?_, fun _ => .inr ⟨?_, hlast⟩⟩
      · rw [hmark]
        exact hfield
      · rw [hmark]
        rfl
    | false =>
      have hc' : c'.ahead = o :: e.apply ahead := by rw [h.ahead, hc, e.apply_cons_kept ho]
      have hmatches := step_apply h hs hc hhole ho hphrase
      generalize hstep' : s.step reserved c' o (after (some o.mark) (e.apply ahead)) = r'
        at hmatches
      obtain ⟨t, d⟩ := r'
      obtain ⟨rfl, hakin⟩ := hmatches
      rw [walk_of_step hc' hhole hstep']
      exact ih hakin

/-- If everything fits where a walk over a script stands, the same variables are found. -/
theorem resolve_apply (e : Exchange)
    (hfits : ∀ t d, LeadsTo reserved .initial (.start os) t d → e.Fits reserved t d) :
    resolve reserved (e.apply os) = resolve reserved os := by
  have hakin : e.Akin (.start os) (.start (e.apply os)) := ⟨rfl, fun _ => rfl, fun _ => .inl rfl⟩
  rw [resolve, resolve, walk_apply hakin (.initial reserved) hfits]

end Exchange
end LuaVeil
