/-
# The order of sites

A walk passes the occurrences of a script from left to right and notes some of
them. So the sites are found in the order of the script, and each is a name that
some declaration of the script has introduced.

Main statements:

* `names_passes` and `parameters_passes`, a phrase notes names among what it moves
  past;
* `Known.step` and `Known.walk`, what is noted is passed, and its name is known;
* `sites_sublist` and `declared_of_site`, what `resolve` finds.
-/
import LuaVeil.Proofs.Scope.Walk
import Mathlib.Data.List.Nodup

namespace LuaVeil

/-! ## Cursors move forward -/

namespace Cursor

/-- The last passed mark that is in no hole, when some occurrences have been passed behind `f`. -/
def frameAfter (f : Option Mark) (passed : List Occurrence) : Option Mark :=
  passed.foldl (fun f o => if o.inHole then f else some o.mark) f

/-- Whether a cursor at `c` comes to `d` as it passes some occurrences. -/
def Advances (c : Cursor) (passed : List Occurrence) (d : Cursor) : Prop :=
  c.ahead = passed ++ d.ahead ∧ d.frame = frameAfter c.frame passed

theorem Advances.trans {c d e : Cursor} {passed more : List Occurrence} (h : Advances c passed d)
    (h' : Advances d more e) : Advances c (passed ++ more) e := by
  obtain ⟨hpassed, hframe⟩ := h
  obtain ⟨hmore, hframe'⟩ := h'
  refine ⟨by rw [hpassed, hmore, List.append_assoc], ?_⟩
  rw [hframe', hframe, frameAfter, frameAfter, frameAfter, List.foldl_append]

/-- Whether a cursor at `c` comes to `d`. -/
def Onward (c d : Cursor) : Prop :=
  ∃ passed, Advances c passed d

theorem Onward.rfl {c : Cursor} : Onward c c :=
  ⟨[], by simp [Advances, frameAfter]⟩

theorem Onward.trans {c d e : Cursor} (h : Onward c d) (h' : Onward d e) : Onward c e := by
  obtain ⟨passed, hpassed⟩ := h
  obtain ⟨more, hmore⟩ := h'
  exact ⟨passed ++ more, hpassed.trans hmore⟩

theorem onward_past {c : Cursor} {o : Occurrence} {ahead : List Occurrence}
    (h : c.ahead = o :: ahead) : Onward c (c.past o ahead) :=
  ⟨[o], h, by simp [frameAfter, past]⟩

theorem onward_advance (c : Cursor) : Onward c c.advance := by
  unfold advance
  split
  · exact .rfl
  · next h => exact onward_past h

theorem onward_advanceBy (n : Nat) (c : Cursor) : Onward c (c.advanceBy n) := by
  induction n with
  | zero => exact .rfl
  | succ n ih => exact ih.trans (onward_advance _)

theorem onward_skipBalanced (angle : Bool) (depth : Nat) (c : Cursor) :
    Onward c (c.skipBalanced angle depth) := by
  fun_induction skipBalanced angle depth c with
  | case1 => exact .rfl
  | case2 depth c o ahead hc next _ ih => exact (onward_past hc).trans ih
  | case3 depth c o ahead hc next => exact onward_past hc
  | case4 depth c o ahead hc next _ _ _ ih => exact (onward_past hc).trans ih
  | case5 depth c o ahead hc next _ _ ih => exact (onward_past hc).trans ih

theorem onward_skipPath (c : Cursor) : Onward c c.skipPath := by
  fun_induction skipPath c with
  | case1 c h ih => exact (onward_advanceBy 2 c).trans ih
  | case2 => exact .rfl

theorem onward_skipOptional (c : Cursor) : Onward c c.skipOptional := by
  fun_induction skipOptional c with
  | case1 c h ih => exact (onward_advance c).trans ih
  | case2 => exact .rfl

theorem onward_skipTypeArguments (name : Text) (c : Cursor) :
    Onward c (c.skipTypeArguments name) := by
  unfold skipTypeArguments
  split
  · exact onward_skipBalanced _ _ _
  split
  · exact onward_skipBalanced _ _ _
  · exact .rfl

theorem onward_skipSimpleType? {c d : Cursor} (h : c.skipSimpleType? = some d) :
    Onward c d := by
  unfold skipSimpleType? at h
  split at h
  · cases h
  · next o ahead ho =>
    split at h
    · obtain rfl := Option.some.inj h
      exact (onward_past ho).trans ((onward_skipPath _).trans (onward_skipTypeArguments _ _))
    · obtain rfl := Option.some.inj h
      exact onward_past ho
    · split at h
      · obtain rfl := Option.some.inj h
        exact onward_skipBalanced _ _ _
      split at h
      · obtain rfl := Option.some.inj h
        exact onward_past ho
      · cases h
    · cases h

theorem onward_skipType (c : Cursor) : Onward c c.skipType := by
  fun_induction skipType c with
  | case1 => exact .rfl
  | case2 c d hd e _ ih =>
    exact (onward_skipSimpleType? hd).trans
      ((onward_skipOptional d).trans ((onward_advance e).trans ih))
  | case3 c d hd e _ => exact (onward_skipSimpleType? hd).trans (onward_skipOptional d)

theorem onward_skipAscription (c : Cursor) : Onward c c.skipAscription := by
  unfold skipAscription
  split
  · exact (onward_advance c).trans (onward_skipType _)
  · exact .rfl

theorem onward_skipAttribute (c : Cursor) : Onward c c.skipAttribute := by
  unfold skipAttribute
  split
  · exact onward_advanceBy 3 c
  · exact .rfl

theorem onward_skipFields (c : Cursor) : Onward c c.skipFields := by
  fun_induction skipFields c with
  | case1 c h ih => exact (onward_advanceBy 2 c).trans ih
  | case2 => exact .rfl

theorem onward_skipGenerics (c : Cursor) : Onward c c.skipGenerics := by
  unfold skipGenerics
  split
  · exact onward_skipBalanced _ _ _
  · exact .rfl

/-! ## Names that are passed -/

/-- Moving from `c` to `d` passes the given names in order. -/
def Passes (c : Cursor) (names : List Occurrence) (d : Cursor) : Prop :=
  (∃ passed, Advances c passed d ∧ names.Sublist passed) ∧ ∀ o ∈ names, o.mark.isName = true

theorem Passes.of_onward {c d : Cursor} (h : Onward c d) : Passes c [] d := by
  obtain ⟨passed, hpassed⟩ := h
  exact ⟨⟨passed, hpassed, List.nil_sublist _⟩, by simp⟩

theorem Passes.onward {c d : Cursor} {names : List Occurrence} (h : Passes c names d) :
    Onward c d := by
  obtain ⟨⟨passed, hpassed, -⟩, -⟩ := h
  exact ⟨passed, hpassed⟩

theorem Passes.rfl {c : Cursor} : Passes c [] c :=
  .of_onward .rfl

theorem Passes.trans {c d e : Cursor} {names more : List Occurrence} (h : Passes c names d)
    (h' : Passes d more e) : Passes c (names ++ more) e := by
  obtain ⟨⟨passed, hpassed, hnames⟩, hname⟩ := h
  obtain ⟨⟨passed', hpassed', hmore⟩, hname'⟩ := h'
  exact ⟨⟨passed ++ passed', hpassed.trans hpassed', hnames.append hmore⟩,
    List.forall_mem_append.2 ⟨hname, hname'⟩⟩

theorem Passes.sublist {c d : Cursor} {names fewer : List Occurrence} (h : Passes c names d)
    (hsub : fewer.Sublist names) : Passes c fewer d := by
  obtain ⟨⟨passed, hpassed, hnames⟩, hname⟩ := h
  exact ⟨⟨passed, hpassed, hsub.trans hnames⟩, fun o ho => hname o (hsub.subset ho)⟩

/-- A cursor goes on without noting anything. -/
theorem Passes.onto {c d e : Cursor} {names : List Occurrence} (h : Passes c names d)
    (h' : Onward d e) : Passes c names e := by
  simpa using h.trans (.of_onward h')

theorem Passes.single {c : Cursor} {o : Occurrence} {ahead : List Occurrence}
    (h : c.ahead = o :: ahead) (hname : o.mark.isName = true) : Passes c [o] (c.past o ahead) :=
  ⟨⟨[o], ⟨h, by simp [frameAfter, past]⟩, List.Sublist.refl _⟩, by simpa using hname⟩

theorem name?_passes {c d : Cursor} {o : Occurrence} (h : c.name? = some (o, d)) :
    Passes c [o] d := by
  unfold name? at h
  split at h
  · cases h
  · next o' ahead ho =>
    split at h
    · next hname =>
      obtain ⟨rfl, rfl⟩ := Prod.mk.inj (Option.some.inj h)
      exact .single ho hname
    · cases h

/-- The names of a list are passed. -/
theorem names_passes (c : Cursor) : Passes c c.names.1 c.names.2 := by
  fun_induction names c with
  | case1 => exact .rfl
  | case2 c o d hd e _ more last hm ih =>
    rw [hm] at ih
    have he : Passes c [o] e.advance := (name?_passes hd).onto
      ((onward_skipAttribute d).trans ((onward_skipAscription _).trans (onward_advance e)))
    exact he.trans ih
  | case3 c o d hd e _ =>
    exact (name?_passes hd).onto ((onward_skipAttribute d).trans (onward_skipAscription _))

theorem parameterNames_passes (c : Cursor) : Passes c c.parameterNames.1 c.parameterNames.2 := by
  fun_induction parameterNames c with
  | case1 => exact .rfl
  | case2 c o ahead ho next hname more last hm ih =>
    rw [hm] at ih
    exact ((Passes.single ho hname).onto (onward_skipAscription next)).trans ih
  | case3 c o ahead ho next => exact .of_onward (onward_past ho)
  | case4 c o ahead ho next _ _ _ ih =>
    exact (Passes.of_onward ((onward_past ho).trans (onward_skipAscription next))).trans ih
  | case5 => exact .rfl

/-- The names of parameters are passed. -/
theorem parameters_passes (c : Cursor) : Passes c c.parameters.1 c.parameters.2 := by
  unfold parameters
  dsimp only
  split
  · have hopen : Passes c [] c.skipGenerics.advance :=
      .of_onward ((onward_skipGenerics c).trans (onward_advance _))
    exact (hopen.trans (parameterNames_passes _)).onto (onward_skipAscription _)
  · exact .of_onward (onward_skipGenerics c)

end Cursor

/-! ## Names that are known -/

namespace ScopeState

/-- All names that a state holds are declared and noted, and none of them is reserved. -/
structure Known (reserved : Reserved) (s : ScopeState) : Prop where
  nodup : s.declared.Nodup
  free : ∀ name ∈ s.declared, reserved.contains name = false
  scope : ∀ name ∈ s.scope, name ∈ s.declared
  outer : ∀ scope ∈ s.outer, ∀ name ∈ scope, name ∈ s.declared
  loops : ∀ l ∈ s.loops, ∀ name ∈ l.2, name ∈ s.declared
  pending : ∀ p ∈ s.pending, ∀ names, p.action = .bind names → ∀ name ∈ names, name ∈ s.declared
  sites : ∀ o ∈ s.sites, o.mark.isName = true ∧ o.mark.text ∈ s.declared
  noted : ∀ name ∈ s.declared, ∃ o ∈ s.sites, o.mark.text = name

/-- Nothing is known before a script. -/
theorem Known.initial (reserved : Reserved) : Known reserved .initial := by
  constructor <;> simp [ScopeState.initial]

namespace Known

variable {reserved : Reserved} {s : ScopeState}

theorem bind (h : Known reserved s) {names : List Name}
    (hnames : ∀ name ∈ names, name ∈ s.declared) : Known reserved (s.bind names) :=
  { h with scope := List.forall_mem_append.2 ⟨hnames, h.scope⟩ }

theorem openScope (h : Known reserved s) : Known reserved s.openScope :=
  { h with
    scope := fun _ h => nomatch h
    outer := List.forall_mem_cons.2 ⟨h.scope, h.outer⟩ }

theorem closeScope (h : Known reserved s) : Known reserved s.closeScope := by
  unfold ScopeState.closeScope
  split
  · exact h
  · next scope outer houter =>
    have houter' := h.outer
    rw [houter, List.forall_mem_cons] at houter'
    exact { h with scope := houter'.1, outer := houter'.2 }

theorem perform (h : Known reserved s) {action : Deferred}
    (haction : ∀ names, action = .bind names → ∀ name ∈ names, name ∈ s.declared) :
    Known reserved (s.perform action) := by
  cases action with
  | bind names => exact h.bind (haction names rfl)
  | close => exact h.closeScope

end Known

theorem noted_perform (s : ScopeState) (action : Deferred) :
    (s.perform action).declared = s.declared ∧ (s.perform action).sites = s.sites := by
  cases action with
  | bind names => exact ⟨rfl, rfl⟩
  | close =>
    unfold ScopeState.perform closeScope
    dsimp only
    split <;> exact ⟨rfl, rfl⟩

variable {reserved : Reserved} {s s' : ScopeState}

/-- Deferred actions note nothing. -/
theorem Known.settle (h : Known reserved s) (before : Option Mark) (next : Mark) :
    Known reserved (s.settle before next) ∧ (s.settle before next).sites = s.sites := by
  have hpending : ∀ (ps : List Pending) {s : ScopeState}, Known reserved s →
      (∀ p ∈ ps, ∀ names, p.action = .bind names → ∀ name ∈ names, name ∈ s.declared) →
      Known reserved (settlePending before next ps s) ∧
        (settlePending before next ps s).sites = s.sites := by
    intro ps
    induction ps with
    | nil => exact fun h _ => ⟨{ h with pending := fun _ h => nomatch h }, rfl⟩
    | cons p ps ih =>
      intro s h hps
      obtain ⟨hp, hps'⟩ := List.forall_mem_cons.1 hps
      rw [settlePending]
      split
      · exact ih h hps'
      split
      · obtain ⟨hdeclared, hsites⟩ := noted_perform s p.action
        have hknown := h.perform hp
        rw [← hdeclared] at hps'
        rw [← hsites]
        exact ih hknown hps'
      · exact ⟨{ h with pending := hps }, rfl⟩
  exact hpending s.pending h h.pending

theorem Known.arrive (h : Known reserved s) (before : Option Mark) (next : Mark) :
    Known reserved (s.arrive before next) :=
  { (h.settle before next).1 with }

/-- What is visible has been noted. -/
theorem Known.exists_of_isVisible (h : Known reserved s) {name : Name}
    (hvisible : s.isVisible name = true) : ∃ o ∈ s.sites, o.mark.text = name := by
  refine h.noted name ?_
  rcases Bool.or_eq_true_iff.1 hvisible with hscope | houter
  · exact h.scope name (List.contains_iff_mem.1 hscope)
  · obtain ⟨scope, hscope, hname⟩ := List.any_eq_true.1 houter
    exact h.outer scope hscope name (List.contains_iff_mem.1 hname)

/-! ## What a step notes -/

/-- From one state and place to another, what is noted is passed, and stays known. -/
def Notes (reserved : Reserved) (s : ScopeState) (c : Cursor) (s' : ScopeState) (c' : Cursor) :
    Prop :=
  Known reserved s' ∧ ∃ new, s'.sites = new.reverse ++ s.sites ∧ c.Passes new c'

/-- Nothing is noted where the sites stay the same. -/
theorem Notes.of_sites {c c' : Cursor} (h : Known reserved s') (hsites : s'.sites = s.sites)
    (hc : c.Onward c') : Notes reserved s c s' c' :=
  ⟨h, [], by simpa using hsites, .of_onward hc⟩

theorem Notes.trans {s'' : ScopeState} {c c' c'' : Cursor} (h : Notes reserved s c s' c')
    (h' : Notes reserved s' c' s'' c'') : Notes reserved s c s'' c'' := by
  obtain ⟨-, new, hsites, hpasses⟩ := h
  obtain ⟨hknown, more, hsites', hpasses'⟩ := h'
  refine ⟨hknown, new ++ more, ?_, hpasses.trans hpasses'⟩
  rw [hsites', hsites, List.reverse_append, List.append_assoc]

/-- What is noted in front of what a walk notes. -/
theorem Notes.before {s'' : ScopeState} {c c' : Cursor} (h : Notes reserved s c s' c')
    (hmore : ∃ new : List Occurrence, s''.sites = new.reverse ++ s'.sites ∧ new.Sublist c'.ahead) :
    ∃ new : List Occurrence, s''.sites = new.reverse ++ s.sites ∧ new.Sublist c.ahead := by
  obtain ⟨-, new, hsites, ⟨passed, ⟨hpassed, -⟩, hnew⟩, -⟩ := h
  obtain ⟨more, hmore, hsub⟩ := hmore
  refine ⟨new ++ more, ?_, ?_⟩
  · rw [hmore, hsites, List.reverse_append, List.append_assoc]
  · rw [hpassed]
    exact hnew.append hsub

theorem mem_declared_declare {o : Occurrence} {name : Name} :
    name ∈ (s.declare o).declared ↔ name = o.mark.text ∨ name ∈ s.declared := by
  unfold declare
  dsimp only
  split
  · next hold =>
    refine ⟨.inr, ?_⟩
    rintro (rfl | h)
    · exact List.contains_iff_mem.1 hold
    · exact h
  · exact List.mem_cons

/-- A declaration makes its name known. -/
theorem Known.declare (h : Known reserved s) {o : Occurrence} (hname : o.mark.isName = true)
    (hfree : reserved.contains o.mark.text = false) : Known reserved (s.declare o) where
  nodup := by
    unfold ScopeState.declare
    dsimp only
    split
    · exact h.nodup
    · next hnew =>
      exact List.nodup_cons.2 ⟨fun hold => hnew (List.contains_iff_mem.2 hold), h.nodup⟩
  free := by
    intro name hmem
    rcases mem_declared_declare.1 hmem with rfl | hmem
    · exact hfree
    · exact h.free name hmem
  scope := fun name hmem => mem_declared_declare.2 (.inr (h.scope name hmem))
  outer := fun scope hscope name hmem =>
    mem_declared_declare.2 (.inr (h.outer scope hscope name hmem))
  loops := fun l hl name hmem => mem_declared_declare.2 (.inr (h.loops l hl name hmem))
  pending := fun p hp names haction name hmem =>
    mem_declared_declare.2 (.inr (h.pending p hp names haction name hmem))
  sites := by
    refine List.forall_mem_cons.2 ⟨⟨hname, mem_declared_declare.2 (.inl rfl)⟩, fun o' ho' => ?_⟩
    exact ⟨(h.sites o' ho').1, mem_declared_declare.2 (.inr (h.sites o' ho').2)⟩
  noted := by
    intro name hmem
    rcases mem_declared_declare.1 hmem with rfl | hmem
    · exact ⟨o, List.mem_cons_self, rfl⟩
    · obtain ⟨o', ho', hname'⟩ := h.noted name hmem
      exact ⟨o', List.mem_cons_of_mem o ho', hname'⟩

/-- Declarations in a row are noted in order. -/
theorem Known.declareEach (h : Known reserved s) {os : List Occurrence}
    (hos : ∀ o ∈ os, o.mark.isName = true ∧ reserved.contains o.mark.text = false) :
    Known reserved (os.foldl ScopeState.declare s) ∧
      (os.foldl ScopeState.declare s).sites = os.reverse ++ s.sites ∧
      (∀ name ∈ s.declared, name ∈ (os.foldl ScopeState.declare s).declared) ∧
      ∀ o ∈ os, o.mark.text ∈ (os.foldl ScopeState.declare s).declared := by
  induction os generalizing s with
  | nil => exact ⟨h, rfl, fun _ h => h, fun _ h => nomatch h⟩
  | cons o os ih =>
    obtain ⟨⟨hname, hfree⟩, hos'⟩ := List.forall_mem_cons.1 hos
    obtain ⟨hknown, hsites, hgrow, htexts⟩ := ih (h.declare hname hfree) hos'
    refine ⟨hknown, ?_, fun name hmem => hgrow name (mem_declared_declare.2 (.inr hmem)), ?_⟩
    · rw [List.foldl_cons, hsites, List.reverse_cons, List.append_assoc]
      rfl
    · exact List.forall_mem_cons.2 ⟨hgrow _ (mem_declared_declare.2 (.inl rfl)), htexts⟩

/-- Declarations note the names that are not reserved. -/
theorem Known.declareAll (h : Known reserved s) {c c' : Cursor} {names : List Occurrence}
    (hnames : c.Passes names c') :
    Notes reserved s c (s.declareAll reserved names).1 c' ∧
      ∀ name ∈ (s.declareAll reserved names).2,
        name ∈ (s.declareAll reserved names).1.declared := by
  have hpasses := hnames.sublist
    (List.filter_sublist (p := fun o => !reserved.contains o.mark.text))
  obtain ⟨hknown, hsites, -, htexts⟩ := h.declareEach fun o ho =>
    ⟨hpasses.2 o ho, by simpa using (List.mem_filter.1 ho).2⟩
  refine ⟨⟨hknown, _, hsites, hpasses⟩, fun name hname => ?_⟩
  obtain ⟨o, ho, rfl⟩ := List.mem_map.1 hname
  exact htexts o ho

/-- The use of a name notes it if it is visible, and then it is declared. -/
theorem Known.use (h : Known reserved s) {c c' : Cursor} {o : Occurrence} (ho : c.Passes [o] c') :
    Notes reserved s c (s.use o) c' := by
  unfold ScopeState.use
  split
  · next hvisible =>
    have hmem : o.mark.text ∈ s.declared := by
      rw [isVisible, Bool.or_eq_true, List.contains_iff_mem, List.any_eq_true] at hvisible
      rcases hvisible with hscope | ⟨scope, hscope, hname⟩
      · exact h.scope _ hscope
      · exact h.outer scope hscope _ (List.contains_iff_mem.1 hname)
    have hname : o.mark.isName = true := ho.2 o List.mem_cons_self
    have hknown : Known reserved { s with sites := o :: s.sites } :=
      { h with
        sites := List.forall_mem_cons.2 ⟨⟨hname, hmem⟩, h.sites⟩
        noted := fun name hmem => by
          obtain ⟨o', ho', hname'⟩ := h.noted name hmem
          exact ⟨o', List.mem_cons_of_mem o ho', hname'⟩ }
    exact ⟨hknown, [o], rfl, ho⟩
  · exact ⟨h, [], rfl, ho.sublist (List.nil_sublist _)⟩

theorem Known.enterFunction (h : Known reserved s) (c : Cursor) :
    Notes reserved s c (s.enterFunction reserved c).1 (s.enterFunction reserved c).2 := by
  obtain ⟨⟨hknown, hnew⟩, hbound⟩ := h.openScope.declareAll c.parameters_passes
  exact ⟨hknown.bind hbound, hnew⟩

theorem Known.localFunction (h : Known reserved s) (c : Cursor) :
    Notes reserved s c (s.localFunction reserved c).1 (s.localFunction reserved c).2 := by
  unfold ScopeState.localFunction
  split
  · exact h.enterFunction c
  · next o d hd =>
    obtain ⟨⟨hknown, hnew⟩, hbound⟩ := h.declareAll (Cursor.name?_passes hd)
    have hnamed : Notes reserved s c
        ((s.declareAll reserved [o]).1.bind (s.declareAll reserved [o]).2) d :=
      ⟨hknown.bind hbound, hnew⟩
    exact hnamed.trans (hnamed.1.enterFunction d)

theorem Known.localNames (h : Known reserved s) (c : Cursor) :
    Notes reserved s c (s.localNames reserved c).1 (s.localNames reserved c).2 := by
  obtain ⟨⟨hknown, hnew⟩, hbound⟩ := h.declareAll c.names_passes
  unfold ScopeState.localNames
  dsimp only
  split
  · refine Notes.trans ⟨hknown, hnew⟩ (.of_sites ?_ rfl (Cursor.onward_advance _))
    refine { hknown with pending := List.forall_mem_cons.2 ⟨?_, hknown.pending⟩ }
    intro names haction
    obtain rfl := Deferred.bind.inj haction
    exact hbound
  · exact ⟨hknown.bind hbound, hnew⟩

theorem Known.loopNames (h : Known reserved s) (c : Cursor) :
    Notes reserved s c (s.loopNames reserved c).1 (s.loopNames reserved c).2 := by
  obtain ⟨⟨hknown, hnew⟩, hbound⟩ := h.declareAll c.names_passes
  exact ⟨{ hknown with loops := List.forall_mem_cons.2 ⟨hbound, hknown.loops⟩ }, hnew⟩

theorem Known.function (h : Known reserved s) (c : Cursor) :
    Notes reserved s c (s.function reserved c).1 (s.function reserved c).2 := by
  unfold ScopeState.function
  split
  · exact h.enterFunction c
  · next o d hd =>
    have hused := h.use ((Cursor.name?_passes hd).onto (Cursor.onward_skipFields d))
    exact hused.trans (hused.1.enterFunction _)

theorem Known.enterDo (h : Known reserved s) :
    Known reserved s.enterDo ∧ s.enterDo.sites = s.sites := by
  unfold ScopeState.enterDo
  dsimp only
  split
  · next d names loops hloops =>
    have hloops' := h.openScope.loops
    rw [hloops, List.forall_mem_cons] at hloops'
    split
    · have hleft : Known reserved { s.openScope with loops } :=
        { h.openScope with loops := hloops'.2 }
      exact ⟨hleft.bind hloops'.1, rfl⟩
    · exact ⟨h.openScope, rfl⟩
  · exact ⟨h.openScope, rfl⟩

theorem Known.keyword (h : Known reserved s) (word : Text) (branch : Bool) (before : Option Mark) :
    Known reserved (s.keyword word branch before) ∧
      (s.keyword word branch before).sites = s.sites := by
  have hclose := noted_perform s .close
  unfold ScopeState.keyword
  split
  · exact h.enterDo
  · unfold enterIf
    split
    · exact ⟨{ h with }, rfl⟩
    · exact ⟨h, rfl⟩
  · split
    · exact ⟨{ h with }, rfl⟩
    · exact ⟨h.openScope, rfl⟩
  · split
    · exact ⟨{ h with }, rfl⟩
    · exact ⟨h.closeScope, hclose.2⟩
  · split
    · exact ⟨{ h with }, rfl⟩
    · exact ⟨h.closeScope.openScope, hclose.2⟩
  · exact ⟨h.openScope, rfl⟩
  · refine ⟨{ h with pending := List.forall_mem_cons.2 ⟨?_, h.pending⟩ }, rfl⟩
    rintro _ hbind
    cases hbind
  · exact ⟨h.closeScope, hclose.2⟩
  · exact ⟨h, rfl⟩

theorem Known.atKeyword (h : Known reserved s) (word : Text) (branch : Bool) (before : Option Mark)
    (c : Cursor) :
    Notes reserved s c (s.atKeyword reserved word branch before c).1
      (s.atKeyword reserved word branch before c).2 := by
  unfold ScopeState.atKeyword
  split
  · split
    · exact (Notes.of_sites h rfl (Cursor.onward_advance c)).trans (h.localFunction _)
    · exact h.localNames c
  split
  · exact h.loopNames c
  split
  · exact h.function c
  · obtain ⟨hknown, hsites⟩ := h.keyword word branch before
    exact .of_sites hknown hsites .rfl

theorem Known.atSymbol (h : Known reserved s) (symbol : Text) (c : Cursor) :
    Notes reserved s c (s.atSymbol symbol c).1 (s.atSymbol symbol c).2 := by
  unfold ScopeState.atSymbol
  dsimp only
  split
  · exact .of_sites { h with } rfl .rfl
  split
  · exact .of_sites { h with } rfl .rfl
  split
  · exact .of_sites h rfl (Cursor.onward_skipType c)
  · exact .of_sites h rfl .rfl

/-- A step notes occurrences that it passes. -/
theorem Known.step (h : Known reserved s) {c : Cursor} {o : Occurrence} {ahead : List Occurrence}
    (hc : c.ahead = o :: ahead) :
    Notes reserved s c (s.step reserved c o (c.past o ahead)).1
      (s.step reserved c o (c.past o ahead)).2 := by
  obtain ⟨hknown, hsites⟩ := h.settle c.frame o.mark
  have hsettled : Known reserved { s.settle c.frame o.mark with inBranch := false } :=
    { hknown with }
  have hpast : Notes reserved s c { s.settle c.frame o.mark with inBranch := false }
      (c.past o ahead) := .of_sites hsettled hsites (Cursor.onward_past hc)
  unfold ScopeState.step
  dsimp only
  split
  · next w hw =>
    split
    · next hname =>
      refine Notes.trans (.of_sites hsettled hsites .rfl) ?_
      unfold ScopeState.atName
      split
      · exact .of_sites hsettled rfl (Cursor.onward_past hc)
      · exact hsettled.use (.single hc hname)
    · exact hpast.trans (hsettled.atKeyword _ _ _ _)
  · exact hpast.trans (hsettled.atSymbol _ _)
  · exact hpast
  · exact hpast

/-- So does a step in a hole. -/
theorem Known.atHole (h : Known reserved s) {c : Cursor} {o : Occurrence}
    {ahead : List Occurrence} (hc : c.ahead = o :: ahead) :
    Notes reserved s c (s.atHole c o) (c.past o ahead) := by
  unfold ScopeState.atHole
  split
  · next hname => exact h.use (.single hc (Bool.and_eq_true_iff.1 hname).1)
  · exact .of_sites h rfl (Cursor.onward_past hc)

/-- What a walk notes lies ahead of its start, in order. -/
theorem Known.walk (h : Known reserved s) (c : Cursor) :
    Known reserved (s.walk reserved c) ∧
      ∃ new : List Occurrence,
        (s.walk reserved c).sites = new.reverse ++ s.sites ∧ new.Sublist c.ahead := by
  fun_induction ScopeState.walk reserved s c with
  | case1 s c hc => exact ⟨h, [], rfl, List.nil_sublist _⟩
  | case2 s c o ahead hc next hhole ih =>
    obtain ⟨hwalk, hmore⟩ := ih (h.atHole hc).1
    exact ⟨hwalk, (h.atHole hc).before hmore⟩
  | case3 s c o ahead hc next hhole after ih =>
    obtain ⟨hwalk, hmore⟩ := ih (h.step hc).1
    exact ⟨hwalk, (h.step hc).before hmore⟩

end ScopeState

/-! ## What resolution finds -/

section

variable (reserved : Reserved) (os : List Occurrence)

/-- The sites of a script are found in the order of the script. -/
theorem sites_sublist : (resolve reserved os).sites.Sublist os := by
  obtain ⟨-, new, hsites, hsub⟩ := (ScopeState.Known.initial reserved).walk (.start os)
  rw [resolve, hsites, List.reverse_append, List.reverse_reverse]
  exact hsub

/-- Every site is a name that is declared. -/
theorem declared_of_site {o : Occurrence} (ho : o ∈ (resolve reserved os).sites) :
    o.mark.isName = true ∧ o.mark.text ∈ (resolve reserved os).declared := by
  obtain ⟨hknown, -⟩ := (ScopeState.Known.initial reserved).walk (.start os)
  obtain ⟨hname, hmem⟩ := hknown.sites o (List.mem_reverse.1 ho)
  exact ⟨hname, List.mem_reverse.2 hmem⟩

/-- No name is declared twice. -/
theorem declared_nodup : (resolve reserved os).declared.Nodup :=
  List.nodup_reverse.2 ((ScopeState.Known.initial reserved).walk (.start os)).1.nodup

/-- No declared name is reserved. -/
theorem not_reserved_of_declared {name : Name} (h : name ∈ (resolve reserved os).declared) :
    reserved.contains name = false :=
  ((ScopeState.Known.initial reserved).walk (.start os)).1.free name (List.mem_reverse.1 h)

end
end LuaVeil
