/-
# Where a walk stands

A walk passes a script in steps, and a step that begins a phrase passes the whole
phrase. The places between the steps are those where the walk stands; only there a
script can be changed so that one can tell what the walk makes of it.

Main statements:

* `parallel_step`, a step that ends before two scripts part is the same in both;
* `LeadsTo.parallel`, so is a walk up to a place where it stands;
* `LeadsTo.notes`, what is known where a walk stands.
-/
import LuaVeil.Proofs.Scope.Lookahead
import LuaVeil.Proofs.Scope.Order

namespace LuaVeil

/-! ## Steps -/

namespace ScopeState

open Cursor

variable {rest rest' : List Occurrence} {c c' : Cursor} {reserved : Reserved} {s : ScopeState}

/-- What a reader leads to from one place, another leads to from a place abreast. -/
def Parallel (rest rest' : List Occurrence) (r r' : ScopeState × Cursor) : Prop :=
  r'.1 = r.1 ∧ Abreast rest rest' r.2 r'.2

section Fork

variable (hfork : Fork rest rest')

include hfork

theorem parallel_enterFunction (h : Abreast rest rest' c c')
    (hn : rest.length ≤ (s.enterFunction reserved c).2.ahead.length) :
    Parallel rest rest' (s.enterFunction reserved c) (s.enterFunction reserved c') := by
  obtain ⟨hnames, hlast⟩ := h.parameters hfork hn
  refine ⟨?_, hlast⟩
  simp only [enterFunction, hnames]

theorem parallel_localFunction (h : Abreast rest rest' c c')
    (hn : rest.length ≤ (s.localFunction reserved c).2.ahead.length) :
    Parallel rest rest' (s.localFunction reserved c) (s.localFunction reserved c') := by
  unfold localFunction at hn ⊢
  cases hc : c.name? with
  | none =>
    rw [h.name?_none hfork hc]
    simp only [hc] at hn ⊢
    exact parallel_enterFunction hfork h hn
  | some r =>
    obtain ⟨o, d⟩ := r
    simp only [hc] at hn ⊢
    obtain ⟨d', hd', habreast⟩ := h.name? hc (Nat.le_trans hn (length_enterFunction_le _ _ _))
    rw [hd']
    exact parallel_enterFunction hfork habreast hn

theorem parallel_function (h : Abreast rest rest' c c')
    (hn : rest.length ≤ (s.function reserved c).2.ahead.length) :
    Parallel rest rest' (s.function reserved c) (s.function reserved c') := by
  unfold function at hn ⊢
  cases hc : c.name? with
  | none =>
    rw [h.name?_none hfork hc]
    simp only [hc] at hn ⊢
    exact parallel_enterFunction hfork h hn
  | some r =>
    obtain ⟨o, d⟩ := r
    simp only [hc] at hn ⊢
    have hfields := Nat.le_trans hn (length_enterFunction_le _ _ _)
    obtain ⟨d', hd', habreast⟩ := h.name? hc (Nat.le_trans hfields (length_skipFields_le d))
    rw [hd']
    exact parallel_enterFunction hfork (habreast.skipFields hfork hfields) hn

theorem parallel_localNames (h : Abreast rest rest' c c')
    (hn : rest.length ≤ (s.localNames reserved c).2.ahead.length) :
    Parallel rest rest' (s.localNames reserved c) (s.localNames reserved c') := by
  have hle : (s.localNames reserved c).2.ahead.length ≤ c.names.2.ahead.length := by
    unfold localNames
    dsimp only
    split
    · exact length_advance_le _
    · exact Nat.le_refl _
  obtain ⟨hnames, hlast⟩ := h.names hfork (Nat.le_trans hn hle)
  unfold localNames at hn ⊢
  dsimp only at hn ⊢
  rw [hnames]
  split at hn
  · next hs =>
    have hlt : rest.length < c.names.2.ahead.length := by
      have := lt_of_sees hs
      rw [length_advance] at hn
      omega
    rw [if_pos hs, if_pos (hlast.sees hs (by omega))]
    exact ⟨rfl, hlast.advance hlt⟩
  · next hs =>
    rw [if_neg hs,
      if_neg (Bool.eq_false_iff.1 (hlast.not_sees hfork (Bool.eq_false_iff.2 hs) (by decide)))]
    exact ⟨rfl, hlast⟩

theorem parallel_loopNames (h : Abreast rest rest' c c')
    (hn : rest.length ≤ (s.loopNames reserved c).2.ahead.length) :
    Parallel rest rest' (s.loopNames reserved c) (s.loopNames reserved c') := by
  obtain ⟨hnames, hlast⟩ := h.names hfork hn
  refine ⟨?_, hlast⟩
  simp only [loopNames, hnames]

theorem parallel_atKeyword (h : Abreast rest rest' c c') (word : Text) (branch : Bool)
    (before : Option Mark)
    (hn : rest.length ≤ (s.atKeyword reserved word branch before c).2.ahead.length) :
    Parallel rest rest' (s.atKeyword reserved word branch before c)
      (s.atKeyword reserved word branch before c') := by
  unfold atKeyword at hn ⊢
  split at hn
  · next hlocal =>
    rw [if_pos hlocal, if_pos hlocal]
    split at hn
    · next hfunction =>
      obtain ⟨m, hm, -⟩ := (Option.any_eq_true _ _).1 hfunction
      have hlength := length_localFunction_le reserved s c.advance
      have := lt_of_peek hm
      rw [length_advance] at hlength
      rw [if_pos hfunction, h.peek (by omega), if_pos hfunction]
      exact parallel_localFunction hfork (h.advance (by omega)) hn
    · next hfunction =>
      rw [Bool.not_eq_true, peek_zero] at hfunction
      have hfunction' := h.first_eq_false hfork hfunction rfl
      rw [peek_zero, peek_zero, hfunction, hfunction']
      exact parallel_localNames hfork h hn
  next hlocal =>
  rw [if_neg hlocal, if_neg hlocal]
  split at hn
  · next hfor =>
    rw [if_pos hfor, if_pos hfor]
    exact parallel_loopNames hfork h hn
  next hfor =>
  rw [if_neg hfor, if_neg hfor]
  split at hn
  · next hfunction =>
    rw [if_pos hfunction, if_pos hfunction]
    exact parallel_function hfork h hn
  · next hfunction =>
    rw [if_neg hfunction, if_neg hfunction]
    exact ⟨rfl, h⟩

theorem parallel_atSymbol (h : Abreast rest rest' c c') (symbol : Text)
    (hn : rest.length ≤ (s.atSymbol symbol c).2.ahead.length) :
    Parallel rest rest' (s.atSymbol symbol c) (s.atSymbol symbol c') := by
  unfold atSymbol at hn ⊢
  dsimp only at hn ⊢
  split at hn
  · next hopen =>
    rw [if_pos hopen, if_pos hopen]
    exact ⟨rfl, h⟩
  next hopen =>
  rw [if_neg hopen, if_neg hopen]
  split at hn
  · next hclose =>
    rw [if_pos hclose, if_pos hclose]
    exact ⟨rfl, h⟩
  next hclose =>
  rw [if_neg hclose, if_neg hclose]
  split at hn
  · next hcolons =>
    rw [if_pos hcolons, if_pos hcolons]
    exact ⟨rfl, h.skipType hfork hn⟩
  · next hcolons =>
    rw [if_neg hcolons, if_neg hcolons]
    exact ⟨rfl, h⟩

/-- A name is the key of a field in both scripts or in none. -/
theorem isConstructorKey_eq {o : Occurrence} {ahead ahead' : List Occurrence}
    (hframe : c'.frame = c.frame) (hc : c.ahead = o :: ahead) (hc' : c'.ahead = o :: ahead')
    (h : Abreast rest rest' (c.past o ahead) (c'.past o ahead')) :
    s.isConstructorKey c' = s.isConstructorKey c := by
  have hsees : c'.sees 1 ["="] = c.sees 1 ["="] := by
    rw [sees_one hc, sees_one hc']
    exact h.equals_eq hfork
  rw [isConstructorKey, isConstructorKey, hframe, hsees]

/-- A step that ends before the scripts part is the same in both. -/
theorem parallel_step (h : Abreast rest rest' c c') {o : Occurrence} {ahead : List Occurrence}
    (hc : c.ahead = o :: ahead)
    (hn : rest.length ≤ (s.step reserved c o (c.past o ahead)).2.ahead.length) :
    ∃ ahead', c'.ahead = o :: ahead' ∧
      Parallel rest rest' (s.step reserved c o (c.past o ahead))
        (s.step reserved c' o (c'.past o ahead')) := by
  obtain ⟨ahead', hc', hbefore, hframe, hnext⟩ :=
    h.cons hc (Nat.le_trans hn (length_step_le reserved s c o (c.past o ahead)))
  refine ⟨ahead', hc', ?_⟩
  cases hmark : o.mark with
  | word w =>
    cases hname : o.mark.isName with
    | true =>
      rw [step_of_name hname, step_of_name hname, hframe]
      refine ⟨?_, hnext⟩
      simp only [atName, hbefore, isConstructorKey_eq hfork hframe hc hc' hnext]
    | false =>
      rw [step_of_keyword hmark hname] at hn ⊢
      rw [step_of_keyword hmark hname, hframe]
      exact parallel_atKeyword hfork hnext _ _ _ hn
  | symbol t =>
    rw [step_of_symbol hmark] at hn ⊢
    rw [step_of_symbol hmark, hframe]
    exact parallel_atSymbol hfork hnext t hn
  | number =>
    rw [step_of_literal (.inl hmark), step_of_literal (.inl hmark), hframe]
    exact ⟨rfl, hnext⟩
  | string =>
    rw [step_of_literal (.inr hmark), step_of_literal (.inr hmark), hframe]
    exact ⟨rfl, hnext⟩

end Fork

/-! ## Walks -/

/-- Whether a walk that is at `c` in the state `s` stands later at `d` in the state `t`. -/
inductive LeadsTo (reserved : Reserved) : ScopeState → Cursor → ScopeState → Cursor → Prop
  | here (s : ScopeState) (c : Cursor) : LeadsTo reserved s c s c
  | hole {s t : ScopeState} {c d : Cursor} {o : Occurrence} {ahead : List Occurrence} :
    c.ahead = o :: ahead → o.inHole = true →
      LeadsTo reserved (s.atHole c o) (c.past o ahead) t d → LeadsTo reserved s c t d
  | step {s t : ScopeState} {c d : Cursor} {o : Occurrence} {ahead : List Occurrence} :
    c.ahead = o :: ahead → o.inHole = false →
      LeadsTo reserved (s.step reserved c o (c.past o ahead)).1
        (s.step reserved c o (c.past o ahead)).2 t d → LeadsTo reserved s c t d

namespace LeadsTo

variable {t : ScopeState} {d : Cursor}

/-- A walk stands where a step leads to. -/
theorem of_step {t' : ScopeState} {d' : Cursor} {o : Occurrence} {os : List Occurrence}
    (hc : c.ahead = o :: os) (hhole : o.inHole = false)
    (hstep : s.step reserved c o (after (some o.mark) os) = (t', d'))
    (h : LeadsTo reserved t' d' t d) : LeadsTo reserved s c t d := by
  have hpast : c.past o os = after (some o.mark) os := by simp [Cursor.past, after, hhole]
  refine .step hc hhole ?_
  rwa [hpast, hstep]

theorem walk_eq (h : LeadsTo reserved s c t d) : s.walk reserved c = t.walk reserved d := by
  induction h with
  | here => rfl
  | hole hc hhole _ ih => rw [walk_cons hc, if_pos hhole, ih]
  | step hc hhole _ ih => rw [walk_cons hc, if_neg (by simp [hhole]), ih]

theorem length_le (h : LeadsTo reserved s c t d) : d.ahead.length ≤ c.ahead.length := by
  induction h with
  | here => exact Nat.le_refl _
  | hole hc _ _ ih =>
    rw [hc]
    exact Nat.le_succ_of_le ih
  | @step s t c d o ahead hc _ _ ih =>
    have hstep := length_step_le reserved s c o (c.past o ahead)
    rw [hc]
    exact Nat.le_succ_of_le (Nat.le_trans ih hstep)

/-- On the way to a place, a walk notes names among what it passes. -/
theorem notes (h : LeadsTo reserved s c t d) (hs : Known reserved s) : Notes reserved s c t d := by
  induction h with
  | here => exact .of_sites hs rfl .rfl
  | hole hc _ _ ih => exact (hs.atHole hc).trans (ih (hs.atHole hc).1)
  | step hc _ _ ih => exact (hs.step hc).trans (ih (hs.step hc).1)

/-- A place before the scripts part is come to in both. -/
theorem parallel (h : LeadsTo reserved s c t d) (hfork : Fork rest rest')
    (habreast : Abreast rest rest' c c') (hn : rest.length ≤ d.ahead.length) :
    ∃ d', LeadsTo reserved s c' t d' ∧ Abreast rest rest' d d' := by
  induction h generalizing c' with
  | here => exact ⟨c', .here _ _, habreast⟩
  | @hole s t c d o ahead hc hhole hleads ih =>
    obtain ⟨ahead', hc', hbefore, -, hnext⟩ := habreast.cons hc (Nat.le_trans hn hleads.length_le)
    obtain ⟨d', hd', hlast⟩ := ih hnext hn
    have hsame : s.atHole c' o = s.atHole c o := by rw [atHole, atHole, hbefore]
    exact ⟨d', .hole hc' hhole (hsame ▸ hd'), hlast⟩
  | @step s t c d o ahead hc hhole hleads ih =>
    obtain ⟨ahead', hc', hstate, hnext⟩ :=
      parallel_step hfork habreast hc (Nat.le_trans hn hleads.length_le)
    obtain ⟨d', hd', hlast⟩ := ih hnext hn
    exact ⟨d', .step hc' hhole (hstate ▸ hd'), hlast⟩

end LeadsTo

/-- Whether something holds at all places where a walk stands. -/
def everywhere (reserved : Reserved) (p : ScopeState → Cursor → Bool) (s : ScopeState)
    (c : Cursor) : Bool :=
  match _ : c.ahead with
  | [] => p s c
  | o :: ahead =>
    let next := c.past o ahead
    p s c &&
      if o.inHole then everywhere reserved p (s.atHole c o) next
      else
        let after := s.step reserved c o next
        everywhere reserved p after.1 after.2
termination_by c.ahead.length
decreasing_by
  · simp_all [Cursor.past]
  · have h := length_step_le reserved s c o (c.past o ahead)
    have h' : (c.past o ahead).ahead.length < c.ahead.length := by simp_all [Cursor.past]
    omega

theorem everywhere_cons {p : ScopeState → Cursor → Bool} {o : Occurrence}
    {ahead : List Occurrence} (hc : c.ahead = o :: ahead) :
    everywhere reserved p s c = (p s c &&
      if o.inHole then everywhere reserved p (s.atHole c o) (c.past o ahead)
      else everywhere reserved p (s.step reserved c o (c.past o ahead)).1
        (s.step reserved c o (c.past o ahead)).2) := by
  rw [everywhere]
  split
  · next h => simp [hc] at h
  · next o' ahead' h =>
    obtain ⟨rfl, rfl⟩ := List.cons.inj (hc.symm.trans h)
    rfl

/-- What holds everywhere holds where a walk stands. -/
theorem LeadsTo.of_everywhere {p : ScopeState → Cursor → Bool} {t : ScopeState} {d : Cursor}
    (h : LeadsTo reserved s c t d) (hp : everywhere reserved p s c = true) : p t d = true := by
  induction h with
  | @here s c =>
    cases hc : c.ahead with
    | nil =>
      rw [everywhere] at hp
      split at hp
      · exact hp
      · next h => simp [hc] at h
    | cons o ahead =>
      rw [everywhere_cons hc, Bool.and_eq_true] at hp
      exact hp.1
  | hole hc hhole _ ih =>
    rw [everywhere_cons hc, Bool.and_eq_true, if_pos hhole] at hp
    exact ih hp.2
  | step hc hhole _ ih =>
    rw [everywhere_cons hc, Bool.and_eq_true, if_neg (by simp [hhole])] at hp
    exact ih hp.2

end ScopeState
end LuaVeil
