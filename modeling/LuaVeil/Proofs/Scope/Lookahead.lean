/-
# How far phrases are read

A phrase ends at the first occurrence that cannot belong to it, and no function
that moves over one looks further ahead than three occurrences. So what a phrase
is does not depend on the rest of the script, as long as the rest begins with
something that ends phrases.

Main statements:

* `Abreast.skipType`, `Abreast.names` and `Abreast.parameters`, a phrase that ends before
  the place where two scripts part is the same in both.
-/
import LuaVeil.Proofs.Scope.Types

namespace LuaVeil
namespace Cursor

/-! ## Two scripts that part -/

/--
What the second of two scripts may go on with, so that no phrase that has ended in the first goes on
in the second: two colons, or the mark with which the first goes on.
-/
structure Fork (rest rest' : List Occurrence) : Prop where
  first : firstMark rest' = some (.sign "::") ∨
    firstMark rest' = firstMark rest ∧ (firstMark rest).any ScopeState.leadsToField = false
  angle : ∀ k ∈ [1, 2], (start rest').sees k [">"] = true → (start rest).sees k [">"] = true
  equals : (firstMark rest').any (Mark.isSymbolOf ["="]) =
    (firstMark rest).any (Mark.isSymbolOf ["="])
  plain : rest = [] → ∀ angle, ∀ o ∈ rest', o.mark.isPlain angle = true

/--
Two places with the same occurrences behind them and, up to where the scripts part, ahead of them;
or the ends of both scripts.
-/
inductive Abreast (rest rest' : List Occurrence) : Cursor → Cursor → Prop
  | before (b f : Option Mark) (front : List Occurrence) :
    Abreast rest rest' ⟨b, f, front ++ rest⟩ ⟨b, f, front ++ rest'⟩
  | ended {c c' : Cursor} (hc : c.ahead = []) (hc' : c'.ahead = []) : Abreast rest rest' c c'

variable {rest rest' : List Occurrence} {c c' : Cursor}

/-! ## What both scripts have -/

/-- What lies ahead before the scripts part lies ahead in both. -/
theorem Abreast.cons (h : Abreast rest rest' c c') {o : Occurrence} {ahead : List Occurrence}
    (hc : c.ahead = o :: ahead) (hn : rest.length ≤ ahead.length) :
    ∃ ahead', c'.ahead = o :: ahead' ∧ c'.before = c.before ∧ c'.frame = c.frame ∧
      Abreast rest rest' (c.past o ahead) (c'.past o ahead') := by
  cases h with
  | ended hnil =>
    rw [hnil] at hc
    cases hc
  | before b f front =>
    cases front with
    | nil =>
      have hrest : rest = o :: ahead := hc
      rw [hrest, List.length_cons] at hn
      omega
    | cons p front =>
      obtain ⟨rfl, rfl⟩ := List.cons.inj hc
      exact ⟨front ++ rest', rfl, rfl, rfl, .before _ _ front⟩

/-- Where the first script goes on, the second goes on, or both have ended. -/
theorem Abreast.at_fork {b f : Option Mark} {d : Cursor} (h : Abreast rest rest' ⟨b, f, rest⟩ d) :
    d = ⟨b, f, rest'⟩ ∨ rest = [] ∧ d.ahead = [] := by
  generalize hc : (⟨b, f, rest⟩ : Cursor) = c at h
  cases h with
  | ended hnil hnil' =>
    subst hc
    exact .inr ⟨hnil, hnil'⟩
  | before b' f' front =>
    obtain ⟨rfl, rfl, hahead⟩ := Cursor.mk.inj hc
    obtain rfl := List.append_left_eq_self.1 hahead.symm
    exact .inl rfl

theorem Abreast.peek (h : Abreast rest rest' c c') {k : Nat} (hk : k + rest.length < c.ahead.length) :
    c'.peek k = c.peek k := by
  cases h with
  | ended hc => simp [hc] at hk
  | before b f front =>
    rw [List.length_append] at hk
    have hfront : k < front.length := by omega
    simp [Cursor.peek, List.getElem?_append_left hfront]

theorem Abreast.sees (h : Abreast rest rest' c c') {k : Nat} {symbols : List String}
    (hs : c.sees k symbols = true) (hk : k + rest.length < c.ahead.length) :
    c'.sees k symbols = true := by
  rw [Cursor.sees, h.peek hk]
  exact hs

theorem Abreast.advance (h : Abreast rest rest' c c') (hn : rest.length < c.ahead.length) :
    Abreast rest rest' c.advance c'.advance := by
  cases hc : c.ahead with
  | nil => simp [hc] at hn
  | cons o ahead =>
    rw [hc, List.length_cons] at hn
    obtain ⟨ahead', hc', -, -, hnext⟩ := h.cons hc (Nat.le_of_lt_succ hn)
    simpa only [Cursor.advance, hc, hc'] using hnext

theorem Abreast.advanceBy (h : Abreast rest rest' c c') (k : Nat)
    (hk : rest.length + k ≤ c.ahead.length) :
    Abreast rest rest' (c.advanceBy k) (c'.advanceBy k) := by
  induction k with
  | zero => exact h
  | succ k ih =>
    refine (ih (by omega)).advance ?_
    rw [length_advanceBy]
    omega

/-- A field or method, if one follows and is passed, is passed in both scripts. -/
theorem Abreast.field (h : Abreast rest rest' c c') {symbols : List String}
    (hs : c.sees 0 symbols = true ∧ c.seesWord 1 = true)
    (hn : rest.length ≤ (c.advanceBy 2).ahead.length) :
    (c'.sees 0 symbols = true ∧ c'.seesWord 1 = true) ∧
      Abreast rest rest' (c.advanceBy 2) (c'.advanceBy 2) := by
  have htwo := lt_of_seesWord hs.2
  rw [length_advanceBy] at hn
  refine ⟨⟨h.sees hs.1 (by omega), ?_⟩, h.advanceBy 2 (by omega)⟩
  rw [seesWord_eq, h.peek (by omega), ← seesWord_eq]
  exact hs.2

theorem Abreast.name? (h : Abreast rest rest' c c') {o : Occurrence} {d : Cursor}
    (hd : c.name? = some (o, d)) (hn : rest.length ≤ d.ahead.length) :
    ∃ d', c'.name? = some (o, d') ∧ Abreast rest rest' d d' := by
  unfold Cursor.name? at hd
  split at hd
  · cases hd
  · next o' ahead hc =>
    split at hd
    · next hname =>
      obtain ⟨rfl, rfl⟩ := Prod.mk.inj (Option.some.inj hd)
      obtain ⟨ahead', hc', -, -, hnext⟩ := h.cons hc hn
      exact ⟨_, by simp [Cursor.name?, hc', hname], hnext⟩
    · cases hd

section Fork

variable (hfork : Fork rest rest')

include hfork

theorem Abreast.firstMark_eq (h : Abreast rest rest' c c') :
    firstMark c'.ahead = some (.sign "::") ∨ firstMark c'.ahead = firstMark c.ahead := by
  cases h with
  | ended hc hc' => exact .inr (by rw [hc, hc'])
  | before b f front =>
    cases front with
    | nil => exact hfork.first.imp_right And.left
    | cons o front => exact .inr rfl

theorem Abreast.equals_eq (h : Abreast rest rest' c c') :
    (firstMark c'.ahead).any (Mark.isSymbolOf ["="]) =
      (firstMark c.ahead).any (Mark.isSymbolOf ["="]) := by
  cases h with
  | ended hc hc' => rw [hc, hc']
  | before b f front =>
    cases front with
    | nil => exact hfork.equals
    | cons o front => rfl

/-- What the first script does not go on with, the second does not go on with. -/
theorem Abreast.first_eq_false (h : Abreast rest rest' c c') {p : Mark → Bool}
    (hp : (firstMark c.ahead).any p = false) (hcolons : p (.sign "::") = false) :
    (firstMark c'.ahead).any p = false := by
  rcases h.firstMark_eq hfork with hfirst | hfirst
  · rw [hfirst]
    exact hcolons
  · rw [hfirst]
    exact hp

theorem Abreast.not_sees (h : Abreast rest rest' c c') {symbols : List String}
    (hs : c.sees 0 symbols = false) (hcolons : (Mark.sign "::").isSymbolOf symbols = false) :
    c'.sees 0 symbols = false := by
  rw [sees_zero] at hs ⊢
  exact h.first_eq_false hfork hs hcolons

/-- Where no field follows in the first script, none follows in the second. -/
theorem Abreast.not_seesField (h : Abreast rest rest' c c') {symbols : List String}
    (hsub : symbols ⊆ [".", ":"]) (hs : ¬ (c.sees 0 symbols = true ∧ c.seesWord 1 = true)) :
    ¬ (c'.sees 0 symbols = true ∧ c'.seesWord 1 = true) := by
  rintro ⟨hsign, hword⟩
  have hcolons : (some (Mark.sign "::")).any (Mark.isSymbolOf symbols) = false :=
    any_isSymbolOf_of_subset (by decide) symbols hsub
  have hfirst : c.sees 0 symbols = true := by
    cases hfirst : c.sees 0 symbols with
    | true => rfl
    | false =>
      rw [h.not_sees hfork hfirst hcolons] at hsign
      cases hsign
  refine hs ⟨hfirst, ?_⟩
  rw [seesWord_eq] at hword ⊢
  cases h with
  | ended hc => simp [sees_zero, hc] at hfirst
  | before b f front =>
    match front with
    | [] =>
      have hnone : (firstMark rest').any (Mark.isSymbolOf symbols) = false := by
        rcases hfork.first with hfirst' | ⟨hfirst', hfield⟩
        · rw [hfirst', hcolons]
        · rw [hfirst']
          exact any_isSymbolOf_of_subset hfield symbols hsub
      rw [sees_zero, List.nil_append, hnone] at hsign
      cases hsign
    | [o] =>
      rw [List.singleton_append, peek_one rfl] at hword ⊢
      rcases hfork.first with hfirst' | ⟨hfirst', -⟩
      · rw [hfirst'] at hword
        cases hword
      · rwa [hfirst'] at hword
    | o :: p :: front => exact hword

/-! ## Brackets and types -/

theorem Abreast.skipBalanced (h : Abreast rest rest' c c') (angle : Bool) (depth : Nat)
    (hn : rest.length ≤ (c.skipBalanced angle depth).ahead.length) :
    Abreast rest rest' (c.skipBalanced angle depth) (c'.skipBalanced angle depth) := by
  fun_induction Cursor.skipBalanced angle depth c generalizing c' with
  | case1 depth c hc =>
    refine .ended hc (ahead_skipBalanced_of_plain angle depth ?_)
    cases h with
    | ended hc hc' => simp [hc']
    | before b f front =>
      obtain ⟨rfl, hrest⟩ := List.append_eq_nil_iff.1 hc
      exact hfork.plain hrest angle
  | case2 depth c o ahead hc next hopen =>
    rename_i ih
    obtain ⟨ahead', hc', -, -, hnext⟩ :=
      h.cons hc (Nat.le_trans hn (length_skipBalanced_le angle (depth + 1) next))
    rw [skipBalanced_cons hc', openers, if_pos (by simpa using hopen)]
    exact ih hnext hn
  | case3 depth c o ahead hc next hopen hclose =>
    rename_i hdepth
    obtain ⟨ahead', hc', -, -, hnext⟩ := h.cons hc hn
    rw [skipBalanced_cons hc', openers, if_neg (by simpa using hopen), closers,
      if_pos (by simpa using hclose), if_pos hdepth]
    exact hnext
  | case4 depth c o ahead hc next hopen hclose hdepth =>
    rename_i ih
    obtain ⟨ahead', hc', -, -, hnext⟩ :=
      h.cons hc (Nat.le_trans hn (length_skipBalanced_le angle (depth - 1) next))
    rw [skipBalanced_cons hc', openers, if_neg (by simpa using hopen), closers,
      if_pos (by simpa using hclose), if_neg hdepth]
    exact ih hnext hn
  | case5 depth c o ahead hc next hopen hclose =>
    rename_i ih
    obtain ⟨ahead', hc', -, -, hnext⟩ :=
      h.cons hc (Nat.le_trans hn (length_skipBalanced_le angle depth next))
    rw [skipBalanced_cons hc', openers, if_neg (by simpa using hopen), closers,
      if_neg (by simpa using hclose)]
    exact ih hnext hn

theorem Abreast.skipPath (h : Abreast rest rest' c c') (hn : rest.length ≤ c.skipPath.ahead.length) :
    Abreast rest rest' c.skipPath c'.skipPath := by
  fun_induction Cursor.skipPath c generalizing c' with
  | case1 c hs ih =>
    obtain ⟨hs', hnext⟩ := h.field hs (Nat.le_trans hn (length_skipPath_le _))
    rw [Cursor.skipPath.eq_1 c', dif_pos hs']
    exact ih hnext hn
  | case2 c hs =>
    rw [Cursor.skipPath.eq_1 c', dif_neg (h.not_seesField hfork (by simp) hs)]
    exact h

theorem Abreast.skipFields (h : Abreast rest rest' c c')
    (hn : rest.length ≤ c.skipFields.ahead.length) :
    Abreast rest rest' c.skipFields c'.skipFields := by
  fun_induction Cursor.skipFields c generalizing c' with
  | case1 c hs ih =>
    obtain ⟨hs', hnext⟩ := h.field hs (Nat.le_trans hn (length_skipFields_le _))
    rw [Cursor.skipFields.eq_1 c', dif_pos hs']
    exact ih hnext hn
  | case2 c hs =>
    rw [Cursor.skipFields.eq_1 c', dif_neg (h.not_seesField hfork (by simp) hs)]
    exact h

theorem Abreast.skipOptional (h : Abreast rest rest' c c')
    (hn : rest.length ≤ c.skipOptional.ahead.length) :
    Abreast rest rest' c.skipOptional c'.skipOptional := by
  fun_induction Cursor.skipOptional c generalizing c' with
  | case1 c hs ih =>
    have hlt : rest.length < c.ahead.length := by
      have := lt_of_sees hs
      have := length_skipOptional_le c.advance
      rw [length_advance] at this
      omega
    rw [Cursor.skipOptional.eq_1 c', dif_pos (h.sees hs (by omega))]
    exact ih (h.advance hlt) hn
  | case2 c hs =>
    rw [Cursor.skipOptional.eq_1 c',
      dif_neg (Bool.eq_false_iff.1 (h.not_sees hfork (Bool.eq_false_iff.2 hs) (by decide)))]
    exact h

theorem Abreast.skipTypeArguments (h : Abreast rest rest' c c') (name : Text)
    (hn : rest.length ≤ (c.skipTypeArguments name).ahead.length) :
    Abreast rest rest' (c.skipTypeArguments name) (c'.skipTypeArguments name) := by
  unfold Cursor.skipTypeArguments at hn ⊢
  split at hn
  · next hs =>
    rw [if_pos hs, if_pos (h.sees hs (lt_of_skipBalanced hs hn))]
    exact h.skipBalanced hfork true 0 hn
  · next hs =>
    rw [if_neg hs,
      if_neg (Bool.eq_false_iff.1 (h.not_sees hfork (Bool.eq_false_iff.2 hs) (by decide)))]
    split at hn
    · next hs' =>
      rw [if_pos hs', if_pos ⟨hs'.1, h.sees hs'.2 (lt_of_skipBalanced hs'.2 hn)⟩]
      exact h.skipBalanced hfork false 0 hn
    · next hs' =>
      rw [if_neg hs', if_neg]
      · exact h
      · rintro ⟨hname, hopen⟩
        rw [h.not_sees hfork (Bool.eq_false_iff.2 fun hs => hs' ⟨hname, hs⟩) (by decide)] at hopen
        cases hopen

theorem Abreast.skipSimpleType? (h : Abreast rest rest' c c') {d : Cursor}
    (hd : c.skipSimpleType? = some d) (hn : rest.length ≤ d.ahead.length) :
    ∃ d', c'.skipSimpleType? = some d' ∧ Abreast rest rest' d d' := by
  have hlt := length_skipSimpleType?_lt hd
  cases hc : c.ahead with
  | nil => simp [hc] at hlt
  | cons o ahead =>
    rw [hc, List.length_cons] at hlt
    obtain ⟨ahead', hc', -, -, hnext⟩ := h.cons hc (by omega)
    simp only [Cursor.skipSimpleType?, hc] at hd
    simp only [Cursor.skipSimpleType?, hc']
    cases hmark : o.mark with
    | word name =>
      simp only [hmark, Option.some.injEq] at hd ⊢
      subst hd
      exact ⟨_, rfl, (hnext.skipPath hfork
        (Nat.le_trans hn (length_skipTypeArguments_le _ _))).skipTypeArguments hfork name hn⟩
    | string =>
      simp only [hmark, Option.some.injEq] at hd ⊢
      subst hd
      exact ⟨_, rfl, hnext⟩
    | number => simp [hmark] at hd
    | symbol s =>
      simp only [hmark] at hd ⊢
      split at hd
      · next hopen =>
        rw [if_pos hopen]
        obtain rfl := Option.some.inj hd
        exact ⟨_, rfl, h.skipBalanced hfork false 0 hn⟩
      · next hopen =>
        rw [if_neg hopen]
        split at hd
        · next hdots =>
          rw [if_pos hdots]
          obtain rfl := Option.some.inj hd
          exact ⟨_, rfl, hnext⟩
        · cases hd

theorem Abreast.skipType (h : Abreast rest rest' c c') (hn : rest.length ≤ c.skipType.ahead.length) :
    Abreast rest rest' c.skipType c'.skipType := by
  fun_induction Cursor.skipType c generalizing c' with
  | case1 c hnone =>
    have hnone' : c'.skipSimpleType? = none := skipSimpleType?_eq_none.2
      (h.first_eq_false hfork (skipSimpleType?_eq_none.1 hnone) (by decide))
    rw [skipType_of_none hnone']
    exact h
  | case2 c d hd e hs =>
    rename_i ih
    have hlt : rest.length < e.ahead.length := by
      have hadvance := length_skipType_le e.advance
      have := lt_of_sees hs
      rw [length_advance] at hadvance
      omega
    obtain ⟨d', hd', habreast⟩ :=
      h.skipSimpleType? hfork hd (Nat.le_trans (Nat.le_of_lt hlt) (length_skipOptional_le d))
    have he := habreast.skipOptional hfork (Nat.le_of_lt hlt)
    rw [skipType_eq hd', if_pos (he.sees hs (by simpa using hlt))]
    exact ih (he.advance hlt) hn
  | case3 c d hd e =>
    rename_i hs
    obtain ⟨d', hd', habreast⟩ :=
      h.skipSimpleType? hfork hd (Nat.le_trans hn (length_skipOptional_le d))
    have he := habreast.skipOptional hfork hn
    rw [skipType_eq hd',
      if_neg (Bool.eq_false_iff.1 (he.not_sees hfork (Bool.eq_false_iff.2 hs) (by decide)))]
    exact he

theorem Abreast.skipAscription (h : Abreast rest rest' c c')
    (hn : rest.length ≤ c.skipAscription.ahead.length) :
    Abreast rest rest' c.skipAscription c'.skipAscription := by
  unfold Cursor.skipAscription at hn ⊢
  split at hn
  · next hs =>
    have hlt : rest.length < c.ahead.length := by
      have hadvance := length_skipType_le c.advance
      have := lt_of_sees hs
      rw [length_advance] at hadvance
      omega
    rw [if_pos hs, if_pos (h.sees hs (by omega))]
    exact (h.advance hlt).skipType hfork hn
  · next hs =>
    rw [if_neg hs,
      if_neg (Bool.eq_false_iff.1 (h.not_sees hfork (Bool.eq_false_iff.2 hs) (by decide)))]
    exact h

/-! ## Names and parameters -/

/-- An attribute that the first script does not have, the second does not have. -/
theorem Abreast.not_seesAttribute (h : Abreast rest rest' c c')
    (hs : ¬ (c.sees 0 ["<"] = true ∧ c.sees 2 [">"] = true)) :
    ¬ (c'.sees 0 ["<"] = true ∧ c'.sees 2 [">"] = true) := by
  rintro ⟨hopen, hclose⟩
  refine hs ⟨?_, ?_⟩
  · cases hopen' : c.sees 0 ["<"] with
    | true => rfl
    | false =>
      rw [h.not_sees hfork hopen' (by decide)] at hopen
      cases hopen
  · cases h with
    | ended hc hc' =>
      obtain ⟨o, ho, -⟩ := sees_iff.1 hclose
      simp [hc'] at ho
    | before b f front =>
      -- Of what follows the fork only the first three marks are looked at.
      match front with
      | [] => exact hfork.angle 2 (by simp) hclose
      | [_] => exact hfork.angle 1 (by simp) hclose
      | [p, q] =>
        have hfirst : (after f rest').sees 0 [">"] = true := hclose
        show (after f rest).sees 0 [">"] = true
        rw [sees_after] at hfirst ⊢
        rcases hfork.first with hfirst' | ⟨hfirst', -⟩
        · rw [hfirst'] at hfirst
          cases hfirst
        · rwa [hfirst'] at hfirst
      | _ :: _ :: _ :: front => exact hclose

theorem Abreast.skipAttribute (h : Abreast rest rest' c c')
    (hn : rest.length ≤ c.skipAttribute.ahead.length) :
    Abreast rest rest' c.skipAttribute c'.skipAttribute := by
  unfold Cursor.skipAttribute at hn ⊢
  split at hn
  · next hs =>
    have := lt_of_sees hs.2
    rw [length_advanceBy] at hn
    rw [if_pos hs, if_pos ⟨h.sees hs.1 (by omega), h.sees hs.2 (by omega)⟩]
    exact h.advanceBy 3 (by omega)
  · next hs =>
    rw [if_neg hs, if_neg (h.not_seesAttribute hfork hs)]
    exact h

theorem Abreast.name?_none (h : Abreast rest rest' c c') (hnone : c.name? = none) :
    c'.name? = none :=
  name?_eq_none.2 (h.first_eq_false hfork (name?_eq_none.1 hnone) rfl)

theorem Abreast.names (h : Abreast rest rest' c c') (hn : rest.length ≤ c.names.2.ahead.length) :
    c'.names.1 = c.names.1 ∧ Abreast rest rest' c.names.2 c'.names.2 := by
  fun_induction Cursor.names c generalizing c' with
  | case1 c hnone =>
    rw [names_of_none (h.name?_none hfork hnone)]
    exact ⟨rfl, h⟩
  | case2 c o d hd e hs more last hm =>
    rename_i ih
    rw [hm] at ih
    have hlt : rest.length < e.ahead.length := by
      have hmore := length_names_le e.advance
      have := lt_of_sees hs
      rw [hm, length_advance] at hmore
      dsimp only at hmore hn
      omega
    have hle : e.ahead.length ≤ d.skipAttribute.ahead.length := length_skipAscription_le _
    obtain ⟨d', hd', habreast⟩ := h.name? hd (by have := length_skipAttribute_le d; omega)
    have he := (habreast.skipAttribute hfork (by omega)).skipAscription hfork (Nat.le_of_lt hlt)
    obtain ⟨hmore, hlast⟩ := ih (he.advance hlt) hn
    rw [names_of_name hd', if_pos (he.sees hs (by simpa using hlt))]
    exact ⟨congrArg (o :: ·) hmore, hlast⟩
  | case3 c o d hd e =>
    rename_i hs
    have hle : e.ahead.length ≤ d.skipAttribute.ahead.length := length_skipAscription_le _
    have hn' : rest.length ≤ e.ahead.length := hn
    obtain ⟨d', hd', habreast⟩ := h.name? hd (by have := length_skipAttribute_le d; omega)
    have he := (habreast.skipAttribute hfork (by omega)).skipAscription hfork hn'
    rw [names_of_name hd',
      if_neg (Bool.eq_false_iff.1 (he.not_sees hfork (Bool.eq_false_iff.2 hs) (by decide)))]
    exact ⟨rfl, he⟩

theorem Abreast.parameterNames_stop (h : Abreast rest rest' c c')
    (hname : (firstMark c.ahead).any Mark.isName = false)
    (hclose : (firstMark c.ahead).any (Mark.isSymbolOf [")"]) = false)
    (hlist : (firstMark c.ahead).any (Mark.isSymbolOf ["...", ","]) = false) :
    c'.parameterNames = ([], c') :=
  Cursor.parameterNames_stop (h.first_eq_false hfork hname rfl)
    (h.first_eq_false hfork hclose (by decide)) (h.first_eq_false hfork hlist (by decide))

theorem Abreast.parameterNames (h : Abreast rest rest' c c')
    (hn : rest.length ≤ c.parameterNames.2.ahead.length) :
    c'.parameterNames.1 = c.parameterNames.1 ∧
      Abreast rest rest' c.parameterNames.2 c'.parameterNames.2 := by
  fun_induction Cursor.parameterNames c generalizing c' with
  | case1 c hc =>
    rw [h.parameterNames_stop hfork (by simp [hc]) (by simp [hc]) (by simp [hc])]
    exact ⟨rfl, h⟩
  | case2 c o ahead hc next hname more last hm =>
    rename_i ih
    rw [hm] at ih
    have hle : last.ahead.length ≤ next.skipAscription.ahead.length := by
      have := length_parameterNames_le next.skipAscription
      rwa [hm] at this
    have hn' := Nat.le_trans hn hle
    obtain ⟨ahead', hc', -, -, hnext⟩ :=
      h.cons hc (Nat.le_trans hn' (length_skipAscription_le next))
    obtain ⟨hmore, hlast⟩ := ih (hnext.skipAscription hfork hn') hn
    rw [parameterNames_cons hc', if_pos hname]
    exact ⟨congrArg (o :: ·) hmore, hlast⟩
  | case3 c o ahead hc next hname =>
    rename_i hclose
    obtain ⟨ahead', hc', -, -, hnext⟩ := h.cons hc hn
    rw [parameterNames_cons hc', if_neg hname, if_pos hclose]
    exact ⟨rfl, hnext⟩
  | case4 c o ahead hc next hname hclose hlist =>
    rename_i ih
    have hn' := Nat.le_trans hn (length_parameterNames_le next.skipAscription)
    obtain ⟨ahead', hc', -, -, hnext⟩ :=
      h.cons hc (Nat.le_trans hn' (length_skipAscription_le next))
    rw [parameterNames_cons hc', if_neg hname, if_neg hclose, if_pos hlist]
    exact ih (hnext.skipAscription hfork hn') hn
  | case5 c o ahead hc hname hclose hlist =>
    rw [h.parameterNames_stop hfork (by simpa [hc] using hname) (by simpa [hc] using hclose)
      (by simpa [hc] using hlist)]
    exact ⟨rfl, h⟩

theorem Abreast.skipGenerics (h : Abreast rest rest' c c')
    (hn : rest.length ≤ c.skipGenerics.ahead.length) :
    Abreast rest rest' c.skipGenerics c'.skipGenerics := by
  unfold Cursor.skipGenerics at hn ⊢
  split at hn
  · next hs =>
    rw [if_pos hs, if_pos (h.sees hs (lt_of_skipBalanced hs hn))]
    exact h.skipBalanced hfork true 0 hn
  · next hs =>
    rw [if_neg hs,
      if_neg (Bool.eq_false_iff.1 (h.not_sees hfork (Bool.eq_false_iff.2 hs) (by decide)))]
    exact h

theorem Abreast.parameters (h : Abreast rest rest' c c')
    (hn : rest.length ≤ c.parameters.2.ahead.length) :
    c'.parameters.1 = c.parameters.1 ∧ Abreast rest rest' c.parameters.2 c'.parameters.2 := by
  unfold Cursor.parameters at hn ⊢
  dsimp only at hn ⊢
  split at hn
  · next hs =>
    have hnames := length_parameterNames_le c.skipGenerics.advance
    have hreturn := length_skipAscription_le c.skipGenerics.advance.parameterNames.2
    have := lt_of_sees hs
    rw [length_advance] at hnames
    dsimp only at hn
    have hlt : rest.length < c.skipGenerics.ahead.length := by omega
    have hd := h.skipGenerics hfork (Nat.le_of_lt hlt)
    obtain ⟨hsame, hlast⟩ := (hd.advance hlt).parameterNames hfork (Nat.le_trans hn hreturn)
    rw [if_pos hs, if_pos (hd.sees hs (by omega))]
    exact ⟨hsame, hlast.skipAscription hfork hn⟩
  · next hs =>
    have hd := h.skipGenerics hfork hn
    rw [if_neg hs,
      if_neg (Bool.eq_false_iff.1 (hd.not_sees hfork (Bool.eq_false_iff.2 hs) (by decide)))]
    exact ⟨rfl, hd⟩

end Fork

end Cursor
end LuaVeil
