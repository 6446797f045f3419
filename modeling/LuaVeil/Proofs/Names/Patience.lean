/-
# How long look-alike names are searched

The search for a look-alike name is a loop without a bound. Renaming gives it up
after `lookAlikePatience` rounds, and fails then. So it fails exactly if the loop
comes to a variable for which more rounds are needed, or for which it never ends.

Main statements:

* `LoopRuns.unique`, a loop ends in one way only;
* `bindAll_eq_none_iff` and `renameLocals_eq_none_iff`, when renaming fails;
* `outlasts_of_lt`, it fails if there are more variables than names;
* `not_outlasts_singleton`, one variable is found a name at once if none is taken.
-/
import LuaVeil.Proofs.Names.LookAlikes

namespace LuaVeil

namespace Minting

variable {σ α : Type} {body : σ → Minting (σ ⊕ α)} {s : σ} {m m' m'' : Mint} {k j : Nat} {a b : α}

theorem LoopRuns.pos (h : LoopRuns body s m k a m') : 0 < k := by
  cases h with
  | stop => exact Nat.one_pos
  | again => exact Nat.succ_pos _

/-- A loop ends in one way only. -/
theorem LoopRuns.unique (h : LoopRuns body s m k a m') (h' : LoopRuns body s m j b m'') :
    k = j ∧ a = b ∧ m' = m'' := by
  induction h generalizing j with
  | stop last =>
    cases h' with
    | stop last' =>
      cases last.symm.trans last'
      exact ⟨rfl, rfl, rfl⟩
    | again round' => cases last.symm.trans round'
  | again round _ ih =>
    cases h' with
    | stop last' => cases round.symm.trans last'
    | again round' more' =>
      cases round.symm.trans round'
      obtain ⟨rfl, hsame⟩ := ih more'
      exact ⟨rfl, hsame⟩

/-- A loop that does not end in its first round ends one round after that. -/
theorem lt_of_again {s' : σ} {limit : Nat} (round : body s m = (.inl s', m'))
    (h : ∀ k a m'', LoopRuns body s' m' k a m'' → limit < k) :
    ∀ k a m'', LoopRuns body s m k a m'' → limit + 1 < k := by
  intro k a m'' hrun
  cases hrun with
  | stop last => cases round.symm.trans last
  | again round' more =>
    cases round.symm.trans round'
    exact Nat.succ_lt_succ (h _ _ _ more)

end Minting

namespace Candidates

/-! ## One variable -/

/-- The counter of look-alike names does not move. -/
theorem found_high {n k : Nat} {m m' : Mint} {found : Name × Nat}
    (h : Minting.LoopRuns (searchRound .high) n m k found m') : found.2 = n := by
  have hround : ∀ {n : Nat} {m m' : Mint} {result : Nat ⊕ (Name × Nat)},
      searchRound .high n m = (result, m') → result.elim id Prod.snd = n := by
    intro n m m' result h
    rcases hnext : lookAlikes.next m.source with ⟨⟨drawn, next⟩, source⟩
    rw [searchRound_some (candidateAt_high hnext).2] at h
    split at h <;> cases h <;> rfl
  induction h with
  | stop last => exact hround last
  | again round _ ih => exact ih.trans (hround round)

/-- A search with some patience ends as the loop does, or the loop needs more rounds than that. -/
theorem claimWithin_lookAlikes (n tries : Nat) (m : Mint) :
    (∃ k ≤ tries, ∃ name m', claimWithin tries lookAlikes m = (some (name, lookAlikes), m') ∧
        Minting.LoopRuns (searchRound .high) n m k (name, n) m') ∨
      (claimWithin tries lookAlikes m).1 = none ∧
        ∀ k found m', Minting.LoopRuns (searchRound .high) n m k found m' → tries < k := by
  induction tries generalizing m with
  | zero => exact .inr ⟨rfl, fun k found m' hrun => hrun.pos⟩
  | succ tries ih =>
    rcases hnext : lookAlikes.next m.source with ⟨⟨name, next⟩, source⟩
    obtain ⟨rfl, hat⟩ := candidateAt_high (n := n) hnext
    have hround := searchRound_some hat
    rw [claimWithin_succ hnext]
    by_cases free : m.names.isAvailable name = true
    · rw [if_pos free] at hround ⊢
      exact .inl ⟨1, by omega, name, _, rfl, .stop hround⟩
    · rw [if_neg free] at hround ⊢
      obtain ⟨k, hk, found, m', hclaim, hrun⟩ | ⟨hnone, hlong⟩ := ih ⟨m.names, source⟩
      · exact .inl ⟨k + 1, Nat.succ_le_succ hk, found, m', hclaim, .again hround hrun⟩
      · exact .inr ⟨hnone, Minting.lt_of_again hround hlong⟩

/-! ## All variables -/

/--
The search for look-alike names comes to a variable for which some rounds do not suffice: it needs
more, or it never ends. The searches for the variables before it ended.
-/
def Outlasts (limit : Nat) (declared : List Name) (m : Mint) : Prop :=
  ∃ first name rest k bindings m', first ++ name :: rest = declared ∧
    BindsAll .high 0 m first k bindings m' ∧
    ∀ l found m'', Minting.LoopRuns (searchRound .high) 0 m' l found m'' → limit < l

theorem not_outlasts_nil (limit : Nat) (m : Mint) : ¬ Outlasts limit [] m := by
  rintro ⟨first, name, rest, -, -, -, hsplit, -⟩
  cases List.append_eq_nil_iff.1 hsplit with
  | intro _ h => cases h

/-- The first variable is one for which they do not suffice, or it has a name and a later one is. -/
theorem outlasts_cons {limit : Nat} {name : Name} {declared : List Name} {m : Mint} :
    Outlasts limit (name :: declared) m ↔
      (∀ l found m', Minting.LoopRuns (searchRound .high) 0 m l found m' → limit < l) ∨
        ∃ k new m', Minting.LoopRuns (searchRound .high) 0 m k (new, 0) m' ∧
          Outlasts limit declared m' := by
  constructor
  · rintro ⟨first, stuck, rest, k, bindings, m', hsplit, hbinds, hlong⟩
    cases hbinds with
    | nil => exact .inl hlong
    | cons search more =>
      obtain ⟨rfl, hrest⟩ := List.cons.inj hsplit
      obtain rfl := found_high search
      exact .inr ⟨_, _, _, search, _, stuck, rest, _, _, m', hrest, more, hlong⟩
  · rintro (hlong | ⟨k, new, m', search, first, stuck, rest, l, bindings, m'', rfl, more, hlong⟩)
    · exact ⟨[], name, declared, 0, [], m, rfl, .nil, hlong⟩
    · exact ⟨name :: first, stuck, rest, k + l, _, m'', rfl, .cons search more, hlong⟩

/-- Not all variables get names exactly if patience ends before the search for one of them does. -/
theorem bindAll_eq_none_iff {declared : List Name} {m : Mint} :
    (lookAlikes.bindAll declared m).1 = none ↔ Outlasts lookAlikePatience declared m := by
  induction declared generalizing m with
  | nil => exact iff_of_false (Option.some_ne_none _) (not_outlasts_nil _ m)
  | cons name declared ih =>
    rw [outlasts_cons, bindAll, Minting.bind_apply, claim_eq, patience]
    obtain ⟨k, hk, new, m', hclaim, hrun⟩ | ⟨hnone, hlong⟩ :=
      claimWithin_lookAlikes 0 lookAlikePatience m
    · rw [hclaim]
      show ((lookAlikes.bindAll declared m').1.map _ = none) ↔ _
      rw [Option.map_eq_none_iff, ih]
      constructor
      · exact fun hmore => .inr ⟨k, new, m', hrun, hmore⟩
      · rintro (hlong | ⟨l, other, m'', hrun', hmore⟩)
        · exact absurd (hlong _ _ _ hrun) (Nat.not_lt.2 hk)
        · obtain ⟨-, -, rfl⟩ := hrun.unique hrun'
          exact hmore
    · rw [hnone]
      exact iff_of_true rfl (.inl hlong)

/-- A search that no variable holds up finds names for all. -/
theorem bindsAll_of_not_outlasts {limit : Nat} {declared : List Name} {m : Mint}
    (h : ¬ Outlasts limit declared m) : ∃ k bindings m', BindsAll .high 0 m declared k bindings m' := by
  induction declared generalizing m with
  | nil => exact ⟨0, [], m, .nil⟩
  | cons name declared ih =>
    obtain ⟨hsoon, hmore⟩ := not_or.1 (mt outlasts_cons.2 h)
    push Not at hsoon
    obtain ⟨k, ⟨new, n⟩, m', hrun, -⟩ := hsoon
    obtain rfl : n = 0 := found_high hrun
    obtain ⟨l, bindings, m'', hbinds⟩ := ih fun hlong => hmore ⟨k, new, m', hrun, hlong⟩
    exact ⟨k + l, _, m'', .cons hrun hbinds⟩

/-- More variables than look-alike names hold up every search, with any patience. -/
theorem outlasts_of_lt {declared : List Name} {m : Mint}
    (h : lookAlikesLeft m.names < declared.length) (limit : Nat) : Outlasts limit declared m := by
  by_contra hno
  obtain ⟨k, bindings, m', hbinds⟩ := bindsAll_of_not_outlasts hno
  exact absurd hbinds.length_le (Nat.not_le.2 h)

/-- If no look-alike name is in use, one variable gets the first that is drawn. -/
theorem not_outlasts_singleton {limit : Nat} (hlimit : 0 < limit) {m : Mint}
    (h : ∀ name ∈ lookAlikeNames, m.names.isAvailable name = true) (name : Name) :
    ¬ Outlasts limit [name] m := by
  rw [outlasts_cons]
  rintro (hlong | ⟨_, _, m', -, hmore⟩)
  · have hmem := next_mem_lookAlikeNames m.source
    rcases hnext : lookAlikes.next m.source with ⟨⟨new, next⟩, source⟩
    rw [hnext] at hmem
    have hround := searchRound_some (candidateAt_high (n := 0) hnext).2
    rw [if_pos (h new hmem)] at hround
    exact absurd (hlong _ _ _ (.stop hround)) (Nat.not_lt.2 hlimit)
  · exact not_outlasts_nil _ m' hmore

end Candidates

/--
Renaming with look-alike names fails exactly if the search comes to a variable for which 22674816
draws, 64 for each of the 354294 names, are not enough.
-/
theorem renameLocals_eq_none_iff {spans : List Span} {m : Mint} :
    (renameLocals .high spans m).1 = none ↔
      Candidates.Outlasts (64 * 354294) (resolve m.names.reserved (occurrences spans)).declared m := by
  have hpatience : Candidates.lookAlikePatience = 64 * 354294 := by decide +kernel
  rw [← hpatience, ← Candidates.bindAll_eq_none_iff]
  by_cases hnil : (resolve m.names.reserved (occurrences spans)).declared = []
  · rw [renameLocals_of_nil hnil, hnil]
    exact iff_of_false (Option.some_ne_none _) (Option.some_ne_none _)
  · rw [renameLocals_of_ne_nil hnil, Option.map_eq_none_iff]
    rfl

end LuaVeil
