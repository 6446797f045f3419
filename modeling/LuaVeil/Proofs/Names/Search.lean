/-
# Searches that end

Names are searched in loops without a bound: a name is tried, and if it cannot be
taken, the next one. `LoopRuns body s m k a m'` says that such a loop ends, after
`k` rounds and with the result `a`. There are two:

* fresh names, sixteen tries of each length (`freshTry`);
* new names of variables, where a counter is printed and moves on (`searchRound`);
  at the lowest strength, counters that print with a digit in front are skipped.

Main statements:

* `loopRuns_freshName` and `freshTry_spec`, what the first loop does;
* `bindsAll_of_bindAll` and `BindsAll.offered`, what the second does;
* `nodup_offered`, at the lower strengths no candidate comes twice;
* `nameSearches_end`, both loops end.
-/
import LuaVeil.Proofs.Names.Shapes
import LuaVeil.Proofs.Names.Supply
import Mathlib.Data.Nat.Log

namespace LuaVeil

namespace Minting

/--
A loop that repeats `body` from the state `s` and the mint `m` ends after `k` rounds: all of them
but the last give another state, and the last gives the result `a`.
-/
inductive LoopRuns {σ α : Type} (body : σ → Minting (σ ⊕ α)) : σ → Mint → Nat → α → Mint → Prop
  | stop {s : σ} {m m' : Mint} {a : α} (last : body s m = (.inr a, m')) :
      LoopRuns body s m 1 a m'
  | again {s s' : σ} {m m' m'' : Mint} {k : Nat} {a : α} (round : body s m = (.inl s', m'))
      (more : LoopRuns body s' m' k a m'') : LoopRuns body s m (k + 1) a m''

/-! ## Fresh names -/

/-- A try of a fresh name, after as many that were refused. The first names have four letters. -/
def freshTry (refused : Nat) : Minting (Nat ⊕ Name) := do
  let name ← draw (drawName (4 + refused / triesPerLength))
  return if ← claim name then .inr name else .inl (refused + 1)

/-- A try takes a name that is available, and only draws it otherwise. -/
theorem freshTry_apply {refused length : Nat} {m : Mint} {name : Name} {source : Source}
    (hlength : 4 + refused / triesPerLength = length)
    (hdraw : drawName length m.source = (name, source)) :
    freshTry refused m = if m.names.isAvailable name then (.inr name, ⟨m.names.take name, source⟩)
      else (.inl (refused + 1), ⟨m.names, source⟩) := by
  subst hlength
  simp only [freshTry, bind_apply, draw, hdraw, claim_apply]
  split <;> rfl

/-- The loop gives a name that was available and takes it. Its length tells the tries. -/
theorem freshTry_spec {refused k : Nat} {m m' : Mint} {name : Name}
    (h : LoopRuns freshTry refused m k name m') :
    0 < k ∧ name.length = 5 + (refused + k - 1) / triesPerLength ∧
      m.names.isAvailable name = true ∧ m'.names = m.names.take name := by
  induction h with
  | @stop refused m m' name last =>
    rw [freshTry_apply rfl rfl] at last
    split at last
    · next free =>
      cases last
      have hlength := length_drawChars letters (4 + refused / triesPerLength) m.source
      refine ⟨Nat.one_pos, ?_, free, rfl⟩
      show (drawChars letters (4 + refused / triesPerLength) m.source).1.length + 1 = _
      rw [hlength, Nat.add_sub_cancel]
      omega
    · cases last
  | @again refused _ m m' m'' k name round more ih =>
    rw [freshTry_apply rfl rfl] at round
    split at round
    · cases round
    · cases round
      obtain ⟨hpos, hlength, free, htake⟩ := ih
      have hcount : refused + (k + 1) - 1 = refused + 1 + k - 1 := by omega
      exact ⟨Nat.succ_pos k, hcount ▸ hlength, free, htake⟩

/-- The tries of one length are rounds of the loop. -/
theorem loopRuns_of_tryNames {longer tries refused : Nat} (m : Mint)
    (hcount : refused + tries = triesPerLength * (longer + 1)) (htries : tries ≤ triesPerLength) :
    (∃ name m', tryNames (4 + longer) tries m = (some name, m') ∧
        ∃ k ≤ tries, LoopRuns freshTry refused m k name m') ∨
      ∃ m', tryNames (4 + longer) tries m = (none, m') ∧ m'.names = m.names ∧
        ∀ {k : Nat} {name : Name} {m'' : Mint},
          LoopRuns freshTry (triesPerLength * (longer + 1)) m' k name m'' →
            LoopRuns freshTry refused m (tries + k) name m'' := by
  induction tries generalizing refused m with
  | zero =>
    obtain rfl : refused = triesPerLength * (longer + 1) := hcount
    refine .inr ⟨m, rfl, rfl, fun {k} _ _ hmore => ?_⟩
    rwa [Nat.zero_add]
  | succ tries ih =>
    have hlonger : 4 + refused / triesPerLength = 4 + longer := by
      simp only [triesPerLength] at hcount htries ⊢
      omega
    rcases hdraw : drawName (4 + longer) m.source with ⟨name, source⟩
    have hround := freshTry_apply hlonger hdraw
    rw [tryNames_succ hdraw]
    by_cases free : m.names.isAvailable name = true
    · rw [if_pos free] at hround ⊢
      exact .inl ⟨name, _, rfl, 1, by omega, .stop hround⟩
    · rw [if_neg free] at hround ⊢
      obtain ⟨found, m', htry, k, hk, hrun⟩ | ⟨m', htry, hnames, hrun⟩ :=
        ih ⟨m.names, source⟩ (by omega : refused + 1 + tries = _) (by omega)
      · exact .inl ⟨found, m', htry, k + 1, by omega, .again hround hrun⟩
      · refine .inr ⟨m', htry, hnames, fun {k _ _} hmore => ?_⟩
        rw [Nat.add_right_comm]
        exact .again hround (hrun hmore)

/-- The search for a fresh name is the loop: with every length, sixteen tries more. -/
theorem loopRuns_freshNameFrom {longest length longer : Nat} (m : Mint)
    (h : m.names.longest ≤ longest) (hlength : length = 4 + longer) :
    ∃ k ≤ triesPerLength * (longest - length) + 1,
      LoopRuns freshTry (triesPerLength * longer) m k (freshNameFrom longest length m).1
        (freshNameFrom longest length m).2 := by
  fun_induction freshNameFrom longest length generalizing m longer with
  | case1 length hle =>
    have free := isAvailable_drawName (Nat.le_trans h hle) m.source
    have hlonger : 4 + triesPerLength * longer / triesPerLength = length := by
      rw [Nat.mul_div_cancel_left _ (by decide), hlength]
    exact ⟨1, by omega, .stop ((freshTry_apply hlonger rfl).trans (if_pos free))⟩
  | case2 length hle ih =>
    subst hlength
    rw [bind_apply]
    obtain ⟨name, m', htry, k, hk, hrun⟩ | ⟨m', htry, hnames, hrun⟩ :=
      loopRuns_of_tryNames m (Nat.mul_succ triesPerLength longer).symm (Nat.le_refl _)
    · rw [htry]
      refine ⟨k, ?_, hrun⟩
      simp only [triesPerLength] at hk ⊢
      omega
    · rw [htry]
      obtain ⟨k, hk, hmore⟩ := ih m' (hnames ▸ h) (Nat.add_assoc 4 longer 1)
      refine ⟨triesPerLength + k, ?_, hrun hmore⟩
      simp only [triesPerLength] at hk ⊢
      omega

/-- Whatever is drawn, the loop ends before a name gets two letters longer than all others. -/
theorem loopRuns_freshName (m : Mint) :
    ∃ k ≤ triesPerLength * (m.names.longest - 4) + 1,
      LoopRuns freshTry 0 m k (freshName m).1 (freshName m).2 :=
  loopRuns_freshNameFrom m (Nat.le_refl _) (Nat.add_zero 4).symm

end Minting

/-! ## Numerals that begin with a letter -/

/-- Whether a name begins with a letter. -/
def beginsWithLetter (name : Name) : Bool :=
  name.head?.any Char.isAlpha

theorem beginsWithLetter_digits_iff_of_le {n j : Nat} (hlow : 36 ^ j ≤ n)
    (hhigh : n < 36 ^ (j + 1)) :
    beginsWithLetter (Number.digits 36 n) = true ↔ 10 * 36 ^ j ≤ n := by
  have hletter : ∀ d < 36, (Number.digitChar d).isAlpha = decide (10 ≤ d) := by decide
  have hpos : 0 < 36 ^ j := Nat.pow_pos (by omega)
  have hsmall : n / 36 ^ j < 36 := by
    rw [Nat.div_lt_iff_lt_mul hpos, ← Nat.pow_succ']
    exact hhigh
  have hlead := Number.getLast?_reverseDigits (by omega) hlow hhigh
  rw [beginsWithLetter, Number.digits, if_neg (by omega), List.head?_map, List.head?_reverse, hlead,
    Option.map_some, Option.any_some, hletter _ hsmall, decide_eq_true_iff,
    Nat.le_div_iff_mul_le hpos]

/-- The numbers in order with one digit more are a part of those in order. -/
theorem exists_letterLedFrom_eq (j k i : Nat) :
    ∃ i', letterLedFrom (36 ^ k) i' = letterLedFrom (36 ^ (k + j)) i := by
  induction j generalizing k with
  | zero => exact ⟨i, rfl⟩
  | succ j ih =>
    obtain ⟨i', hi'⟩ := ih (k + 1)
    have hpos : 0 < 36 ^ k := Nat.pow_pos (by omega)
    refine ⟨i' + 26 * 36 ^ k, ?_⟩
    rw [letterLedFrom, dif_neg (by omega), Nat.add_sub_cancel, ← Nat.pow_succ', hi']
    congr 2
    omega

/-- Exactly the numbers in order have a numeral that begins with a letter. -/
theorem beginsWithLetter_digits (n : Nat) :
    beginsWithLetter (Number.digits 36 n) = true ↔ ∃ i, letterLed i = n := by
  constructor
  · intro hletter
    obtain rfl | hn := Nat.eq_zero_or_pos n
    · exact absurd hletter (by decide)
    · have hhigh := Nat.lt_pow_succ_log_self (by omega : 1 < 36) n
      have hlow := (beginsWithLetter_digits_iff_of_le
        (Nat.pow_log_le_self 36 (by omega)) hhigh).1 hletter
      obtain ⟨i, hi⟩ := exists_letterLedFrom_eq (Nat.log 36 n) 0 (n - 10 * 36 ^ Nat.log 36 n)
      refine ⟨i, hi.trans ?_⟩
      rw [Nat.pow_succ] at hhigh
      rw [Nat.zero_add, letterLedFrom, dif_pos (by omega)]
      omega
  · rintro ⟨i, rfl⟩
    obtain ⟨j, hlow, hhigh⟩ := exists_letterLedFrom 0 i
    exact (beginsWithLetter_digits_iff_of_le (by omega) hhigh).2 hlow

/-! ## Counters -/

namespace Candidates

/-- Where the counter of a strength begins. -/
def counterStart : Strength → Draw Nat
  | .low => pure 10
  | .medium => Int.toNat <$> Draw.between .long 0x100 0xFFF
  | .high => pure 0

/-- The candidate at a counter, if the counter has one, and the counter after it. -/
def candidateAt : Strength → Nat → Draw (Option Name × Nat)
  | .low, n =>
    let name := Number.digits 36 n
    pure (if beginsWithLetter name then some name else none, n + 1)
  | .medium, n => do
    let step ← Draw.between .long 1 7
    return (some ("_0x".toList ++ Number.digits 16 n), n + step.toNat)
  | .high, n => do
    let (name, _) ← lookAlikes.next
    return (some name, n)

/-- A round of the search for a new name. -/
def searchRound (s : Strength) (n : Nat) : Minting (Nat ⊕ (Name × Nat)) := do
  let (candidate?, n) ← Minting.draw (candidateAt s n)
  match candidate? with
  | none => return .inl n
  | some name => return if ← Minting.claim name then .inr (name, n) else .inl n

/-- New names for some variables, one search after the other, in `k` rounds altogether. -/
inductive BindsAll (s : Strength) : Nat → Mint → List Name → Nat → List Binding → Mint → Prop
  | nil {n : Nat} {m : Mint} : BindsAll s n m [] 0 [] m
  | cons {n n' k l : Nat} {m m' m'' : Mint} {declared name : Name} {names : List Name}
      {bindings : List Binding} (search : Minting.LoopRuns (searchRound s) n m k (name, n') m')
      (more : BindsAll s n' m' names l bindings m'') :
      BindsAll s n m (declared :: names) (k + l) (⟨declared, name⟩ :: bindings) m''

theorem searchRound_none {s : Strength} {n n' : Nat} {m : Mint} {source : Source}
    (h : candidateAt s n m.source = ((none, n'), source)) :
    searchRound s n m = (.inl n', ⟨m.names, source⟩) := by
  simp only [searchRound, Minting.bind_apply, Minting.draw, h]
  rfl

theorem searchRound_some {s : Strength} {n n' : Nat} {m : Mint} {name : Name} {source : Source}
    (h : candidateAt s n m.source = ((some name, n'), source)) :
    searchRound s n m =
      if m.names.isAvailable name then (.inr (name, n'), ⟨m.names.take name, source⟩)
      else (.inl n', ⟨m.names, source⟩) := by
  simp only [searchRound, Minting.bind_apply, Minting.draw, h, Minting.claim_apply]
  split <;> rfl

/-- What a round can do: pass over a candidate, if there is one, or take it. -/
theorem searchRound_cases {s : Strength} {n : Nat} {m m' : Mint} {result : Nat ⊕ (Name × Nat)}
    (h : searchRound s n m = (result, m')) :
    ∃ candidate? n', candidateAt s n m.source = ((candidate?, n'), m'.source) ∧
      ((result = .inl n' ∧ m'.names = m.names ∧ ∀ name ∈ candidate?, name ∈ m.names.unavailable) ∨
        ∃ name, candidate? = some name ∧ m.names.isAvailable name = true ∧
          result = .inr (name, n') ∧ m'.names = m.names.take name) := by
  rcases hat : candidateAt s n m.source with ⟨⟨candidate?, n'⟩, source⟩
  cases candidate? with
  | none =>
    rw [searchRound_none hat] at h
    cases h
    exact ⟨none, n', rfl, .inl ⟨rfl, rfl, nofun⟩⟩
  | some name =>
    rw [searchRound_some hat] at h
    split at h
    · next free =>
      cases h
      exact ⟨some name, n', rfl, .inr ⟨name, rfl, free, rfl, rfl⟩⟩
    · next hmiss =>
      cases h
      rw [Namespace.isAvailable_iff, not_not] at hmiss
      exact ⟨some name, n', rfl, .inl ⟨rfl, rfl, fun _ h => Option.some.inj h ▸ hmiss⟩⟩

/-! ### Counters and candidates in order -/

/-- A search among candidates is where a counter is: no candidate lies between. -/
inductive IsAt : Candidates → Strength → Nat → Prop
  | low {n place : Nat} (le : n ≤ letterLed place)
      (skipped : ∀ i, n ≤ letterLed i → letterLed place ≤ letterLed i) :
      IsAt (numerals place) .low n
  | medium {n : Nat} : IsAt (hexadecimal n) .medium n
  | high {n : Nat} : IsAt lookAlikes .high n

theorem isAt_start (s : Strength) (source : Source) :
    (start s source).1.IsAt s (counterStart s source).1 ∧
      (counterStart s source).2 = (start s source).2 := by
  cases s with
  | low =>
    have hzero : letterLed 0 = 10 := by simp [letterLed, letterLedFrom]
    refine ⟨.low hzero.ge fun i _ => ?_, rfl⟩
    rw [hzero]
    exact le_letterLedFrom 1 i
  | medium => exact ⟨.medium, rfl⟩
  | high => exact ⟨.high, rfl⟩

/-- Behind a number in order the next one is the next candidate. -/
theorem isAt_succ (place : Nat) : (numerals (place + 1)).IsAt .low (letterLed place + 1) :=
  .low (letterLed_strictMono (Nat.lt_succ_self place)) fun _ hi =>
    letterLed_strictMono.monotone (letterLed_strictMono.lt_iff_lt.1 hi)

/-- Counters whose numeral begins with a digit are skipped. -/
theorem loopRuns_of_skipped {n place k : Nat} {m m' : Mint} {found : Name × Nat}
    (le : n ≤ letterLed place) (skipped : ∀ i, n ≤ letterLed i → letterLed place ≤ letterLed i)
    (h : Minting.LoopRuns (searchRound .low) (letterLed place) m k found m') :
    ∃ j, Minting.LoopRuns (searchRound .low) n m j found m' := by
  induction hdistance : letterLed place - n generalizing n with
  | zero =>
    obtain rfl : n = letterLed place := by omega
    exact ⟨k, h⟩
  | succ distance ih =>
    have hdigit : ¬ beginsWithLetter (Number.digits 36 n) = true := by
      rw [beginsWithLetter_digits]
      rintro ⟨i, rfl⟩
      have := skipped i (Nat.le_refl _)
      omega
    have hnone : candidateAt .low n m.source = ((none, n + 1), m.source) := by
      simp only [candidateAt, if_neg hdigit]
      rfl
    obtain ⟨j, hrun⟩ := ih (n := n + 1) (by omega)
      (fun i hi => skipped i (Nat.le_of_succ_le hi)) (by omega)
    exact ⟨j + 1, .again (searchRound_none hnone) hrun⟩

theorem next_hexadecimal (number : Nat) (source : Source) :
    (hexadecimal number).next source =
      (("_0x".toList ++ Number.digits 16 number,
        hexadecimal (number + (Draw.between .long 1 7 source).1.toNat)),
        (Draw.between .long 1 7 source).2) := rfl

theorem candidateAt_medium (n : Nat) (source : Source) :
    candidateAt .medium n source =
      ((some ("_0x".toList ++ Number.digits 16 n),
        n + (Draw.between .long 1 7 source).1.toNat), (Draw.between .long 1 7 source).2) := rfl

theorem candidateAt_high {n : Nat} {name : Name} {next : Candidates} {source source' : Source}
    (h : lookAlikes.next source = ((name, next), source')) :
    next = lookAlikes ∧ candidateAt .high n source = ((some name, n), source') := by
  constructor
  · -- which words are drawn does not matter
    unfold Candidates.next at h
    generalize Draw.pick 'l' ['l', 'I'] = first at h
    generalize Minting.drawChars ['l', 'I', '1'] lookAlikeTail = more at h
    exact (congrArg (fun drawn => drawn.1.2) h).symm
  · have happly : candidateAt .high n source =
        ((some (lookAlikes.next source).1.1, n), (lookAlikes.next source).2) := by
      unfold candidateAt
      generalize lookAlikes.next = drawn
      rfl
    rw [happly, h]

/-- The counter comes to the next candidate, and is then where the search among them goes on. -/
theorem IsAt.exists_candidateAt {c next : Candidates} {s : Strength} {n : Nat} {m : Mint}
    {name : Name} {source : Source} (h : c.IsAt s n)
    (hnext : c.next m.source = ((name, next), source)) :
    ∃ at' n', candidateAt s at' m.source = ((some name, n'), source) ∧ next.IsAt s n' ∧
      ∀ {k : Nat} {found : Name × Nat} {m' : Mint},
        Minting.LoopRuns (searchRound s) at' m k found m' →
          ∃ j, Minting.LoopRuns (searchRound s) n m j found m' := by
  cases h with
  | @low n place le skipped =>
    obtain ⟨rfl, rfl, rfl⟩ : Number.digits 36 (letterLed place) = name ∧
        numerals (place + 1) = next ∧ m.source = source := by
      cases hnext
      exact ⟨rfl, rfl, rfl⟩
    refine ⟨letterLed place, letterLed place + 1, ?_, isAt_succ place,
      fun hrun => loopRuns_of_skipped le skipped hrun⟩
    simp only [candidateAt, if_pos ((beginsWithLetter_digits _).2 ⟨place, rfl⟩)]
    rfl
  | medium =>
    rw [next_hexadecimal] at hnext
    cases hnext
    exact ⟨n, _, candidateAt_medium n m.source, .medium, fun hrun => ⟨_, hrun⟩⟩
  | high =>
    obtain ⟨rfl, hat⟩ := candidateAt_high hnext
    exact ⟨n, n, hat, .high, fun hrun => ⟨_, hrun⟩⟩

/-- A search that finds a candidate is a run of the loop. -/
theorem loopRuns_of_claimWithin {tries : Nat} {c next : Candidates} {s : Strength} {n : Nat}
    {m m' : Mint} {name : Name} (h : c.IsAt s n)
    (hclaim : claimWithin tries c m = (some (name, next), m')) :
    ∃ k n', next.IsAt s n' ∧ Minting.LoopRuns (searchRound s) n m k (name, n') m' := by
  induction tries generalizing c n m with
  | zero => cases hclaim
  | succ tries ih =>
    rcases hnext : c.next m.source with ⟨⟨candidate, later⟩, source⟩
    obtain ⟨at', n', hat, hlater, hrest⟩ := h.exists_candidateAt hnext
    have hround := searchRound_some hat
    rw [claimWithin_succ hnext] at hclaim
    by_cases free : m.names.isAvailable candidate = true
    · rw [if_pos free] at hclaim hround
      cases hclaim
      obtain ⟨k, hrun⟩ := hrest (.stop hround)
      exact ⟨k, n', hlater, hrun⟩
    · rw [if_neg free] at hclaim hround
      obtain ⟨k, n'', hfound, hmore⟩ := ih hlater hclaim
      obtain ⟨k', hrun⟩ := hrest (.again hround hmore)
      exact ⟨k', n'', hfound, hrun⟩

/-- New names that are found are found by the loop. -/
theorem bindsAll_of_bindAll {c : Candidates} {s : Strength} {n : Nat} {declared : List Name}
    {m m' : Mint} {bindings : List Binding} (h : c.IsAt s n)
    (hbind : c.bindAll declared m = (some bindings, m')) :
    ∃ k, BindsAll s n m declared k bindings m' := by
  induction declared generalizing c n m bindings with
  | nil =>
    cases hbind
    exact ⟨0, .nil⟩
  | cons name declared ih =>
    rw [bindAll, Minting.bind_apply] at hbind
    rcases hclaim : c.claim m with ⟨found?, m₁⟩
    rw [hclaim] at hbind
    cases found? with
    | none => cases hbind
    | some found =>
      obtain ⟨k, n', hfound, hsearch⟩ := loopRuns_of_claimWithin h hclaim
      rcases hmore : found.2.bindAll declared m₁ with ⟨more?, m₂⟩
      simp only [Minting.bind_apply, hmore] at hbind
      cases more? with
      | none => cases hbind
      | some more =>
        cases hbind
        obtain ⟨l, hrun⟩ := ih hfound hmore
        exact ⟨k + l, .cons hsearch hrun⟩

/-! ### Candidates of a run -/

/-- The candidates of some rounds, and the counter after them. -/
def offered (s : Strength) : Nat → Nat → Draw (List Name × Nat)
  | 0, n => pure ([], n)
  | k + 1, n => do
    let (candidate?, n) ← candidateAt s n
    let (more, n) ← offered s k n
    return (candidate?.toList ++ more, n)

theorem offered_succ {s : Strength} {k n n' n'' : Nat} {source source' source'' : Source}
    {candidate? : Option Name} {more : List Name}
    (h : candidateAt s n source = ((candidate?, n'), source'))
    (hmore : offered s k n' source' = ((more, n''), source'')) :
    offered s (k + 1) n source = ((candidate?.toList ++ more, n''), source'') := by
  have happly : offered s (k + 1) n source =
      (((candidateAt s n source).1.1.toList ++
          (offered s k (candidateAt s n source).1.2 (candidateAt s n source).2).1.1,
        (offered s k (candidateAt s n source).1.2 (candidateAt s n source).2).1.2),
        (offered s k (candidateAt s n source).1.2 (candidateAt s n source).2).2) := rfl
  rw [happly, h, hmore]

theorem offered_add {s : Strength} {k l n n' n'' : Nat} {source source' source'' : Source}
    {names more : List Name} (h : offered s k n source = ((names, n'), source'))
    (hmore : offered s l n' source' = ((more, n''), source'')) :
    offered s (k + l) n source = ((names ++ more, n''), source'') := by
  induction k generalizing n source names with
  | zero =>
    cases h
    rwa [Nat.zero_add]
  | succ k ih =>
    rcases hfirst : candidateAt s n source with ⟨⟨candidate?, n₁⟩, source₁⟩
    rcases hrest : offered s k n₁ source₁ with ⟨⟨rest, n₂⟩, source₂⟩
    rw [offered_succ hfirst hrest] at h
    cases h
    rw [Nat.add_right_comm, offered_succ hfirst (ih hrest), List.append_assoc]

/-- All candidates of a search but the last are unavailable, and the last is taken. -/
theorem searchRound_spec {s : Strength} {n k : Nat} {m m' : Mint} {found : Name × Nat}
    (h : Minting.LoopRuns (searchRound s) n m k found m') :
    ∃ refused, offered s k n m.source = ((refused ++ [found.1], found.2), m'.source) ∧
      (∀ name ∈ refused, name ∈ m.names.unavailable) ∧ m.names.isAvailable found.1 = true ∧
      m'.names = m.names.take found.1 := by
  induction h with
  | stop last =>
    obtain ⟨candidate?, n', hat, ⟨hresult, -⟩ | ⟨name, rfl, free, hresult, htake⟩⟩ :=
      searchRound_cases last
    · cases hresult
    · cases hresult
      exact ⟨[], offered_succ hat rfl, by simp, free, htake⟩
  | again round _ ih =>
    obtain ⟨candidate?, n', hat, ⟨hresult, hnames, hpassed⟩ | ⟨name, -, -, hresult, -⟩⟩ :=
      searchRound_cases round
    · cases hresult
      obtain ⟨refused, hoffered, hrefused, free, htake⟩ := ih
      rw [hnames] at hrefused free htake
      refine ⟨candidate?.toList ++ refused, ?_, fun name hname => ?_, free, htake⟩
      · rw [List.append_assoc]
        exact offered_succ hat hoffered
      · rcases List.mem_append.1 hname with hmem | hmem
        · exact hpassed name (Option.mem_toList.1 hmem)
        · exact hrefused name hmem
    · cases hresult

/--
The candidates of all searches are unavailable in the end: those that were refused, and the new
names, which are taken in order.
-/
theorem BindsAll.offered {s : Strength} {n k : Nat} {m m' : Mint} {declared : List Name}
    {bindings : List Binding} (h : BindsAll s n m declared k bindings m') :
    ∃ names n', offered s k n m.source = ((names, n'), m'.source) ∧
      (∀ name ∈ names, name ∈ m'.names.unavailable) ∧
      bindings.map Binding.declared = declared ∧
      m.names.Takes (bindings.map Binding.generated) m'.names := by
  induction h with
  | nil => exact ⟨[], _, rfl, by simp, rfl, .nil _⟩
  | @cons n n' k l m m' m'' declared name names bindings search more ih =>
    obtain ⟨refused, hoffered, hrefused, free, htake⟩ := searchRound_spec search
    obtain ⟨later, n'', hlater, hunavailable, hdeclared, htakes⟩ := ih
    rw [htake] at htakes
    have hall : m.names.Takes (name :: bindings.map Binding.generated) m''.names :=
      .cons free htakes
    refine ⟨_, n'', offered_add hoffered hlater, fun other hother => ?_,
      congrArg (declared :: ·) hdeclared, hall⟩
    simp only [List.mem_append, List.mem_singleton] at hother
    obtain (hmem | rfl) | hmem := hother
    · exact hall.mem_unavailable.2 (.inr (hrefused _ hmem))
    · exact hall.mem_unavailable.2 (.inl List.mem_cons_self)
    · exact hunavailable _ hmem

/-- At the lower strengths a candidate shows its counter, and the counter moves on. -/
theorem candidateAt_spec {s : Strength} (hs : s ≠ .high) :
    ∃ shown : Nat → Name, Function.Injective shown ∧ ∀ n source,
      (∀ name ∈ (candidateAt s n source).1.1, name = shown n) ∧
        n < (candidateAt s n source).1.2 := by
  cases s with
  | low =>
    refine ⟨Number.digits 36, Number.digits_injective (by omega) (by omega), fun n source => ?_⟩
    refine ⟨fun name hname => ?_, Nat.lt_succ_self n⟩
    obtain ⟨-, hshown⟩ := Option.ite_none_right_eq_some.1 hname
    exact (Option.some.inj hshown).symm
  | medium =>
    refine ⟨fun n => "_0x".toList ++ Number.digits 16 n, fun a b h => ?_, fun n source => ?_⟩
    · exact Number.digits_injective (by omega) (by omega) (List.append_cancel_left h)
    · exact ⟨fun name hname => (Option.some.inj hname).symm,
        Nat.lt_add_of_pos_right (step_pos source)⟩
  | high => exact absurd rfl hs

/-- At the lower strengths no candidate comes twice in a run. -/
theorem nodup_offered {s : Strength} (hs : s ≠ .high) (k n : Nat) (source : Source) :
    (offered s k n source).1.1.Nodup := by
  obtain ⟨shown, hinjective, hspec⟩ := candidateAt_spec hs
  have hordered : ∀ k n source, (offered s k n source).1.1.Nodup ∧
      ∀ name ∈ (offered s k n source).1.1, ∃ counter, n ≤ counter ∧ name = shown counter := by
    intro k
    induction k with
    | zero => exact fun _ _ => ⟨.nil, nofun⟩
    | succ k ih =>
      intro n source
      rcases hat : candidateAt s n source with ⟨⟨candidate?, n'⟩, source'⟩
      obtain ⟨hshown, hlater⟩ := hspec n source
      obtain ⟨hnodup, hmore⟩ := ih n' source'
      rw [hat] at hshown hlater
      dsimp only at hshown hlater
      rw [offered_succ hat rfl]
      cases candidate? with
      | none =>
        refine ⟨hnodup, fun name hname => ?_⟩
        obtain ⟨counter, hle, heq⟩ := hmore name hname
        exact ⟨counter, by omega, heq⟩
      | some first =>
        obtain rfl := hshown first rfl
        refine ⟨List.nodup_cons.2 ⟨fun hmem => ?_, hnodup⟩,
          List.forall_mem_cons.2 ⟨⟨n, Nat.le_refl _, rfl⟩, fun name hname => ?_⟩⟩
        · obtain ⟨counter, hle, heq⟩ := hmore _ hmem
          have := hinjective heq
          omega
        · obtain ⟨counter, hle, heq⟩ := hmore name hname
          exact ⟨counter, by omega, heq⟩
  exact (hordered k n source).1

end Candidates

/-! ## Both loops end -/

/--
The loops that search names end, in every namespace and with every source of random words. A fresh
name comes after at most sixteen tries of every length, and at the latest when it is longer than
all other names. At the lower strengths every variable gets a new name: no candidate comes twice,
so that there are no more than there are names to pass over and to give.
-/
theorem nameSearches_end (m : Mint) :
    (∃ tries ≤ Minting.triesPerLength * (m.names.longest - 4) + 1,
      Minting.LoopRuns Minting.freshTry 0 m tries (Minting.freshName m).1 (Minting.freshName m).2 ∧
      (Minting.freshName m).1.length = 5 + (tries - 1) / Minting.triesPerLength ∧
      (Minting.freshName m).1.length ≤ max 5 (m.names.longest + 1) ∧
      m.names.isAvailable (Minting.freshName m).1 = true ∧
      (Minting.freshName m).2.names = m.names.take (Minting.freshName m).1) ∧
    ∀ s ≠ Strength.high, ∀ declared : List Name,
      let start := Minting.draw (Candidates.counterStart s) m
      ∃ bindings rounds m',
        Candidates.BindsAll s start.1 start.2 declared rounds bindings m' ∧
        (Minting.draw (Candidates.start s) >>= fun c => c.bindAll declared) m =
          (some bindings, m') ∧
        bindings.map Binding.declared = declared ∧
        m.names.Takes (bindings.map Binding.generated) m'.names ∧
        (Candidates.offered s rounds start.1 start.2.source).1.1.Nodup ∧
        (Candidates.offered s rounds start.1 start.2.source).1.1.length ≤
          m.names.unavailable.length + declared.length := by
  refine ⟨?_, fun s hs declared => ?_⟩
  · obtain ⟨tries, hle, hrun⟩ := Minting.loopRuns_freshName m
    obtain ⟨-, hlength, free, htake⟩ := Minting.freshTry_spec hrun
    rw [Nat.zero_add] at hlength
    refine ⟨tries, hle, hrun, hlength, ?_, free, htake⟩
    simp only [Minting.triesPerLength] at hle hlength
    omega
  · intro start
    obtain ⟨hstart, hsource⟩ := Candidates.isAt_start s m.source
    have hordered : (Candidates.start s m.source).1 ≠ .lookAlikes := by
      intro hlook
      rw [hlook] at hstart
      cases hstart
      exact hs rfl
    have hmint : (Minting.draw (Candidates.start s) m).2 = start.2 :=
      congrArg (Mint.mk m.names) hsource.symm
    obtain ⟨bindings, hbindings⟩ := Option.isSome_iff_exists.1
      (Candidates.isSome_bindAll hordered declared (Minting.draw (Candidates.start s) m).2)
    obtain ⟨m', hbind⟩ : ∃ m', (Candidates.start s m.source).1.bindAll declared
        (Minting.draw (Candidates.start s) m).2 = (some bindings, m') :=
      ⟨_, Prod.ext hbindings rfl⟩
    obtain ⟨rounds, hrun⟩ := Candidates.bindsAll_of_bindAll hstart (hmint ▸ hbind)
    obtain ⟨names, counter, hoffered, hunavailable, hdeclared, htakes⟩ := hrun.offered
    have hnodup := Candidates.nodup_offered hs rounds start.1 start.2.source
    refine ⟨bindings, rounds, m', hrun, hbind, hdeclared, htakes, hnodup, ?_⟩
    rw [show Candidates.offered s rounds start.1 start.2.source = _ from hoffered] at hnodup ⊢
    have hle := (hnodup.subperm hunavailable).length_le
    rw [htakes.length_unavailable, List.length_map, ← List.length_map Binding.declared,
      hdeclared] at hle
    exact hle

/-- A name that is taken is passed over. -/
theorem taken_name_passed_over :
    let m : Mint := ⟨⟨.default, ["a".toList]⟩, ⟨fun _ => 0, 0⟩⟩
    ∃ rounds m', Candidates.BindsAll .low 10 m ["x".toList, "y".toList] rounds
      [⟨"x".toList, "b".toList⟩, ⟨"y".toList, "c".toList⟩] m' := by
  intro m
  obtain ⟨bindings, rounds, m', hrun, hbind, -⟩ :=
    (nameSearches_end m).2 .low (by decide) ["x".toList, "y".toList]
  have hnames : ((Candidates.numerals 0).bindAll ["x".toList, "y".toList] m).1 =
      some [⟨"x".toList, "b".toList⟩, ⟨"y".toList, "c".toList⟩] := by
    decide +kernel
  obtain rfl := Option.some.inj ((congrArg Prod.fst hbind).symm.trans hnames)
  exact ⟨rounds, m', hrun⟩

end LuaVeil
