/-
# The ledger of a namespace

`n.Takes names n'` says that `n'` is what `n` becomes when some names are taken
in order, each of them available at that time. So the names differ from each
other and from all that was unavailable before, and nothing else was taken.

Main statements:

* `Takes.nodup` and `Takes.not_mem_unavailable`, what such names are;
* `freshName_takes`, a fresh name is taken;
* `bindAll_takes`, the new names of variables are taken.
-/
import LuaVeil.Names.Namespace
import LuaVeil.Veil.Renaming
import Mathlib.Data.List.Nodup

namespace LuaVeil

namespace Namespace

/-- The namespace `n` becomes another one when names are taken in order. -/
inductive Takes : Namespace → List Name → Namespace → Prop
  | nil (n : Namespace) : Takes n [] n
  | cons {n n' : Namespace} {name : Name} {names : List Name} (free : n.isAvailable name = true)
      (more : Takes (n.take name) names n') : Takes n (name :: names) n'

theorem isAvailable_iff {n : Namespace} {name : Name} :
    n.isAvailable name = true ↔ name ∉ n.unavailable := by
  simp [isAvailable, unavailable, Reserved.contains]

theorem mem_unavailable_take {n : Namespace} {name other : Name} :
    other ∈ (n.take name).unavailable ↔ other = name ∨ other ∈ n.unavailable := by
  simp only [unavailable, take, List.mem_append, List.mem_cons]
  tauto

theorem isAvailable_take {n : Namespace} {name other : Name} :
    (n.take name).isAvailable other = true ↔ other ≠ name ∧ n.isAvailable other = true := by
  rw [isAvailable_iff, isAvailable_iff, mem_unavailable_take, not_or]

/-- A name that is not available is not longer than the longest. -/
theorem length_le_longest {n : Namespace} {name : Name} (h : name ∈ n.unavailable) :
    name.length ≤ n.longest := by
  have hfold : ∀ (names : List Name) (least : Nat),
      least ≤ names.foldl (fun longest name => max longest name.length) least ∧
        ∀ name ∈ names,
          name.length ≤ names.foldl (fun longest name => max longest name.length) least := by
    intro names
    induction names with
    | nil => simp
    | cons a names ih =>
      intro least
      obtain ⟨hleast, hnames⟩ := ih (max least a.length)
      simp only [List.foldl_cons, List.mem_cons, forall_eq_or_imp]
      exact ⟨by omega, by omega, hnames⟩
  exact (hfold n.unavailable 0).2 name h

namespace Takes

variable {n n' n'' : Namespace} {names more : List Name}

theorem single {name : Name} (free : n.isAvailable name = true) : n.Takes [name] (n.take name) :=
  .cons free (.nil _)

theorem eq_of_nil (h : n.Takes [] n') : n' = n := by
  cases h
  rfl

theorem append (h : n.Takes names n') (h' : n'.Takes more n'') : n.Takes (names ++ more) n'' := by
  induction h with
  | nil => exact h'
  | cons free _ ih => exact .cons free (ih h')

theorem reserved_eq (h : n.Takes names n') : n'.reserved = n.reserved := by
  induction h with
  | nil => rfl
  | cons _ _ ih => exact ih

/-- The ledger is complete: only the names themselves are taken. -/
theorem taken_eq (h : n.Takes names n') : n'.taken = names.reverse ++ n.taken := by
  induction h with
  | nil => rfl
  | cons _ _ ih => rw [ih, List.reverse_cons, List.append_assoc]; rfl

/-- In the end the names are unavailable too. -/
theorem mem_unavailable (h : n.Takes names n') {name : Name} :
    name ∈ n'.unavailable ↔ name ∈ names ∨ name ∈ n.unavailable := by
  rw [unavailable, unavailable, h.reserved_eq, h.taken_eq]
  simp only [List.mem_append, List.mem_reverse]
  tauto

theorem length_unavailable (h : n.Takes names n') :
    n'.unavailable.length = n.unavailable.length + names.length := by
  rw [unavailable, unavailable, h.reserved_eq, h.taken_eq]
  simp only [List.length_append, List.length_reverse]
  omega

/-- What is taken was not unavailable before. -/
theorem not_mem_unavailable (h : n.Takes names n') : ∀ name ∈ names, name ∉ n.unavailable := by
  induction h with
  | nil => simp
  | cons free _ ih =>
    intro name hname hold
    rcases List.mem_cons.1 hname with rfl | hname
    · exact isAvailable_iff.1 free hold
    · exact ih name hname (mem_unavailable_take.2 (.inr hold))

/-- Names that are taken one after the other are different. -/
theorem nodup (h : n.Takes names n') : names.Nodup := by
  induction h with
  | nil => exact .nil
  | cons _ more ih =>
    refine List.nodup_cons.2 ⟨fun hmem => ?_, ih⟩
    exact more.not_mem_unavailable _ hmem (mem_unavailable_take.2 (.inl rfl))

end Takes

/-- Different names that are available can be taken in order. -/
theorem exists_takes {new : List Name} {names : Namespace} (hnodup : new.Nodup)
    (hfree : ∀ name ∈ new, names.isAvailable name = true) :
    ∃ names', names.Takes new names' := by
  induction new generalizing names with
  | nil => exact ⟨names, .nil names⟩
  | cons name new ih =>
    obtain ⟨hnew, hnodup⟩ := List.nodup_cons.1 hnodup
    obtain ⟨hname, hfree⟩ := List.forall_mem_cons.1 hfree
    have hlater : ∀ other ∈ new, (names.take name).isAvailable other = true := fun other hother =>
      isAvailable_take.2 ⟨fun heq => hnew (heq ▸ hother), hfree other hother⟩
    obtain ⟨names', htakes⟩ := ih hnodup hlater
    exact ⟨names', .cons hname htakes⟩

end Namespace

/-! ## What computations take -/

namespace Minting

theorem draw_names (d : Draw α) (m : Mint) : (draw d m).2.names = m.names := rfl

/-- A name is claimed with success when it is available, and is then taken. -/
theorem claim_apply (name : Name) (m : Mint) :
    claim name m = if m.names.isAvailable name then (true, { m with names := m.names.take name })
      else (false, m) := by
  rw [claim, Namespace.claim?]
  by_cases free : m.names.isAvailable name = true
  · rw [if_pos free, if_pos free]
  · rw [if_neg free, if_neg free]

theorem tryNames_succ {length tries : Nat} {m : Mint} {name : Name} {source : Source}
    (hdraw : drawName length m.source = (name, source)) :
    tryNames length (tries + 1) m =
      if m.names.isAvailable name then (some name, ⟨m.names.take name, source⟩)
      else tryNames length tries ⟨m.names, source⟩ := by
  simp only [tryNames, bind_apply, draw, hdraw, claim_apply]
  split <;> rfl

theorem tryNames_takes (length tries : Nat) (m : Mint) :
    m.names.Takes (tryNames length tries m).1.toList (tryNames length tries m).2.names := by
  induction tries generalizing m with
  | zero => exact .nil _
  | succ tries ih =>
    rcases hdraw : drawName length m.source with ⟨name, source⟩
    rw [tryNames_succ hdraw]
    split
    · next free => exact .single free
    · exact ih ⟨m.names, source⟩

theorem length_drawChars (alphabet : List Char) (n : Nat) (s : Source) :
    (drawChars alphabet n s).1.length = n := by
  induction n generalizing s with
  | zero => rfl
  | succ n ih => exact congrArg (· + 1) (ih _)

/-- A name with more letters than the longest is available without a look. -/
theorem isAvailable_drawName {n : Namespace} {length : Nat} (h : n.longest ≤ length) (s : Source) :
    n.isAvailable (drawName length s).1 = true := by
  refine Namespace.isAvailable_iff.2 fun hmem => ?_
  have hlength : (drawName length s).1.length = length + 1 :=
    congrArg (· + 1) (length_drawChars letters length s)
  have := Namespace.length_le_longest hmem
  omega

theorem freshNameFrom_takes {longest : Nat} (length : Nat) {m : Mint}
    (h : m.names.longest ≤ longest) :
    m.names.Takes [(freshNameFrom longest length m).1]
      (freshNameFrom longest length m).2.names := by
  fun_induction freshNameFrom longest length generalizing m with
  | case1 length hle =>
    exact .single (isAvailable_drawName (Nat.le_trans h hle) m.source)
  | case2 length hle ih =>
    rw [bind_apply]
    have htry := tryNames_takes length triesPerLength m
    cases hname : (tryNames length triesPerLength m).1 with
    | some name =>
      rw [hname] at htry
      exact htry
    | none =>
      rw [hname] at htry
      have hsame : (tryNames length triesPerLength m).2.names = m.names := htry.eq_of_nil
      rw [← hsame] at h ⊢
      exact ih h

/-- A fresh name was available and is taken, and nothing else is. -/
theorem freshName_takes (m : Mint) :
    m.names.Takes [(freshName m).1] (freshName m).2.names :=
  freshNameFrom_takes 4 (Nat.le_refl _)

end Minting

namespace Candidates

theorem claimWithin_succ {tries : Nat} {c next : Candidates} {m : Mint} {name : Name}
    {source : Source} (hnext : c.next m.source = ((name, next), source)) :
    claimWithin (tries + 1) c m =
      if m.names.isAvailable name then (some (name, next), ⟨m.names.take name, source⟩)
      else claimWithin tries next ⟨m.names, source⟩ := by
  simp only [claimWithin, Minting.bind_apply, Minting.draw, hnext, Minting.claim_apply]
  split <;> rfl

theorem claimWithin_takes (tries : Nat) (c : Candidates) (m : Mint) :
    m.names.Takes ((claimWithin tries c m).1.toList.map Prod.fst)
      (claimWithin tries c m).2.names := by
  induction tries generalizing c m with
  | zero => exact .nil _
  | succ tries ih =>
    rcases hnext : c.next m.source with ⟨⟨name, next⟩, source⟩
    rw [claimWithin_succ hnext]
    split
    · next free => exact .single free
    · exact ih next ⟨m.names, source⟩

theorem claim_takes (c : Candidates) (m : Mint) :
    m.names.Takes ((c.claim m).1.toList.map Prod.fst) (c.claim m).2.names :=
  claimWithin_takes _ c m

/-- Variables get their new names in order, and each of these is taken. -/
theorem bindAll_takes {c : Candidates} {declared : List Name} {m : Mint} {bindings : List Binding}
    (h : (c.bindAll declared m).1 = some bindings) :
    bindings.map Binding.declared = declared ∧
      m.names.Takes (bindings.map Binding.generated) (c.bindAll declared m).2.names := by
  induction declared generalizing c m bindings with
  | nil =>
    obtain rfl := Option.some.inj h
    exact ⟨rfl, .nil _⟩
  | cons name declared ih =>
    have htakes := claim_takes c m
    rw [bindAll] at h ⊢
    simp only [Minting.bind_apply] at h ⊢
    cases hclaim : (c.claim m).1 with
    | none =>
      rw [hclaim] at h
      exact absurd h (by simp [Minting.pure_apply])
    | some found =>
      rw [hclaim] at h htakes
      obtain ⟨more, hmore, rfl⟩ := Option.map_eq_some_iff.1 h
      obtain ⟨hdeclared, hmore⟩ := ih hmore
      exact ⟨congrArg (name :: ·) hdeclared, htakes.append hmore⟩

end Candidates
end LuaVeil
