/-
# Fresh names

Main statement: `isLettered_freshName`, a fresh name is an underscore with
letters after it, whatever the namespace and the random words are.
-/
import LuaVeil.Names.Namespace

namespace LuaVeil

/-- An item of a list, and the fallback if the list is empty. -/
theorem mem_of_pick {α : Type} (fallback : α) (items : List α) (s : Source) :
    (Draw.pick fallback items s).1 ∈ fallback :: items := by
  show items.getD (Draw.index items.length s).1 fallback ∈ fallback :: items
  rw [List.getD_eq_getElem?_getD]
  cases h : items[(Draw.index items.length s).1]? with
  | none => exact List.mem_cons_self
  | some c => exact List.mem_cons_of_mem _ (List.mem_of_getElem? h)

namespace Minting

/-- Whether a name is an underscore with letters after it. -/
def IsLettered (name : Name) : Prop :=
  ∃ word, name = '_' :: word ∧ ∀ c ∈ word, c ∈ letters

theorem mem_letters_of_drawChars {n : Nat} {s : Source} {c : Char}
    (h : c ∈ (drawChars letters n s).1) : c ∈ letters := by
  induction n generalizing s with
  | zero => exact absurd h List.not_mem_nil
  | succ n ih =>
    have hcons : (drawChars letters (n + 1) s).1 =
        (Draw.pick 'a' letters s).1 :: (drawChars letters n (Draw.pick 'a' letters s).2).1 := rfl
    rw [hcons] at h
    rcases List.mem_cons.1 h with h | h
    · rw [h]
      rcases List.mem_cons.1 (mem_of_pick 'a' letters s) with hpick | hpick
      · rw [hpick]
        decide
      · exact hpick
    · exact ih h

theorem isLettered_drawName (length : Nat) (s : Source) : IsLettered (drawName length s).1 :=
  ⟨(drawChars letters length s).1, rfl, fun _ => mem_letters_of_drawChars⟩

theorem isLettered_of_tryNames {length tries : Nat} {m : Mint} {name : Name}
    (h : (tryNames length tries m).1 = some name) : IsLettered name := by
  induction tries generalizing m with
  | zero => exact absurd h (by simp [tryNames, pure_apply])
  | succ tries ih =>
    rw [tryNames] at h
    simp only [bind_apply] at h
    split at h
    · obtain rfl := Option.some.inj h
      exact isLettered_drawName length m.source
    · exact ih h

theorem isLettered_freshNameFrom (longest length : Nat) (m : Mint) :
    IsLettered (freshNameFrom longest length m).1 := by
  fun_induction freshNameFrom longest length generalizing m with
  | case1 length hle => exact isLettered_drawName length m.source
  | case2 length hle ih =>
    rw [bind_apply]
    cases htry : (tryNames length triesPerLength m).1 with
    | some name => exact isLettered_of_tryNames htry
    | none => exact ih _

/-- A fresh name is an underscore with letters after it. -/
theorem isLettered_freshName (m : Mint) : IsLettered (freshName m).1 :=
  isLettered_freshNameFrom m.names.longest 4 m

end Minting
end LuaVeil
