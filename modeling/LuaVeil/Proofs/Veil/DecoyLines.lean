/-
# What decoys are made of

The decoys of a script are decided in order, and where they go does not depend on
what they are. `Decoy.scatter` decides them without looking at the lines, and
`Decoy.weave` puts the decided decoys between the lines.

Main statements:

* `make_eq`, a decoy is a filled template;
* `inject_eq` and `injectDecoys_eq`, decoys are decided by `scatter` and put in
  by `weave`.
-/
import LuaVeil.Veil.Decoys

namespace LuaVeil.Decoy

/-- A template with what is filled into it. -/
structure Filled where
  template : Text
  name : Option Name
  number : Option Int

namespace Filled

/-- The template with its name. -/
def named (d : Filled) : Text :=
  match d.name with
  | some name => Text.replaceAll nameHole name d.template
  | none => d.template

/-- The text of a decoy. -/
def text (d : Filled) : Text :=
  match d.number with
  | some n => Text.replaceAll numberHole (Number.decimalInt n) d.named
  | none => d.named

/-- Fill in a number, if the template asks for one. -/
def fillNumber (d : Filled) : Minting Filled :=
  if Text.occursIn numberHole d.named then
    (fun n => { d with number := some n }) <$> Minting.draw (Draw.between .word 1 maxNumber)
  else pure d

theorem fillNumber_eq {d : Filled} (h : d.number = none) :
    Decoy.fillNumber d.named = text <$> d.fillNumber := by
  unfold Decoy.fillNumber fillNumber
  by_cases hnumber : Text.occursIn numberHole d.named = true
  · rw [if_pos hnumber, if_pos hnumber, Functor.map_map]
    rfl
  · rw [if_neg hnumber, if_neg hnumber, map_pure, text, h]

end Filled

/-- What is filled into a template. -/
def fill (template : Text) : Minting Filled :=
  if Text.occursIn nameHole template then do
    let name ← Minting.freshName
    Filled.fillNumber ⟨template, some name, none⟩
  else Filled.fillNumber ⟨template, none, none⟩

/-- A decoy is a filled template. -/
theorem make_eq (template : Text) : make template = Filled.text <$> fill template := by
  unfold make fill fillName
  by_cases hname : Text.occursIn nameHole template = true
  · simp only [if_pos hname, bind_assoc, pure_bind, map_bind]
    exact bind_congr fun name => Filled.fillNumber_eq (d := ⟨template, some name, none⟩) rfl
  · simp only [if_neg hname, pure_bind]
    exact Filled.fillNumber_eq (d := ⟨template, none, none⟩) rfl

/-- A decoy, or none, for a place; whether one may stand there is given. -/
def decide? (p : Probability) (templates : List Text) : Bool → Minting (Option Filled)
  | false => pure none
  | true => do
    if ← Minting.draw (Draw.chance p) then
      let template ← Minting.draw (Draw.pick [] templates)
      some <$> fill template
    else return none

/-- A decoy, or none, for each place. -/
def scatter (p : Probability) (templates : List Text) : List Bool → Minting (List (Option Filled))
  | [] => pure []
  | boundary :: places => do
    let decoy ← decide? p templates boundary
    let more ← scatter p templates places
    return decoy :: more

/-- The lines with decoys after some of them, indented like the line that follows. -/
def weave : List Line → List (Option Filled) → List Line
  | l :: lines, some d :: decoys =>
    l :: .synthetic ((lines.head?.getD l).indent ++ d.text) l.stop :: weave lines decoys
  | l :: lines, none :: decoys => l :: weave lines decoys
  | lines, _ => lines

/-- Decoys are decided by `scatter` and put in by `weave`. -/
theorem inject_eq (p : Probability) (templates : List Text) (judged : List (Line × Bool)) :
    inject p templates judged =
      (fun decoys => (weave (judged.map Prod.fst) decoys, (decoys.filter Option.isSome).length)) <$>
        scatter p templates (judged.map Prod.snd) := by
  induction judged with
  | nil => rfl
  | cons place judged ih =>
    obtain ⟨l, boundary⟩ := place
    have hmiss : (do
        let more ← scatter p templates (judged.map Prod.snd)
        return (l :: weave (judged.map Prod.fst) more, (more.filter Option.isSome).length)) =
      (fun decoys => (weave (l :: judged.map Prod.fst) decoys,
        (decoys.filter Option.isSome).length)) <$> (do
          let more ← scatter p templates (judged.map Prod.snd)
          return none :: more) := by
      simp [weave]
    cases boundary with
    | false =>
      simp only [inject, scatter, decide?, List.map_cons, ih, bind_map_left, Bool.false_eq_true,
        if_false, pure_bind]
      exact hmiss
    | true =>
      simp only [inject, scatter, decide?, List.map_cons, ih, bind_map_left, if_true, map_bind,
        bind_assoc]
      refine bind_congr fun hit => ?_
      cases hit with
      | false =>
        simp only [Bool.false_eq_true, if_false, pure_bind]
        exact hmiss
      | true =>
        simp only [if_true, after, make_eq, bind_assoc, bind_map_left, pure_bind]
        refine bind_congr fun template => bind_congr fun d => ?_
        simp [weave]

/-- What becomes of the lines of a script: a decoy, or none, after each. -/
def decisions (p : Probability) (templates : List Text) (spans : List Span) :
    Minting (List (Option Filled)) :=
  if templates.isEmpty then pure []
  else
    let lines := splitLines spans
    scatter p templates (lines.mapIdx fun i _ => isBoundaryAfter lines i)

/-- Decoys are put into a script as they are decided. -/
theorem injectDecoys_eq {p : Probability} {templates : List Text} (h : templates ≠ [])
    (spans : List Span) :
    injectDecoys p templates spans =
      (fun decoys =>
        (joinLines (weave (splitLines spans) decoys), (decoys.filter Option.isSome).length)) <$>
        decisions p templates spans := by
  have hempty : templates.isEmpty = false := List.isEmpty_eq_false_iff.2 h
  have hjudged : ∀ lines : List Line,
      (lines.mapIdx fun i l => (l, isBoundaryAfter lines i)).map Prod.fst = lines ∧
        (lines.mapIdx fun i l => (l, isBoundaryAfter lines i)).map Prod.snd =
          lines.mapIdx fun i _ => isBoundaryAfter lines i := by
    intro lines
    constructor <;> refine List.ext_getElem (by simp) fun i _ _ => by simp
  simp [injectDecoys, decisions, hempty, inject_eq, hjudged]

end LuaVeil.Decoy
