/-
# Runs that finish

A run finishes if its request is accepted, its script can be scanned, and there
are names enough. What it has then made of the script does not depend on the
time, and only through the random words on the seed; so it is described for every
source of random words.

Main statement: `runWithSeed_eq_ok_iff`, the runs that have an outcome are those
that finish.
-/
import LuaVeil.Job.Run

namespace LuaVeil

/-! ## Passes in a row -/

namespace Pass

variable {p : Pass} {passes later : List Pass} {w w' : Work} {m : Mint}

/-- If passes go through, the first does, and the others begin with what it leaves. -/
theorem exists_of_runAll_cons (h : (runAll w (p :: passes) m).1 = some w') :
    ∃ next changed, (p.run w m).1 = some (next, changed) ∧
      runAll w (p :: passes) m = runAll next passes (p.run w m).2 := by
  rw [runAll, Minting.bind_apply] at h ⊢
  cases hrun : (p.run w m).1 with
  | none =>
    rw [hrun] at h
    cases h
  | some out =>
    obtain ⟨next, changed⟩ := out
    exact ⟨next, changed, rfl, rfl⟩

/-- If passes go through, so do the first of them, and the others begin with what these leave. -/
theorem exists_of_runAll_append (h : (runAll w (passes ++ later) m).1 = some w') :
    ∃ next, (runAll w passes m).1 = some next ∧
      runAll w (passes ++ later) m = runAll next later (runAll w passes m).2 := by
  induction passes generalizing w m with
  | nil => exact ⟨w, rfl, rfl⟩
  | cons p passes ih =>
    obtain ⟨first, changed, hrun, hmore⟩ := exists_of_runAll_cons h
    have hmore' : (runAll first (passes ++ later) (p.run w m).2).1 = some w' :=
      (congrArg Prod.fst hmore).symm.trans h
    obtain ⟨next, hnext, hlater⟩ := ih hmore'
    have hcons : runAll w (p :: passes) m = runAll first passes (p.run w m).2 := by
      rw [runAll, Minting.bind_apply, hrun]
    rw [hcons]
    exact ⟨next, hnext, hmore.trans hlater⟩

end Pass

/-! ## Runs -/

/-- A run leaves what its passes leave, and a fresh name for the stub. -/
theorem veil_fst (passes : List Pass) (dialect : Dialect) (spans : List Span) (m : Mint) :
    (veil passes dialect spans m).1 =
      (Pass.runAll (.start spans dialect) passes m).1.map fun w =>
        ⟨w.declarations, render w.spans,
          (Minting.freshName (Pass.runAll (.start spans dialect) passes m).2).1, w.stats⟩ := by
  rw [veil, Minting.bind_apply]
  cases (Pass.runAll (.start spans dialect) passes m).1 with
  | none => rfl
  | some w => rfl

/-- A run has an outcome if its passes go through. -/
theorem veil_eq_some_iff {passes : List Pass} {dialect : Dialect} {spans : List Span} {m : Mint}
    {v : Veiled} : (veil passes dialect spans m).1 = some v ↔
      ∃ w, (Pass.runAll (.start spans dialect) passes m).1 = some w ∧
        v = ⟨w.declarations, render w.spans,
          (Minting.freshName (Pass.runAll (.start spans dialect) passes m).2).1, w.stats⟩ := by
  rw [veil_fst, Option.map_eq_some_iff]
  exact exists_congr fun w => and_congr_right fun _ => eq_comm

namespace Rules

/-- The mint of a run: all words of the script are taken. -/
def mint (rules : Rules) (spans : List Span) (source : Source) : Mint :=
  ⟨.ofSpans rules.reserved spans, source⟩

/-- A run finishes: the spans of its script, and what the passes leave. -/
structure Finishes (rules : Rules) (r : Request) (source : Source) (spans : List Span)
    (v : Veiled) : Prop where
  checked : r.check = .ok ()
  scanned : scan r.source = .ok spans
  veiled : (veil (r.preset.plan.passes rules) r.dialect spans (rules.mint spans source)).1 = some v

/-- A run of a script that can be scanned. -/
theorem runWithSeed_of_scan {rules : Rules} {r : Request} {spans : List Span} (now : Instant)
    (seed : Seed) (h : scan r.source = .ok spans) :
    rules.runWithSeed now r seed = (r.check.mapError Failure.request).bind fun _ =>
      (veil (r.preset.plan.passes rules) r.dialect spans (rules.mint spans seed.source)).1.elim
        (.error .namesExhausted) fun v => .ok <|
          r.outcome ((⟨r.preset, r.dialect, now⟩ : Banner).wrap v.declarations v.body v.stubName)
            (some v.stats) := by
  have hok : ∀ {α ε ε' : Type} (f : ε → ε') (a : α), (Except.ok a).mapError f = .ok a :=
    fun _ _ => rfl
  rw [runWithSeed, h]
  cases r.check with
  | error e => rfl
  | ok _ =>
    simp only [hok, bind, Except.bind]
    rw [← mint]
    cases (veil (r.preset.plan.passes rules) r.dialect spans (rules.mint spans seed.source)).1 with
    | none => rfl
    | some v => rfl

/-- The runs that have an outcome are those that finish. -/
theorem runWithSeed_eq_ok_iff {rules : Rules} {now : Instant} {r : Request} {seed : Seed}
    {outcome : Outcome} :
    rules.runWithSeed now r seed = .ok outcome ↔
      ∃ spans v, rules.Finishes r seed.source spans v ∧
        r.outcome ((⟨r.preset, r.dialect, now⟩ : Banner).wrap v.declarations v.body v.stubName)
          (some v.stats) = outcome := by
  constructor
  · intro h
    cases hcheck : r.check with
    | error e =>
      rw [runWithSeed, hcheck] at h
      cases h
    | ok _ =>
      cases hscan : scan r.source with
      | error e =>
        rw [runWithSeed, hcheck, hscan] at h
        cases h
      | ok spans =>
        rw [runWithSeed_of_scan now seed hscan, hcheck] at h
        cases hveil : (veil (r.preset.plan.passes rules) r.dialect spans
            (rules.mint spans seed.source)).1 with
        | none =>
          rw [hveil] at h
          cases h
        | some v =>
          rw [hveil] at h
          exact ⟨spans, v, ⟨hcheck, hscan, hveil⟩, Except.ok.inj h⟩
  · rintro ⟨spans, v, ⟨hcheck, hscan, hveil⟩, rfl⟩
    rw [runWithSeed_of_scan now seed hscan, hcheck, hveil]
    rfl

end Rules
end LuaVeil
