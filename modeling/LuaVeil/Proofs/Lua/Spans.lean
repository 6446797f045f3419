/-
# Spans that alternate

Between two spans of code of a script there is a string or a comment.

Main statement: `alternates_of_scan`, the spans of a script hold no two
neighbouring spans of code, and none of them is empty.
-/
import LuaVeil.Lua.Span
import Mathlib.Data.List.Chain

namespace LuaVeil

/-- Whether no two spans of code are neighbours. -/
def Alternates (spans : List Span) : Prop :=
  spans.IsChain fun a b => a.isCode = true → b.isCode = false

theorem alternates_cons {s : Span} {spans : List Span} : Alternates (s :: spans) ↔
    (s.isCode = true → ∀ next, spans.head? = some next → next.isCode = false) ∧
      Alternates spans := by
  rw [Alternates, List.isChain_cons]
  exact and_congr_left fun _ => ⟨fun h hs next hn => h next hn hs, fun h next hn hs => h hs next hn⟩

/-- Whether spans alternate depends on their kinds only. -/
theorem alternates_congr {xs ys : List Span} (h : xs.map Span.isCode = ys.map Span.isCode) :
    Alternates xs ↔ Alternates ys := by
  have hmap : ∀ spans, Alternates spans ↔
      (spans.map Span.isCode).IsChain fun a b => a = true → b = false := by
    intro spans
    rw [List.isChain_map]
    rfl
  rw [hmap, hmap, h]

theorem isCode_kind (o : Opener) (text : Text) (start stop : Nat) :
    Span.isCode ⟨o.kind, text, start, stop⟩ = false := by
  cases o <;> rfl

/-- Code in front of what is no code alternates with it. -/
theorem alternates_codeSpans (start : Nat) (code : Text) {s : Span} {spans : List Span}
    (hs : s.isCode = false) (h : Alternates spans) :
    Alternates (codeSpans start code ++ s :: spans) := by
  have htail : Alternates (s :: spans) :=
    alternates_cons.2 ⟨fun hc => absurd (hs.symm.trans hc) (by decide), h⟩
  rw [codeSpans]
  split
  · exact htail
  · refine alternates_cons.2 ⟨fun _ next hnext => ?_, htail⟩
    obtain rfl := Option.some.inj hnext
    exact hs

theorem text_of_mem_codeSpans_ne_nil {start : Nat} {code : Text} {s : Span}
    (hs : s ∈ codeSpans start code) : s.text ≠ [] := by
  rw [codeSpans] at hs
  split at hs
  · cases hs
  · next hne =>
    obtain rfl := List.mem_singleton.1 hs
    simpa using hne

theorem Opener.text_append_ne_nil (o : Opener) (body : Text) : o.text ++ body ≠ [] :=
  List.append_ne_nil_of_left_ne_nil (List.length_pos_iff.1 o.length_text_pos) body

theorem alternates_scanFrom {start : Nat} {t : Text} {spans : List Span}
    (h : scanFrom start t = .ok spans) : Alternates spans ∧ ∀ s ∈ spans, s.text ≠ [] := by
  fun_induction scanFrom start t generalizing spans with
  | case1 start t code =>
    obtain rfl := Except.ok.inj h
    refine ⟨?_, fun s hs => text_of_mem_codeSpans_ne_nil hs⟩
    rw [codeSpans]
    split
    · exact List.IsChain.nil
    · exact List.IsChain.singleton _
  | case2 => simp at h
  | case3 start t code place o ho body rest hb text stop =>
    rename_i ih
    cases hs : scanFrom stop rest with
    | error e => simp [hs, Except.map] at h
    | ok more =>
      obtain ⟨halternates, hne⟩ := ih hs
      simp only [hs, Except.map, Except.ok.injEq] at h
      subst h
      refine ⟨alternates_codeSpans start code (isCode_kind _ _ _ _) halternates, ?_⟩
      refine List.forall_mem_append.2 ⟨fun s hs => text_of_mem_codeSpans_ne_nil hs,
        List.forall_mem_cons.2 ⟨o.text_append_ne_nil body, hne⟩⟩

/-- The spans of a script alternate, and none is empty. -/
theorem alternates_of_scan {source : Text} {spans : List Span} (h : scan source = .ok spans) :
    Alternates spans ∧ ∀ s ∈ spans, s.text ≠ [] :=
  alternates_scanFrom h

end LuaVeil
