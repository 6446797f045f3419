/-
# Runs of statements

A run of a tree is a stretch of its terminals that holds complete consecutive
statements of one block. Around a block there are words on both sides that belong
to its frame, so a stretch without such words cannot begin in one block and end
in another.

Main statements:

* `flanked_of_seam`, a seam inside of a statement or expression has a word of a
  frame on each side;
* `run_of_seams`, two seams without such a word between them bound a run.
-/
import LuaVeil.Proofs.Grammar.Gaps

namespace LuaVeil

/-! ## Frames of blocks -/

/-- Whether one of some terminals is a word that belongs to the frame of a block. -/
def HasFrame (ts : List Terminal) : Prop :=
  ∃ t ∈ ts, t.mark.isBlockWord = true

@[simp] theorem hasFrame_cons {t : Terminal} {ts : List Terminal} :
    HasFrame (t :: ts) ↔ t.mark.isBlockWord = true ∨ HasFrame ts := by
  simp [HasFrame]

@[simp] theorem hasFrame_append {xs ys : List Terminal} :
    HasFrame (xs ++ ys) ↔ HasFrame xs ∨ HasFrame ys := by
  simp [HasFrame, or_and_right, exists_or]

/-- Whether a part is a word that belongs to the frame of a block. -/
def Part.isFrame : Part → Bool
  | terminal t => t.mark.isBlockWord
  | tree _ => false

/--
Whether a block among some parts stands alone with words of its frame on both sides, given whether
there was such a word in front of the parts.
-/
def Flanked (seen : Bool) : List Part → Prop
  | [] => True
  | p :: ps =>
    (p.isOf .block = true → seen = true ∧ HasFrame (flatten ps) ∧ ∀ q ∈ ps, q.isOf .block = false) ∧
      Flanked (seen || p.isFrame) ps

theorem flanked_ofTerminals {ts : List Terminal} {ps : List Part} :
    Flanked true (Part.ofTerminals ts ++ ps) ↔ Flanked true ps := by
  induction ts with
  | nil => rfl
  | cons t ts ih => simp [Flanked, Part.isOf, ih]

theorem flanked_of_forall {seen : Bool} {ps : List Part} (h : ∀ p ∈ ps, p.isOf .block = false) :
    Flanked seen ps := by
  induction ps generalizing seen with
  | nil => trivial
  | cons p ps ih =>
    obtain ⟨hp, hps⟩ := List.forall_mem_cons.1 h
    exact ⟨fun hp' => absurd (hp.symm.trans hp') (by decide), ih hps⟩

theorem isOf_block_of_mem_parts {b : Tree .block} {p : Part} (h : p ∈ b.parts) :
    p.isOf .block = false := by
  rcases of_mem_parts h with hp | rfl
  · cases p with
    | terminal t => rfl
    | @tree d s => cases d <;> simp_all [Part.isOf]
  · rfl

theorem isOf_block_of_mem_ofTerminals {ts : List Terminal} {p : Part}
    (h : p ∈ Part.ofTerminals ts) : p.isOf .block = false := by
  obtain ⟨t, -, rfl⟩ := List.mem_map.1 h
  rfl

theorem hasFrame_clauses (rest : Tree .clauses) : HasFrame rest.terminals := by
  have hframe : (Terminal.keyword "end").mark.isBlockWord = true ∧
      (Terminal.keyword "else").mark.isBlockWord = true ∧
      (Terminal.keyword "elseif").mark.isBlockWord = true := by decide
  cases rest <;> simp [Tree.terminals, hframe]

/-- The blocks among the parts of a tree are flanked. -/
theorem flanked_parts {c : Cat} (t : Tree c) : Flanked false t.parts := by
  have hframe : (Terminal.keyword "do").mark.isBlockWord = true ∧
      (Terminal.keyword "while").mark.isBlockWord = true ∧
      (Terminal.keyword "repeat").mark.isBlockWord = true ∧
      (Terminal.keyword "until").mark.isBlockWord = true ∧
      (Terminal.keyword "if").mark.isBlockWord = true ∧
      (Terminal.keyword "else").mark.isBlockWord = true ∧
      (Terminal.keyword "elseif").mark.isBlockWord = true ∧
      (Terminal.keyword "for").mark.isBlockWord = true ∧
      (Terminal.keyword "function").mark.isBlockWord = true ∧
      (Terminal.keyword "local").mark.isBlockWord = false ∧
      (Terminal.keyword "end").mark.isBlockWord = true := by decide
  induction t with
  | next s semicolon rest => exact flanked_of_forall fun p => isOf_block_of_mem_parts
  | last s semicolon => exact flanked_of_forall fun p => isOf_block_of_mem_parts
  | localNames n ns => exact flanked_of_forall fun p => isOf_block_of_mem_ofTerminals
  | localValues n ns es =>
    refine flanked_of_forall fun p hp => ?_
    rcases List.mem_append.1 hp with hp | hp
    · exact isOf_block_of_mem_ofTerminals hp
    · rw [List.mem_singleton.1 hp]
      rfl
  | eachLoop n ns es b =>
    simp [Tree.parts, Part.ofTerminals_append, Flanked, Part.isOf, Part.isFrame, hframe,
      flanked_ofTerminals, Part.terminals]
  | function fn ps b =>
    simp [Tree.parts, Part.ofTerminals_append, Flanked, Part.isOf, Part.isFrame, hframe,
      flanked_ofTerminals, Part.terminals]
  | localFunction n ps b =>
    simp [Tree.parts, Flanked, Part.isOf, Part.isFrame, hframe, flanked_ofTerminals,
      Part.terminals]
  | lambda ps b =>
    simp [Tree.parts, Flanked, Part.isOf, Part.isFrame, hframe, flanked_ofTerminals,
      Part.terminals]
  | _ =>
    simp [Tree.parts, Flanked, Part.isOf, Part.isFrame, hframe, Part.terminals, hasFrame_clauses]

theorem Flanked.drop {before after : List Part} {seen : Bool} (h : Flanked seen (before ++ after)) :
    ∃ seen', Flanked seen' after ∧ (seen' = true → seen = true ∨ HasFrame (flatten before)) := by
  induction before generalizing seen with
  | nil => exact ⟨seen, h, .inl⟩
  | cons p ps ih =>
    obtain ⟨seen', hafter, hseen⟩ := ih h.2
    refine ⟨seen', hafter, fun h' => ?_⟩
    rw [flatten_cons, hasFrame_append]
    rcases hseen h' with h' | h'
    · rcases Bool.or_eq_true _ _ ▸ h' with h' | h'
      · exact .inl h'
      · cases p with
        | terminal t => exact .inr (.inl ⟨t, by simp [Part.terminals], h'⟩)
        | tree s => exact absurd h' (by simp [Part.isFrame])
    · exact .inr (.inr h')

/-- A block among the parts of a tree has words of its frame on both sides, and is the only one. -/
theorem flanked_block {c : Cat} {t : Tree c} {before after : List Part} {b : Tree .block}
    (h : t.parts = before ++ .tree b :: after) : HasFrame (flatten before) ∧
      HasFrame (flatten after) ∧ ∀ p ∈ after, p.isOf .block = false := by
  have hflanked := flanked_parts t
  rw [h] at hflanked
  obtain ⟨seen, hafter, hseen⟩ := hflanked.drop
  obtain ⟨hbefore, hframe, hblocks⟩ := hafter.1 rfl
  exact ⟨(hseen hbefore).resolve_left (by decide), hframe, hblocks⟩

/-! ## Seams and words of frames -/

/-- Whether a word that belongs to the frame of a block is among the terminals from `m` up to `n`. -/
def FrameBetween (ts : List Terminal) (m n : Nat) : Prop :=
  ∃ i a, m ≤ i ∧ i < n ∧ ts[i]? = some a ∧ a.mark.isBlockWord = true

theorem FrameBetween.mono {ts : List Terminal} {m n m' n' : Nat} (h : FrameBetween ts m n)
    (hm : m' ≤ m) (hn : n ≤ n') : FrameBetween ts m' n' := by
  obtain ⟨i, a, hi, hi', ha, hword⟩ := h
  exact ⟨i, a, by omega, by omega, ha, hword⟩

theorem getElem?_append_of_some {α : Type} {ys : List α} {i : Nat} {a : α} (h : ys[i]? = some a)
    (xs zs : List α) : (xs ++ ys ++ zs)[xs.length + i]? = some a := by
  have hlt : i < ys.length := (List.getElem?_eq_some_iff.1 h).1
  rw [List.getElem?_append_left (by simp; omega), List.getElem?_append_right (by omega),
    Nat.add_sub_cancel_left, h]

theorem FrameBetween.append {ys : List Terminal} {m n : Nat} (h : FrameBetween ys m n)
    (xs zs : List Terminal) : FrameBetween (xs ++ ys ++ zs) (xs.length + m) (xs.length + n) := by
  obtain ⟨i, a, hi, hi', ha, hword⟩ := h
  exact ⟨xs.length + i, a, by omega, by omega, getElem?_append_of_some ha xs zs, hword⟩

theorem frameBetween_of_hasFrame {ts : List Terminal} (h : HasFrame ts) :
    FrameBetween ts 0 ts.length := by
  obtain ⟨a, hmem, ha⟩ := h
  obtain ⟨i, hi⟩ := List.getElem?_of_mem hmem
  exact ⟨i, a, Nat.zero_le i, (List.getElem?_eq_some_iff.1 hi).1, hi, ha⟩

section Parts

variable {c d : Cat} {t : Tree c} {s : Tree d} {before after : List Part}

/-- The terminals of a tree around one of its parts. -/
theorem terminals_of_parts (h : t.parts = before ++ .tree s :: after) :
    t.terminals = flatten before ++ s.terminals ++ flatten after := by
  rw [← flatten_parts, h, flatten_append, flatten_cons, List.append_assoc]
  rfl

theorem size_of_parts (h : t.parts = before ++ .tree s :: after) :
    t.size = (flatten before).length + s.size + (flatten after).length := by
  rw [Tree.size, terminals_of_parts h, List.length_append, List.length_append]
  rfl

theorem getElem?_of_parts (h : t.parts = before ++ .tree s :: after) {i : Nat} {a : Terminal}
    (ha : s.terminals[i]? = some a) : t.terminals[(flatten before).length + i]? = some a := by
  rw [terminals_of_parts h]
  exact getElem?_append_of_some ha _ _

theorem FrameBetween.within (h : t.parts = before ++ .tree s :: after) {m n : Nat}
    (hs : FrameBetween s.terminals m n) :
    FrameBetween t.terminals ((flatten before).length + m) ((flatten before).length + n) := by
  rw [terminals_of_parts h]
  exact hs.append _ _

end Parts

theorem Seam.le_size {c : Cat} {t : Tree c} {n : Nat} (h : Seam t n) : n ≤ t.size := by
  induction h with
  | cut h =>
    rw [Tree.size, ← flatten_parts, h, flatten_append, List.length_append]
    omega
  | within h _ ih =>
    rw [size_of_parts h]
    omega

/-- A seam inside of a statement or expression has a word of a frame on each side. -/
theorem frame_of_seam {c : Cat} {t : Tree c} {n : Nat} (h : Seam t n) (hc : c ≠ .block) :
    FrameBetween t.terminals 0 n ∧ FrameBetween t.terminals n t.size := by
  induction h with
  | cut => exact absurd rfl hc
  | @within c d t s before after n h hs ih =>
    have hsize := size_of_parts h
    by_cases hd : d = .block
    · subst hd
      obtain ⟨hbefore, hafter, -⟩ := flanked_block h
      have hle := hs.le_size
      have hfront := (frameBetween_of_hasFrame hbefore).append [] (s.terminals ++ flatten after)
      have hback := (frameBetween_of_hasFrame hafter).append (flatten before ++ s.terminals) []
      have hterminals := terminals_of_parts h
      rw [List.nil_append, ← List.append_assoc, ← hterminals] at hfront
      rw [List.append_nil, ← hterminals, List.length_append] at hback
      simp only [Tree.size] at hle hsize ⊢
      exact ⟨hfront.mono (by simp) (by simp), hback.mono (by omega) (by omega)⟩
    · obtain ⟨hfront, hback⟩ := ih hd
      exact ⟨(hfront.within h).mono (by omega) (by omega), (hback.within h).mono (by omega) (by omega)⟩

/-! ## Runs -/

/--
Whether the terminals of a tree from the place `m` to the place `n` are a run: complete consecutive
statements of one block, with the semicolons after them.
-/
inductive Run : {c : Cat} → Tree c → Nat → Nat → Prop
  | own {b : Tree .block} {d : Cat} {s : Tree d} {before more after : List Part}
      (h : b.parts = before ++ .tree s :: more ++ after) :
      Run b (flatten before).length (flatten (before ++ .tree s :: more)).length
  | within {c d : Cat} {t : Tree c} {s : Tree d} {before after : List Part} {m n : Nat}
      (h : t.parts = before ++ .tree s :: after) (hs : Run s m n) :
      Run t ((flatten before).length + m) ((flatten before).length + n)

section Parts

variable {c d : Cat} {t : Tree c} {s : Tree d} {before after : List Part} {k : Nat}

/-- From a place in front of a tree that is no block to a seam in it there is a word of a frame. -/
theorem frameBetween_to_seam (h : t.parts = before ++ .tree s :: after) (hs : Seam s k)
    (hd : d ≠ .block) {m : Nat} (hm : m ≤ (flatten before).length) :
    FrameBetween t.terminals m ((flatten before).length + k) :=
  ((frame_of_seam hs hd).1.within h).mono (by omega) (Nat.le_refl _)

/-- From a seam in a tree that is no block to a place behind it there is a word of a frame. -/
theorem frameBetween_from_seam (h : t.parts = before ++ .tree s :: after) (hs : Seam s k)
    (hd : d ≠ .block) {n : Nat} (hn : (flatten before).length + s.size ≤ n) :
    FrameBetween t.terminals ((flatten before).length + k) n :=
  ((frame_of_seam hs hd).2.within h).mono (Nat.le_refl _) hn

theorem ne_block_of_parts {b : Tree .block} (h : b.parts = before ++ .tree s :: after) :
    d ≠ .block := by
  rintro rfl
  have hpart := isOf_block_of_mem_parts (b := b) (p := .tree s) (by simp [h])
  exact absurd hpart (by simp [Part.isOf])

theorem length_flatten_le {ps qs : List Part} (h : ps <+: qs) :
    (flatten ps).length ≤ (flatten qs).length := by
  obtain ⟨more, rfl⟩ := h
  simp

/-- A place between two parts is in front of a tree among the parts, or behind it. -/
theorem place_cases (h : t.parts = before ++ .tree s :: after) {before' after' : List Part}
    (h' : t.parts = before' ++ after') : (flatten before').length ≤ (flatten before).length ∨
      (flatten before).length + s.size ≤ (flatten before').length := by
  have hpre : before ++ [.tree s] <+: t.parts := ⟨after, by simp [h]⟩
  have hpre' : before' <+: t.parts := ⟨after', h'.symm⟩
  rcases List.prefix_or_prefix_of_prefix hpre' hpre with hle | hle
  · rcases List.prefix_concat_iff.1 hle with rfl | hle
    · right
      simp [Tree.size, Part.terminals]
    · exact .inl (length_flatten_le hle)
  · have hlen := length_flatten_le hle
    right
    simpa [Tree.size, Part.terminals] using hlen

end Parts

theorem append_cons_cases {α : Type} {xs xs' ys ys' : List α} {a a' : α}
    (h : xs ++ a :: ys = xs' ++ a' :: ys') : (xs = xs' ∧ a = a' ∧ ys = ys') ∨
      (∃ zs, xs' = xs ++ a :: zs ∧ ys = zs ++ a' :: ys') ∨
      ∃ zs, xs = xs' ++ a' :: zs ∧ ys' = zs ++ a :: ys := by
  rcases List.append_eq_append_iff.1 h with ⟨zs, rfl, hzs⟩ | ⟨zs, rfl, hzs⟩
  · cases zs with
    | nil => simp_all
    | cons b zs =>
      obtain ⟨rfl, rfl⟩ := List.cons.inj hzs
      exact .inr (.inl ⟨zs, rfl, rfl⟩)
  · cases zs with
    | nil => simp_all
    | cons b zs =>
      obtain ⟨rfl, rfl⟩ := List.cons.inj hzs
      exact .inr (.inr ⟨zs, rfl, rfl⟩)

/-- Two places between the parts of a block bound a run, if no semicolon is first. -/
theorem run_of_cuts {b : Tree .block} {before after before' after' : List Part}
    (h : b.parts = before ++ after) (h' : b.parts = before' ++ after')
    (hlt : (flatten before).length < (flatten before').length)
    (hfirst : ∀ a, b.terminals[(flatten before).length]? = some a → a ≠ .sign ";") :
    Run b (flatten before).length (flatten before').length := by
  have hpre : before <+: b.parts := ⟨after, h.symm⟩
  have hpre' : before' <+: b.parts := ⟨after', h'.symm⟩
  rcases List.prefix_or_prefix_of_prefix hpre hpre' with ⟨more, rfl⟩ | hle
  · cases more with
    | nil => simp at hlt
    | cons p more =>
      have hp : p ∈ b.parts := by simp [h']
      cases p with
      | tree s => exact Run.own h'
      | terminal a =>
        -- the only terminals among the parts of a block are semicolons
        have ha : a = .sign ";" := by simpa [Part.isOf] using of_mem_parts hp
        refine absurd ha (hfirst a ?_)
        rw [← flatten_parts, h']
        simp [Part.terminals]
  · have hlen := length_flatten_le hle
    omega

/-- Two seams without a word of a frame between them bound a run, if no semicolon is first. -/
theorem run_of_seams {c : Cat} (t : Tree c) {m n : Nat} (hm : Seam t m) (hn : Seam t n)
    (hlt : m < n) (hframe : ¬ FrameBetween t.terminals m n)
    (hfirst : ∀ a, t.terminals[m]? = some a → a ≠ .sign ";") : Run t m n := by
  induction t using Tree.induction_on_parts generalizing m n with
  | @step c t ih =>
    cases hm with
    | @cut _ before after h =>
      cases hn with
      | @cut _ before' after' h' => exact run_of_cuts h h' hlt hfirst
      | @within _ d _ s before' after' k h' hs =>
        have hle := hs.le_size
        refine absurd (frameBetween_to_seam h' hs (ne_block_of_parts h') ?_) hframe
        rcases place_cases h' h with hbefore | hbehind
        · exact hbefore
        · omega
    | @within _ d _ s before after k h hs =>
      have hle := hs.le_size
      cases hn with
      | @cut _ before' after' h' =>
        refine absurd (frameBetween_from_seam h hs (ne_block_of_parts h) ?_) hframe
        rcases place_cases h h' with hbefore | hbehind
        · omega
        · exact hbehind
      | @within _ d' _ s' before' after' k' h' hs' =>
        have hle' := hs'.le_size
        rcases append_cons_cases (h.symm.trans h') with ⟨rfl, hss, rfl⟩ | ⟨mid, hmid, hafter⟩ | ⟨mid, hmid, -⟩
        · cases hss
          have hmem : Part.tree s ∈ t.parts := by simp [h]
          refine Run.within h (ih _ hmem hs hs' (by omega) ?_ fun a ha => ?_)
          · exact fun hinside => hframe (hinside.within h)
          · exact hfirst a (getElem?_of_parts h ha)
        · have hbehind : (flatten before).length + s.size ≤ (flatten before').length := by
            simp [hmid, Tree.size, Part.terminals]
          by_cases hd : d = .block
          · subst hd
            have halone := (flanked_block h).2.2 (.tree s') (by simp [hafter])
            have hd' : d' ≠ .block := by simpa [Part.isOf] using halone
            exact absurd (frameBetween_to_seam h' hs' hd' (by omega)) hframe
          · exact absurd (frameBetween_from_seam h hs hd (by omega)) hframe
        · have hbehind : (flatten before').length + s'.size ≤ (flatten before).length := by
            simp [hmid, Tree.size, Part.terminals]
          omega

end LuaVeil
