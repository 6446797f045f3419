/-
# Deferred actions during a walk

Between two statements no action of the innermost scope waits, and inside an
expression one that waits goes on waiting: the next occurrence continues the
expression, or none could have ended there, or a bracket is open.

Main statements:

* `Fits.settle_of_continues`, `Fits.still_of_not_endsOperand`, `Fits.still` and
  `Fits.still_bracket`, where nothing is done;
* `settle_defer`, what is done after an expression.
-/
import LuaVeil.Proofs.Scope.Walk

namespace LuaVeil

/-! ## What follows -/

/-- Whether the first of some occurrences, if there is one, is in no hole and satisfies `p`. -/
def Follows (p : Mark → Bool) (os : List Occurrence) : Prop :=
  ∀ o ∈ os.head?, o.inHole = false ∧ p o.mark = true

theorem follows_nil {p : Mark → Bool} : Follows p [] := by
  simp [Follows]

theorem follows_cons {p : Mark → Bool} {o : Occurrence} {t : Terminal} (hhole : o.inHole = false)
    (hmark : o.mark = t.mark) (hp : p t.mark = true) (os : List Occurrence) :
    Follows p (o :: os) := by
  simp [Follows, hhole, hmark, hp]

theorem Follows.mono {p q : Mark → Bool} {os : List Occurrence} (h : Follows p os)
    (hpq : ∀ m, p m = true → q m = true) : Follows q os :=
  fun o ho => ⟨(h o ho).1, hpq o.mark (h o ho).2⟩

theorem Follows.any_eq_false {p q : Mark → Bool} {os : List Occurrence} (h : Follows p os)
    (hpq : ∀ m, p m = true → q m = false) : (firstMark os).any q = false := by
  cases os with
  | nil => rfl
  | cons o os => exact hpq o.mark (h o rfl).2

namespace Mark

/-- Whether a mark can follow expressions. -/
def followsExps (m : Mark) : Bool :=
  !m.isSymbolOf ["="]

/-- Whether a mark is a word that is no operator between operands, or the given symbol. -/
def isWordOr (sign : String) : Mark → Bool
  | m@(word _) => !m.isWordOf ["and", "or"]
  | m@(symbol _) => m.isSymbolOf [sign]
  | number => false
  | string => false

/-- Whether a mark can follow a statement without changing its end. -/
def followsStat (m : Mark) : Bool :=
  m.isWordOr ";"

/-- Whether a statement can begin with a mark. -/
def beginsStat (m : Mark) : Bool :=
  m.isWordOr "("

/-- Whether a mark can follow a block. -/
def followsBlock (m : Mark) : Bool :=
  m.isWordOf ["end", "else", "elseif", "until"]

theorem followsStat_of_followsBlock {m : Mark} (h : m.followsBlock = true) :
    m.followsStat = true := by
  cases m with
  | word w =>
    simp only [followsBlock, isWordOf, List.any_cons, List.any_nil, Bool.or_false, Bool.or_eq_true,
      beq_iff_eq] at h
    rcases h with rfl | rfl | rfl | rfl <;> decide
  | symbol t => simp [followsBlock, isWordOf] at h
  | number => simp [followsBlock, isWordOf] at h
  | string => simp [followsBlock, isWordOf] at h

theorem isSymbolOf_of_isWordOr {m : Mark} {sign : String} (h : m.isWordOr sign = true)
    {symbols : List String} (hsign : sign ∉ symbols) : m.isSymbolOf symbols = false := by
  cases m with
  | word w => rfl
  | symbol t =>
    simp only [isWordOr, isSymbolOf, List.any_cons, List.any_nil, Bool.or_false, beq_iff_eq] at h
    simp only [isSymbolOf, List.any_eq_false, beq_iff_eq]
    intro other hother heq
    exact hsign (String.toList_inj.1 (h.trans heq.symm) ▸ hother)
  | number => simp [isWordOr] at h
  | string => simp [isWordOr] at h

theorem followsStat_of_beginsStat {m : Mark} (h : m.beginsStat = true)
    (hopen : m.isSymbolOf ["("] = false) : m.followsStat = true := by
  cases m with
  | word w => exact h
  | symbol t => exact absurd (h.symm.trans hopen) (by simp)
  | number => simp [beginsStat, isWordOr] at h
  | string => simp [beginsStat, isWordOr] at h

theorem followsExps_of_followsStat {m : Mark} (h : m.followsStat = true) :
    m.followsExps = true := by
  rw [followsExps, isSymbolOf_of_isWordOr h (by decide), Bool.not_false]

theorem continuesExpression_of_followsStat {m : Mark} (h : m.followsStat = true) :
    m.continuesExpression = false := by
  cases m with
  | word w =>
    rw [followsStat, isWordOr, Bool.not_eq_true'] at h
    exact h
  | symbol t => exact isSymbolOf_of_isWordOr h (by decide)
  | number => simp [followsStat, isWordOr] at h
  | string => simp [followsStat, isWordOr] at h

end Mark

namespace ScopeState

/-! ## Scopes inside others -/

/-- A scope with some names inside those of a state. -/
def inner (s : ScopeState) (names : List Name) : ScopeState :=
  { s with scope := names, outer := s.scope :: s.outer }

/-- Whether the innermost open bracket is the brace of a table. -/
def inBraces (s : ScopeState) : Bool :=
  s.brackets.head? == some ['\x7b']

/--
Whether a state is one at a place where the names of `env` are visible: no conditional expression
is open, and what waits was begun in the open scopes and brackets.
-/
structure Fits (reserved : Reserved) (env : List Name) (s : ScopeState) : Prop where
  conditionals : s.conditionals = []
  branch : s.inBranch = false
  loops : ∀ l ∈ s.loops.head?, l.1 ≤ s.depth
  pending : ∀ p ∈ s.pending.head?, p.depth ≤ s.depth ∧ p.brackets ≤ s.brackets.length
  visible : ∀ n, s.isVisible n = (env.contains n && !reserved.contains n)

/-- Whether nothing waits that was begun in the innermost scope. -/
structure Settled (s : ScopeState) : Prop where
  loops : ∀ l ∈ s.loops.head?, l.1 < s.depth
  pending : ∀ p ∈ s.pending.head?, p.depth < s.depth

/-- Whether no deferred action is done after the mark `f`. -/
def Still (s : ScopeState) (f : Option Mark) : Prop :=
  ∀ m, s.settle f m = s

variable {reserved : Reserved} {env names : List Name} {s : ScopeState} {f : Option Mark}
  {m : Mark} {o : Occurrence} {t : Terminal}

/-! ## Nothing is done -/

/-- Pending actions whose newest one goes on waiting stay. -/
theorem settlePending_eq {ps : List Pending}
    (h : ∀ p ∈ ps.head?, s.hasLeft p = false ∧ s.hasEnded p f m = false) :
    settlePending f m ps s = { s with pending := ps } := by
  cases ps with
  | nil => rfl
  | cons p ps =>
    obtain ⟨hleft, hended⟩ := h p rfl
    rw [settlePending, hleft, hended]
    rfl

theorem settle_eq_self (h : ∀ p ∈ s.pending.head?, s.hasLeft p = false ∧ s.hasEnded p f m = false) :
    s.settle f m = s :=
  settlePending_eq h

/-- An action of a scope around the innermost one waits. -/
theorem waits_of_lt {p : Pending} (hdepth : p.depth < s.depth)
    (hbrackets : p.brackets ≤ s.brackets.length) :
    s.hasLeft p = false ∧ s.hasEnded p f m = false := by
  have hne : (s.depth == p.depth) = false := beq_false_of_ne (Nat.ne_of_gt hdepth)
  refine ⟨?_, by simp [hasEnded, hne]⟩
  simp [hasLeft, Nat.le_of_lt hdepth, hbrackets]

namespace Fits

theorem hasLeft (h : Fits reserved env s) {p : Pending} (hp : p ∈ s.pending.head?) :
    s.hasLeft p = false := by
  obtain ⟨hdepth, hbrackets⟩ := h.pending p hp
  simp [ScopeState.hasLeft, hdepth, hbrackets]

/-- Nothing is done before a mark that continues an expression. -/
theorem settle_of_continues (h : Fits reserved env s) (hm : m.continuesExpression = true) :
    s.settle f m = s :=
  settle_eq_self fun p hp => ⟨h.hasLeft hp, by simp [hasEnded, hm]⟩

theorem settle_before (h : Fits reserved env s) (hmark : o.mark = t.mark)
    (ht : t.mark.continuesExpression = true) : s.settle f o.mark = s :=
  h.settle_of_continues (by rw [hmark]; exact ht)

/-- Nothing is done after a mark in which no expression ends. -/
theorem still_of_not_endsOperand (h : Fits reserved env s) (hmark : o.mark = t.mark)
    (ht : t.mark.endsOperand = false) : Still s (some o.mark) :=
  fun _ => settle_eq_self fun p hp => ⟨h.hasLeft hp, by simp [hasEnded, hmark, ht]⟩

/-- Nothing is done where nothing was begun in the innermost scope. -/
theorem still (h : Fits reserved env s) (hs : Settled s) (f : Option Mark) : Still s f :=
  fun _ => settle_eq_self fun p hp => waits_of_lt (hs.pending p hp) (h.pending p hp).2

/-! ### Brackets -/

theorem bracket (h : Fits reserved env s) (b : Text) :
    Fits reserved env { s with brackets := b :: s.brackets } where
  conditionals := h.conditionals
  branch := h.branch
  loops := h.loops
  pending := fun p hp => ⟨(h.pending p hp).1, Nat.le_succ_of_le (h.pending p hp).2⟩
  visible := h.visible

/-- Nothing is done inside a bracket. -/
theorem still_bracket (h : Fits reserved env s) (b : Text) (f : Option Mark) :
    Still { s with brackets := b :: s.brackets } f := by
  intro m
  refine settle_eq_self fun p hp => ⟨(h.bracket b).hasLeft hp, ?_⟩
  have hbrackets : (s.brackets.length + 1 == p.brackets) = false :=
    beq_false_of_ne (Nat.ne_of_gt (Nat.lt_succ_of_le (h.pending p hp).2))
  simp [hasEnded, hbrackets]

/-! ### Scopes -/

theorem isVisible_inner (s : ScopeState) (names : List Name) (n : Name) :
    (s.inner names).isVisible n = (names.contains n || s.isVisible n) := by
  simp [isVisible, inner]

/-- A scope with the names of a list that are not reserved fits where these are visible as well. -/
theorem inner (h : Fits reserved env s) {added : List Name}
    (hnames : ∀ n, names.contains n = (added.contains n && !reserved.contains n)) :
    Fits reserved (added ++ env) (s.inner names) where
  conditionals := h.conditionals
  branch := h.branch
  loops := fun l hl => Nat.le_succ_of_le (h.loops l hl)
  pending := fun p hp => ⟨Nat.le_succ_of_le (h.pending p hp).1, (h.pending p hp).2⟩
  visible := by
    intro n
    rw [isVisible_inner, hnames, h.visible, List.contains_append, Bool.and_or_distrib_right]

theorem settled_inner (h : Fits reserved env s) (names : List Name) : Settled (s.inner names) where
  loops := fun l hl => Nat.lt_succ_of_le (h.loops l hl)
  pending := fun p hp => Nat.lt_succ_of_le (h.pending p hp).1

/-- Nothing is done in a scope before its end. -/
theorem still_inner (h : Fits reserved env s) (names : List Name) (f : Option Mark) :
    Still (s.inner names) f :=
  fun _ => settle_eq_self fun p hp =>
    waits_of_lt ((h.settled_inner names).pending p hp) (h.pending p hp).2

/-- Names that become visible in the innermost scope. -/
theorem bind (h : Fits reserved env s) {added : List Name}
    (hnames : ∀ n, names.contains n = (added.contains n && !reserved.contains n)) :
    Fits reserved (added ++ env) { s with scope := names ++ s.scope } where
  conditionals := h.conditionals
  branch := h.branch
  loops := h.loops
  pending := h.pending
  visible := by
    intro n
    have hvisible := h.visible n
    simp only [isVisible] at hvisible ⊢
    rw [List.contains_append, hnames, Bool.or_assoc, hvisible, List.contains_append,
      Bool.and_or_distrib_right]

/-- A reserved name makes no difference. -/
theorem of_reserved (h : Fits reserved env s) {n : Name} (hn : reserved.contains n = true) :
    Fits reserved (n :: env) s where
  conditionals := h.conditionals
  branch := h.branch
  loops := h.loops
  pending := h.pending
  visible := by
    intro k
    rw [h.visible]
    by_cases hk : k = n
    · subst hk
      simp [hn]
    · simp [hk]

/-! ### Waiting actions -/

/-- Where an action of the innermost scope waits. -/
theorem defer (h : Fits reserved env s) (action : Deferred) :
    Fits reserved env (s.defer action) where
  conditionals := h.conditionals
  branch := h.branch
  loops := h.loops
  pending := by
    simp [ScopeState.defer, depth]
  visible := h.visible

/-- Where the names of a loop of the innermost scope wait. -/
theorem loop (h : Fits reserved env s) (names : List Name) :
    Fits reserved env { s with loops := (s.depth, names) :: s.loops } where
  conditionals := h.conditionals
  branch := h.branch
  loops := by
    simp [depth]
  pending := h.pending
  visible := h.visible

end Fits

/-! ## What is done after an expression -/

/-- After an expression its action is done, and nothing else if that settles the rest. -/
theorem settle_defer {s' : ScopeState} {action : Deferred} (hconditionals : s.conditionals = [])
    (hperform : (s.defer action).perform action = { s' with pending := (s.defer action).pending })
    (hpending : s'.pending = s.pending) (hfits : Fits reserved env s') (hsettled : Settled s')
    (hf : f.any Mark.endsOperand = true) (hm : m.continuesExpression = false) :
    (s.defer action).settle f m = s' := by
  have hwaits : (s.defer action).pending =
      ⟨s.depth, s.brackets.length, 0, action⟩ :: s.pending := by
    simp [defer, hconditionals]
  have hleft : (s.defer action).hasLeft ⟨s.depth, s.brackets.length, 0, action⟩ = false := by
    simp [hasLeft, defer, depth]
  have hended :
      (s.defer action).hasEnded ⟨s.depth, s.brackets.length, 0, action⟩ f m = true := by
    simp [hasEnded, defer, depth, hconditionals, hf, hm]
  rw [settle, hwaits, settlePending, hleft, hended, if_neg (by simp), if_pos rfl, hperform,
    ← hpending]
  -- the actions under it belong to scopes around `s'`
  exact settlePending_eq fun p hp => waits_of_lt (hsettled.pending p hp) (hfits.pending p hp).2

end ScopeState
end LuaVeil
