/-
# Gaps between terminals

A gap of a tree is a place between two of its terminals. A seam is a gap between
two statements of one block, or the start or end of a block; a semicolon may be
on either side of it. Whether a gap is a seam can nearly be told from the two
terminals at it and from the brackets that are open there.

Main statement: `seam_of_gap`, a gap outside of all brackets is a seam, unless
the terminal in front of it waits for more or the terminal behind it goes on with
a statement.
-/
import LuaVeil.Proofs.Grammar.Brackets

namespace LuaVeil

/-! ## Seams -/

/--
Whether the gap after the first `n` terminals of a tree is a seam: it is between two parts of a
block, or at its start or end. The parts of a block are its statements, and semicolons after them.
-/
inductive Seam : {c : Cat} → Tree c → Nat → Prop
  | cut {b : Tree .block} {before after : List Part} (h : b.parts = before ++ after) :
      Seam b (flatten before).length
  | within {c d : Cat} {t : Tree c} {s : Tree d} {before after : List Part} {n : Nat}
      (h : t.parts = before ++ .tree s :: after) (hs : Seam s n) :
      Seam t ((flatten before).length + n)

theorem Seam.start (b : Tree .block) : Seam b 0 :=
  Seam.cut (List.nil_append b.parts).symm

theorem Seam.stop (b : Tree .block) : Seam b b.size := by
  have h := Seam.cut (List.append_nil b.parts).symm
  rwa [flatten_parts] at h

namespace Part

/-- Whether a part is a terminal that waits for more. -/
def awaitsMore : Part → Bool
  | terminal t => t.mark.awaitsMore
  | tree _ => false

/-- Whether a part begins with a terminal that goes on with a statement. Arguments do. -/
def continuesStatement : Part → Bool
  | terminal t => t.mark.continuesStatement
  | @tree c _ => c == .args

/-- Whether the gap between two parts is the start or end of a block, or shows that it is no seam. -/
def Joins (p q : Part) : Prop :=
  p.awaitsMore = true ∨ q.continuesStatement = true ∨ p.isOf .block = true ∨ q.isOf .block = true

end Part

/--
Whether the gaps between some parts, given `d` open brackets in front of them, are inside brackets
or joined by the parts at them, and fields are inside brackets.
-/
def Joined (d : Int) : List Part → Prop
  | [] => True
  | [p] => p.isOf .fields = true → 0 < d
  | p :: q :: ps => (p.isOf .fields = true → 0 < d) ∧ (0 < d + p.bracketChange ∨ p.Joins q) ∧
      Joined (d + p.bracketChange) (q :: ps)

/-- Inside brackets, terminals that are no brackets are joined. -/
theorem joined_ofTerminals {ts : List Terminal} (h : ∀ t ∈ ts, t.mark.bracketChange = 0) {d : Int}
    (hd : 0 < d) {ps : List Part} (hps : Joined d ps) : Joined d (Part.ofTerminals ts ++ ps) := by
  induction ts with
  | nil => simpa using hps
  | cons t ts ih =>
    obtain ⟨ht, hts⟩ := List.forall_mem_cons.1 h
    have ih := ih hts
    rw [Part.ofTerminals_cons, List.cons_append]
    cases hmore : Part.ofTerminals ts ++ ps with
    | nil => simp [Joined, hd]
    | cons q qs =>
      rw [hmore] at ih
      simp [Joined, Part.bracketChange, ht, hd, ih]

/-- Names are joined by the signs between them. -/
theorem joined_names {s : Terminal} (hs : s.mark.bracketChange = 0 ∧ s.mark.awaitsMore = true ∧
      s.mark.continuesStatement = true) (ps : List Part)
    (h : ∀ n : Identifier, Joined 0 (.terminal n.terminal :: ps)) (n : Identifier)
    (ns : List Identifier) :
    Joined 0 (.terminal n.terminal ::
      (Part.ofTerminals (ns.flatMap fun m => [s, m.terminal]) ++ ps)) := by
  induction ns generalizing n with
  | nil => simpa using h n
  | cons m ns ih =>
    have ih := ih m
    simp [Joined, Part.Joins, Part.bracketChange, Part.continuesStatement, Part.awaitsMore,
      Part.isOf, hs, ih]

/-- Parameters between a terminal and a block are joined. -/
theorem joined_parameters {t : Terminal} (ht : t.mark.bracketChange = 0) (names : Parameters)
    (b : Tree .block) :
    Joined 0 (.terminal t :: (Part.ofTerminals names.terminals ++
      [.tree b, .terminal (.keyword "end")])) := by
  have hopen : (Terminal.sign "(").mark.bracketChange = 1 ∧
      (Terminal.sign "(").mark.continuesStatement = true := by decide
  have hclose : (Terminal.sign ")").mark.bracketChange = -1 := by decide
  have hrest : Joined 1 (Part.ofTerminals names.listed ++
      [.terminal (.sign ")"), .tree b, .terminal (.keyword "end")]) := by
    refine joined_ofTerminals (fun t => bracketChange_of_mem_listed) (by decide) ?_
    simp [Joined, Part.Joins, Part.isOf, Part.bracketChange, hclose]
  have hlist : Part.ofTerminals names.terminals ++ [.tree b, .terminal (.keyword "end")] =
      .terminal (.sign "(") :: (Part.ofTerminals names.listed ++
        [.terminal (.sign ")"), .tree b, .terminal (.keyword "end")]) := by
    simp [Parameters.terminals, Part.ofTerminals_append]
  rw [hlist]
  cases hmore : Part.ofTerminals names.listed ++
      [.terminal (.sign ")"), .tree b, .terminal (.keyword "end")] with
  | nil => simp at hmore
  | cons q qs =>
    rw [hmore] at hrest
    simp [Joined, Part.Joins, Part.isOf, Part.bracketChange, Part.continuesStatement, ht, hopen,
      hrest]

/-- The gaps between the parts of a tree that is no block and no list of fields. -/
theorem joined_parts {c : Cat} (t : Tree c) (hc : c ≠ .block ∧ c ≠ .fields) : Joined 0 t.parts := by
  have hawait : (Terminal.keyword "return").mark.awaitsMore = true ∧
      (Terminal.keyword "while").mark.awaitsMore = true ∧
      (Terminal.keyword "until").mark.awaitsMore = true ∧
      (Terminal.keyword "if").mark.awaitsMore = true ∧
      (Terminal.keyword "elseif").mark.awaitsMore = true ∧
      (Terminal.keyword "for").mark.awaitsMore = true ∧
      (Terminal.keyword "in").mark.awaitsMore = true ∧
      (Terminal.keyword "function").mark.awaitsMore = true ∧
      (Terminal.keyword "local").mark.awaitsMore = true ∧
      (Terminal.sign "=").mark.awaitsMore = true ∧
      (Terminal.sign ":").mark.awaitsMore = true ∧
      (Terminal.sign ".").mark.awaitsMore = true ∧
      (Terminal.sign ",").mark.awaitsMore = true := by decide
  have hgoes : (Terminal.keyword "do").mark.continuesStatement = true ∧
      (Terminal.keyword "then").mark.continuesStatement = true ∧
      (Terminal.keyword "in").mark.continuesStatement = true ∧
      (Terminal.sign "=").mark.continuesStatement = true ∧
      (Terminal.sign ":").mark.continuesStatement = true ∧
      (Terminal.sign ".").mark.continuesStatement = true ∧
      (Terminal.sign ",").mark.continuesStatement = true ∧
      (Terminal.sign "(").mark.continuesStatement = true ∧
      (Terminal.sign "[").mark.continuesStatement = true := by decide
  have hdepth : (Terminal.sign "(").mark.bracketChange = 1 ∧
      (Terminal.sign "[").mark.bracketChange = 1 ∧
      (Terminal.sign "\x7b").mark.bracketChange = 1 ∧
      (Terminal.sign "=").mark.bracketChange = 0 ∧
      (Terminal.sign ":").mark.bracketChange = 0 ∧
      (Terminal.sign ".").mark.bracketChange = 0 ∧
      (Terminal.sign ",").mark.bracketChange = 0 := by decide
  have hcomma : (Terminal.sign ",").mark.bracketChange = 0 ∧
      (Terminal.sign ",").mark.awaitsMore = true ∧
      (Terminal.sign ",").mark.continuesStatement = true := by decide
  have hpoint : (Terminal.sign ".").mark.bracketChange = 0 ∧
      (Terminal.sign ".").mark.awaitsMore = true ∧
      (Terminal.sign ".").mark.continuesStatement = true := by decide
  cases t with
  | done | next s semicolon rest | last s semicolon => exact absurd rfl hc.1
  | noFields | lastField f | moreFields f semicolon fs => exact absurd rfl hc.2
  | eachLoop n ns es b =>
    have hnames := joined_names hcomma [.terminal (.keyword "in"), .tree es,
      .terminal (.keyword "do"), .tree b, .terminal (.keyword "end")] (fun m => by
        simp [Joined, Part.Joins, Part.isOf, Part.bracketChange, Part.awaitsMore,
          Part.continuesStatement, hawait, hgoes]) n ns
    simpa [Tree.parts, commaNames, Part.ofTerminals_append, Joined, Part.Joins, Part.isOf,
      Part.bracketChange, Part.awaitsMore, hawait] using hnames
  | function fn ps b =>
    have hend : ∀ m : Identifier, Joined 0 (.terminal m.terminal ::
        (Part.ofTerminals fn.methodTerminals ++ (Part.ofTerminals ps.terminals ++
          [.tree b, .terminal (.keyword "end")]))) := by
      intro m
      have hparameters := fun n : Identifier => joined_parameters (bracketChange_identifier n) ps b
      unfold FunctionName.methodTerminals
      cases fn.method with
      | none => simpa using hparameters m
      | some l =>
        simpa [Joined, Part.Joins, Part.isOf, Part.bracketChange, Part.awaitsMore,
          Part.continuesStatement, hawait, hgoes, hdepth] using hparameters l
    have hfields := joined_names hpoint _ hend fn.root fn.fields
    simpa [Tree.parts, FunctionName.terminals, Part.ofTerminals_append, Joined, Part.Joins,
      Part.isOf, Part.bracketChange, Part.awaitsMore, hawait] using hfields
  | localFunction n ps b =>
    have hparameters := joined_parameters (bracketChange_identifier n) ps b
    simpa [Tree.parts, Joined, Part.Joins, Part.isOf, Part.bracketChange, Part.awaitsMore,
      hawait] using hparameters
  | localNames n ns =>
    have hnames := joined_names hcomma [] (fun m => by simp [Joined, Part.isOf]) n ns
    simpa [Tree.parts, commaNames, Joined, Part.Joins, Part.isOf, Part.bracketChange,
      Part.awaitsMore, hawait] using hnames
  | localValues n ns es =>
    have hnames := joined_names hcomma [.terminal (.sign "="), .tree es] (fun m => by
      simp [Joined, Part.Joins, Part.isOf, Part.bracketChange, Part.awaitsMore,
        Part.continuesStatement, hawait, hgoes]) n ns
    simpa [Tree.parts, commaNames, Part.ofTerminals_append, Joined, Part.Joins, Part.isOf,
      Part.bracketChange, Part.awaitsMore, hawait] using hnames
  | lambda ps b => exact joined_parameters (bracketChange_keyword _ _) ps b
  | binary a operator h b =>
    simp [Tree.parts, Joined, Part.Joins, Part.isOf, Part.bracketChange, Part.awaitsMore,
      Part.continuesStatement, of_isBinary h]
  | unary operator h e =>
    simp [Tree.parts, Joined, Part.Joins, Part.isOf, Part.bracketChange, Part.awaitsMore,
      of_isUnary h]
  | _ =>
    simp [Tree.parts, Joined, Part.Joins, Part.isOf, Part.bracketChange, Part.awaitsMore,
      Part.continuesStatement, hawait, hgoes, hdepth]

theorem termDepth_part (p : Part) : termDepth p.terminals = p.bracketChange := by
  cases p with
  | terminal t => simp [Part.terminals, Part.bracketChange]
  | tree t => exact (balanced t).closed

theorem Joined.drop {before after : List Part} {d : Int} (h : Joined d (before ++ after)) :
    Joined (d + termDepth (flatten before)) after := by
  induction before generalizing d with
  | nil => simpa using h
  | cons p ps ih =>
    have hrest : Joined (d + p.bracketChange) (ps ++ after) := by
      cases hmore : ps ++ after with
      | nil => trivial
      | cons q qs =>
        rw [List.cons_append, hmore] at h
        exact h.2.2
    have hdrop := ih hrest
    rwa [flatten_cons, termDepth_append, termDepth_part, ← Int.add_assoc]

theorem Joined.pos_of_fields {p : Part} {ps : List Part} {d : Int} (h : Joined d (p :: ps))
    (hp : p.isOf .fields = true) : 0 < d := by
  cases ps with
  | nil => exact h hp
  | cons q qs => exact h.1 hp

/-- A place among the terminals of some parts is between two parts or inside of a tree. -/
theorem flatten_eq_append {ps : List Part} {xs ys : List Terminal} (h : flatten ps = xs ++ ys) :
    (∃ before after, ps = before ++ after ∧ xs = flatten before ∧ ys = flatten after) ∨
      ∃ (before : List Part) (c : Cat) (s : Tree c) (after : List Part) (us vs : List Terminal),
        ps = before ++ .tree s :: after ∧ s.terminals = us ++ vs ∧ us ≠ [] ∧ vs ≠ [] ∧
          xs = flatten before ++ us ∧ ys = vs ++ flatten after := by
  induction ps generalizing xs with
  | nil =>
    obtain ⟨rfl, rfl⟩ := List.append_eq_nil_iff.1 h.symm
    exact .inl ⟨[], [], rfl, rfl, rfl⟩
  | cons p ps ih =>
    rcases List.append_eq_append_iff.1 h with ⟨as, rfl, hys⟩ | ⟨as, hp, rfl⟩
    · rcases ih hys with ⟨before, after, rfl, rfl, rfl⟩ |
        ⟨before, c, s, after, us, vs, rfl, hs, hus, hvs, rfl, rfl⟩
      · exact .inl ⟨p :: before, after, rfl, rfl, rfl⟩
      · exact .inr ⟨p :: before, c, s, after, us, vs, rfl, hs, hus, hvs, by simp, rfl⟩
    · by_cases hxs : xs = []
      · subst hxs
        rw [List.nil_append] at hp
        exact .inl ⟨[], p :: ps, rfl, rfl, by rw [flatten_cons, hp]; rfl⟩
      by_cases has : as = []
      · subst has
        rw [List.append_nil] at hp
        exact .inl ⟨[p], ps, rfl, by simp [hp], rfl⟩
      · cases p with
        | tree s => exact .inr ⟨[], _, s, ps, xs, as, rfl, hp, hxs, has, rfl, rfl⟩
        | terminal t =>
          obtain ⟨x, xs, rfl⟩ := List.exists_cons_of_ne_nil hxs
          obtain ⟨-, hnil⟩ := List.cons.inj hp
          exact absurd (List.append_eq_nil_iff.1 hnil.symm).2 has

/-- The parts of a block are statements and semicolons. -/
theorem of_mem_parts {b : Tree .block} {p : Part} (h : p ∈ b.parts) :
    (p.isOf .stat = true ∨ p.isOf .final = true) ∨ p = .terminal (.sign ";") := by
  have hsemicolon : ∀ semicolon, p ∈ Part.ofTerminals (semicolonIf semicolon) →
      p = .terminal (.sign ";") := by
    intro semicolon hp
    cases semicolon <;> simp_all [semicolonIf]
  generalize hc : Cat.block = c at b
  induction b with
  | done => simp [Tree.parts] at h
  | next s semicolon rest _ ih =>
    simp only [Tree.parts, List.cons_append, List.mem_cons, List.mem_append] at h
    rcases h with rfl | h | h
    · exact .inl (.inl rfl)
    · exact .inr (hsemicolon semicolon h)
    · exact ih rfl h
  | last s semicolon =>
    simp only [Tree.parts, List.mem_cons] at h
    rcases h with rfl | h
    · exact .inl (.inr rfl)
    · exact .inr (hsemicolon semicolon h)
  | _ => exact absurd hc (by decide)

/-- Arguments go on with a statement. -/
theorem continuesStatement_of_args (as : Tree .args) :
    ∃ t ts, as.terminals = t :: ts ∧ t.mark.continuesStatement = true := by
  cases as with
  | noArgs => exact ⟨_, _, rfl, by decide⟩
  | listArgs es => exact ⟨_, _, rfl, by decide⟩
  | tableArgs fs => exact ⟨_, _, rfl, by decide⟩
  | stringArgs t h => exact ⟨_, _, rfl, rfl⟩

/-- A gap between two parts that are joined is the start or end of a block among them. -/
theorem seam_of_joins {c : Cat} {t : Tree c} {before after : List Part} {p q : Part}
    (hparts : t.parts = before ++ p :: q :: after) (h : p.Joins q)
    (hlast : p.awaitsMore = false)
    (hnext : ∀ a, (flatten (q :: after)).head? = some a → a.mark.continuesStatement = false) :
    Seam t (flatten (before ++ [p])).length := by
  rcases h with h | h | h | h
  · rw [hlast] at h
    exact absurd h (by decide)
  · cases q with
    | terminal a =>
      have ha : a.mark.continuesStatement = false := hnext a rfl
      rw [Part.continuesStatement, ha] at h
      exact absurd h (by decide)
    | @tree d as =>
      obtain rfl : d = .args := by simpa [Part.continuesStatement] using h
      obtain ⟨a, ts, has, ha⟩ := continuesStatement_of_args as
      have ha' := hnext a (by simp [Part.terminals, has])
      rw [ha] at ha'
      exact absurd ha' (by decide)
  · cases p with
    | terminal a => exact absurd h (by simp [Part.isOf])
    | @tree d b =>
      obtain rfl : d = .block := by simpa [Part.isOf] using h
      have hseam := Seam.within hparts (.stop b)
      simpa [Part.terminals, Tree.size] using hseam
  · cases q with
    | terminal a => exact absurd h (by simp [Part.isOf])
    | @tree d b =>
      obtain rfl : d = .block := by simpa [Part.isOf] using h
      have hparts' : t.parts = (before ++ [p]) ++ .tree b :: after := by simp [hparts]
      exact Seam.within hparts' (.start b)

/--
A gap of a tree outside of all brackets is a seam, unless the terminal in front of it waits for more
or the terminal behind it goes on with a statement.
-/
theorem seam_of_gap {c : Cat} (t : Tree c) (hc : c ≠ .fields) {xs ys : List Terminal}
    (h : t.terminals = xs ++ ys) (hxs : xs ≠ []) (hys : ys ≠ []) (hdepth : termDepth xs = 0)
    (hlast : ∀ a, xs.getLast? = some a → a.mark.awaitsMore = false)
    (hnext : ∀ a, ys.head? = some a → a.mark.continuesStatement = false) : Seam t xs.length := by
  induction t using Tree.induction_on_parts generalizing xs ys with
  | @step c t ih =>
    rw [← flatten_parts] at h
    rcases flatten_eq_append h with ⟨before, after, hparts, rfl, rfl⟩ |
      ⟨before, d, s, after, us, vs, hparts, hs, hus, hvs, rfl, rfl⟩
    · by_cases hblock : c = .block
      · subst hblock
        exact .cut hparts
      · rcases List.eq_nil_or_concat before with rfl | ⟨before, p, rfl⟩
        · exact absurd rfl hxs
        rw [List.concat_eq_append] at hparts hdepth hlast ⊢
        cases after with
        | nil => exact absurd rfl hys
        | cons q after =>
          have hjoined := joined_parts t ⟨hblock, hc⟩
          rw [hparts, List.append_assoc] at hjoined
          have hgap := hjoined.drop.2.1
          have hchange := termDepth_part p
          simp only [flatten_append, termDepth_append, flatten_cons, flatten_nil, List.append_nil]
            at hdepth
          have hjoins : p.Joins q := hgap.resolve_left (by omega)
          refine seam_of_joins (by simp [hparts]) hjoins ?_ hnext
          cases p with
          | terminal a => exact hlast a (by simp [Part.terminals])
          | tree s => rfl
    · -- the brackets around the tree and those in it are open or closed on their own
      have hbefore : 0 ≤ termDepth (flatten before) := by
        refine (balanced t).nonneg _ (s.terminals ++ flatten after) ?_
        rw [← flatten_parts, hparts, flatten_append]
        rfl
      have hinside : 0 ≤ termDepth us := (balanced s).nonneg us vs hs
      rw [termDepth_append] at hdepth
      have hd : d ≠ .fields := by
        rintro rfl
        by_cases hblock : c = .block
        · subst hblock
          have hpart := of_mem_parts (b := t) (p := .tree s) (by simp [hparts])
          simp [Part.isOf] at hpart
        · have hjoined := joined_parts t ⟨hblock, hc⟩
          rw [hparts] at hjoined
          have hpos := hjoined.drop.pos_of_fields rfl
          omega
      have hseam : Seam s us.length := by
        have hparts' : Part.tree s ∈ t.parts := by simp [hparts]
        refine ih _ hparts' hd hs hus hvs (by omega) (fun a ha => hlast a ?_) fun a ha => hnext a ?_
        · rw [List.getLast?_append, ha, Option.some_or]
        · rw [List.head?_append, ha, Option.some_or]
      rw [List.length_append]
      exact Seam.within hparts hseam

end LuaVeil
