/-
# Stripped spans are found again

Code of a script opens nothing that is not a span of its own. Stripping puts blanks
and line feeds between characters that were apart, and never brings two together that
were not, so nothing new opens.

Main statement: `steady_strip`, a scan finds the spans of a stripped script again,
wherever these are put next to one another.
-/
import LuaVeil.Proofs.Lua.Recast
import LuaVeil.Proofs.Veil.StrippedWords

namespace LuaVeil

/-! ## Spans that stand -/

/-- Whether code stays code in front of a span, whatever comes after that. -/
def Stands (a b : Span) : Prop :=
  a.isCode = true → ∀ rest, StaysCode a.text (b.text ++ rest)

/-- Whether a span is a string that is found again in front of every text. -/
def Span.IsWhole (s : Span) : Prop :=
  s.kind = .string ∧ ∀ rest, s.Reads rest

/-- Whether spans are code and strings that are found again, whatever comes after them. -/
structure Steady (spans : List Span) : Prop where
  code : ∀ s ∈ spans, s.isCode = true → StaysCode s.text []
  string : ∀ s ∈ spans, s.isCode = false → s.IsWhole
  chain : spans.IsChain Stands

theorem stands_of_blank {a b : Span} {c : Char} (ha : a.isCode = true → StaysCode a.text [])
    (hc : Text.isBlank c = true) (hb : [c] <+: b.text) : Stands a b := by
  intro hcode rest
  refine (ha hcode).before fun d hd => ?_
  obtain ⟨t, ht⟩ := hb
  rw [← ht] at hd
  obtain rfl : c = d := Option.some.inj hd
  exact plain_of_isBlank hc

theorem stands_of_string {a b : Span} (ha : a.isCode = false) : Stands a b := by
  intro hcode
  rw [ha] at hcode
  cases hcode

theorem Stands.extend {a b c : Span} (h : Stands a b) (hc : b.text <+: c.text) : Stands a c := by
  intro hcode rest
  obtain ⟨t, ht⟩ := hc
  rw [← ht, List.append_assoc]
  exact h hcode (t ++ rest)

/-- A string that is closed in front of a text is a whole string. -/
theorem isWhole_of_reads {s : Span} {rest : Text} (hkind : s.kind = .string) (h : s.Reads rest) :
    s.IsWhole := by
  have hcode : ¬ s.isCode = true := by simp [Span.isCode, hkind]
  have hcomment : s.isComment = false := by simp [Span.isComment, hkind]
  rw [Span.Reads, if_neg hcode] at h
  have hbegins : ¬ BeginsComment s.text := fun hb => by
    rw [h.2.2 hb] at hcomment
    cases hcomment
  refine ⟨hkind, fun rest' => ?_⟩
  rw [Span.Reads, if_neg hcode]
  exact ⟨h.1.string hbegins rest', h.2⟩

theorem Span.IsWhole.congr {s s' : Span} (h : s.IsWhole) (hkind : s'.kind = s.kind)
    (htext : s'.text = s.text) : s'.IsWhole := by
  refine ⟨hkind.trans h.1, fun rest => ?_⟩
  have hreads := h.2 rest
  rwa [Span.Reads, Span.isCode, Span.isComment, ← hkind, ← htext] at hreads

/-- No closed text begins with an equals sign or a line feed. -/
theorem exists_of_closed {text rest : Text} (h : Closed text rest) :
    ∃ c t, text = c :: t ∧ c ≠ '=' ∧ c ≠ '\n' := by
  cases h with
  | @quote mark _ _ hmark =>
    refine ⟨mark, _, rfl, ?_, ?_⟩ <;> rintro rfl <;> exact absurd hmark (by decide)
  | long => exact ⟨'[', _, rfl, by decide, by decide⟩
  | blockComment => exact ⟨'-', _, rfl, by decide, by decide⟩
  | lineComment => exact ⟨'-', _, rfl, by decide, by decide⟩

namespace Steady

variable {s : Span} {spans xs ys : List Span}

theorem empty : Steady [] :=
  ⟨by simp, by simp, .nil⟩

theorem cons (hcode : s.isCode = true → StaysCode s.text []) (hstring : s.isCode = false → s.IsWhole)
    (hnext : ∀ n, spans.head? = some n → Stands s n) (h : Steady spans) : Steady (s :: spans) :=
  ⟨List.forall_mem_cons.2 ⟨hcode, h.code⟩, List.forall_mem_cons.2 ⟨hstring, h.string⟩,
    List.isChain_cons.2 ⟨fun n hn => hnext n hn, h.chain⟩⟩

theorem head (h : Steady (s :: spans)) :
    (s.isCode = true → StaysCode s.text []) ∧ (s.isCode = false → s.IsWhole) ∧
      ∀ n, spans.head? = some n → Stands s n :=
  ⟨h.code s List.mem_cons_self, h.string s List.mem_cons_self,
    fun n hn => (List.isChain_cons.1 h.chain).1 n hn⟩

theorem tail (h : Steady (s :: spans)) : Steady spans :=
  ⟨(List.forall_mem_cons.1 h.code).2, (List.forall_mem_cons.1 h.string).2,
    (List.isChain_cons.1 h.chain).2⟩

theorem append (hx : Steady xs) (hy : Steady ys)
    (h : ∀ a, xs.getLast? = some a → ∀ b, ys.head? = some b → Stands a b) : Steady (xs ++ ys) :=
  ⟨List.forall_mem_append.2 ⟨hx.code, hy.code⟩, List.forall_mem_append.2 ⟨hx.string, hy.string⟩,
    hx.chain.append hy.chain h⟩

theorem rescans (h : Steady spans) : Rescans spans := by
  induction spans with
  | nil => trivial
  | cons s spans ih =>
    obtain ⟨hcode, hstring, hnext⟩ := h.head
    refine ⟨?_, ih h.tail⟩
    by_cases hs : s.isCode = true
    · rw [Span.Reads, if_pos hs]
      cases spans with
      | nil => exact hcode hs
      | cons n spans => exact hnext n rfl hs _
    · exact (hstring (by simpa using hs)).2 _

theorem consMerged (hcode : s.isCode = true → StaysCode s.text [])
    (hstring : s.isCode = false → s.IsWhole) (hnext : ∀ n, spans.head? = some n → Stands s n)
    (h : Steady spans) : Steady (Strip.consMerged s spans) := by
  cases spans with
  | nil => exact h.cons hcode hstring hnext
  | cons next spans =>
    rw [Strip.consMerged]
    split
    · next hboth =>
      obtain ⟨hs, hn⟩ := Bool.and_eq_true_iff.1 hboth
      obtain ⟨hncode, -, hnnext⟩ := h.head
      refine h.tail.cons (fun _ => ?_) (fun hfalse => ?_) fun n hfirst _ rest => ?_
      · have hfront := hnext next rfl hs []
        exact hfront.append (hncode hn)
      · exact absurd (hfalse.symm.trans hs) (by decide)
      · have hfront := hnext next rfl hs (n.text ++ rest)
        exact hfront.append (hnnext n hfirst hn rest)
    · exact h.cons hcode hstring hnext

/-- Empty spans of code make no difference. -/
theorem filter (h : Steady spans) : Steady (spans.filter fun s => !s.text.isEmpty) := by
  induction spans with
  | nil => exact .empty
  | cons s spans ih =>
    obtain ⟨hcode, hstring, hnext⟩ := h.head
    have hmore := ih h.tail
    by_cases hempty : s.text.isEmpty = true
    · rwa [List.filter_cons_of_neg (by simp [hempty])]
    rw [List.filter_cons_of_pos (by simp [hempty])]
    refine hmore.cons hcode hstring fun n hn hs => ?_
    cases spans with
    | nil => cases hn
    | cons old spans =>
      by_cases hold : old.text.isEmpty = true
      · -- code in front of an empty span is code in front of everything
        have hall := hnext old rfl hs
        rw [List.isEmpty_iff.1 hold] at hall
        exact fun rest => hall _
      · rw [List.filter_cons_of_pos (by simp [hold])] at hn
        exact hnext n hn hs

end Steady

/-- Whether a span is recast: code that is recast, or a string that is still found. -/
structure RecastSpan (s s' : Span) : Prop where
  isCode_eq : s'.isCode = s.isCode
  text : Recast (fun c => isInert c = true) s.text s'.text
  whole : s.isCode = false → s'.IsWhole

theorem RecastSpan.refl {s : Span} (h : s.isCode = false → s.IsWhole) : RecastSpan s s :=
  ⟨rfl, .refl _, h⟩

/-- Recast spans stand as before. -/
theorem Steady.recast {spans spans' : List Span} (h : Steady spans)
    (hrecast : List.Forall₂ RecastSpan spans spans') : Steady spans' := by
  induction hrecast with
  | nil => exact .empty
  | @cons s s' spans spans' hs hspans ih =>
    obtain ⟨hcode, -, hnext⟩ := h.head
    refine (ih h.tail).cons (fun hs' => ?_) (fun hs' => ?_) fun n' hn' hs' rest => ?_
    · exact (hcode (hs.isCode_eq ▸ hs')).recast (fun _ => id) hs.text (.refl [])
    · exact hs.whole (hs.isCode_eq ▸ hs')
    · cases hspans with
      | nil => cases hn'
      | @cons n _ _ _ hn _ =>
        obtain rfl := Option.some.inj hn'
        have hstands := hnext n rfl (hs.isCode_eq ▸ hs') rest
        exact hstands.recast (fun _ => id) hs.text (hn.text.append (.refl rest))

namespace Strip

/-! ## Comments -/

/-- A comment leaves a blank, and nothing opens across that. -/
theorem steady_uncomment {spans : List Span} (h : Rescans spans) (halternates : Alternates spans) :
    Steady (uncomment spans) := by
  induction spans with
  | nil => exact .empty
  | cons s spans ih =>
    obtain ⟨hreads, hrescans⟩ := h
    obtain ⟨hhead, hspans⟩ := alternates_cons.1 halternates
    have htail : Steady (uncomment spans) := ih hrescans hspans
    show Steady (consMerged (blankComment s) (uncomment spans))
    have hspace : StaysCode [' '] [] := staysCode_of_beginsNothing (by simp [beginsNothing, isQuote]) []
    by_cases hcomment : s.isComment = true
    · have hblank : blankComment s = { s with kind := .code, text := [' '] } := if_pos hcomment
      rw [hblank]
      refine htail.consMerged (fun _ => hspace) (fun hfalse => by cases hfalse) fun n _ _ rest => ?_
      exact staysCode_of_beginsNothing (by simp [beginsNothing, isQuote]) _
    have hsame : blankComment s = s := if_neg hcomment
    rw [hsame]
    by_cases hs : s.isCode = true
    · have hcode : StaysCode s.text (render spans) := by rwa [Span.Reads, if_pos hs] at hreads
      have hquiet : StaysCode s.text [] := hcode.of_prefix List.nil_prefix
      refine htail.consMerged (fun _ => hquiet) (fun hfalse => ?_) fun first hfirst => ?_
      · exact absurd (hfalse.symm.trans hs) (by decide)
      · cases spans with
        | nil => cases hfirst
        | cons n spans =>
          obtain ⟨first', more, heq, hkind, hprefix⟩ :=
            exists_consMerged_cons (blankComment n) (uncomment spans)
          obtain rfl : first' = first := by
            have hheads := congrArg List.head? heq
            exact Option.some.inj (hheads.symm.trans hfirst)
          have hn : n.isCode = false := hhead hs n rfl
          by_cases hncomment : n.isComment = true
          · have hnblank : (blankComment n).text = [' '] := by rw [blankComment, if_pos hncomment]
            rw [hnblank] at hprefix
            exact stands_of_blank (fun _ => hquiet) (by decide) hprefix
          · have hnsame : blankComment n = n := if_neg hncomment
            rw [hnsame] at hprefix
            have hnreads := hrescans.1
            rw [Span.Reads, if_neg (by simp [hn])] at hnreads
            obtain ⟨c, t, htext, hc, -⟩ := exists_of_closed hnreads.1
            refine Stands.extend (b := n) (fun _ rest => ?_) hprefix
            rw [render_cons, htext, List.cons_append] at hcode
            rw [htext, List.cons_append]
            exact hcode.next hc _
    · have hkind : s.kind = .string := by
        simp only [Span.isCode, Span.isComment, beq_iff_eq] at hs hcomment
        cases hk : s.kind <;> simp_all
      refine htail.consMerged (fun hcode => absurd hcode hs) (fun _ => isWhole_of_reads hkind hreads)
        fun n _ => stands_of_string (by simpa using hs)

/-! ## Rows -/

/-- The pieces of a text between line feeds lie in it, and the last one at its end. -/
theorem infix_splitLines (t : Text) :
    ∃ first more, Text.splitLines t = first :: more ∧ first <+: t ∧ (more = [] → first = t) ∧
      (∀ p ∈ more, p <:+: t) ∧ ∀ p, more.getLast? = some p → p <:+ t := by
  induction t with
  | nil => exact ⟨[], [], rfl, List.nil_prefix, fun _ => rfl, by simp, by simp⟩
  | cons c t ih =>
    obtain ⟨first, more, hsplit, hfirst, hwhole, hmore, hlast⟩ := ih
    by_cases hc : c = '\n'
    · refine ⟨[], first :: more, by simp [Text.splitLines, hc, hsplit], List.nil_prefix,
        fun hnil => (by cases hnil), ?_, fun p hp => ?_⟩
      · refine List.forall_mem_cons.2 ⟨List.infix_cons hfirst.isInfix, fun p hp => ?_⟩
        exact List.infix_cons (hmore p hp)
      · cases more with
        | nil =>
          obtain rfl := Option.some.inj hp
          rw [hwhole rfl]
          exact List.suffix_cons c t
        | cons q more =>
          rw [List.getLast?_cons_cons] at hp
          exact (hlast p hp).trans (List.suffix_cons c t)
    · refine ⟨c :: first, more, by simp [Text.splitLines, hc, hsplit, Text.consFirst],
        (List.prefix_cons_inj c).2 hfirst, fun hnil => (by rw [hwhole hnil]),
        fun p hp => List.infix_cons (hmore p hp),
        fun p hp => (hlast p hp).trans (List.suffix_cons c t)⟩

/-- The pieces of code are code, and the last one stays code in front of what follows. -/
theorem staysCode_splitLines {t rest : Text} (h : StaysCode t rest) :
    (∀ p ∈ Text.splitLines t, StaysCode p []) ∧
      ∀ p, (Text.splitLines t).getLast? = some p → StaysCode p rest := by
  obtain ⟨first, more, hsplit, hfirst, hwhole, hmore, hlast⟩ := infix_splitLines t
  have hwithin : ∀ p, p <:+: t → StaysCode p [] := by
    rintro p ⟨a, b, rfl⟩
    rw [List.append_assoc] at h
    exact h.right.left.of_prefix List.nil_prefix
  rw [hsplit]
  refine ⟨List.forall_mem_cons.2 ⟨hwithin _ hfirst.isInfix, fun p hp => hwithin p (hmore p hp)⟩, ?_⟩
  intro p hp
  cases more with
  | nil =>
    obtain rfl := Option.some.inj hp
    rwa [hwhole rfl]
  | cons q more =>
    rw [List.getLast?_cons_cons] at hp
    obtain ⟨a, rfl⟩ := hlast p hp
    exact h.right

theorem steady_consSpan {s : Span} {rows : List Row} (hcode : s.isCode = true → StaysCode s.text [])
    (hstring : s.isCode = false → s.IsWhole)
    (hnext : ∀ row, rows.head? = some row → ∀ n, row.spans.head? = some n → Stands s n)
    (h : ∀ row ∈ rows, Steady row.spans) : ∀ row ∈ consSpan s rows, Steady row.spans := by
  cases rows with
  | nil =>
    refine List.forall_mem_singleton.2 ?_
    exact Steady.empty.cons hcode hstring fun n hn => by cases hn
  | cons row rows =>
    obtain ⟨hrow, hrows⟩ := List.forall_mem_cons.1 h
    exact List.forall_mem_cons.2 ⟨hrow.cons hcode hstring (hnext row rfl), hrows⟩

theorem steady_consPieces {start : Nat} {pieces : List Text} {rows : List Row}
    (hpieces : ∀ p ∈ pieces, StaysCode p [])
    (hlast : ∀ p, pieces.getLast? = some p → ∀ row, rows.head? = some row →
      ∀ n, row.spans.head? = some n → ∀ rest, StaysCode p (n.text ++ rest))
    (h : ∀ row ∈ rows, Steady row.spans) : ∀ row ∈ consPieces start pieces rows, Steady row.spans := by
  have hsingle : ∀ {start : Nat} {p : Text}, StaysCode p [] → Steady (codeSpans start p) := by
    intro start p hp
    cases p with
    | nil => exact .empty
    | cons c p =>
      exact Steady.empty.cons (fun _ => hp) (fun hfalse => by cases hfalse) fun n hn => by cases hn
  fun_induction consPieces start pieces rows with
  | case1 => exact h
  | case2 start piece rows =>
    cases piece with
    | nil => exact h
    | cons c piece =>
      refine steady_consSpan (fun _ => ?_) (fun hfalse => by cases hfalse) ?_ h
      · exact hpieces _ List.mem_cons_self
      · exact fun row hrow n hn _ => hlast _ rfl row hrow n hn
  | case3 start piece pieces rows hne stop ih =>
    obtain ⟨hpiece, hmore⟩ := List.forall_mem_cons.1 hpieces
    refine List.forall_mem_cons.2 ⟨hsingle hpiece, ih hmore (fun p hp => hlast p ?_) h⟩
    obtain ⟨q, pieces, rfl⟩ := List.exists_cons_of_ne_nil (by simpa using hne)
    rw [List.getLast?_cons_cons]
    exact hp

/-- What is no code begins the first row, if it begins the script. -/
theorem head?_splitRows {spans : List Span} (h : ∀ s, spans.head? = some s → s.isCode = false)
    {row : Row} (hrow : (splitRows spans).head? = some row) : row.spans.head? = spans.head? := by
  cases spans with
  | nil =>
    obtain rfl := Option.some.inj hrow
    rfl
  | cons s spans =>
    have hs : ¬ (s.isCode && s.text.contains '\n') = true := by simp [h s rfl]
    rw [splitRows, List.foldr_cons, if_neg hs, ← splitRows] at hrow
    cases hrows : splitRows spans with
    | nil =>
      rw [hrows] at hrow
      obtain rfl := Option.some.inj hrow
      rfl
    | cons first rows =>
      rw [hrows] at hrow
      obtain rfl := Option.some.inj hrow
      rfl

/-- The rows of spans that stand do so too. -/
theorem steady_splitRows {spans : List Span} (h : Steady spans) (halternates : Alternates spans) :
    ∀ row ∈ splitRows spans, Steady row.spans := by
  induction spans with
  | nil => exact List.forall_mem_singleton.2 .empty
  | cons s spans ih =>
    obtain ⟨hcode, hstring, hnext⟩ := h.head
    obtain ⟨hhead, hspans⟩ := alternates_cons.1 halternates
    have hrows := ih h.tail hspans
    have hfirst : s.isCode = true → ∀ row, (splitRows spans).head? = some row →
        ∀ n, row.spans.head? = some n → Stands s n := by
      intro hs row hrow n hn
      rw [head?_splitRows (hhead hs) hrow] at hn
      exact hnext n hn
    rw [splitRows, List.foldr_cons, ← splitRows]
    split
    · next hsplit =>
      obtain ⟨hs, -⟩ := Bool.and_eq_true_iff.1 hsplit
      refine steady_consPieces (staysCode_splitLines (hcode hs)).1 ?_ hrows
      intro p hp row hrow n hn rest
      exact (staysCode_splitLines (hfirst hs row hrow n hn hs rest)).2 p hp
    · refine steady_consSpan hcode hstring (fun row hrow n hn hs => ?_) hrows
      exact hfirst hs row hrow n hn hs

/-! ## Tidy lines -/

/-- One space takes the place of each run of blanks. -/
theorem recast_squeeze (t : Text) : Recast (fun c => isInert c = true) t (squeeze t) := by
  have hinert : ∀ c, isSqueezable c = true → isInert c = true := by
    intro c hc
    simp only [isSqueezable, Bool.or_eq_true, beq_iff_eq] at hc
    rcases hc with (rfl | rfl) | rfl <;> decide
  have hspace : ∀ c ∈ [' '], isInert c = true := List.forall_mem_singleton.2 (by decide)
  -- the blanks of a run that are read already are carried along
  suffices h : Recast (fun c => isInert c = true) t (squeezeAfter false t) ∧
      ∀ run : Text, run ≠ [] → (∀ c ∈ run, isInert c = true) →
        Recast (fun c => isInert c = true) (run ++ t) (' ' :: squeezeAfter true t) from h.1
  induction t with
  | nil =>
    exact ⟨.nil, fun run hne hrun => .swap hne (List.cons_ne_nil ' ' []) hrun hspace .nil⟩
  | cons c t ih =>
    obtain ⟨hfresh, hafter⟩ := ih
    by_cases hc : isSqueezable c = true
    · simp only [squeezeAfter, hc, if_true, Bool.false_eq_true, if_false]
      refine ⟨hafter [c] (List.cons_ne_nil c []) (List.forall_mem_singleton.2 (hinert c hc)), ?_⟩
      intro run hne hrun
      have hlonger := hafter (run ++ [c]) (by simp) (List.forall_mem_append.2
        ⟨hrun, List.forall_mem_singleton.2 (hinert c hc)⟩)
      rwa [List.append_assoc] at hlonger
    · simp only [squeezeAfter, hc]
      exact ⟨.keep c hfresh, fun run hne hrun =>
        .swap hne (List.cons_ne_nil ' ' []) hrun hspace (.keep c hfresh)⟩

theorem staysCode_trimStart {t rest : Text} (h : StaysCode t rest) :
    StaysCode (Text.trimStart t) rest := by
  have hsplit := List.takeWhile_append_dropWhile (p := Text.isBlank) (l := t)
  rw [← hsplit] at h
  exact h.right

theorem staysCode_trimEnd {t : Text} (h : StaysCode t []) : StaysCode (Text.trimEnd t) [] := by
  rw [← Text.trimEnd_append t] at h
  exact h.left.of_prefix List.nil_prefix

theorem steady_modify {f : Text → Text} {spans : List Span} {i : Nat} (h : Steady spans)
    (halternates : Alternates spans) (hf : ∀ t, StaysCode t [] → StaysCode (f t) [])
    (hnext : ∀ t rest, i + 1 < spans.length → StaysCode t rest → StaysCode (f t) rest) :
    Steady (spans.modify i (mapCode f)) := by
  induction spans generalizing i with
  | nil => simpa using h
  | cons s spans ih =>
    obtain ⟨hcode, hstring, hstands⟩ := h.head
    obtain ⟨hhead, hspans⟩ := alternates_cons.1 halternates
    cases i with
    | zero =>
      rw [List.modify_zero_cons]
      by_cases hs : s.isCode = true
      · have hnew : mapCode f s = { s with text := f s.text } := if_pos hs
        rw [hnew]
        refine h.tail.cons (fun _ => hf _ (hcode hs)) (fun hfalse => ?_) fun n hn _ rest => ?_
        · exact absurd (hfalse.symm.trans hs) (by decide)
        · refine hnext _ _ ?_ (hstands n hn hs rest)
          cases spans with
          | nil => cases hn
          | cons => simp
      · rw [mapCode, if_neg hs]
        exact h
    | succ i =>
      rw [List.modify_succ_cons]
      have hmore := ih h.tail hspans fun t rest hlt => hnext t rest (by simp; omega)
      refine hmore.cons hcode hstring fun n hn hs => ?_
      -- what follows code is no code, so it is not modified
      refine hstands n ?_ hs
      cases spans with
      | nil => simp at hn
      | cons old spans =>
        have hold : mapCode f old = old := if_neg (by simp [hhead hs old rfl])
        cases i <;> simpa [hold] using hn

theorem steady_squeeze {spans : List Span} (h : Steady spans) :
    Steady (spans.map (mapCode squeeze)) := by
  refine h.recast (List.forall₂_map_right_iff.2 (List.forall₂_same.2 fun s hs => ?_))
  cases hcode : s.isCode with
  | true =>
    rw [mapCode, if_pos hcode]
    exact ⟨rfl, recast_squeeze s.text, fun hno => absurd (hno.symm.trans hcode) (by decide)⟩
  | false =>
    rw [mapCode, if_neg (by simp [hcode])]
    exact .refl (h.string s hs)

theorem steady_tidySpans {spans : List Span} (h : Steady spans) (halternates : Alternates spans) :
    Steady (tidySpans spans) := by
  simp only [tidySpans, List.modifyHead_eq_modify_zero]
  have hsqueezed := steady_squeeze h
  have halternates := (alternates_congr (map_isCode_mapCode squeeze spans)).2 halternates
  have hstarted := steady_modify (i := 0) hsqueezed halternates
    (fun t => staysCode_trimStart) fun t rest _ => staysCode_trimStart
  have halternates := (alternates_congr (map_isCode_modify Text.trimStart 0 _)).2 halternates
  generalize (spans.map (mapCode squeeze)).modify 0 (mapCode Text.trimStart) = started at *
  -- nothing follows the last span
  have hended := steady_modify (i := started.length - 1) hstarted halternates
    (fun t => staysCode_trimEnd) fun t rest hlast => by omega
  exact hended.filter

/-! ## Joined lines -/

/-- A line feed parts what it stands between, also where each span is replaced by others. -/
theorem steady_flatMap_joinLines {f : Span → List Span}
    (hfeed : ∀ l : Line, ∃ feed, f l.lineFeed = [feed] ∧ feed.isCode = true ∧ feed.text = ['\n'])
    {lines : List Line} (h : ∀ l ∈ lines, Steady (l.spans.flatMap f)) :
    Steady ((joinLines lines).flatMap f) := by
  fun_induction joinLines lines with
  | case1 => exact .empty
  | case2 l => exact h l List.mem_cons_self
  | case3 l lines hlines ih =>
    obtain ⟨hl, hrest⟩ := List.forall_mem_cons.1 h
    obtain ⟨feed, heq, hcode, htext⟩ := hfeed l
    have hquiet : ∀ rest, StaysCode feed.text rest := by
      rw [htext]
      exact staysCode_of_beginsNothing (by simp [beginsNothing, isQuote])
    have htail : Steady (feed :: (joinLines lines).flatMap f) :=
      (ih hrest).cons (fun _ => hquiet [])
        (fun hno => absurd (hno.symm.trans hcode) (by decide)) fun n _ _ rest => hquiet _
    rw [List.flatMap_append, List.flatMap_cons, heq, List.singleton_append]
    refine hl.append htail fun a ha b hb => ?_
    obtain rfl := Option.some.inj hb
    refine stands_of_blank (hl.code a (List.mem_of_getLast? ha)) (c := '\n') (by decide) ⟨[], ?_⟩
    rw [htext]
    rfl

/-- A line feed parts what it stands between. -/
theorem steady_joinLines {lines : List Line} (h : ∀ l ∈ lines, Steady l.spans) :
    Steady (joinLines lines) := by
  have hsame : ∀ spans : List Span, spans.flatMap (fun s => [s]) = spans := List.flatMap_singleton'
  have hlines := @steady_flatMap_joinLines (fun s => [s])
    (fun l => ⟨_, rfl, l.isCode_lineFeed, l.text_lineFeed⟩) lines
    fun l hl => by rw [hsame]; exact h l hl
  rwa [hsame] at hlines

end Strip

/-- A scan finds the spans of a stripped script again. -/
theorem steady_strip (isDebug : Text → Bool) {spans : List Span} (h : Rescans spans)
    (halternates : Alternates spans) (hne : ∀ s ∈ spans, s.text ≠ []) :
    Steady (strip isDebug spans).1 := by
  rw [Strip.strip_fst]
  obtain ⟨halternates', hsolid⟩ := Strip.alternates_uncomment hne
  have hrows := Strip.rowsAlternate_splitRows halternates' hsolid
  have hsteady := Strip.steady_splitRows (Strip.steady_uncomment h halternates) halternates'
  refine Strip.steady_joinLines fun l hl => ?_
  obtain ⟨row, hrow, hspans, -⟩ := Strip.exists_row_of_mem_kept hl
  rw [hspans]
  exact Strip.steady_tidySpans (hsteady row hrow) (hrows.alternates row hrow)

end LuaVeil
