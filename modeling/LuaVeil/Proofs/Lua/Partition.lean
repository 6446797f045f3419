/-
# A scan is the leftmost partition of a script

Each string and each comment of a script begins where the first opener after the
last one stands, and ends just past the first closer.

Main statements:

* `leftmost_scanFrom`, `laid_scanFrom`, what a scan makes of the rest of a script;
* `reaches_of_error`, a scan fails at an opener that it reaches and nothing closes;
* `scan_partition`, a scan cuts a script into spans side by side that are leftmost,
  and fails exactly if there is an opener, reached in this way, that nothing closes.
-/
import LuaVeil.Proofs.Lua.Closers
import LuaVeil.Proofs.Lua.Spans
import Mathlib.Order.Bounds.Basic

namespace LuaVeil

/-! ## Places in a text -/

namespace Text

/-- Whether what follows byte `place` of a text has a property. -/
def HoldsAt (p : Text → Prop) (source : Text) (place : Nat) : Prop :=
  ∃ before after, before ++ after = source ∧ byteSize before = place ∧ p after

theorem byteSize_pos {t : Text} (h : t ≠ []) : 0 < byteSize t := by
  cases t with
  | nil => exact absurd rfl h
  | cons c t => exact Nat.add_pos_left c.utf8Size_pos _

/-- Of two starts of a text, the one with more bytes goes on from the other. -/
theorem exists_of_byteSize_le {before after before' after' : Text}
    (h : before' ++ after' = before ++ after) (hle : byteSize before ≤ byteSize before') :
    ∃ more, before' = before ++ more ∧ after = more ++ after' := by
  rcases List.append_eq_append_iff.1 h with ⟨more, rfl, rfl⟩ | ⟨more, rfl, rfl⟩
  · -- the shorter start has as many bytes, so nothing is missing
    have hmore : more = [] := by
      by_contra hne
      have hpos := byteSize_pos hne
      rw [byteSize_append] at hle
      omega
    subst hmore
    exact ⟨[], by simp⟩
  · exact ⟨more, rfl, rfl⟩

theorem holdsAt_iff {p : Text → Prop} {before after : Text} :
    HoldsAt p (before ++ after) (byteSize before) ↔ p after := by
  constructor
  · rintro ⟨before', after', happ, hsize, h⟩
    obtain ⟨more, rfl, rfl⟩ := exists_of_byteSize_le happ (Nat.le_of_eq hsize.symm)
    have hmore : more = [] := by
      by_contra hne
      have hpos := byteSize_pos hne
      rw [byteSize_append] at hsize
      omega
    rwa [hmore]
  · exact fun h => ⟨before, after, rfl, rfl, h⟩

end Text

open Text

/-! ## Openers at places -/

/-- Whether something opens at byte `place` of a source. -/
def OpensAt : Text → Nat → Prop :=
  HoldsAt Opens

/-- Whether what opens at byte `place` ends, just past its first closer, at byte `stop`. -/
def ClosesAt (source : Text) (place stop : Nat) : Prop :=
  HoldsAt (fun t => ∃ text rest, text ++ rest = t ∧ place + byteSize text = stop ∧ Closed text rest)
    source place

/-- Whether `next` is the first place at or after `place` where something opens. -/
def OpensNext (source : Text) (place next : Nat) : Prop :=
  IsLeast {p | place ≤ p ∧ OpensAt source p} next

theorem closesAt_iff {before after : Text} {stop : Nat} :
    ClosesAt (before ++ after) (byteSize before) stop ↔
      ∃ text rest, text ++ rest = after ∧ byteSize (before ++ text) = stop ∧ Closed text rest := by
  simp only [byteSize_append]
  exact holdsAt_iff

theorem ClosesAt.unique {source : Text} {place stop stop' : Nat} (h : ClosesAt source place stop)
    (h' : ClosesAt source place stop') : stop = stop' := by
  obtain ⟨before, after, rfl, rfl, text, rest, rfl, rfl, hclosed⟩ := h
  obtain ⟨text', rest', happ, rfl, hclosed'⟩ := closesAt_iff.1 h'
  rw [hclosed.unique hclosed' happ.symm, byteSize_append]

/-- Code is read up to the next opener. -/
theorem opensNext_splitCode {before t : Text} {o : Opener} (ho : opener? (splitCode t).2 = some o) :
    OpensNext (before ++ t) (byteSize before) (byteSize (before ++ (splitCode t).1)) := by
  constructor
  · refine ⟨by simp, before ++ (splitCode t).1, (splitCode t).2, ?_, rfl, ?_⟩
    · rw [List.append_assoc, splitCode_append]
    · exact opener?_isSome_iff.1 (by rw [ho]; rfl)
  · rintro place ⟨hle, before', after', happ, rfl, hopens⟩
    obtain ⟨more, rfl, rfl⟩ := exists_of_byteSize_le happ hle
    obtain ⟨rest, hrest⟩ := splitCode_prefix_of_opens more hopens
    have hsize := congrArg byteSize hrest
    simp only [byteSize_append] at hsize ⊢
    omega

/-- Nothing opens in code at the end of a script. -/
theorem not_opensAt_of_splitCode {before t : Text} (ho : opener? (splitCode t).2 = none)
    {place : Nat} (hle : byteSize before ≤ place) : ¬ OpensAt (before ++ t) place := by
  rintro ⟨before', after', happ, rfl, hopens⟩
  obtain ⟨more, rfl, rfl⟩ := exists_of_byteSize_le happ hle
  have hprefix := splitCode_prefix_of_opens more hopens
  have hall := splitCode_append (more ++ after')
  rw [opener?_splitCode ho, List.append_nil] at hall
  have hlength := hprefix.length_le
  rw [hall, List.length_append] at hlength
  have hnil : after' = [] := List.length_eq_zero_iff.1 (by omega)
  obtain ⟨o, hsome⟩ := Option.isSome_iff_exists.1 (opener?_isSome_iff.2 hopens)
  rw [hnil] at hsome
  cases hsome

/-! ## Partitions -/

/-- Whether a span is written at its offsets in a source. -/
def Span.IsIn (s : Span) (source : Text) : Prop :=
  HoldsAt (s.text <+: ·) source s.start ∧ s.stop = s.start + byteSize s.text

/-- Spans of a source side by side, from a place up to the end. -/
inductive Laid (source : Text) : Nat → List Span → Prop
  | done : Laid source (byteSize source) []
  | next {s : Span} {spans : List Span} (hs : s.IsIn source) (h : Laid source s.stop spans) :
      Laid source s.start (s :: spans)

/-- Spans of a source from a place on: what is no code begins at the next opener. -/
inductive Leftmost (source : Text) : Nat → List Span → Prop
  | done {place : Nat} (h : ∀ p, place ≤ p → ¬ OpensAt source p) : Leftmost source place []
  | code {place : Nat} {s : Span} {spans : List Span} (hs : s.isCode = true)
      (h : Leftmost source place spans) : Leftmost source place (s :: spans)
  | opened {place : Nat} {s : Span} {spans : List Span} (hs : s.isCode = false)
      (hnext : OpensNext source place s.start)
      (hkind : s.isComment = true ↔ HoldsAt BeginsComment source s.start)
      (hclosed : ClosesAt source s.start s.stop) (h : Leftmost source s.stop spans) :
      Leftmost source place (s :: spans)

/-- A script is cut into spans that are not empty, from the first opener to the last. -/
structure IsPartition (source : Text) (spans : List Span) : Prop where
  nonempty : ∀ s ∈ spans, s.text ≠ []
  laid : Laid source 0 spans
  alternates : Alternates spans
  leftmost : Leftmost source 0 spans

/-- The places behind the strings and comments that are found from left to right. -/
inductive Reaches (source : Text) : Nat → Prop
  | start : Reaches source 0
  | next {place opening stop : Nat} (h : Reaches source place)
      (hnext : OpensNext source place opening) (hclosed : ClosesAt source opening stop) :
      Reaches source stop

/-- Whether an opener is reached that nothing closes. -/
def HasUnclosed (source : Text) : Prop :=
  ∃ place opening, Reaches source place ∧ OpensNext source place opening ∧
    ∀ stop, ¬ ClosesAt source opening stop

/-! ## What a scan finds -/

theorem Laid.codeSpans {before code after : Text} {spans : List Span}
    (h : Laid (before ++ (code ++ after)) (byteSize (before ++ code)) spans) :
    Laid (before ++ (code ++ after)) (byteSize before)
      (codeSpans (byteSize before) code ++ spans) := by
  cases code with
  | nil => simpa [LuaVeil.codeSpans] using h
  | cons c code =>
    rw [byteSize_append] at h
    let s : Span := ⟨.code, c :: code, byteSize before, byteSize before + byteSize (c :: code)⟩
    have hs : s.IsIn (before ++ (c :: code ++ after)) :=
      ⟨holdsAt_iff.2 (List.prefix_append _ _), rfl⟩
    exact .next hs h

theorem Leftmost.codeSpans {source : Text} {place : Nat} {spans : List Span}
    (h : Leftmost source place spans) (start : Nat) (code : Text) :
    Leftmost source place (codeSpans start code ++ spans) := by
  cases code with
  | nil => exact h
  | cons c code => exact .code rfl h

/-- Where the scan cuts a span off, something opens next, and it is closed there. -/
theorem opened_of_body? (before : Text) {t body rest : Text} {o : Opener}
    (ho : opener? (splitCode t).2 = some o)
    (hb : o.body? ((splitCode t).2.drop o.text.length) = some (body, rest)) :
    let front := before ++ (splitCode t).1
    let text := o.text ++ body
    (splitCode t).2 = text ++ rest ∧ before ++ t = front ++ text ++ rest ∧
      OpensNext (before ++ t) (byteSize before) (byteSize front) ∧
      ClosesAt (before ++ t) (byteSize front) (byteSize (front ++ text)) := by
  intro front text
  obtain ⟨hafter, hclosed⟩ := closed_of_body? ho hb
  have hsource : before ++ t = front ++ (text ++ rest) := by
    rw [← hafter, List.append_assoc, splitCode_append]
  refine ⟨hafter, by rw [hsource, ← List.append_assoc], opensNext_splitCode ho, ?_⟩
  rw [hsource, closesAt_iff]
  exact ⟨text, rest, rfl, rfl, hclosed⟩

/-- A scan from a place on finds spans side by side that are leftmost. -/
theorem partition_scanFrom (before : Text) {t : Text} {start : Nat} {spans : List Span}
    (hstart : byteSize before = start) (h : scanFrom start t = .ok spans) :
    Laid (before ++ t) start spans ∧ Leftmost (before ++ t) start spans := by
  fun_induction scanFrom start t generalizing before spans with
  | case1 start t code =>
    rename_i ho
    obtain rfl := Except.ok.inj h
    subst hstart
    have hsource : before ++ (code ++ []) = before ++ t := by
      have happ := splitCode_append t
      rw [opener?_splitCode ho] at happ
      exact congrArg (before ++ ·) happ
    have hleft : Leftmost (before ++ t) (byteSize before) [] :=
      .done fun p hp => not_opensAt_of_splitCode ho hp
    have hlaid : Laid (before ++ (code ++ [])) (byteSize (before ++ code)) [] := by
      rw [List.append_nil]
      exact .done
    rw [← List.append_nil (codeSpans _ code)]
    refine ⟨?_, hleft.codeSpans _ _⟩
    rw [← hsource]
    exact hlaid.codeSpans
  | case2 => cases h
  | case3 start t code place o ho body rest hb text =>
    rename_i stop ih
    subst hstart
    cases hmore : scanFrom stop rest with
    | error e =>
      rw [hmore] at h
      cases h
    | ok more =>
      rw [hmore] at h
      obtain rfl := Except.ok.inj h
      obtain ⟨hafter, hsource, hnext, hcloses⟩ := opened_of_body? before ho hb
      have hplace : byteSize (before ++ code) = place := byteSize_append _ _
      have hstop : byteSize (before ++ code ++ text) = stop := by rw [byteSize_append, hplace]
      rw [hplace] at hnext
      rw [hplace, hstop] at hcloses
      obtain ⟨hlaid, hleft⟩ := ih _ hstop hmore
      rw [← hsource] at hlaid hleft
      have hat : ∀ p : Text → Prop, HoldsAt p (before ++ t) place ↔ p (text ++ rest) := by
        intro p
        rw [hsource, List.append_assoc, ← hplace, holdsAt_iff]
      have hin : Span.IsIn ⟨o.kind, text, place, stop⟩ (before ++ t) :=
        ⟨(hat _).2 (List.prefix_append text rest), rfl⟩
      have hkind : Span.isComment ⟨o.kind, text, place, stop⟩ = true ↔
          HoldsAt BeginsComment (before ++ t) place := by
        rw [hat, ← hafter, ← kind_eq_comment_iff ho]
        simp [Span.isComment]
      refine ⟨?_, Leftmost.codeSpans (.opened (isCode_kind o _ _ _) hnext hkind hcloses hleft) _ _⟩
      have hfirst : Laid (before ++ t) place (⟨o.kind, text, place, stop⟩ :: more) :=
        .next hin hlaid
      rw [hsource, List.append_assoc, List.append_assoc, ← hplace] at hfirst
      rw [hsource, List.append_assoc, List.append_assoc]
      exact hplace ▸ hfirst.codeSpans

/-- A scan that fails has reached an opener that nothing closes. -/
theorem hasUnclosed_of_error (before : Text) {t : Text} {start : Nat} {e : ScanError}
    (hstart : byteSize before = start) (hreach : Reaches (before ++ t) start)
    (h : scanFrom start t = .error e) : HasUnclosed (before ++ t) := by
  fun_induction scanFrom start t generalizing before with
  | case1 => cases h
  | case2 start t code place o ho hb =>
    subst hstart
    refine ⟨_, _, hreach, opensNext_splitCode ho, fun stop hcloses => ?_⟩
    have hsource : before ++ t = before ++ (splitCode t).1 ++ (splitCode t).2 := by
      rw [List.append_assoc, splitCode_append]
    rw [hsource, closesAt_iff] at hcloses
    obtain ⟨text, rest, happ, -, hclosed⟩ := hcloses
    obtain ⟨o', body, ho', rfl, hb'⟩ := hclosed.exists_body
    rw [happ] at ho'
    obtain rfl : o = o' := Option.some.inj (ho.symm.trans ho')
    rw [← happ, List.append_assoc, List.drop_left, hb'] at hb
    cases hb
  | case3 start t code place o ho body rest hb text stop ih =>
    subst hstart
    cases hmore : scanFrom stop rest with
    | ok more =>
      rw [hmore] at h
      cases h
    | error e' =>
      obtain rfl : e' = e := by
        rw [hmore] at h
        exact Except.error.inj h
      obtain ⟨-, hsource, hnext, hcloses⟩ := opened_of_body? before ho hb
      have hstop : byteSize (before ++ code ++ text) = stop := by
        rw [byteSize_append, byteSize_append]
      have hreach' := Reaches.next hreach hnext hcloses
      rw [hsource] at hreach' ⊢
      exact ih _ hstop (hstop ▸ hreach') hmore

/-- What follows a place that is reached is leftmost from there on. -/
theorem Leftmost.of_reaches {source : Text} {spans : List Span} (h : Leftmost source 0 spans)
    {place : Nat} (hreach : Reaches source place) : ∃ later, Leftmost source place later := by
  induction hreach with
  | start => exact ⟨spans, h⟩
  | @next place opening stop hreach hnext hclosed ih =>
    obtain ⟨later, hlater⟩ := ih
    induction hlater with
    | done hnone => exact absurd hnext.1.2 (hnone _ hnext.1.1)
    | code _ _ ih => exact ih hreach hnext
    | opened _ hnext' _ hclosed' hmore =>
      obtain rfl := hnext.unique hnext'
      obtain rfl := hclosed.unique hclosed'
      exact ⟨_, hmore⟩

/-- Leftmost spans leave no opener unclosed. -/
theorem Leftmost.not_hasUnclosed {source : Text} {spans : List Span}
    (h : Leftmost source 0 spans) : ¬ HasUnclosed source := by
  rintro ⟨place, opening, hreach, hnext, hnever⟩
  obtain ⟨later, hlater⟩ := h.of_reaches hreach
  induction hlater with
  | done hnone => exact hnone _ hnext.1.1 hnext.1.2
  | code _ _ ih => exact ih hreach hnext
  | opened _ hnext' _ hclosed' _ =>
    obtain rfl := hnext.unique hnext'
    exact hnever _ hclosed'

/-- A scan cuts a script into its leftmost partition, or the script has an unclosed opener. -/
theorem scan_partition (source : Text) :
    (∀ spans, scan source = .ok spans → IsPartition source spans) ∧
      ((∃ e, scan source = .error e) ↔ HasUnclosed source) := by
  have hok : ∀ spans, scan source = .ok spans → IsPartition source spans := by
    intro spans h
    obtain ⟨hlaid, hleft⟩ := partition_scanFrom [] rfl h
    obtain ⟨halternates, hne⟩ := alternates_of_scan h
    exact ⟨hne, hlaid, halternates, hleft⟩
  refine ⟨hok, ?_, fun hunclosed => ?_⟩
  · rintro ⟨e, h⟩
    exact hasUnclosed_of_error [] rfl .start h
  · cases h : scan source with
    | error e => exact ⟨e, rfl⟩
    | ok spans => exact absurd hunclosed (hok spans h).leftmost.not_hasUnclosed

/-- A bracket that is closed in part only goes on: the first `]` does not close the comment. -/
theorem partition_of_partial_bracket :
    IsPartition "--[=[]]=]x".toList
      [⟨.comment, "--[=[]]=]".toList, 0, 9⟩, ⟨.code, "x".toList, 9, 10⟩] :=
  (scan_partition "--[=[]]=]x".toList).1 _ (by decide +kernel)

end LuaVeil
