/-
# Spans of a script

A script is a sequence of spans: plain code, strings and comments. `scan` finds
them from left to right, so that a quote inside a comment or two dashes inside a
string are never misread, and `render` puts spans together again.

Main statement: `render_scan`, the spans of a script put together are the script.
-/
import LuaVeil.Lua.Delimiter

namespace LuaVeil

/-- The kinds of spans. -/
inductive SpanKind where
  | code
  | string
  | comment
  deriving DecidableEq

/-- A part of a script, with the byte offsets at which it began and ended in the script. -/
structure Span where
  kind : SpanKind
  text : Text
  start : Nat
  stop : Nat
  deriving DecidableEq

namespace Span

/-- Code that takes no room in the script, placed at byte `place`. -/
def codeAt (text : Text) (place : Nat) : Span :=
  ⟨.code, text, place, place⟩

/-- Whether a span is plain code. -/
def isCode (s : Span) : Bool :=
  s.kind == .code

/-- Whether a span is a comment. -/
def isComment (s : Span) : Bool :=
  s.kind == .comment

end Span

/-- The texts of the spans in order. -/
def render (spans : List Span) : Text :=
  spans.flatMap Span.text

@[simp] theorem render_nil : render [] = [] := rfl

@[simp] theorem render_cons (s : Span) (spans : List Span) :
    render (s :: spans) = s.text ++ render spans := rfl

@[simp] theorem render_append (xs ys : List Span) : render (xs ++ ys) = render xs ++ render ys := by
  simp [render]

/-! ## Scanning -/

/-- Why a script cannot be cut into spans. -/
inductive ScanError where
  /-- The string that begins at byte `offset` has no end. -/
  | unterminatedString (offset : Nat)
  /-- The block comment that begins at byte `offset` has no end. -/
  | unterminatedComment (offset : Nat)
  deriving DecidableEq

namespace Opener

/-- The kind of span that an opener begins. -/
def kind : Opener → SpanKind
  | lineComment => .comment
  | blockComment _ => .comment
  | string _ => .string

/-- The error of an opener at byte `offset` that nothing closes. -/
def unterminated (o : Opener) (offset : Nat) : ScanError :=
  match o.kind with
  | .comment => .unterminatedComment offset
  | _ => .unterminatedString offset

end Opener

/-- The code in front of the first opener of a text, and the text from the opener on. -/
def splitCode : Text → Text × Text
  | [] => ([], [])
  | c :: t =>
    if (opener? (c :: t)).isSome then ([], c :: t)
    else
      let (code, rest) := splitCode t
      (c :: code, rest)

theorem splitCode_append (t : Text) : (splitCode t).1 ++ (splitCode t).2 = t := by
  fun_induction splitCode t <;> simp_all

/-- After the code there is an opener or nothing. -/
theorem opener?_splitCode {t : Text} (h : opener? (splitCode t).2 = none) : (splitCode t).2 = [] := by
  fun_induction splitCode t with
  | case1 => rfl
  | case2 c t hc => simp only [h] at hc; simp at hc
  | case3 c t hc code rest hs ih => simp_all

/-- The code `text` that begins at byte `start`, as a span if there is any. -/
def codeSpans (start : Nat) (text : Text) : List Span :=
  if text.isEmpty then [] else [⟨.code, text, start, start + Text.byteSize text⟩]

@[simp] theorem render_codeSpans (start : Nat) (text : Text) :
    render (codeSpans start text) = text := by
  cases text <;> simp [codeSpans]

/-- What follows a body is shorter than a text with an opener in front of it. -/
theorem length_lt_of_body? {t body rest : Text} {o : Opener} (ho : opener? (splitCode t).2 = some o)
    (h : o.body? ((splitCode t).2.drop o.text.length) = some (body, rest)) :
    rest.length < t.length := by
  have hbody := congrArg List.length (Opener.body?_append h)
  have hcode := congrArg List.length (splitCode_append t)
  have hopen := (prefix_of_opener? ho).length_le
  have hpos := o.length_text_pos
  simp only [List.length_append, List.length_drop] at hbody hcode
  omega

/-- The spans of a text that begins at byte `start`. -/
def scanFrom (start : Nat) (t : Text) : Except ScanError (List Span) :=
  let code := (splitCode t).1
  let place := start + Text.byteSize code
  match _ : opener? (splitCode t).2 with
  | none => .ok (codeSpans start code)
  | some o =>
    match _ : o.body? ((splitCode t).2.drop o.text.length) with
    | none => .error (o.unterminated place)
    | some (body, rest) =>
      let text := o.text ++ body
      let stop := place + Text.byteSize text
      (scanFrom stop rest).map fun spans =>
        codeSpans start code ++ ⟨o.kind, text, place, stop⟩ :: spans
termination_by t.length
decreasing_by exact length_lt_of_body? (by assumption) (by assumption)

/-- The spans of a script. -/
def scan (source : Text) : Except ScanError (List Span) :=
  scanFrom 0 source

theorem render_scanFrom {start : Nat} {t : Text} {spans : List Span}
    (h : scanFrom start t = .ok spans) : render spans = t := by
  fun_induction scanFrom start t generalizing spans with
  | case1 start t code =>
    rename_i ho
    have happ := splitCode_append t
    rw [opener?_splitCode ho, List.append_nil] at happ
    simp only [Except.ok.injEq] at h
    simp [← h, code, happ]
  | case2 => simp at h
  | case3 start t code place o ho body rest hb text stop =>
    rename_i ih
    cases hs : scanFrom stop rest with
    | error e => simp [hs, Except.map] at h
    | ok more =>
      obtain ⟨tail, htail⟩ := prefix_of_opener? ho
      have happ := splitCode_append t
      have hbody := Opener.body?_append hb
      rw [← htail, List.drop_left] at hbody
      rw [← htail, ← hbody] at happ
      simp only [hs, Except.map, Except.ok.injEq] at h
      simp [← h, ih hs, code, text, happ]

/-- The spans of a script, put together, are the script. -/
theorem render_scan {source : Text} {spans : List Span} (h : scan source = .ok spans) :
    render spans = source :=
  render_scanFrom h

end LuaVeil
