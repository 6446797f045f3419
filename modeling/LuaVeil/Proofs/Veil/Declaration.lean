/-
# The declaration of a string table, read back

A reader of declarations knows nothing of how tables are built. `readTable` reads
the name of a table and its slots with hidden literals.

Main statement: `readTable_declaration`, the slots of a hidden table are read as they are.
-/
import LuaVeil.Proofs.Grammar.Layout
import LuaVeil.Proofs.Lua.Strings
import LuaVeil.Proofs.Number.Numerals
import LuaVeil.Proofs.Veil.References

namespace LuaVeil

/-! ## Reading -/

/-- What follows a fixed text. -/
def skip? (p t : Text) : Option Text :=
  if p.isPrefixOf t then some (t.drop p.length) else none

/-- Read a word. -/
def readWord : Reader Name := fun t =>
  some (t.takeWhile isWordChar, t.dropWhile isWordChar)

/-- Read a decimal numeral. -/
def readDecimal : Reader Nat := fun t =>
  let digits := t.takeWhile Char.isDigit
  if digits.isEmpty then none
  else (Number.readDigits 10 digits).map fun n => (n, t.dropWhile Char.isDigit)

/-- Read items with a comma between neighbours up to a closing brace, at most `most` of them. -/
def readItems {α : Type} (read : Reader α) : Nat → Reader (List α)
  | 0, _ => none
  | most + 1, t => do
    let (item, t) ← read t
    match skip? ['}'] t with
    | some rest => return ([item], rest)
    | none =>
      let t ← skip? ", ".toList t
      let (items, rest) ← readItems read most t
      return (item :: items, rest)

/-- Read a list in braces. -/
def readBraces {α : Type} (read : Reader α) : Reader (List α) := fun t => do
  let t ← skip? ['{'] t
  match skip? ['}'] t with
  | some rest => return ([], rest)
  | none => readItems read t.length t

/-- A slot of a table as it is written: `[index] = decoder({numbers}, key)`. -/
structure HiddenSlot where
  index : Nat
  decoder : Name
  numbers : List Nat
  key : Nat
  deriving DecidableEq

/-- Read a slot. -/
def readSlot : Reader HiddenSlot := fun t => do
  let t ← skip? ['['] t
  let (index, t) ← readDecimal t
  let t ← skip? "] = ".toList t
  let (decoder, t) ← readWord t
  let t ← skip? ['('] t
  let (numbers, t) ← readBraces readDecimal t
  let t ← skip? ", ".toList t
  let (key, t) ← readDecimal t
  let t ← skip? [')'] t
  return (⟨index, decoder, numbers, key⟩, t)

/-- A declaration without the line of a decoder in front of it. -/
def tableLine (t : Text) : Text :=
  match t.dropWhile (· != '\n') with
  | [] => t
  | _ :: rest => rest

/-- Read the declaration of a table with hidden literals: its name and its slots. -/
def readTable (t : Text) : Option (Name × List HiddenSlot) := do
  let t ← skip? "local ".toList (tableLine t)
  let (name, t) ← readWord t
  let t ← skip? " = ".toList t
  let (slots, t) ← readBraces readSlot t
  if t.isEmpty then return (name, slots) else none

namespace HiddenSlot

/-- The bytes that a slot stands for. -/
def bytes (s : HiddenSlot) : List Nat :=
  s.numbers.map (· ^^^ s.key)

end HiddenSlot

/-! ## Numerals -/

theorem decimal_ne_nil (n : Nat) : Number.decimal n ≠ [] :=
  Number.digits_ne_nil (by decide) n

/-- A numeral is read up to the first character that is no digit. -/
theorem readDecimal_append (n : Nat) {c : Char} (hc : c.isDigit = false) (rest : Text) :
    readDecimal (Number.decimal n ++ c :: rest) = some (n, c :: rest) := by
  have hall : (Number.decimal n).dropWhile Char.isDigit = [] :=
    List.dropWhile_eq_nil_iff.2 (all_isDigit_decimal n)
  have hstop : ∀ d, (c :: rest).head? = some d → d.isDigit = false := by
    intro d hd
    obtain rfl := Option.some.inj hd
    exact hc
  obtain ⟨htake, hdrop⟩ := takeWhile_append_of_stop hall hstop
  have hne : (Number.decimal n).isEmpty = false := List.isEmpty_eq_false_iff.2 (decimal_ne_nil n)
  rw [readDecimal, htake, hdrop, Number.readDigits_decimal]
  simp [hne]

/-! ## Lists -/

@[simp] theorem skip?_append (p t : Text) : skip? p (p ++ t) = some t := by
  rw [skip?, if_pos (List.isPrefixOf_iff_prefix.2 (List.prefix_append p t)), List.drop_left]

theorem skip?_of_ne {a b : Char} (h : a ≠ b) (t : Text) : skip? [a] (b :: t) = none := by
  simp [skip?, h]

theorem joinWith_singleton (separator a : Text) : Text.joinWith separator [a] = a :=
  List.intercalate_singleton

theorem joinWith_cons_cons (separator a b : Text) (more : List Text) :
    Text.joinWith separator (a :: b :: more) =
      a ++ (separator ++ Text.joinWith separator (b :: more)) := by
  simp [Text.joinWith, List.intercalate_cons_cons]

theorem exists_joinWith_cons (separator a : Text) (more : List Text) :
    ∃ rest, Text.joinWith separator (a :: more) = a ++ rest := by
  cases more with
  | nil => exact ⟨[], by rw [joinWith_singleton, List.append_nil]⟩
  | cons b more => exact ⟨_, joinWith_cons_cons separator a b more⟩

theorem of_mem_joinWith {separator : Text} {texts : List Text} {c : Char}
    (hc : c ∈ Text.joinWith separator texts) : c ∈ separator ∨ ∃ t ∈ texts, c ∈ t := by
  induction texts with
  | nil => cases hc
  | cons t texts ih =>
    cases texts with
    | nil =>
      rw [joinWith_singleton] at hc
      exact .inr ⟨t, List.mem_cons_self, hc⟩
    | cons u texts =>
      rw [joinWith_cons_cons, List.mem_append, List.mem_append] at hc
      rcases hc with hc | hc | hc
      · exact .inr ⟨t, List.mem_cons_self, hc⟩
      · exact .inl hc
      · obtain hc | ⟨v, hv, hc⟩ := ih hc
        · exact .inl hc
        · exact .inr ⟨v, List.mem_cons_of_mem _ hv, hc⟩

theorem length_le_joinWith (separator : Text) {texts : List Text} (h : ∀ t ∈ texts, t ≠ []) :
    texts.length ≤ (Text.joinWith separator texts).length := by
  induction texts with
  | nil => exact Nat.zero_le _
  | cons a more ih =>
    obtain ⟨ha, hmore⟩ := List.forall_mem_cons.1 h
    have hpos := List.length_pos_iff.2 ha
    cases more with
    | nil =>
      obtain ⟨rest, hrest⟩ := exists_joinWith_cons separator a []
      simp only [hrest, List.length_cons, List.length_nil, List.length_append]
      omega
    | cons b more =>
      have hlater := ih hmore
      rw [joinWith_cons_cons]
      simp only [List.length_cons, List.length_append] at hlater ⊢
      omega

section

variable {α β : Type} {read : Reader β} {write : α → Text} {value : α → β} {items : List α}

/-- Items that are read in front of a comma or a brace are read one after the other. -/
theorem readItems_joinWith (hne : items ≠ [])
    (hread : ∀ a ∈ items, ∀ c, c = ',' ∨ c = '}' → ∀ rest,
      read (write a ++ c :: rest) = some (value a, c :: rest))
    {most : Nat} (hmost : items.length ≤ most) (rest : Text) :
    readItems read most (Text.joinWith ", ".toList (items.map write) ++ '}' :: rest) =
      some (items.map value, rest) := by
  induction items generalizing most with
  | nil => exact absurd rfl hne
  | cons a items ih =>
    obtain ⟨hfirst, hmore⟩ := List.forall_mem_cons.1 hread
    obtain ⟨most, rfl⟩ : ∃ n, most = n + 1 := ⟨most - 1, by simp at hmost; omega⟩
    cases items with
    | nil =>
      have hclose : skip? ['}'] ('}' :: rest) = some rest := skip?_append ['}'] rest
      have hjoin : Text.joinWith ", ".toList ([a].map write) = write a :=
        joinWith_singleton _ _
      rw [hjoin, readItems, hfirst '}' (.inr rfl)]
      simp [hclose]
    | cons b items =>
      have hlength : (b :: items).length ≤ most := by simp at hmost ⊢; omega
      have hlater := ih (List.cons_ne_nil _ _) hmore hlength
      have hjoin : Text.joinWith ", ".toList ((a :: b :: items).map write) ++ '}' :: rest =
          write a ++ ',' :: ' ' ::
            (Text.joinWith ", ".toList ((b :: items).map write) ++ '}' :: rest) := by
        rw [List.map_cons, List.map_cons, joinWith_cons_cons, List.append_assoc]
        rfl
      rw [hjoin]
      generalize Text.joinWith ", ".toList ((b :: items).map write) ++ '}' :: rest = later at hlater
      have hcomma : skip? ['}'] (',' :: ' ' :: later) = none := skip?_of_ne (by decide) _
      have hseparator : skip? ", ".toList (',' :: ' ' :: later) = some later :=
        skip?_append ", ".toList later
      rw [readItems, hfirst ',' (.inl rfl)]
      simp only [Option.bind_eq_bind, Option.bind_some, hcomma, hseparator, hlater]
      rfl

/-- A list in braces is read. -/
theorem readBraces_joinWith
    (hstart : ∀ a ∈ items, ∃ c t, write a = c :: t ∧ c ≠ '}')
    (hread : ∀ a ∈ items, ∀ c, c = ',' ∨ c = '}' → ∀ rest,
      read (write a ++ c :: rest) = some (value a, c :: rest)) (rest : Text) :
    readBraces read ('{' :: (Text.joinWith ", ".toList (items.map write) ++ '}' :: rest)) =
      some (items.map value, rest) := by
  have hopen : ∀ t, skip? ['{'] ('{' :: t) = some t := skip?_append ['{']
  have hclose : skip? ['}'] ('}' :: rest) = some rest := skip?_append ['}'] rest
  rw [readBraces]
  cases items with
  | nil =>
    have hjoin : Text.joinWith ", ".toList (([] : List α).map write) ++ '}' :: rest =
        '}' :: rest := rfl
    simp only [Option.bind_eq_bind, Option.bind_some, hopen, hjoin, hclose]
    rfl
  | cons a items =>
    have hlength : (a :: items).length ≤
        (Text.joinWith ", ".toList ((a :: items).map write) ++ '}' :: rest).length := by
      have hne : ∀ t ∈ (a :: items).map write, t ≠ [] := by
        intro t ht
        obtain ⟨b, hb, rfl⟩ := List.mem_map.1 ht
        obtain ⟨c, u, hu, -⟩ := hstart b hb
        simp [hu]
      have hle := length_le_joinWith ", ".toList hne
      rw [List.length_map] at hle
      rw [List.length_append]
      omega
    have hitem : skip? ['}'] (Text.joinWith ", ".toList ((a :: items).map write) ++
        '}' :: rest) = none := by
      obtain ⟨c, u, hu, hc⟩ := hstart a List.mem_cons_self
      obtain ⟨more, hmore⟩ := exists_joinWith_cons ", ".toList (write a) (items.map write)
      rw [List.map_cons, hmore, hu]
      exact skip?_of_ne hc.symm _
    simp only [Option.bind_eq_bind, Option.bind_some, hopen, hitem]
    exact readItems_joinWith (List.cons_ne_nil _ _) hread hlength rest

end

/-! ## Hidden tables -/

/-- What is read of an entry. -/
def TableEntry.hidden (decoder : Name) (e : TableEntry) : HiddenSlot :=
  ⟨e.index, decoder, e.payload.map UInt8.toNat, (e.key.getD 0).toNat⟩

/-- The bytes of a slot are those of its literal. -/
theorem bytes_hidden (decoder : Name) (e : TableEntry) :
    (e.hidden decoder).bytes = e.literal.bytes.map UInt8.toNat := by
  simp only [HiddenSlot.bytes, TableEntry.hidden, TableEntry.payload, List.map_map]
  refine List.map_congr_left fun b _ => ?_
  show (b ^^^ e.key.getD 0).toNat ^^^ (e.key.getD 0).toNat = b.toNat
  rw [UInt8.toNat_xor, Nat.xor_assoc, Nat.xor_self, Nat.xor_zero]

theorem readWord_append {w : Name} (h : isWord w = true) {c : Char} (hc : isWordChar c = false)
    (rest : Text) : readWord (w ++ c :: rest) = some (w, c :: rest) := by
  have hall : w.dropWhile isWordChar = [] := List.dropWhile_eq_nil_iff.2 (isWordChar_of_mem h)
  have hstop : ∀ d, (c :: rest).head? = some d → isWordChar d = false := by
    intro d hd
    obtain rfl := Option.some.inj hd
    exact hc
  obtain ⟨htake, hdrop⟩ := takeWhile_append_of_stop hall hstop
  rw [readWord, htake, hdrop]

/-- A slot with a hidden literal is read as it is. -/
theorem readSlot_slot {decoder : Name} (hdecoder : isWord decoder = true) {e : TableEntry}
    {key : UInt8} (hkey : e.key = some key) (rest : Text) :
    readSlot (e.slot (some decoder) ++ rest) = some (e.hidden decoder, rest) := by
  let numbers := Text.joinWith ", ".toList (e.payload.map fun b => Number.decimal b.toNat)
  have htext : e.slot (some decoder) ++ rest = '[' :: (Number.decimal e.index ++ ']' :: (" = ".toList ++
      (decoder ++ '(' :: '{' :: (numbers ++ '}' :: (", ".toList ++
        (Number.decimal key.toNat ++ ')' :: rest)))))) := by
    simp [TableEntry.slot, TableEntry.expression, hkey, numbers]
  have hnumbers : ∀ rest, readBraces readDecimal ('{' :: (numbers ++ '}' :: rest)) =
      some (e.payload.map UInt8.toNat, rest) := by
    refine readBraces_joinWith (fun b _ => ?_) fun b _ c hc rest => ?_
    · obtain ⟨c, t, ht⟩ := List.exists_cons_of_ne_nil (decimal_ne_nil b.toNat)
      refine ⟨c, t, ht, ?_⟩
      rintro rfl
      have hdigit := all_isDigit_decimal b.toNat '}' (by simp [ht])
      exact absurd hdigit (by decide)
    · exact readDecimal_append b.toNat (by rcases hc with rfl | rfl <;> decide) rest
  have hopen : ∀ t, skip? ['['] ('[' :: t) = some t := skip?_append ['[']
  have hindex : ∀ t, skip? "] = ".toList (']' :: (" = ".toList ++ t)) = some t :=
    skip?_append "] = ".toList
  have hcall : ∀ t, skip? ['('] ('(' :: t) = some t := skip?_append ['(']
  have hclose : ∀ t, skip? [')'] (')' :: t) = some t := skip?_append [')']
  rw [htext, readSlot]
  simp only [Option.bind_eq_bind, Option.bind_some, hopen, hindex, hcall, hclose, hnumbers,
    skip?_append, readDecimal_append e.index (show (']').isDigit = false by decide),
    readWord_append hdecoder (show isWordChar '(' = false by decide),
    readDecimal_append key.toNat (show (')').isDigit = false by decide)]
  simp [TableEntry.hidden, hkey]

theorem ne_lineFeed_of_isWord {w : Name} (h : isWord w = true) : ∀ c ∈ w, (c != '\n') = true := by
  intro c hc
  have hword := isWordChar_of_mem h c hc
  rw [bne_iff_ne]
  rintro rfl
  exact absurd hword (by decide)

theorem toList_of_eq_append {s a b : String} {xs ys : Text} (h : s = a ++ b) (ha : a.toList = xs)
    (hb : b.toList = ys) : s.toList = xs ++ ys := by
  rw [h, String.toList_append, ha, hb]

set_option maxRecDepth 4000 in
/-- The body of a decoder is code on one line. -/
theorem plain_decoderBody (dialect : Dialect) :
    let body := (StringTable.decoderBody dialect).toList
    StaysCode body [] ∧ body.getLast? = some 'd' ∧ body.all (· != '\n') = true := by
  -- the characters are named first, so that they are taken from the strings only once
  suffices h : ∃ chars, (StringTable.decoderBody dialect).toList = chars ∧ StaysCode chars [] ∧
      chars.getLast? = some 'd' ∧ chars.all (· != '\n') = true by
    obtain ⟨chars, heq, h⟩ := h
    rwa [heq]
  have hchars : ∀ {l : List Char}, (String.ofList l).toList = l := String.toList_ofList
  cases dialect with
  | luau =>
    refine ⟨_, toList_of_eq_append rfl hchars hchars, ?_⟩
    unfold StaysCode
    decide +kernel
  | lua51 =>
    refine ⟨_, toList_of_eq_append rfl (toList_of_eq_append rfl
      (toList_of_eq_append rfl hchars hchars) hchars) hchars, ?_⟩
    unfold StaysCode
    decide +kernel

/-- The decoder is declared on one line. -/
theorem all_decoderDeclaration (dialect : Dialect) {decoder : Name} (h : isWord decoder = true) :
    ∀ c ∈ StringTable.decoderDeclaration dialect decoder, (c != '\n') = true := by
  intro c hc
  rcases List.mem_append.1 hc with hc | hc
  · rcases List.mem_append.1 hc with hc | hc
    · have hlocal : "local function ".toList.all (· != '\n') = true := by decide
      exact List.all_eq_true.1 hlocal c hc
    · exact ne_lineFeed_of_isWord h c hc
  · exact List.all_eq_true.1 (plain_decoderBody dialect).2.2 c hc

/-- The name and the slots of a table with hidden literals are read as they are. -/
theorem readTable_declaration {t : StringTable} (hname : isWord t.name = true)
    (hdecoder : ∀ decoder ∈ t.decoder, isWord decoder = true)
    (hhidden : t.entries = [] ∧ t.decoder = none ∨ t.decoder.isSome = true)
    (hkeys : ∀ e ∈ t.entries, e.key.isSome = true) :
    readTable t.declaration = some (t.name, t.entries.map (TableEntry.hidden (t.decoder.getD []))) := by
  have hslots : ∀ rest, readBraces readSlot ('{' :: (Text.joinWith ", ".toList
      (t.entries.map (TableEntry.slot t.decoder)) ++ '}' :: rest)) =
      some (t.entries.map (TableEntry.hidden (t.decoder.getD [])), rest) := by
    refine readBraces_joinWith (fun e _ => ⟨'[', _, rfl, by decide⟩) fun e he c _ rest => ?_
    obtain ⟨key, hkey⟩ := Option.isSome_iff_exists.1 (hkeys e he)
    rcases hhidden with ⟨hnone, -⟩ | hsome
    · rw [hnone] at he
      cases he
    · obtain ⟨decoder, hsome⟩ := Option.isSome_iff_exists.1 hsome
      rw [hsome]
      exact readSlot_slot (hdecoder decoder hsome) hkey _
  let line := "local ".toList ++ (t.name ++ ' ' :: ('=' :: ' ' :: '{' ::
    (Text.joinWith ", ".toList (t.entries.map (TableEntry.slot t.decoder)) ++ ['}'])))
  have hline : tableLine t.declaration = line := by
    rw [tableLine, StringTable.declaration]
    cases hsome : t.decoder with
    | none =>
      obtain ⟨hempty, -⟩ := hhidden.resolve_right (by simp [hsome])
      have htext : ([] : Text) ++ "local ".toList ++ t.name ++ " = \x7b".toList ++
          Text.joinWith ", ".toList (t.entries.map (TableEntry.slot none)) ++ ['\x7d'] = line := by
        simp [line, hsome]
      have hdrop : line.dropWhile (· != '\n') = [] := by
        refine List.dropWhile_eq_nil_iff.2 fun c hc => ?_
        simp only [line, hempty] at hc
        rcases List.mem_append.1 hc with hc | hc
        · exact List.all_eq_true.1 (show "local ".toList.all (· != '\n') = true by decide) c hc
        rcases List.mem_append.1 hc with hc | hc
        · exact ne_lineFeed_of_isWord hname c hc
        · exact List.all_eq_true.1 (show " = \x7b\x7d".toList.all (· != '\n') = true by decide) c hc
      simp only [htext, hdrop]
    | some decoder =>
      have hdrop : (StringTable.decoderDeclaration t.dialect decoder ++ '\n' :: line).dropWhile
          (· != '\n') = '\n' :: line := by
        rw [List.dropWhile_append_of_pos (all_decoderDeclaration _ (hdecoder decoder hsome))]
        rfl
      have htext : StringTable.decoderDeclaration t.dialect decoder ++ ['\n'] ++ "local ".toList ++
          t.name ++ " = \x7b".toList ++ Text.joinWith ", ".toList
            (t.entries.map (TableEntry.slot (some decoder))) ++ ['\x7d'] =
          StringTable.decoderDeclaration t.dialect decoder ++ '\n' :: line := by
        simp [line, hsome]
      simp only [htext, hdrop]
  have hlocal : ∀ t, skip? "local ".toList ("local ".toList ++ t) = some t :=
    skip?_append "local ".toList
  have hequals : ∀ t, skip? " = ".toList (' ' :: '=' :: ' ' :: t) = some t :=
    skip?_append " = ".toList
  rw [readTable, hline]
  simp only [line, Option.bind_eq_bind, Option.bind_some, hlocal, hequals, hslots,
    readWord_append hname (show isWordChar ' ' = false by decide)]
  rfl

end LuaVeil
