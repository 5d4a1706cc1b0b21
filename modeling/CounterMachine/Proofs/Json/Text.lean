import CounterMachine.Json.Reader
import CounterMachine.Json.Writer
import CounterMachine.Proofs.Text.Words
import Mathlib.Tactic.SplitIfs

/-!
# Written JSON is read back

What the writer writes for a value, the reader reads back as that value. The writer takes the text
that follows, and the reader returns the text that it has not read, so the statement for a value is
about any text behind it that can stand there.

Values that have no content are left out, and so are numbers with a fraction or an exponent, whose
text may be anything.

## Key definitions

- `Json.Plain`: a value with content and without decimals
- `Json.Ends`: what follows a value
- `Json.ReadBack`: what is written for a value is read back

## Key results

- `Json.readQuoted_escape`: strings are read back, whatever characters are in them
- `Json.readNumber_writeInteger`: integers are read back
- `Json.Plain.readBack`: and so are plain values
- `Json.parse?_compact`: the text of a plain value is read as that value
-/

namespace CounterMachine.Json

/-! ### Strings -/

/-- A character is written as a short escape, as an escape with its code, or as itself. -/
theorem escape_cases (c : Char) :
    (∃ d, d ≠ 'u' ∧ shortEscape? d = some c ∧ escape c = ['\\', d]) ∨
      (c.toNat < 0x20 ∧ escape c =
        ['\\', 'u', '0', '0', Text.hexDigit (c.toNat / 16), Text.hexDigit (c.toNat % 16)]) ∨
      (0x20 ≤ c.toNat ∧ c ≠ '"' ∧ c ≠ '\\' ∧ escape c = [c]) := by
  unfold escape
  -- Seven characters have got a short escape; the other control characters are written by their
  -- code.
  split_ifs with hquote hslash hnewline hreturn htab hback hfeed hcontrol
  · exact .inl ⟨'"', by decide, by rw [hquote]; rfl, rfl⟩
  · exact .inl ⟨'\\', by decide, by rw [hslash]; rfl, rfl⟩
  · exact .inl ⟨'n', by decide, by rw [hnewline]; rfl, rfl⟩
  · exact .inl ⟨'r', by decide, by rw [hreturn]; rfl, rfl⟩
  · exact .inl ⟨'t', by decide, by rw [htab]; rfl, rfl⟩
  · exact .inl ⟨'b', by decide, by rw [hback]; rfl, rfl⟩
  · exact .inl ⟨'f', by decide, by rw [hfeed]; rfl, rfl⟩
  · exact .inr (.inl ⟨hcontrol, rfl⟩)
  · exact .inr (.inr ⟨Nat.le_of_not_lt hcontrol, hquote, hslash, rfl⟩)

/-- A control character is read from its four digits. -/
theorem readHex_escape {n : Nat} (h : n < 0x20) :
    Text.readHex ['0', '0', Text.hexDigit (n / 16), Text.hexDigit (n % 16)] = some n := by
  -- There are only 32 control characters.
  have every : ∀ n : Fin 32,
      Text.readHex ['0', '0', Text.hexDigit (n / 16), Text.hexDigit (n % 16)] = some n.val := by
    decide
  exact every ⟨n, h⟩

/-- Each escaped character is read as its code. -/
theorem readCodes_escape (c : Char) (read : List Nat) (rest : List Char) :
    readCodes read (escape c ++ rest) = readCodes (c.toNat :: read) rest := by
  rcases escape_cases c with
    ⟨d, hd, hshort, heq⟩ | ⟨hcontrol, heq⟩ | ⟨hvisible, hquote, hslash, heq⟩
  · -- A short escape is looked up.
    rw [heq, List.cons_append, List.cons_append, List.nil_append, readCodes.eq_def]
    simp [hd, hshort]
  · -- The code is read from its digits.
    rw [heq]
    simp only [List.cons_append, List.nil_append]
    rw [readCodes, readHex_escape hcontrol]
  · -- The character stands for itself.
    rw [heq, List.cons_append, List.nil_append, readCodes.eq_def]
    simp [hslash, Nat.not_lt.mpr hvisible]

/-- The characters of a text are read one after the other, up to the closing quote. -/
theorem readCodes_flatMap_escape (text : List Char) (read : List Nat) (rest : List Char) :
    readCodes read (text.flatMap escape ++ '"' :: rest) =
      some (read.reverse ++ text.map Char.toNat, rest) := by
  induction text generalizing read with
  | nil => simp [readCodes]
  | cons c text ih =>
    -- The codes are collected in reverse, the latest first.
    rw [List.flatMap_cons, List.append_assoc, readCodes_escape, ih]
    simp

/-- No character is half a surrogate pair. -/
theorem not_isSurrogate (c : Char) :
    (isHighSurrogate c.toNat || isLowSurrogate c.toNat) = false := by
  have hvalid : c.toNat < 0xD800 ∨ 0xDFFF < c.toNat := by
    rcases c.valid with h | h
    · exact .inl h
    · exact .inr h.1
  simp only [isHighSurrogate, isLowSurrogate, Bool.or_eq_false_iff, Bool.and_eq_false_iff,
    decide_eq_false_iff_not]
  omega

/-- The codes of a text spell that text. -/
theorem spell_map_toNat (text : List Char) : spell (text.map Char.toNat) = some text := by
  induction text with
  | nil => rfl
  | cons c text ih =>
    have hsurrogate := not_isSurrogate c
    -- Whether two codes make up a pair is seen from the next one.
    cases text with
    | nil =>
      rw [List.map_cons, List.map_nil, spell, hsurrogate, Char.ofNat_toNat]
      rfl
    | cons d text =>
      rw [List.map_cons] at ih
      rw [List.map_cons, List.map_cons, spell, ih, hsurrogate, Char.ofNat_toNat]
      rw [(Bool.or_eq_false_iff.mp hsurrogate).1]
      rfl

/-- A string is read back, whatever characters are in it. -/
theorem readQuoted_escape (text : String) (rest : List Char) :
    readQuoted (text.toList.flatMap escape ++ '"' :: rest) = some (some text, rest) := by
  rw [readQuoted, readCodes_flatMap_escape, List.reverse_nil, List.nil_append, Option.map_some]
  simp only [spell_map_toNat, Option.map_some, String.ofList_toList]

/-! ### Numbers -/

/-- What can stand behind a value: nothing, a comma, or the end of an array or an object. -/
def Ends (rest : List Char) : Prop := ∀ c ∈ rest.head?, c = ',' ∨ c = ']' ∨ c = '\x7d'

/-- A text may end behind a value. -/
theorem ends_nil : Ends [] := nofun

/-- A comma or a closing bracket may follow a value. -/
theorem ends_cons {c : Char} (h : c = ',' ∨ c = ']' ∨ c = '\x7d') (rest : List Char) :
    Ends (c :: rest) := by
  intro d hd
  cases hd
  exact h

/-- What follows a value does not go on with a digit. -/
theorem Ends.wordEnd {rest : List Char} (h : Ends rest) : Text.WordEnd Char.isDigit rest := by
  intro c hc
  rcases h c hc with rfl | rfl | rfl <;> rfl

/-- No fraction follows. -/
theorem Ends.readFraction {rest : List Char} (h : Ends rest) :
    readFraction rest = some ([], rest) := by
  unfold Json.readFraction
  split
  · have := h '.' rfl
    simp at this
  · rfl

/-- No exponent follows. -/
theorem Ends.readExponent {rest : List Char} (h : Ends rest) :
    readExponent rest = some ([], rest) := by
  unfold Json.readExponent
  split
  · rename_i c rest
    rcases h c rfl with rfl | rfl | rfl <;> rfl
  · rfl

/-- A numeral has no leading zeros. -/
theorem isWhole_repr (n : Nat) : isWhole n.repr.toList = true := by
  by_cases h : n = 0
  · subst h
    rfl
  · -- The first digit of a number other than zero is not zero.
    have hfirst := Text.head?_repr_ne_zero h
    obtain ⟨c, digits, hdigits, -⟩ := Text.exists_repr_eq n
    rw [hdigits] at hfirst ⊢
    have hc : c ≠ '0' := fun hsame => hfirst (congrArg some hsame)
    rw [isWhole]
    · exact bne_iff_ne.mpr hc
    · exact fun hzero => absurd hzero hc

/-- The digits of a numeral are read up to its end. -/
theorem readDigits_repr (n : Nat) {rest : List Char} (hrest : Ends rest) :
    readDigits (n.repr.toList ++ rest) = (n.repr.toList, rest) := by
  have hdigits : ∀ c ∈ n.repr.toList, c.isDigit = true := fun c => Text.isDigit_of_mem_repr
  rw [readDigits, Text.takeWhile_word hdigits hrest.wordEnd,
    Text.dropWhile_word hdigits hrest.wordEnd]

/-- A numeral has no sign. -/
theorem repr_append_ne_minus (n : Nat) (rest others : List Char) :
    n.repr.toList ++ rest ≠ '-' :: others := by
  obtain ⟨c, digits, hdigits, hc⟩ := Text.exists_repr_eq n
  rw [hdigits]
  intro h
  obtain rfl := (List.cons.inj h).1
  exact absurd hc (by decide)

/-- An integer is read back. -/
theorem readNumber_writeInteger (n : Int) {rest : List Char} (hrest : Ends rest) :
    readNumber (writeInteger n rest) = some (integer n, rest) := by
  have hvalue : Nat.ofDigitChars 10 n.natAbs.repr.toList 0 = n.natAbs := by
    rw [Nat.toList_repr, Nat.ofDigitChars_ten_toDigits]
  by_cases hneg : n < 0
  -- A number with a sign is not zero, so it is an integer and not negative zero.
  · have hne : n.natAbs ≠ 0 := by omega
    have hback : -(n.natAbs : Int) = n := by omega
    rw [writeInteger, if_pos hneg, readNumber]
    simp only [readDigits_repr _ hrest, isWhole_repr, hrest.readFraction, hrest.readExponent,
      hvalue, hne, hback, Bool.not_true, Bool.false_eq_true, if_false, Option.bind_eq_bind,
      Option.bind_some]
    rfl
  · have hback : (n.natAbs : Int) = n := by omega
    rw [writeInteger, if_neg hneg, readNumber]
    · simp only [readDigits_repr _ hrest, isWhole_repr, hrest.readFraction, hrest.readExponent,
        hvalue, hback, Bool.not_true, Bool.false_eq_true, if_false, Option.bind_eq_bind,
        Option.bind_some]
      rfl
    · exact repr_append_ne_minus _ _

/-- An integer starts with a digit or a minus sign. -/
theorem writeInteger_starts (n : Int) (rest : List Char) :
    ∃ c others, writeInteger n rest = c :: others ∧ (c.isDigit = true ∨ c = '-') := by
  unfold writeInteger
  split
  · exact ⟨'-', _, rfl, .inr rfl⟩
  · obtain ⟨c, digits, hdigits, hc⟩ := Text.exists_repr_eq n.natAbs
    rw [hdigits]
    exact ⟨c, _, rfl, .inl hc⟩

/-! ### Values -/

/-- A value with content, in which no number has a fraction or an exponent. -/
inductive Plain : Json → Prop where
  | null : Plain .null
  | bool (value : Bool) : Plain (.bool value)
  | integer (value : Int) : Plain (.integer value)
  | string (text : String) : Plain (.string text)
  | array {items : List Json} (h : ∀ item ∈ items, Plain item) : Plain (.array items)
  | object {members : List (String × Json)} (h : ∀ member ∈ members, Plain member.2) :
    Plain (.object members)

/-- What is written for a value is read back, with any text behind it that can stand there. The
fuel must be twice as much as what is written is long. -/
structure ReadBack (j : Json) : Prop where
  /-- What is written does not start like a blank, nor like the end of an array. -/
  starts : ∀ rest, ∃ c others, j.write rest = c :: others ∧ isSpace c = false ∧ c ≠ ']'
  longer : ∀ rest, rest.length < (j.write rest).length
  read : ∀ fuel rest, Ends rest → 2 * (j.write rest).length ≤ fuel + 2 * rest.length →
    readValue fuel (j.write rest) = some (j, rest)

/-- Where no blank stands, nothing is skipped. -/
theorem skip_of_starts {c : Char} (h : isSpace c = false) (others : List Char) :
    skip (c :: others) = c :: others := by
  rw [skip, List.dropWhile_cons, h]
  rfl

/-- The first characters of numbers are no blanks, and no other value starts with one of them. -/
theorem ne_of_starts_number {c : Char} (h : c.isDigit = true ∨ c = '-') :
    ∀ d ∈ ['"', '[', ']', '\x7b', 'n', 't', 'f', ' ', '\n', '\t', '\r'], c ≠ d := by
  have hnone : ∀ d ∈ ['"', '[', ']', '\x7b', 'n', 't', 'f', ' ', '\n', '\t', '\r'],
      ¬ (d.isDigit = true ∨ d = '-') := by simp
  rintro d hd rfl
  exact hnone c hd h

/-- A number does not start with a blank. -/
theorem isSpace_of_starts_number {c : Char} (h : c.isDigit = true ∨ c = '-') :
    isSpace c = false := by
  have hne := ne_of_starts_number h
  simp [isSpace, hne]

/-- What starts like a number is read as a number. -/
theorem readValue_number {c : Char} (h : c.isDigit = true ∨ c = '-') (fuel : Nat)
    (others : List Char) : readValue (fuel + 1) (c :: others) = readNumber (c :: others) := by
  rw [readValue, skip_of_starts (isSpace_of_starts_number h)]
  split
  case h_7 => rfl
  -- In every other case the text starts with a character that no number starts with.
  all_goals
    rename_i heq
    exact absurd (List.cons.inj heq).1 (ne_of_starts_number h _ (by decide))

/-- An array that does not end before its first item is read item by item. -/
theorem readValue_array {c : Char} (hspace : isSpace c = false) (hc : c ≠ ']') (fuel : Nat)
    (others : List Char) : readValue (fuel + 1) ('[' :: c :: others) =
      (readItems fuel (c :: others)).map fun found => (.array found.1, found.2) := by
  rw [readValue, skip_of_starts rfl]
  simp only [skip_of_starts hspace]
  split
  · rename_i heq
    exact absurd (List.cons.inj heq).1 hc
  · rfl

/-- A member is read after its name. -/
theorem readMembers_writeString (name : String) (fuel : Nat) (text : List Char) :
    readMembers (fuel + 1) (writeString name (':' :: text)) =
      match readValue fuel text with
      | none => none
      | some (value, rest) =>
        match skip rest with
        | ',' :: rest =>
          (readMembers fuel rest).map fun found => ((some name, value) :: found.1, found.2)
        | '\x7d' :: rest => some ([(some name, value)], rest)
        | _ => none := by
  rw [readMembers, writeString, skip_of_starts rfl]
  simp only [readQuoted_escape]
  rw [skip_of_starts rfl]
  rfl

namespace ReadBack

/-- A value in which nothing is nested is read with any fuel. -/
theorem of_scalar {j : Json}
    (starts : ∀ rest, ∃ c others, j.write rest = c :: others ∧ isSpace c = false ∧ c ≠ ']')
    (longer : ∀ rest, rest.length < (j.write rest).length)
    (read : ∀ fuel rest, Ends rest → readValue (fuel + 1) (j.write rest) = some (j, rest)) :
    ReadBack j where
  starts := starts
  longer := longer
  read fuel rest hrest hfuel := by
    -- Something is written, so there is some fuel.
    have hlonger := longer rest
    obtain ⟨fuel, rfl⟩ := Nat.exists_eq_succ_of_ne_zero (n := fuel) (by omega)
    exact read fuel rest hrest

/-- The empty value is read back. -/
theorem null : ReadBack .null := by
  apply of_scalar
  · exact fun rest => ⟨'n', _, rfl, rfl, by decide⟩
  · intro rest
    simp only [write, List.length_cons]
    omega
  · exact fun fuel rest _ => rfl

/-- A truth value is read back. -/
theorem bool (value : Bool) : ReadBack (.bool value) := by
  apply of_scalar
  · intro rest
    cases value with
    | true => exact ⟨'t', _, rfl, rfl, by decide⟩
    | false => exact ⟨'f', _, rfl, rfl, by decide⟩
  · intro rest
    cases value <;> simp only [write, List.length_cons] <;> omega
  · intro fuel rest _
    cases value <;> rfl

/-- A string is read back. -/
theorem string (text : String) : ReadBack (.string text) := by
  apply of_scalar
  · exact fun rest => ⟨'"', _, rfl, rfl, by decide⟩
  · intro rest
    simp only [write, writeString, List.length_cons, List.length_append]
    omega
  · intro fuel rest _
    show (readQuoted (text.toList.flatMap escape ++ '"' :: rest)).map _ = _
    rw [readQuoted_escape]
    rfl

/-- An integer is read back, as nothing behind it can be taken for a digit. -/
theorem integer (n : Int) : ReadBack (.integer n) := by
  apply of_scalar
  · intro rest
    obtain ⟨c, others, heq, hc⟩ := writeInteger_starts n rest
    exact ⟨c, others, heq, isSpace_of_starts_number hc, ne_of_starts_number hc _ (by decide)⟩
  · intro rest
    have hdigits := List.length_pos_iff.mpr (Text.toList_repr_ne_nil n.natAbs)
    simp only [write, writeInteger]
    split <;> simp only [List.length_cons, List.length_append] <;> omega
  · intro fuel rest hrest
    obtain ⟨c, others, heq, hc⟩ := writeInteger_starts n rest
    rw [write, heq, readValue_number hc, ← heq, readNumber_writeInteger n hrest]

/-! ### Arrays and objects -/

/-- Items add to the text that follows them. -/
theorem length_le_writeItems {items : List Json} (h : ∀ item ∈ items, item.ReadBack)
    (rest : List Char) : rest.length ≤ (writeItems items rest).length := by
  induction items with
  | nil => exact Nat.le_refl _
  | cons item items ih =>
    have hitem := (h item List.mem_cons_self).longer (writeItems items rest)
    have hitems := ih fun j hj => h j (List.mem_cons_of_mem _ hj)
    -- The comma and the item come on top of what follows.
    rw [writeItems, List.length_cons]
    omega

/-- Behind an item there is a comma, or the end of the array. -/
theorem ends_writeItems (items : List Json) (rest : List Char) :
    Ends (writeItems items (']' :: rest)) := by
  cases items with
  | nil => exact ends_cons (by decide) _
  | cons item items => exact ends_cons (by decide) _

/-- The items of an array are read back, if each of them is. -/
theorem readItems_writeItems {items : List Json} (hitems : ∀ j ∈ items, j.ReadBack) {item : Json}
    (hitem : item.ReadBack) (fuel : Nat) (rest : List Char)
    (hfuel : 2 * (item.write (writeItems items (']' :: rest))).length ≤ fuel + 2 * rest.length) :
    readItems fuel (item.write (writeItems items (']' :: rest))) = some (item :: items, rest) := by
  induction items generalizing item fuel with
  | nil =>
    have hlonger := hitem.longer (']' :: rest)
    have hbracket : (']' :: rest).length = rest.length + 1 := rfl
    rw [writeItems] at hfuel ⊢
    obtain ⟨fuel, rfl⟩ := Nat.exists_eq_succ_of_ne_zero (n := fuel) (by omega)
    rw [readItems, hitem.read fuel _ (ends_cons (by decide) _) (by omega)]
    rfl
  | cons next items ih =>
    have hlonger := hitem.longer (writeItems (next :: items) (']' :: rest))
    have hbracket : rest.length + 1 ≤ (writeItems (next :: items) (']' :: rest)).length :=
      length_le_writeItems hitems (']' :: rest)
    -- What follows the item is a comma and the next item, with one fuel less and less to read.
    have hcomma : (writeItems (next :: items) (']' :: rest)).length =
        (next.write (writeItems items (']' :: rest))).length + 1 := rfl
    obtain ⟨fuel, rfl⟩ := Nat.exists_eq_succ_of_ne_zero (n := fuel) (by omega)
    rw [readItems, hitem.read fuel _ (ends_writeItems _ _) (by omega)]
    show (readItems fuel (next.write (writeItems items (']' :: rest)))).map _ = _
    rw [ih (fun j hj => hitems j (List.mem_cons_of_mem _ hj)) (hitems next List.mem_cons_self) fuel
      (by omega)]
    rfl

/-- An array is read back, if its items are. -/
theorem array {items : List Json} (h : ∀ item ∈ items, item.ReadBack) :
    ReadBack (.array items) := by
  cases items with
  | nil =>
    apply of_scalar
    · exact fun rest => ⟨'[', _, rfl, rfl, by decide⟩
    · intro rest
      simp only [write, List.length_cons]
      omega
    · exact fun fuel rest _ => rfl
  | cons item items =>
    have hitem := h item List.mem_cons_self
    have hitems : ∀ j ∈ items, j.ReadBack := fun j hj => h j (List.mem_cons_of_mem _ hj)
    have longer : ∀ rest,
        rest.length + 1 < (item.write (writeItems items (']' :: rest))).length := by
      intro rest
      exact Nat.lt_of_le_of_lt (length_le_writeItems hitems (']' :: rest)) (hitem.longer _)
    constructor
    · -- An array with items: the bracket takes one fuel, and its items get the rest.
      exact fun rest => ⟨'[', _, rfl, rfl, by decide⟩
    · intro rest
      have := longer rest
      rw [write, List.length_cons]
      omega
    · intro fuel rest _ hfuel
      have := longer rest
      rw [write, List.length_cons] at hfuel
      obtain ⟨fuel, rfl⟩ := Nat.exists_eq_succ_of_ne_zero (n := fuel) (by omega)
      obtain ⟨c, others, hstart, hspace, hbracket⟩ := hitem.starts (writeItems items (']' :: rest))
      rw [write, hstart, readValue_array hspace hbracket, ← hstart,
        readItems_writeItems hitems hitem fuel rest (by omega)]
      rfl

/-- Members add to the text that follows them. -/
theorem length_le_writeMembers {members : List (String × Json)}
    (h : ∀ member ∈ members, member.2.ReadBack) (rest : List Char) :
    rest.length ≤ (writeMembers members rest).length := by
  induction members with
  | nil => exact Nat.le_refl _
  | cons member members ih =>
    have hvalue := (h member List.mem_cons_self).longer (writeMembers members rest)
    have hmembers := ih fun m hm => h m (List.mem_cons_of_mem _ hm)
    simp only [writeMembers, writeString, List.length_cons, List.length_append]
    omega

/-- Behind the value of a member there is a comma, or the end of the object. -/
theorem ends_writeMembers (members : List (String × Json)) (rest : List Char) :
    Ends (writeMembers members ('\x7d' :: rest)) := by
  cases members with
  | nil => exact ends_cons (by decide) _
  | cons member members => exact ends_cons (by decide) _

/-- The members of an object are read back, if their values are. -/
theorem readMembers_writeMembers {members : List (String × Json)}
    (hmembers : ∀ member ∈ members, member.2.ReadBack) (name : String) {value : Json}
    (hvalue : value.ReadBack) (fuel : Nat) (rest : List Char)
    (hfuel : 2 * (value.write (writeMembers members ('\x7d' :: rest))).length ≤
      fuel + 2 * rest.length) :
    readMembers fuel
        (writeString name (':' :: value.write (writeMembers members ('\x7d' :: rest)))) =
      some (((name, value) :: members).map fun member => (some member.1, member.2), rest) := by
  induction members generalizing name value fuel with
  | nil =>
    have hlonger := hvalue.longer ('\x7d' :: rest)
    have hbrace : ('\x7d' :: rest).length = rest.length + 1 := rfl
    rw [writeMembers] at hfuel ⊢
    obtain ⟨fuel, rfl⟩ := Nat.exists_eq_succ_of_ne_zero (n := fuel) (by omega)
    rw [readMembers_writeString, hvalue.read fuel _ (ends_cons (by decide) _) (by omega)]
    rfl
  | cons next members ih =>
    have hlonger := hvalue.longer (writeMembers (next :: members) ('\x7d' :: rest))
    have hbrace : rest.length + 1 ≤ (writeMembers (next :: members) ('\x7d' :: rest)).length :=
      length_le_writeMembers hmembers ('\x7d' :: rest)
    -- The name and the punctuation of the next member come on top of its value.
    have hname : (next.2.write (writeMembers members ('\x7d' :: rest))).length + 1 ≤
        (writeMembers (next :: members) ('\x7d' :: rest)).length := by
      simp only [writeMembers, writeString, List.length_cons, List.length_append]
      omega
    obtain ⟨fuel, rfl⟩ := Nat.exists_eq_succ_of_ne_zero (n := fuel) (by omega)
    rw [readMembers_writeString, hvalue.read fuel _ (ends_writeMembers _ _) (by omega)]
    show (readMembers fuel (writeString next.1
      (':' :: next.2.write (writeMembers members ('\x7d' :: rest))))).map _ = _
    rw [ih (fun m hm => hmembers m (List.mem_cons_of_mem _ hm)) next.1
      (hmembers next List.mem_cons_self) fuel (by omega)]
    rfl

/-- Members that all have a name make up an object. -/
theorem ofMembers_some (members : List (String × Json)) :
    ofMembers (members.map fun member => (some member.1, member.2)) = .object members := by
  have hnames : (members.map fun member => (some member.1, member.2)).mapM
      (fun (member : Option String × Json) => member.1.map fun name => (name, member.2)) =
        some members := by
    induction members with
    | nil => rfl
    | cons member members ih =>
      rw [List.map_cons, List.mapM_cons, ih]
      rfl
  rw [ofMembers, hnames]

/-- An object is read back, if the values of its members are. -/
theorem object {members : List (String × Json)} (h : ∀ member ∈ members, member.2.ReadBack) :
    ReadBack (.object members) := by
  cases members with
  | nil =>
    apply of_scalar
    · exact fun rest => ⟨'\x7b', _, rfl, rfl, by decide⟩
    · intro rest
      simp only [write, List.length_cons]
      omega
    · exact fun fuel rest _ => rfl
  | cons member members =>
    have hvalue := h member List.mem_cons_self
    have hmembers : ∀ m ∈ members, m.2.ReadBack := fun m hm => h m (List.mem_cons_of_mem _ hm)
    have longer : ∀ rest,
        rest.length + 1 < (member.2.write (writeMembers members ('\x7d' :: rest))).length := by
      intro rest
      exact Nat.lt_of_le_of_lt (length_le_writeMembers hmembers ('\x7d' :: rest)) (hvalue.longer _)
    constructor
    · exact fun rest => ⟨'\x7b', _, rfl, rfl, by decide⟩
    · intro rest
      have := longer rest
      simp only [write, writeString, List.length_cons, List.length_append]
      omega
    · intro fuel rest _ hfuel
      have := longer rest
      simp only [write, writeString, List.length_cons, List.length_append] at hfuel
      obtain ⟨fuel, rfl⟩ := Nat.exists_eq_succ_of_ne_zero (n := fuel) (by omega)
      show (readMembers fuel (writeString member.1
        (':' :: member.2.write (writeMembers members ('\x7d' :: rest))))).map _ = _
      -- What is read are members with names, since all names are texts.
      rw [readMembers_writeMembers hmembers member.1 hvalue fuel rest (by omega)]
      simp only [Option.map_some, ofMembers_some]

end ReadBack

/-- A plain value is read back. -/
theorem Plain.readBack {j : Json} (h : j.Plain) : j.ReadBack := by
  -- By induction on the value: the readers of arrays and objects call that of values.
  induction h with
  | null => exact .null
  | bool value => exact .bool value
  | integer n => exact .integer n
  | string text => exact .string text
  | array _ ih => exact .array ih
  | object _ ih => exact .object ih

/-- The text of a plain value is read as that value. -/
theorem parse?_compact {j : Json} (h : j.Plain) : parse? j.compact = some j := by
  have hread := h.readBack.read (2 * (j.write []).length + 2) [] ends_nil (by omega)
  simp only [parse?, compact, String.toList_ofList, hread]
  rfl

end CounterMachine.Json
