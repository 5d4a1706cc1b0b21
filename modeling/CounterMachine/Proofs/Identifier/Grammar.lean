import CounterMachine.Identifier.Label
import CounterMachine.Identifier.Variable
import CounterMachine.Proofs.Text.Words
import Mathlib.Data.List.Forall2
import Mathlib.Data.Nat.Digits.Defs
import Mathlib.Logic.Function.Basic

/-!
# The grammar of identifiers

Identifiers are read by functions on texts. Here the texts that are accepted are described without
these functions: which text names which variable, and which text names which label. The readers
accept exactly these texts, with any blanks around them, and refuse every other text with a fault
that keeps the text as it was given.

The writers write one of the texts for each identifier, and never the same one for two of them.

## Key definitions

- `Text.Trims`: a text is another one with blanks around it
- `Text.Numeral`: a text is a numeral for an index
- `Variable.Named`, `Label.Named`: a text names a variable, or a label
- `Identifier.Legible`: how the reader, the writer and the grammar belong together

## Key results

- `Text.trim_eq_iff`: trimming takes away the blanks at the ends and nothing else
- `Text.readIndex_eq_some_iff`: exactly the numerals are read
- `Variable.text_injective`, `Label.text_injective`: no text is written twice
- `Identifier.parse_grammar`: variables and labels are legible
-/

namespace CounterMachine

namespace Text

/-! ### Blanks at the ends -/

/-- A text is a core with blanks around it, and neither end of the core is blank. -/
def Trims (text core : List Char) : Prop :=
  ∃ before after, text = before ++ (core ++ after) ∧ (∀ c ∈ before, isBlank c = true) ∧
    (∀ c ∈ after, isBlank c = true) ∧ (∀ c ∈ core.head?, isBlank c = false) ∧
    ∀ c ∈ core.getLast?, isBlank c = false

/-- Where no blank comes first, none is taken away. -/
theorem dropWhile_isBlank_eq_self (text : List Char)
    (first : ∀ c ∈ text.head?, isBlank c = false) : text.dropWhile isBlank = text := by
  cases text with
  | nil => rfl
  | cons c rest => simp [first c rfl]

/-- After blanks have been taken away, none comes first. -/
theorem isBlank_head?_dropWhile (text : List Char) :
    ∀ c ∈ (text.dropWhile isBlank).head?, isBlank c = false := by
  intro c hc
  have h := List.head?_dropWhile_not isBlank text
  rw [Option.mem_def.mp hc] at h
  exact h

/-- Only blanks are taken away. -/
theorem isBlank_of_mem_takeWhile {text : List Char} {c : Char} (h : c ∈ text.takeWhile isBlank) :
    isBlank c = true := by
  induction text with
  | nil => cases h
  | cons d rest ih =>
    rw [List.takeWhile_cons] at h
    split at h
    · rcases List.mem_cons.mp h with rfl | h
      · assumption
      · exact ih h
    · cases h

/-- Trimming leaves the core of a text. -/
theorem trims_trim (text : List Char) : Trims text (trim text) := by
  -- The blanks are taken away at the start first, and then at the end of what is left.
  have front : text = text.takeWhile isBlank ++ text.dropWhile isBlank :=
    List.takeWhile_append_dropWhile.symm
  have back : text.dropWhile isBlank =
      trim text ++ ((text.dropWhile isBlank).reverse.takeWhile isBlank).reverse := by
    rw [trim, ← List.reverse_append, List.takeWhile_append_dropWhile, List.reverse_reverse]
  refine ⟨_, _, front.trans (congrArg _ back), fun c => isBlank_of_mem_takeWhile, ?_, ?_, ?_⟩
  · intro c hc
    exact isBlank_of_mem_takeWhile (List.mem_reverse.mp hc)
  · -- Neither end of the core is blank: the first blanks are gone, and so are the last ones.
    intro c hc
    apply isBlank_head?_dropWhile text
    rw [back, Option.mem_def, List.head?_append, Option.mem_def.mp hc]
    rfl
  · intro c hc
    apply isBlank_head?_dropWhile (text.dropWhile isBlank).reverse
    rwa [trim, List.getLast?_reverse] at hc

/-- There is only one way to trim a text. -/
theorem Trims.trim_eq {text core : List Char} (h : Trims text core) : trim text = core := by
  obtain ⟨before, after, rfl, hbefore, hafter, first, last⟩ := h
  have hend : ∀ c ∈ after.reverse, isBlank c = true := fun c hc => hafter c (List.mem_reverse.mp hc)
  rw [trim, List.dropWhile_append_of_pos hbefore]
  -- Between blanks only, nothing is left; otherwise the blanks stop at the ends of the core.
  cases core with
  | nil =>
    have hnone : (after ++ []).dropWhile isBlank = [] := List.dropWhile_append_of_pos hafter
    rw [List.append_nil] at hnone
    rw [List.nil_append, hnone]
    rfl
  | cons c rest =>
    have hfront := dropWhile_isBlank_eq_self (c :: rest ++ after) first
    have hback : ∀ d ∈ (c :: rest).reverse.head?, isBlank d = false := by
      rw [List.head?_reverse]
      exact last
    rw [hfront, List.reverse_append, List.dropWhile_append_of_pos hend,
      dropWhile_isBlank_eq_self _ hback, List.reverse_reverse]

/-- Trimming takes away the blanks at the two ends, all of them and nothing else. -/
theorem trim_eq_iff {text core : List Char} : trim text = core ↔ Trims text core := by
  constructor
  · rintro rfl
    exact trims_trim text
  · exact Trims.trim_eq

/-! ### Numerals -/

/-- The number that digits stand for: each digit counts for its value, the last one for units, the
one before it for tens, and so on. -/
def digitsValue (digits : List Char) : Nat :=
  Nat.ofDigits 10 (digits.reverse.map fun c => c.toNat - '0'.toNat)

/-- A numeral for an index: one plus sign or none, then one or more digits, whose number is one of
32 bits. -/
def Numeral (text : List Char) (n : Nat) : Prop :=
  ∃ digits, (text = digits ∨ text = '+' :: digits) ∧ digits ≠ [] ∧
    (∀ c ∈ digits, c.isDigit = true) ∧ digitsValue digits = n ∧ n ≤ 4294967295

/-- Reading digits from the left gives the sum of what they count for. -/
theorem ofDigitChars_eq_digitsValue (digits : List Char) :
    Nat.ofDigitChars 10 digits 0 = digitsValue digits := by
  rw [Nat.ofDigitChars_eq_foldl, digitsValue, Nat.ofDigits_eq_foldr, List.foldr_map,
    List.foldr_reverse]
  congr 1
  funext value c
  rw [Nat.add_comm]
  rfl

/-- A plus sign in front of digits is dropped. -/
theorem withoutPlus_plus (digits : List Char) : withoutPlus ('+' :: digits) = digits := rfl

/-- Exactly the numerals are read. -/
theorem readIndex_eq_some_iff {text : List Char} {n : Nat} :
    readIndex text = some n ↔ Numeral text n := by
  have value := ofDigitChars_eq_digitsValue (withoutPlus text)
  have largest : maxIndex = 4294967295 := rfl
  constructor
  · intro h
    rw [readIndex] at h
    simp only [value, largest] at h
    split at h
    · rename_i accepted
      rw [Bool.and_eq_true, Bool.not_eq_true', List.isEmpty_eq_false_iff,
        List.all_eq_true] at accepted
      split at h
      · rename_i bound
        obtain rfl := Option.some.inj h
        refine ⟨withoutPlus text, ?_, accepted.1, accepted.2, rfl, bound⟩
        unfold withoutPlus
        split
        · exact .inr rfl
        · exact .inl rfl
      · cases h
    · cases h
  · rintro ⟨digits, htext, hne, hdigits, rfl, hbound⟩
    -- With the sign or without it, the digits are what is read.
    have hdrop : withoutPlus text = digits := by
      rcases htext with rfl | rfl
      · exact withoutPlus_of_isDigit hdigits
      · exact withoutPlus_plus digits
    have accepted : (!digits.isEmpty && digits.all Char.isDigit) = true := by
      rw [List.all_eq_true.mpr hdigits, Bool.and_true, Bool.not_eq_true',
        List.isEmpty_eq_false_iff]
      exact hne
    rw [hdrop] at value
    simp only [readIndex, hdrop, accepted, if_true, value, largest, if_pos hbound]

/-! ### Capitals -/

/-- A text spells a word, given in small letters, with some of its letters as capitals. -/
def Spells (word text : List Char) : Prop :=
  List.Forall₂ (fun letter c => c = letter ∨ c = letter.toUpper) word text

/-- A small letter is 32 codes above its capital, and every other character stays. -/
theorem toNat_toLower (c : Char) :
    c.toLower.toNat = if 65 ≤ c.toNat ∧ c.toNat ≤ 90 then c.toNat + 32 else c.toNat := by
  have hiff : (c.val ≥ 'A'.val ∧ c.val ≤ 'Z'.val) ↔ 65 ≤ c.toNat ∧ c.toNat ≤ 90 := by
    rw [ge_iff_le, UInt32.le_iff_toNat_le, UInt32.le_iff_toNat_le]
    rfl
  unfold Char.toLower
  split
  · rename_i h
    have hbounds := hiff.mp h
    rw [if_pos hbounds]
    show (c.val + 32).toNat = c.toNat + 32
    have hval : c.val.toNat = c.toNat := rfl
    have hsmall : (32 : UInt32).toNat = 32 := rfl
    -- The code of a capital is far from the largest one, so adding does not wrap around.
    rw [UInt32.toNat_add, hval, hsmall]
    omega
  · rename_i h
    rw [if_neg fun hbounds => h (hiff.mpr hbounds)]

/-- The capital of a small letter is 32 codes below it. -/
theorem toNat_toUpper {c : Char} (h : c.isLower = true) :
    97 ≤ c.toNat ∧ c.toNat ≤ 122 ∧ c.toUpper.toNat + 32 = c.toNat := by
  unfold Char.isLower at h
  rw [Bool.and_eq_true, decide_eq_true_eq, decide_eq_true_eq] at h
  have hbounds : 97 ≤ c.toNat ∧ c.toNat ≤ 122 := by
    rw [ge_iff_le, UInt32.le_iff_toNat_le, UInt32.le_iff_toNat_le] at h
    exact h
  refine ⟨hbounds.1, hbounds.2, ?_⟩
  unfold Char.toUpper
  rw [dif_pos h]
  show (c.val + ('A'.val - 'a'.val)).toNat + 32 = c.toNat
  have hval : c.val.toNat = c.toNat := rfl
  have hback : ('A'.val - 'a'.val).toNat = 2 ^ 32 - 32 := rfl
  -- The distance is negative, and wraps around in 32 bits.
  rw [UInt32.toNat_add, hval, hback]
  omega

/-- A character becomes a small letter if it is that letter or its capital. -/
theorem toLower_eq_iff {c letter : Char} (h : letter.isLower = true) :
    c.toLower = letter ↔ c = letter ∨ c = letter.toUpper := by
  obtain ⟨hfirst, hlast, hupper⟩ := toNat_toUpper h
  have hlower := toNat_toLower c
  rw [← Char.toNat_inj, ← Char.toNat_inj, ← Char.toNat_inj, hlower]
  split <;> omega

/-- A text becomes a word in small letters if it spells that word. -/
theorem map_toLower_eq_iff {word : List Char} (h : ∀ letter ∈ word, letter.isLower = true)
    (text : List Char) : text.map Char.toLower = word ↔ Spells word text := by
  induction word generalizing text with
  | nil => simp [Spells]
  | cons letter rest ih =>
    cases text with
    | nil => simp [Spells]
    | cons c text =>
      have hrest := ih (fun l hl => h l (List.mem_cons_of_mem _ hl)) text
      rw [Spells] at hrest ⊢
      rw [List.map_cons, List.cons.injEq, List.forall₂_cons, hrest,
        toLower_eq_iff (h letter List.mem_cons_self)]

end Text

/-! ### Variables -/

namespace Variable

open Text (Numeral Trims)

/-- A text without blanks at its ends names a variable. -/
inductive Named : List Char → Variable → Prop where
  | result : Named ['y'] .result
  | input {digits : List Char} {n : Nat} (h : Numeral digits n) : Named ('x' :: digits) (.input n)
  | work {digits : List Char} {n : Nat} (h : Numeral digits n) : Named ('z' :: digits) (.work n)

/-- The index is one of 32 bits. -/
def InRange (v : Variable) : Prop := v.index ≤ Text.maxIndex

instance (v : Variable) : Decidable v.InRange :=
  inferInstanceAs (Decidable (v.index ≤ Text.maxIndex))

/-- Exactly the texts that name a variable are taken for it. -/
theorem ofChars?_eq_some_iff {text : List Char} {v : Variable} :
    ofChars? text = some v ↔ Named text v := by
  constructor
  · intro h
    -- A result is a letter alone, and the others are a letter with a numeral behind it.
    unfold ofChars? at h
    split at h
    · obtain rfl := Option.some.inj h
      exact .result
    · obtain ⟨n, hn, rfl⟩ := Option.map_eq_some_iff.mp h
      exact .input (Text.readIndex_eq_some_iff.mp hn)
    · obtain ⟨n, hn, rfl⟩ := Option.map_eq_some_iff.mp h
      exact .work (Text.readIndex_eq_some_iff.mp hn)
    · cases h
  · intro h
    cases h with
    | result => rfl
    | input h => simp [ofChars?, Text.readIndex_eq_some_iff.mpr h]
    | work h => simp [ofChars?, Text.readIndex_eq_some_iff.mpr h]

/-- A variable that is named has got an index of 32 bits. -/
theorem Named.inRange {text : List Char} {v : Variable} (h : Named text v) : v.InRange := by
  cases h with
  | result => exact Nat.zero_le _
  | input h =>
    obtain ⟨_, -, -, -, -, hbound⟩ := h
    exact hbound
  | work h =>
    obtain ⟨_, -, -, -, -, hbound⟩ := h
    exact hbound

/-- What is written for a variable: its letter, and the index behind it. -/
theorem toList_text (v : Variable) : v.text.toList = match v with
    | result => ['y']
    | input n => 'x' :: n.repr.toList
    | work n => 'z' :: n.repr.toList := by
  cases v <;> simp [text]

/-- Different variables are written differently. -/
theorem text_injective : Function.Injective text := by
  intro v w h
  have hchars := congrArg String.toList h
  rw [toList_text, toList_text] at hchars
  -- The first letters tell the kinds apart, and the numerals tell the indexes apart.
  cases v <;> cases w <;> simp only [List.cons.injEq, Char.reduceEq, false_and, true_and]
    at hchars ⊢
  · exact congrArg input (Text.eq_of_toList_repr_eq hchars)
  · exact congrArg work (Text.eq_of_toList_repr_eq hchars)

end Variable

/-! ### Labels -/

namespace Label

open Text (Numeral Spells Trims)

/-- A text without blanks at its ends names a label. -/
inductive Named : List Char → Label → Prop where
  | empty : Named [] .empty
  | exit {text : List Char} (h : Spells ['e', 'x', 'i', 't'] text) : Named text .exit
  | numbered {digits : List Char} {n : Nat} (h : Numeral digits n) :
    Named ('L' :: digits) (.numbered n)

/-- The number, if there is one, is one of 32 bits. -/
def InRange (label : Label) : Prop := ∀ n ∈ label.number?, n ≤ Text.maxIndex

instance (label : Label) : Decidable label.InRange :=
  inferInstanceAs (Decidable (∀ n ∈ label.number?, n ≤ Text.maxIndex))

/-- Exactly the texts that name a label are taken for it. -/
theorem ofChars?_eq_some_iff {text : List Char} {label : Label} :
    ofChars? text = some label ↔ Named text label := by
  have lower : ∀ letter ∈ ['e', 'x', 'i', 't'], letter.isLower = true := by simp
  have spells := Text.map_toLower_eq_iff lower text
  constructor
  · intro h
    unfold ofChars? at h
    split at h
    · rename_i hempty
      obtain rfl := List.isEmpty_iff.mp hempty
      obtain rfl := Option.some.inj h
      exact .empty
    · split at h
      · rename_i hexit
        obtain rfl := Option.some.inj h
        exact .exit (spells.mp hexit)
      · split at h
        · obtain ⟨n, hn, rfl⟩ := Option.map_eq_some_iff.mp h
          exact .numbered (Text.readIndex_eq_some_iff.mp hn)
        · cases h
  · intro h
    unfold ofChars?
    cases h with
    | empty => rfl
    | exit h =>
      have hexit := spells.mpr h
      have hne : text.isEmpty = false := by
        rw [List.isEmpty_eq_false_iff]
        rintro rfl
        cases hexit
      simp [hne, hexit]
    | @numbered digits n h =>
      -- No letter of the word is an `L` in either case.
      have hexit : ('L' :: digits).map Char.toLower ≠ ['e', 'x', 'i', 't'] := by
        rw [List.map_cons]
        exact fun same => absurd (List.cons.inj same).1 (by decide)
      rw [if_neg hexit]
      simp [Text.readIndex_eq_some_iff.mpr h]

/-- A label that is named has got a number of 32 bits, if it has got one. -/
theorem Named.inRange {text : List Char} {label : Label} (h : Named text label) :
    label.InRange := by
  cases h with
  | empty => nofun
  | exit h => nofun
  | numbered h =>
    obtain ⟨_, -, -, -, -, hbound⟩ := h
    intro n hn
    cases hn
    exact hbound

/-- What is written for a label: nothing, or a word, or a letter with the number behind it. -/
theorem toList_text (label : Label) : label.text.toList = match label with
    | empty => []
    | numbered n => 'L' :: n.repr.toList
    | exit => ['E', 'X', 'I', 'T'] := by
  cases label <;> simp [text]

/-- Different labels are written differently. -/
theorem text_injective : Function.Injective text := by
  intro v w h
  have hchars := congrArg String.toList h
  rw [toList_text, toList_text] at hchars
  cases v <;> cases w <;> simp only [List.cons.injEq, Char.reduceEq, false_and, true_and,
    reduceCtorEq] at hchars ⊢
  exact congrArg numbered (Text.eq_of_toList_repr_eq hchars)

end Label

/-! ### Readers and writers -/

/-- How the reader of identifiers, their writer and their grammar belong together. -/
structure Identifier.Legible {α : Type} (parse : String → Except IdentifierError α)
    (text : α → String) (Named : List Char → α → Prop) (InRange : α → Prop)
    (refusal : String → IdentifierError) : Prop where
  /-- A text is read as what it names without the blanks at its ends. -/
  accepts : ∀ s a, parse s = .ok a ↔ ∃ core, Text.Trims s.toList core ∧ Named core a
  /-- A text that names nothing is refused, and the fault keeps it as it was given. -/
  refuses : ∀ s, (¬ ∃ core a, Text.Trims s.toList core ∧ Named core a) →
    parse s = .error (refusal s)
  /-- What is written for an identifier is read back as that identifier. -/
  returns : ∀ a, InRange a → parse (text a) = .ok a
  /-- Different identifiers are written differently. -/
  injective : Function.Injective text
  /-- What is read and written again is not changed by doing so once more. -/
  settles : ∀ s a, parse s = .ok a → parse (text a) = .ok a

/-- A reader that trims its text and looks up what is left belongs to a grammar and a writer if the
look-up does. -/
theorem Identifier.Legible.of_ofChars? {α : Type} {parse : String → Except IdentifierError α}
    {text : α → String} {Named : List Char → α → Prop} {InRange : α → Prop}
    {refusal : String → IdentifierError} (ofChars? : List Char → Option α)
    (hparse : ∀ s, parse s = match ofChars? (Text.trim s.toList) with
      | some a => .ok a
      | none => .error (refusal s))
    (hnamed : ∀ core a, ofChars? core = some a ↔ Named core a)
    (hrange : ∀ core a, Named core a → InRange a)
    (hreturns : ∀ a, InRange a → parse (text a) = .ok a) (hinjective : Function.Injective text) :
    Legible parse text Named InRange refusal := by
  have accepts : ∀ s a, parse s = .ok a ↔ ∃ core, Text.Trims s.toList core ∧ Named core a := by
    intro s a
    have hread : parse s = .ok a ↔ ofChars? (Text.trim s.toList) = some a := by
      rw [hparse]
      cases ofChars? (Text.trim s.toList) with
      | none => simp
      | some b => simp
    rw [hread, hnamed]
    constructor
    · intro h
      exact ⟨_, Text.trims_trim _, h⟩
    · rintro ⟨core, hcore, h⟩
      rwa [hcore.trim_eq]
  refine ⟨accepts, fun s hnone => ?_, hreturns, hinjective, fun s a h => ?_⟩
  · rw [hparse]
    cases hread : ofChars? (Text.trim s.toList) with
    | none => rfl
    | some a => exact absurd ⟨_, a, Text.trims_trim _, (hnamed _ a).mp hread⟩ hnone
  · obtain ⟨core, -, hcore⟩ := (accepts s a).mp h
    exact hreturns a (hrange core a hcore)

/-- Variables and labels are read by their grammar, in any blanks, and what is written for them is
read back. -/
theorem Identifier.parse_grammar :
    Legible Variable.parse Variable.text Variable.Named Variable.InRange .invalidVariable ∧
      Legible Label.parse Label.text Label.Named Label.InRange .invalidLabel := by
  constructor
  · apply Legible.of_ofChars? Variable.ofChars?
    · intro s
      rw [Variable.parse]
      cases Variable.ofChars? (Text.trim s.toList) <;> rfl
    · exact fun core v => Variable.ofChars?_eq_some_iff
    · exact fun core v => Variable.Named.inRange
    · exact fun v => Variable.parse_text
    · exact Variable.text_injective
  · apply Legible.of_ofChars? Label.ofChars?
    · intro s
      rw [Label.parse]
      cases Label.ofChars? (Text.trim s.toList) <;> rfl
    · exact fun core label => Label.ofChars?_eq_some_iff
    · exact fun core label => Label.Named.inRange
    · exact fun label => Label.parse_text
    · exact Label.text_injective

/-- An ideographic space, a plus sign and zeros in front do not matter, nor does the case. -/
example : Variable.parse "\u3000x+007\n" = .ok (.input 7) ∧ Label.parse " eXiT" = .ok .exit ∧
    Variable.parse " x4294967296" = .error (.invalidVariable " x4294967296") := by
  refine ⟨?_, ?_, ?_⟩ <;> rfl

end CounterMachine
