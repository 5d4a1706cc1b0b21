/-! # Blank characters

Identifiers are read after the blank characters around them are taken away.  A character is
blank when it has Unicode's property `White_Space`: twenty-five characters, six of them ASCII.

* `isBlank`   the property, as a table of ranges
* `trim`      a text without the blanks at its two ends

Inner blanks stay, and a text with no blank at either end is its own `trim` (`trim_eq_self`). -/

namespace CounterMachine.Text

/-- The ranges of the property `White_Space`, each with its first and last code point. -/
def blankRanges : List (Nat × Nat) :=
  [(0x09, 0x0D), (0x20, 0x20), (0x85, 0x85), (0xA0, 0xA0), (0x1680, 0x1680), (0x2000, 0x200A),
    (0x2028, 0x2029), (0x202F, 0x202F), (0x205F, 0x205F), (0x3000, 0x3000)]

/-- Whether a character has the property `White_Space`. -/
def isBlank (c : Char) : Bool :=
  blankRanges.any fun range => range.1 ≤ c.toNat && c.toNat ≤ range.2

/-- A text without the blank characters at its start and at its end. -/
def trim (text : List Char) : List Char :=
  ((text.dropWhile isBlank).reverse.dropWhile isBlank).reverse

/-- The white space among the characters of ASCII is blank. -/
theorem isBlank_of_isWhitespace {c : Char} (h : c.isWhitespace = true) : isBlank c = true := by
  simp only [Char.isWhitespace, Bool.or_eq_true, decide_eq_true_eq] at h
  rcases h with ((rfl | rfl) | rfl) | rfl <;> rfl

/-- A digit is no blank. -/
theorem isBlank_eq_false_of_isDigit {c : Char} (h : c.isDigit = true) : isBlank c = false := by
  have bounds : 48 ≤ c.toNat ∧ c.toNat ≤ 57 := by
    rw [Char.isDigit, Bool.and_eq_true, decide_eq_true_eq, decide_eq_true_eq] at h
    exact ⟨UInt32.le_iff_toNat_le.mp h.1, UInt32.le_iff_toNat_le.mp h.2⟩
  simp only [isBlank, blankRanges, List.any_cons, List.any_nil, Bool.or_false,
    Bool.or_eq_false_iff, Bool.and_eq_false_iff, decide_eq_false_iff_not]
  omega

@[simp] theorem trim_nil : trim [] = [] := rfl

/-- Nothing is taken from a text whose first and last characters are not blank. -/
theorem trim_eq_self {text : List Char} (first : ∀ c ∈ text.head?, isBlank c = false)
    (last : ∀ c ∈ text.getLast?, isBlank c = false) : trim text = text := by
  have front : text.dropWhile isBlank = text := by
    cases text with
    | nil => rfl
    | cons c rest => simp [first c rfl]
  have back : text.reverse.dropWhile isBlank = text.reverse := by
    cases h : text.reverse with
    | nil => rfl
    | cons c rest =>
      have : text.getLast? = some c := by rw [← List.head?_reverse, h]; rfl
      simp [last c this]
  simp [trim, front, back]

/-- Nothing is taken from digits behind a character that is not blank. -/
theorem trim_cons_of_isDigit {c : Char} {digits : List Char} (first : isBlank c = false)
    (all : ∀ d ∈ digits, d.isDigit = true) : trim (c :: digits) = c :: digits := by
  have visible : ∀ d ∈ c :: digits, isBlank d = false := fun d mem => by
    rcases List.mem_cons.mp mem with rfl | digit
    · exact first
    · exact isBlank_eq_false_of_isDigit (all d digit)
  exact trim_eq_self (fun d mem => visible d (List.mem_of_head? mem))
    (fun d mem => visible d (List.mem_of_getLast? mem))

end CounterMachine.Text
