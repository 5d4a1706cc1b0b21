import CounterMachine.Text.Decimal

/-!
# Words in a text

A word is a run of characters of one kind, and it ends before the first character of another kind.
So a text that is a word and a rest can be taken apart again in one way only.

## Key definitions

- `Text.WordEnd`: a word does not go on

## Key results

- `Text.takeWhile_word`, `Text.dropWhile_word`: a reader that looks for the end of a word finds it
- `Text.word_append_inj`: the word and the rest are determined by the text
- `Text.exists_repr_eq`, `Text.head?_repr_ne_zero`: how a numeral starts
- `Text.eq_of_toList_repr_eq`: a number is determined by its numeral
-/

namespace CounterMachine.Text

section

variable {p : Char → Bool}

/-- A word of characters with a property does not go on: nothing follows, or a character that does
not have it. -/
def WordEnd (p : Char → Bool) (rest : List Char) : Prop := ∀ c ∈ rest.head?, p c = false

/-- A word ends where the text ends. -/
theorem wordEnd_nil (p : Char → Bool) : WordEnd p [] := nofun

/-- A word ends before a character that it cannot go on with. -/
theorem wordEnd_cons {c : Char} (h : p c = false) (rest : List Char) : WordEnd p (c :: rest) := by
  intro d hd
  cases hd
  exact h

/-- So it ends before a separator that starts with such a character. -/
theorem wordEnd_append {separator : List Char} (h : separator.head?.any (!p ·) = true)
    (rest : List Char) : WordEnd p (separator ++ rest) := by
  cases separator with
  | nil => cases h
  | cons c others => exact wordEnd_cons (Bool.not_eq_true' (p c) |>.mp h) _

variable {word word' rest rest' : List Char}

/-- Taking characters as long as they belong to a word takes the word. -/
theorem takeWhile_word (hword : ∀ c ∈ word, p c = true) (hrest : WordEnd p rest) :
    (word ++ rest).takeWhile p = word := by
  rw [List.takeWhile_append_of_pos hword]
  cases rest with
  | nil => exact List.append_nil word
  | cons c rest =>
    rw [List.takeWhile_cons, hrest c rfl]
    exact List.append_nil word

/-- Dropping them leaves the rest. -/
theorem dropWhile_word (hword : ∀ c ∈ word, p c = true) (hrest : WordEnd p rest) :
    (word ++ rest).dropWhile p = rest := by
  rw [List.dropWhile_append_of_pos hword]
  cases rest with
  | nil => rfl
  | cons c rest =>
    rw [List.dropWhile_cons, hrest c rfl]
    rfl

/-- There is only one way to take a text apart into a word and what does not go on with it. -/
theorem word_append_inj (hword : ∀ c ∈ word, p c = true) (hword' : ∀ c ∈ word', p c = true)
    (hrest : WordEnd p rest) (hrest' : WordEnd p rest') (h : word ++ rest = word' ++ rest') :
    word = word' ∧ rest = rest' := by
  -- Reading to the end of the word finds the same in both texts.
  constructor
  · rw [← takeWhile_word hword hrest, h, takeWhile_word hword' hrest']
  · rw [← dropWhile_word hword hrest, h, dropWhile_word hword' hrest']

end

/-- A numeral starts with a digit. -/
theorem exists_repr_eq (n : Nat) : ∃ c digits, n.repr.toList = c :: digits ∧ c.isDigit = true := by
  obtain ⟨c, digits, hdigits⟩ := List.exists_cons_of_ne_nil (toList_repr_ne_nil n)
  have hc : c ∈ n.repr.toList := by
    rw [hdigits]
    exact List.mem_cons_self
  exact ⟨c, digits, hdigits, isDigit_of_mem_repr hc⟩

/-- Different numbers are written differently. -/
theorem eq_of_toList_repr_eq {m n : Nat} (h : m.repr.toList = n.repr.toList) : m = n := by
  rw [Nat.toList_repr, Nat.toList_repr] at h
  calc m = Nat.ofDigitChars 10 (Nat.toDigits 10 m) 0 := Nat.ofDigitChars_ten_toDigits.symm
    _ = Nat.ofDigitChars 10 (Nat.toDigits 10 n) 0 := by rw [h]
    _ = n := Nat.ofDigitChars_ten_toDigits

/-- The numeral of a number other than zero does not start with a zero. -/
theorem head?_repr_ne_zero {n : Nat} (h : n ≠ 0) : n.repr.toList.head? ≠ some '0' := by
  rw [Nat.toList_repr]
  -- The first digit of a number is the first digit of its tenth, down to a single digit.
  induction n using Nat.strongRecOn with
  | ind n ih =>
    by_cases hsmall : n < 10
    · have hdigits : ∀ d < 10, d ≠ 0 → d.digitChar ≠ '0' := by decide
      rw [Nat.toDigits_of_lt_base hsmall]
      exact fun hsame => hdigits n hsmall h (Option.some.inj hsame)
    · have htenth := ih (n / 10) (by omega) (by omega)
      have hfirst := List.head?_eq_some_head (Nat.toDigits_ne_nil (n := n / 10) (b := 10))
      rw [hfirst] at htenth
      rwa [Nat.toDigits_of_base_le (by decide) (by omega), List.head?_append, hfirst]

end CounterMachine.Text
