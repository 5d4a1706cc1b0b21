/-! # Decimal numerals

Indexes of variables and labels are written as decimal numerals and are at most `maxIndex`.
The writer is `Nat.repr`; the reader also takes a leading plus sign and leading zeros.

* `maxIndex`     the largest index
* `readIndex`    the reader
* `readIndex_repr`   what the writer writes for an index is read back as that index -/

namespace CounterMachine.Text

/-- The largest index a variable or a label can have. -/
def maxIndex : Nat := UInt32.size - 1

/-- The digits of a numeral: the text after one optional plus sign. -/
def withoutPlus : List Char → List Char
  | '+' :: digits => digits
  | digits => digits

/-- The index that a numeral stands for: one optional plus sign, then one or more ASCII digits
with a value of at most `maxIndex`. -/
def readIndex (text : List Char) : Option Nat :=
  let digits := withoutPlus text
  if !digits.isEmpty && digits.all Char.isDigit then
    let value := Nat.ofDigitChars 10 digits 0
    if value ≤ maxIndex then some value else none
  else
    none

/-- A numeral consists of digits. -/
theorem isDigit_of_mem_repr {n : Nat} {c : Char} (h : c ∈ n.repr.toList) : c.isDigit = true := by
  rw [Nat.toList_repr] at h
  exact Nat.isDigit_of_mem_toDigits (by decide) (by decide) h

/-- There is at least one of them. -/
theorem toList_repr_ne_nil (n : Nat) : n.repr.toList ≠ [] := by
  rw [Nat.toList_repr]
  exact Nat.toDigits_ne_nil

/-- A numeral that starts with a digit has no plus sign to take away. -/
theorem withoutPlus_of_isDigit {text : List Char} (h : ∀ c ∈ text, c.isDigit = true) :
    withoutPlus text = text := by
  unfold withoutPlus
  split
  · simp [Char.isDigit] at h
  · rfl

/-- The numeral written for an index is read back as that index. -/
theorem readIndex_repr {n : Nat} (h : n ≤ maxIndex) : readIndex n.repr.toList = some n := by
  have digits : ∀ c ∈ n.repr.toList, c.isDigit = true := fun c => isDigit_of_mem_repr
  have value : Nat.ofDigitChars 10 n.repr.toList 0 = n := by
    rw [Nat.toList_repr, Nat.ofDigitChars_ten_toDigits]
  have accepted : (!n.repr.toList.isEmpty && n.repr.toList.all Char.isDigit) = true := by
    rw [List.all_eq_true.mpr digits, Bool.and_true, Bool.not_eq_true', List.isEmpty_eq_false_iff]
    exact toList_repr_ne_nil n
  simp only [readIndex, withoutPlus_of_isDigit digits, value, accepted, if_pos h, if_true]

end CounterMachine.Text
