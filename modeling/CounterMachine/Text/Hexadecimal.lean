/-! # Hexadecimal numerals

Escaped characters are written as their code in hexadecimal digits.

* `hexDigit`    the digit of a value, in lower case
* `hexValue?`   the value of a digit, in either case
* `readHex`     the number that digits stand for
* `hexValue?_hexDigit`   a digit that is written for a value is read back as that value -/

namespace CounterMachine.Text

/-- The hexadecimal digit of a value below sixteen, in lower case. -/
def hexDigit (n : Nat) : Char := if n < 10 then Char.ofNat (48 + n) else Char.ofNat (87 + n)

/-- The value of a hexadecimal digit. -/
def hexValue? (c : Char) : Option Nat :=
  if '0' ≤ c ∧ c ≤ '9' then some (c.toNat - 48)
  else if 'a' ≤ c ∧ c ≤ 'f' then some (c.toNat - 87)
  else if 'A' ≤ c ∧ c ≤ 'F' then some (c.toNat - 55)
  else none

/-- The number that hexadecimal digits stand for, the most significant first. -/
def readHex (digits : List Char) : Option Nat :=
  (digits.mapM hexValue?).map fun values => values.foldl (fun n value => 16 * n + value) 0

/-- The digit that is written for a value is read back as that value. -/
theorem hexValue?_hexDigit {n : Nat} (h : n < 16) : hexValue? (hexDigit n) = some n := by
  have every : ∀ n : Fin 16, hexValue? (hexDigit n) = some n.val := by decide
  exact every ⟨n, h⟩

end CounterMachine.Text
