/-! # Counter values

A counter holds a 64-bit unsigned number, and so does the meter that counts cycles.  Neither
wraps: adding stops at the largest value and taking away stops at zero.

* `Value.add`    the sum, at most `Value.max`
* `Value.succ`, `Value.pred`   one more and one less -/

namespace CounterMachine

/-- The content of a counter. -/
abbrev Value := UInt64

namespace Value

/-- The largest value. -/
def max : Value := 18446744073709551615

/-- The sum of two values, or the largest value where the sum is no value. -/
def add (a b : Value) : Value := if max - a < b then max else a + b

/-- One more, except that the largest value stays. -/
def succ (a : Value) : Value := add a 1

/-- One less, except that zero stays. -/
def pred (a : Value) : Value := if a = 0 then 0 else a - 1

/-- The largest value is the largest number of 64 bits. -/
theorem toNat_max : max.toNat = 18446744073709551615 := rfl

/-- No value is larger. -/
theorem toNat_le_max (a : Value) : a.toNat ≤ max.toNat :=
  Nat.le_of_lt_succ (UInt64.toNat_lt a)

/-- Addition is addition of numbers, cut off at the largest value. -/
theorem toNat_add (a b : Value) : (add a b).toNat = min (a.toNat + b.toNat) max.toNat := by
  have room : (max - a).toNat = max.toNat - a.toNat :=
    UInt64.toNat_sub_of_le _ _ (UInt64.le_iff_toNat_le.mpr (toNat_le_max a))
  have bound := toNat_le_max a
  have largest := toNat_max
  unfold add
  split
  · rename_i h
    rw [UInt64.lt_iff_toNat_lt, room] at h
    omega
  · rename_i h
    rw [UInt64.lt_iff_toNat_lt, room] at h
    rw [UInt64.toNat_add]
    omega

@[simp] theorem add_zero (a : Value) : add a 0 = a := by
  apply UInt64.toNat_inj.mp
  rw [toNat_add]
  have := toNat_le_max a
  show min (a.toNat + 0) max.toNat = a.toNat
  omega

@[simp] theorem zero_add (a : Value) : add 0 a = a := by
  apply UInt64.toNat_inj.mp
  rw [toNat_add]
  have := toNat_le_max a
  show min (0 + a.toNat) max.toNat = a.toNat
  omega

/-- It does not matter which of three values are added first: the sum is cut off at the same
largest value. -/
theorem add_assoc (a b c : Value) : add (add a b) c = add a (add b c) := by
  apply UInt64.toNat_inj.mp
  simp only [toNat_add]
  omega

/-- Counting up stops at the largest value. -/
theorem toNat_succ (a : Value) : (succ a).toNat = min (a.toNat + 1) max.toNat :=
  toNat_add a 1

/-- Counting down stops at zero. -/
theorem toNat_pred (a : Value) : (pred a).toNat = a.toNat - 1 := by
  unfold pred
  split
  · simp_all
  · rename_i h
    have one_le : (1 : Value) ≤ a := by
      rw [UInt64.le_iff_toNat_le]
      have : a.toNat ≠ 0 := fun zero => h (UInt64.toNat_inj.mp zero)
      have one : (1 : Value).toNat = 1 := rfl
      omega
    rw [UInt64.toNat_sub_of_le _ _ one_le]
    rfl

end Value

end CounterMachine
