import CounterMachine.Identifier.Fault
import CounterMachine.Text.Blank
import CounterMachine.Text.Decimal

/-! # Variables

A counter is named by a variable: `y` holds the result, `x1`, `x2`, … the inputs and `z1`,
`z2`, … the work a program does on the side.

* `Variable.text`, `Variable.parse`   writing and reading a variable
* `Variable.parse_text`   a variable is read back from its text
* `Ord Variable`   `y`, then the inputs by index, then the work variables by index

The order is lawful (`compare` is `eq` on equal variables only), so that sorted sets and maps of
variables can be used as such. -/

namespace CounterMachine

/-- A counter of a program. -/
inductive Variable where
  /-- The counter `y`, which holds the result. -/
  | result
  /-- The input counter `x` of an index. -/
  | input (index : Nat)
  /-- The work counter `z` of an index. -/
  | work (index : Nat)
  deriving DecidableEq, Repr, Inhabited

/-- The three kinds of variables. -/
inductive VariableKind where
  | result
  | input
  | work
  deriving DecidableEq, Repr

namespace VariableKind

/-- The word for a kind of variables. -/
def name : VariableKind → String
  | result => "result"
  | input => "input"
  | work => "work"

/-- The place of a kind in the order of variables. -/
def rank : VariableKind → Nat
  | result => 0
  | input => 1
  | work => 2

instance : Ord VariableKind := ⟨compareOn rank⟩

instance : Std.TransOrd VariableKind := inferInstanceAs (Std.TransCmp (compareOn rank))

instance : Std.LawfulEqOrd VariableKind where
  eq_of_compare {a b} h := by
    cases a <;> cases b <;> first | rfl | exact absurd h (by decide)

end VariableKind

namespace Variable

/-- The kind of a variable. -/
def kind : Variable → VariableKind
  | result => .result
  | input _ => .input
  | work _ => .work

/-- The index of a variable; `y` counts as index zero. -/
def index : Variable → Nat
  | result => 0
  | input n => n
  | work n => n

/-- Whether a variable is the result `y`. -/
def isResult : Variable → Bool
  | result => true
  | _ => false

/-- Whether a variable is an input. -/
def isInput : Variable → Bool
  | input _ => true
  | _ => false

/-- Whether a variable is a work variable. -/
def isWork : Variable → Bool
  | work _ => true
  | _ => false

/-- The number of a work variable. -/
def workIndex? : Variable → Option Nat
  | work n => some n
  | _ => none

/-- A variable is its kind and its index. -/
theorem eq_of_kind_eq_of_index_eq {v w : Variable} (kind_eq : v.kind = w.kind)
    (index_eq : v.index = w.index) : v = w := by
  cases v <;> cases w <;> simp_all [kind, index]

/-- Variables are ordered by kind, then by index. -/
instance : Ord Variable := ⟨compareLex (compareOn kind) (compareOn index)⟩

instance : Std.TransOrd Variable :=
  inferInstanceAs (Std.TransCmp (compareLex (compareOn kind) (compareOn index)))

instance : Std.LawfulEqOrd Variable where
  eq_of_compare {v w} h := by
    have both : compare v.kind w.kind = .eq ∧ compare v.index w.index = .eq :=
      Ordering.then_eq_eq.mp h
    exact eq_of_kind_eq_of_index_eq (Std.LawfulEqOrd.eq_of_compare both.1)
      (Std.LawfulEqOrd.eq_of_compare both.2)

instance : LT Variable := ltOfOrd

/-- The text of a variable. -/
def text : Variable → String
  | result => "y"
  | input n => "x" ++ n.repr
  | work n => "z" ++ n.repr

/-- The variable that a text without blanks around it names. -/
def ofChars? : List Char → Option Variable
  | ['y'] => some result
  | 'x' :: digits => (Text.readIndex digits).map input
  | 'z' :: digits => (Text.readIndex digits).map work
  | _ => none

/-- Reads a variable; blanks around it are skipped. -/
def parse (text : String) : Except IdentifierError Variable :=
  match ofChars? (Text.trim text.toList) with
  | some v => .ok v
  | none => .error (.invalidVariable text)

/-- The text of a variable is read back as that variable. -/
theorem parse_text {v : Variable} (h : v.index ≤ Text.maxIndex) : parse v.text = .ok v := by
  have digits (n : Nat) : ∀ c ∈ n.repr.toList, c.isDigit = true := fun _ =>
    Text.isDigit_of_mem_repr
  cases v with
  | result => rfl
  | input n =>
    have chars : (input n).text.toList = 'x' :: n.repr.toList := by simp [text]
    rw [parse, chars, Text.trim_cons_of_isDigit (by decide) (digits n), ofChars?,
      Text.readIndex_repr (show n ≤ Text.maxIndex from h)]
    rfl
  | work n =>
    have chars : (work n).text.toList = 'z' :: n.repr.toList := by simp [text]
    rw [parse, chars, Text.trim_cons_of_isDigit (by decide) (digits n), ofChars?,
      Text.readIndex_repr (show n ≤ Text.maxIndex from h)]
    rfl

end Variable

end CounterMachine
