import CounterMachine.Identifier.Fault
import CounterMachine.Text.Blank
import CounterMachine.Text.Decimal

/-! # Labels

An instruction may carry a label, and a jump names the label it goes to.  Two labels are
special: the empty label, which stands for no label, and `EXIT`, which ends the program.

* `Label.text`, `Label.parse`   writing and reading a label
* `Label.parse_text`   a label is read back from its text
* `Ord Label`   the empty label, then the numbered labels by number, then `EXIT` -/

namespace CounterMachine

/-- A label of an instruction, or the target of a jump. -/
inductive Label where
  /-- The label of an instruction that has none. -/
  | empty
  /-- The label `L` of a number. -/
  | numbered (number : Nat)
  /-- The label that ends the program. -/
  | exit
  deriving DecidableEq, Repr, Inhabited

namespace Label

/-- Whether a label is the empty one. -/
def isEmpty : Label → Bool
  | empty => true
  | _ => false

/-- Whether a label is `EXIT`. -/
def isExit : Label → Bool
  | exit => true
  | _ => false

/-- The number of a numbered label. -/
def number? : Label → Option Nat
  | numbered n => some n
  | _ => none

/-- The place of a label's form in the order of labels. -/
def rank : Label → Nat
  | empty => 0
  | numbered _ => 1
  | exit => 2

/-- Labels are ordered by form, then by number. -/
instance : Ord Label := ⟨compareLex (compareOn rank) (compareOn number?)⟩

instance : Std.TransOrd Label :=
  inferInstanceAs (Std.TransCmp (compareLex (compareOn rank) (compareOn number?)))

instance : Std.LawfulEqOrd Label where
  eq_of_compare {a b} h := by
    have both : compare a.rank b.rank = .eq ∧ compare a.number? b.number? = .eq :=
      Ordering.then_eq_eq.mp h
    have rank_eq : a.rank = b.rank := Std.LawfulEqOrd.eq_of_compare both.1
    have number_eq : a.number? = b.number? := Std.LawfulEqOrd.eq_of_compare both.2
    cases a <;> cases b <;> simp_all [rank, number?]

instance : LT Label := ltOfOrd

/-- The text of a label. -/
def text : Label → String
  | empty => ""
  | numbered n => "L" ++ n.repr
  | exit => "EXIT"

/-- The label that a text without blanks around it names.  `EXIT` is read in any case of its
ASCII letters, the `L` of a numbered label is a capital. -/
def ofChars? (text : List Char) : Option Label :=
  if text.isEmpty then
    some empty
  else if text.map Char.toLower = ['e', 'x', 'i', 't'] then
    some exit
  else
    match text with
    | 'L' :: digits => (Text.readIndex digits).map numbered
    | _ => none

/-- Reads a label; blanks around it are skipped. -/
def parse (text : String) : Except IdentifierError Label :=
  match ofChars? (Text.trim text.toList) with
  | some label => .ok label
  | none => .error (.invalidLabel text)

/-- The text of a label is read back as that label. -/
theorem parse_text {label : Label} (h : ∀ n ∈ label.number?, n ≤ Text.maxIndex) :
    parse label.text = .ok label := by
  cases label with
  | empty => rfl
  | exit => rfl
  | numbered n =>
    have chars : (numbered n).text.toList = 'L' :: n.repr.toList := by simp [text]
    have digits : ∀ c ∈ n.repr.toList, c.isDigit = true := fun _ => Text.isDigit_of_mem_repr
    have notExit : ('L' :: n.repr.toList).map Char.toLower ≠ ['e', 'x', 'i', 't'] := by
      rw [List.map_cons]
      exact fun same => absurd (List.cons.inj same).1 (by decide)
    rw [parse, chars, Text.trim_cons_of_isDigit (by decide) digits, ofChars?, if_neg notExit]
    simp only [List.isEmpty_cons, Bool.false_eq_true, if_false, Text.readIndex_repr (h n rfl)]
    rfl

end Label

end CounterMachine
