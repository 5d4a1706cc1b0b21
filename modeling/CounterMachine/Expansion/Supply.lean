import CounterMachine.Program.Basic

/-! # Supplies of fresh names

An expansion needs labels and work counters that the program does not use.  A supply hands them
out in increasing order, starting above the largest ones in use.

The numbers of labels and the indexes of counters have 32 bits, while a supply counts without a
bound.  `Supply.InRange` says that it has not gone beyond them.  An expansion whose counters have
32 bits overflows where a supply gets out of this range, and comes to the same where it stays
inside: see `Program.expandChecked_cases`. -/

namespace CounterMachine

/-- The largest label number and the largest work index that are taken.  They are natural numbers:
what an expansion with counters of 32 bits does is told by `Program.expandChecked`. -/
structure Supply where
  label : Nat
  work : Nat
  deriving DecidableEq, Repr

namespace Supply

/-- The largest number of a list, or zero. -/
def largest (numbers : List Nat) : Nat := numbers.foldl max 0

/-- The supply above the names that a program uses. -/
def ofProgram (p : Program) : Supply :=
  { label := largest (p.usedLabels.filterMap Label.number?)
    work := largest (p.usedVars.filterMap Variable.workIndex?) }

/-- The fresh label that is `count` places above the taken ones. -/
def labelAt (s : Supply) (count : Nat) : Label := .numbered (s.label + count)

/-- The fresh work counter that is `count` places above the taken ones. -/
def workAt (s : Supply) (count : Nat) : Variable := .work (s.work + count)

/-- The supply after a number of labels and of work counters have been handed out. -/
def take (s : Supply) (labels works : Nat) : Supply :=
  { label := s.label + labels, work := s.work + works }

/-- The next fresh labels. -/
def freshLabels (s : Supply) (count : Nat) : List Label :=
  (List.range count).map fun i => s.labelAt (i + 1)

/-- The next fresh work counters. -/
def freshWorks (s : Supply) (count : Nat) : List Variable :=
  (List.range count).map fun i => s.workAt (i + 1)

/-- All that has been handed out has 32 bits: no counter of the supply has overflowed. -/
def InRange (s : Supply) : Prop := s.label ≤ Text.maxIndex ∧ s.work ≤ Text.maxIndex

instance (s : Supply) : Decidable s.InRange :=
  inferInstanceAs (Decidable (s.label ≤ Text.maxIndex ∧ s.work ≤ Text.maxIndex))

/-- A supply that has handed out less is in range as well. -/
theorem InRange.of_le {s s' : Supply} (h : s'.InRange) (hlabel : s.label ≤ s'.label)
    (hwork : s.work ≤ s'.work) : s.InRange :=
  ⟨Nat.le_trans hlabel h.1, Nat.le_trans hwork h.2⟩

end Supply

end CounterMachine
