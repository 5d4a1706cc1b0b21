import CounterMachine.Identifier.Variable
import CounterMachine.Value
import Std.Data.ExtTreeMap

/-! # Bindings

The contents of counters, as a finite map from variables to values.  A counter without a binding
reads as zero.  Two bindings are equal when they bind the same counters to the same values. -/

namespace CounterMachine

/-- The contents of counters. -/
abbrev Bindings := Std.ExtTreeMap Variable Value

namespace Bindings

/-- The content of a counter. -/
def read (b : Bindings) (v : Variable) : Value := b[v]?.getD 0

/-- The bindings with a counter bound to a value. -/
def bind (b : Bindings) (v : Variable) (value : Value) : Bindings := b.insert v value

/-- The bindings with pairs of counters and values added, where a later pair of one counter
wins. -/
def bindAll (b : Bindings) (pairs : List (Variable × Value)) : Bindings :=
  pairs.foldl (fun b pair => b.bind pair.1 pair.2) b

/-- The bindings that a list of pairs makes. -/
def ofPairs (pairs : List (Variable × Value)) : Bindings := bindAll ∅ pairs

/-- The values for a list of inputs: too few are filled up with zeros, too many are left out. -/
def inputPairs (inputs : List Variable) (values : List Value) : List (Variable × Value) :=
  inputs.mapIdx fun i v => (v, values[i]?.getD 0)

/-- The bindings at the start of a run: the declared counters and the result are zero, the inputs
have the given values. -/
def initial (declared inputs : List Variable) (values : List Value) : Bindings :=
  bindAll (bindAll ∅ ((declared ++ [Variable.result]).map (·, 0))) (inputPairs inputs values)

/-- The bindings as text: pairs in the order of the variables. -/
def text (b : Bindings) : String :=
  " ".intercalate (b.toList.map fun pair => pair.1.text ++ "=" ++ pair.2.toNat.repr)

/-- What has been bound is read; every other counter is read as before. -/
theorem read_bind (b : Bindings) (v w : Variable) (value : Value) :
    (b.bind v value).read w = if v = w then value else b.read w := by
  simp only [read, bind, Std.ExtTreeMap.getElem?_insert, Std.LawfulEqCmp.compare_eq_iff_eq]
  split <;> rfl

/-- A counter is bound if it has just been bound, or was before. -/
theorem mem_bind (b : Bindings) (v w : Variable) (value : Value) :
    w ∈ b.bind v value ↔ v = w ∨ w ∈ b := by
  simp [bind, Std.ExtTreeMap.mem_insert]

/-- The same for bindings that are added one after the other. -/
theorem mem_bindAll (b : Bindings) (pairs : List (Variable × Value)) (w : Variable) :
    w ∈ b.bindAll pairs ↔ w ∈ b ∨ w ∈ pairs.map Prod.fst := by
  induction pairs generalizing b with
  | nil => simp [bindAll]
  | cons pair rest ih =>
    have step : b.bindAll (pair :: rest) = (b.bind pair.1 pair.2).bindAll rest := rfl
    rw [step, ih, mem_bind, List.map_cons, List.mem_cons]
    grind

end Bindings

end CounterMachine
