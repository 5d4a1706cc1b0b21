import CounterMachine.Instruction.Renaming
import CounterMachine.Program.FunctionTable

/-!
# Degrees of instructions

The degree of an instruction is a largest value: over the arguments of its call, and over the
degrees of the functions that it calls. It grows with the degrees of functions, and does not depend
on names, as long as different counters stay different.

## Key results

- `Argument.listDegree_le_iff`: what bounds the degrees of arguments
- `Program.degreeUnder_mono`: the degree grows with the degrees of functions
- `Instruction.degree_rename`: a renamed instruction has the same degree
-/

namespace CounterMachine

section

variable {f g : String → Nat}

/-- The degree of arguments is bounded by what bounds the degree of each of them. -/
theorem Argument.listDegree_le_iff {args : List Argument} {n : Nat} :
    Argument.listDegree f args ≤ n ↔ ∀ arg ∈ args, arg.degree f ≤ n := by
  induction args with
  | nil => simp [Argument.listDegree]
  | cons arg rest ih => rw [Argument.listDegree, Nat.max_le, ih, List.forall_mem_cons]

mutual

/-- The degree of an argument grows with the degrees of the functions in it. -/
theorem Argument.degree_mono (h : ∀ name, f name ≤ g name) :
    (arg : Argument) → arg.degree f ≤ arg.degree g
  | .var _ => Nat.le_refl _
  | .nested function args => by
    have here := h function
    have inner := Argument.listDegree_mono h args
    simp only [Argument.degree]
    omega

/-- So does that of several arguments. -/
theorem Argument.listDegree_mono (h : ∀ name, f name ≤ g name) :
    (args : List Argument) → Argument.listDegree f args ≤ Argument.listDegree g args
  | [] => Nat.le_refl _
  | arg :: rest => by
    have first := Argument.degree_mono h arg
    have others := Argument.listDegree_mono h rest
    simp only [Argument.listDegree]
    omega

end

/-- The degree of an instruction grows with the degrees of the functions that it calls. -/
theorem Instruction.degree_mono (h : ∀ name, f name ≤ g name) (i : Instruction) :
    i.degree f ≤ i.degree g := by
  have hbody : ∀ call : Call, call.bodyDegree f ≤ call.bodyDegree g := by
    intro call
    have here := h call.function
    have inner := Argument.listDegree_mono h call.args
    simp only [Call.bodyDegree]
    omega
  -- Only the two instructions with a call look at the degrees of functions.
  cases i with
  | quote dst call => have := hbody call; simp only [degree]; omega
  | jumpEqualCall v call target => have := hbody call; simp only [degree]; omega
  | _ => exact Nat.le_refl _

/-- No operation has got a larger degree than the program. -/
theorem Program.degree_le_degreeUnder {p : Program} {op : Operation} (h : op ∈ p.operations) :
    op.instruction.degree f ≤ p.degreeUnder f :=
  degreeUnder_le_iff.mp (Nat.le_refl _) op h

/-- The degree of a program grows with the degrees of the functions that it calls. -/
theorem Program.degreeUnder_mono (h : ∀ name, f name ≤ g name) (p : Program) :
    p.degreeUnder f ≤ p.degreeUnder g :=
  degreeUnder_le_iff.mpr fun op hop =>
    Nat.le_trans (op.instruction.degree_mono h) (degree_le_degreeUnder hop)

/-- The degree of a program depends on the look-up at the functions that it calls. -/
theorem Program.degreeUnder_congr {p : Program} (h : ∀ name ∈ p.callees, f name = g name) :
    p.degreeUnder f = p.degreeUnder g := by
  have hop : ∀ op ∈ p.operations, op.instruction.degree f = op.instruction.degree g :=
    fun op hop => op.instruction.degree_congr fun name hname =>
      h name (List.mem_flatMap.mpr ⟨op, hop, hname⟩)
  -- Each degree bounds the operations under the other look-up.
  apply Nat.le_antisymm
  · refine degreeUnder_le_iff.mpr fun op hmem => ?_
    rw [hop op hmem]
    exact degree_le_degreeUnder hmem
  · refine degreeUnder_le_iff.mpr fun op hmem => ?_
    rw [← hop op hmem]
    exact degree_le_degreeUnder hmem

end

/-! ### Renamed instructions -/

section

variable (d : String → Nat) (f : Variable → Variable)

mutual

/-- A renamed argument has got the same degree. -/
theorem Argument.degree_rename : (arg : Argument) → (arg.rename f).degree d = arg.degree d
  | .var _ => rfl
  | .nested function args => by
    rw [Argument.rename, Argument.degree, Argument.degree, Argument.listDegree_renameList args]

/-- So have several renamed arguments. -/
theorem Argument.listDegree_renameList : (args : List Argument) →
    Argument.listDegree d (Argument.renameList f args) = Argument.listDegree d args
  | [] => rfl
  | arg :: rest => by
    rw [Argument.renameList, Argument.listDegree, Argument.listDegree, Argument.degree_rename arg,
      Argument.listDegree_renameList rest]

end

/-- A renamed instruction has the same degree. An assignment of a counter to itself is cheaper than
others, so different counters have to stay different. -/
theorem Instruction.degree_rename (labels : Label → Label) {i : Instruction}
    (hf : ∀ v ∈ i.vars, ∀ w ∈ i.vars, f v = f w → v = w) :
    (i.rename f labels).degree d = i.degree d := by
  have hbody : ∀ call : Call, (call.rename f).bodyDegree d = call.bodyDegree d := fun call => by
    rw [Call.rename, Call.bodyDegree, Call.bodyDegree, Argument.listDegree_renameList]
  cases i with
  | assign dst src =>
    -- An assignment is a line or a loop, depending on whether its counters are the same.
    have hiff : f dst = f src ↔ dst = src :=
      ⟨hf dst (by simp [vars]) src (by simp [vars]), fun heq => heq ▸ rfl⟩
    simp only [rename, degree, hiff]
  | quote dst call => simp only [rename, degree, hbody]
  | jumpEqualCall v call target => simp only [rename, degree, hbody]
  | _ => rfl

omit d

mutual

/-- A renamed argument calls the same functions, in the same order. -/
theorem Argument.callees_rename : (arg : Argument) → (arg.rename f).callees = arg.callees
  | .var _ => rfl
  | .nested function args => by
    rw [Argument.rename, Argument.callees, Argument.callees, Argument.listCallees_renameList args]

/-- So do several renamed arguments. -/
theorem Argument.listCallees_renameList : (args : List Argument) →
    Argument.listCallees (Argument.renameList f args) = Argument.listCallees args
  | [] => rfl
  | arg :: rest => by
    rw [Argument.renameList, Argument.listCallees, Argument.listCallees,
      Argument.callees_rename arg, Argument.listCallees_renameList rest]

end

/-- A renamed instruction calls the same functions, in the same order. -/
theorem Instruction.callees_rename (labels : Label → Label) (i : Instruction) :
    (i.rename f labels).callees = i.callees := by
  have hcall : ∀ call : Call, (call.rename f).callees = call.callees := fun call => by
    rw [Call.rename, Call.callees, Call.callees, Argument.listCallees_renameList]
  cases i with
  | quote dst call => exact hcall call
  | jumpEqualCall v call target => exact hcall call
  | _ => rfl

end

end CounterMachine
