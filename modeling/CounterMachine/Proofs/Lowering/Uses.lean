import CounterMachine.Expansion.Lowering

/-!
# The names that lines use

A line uses the counters of its instruction, the label that it carries and the label that it jumps
to. Names are fresh when a supply has handed them out between two points of an expansion.

## Key results

- `Instruction.vars_rename`: a renamed instruction lists the renamed counters
-/

namespace CounterMachine

/-- The line that an operation holds. -/
def Operation.line (op : Operation) : Line := ⟨op.label, op.instruction⟩

/-- The visible lines of a program. -/
def Program.lines (p : Program) : List Line := p.operations.map Operation.line

/-- The labels that a line carries or jumps to. -/
def Line.labels (line : Line) : List Label :=
  (if line.label.isEmpty then [] else [line.label]) ++ line.instruction.target?.toList

/-- Some line reads or writes a counter. -/
def UsesVar (lines : List Line) (v : Variable) : Prop := ∃ line ∈ lines, v ∈ line.instruction.vars

/-- Some line carries a label or jumps to it. -/
def UsesLabel (lines : List Line) (x : Label) : Prop := ∃ line ∈ lines, x ∈ line.labels

/-- A work counter that a supply has handed out on the way to a later one. -/
def FreshVar (s s' : Supply) (v : Variable) : Prop := ∃ n, s.work < n ∧ n ≤ s'.work ∧ v = .work n

/-- A label that a supply has handed out on the way to a later one. -/
def FreshLabel (s s' : Supply) (x : Label) : Prop :=
  ∃ n, s.label < n ∧ n ≤ s'.label ∧ x = .numbered n

section

variable {line : Line} {lines lines' : List Line} {v : Variable} {x : Label}

/-- No lines use no counters. -/
@[simp] theorem usesVar_nil : ¬ UsesVar [] v := fun ⟨_, h, _⟩ => nomatch h

/-- The first line uses a counter, or the others do. -/
@[simp] theorem usesVar_cons :
    UsesVar (line :: lines) v ↔ v ∈ line.instruction.vars ∨ UsesVar lines v := by
  simp [UsesVar]

/-- One part of the lines uses a counter, or the other part does. -/
@[simp] theorem usesVar_append :
    UsesVar (lines ++ lines') v ↔ UsesVar lines v ∨ UsesVar lines' v := by
  simp only [UsesVar, List.mem_append, or_and_right, exists_or]

/-- No lines use no labels. -/
@[simp] theorem usesLabel_nil : ¬ UsesLabel [] x := fun ⟨_, h, _⟩ => nomatch h

/-- The first line uses a label, or the others do. -/
@[simp] theorem usesLabel_cons :
    UsesLabel (line :: lines) x ↔ x ∈ line.labels ∨ UsesLabel lines x := by
  simp [UsesLabel]

/-- One part of the lines uses a label, or the other part does. -/
@[simp] theorem usesLabel_append :
    UsesLabel (lines ++ lines') x ↔ UsesLabel lines x ∨ UsesLabel lines' x := by
  simp only [UsesLabel, List.mem_append, or_and_right, exists_or]

/-- The labels of a line are its own, unless that is empty, and its target. -/
theorem mem_line_labels {l : Line} :
    x ∈ l.labels ↔ (x = l.label ∧ x ≠ .empty) ∨ l.instruction.target? = some x := by
  rcases l with ⟨label, i⟩
  cases label <;> simp [Line.labels, Label.isEmpty] <;> grind

end

/-- The labels of an operation are those of its line. -/
theorem Operation.mem_labels (op : Operation) {x : Label} :
    x ∈ op.labels ↔ (x = op.label ∧ x ≠ .empty) ∨ op.instruction.target? = some x :=
  mem_line_labels (l := op.line)

namespace Supply

variable (s : Supply) (k n : Nat)

/-- A counter that is taken from the supply is fresh. -/
theorem freshVar_workAt (labels works : Nat) (hk : 0 < k) (hle : k ≤ works) :
    FreshVar s (s.take labels works) (s.workAt k) :=
  ⟨s.work + k, by omega, by simp only [take]; omega, rfl⟩

/-- So is a label that is taken from it. -/
theorem freshLabel_labelAt (labels works : Nat) (hk : 0 < k) (hle : k ≤ labels) :
    FreshLabel s (s.take labels works) (s.labelAt k) :=
  ⟨s.label + k, by omega, by simp only [take]; omega, rfl⟩

end Supply

/-- A counter of several arguments is a counter of one of them. -/
theorem mem_listVars {args : List Argument} {v : Variable} :
    v ∈ Argument.listVars args ↔ ∃ arg ∈ args, v ∈ arg.vars := by
  induction args with
  | nil => simp [Argument.listVars]
  | cons arg rest ih => simp [Argument.listVars, ih]

/-! ### Names of a renamed instruction -/

section

variable (f : Variable → Variable) (g : Label → Label)

mutual

/-- A renamed argument lists the renamed counters, in the same order. -/
theorem Argument.vars_rename : (arg : Argument) → (arg.rename f).vars = arg.vars.map f
  | .var _ => rfl
  | .nested _ args => by
    rw [Argument.rename, Argument.vars, Argument.vars, Argument.listVars_renameList args]

/-- So do several arguments. -/
theorem Argument.listVars_renameList : (args : List Argument) →
    Argument.listVars (Argument.renameList f args) = (Argument.listVars args).map f
  | [] => rfl
  | arg :: rest => by
    rw [Argument.renameList, Argument.listVars, Argument.listVars, List.map_append,
      Argument.vars_rename arg, Argument.listVars_renameList rest]

end

/-- And so does a call. -/
theorem Call.vars_rename (call : Call) : (call.rename f).vars = call.vars.map f :=
  Argument.listVars_renameList f call.args

/-- A renamed instruction lists the renamed counters. -/
theorem Instruction.vars_rename (i : Instruction) : (i.rename f g).vars = i.vars.map f := by
  cases i with
  | jumpEqual v rhs target => cases rhs <;> rfl
  | quote dst call => simp [rename, vars, Call.vars_rename]
  | jumpEqualCall v call target => simp [rename, vars, Call.vars_rename]
  | _ => rfl

/-- A renamed instruction has got the renamed target. -/
theorem Instruction.target?_rename (i : Instruction) :
    (i.rename f g).target? = i.target?.map g := by
  cases i <;> rfl

end

/-! ### Counters and labels alike -/

/-- A name that a line may use. -/
inductive Name where
  | var (v : Variable)
  | label (x : Label)

/-- The names that a line uses. -/
def Line.names (line : Line) : List Name :=
  line.instruction.vars.map .var ++ line.labels.map .label

/-- Some line uses a name. -/
def Uses (lines : List Line) (ν : Name) : Prop := ∃ line ∈ lines, ν ∈ line.names

namespace Name

/-- A supply has handed the name out on the way to a later one. -/
def Fresh (s s' : Supply) : Name → Prop
  | var v => FreshVar s s' v
  | label x => FreshLabel s s' x

/-- A supply will not hand the name out. -/
def Covered (s : Supply) : Name → Prop
  | var v => ∀ n, v = .work n → n ≤ s.work
  | label x => ∀ n, x = .numbered n → n ≤ s.label

/-- A name that no supply hands out and that lowered lines may use nevertheless. -/
inductive Reserved : Name → Prop
  | result : Reserved (var .result)
  | empty : Reserved (label .empty)

/-- A reserved name has got no number, so every supply covers it. -/
theorem Reserved.covered {ν : Name} (h : ν.Reserved) (s : Supply) : ν.Covered s := by
  cases h <;> exact fun n => nofun

/-- What a supply covers is not handed out afterwards. -/
theorem Covered.not_fresh {s s' : Supply} {ν : Name} (h : ν.Covered s) : ¬ ν.Fresh s s' := by
  cases ν with
  -- A fresh name is numbered above the supply, and a covered one is not.
  | var v => rintro ⟨n, hn, _, hv⟩; have := h n hv; omega
  | label x => rintro ⟨n, hn, _, hx⟩; have := h n hx; omega

/-- What a supply hands out next is no counter that it covers. -/
theorem Covered.workAt_ne {s : Supply} {v : Variable} (h : Covered s (var v)) {n : Nat}
    (hn : 0 < n) : s.workAt n ≠ v := by
  rintro rfl
  have := h _ rfl
  omega

/-- A later supply covers at least as much. -/
theorem Covered.mono {s s' : Supply} {ν : Name} (hl : s.label ≤ s'.label) (hw : s.work ≤ s'.work)
    (h : ν.Covered s) : ν.Covered s' := by
  cases ν with
  | var v => exact fun n hv => Nat.le_trans (h n hv) hw
  | label x => exact fun n hx => Nat.le_trans (h n hx) hl

/-- What has been handed out is covered from then on. -/
theorem Fresh.covered {s s' : Supply} {ν : Name} (h : ν.Fresh s s') : ν.Covered s' := by
  cases ν with
  | var v => obtain ⟨n, _, hn, rfl⟩ := h; exact fun m hm => Variable.work.inj hm ▸ hn
  | label x => obtain ⟨n, _, hn, rfl⟩ := h; exact fun m hm => Label.numbered.inj hm ▸ hn

end Name

section

variable {line : Line} {lines : List Line}

/-- The variables among the names of a line are those of its instruction. -/
@[simp] theorem var_mem_names {v : Variable} :
    .var v ∈ line.names ↔ v ∈ line.instruction.vars := by
  simp [Line.names]

/-- The labels among the names of a line are those it carries or jumps to. -/
@[simp] theorem label_mem_names {x : Label} : .label x ∈ line.names ↔ x ∈ line.labels := by
  simp [Line.names]

/-- Using the name of a counter is using the counter. -/
@[simp] theorem uses_var {v : Variable} : Uses lines (.var v) ↔ UsesVar lines v := by
  simp only [Uses, var_mem_names, UsesVar]

/-- Using the name of a label is using the label. -/
@[simp] theorem uses_label {x : Label} : Uses lines (.label x) ↔ UsesLabel lines x := by
  simp only [Uses, label_mem_names, UsesLabel]

end

end CounterMachine
