import CounterMachine.Proofs.Lowering.Names
import CounterMachine.Proofs.Semantics.Renaming

/-!
# Renamed lines are lowered alike

A renaming replaces work counters and numbered labels by others, and leaves the result, the inputs,
the empty label and `EXIT` alone. If it takes the names that come in when a line is lowered to those
that another supply hands out, then the renamed line is lowered with that supply to the renamed
lines.

## Key results

- `Instruction.rename_rename`, `Instruction.rename_congr`: instructions that are renamed twice, or
  in two ways
- `Renaming.inlineCall_line`: a call is inlined alike
- `Renaming.lower_line`: a line is lowered alike
-/

namespace CounterMachine

/-! ### Renamed instructions -/

section

variable {f f' : Variable → Variable} {g g' : Label → Label}

mutual

/-- An argument that is renamed twice, with everything that is nested in it. -/
theorem Argument.rename_rename : (arg : Argument) →
    (arg.rename f).rename f' = arg.rename (f' ∘ f)
  | .var _ => rfl
  | .nested _ args => by rw [rename, rename, rename, Argument.renameList_renameList args]

/-- Arguments that are renamed twice. -/
theorem Argument.renameList_renameList : (args : List Argument) →
    Argument.renameList f' (Argument.renameList f args) = Argument.renameList (f' ∘ f) args
  | [] => rfl
  | arg :: rest => by
    rw [renameList, renameList, renameList, Argument.rename_rename arg,
      Argument.renameList_renameList rest]

end

/-- An instruction that is renamed twice. -/
theorem Instruction.rename_rename (i : Instruction) :
    (i.rename f g).rename f' g' = i.rename (f' ∘ f) (g' ∘ g) := by
  cases i with
  | jumpEqual v rhs target => cases rhs <;> rfl
  | quote dst call => simp [rename, Call.rename, Argument.renameList_renameList]
  | jumpEqualCall v call target => simp [rename, Call.rename, Argument.renameList_renameList]
  | _ => rfl

mutual

/-- An argument depends on what becomes of the counters in it. -/
theorem Argument.rename_congr : (arg : Argument) → (∀ v ∈ arg.vars, f v = f' v) →
    arg.rename f = arg.rename f'
  | .var v, h => by rw [rename, rename, h v (by simp [vars])]
  | .nested _ args, h => by
    rw [rename, rename, Argument.renameList_congr args fun v hv => h v (by rw [vars]; exact hv)]

/-- So do several arguments. -/
theorem Argument.renameList_congr : (args : List Argument) →
    (∀ v ∈ Argument.listVars args, f v = f' v) →
    Argument.renameList f args = Argument.renameList f' args
  | [], _ => rfl
  | arg :: rest, h => by
    rw [renameList, renameList, Argument.rename_congr arg fun v hv => h v (by simp [listVars, hv]),
      Argument.renameList_congr rest fun v hv => h v (by simp [listVars, hv])]

end

/-- A call depends on what becomes of the counters that it passes. -/
theorem Call.rename_congr (call : Call) (h : ∀ v ∈ call.vars, f v = f' v) :
    call.rename f = call.rename f' := by
  rw [rename, rename, Argument.renameList_congr call.args h]

/-- What becomes of a renamed instruction depends on what becomes of its counters and its target. -/
theorem Instruction.rename_congr (i : Instruction) (hf : ∀ v ∈ i.vars, f v = f' v)
    (hg : ∀ x, i.target? = some x → g x = g' x) : i.rename f g = i.rename f' g' := by
  cases i with
  | jumpEqual v rhs target => cases rhs <;> simp_all [rename, vars, target?, Operand.rename,
      Operand.vars]
  | quote dst call =>
    rw [rename, rename, hf dst (by simp [vars]),
      Call.rename_congr call fun v hv => hf v (by simp [vars, hv])]
  | jumpEqualCall v call target =>
    rw [rename, rename, hf v (by simp [vars]), hg target rfl,
      Call.rename_congr call fun w hw => hf w (by simp [vars, hw])]
  | _ => simp_all [rename, vars, target?]

/-- Renaming does not change the form of an instruction. -/
@[simp] theorem Instruction.isBasic_rename (i : Instruction) :
    (i.rename f g).isBasic = i.isBasic := by
  cases i <;> rfl

/-- Nor does it change the declared cost. -/
@[simp] theorem Instruction.cycles_rename (i : Instruction) :
    (i.rename f g).cycles = i.cycles := by
  cases i <;> rfl

end

/-! ### Renamings -/

/-- New numbers for work counters and for labels. -/
structure Renaming where
  work : Nat → Nat
  number : Nat → Nat

namespace Renaming

/-- The result and the inputs keep their names. -/
def var (ρ : Renaming) : Variable → Variable
  | .work n => .work (ρ.work n)
  | v => v

/-- The empty label and `EXIT` stay. -/
def label (ρ : Renaming) : Label → Label
  | .numbered n => .numbered (ρ.number n)
  | x => x

/-- The line under new names. -/
def line (ρ : Renaming) (l : Line) : Line :=
  ⟨ρ.label l.label, l.instruction.rename ρ.var ρ.label⟩

/-- What becomes of a name. -/
def name (ρ : Renaming) : Name → Name
  | .var v => .var (ρ.var v)
  | .label x => .label (ρ.label x)

variable {ρ ρ' : Renaming} {s s' t : Supply} {lines : List Line}

/-- The result stays where it is. -/
@[simp] theorem var_result : ρ.var .result = .result := rfl

/-- A line without a label does not get one. -/
@[simp] theorem label_empty : ρ.label .empty = .empty := rfl

/-- What leaves the program still does so. -/
@[simp] theorem label_exit : ρ.label .exit = .exit := rfl

/-- A label has got a number before if and only if it has got one afterwards. -/
@[simp] theorem number?_isSome_label (x : Label) :
    (ρ.label x).number?.isSome = x.number?.isSome := by
  cases x <;> rfl

/-- A label is empty before if and only if it is empty afterwards. -/
@[simp] theorem isEmpty_label (x : Label) : (ρ.label x).isEmpty = x.isEmpty := by
  cases x <;> rfl

/-- A line without a label is renamed by its instruction. -/
@[simp] theorem line_plain (i : Instruction) :
    ρ.line (.plain i) = .plain (i.rename ρ.var ρ.label) := rfl

/-- The label and the instruction of a line are renamed each. -/
@[simp] theorem line_mk (x : Label) (i : Instruction) :
    ρ.line ⟨x, i⟩ = ⟨ρ.label x, i.rename ρ.var ρ.label⟩ := rfl

/-- A line depends on what becomes of its names. -/
theorem line_congr {l : Line} (h : ∀ ν ∈ l.names, ρ.name ν = ρ'.name ν) : ρ.line l = ρ'.line l := by
  have hvar : ∀ v ∈ l.instruction.vars, ρ.var v = ρ'.var v :=
    fun v hv => Name.var.inj (h (.var v) (var_mem_names.mpr hv))
  have hlabel : ∀ x ∈ l.labels, ρ.label x = ρ'.label x :=
    fun x hx => Name.label.inj (h (.label x) (label_mem_names.mpr hx))
  -- The empty label is no name of the line, but it stays under both renamings.
  have hown : ρ.label l.label = ρ'.label l.label := by
    by_cases hempty : l.label = .empty
    · rw [hempty, label_empty, label_empty]
    · exact hlabel _ (mem_line_labels.mpr (.inl ⟨rfl, hempty⟩))
  rw [line, line, hown, l.instruction.rename_congr hvar fun x hx =>
    hlabel x (mem_line_labels.mpr (.inr hx))]

/-- The renaming that leaves all names alone. -/
def identity : Renaming := ⟨id, id⟩

/-- The identity leaves every variable alone. -/
@[simp] theorem var_identity (v : Variable) : identity.var v = v := by
  cases v <;> rfl

/-- It leaves every label alone. -/
@[simp] theorem label_identity (x : Label) : identity.label x = x := by
  cases x <;> rfl

/-- So it leaves every name alone. -/
@[simp] theorem name_identity (ν : Name) : identity.name ν = ν := by
  cases ν <;> simp [name]

/-- And with the names it leaves the lines alone. -/
@[simp] theorem line_identity (l : Line) : identity.line l = l := by
  have hvar : identity.var = id := funext var_identity
  have hlabel : identity.label = id := funext label_identity
  rw [line, label_identity, hvar, hlabel, Instruction.rename_id]

/-- The first line of a renamed body takes the renamed label. -/
theorem map_line_attachLabel (x : Label) :
    (attachLabel x lines).map ρ.line = attachLabel (ρ.label x) (lines.map ρ.line) := by
  cases lines with
  | nil => rfl
  | cons first rest =>
    rw [attachLabel, List.map_cons, List.map_cons, attachLabel]
    congr 1
    simp only [line, isEmpty_label]
    split <;> rfl

/-- The names that lines use and that one supply hands out are replaced by those that another one
hands out. -/
structure Shifts (ρ : Renaming) (s t : Supply) (lines : List Line) : Prop where
  work : ∀ k, 0 < k → UsesVar lines (s.workAt k) → ρ.var (s.workAt k) = t.workAt k
  number : ∀ k, 0 < k → UsesLabel lines (s.labelAt k) → ρ.label (s.labelAt k) = t.labelAt k

/-! ### Inlined calls -/

section

variable {callee : Program} {args : List Argument} {final final' : Variable → Instruction}

/-- The counters of the function are replaced by those that it gets with the other supply. -/
theorem Shifts.var_calleeVar (h : ρ.Shifts s t (inlineCall callee args final s).1) {v : Variable}
    (hv : v ∈ callee.vars) : ρ.var (calleeVar callee s v) = calleeVar callee t v := by
  have hused : UsesVar (inlineCall callee args final s).1 (calleeVar callee s v) :=
    calleeVar_used final hv
  -- The counter has got the place of its variable in the list, under either supply.
  cases hi : callee.vars.idxOf? v with
  | none => exact absurd hv (List.idxOf?_eq_none_iff.mp hi)
  | some i =>
    have hname : ∀ r : Supply, calleeVar callee r v = r.workAt (i + 1) := fun r => by
      rw [calleeVar, freshVariable, hi]
    rw [hname] at hused ⊢
    rw [hname, h.work (i + 1) (Nat.succ_pos i) hused]

/-- So is the label behind the function. -/
theorem Shifts.label_returnLabel (h : ρ.Shifts s t (inlineCall callee args final s).1) :
    ρ.label (returnLabel s callee.numberedLabels) = returnLabel t callee.numberedLabels := by
  refine h.number _ (Nat.succ_pos _) ⟨returnLine callee s final, mem_inlineCall.mpr .last, ?_⟩
  exact mem_line_labels.mpr (.inl ⟨rfl, nofun⟩)

/-- The numbered labels of the function are replaced by those that it gets with the other supply. -/
theorem Shifts.label_calleeLabel_numbered (h : ρ.Shifts s t (inlineCall callee args final s).1)
    {n : Nat} (hn : .numbered n ∈ callee.numberedLabels) :
    ρ.label (calleeLabel callee s (.numbered n)) = calleeLabel callee t (.numbered n) := by
  cases hi : callee.numberedLabels.idxOf? (.numbered n) with
  | none => exact absurd hn (List.idxOf?_eq_none_iff.mp hi)
  | some i =>
    have hname : ∀ r : Supply, calleeLabel callee r (.numbered n) = r.labelAt (i + 1) := fun r => by
      simp [calleeLabel, freshLabel, hi]
    have hused :
        UsesLabel (inlineCall callee args final s).1 (calleeLabel callee s (.numbered n)) :=
      calleeLabel_used final hn (by rw [hname, Supply.labelAt]; exact Label.noConfusion)
    rw [hname] at hused ⊢
    rw [hname, h.number (i + 1) (Nat.succ_pos i) hused]

/-- And so is every label that a line of the function carries or jumps to. -/
theorem Shifts.label_calleeLabel (h : ρ.Shifts s t (inlineCall callee args final s).1)
    {op : Operation} (hop : op ∈ callee.operations) {x : Label}
    (hx : x = .empty ∨ x ∈ op.labels) :
    ρ.label (calleeLabel callee s x) = calleeLabel callee t x := by
  cases x with
  | empty => rw [calleeLabel_empty, calleeLabel_empty, label_empty]
  | exit => exact h.label_returnLabel
  | numbered n =>
    exact h.label_calleeLabel_numbered (mem_numberedLabels hop (by simpa using hx))

/-- The lines that bind inputs to arguments bind them to the renamed arguments. -/
theorem Shifts.map_bindingLines (h : ρ.Shifts s t (inlineCall callee args final s).1) :
    (bindingLines callee args s).map ρ.line =
      bindingLines callee (Argument.renameList ρ.var args) t := by
  -- Inputs and arguments are paired by position, as many as there are of both.
  refine List.ext_getElem? fun k => ?_
  rw [List.getElem?_map, bindingLines, bindingLines, List.getElem?_zipWith, List.getElem?_zipWith,
    Argument.renameList_eq_map, List.getElem?_map]
  cases hinput : callee.inputs[k]? with
  | none => rfl
  | some input =>
    have hv := h.var_calleeVar (Program.mem_vars_of_mem_inputs (List.mem_of_getElem? hinput))
    cases args[k]? with
    | none => rfl
    | some arg =>
      cases arg <;> simp [bindArgument, Instruction.rename, Argument.rename, Call.rename, hv]

/-- The lines that clear counters clear the renamed ones. -/
theorem Shifts.map_clearingLines (h : ρ.Shifts s t (inlineCall callee args final s).1) :
    (clearingLines callee args s).map ρ.line =
      clearingLines callee (Argument.renameList ρ.var args) t := by
  -- Which counters are cleared depends on the number of arguments only.
  have hunbound :
      unboundVars callee (Argument.renameList ρ.var args) = unboundVars callee args := by
    rw [unboundVars, unboundVars, Argument.renameList_eq_map, List.length_map]
  rw [clearingLines, clearingLines, hunbound, List.map_map]
  refine List.map_congr_left fun v hv => ?_
  have hname := h.var_calleeVar (List.mem_filter.mp hv).1
  simp [Instruction.rename, hname]

/-- The lines of the function use what the other supply hands out. -/
theorem Shifts.map_calleeLines (h : ρ.Shifts s t (inlineCall callee args final s).1) :
    (calleeLines callee s).map ρ.line = calleeLines callee t := by
  rw [calleeLines, calleeLines, List.map_map]
  refine List.map_congr_left fun op hop => ?_
  have hlabel : ρ.label (calleeLabel callee s op.label) = calleeLabel callee t op.label := by
    refine h.label_calleeLabel hop ?_
    by_cases hempty : op.label = .empty
    · exact .inl hempty
    · exact .inr (op.mem_labels.mpr (.inl ⟨rfl, hempty⟩))
  -- Renaming what the function has got from one supply gives what it gets from the other.
  simp only [Function.comp_apply, line, hlabel, Instruction.rename_rename]
  congr 1
  refine op.instruction.rename_congr (fun v hv => ?_) fun x hx => ?_
  · exact h.var_calleeVar (mem_vars_of_mem_operation hop hv)
  · exact h.label_calleeLabel hop (.inr (op.mem_labels.mpr (.inr hx)))

/-- A call is inlined alike. -/
theorem inlineCall_line (h : ρ.Shifts s t (inlineCall callee args final s).1)
    (hfinal : ∀ w, (final w).rename ρ.var ρ.label = final' (ρ.var w)) :
    (inlineCall callee (Argument.renameList ρ.var args) final' t).1 =
      (inlineCall callee args final s).1.map ρ.line := by
  have hreturn : ρ.line (returnLine callee s final) = returnLine callee t final' := by
    rw [line, returnLine, returnLine, h.label_returnLabel, hfinal,
      h.var_calleeVar (Program.result_mem_vars callee)]
  rw [inlineCall_eq, inlineCall_eq]
  simp only [List.map_append, List.map_cons, List.map_nil, h.map_bindingLines,
    h.map_clearingLines, h.map_calleeLines, hreturn]

end

/-! ### Bodies -/

section

variable {v w : Variable} {target : Label}

/-- The loop that clears a counter has got one new label at most. -/
theorem Shifts.zeroBody_line (h : ρ.Shifts s t (zeroBody (s.labelAt 1) v)) :
    zeroBody (t.labelAt 1) (ρ.var v) = (zeroBody (s.labelAt 1) v).map ρ.line := by
  -- Both lines of the loop use the label of its head.
  have hlabel := h.number 1 Nat.one_pos (by simp [zeroBody, mem_labels_mk, Instruction.target?])
  simp [zeroBody, Instruction.rename, hlabel]

/-- A jump without a test needs a counter to test. -/
theorem Shifts.gotoBody_line (h : ρ.Shifts s t (gotoBody (s.workAt 1) target)) :
    gotoBody (t.workAt 1) (ρ.label target) = (gotoBody (s.workAt 1) target).map ρ.line := by
  have hvar := h.work 1 Nat.one_pos (by simp [gotoBody, Instruction.vars])
  simp [gotoBody, Instruction.rename, hvar]

/-- Copying takes a counter and three labels. -/
theorem Shifts.assignBody_line
    (h : ρ.Shifts s t
      (assignBody (s.workAt 1) (s.labelAt 1) (s.labelAt 2) (s.labelAt 3) v w)) :
    assignBody (t.workAt 1) (t.labelAt 1) (t.labelAt 2) (t.labelAt 3) (ρ.var v) (ρ.var w) =
      (assignBody (s.workAt 1) (s.labelAt 1) (s.labelAt 2) (s.labelAt 3) v w).map ρ.line := by
  -- Each name that comes in is used somewhere, so the renaming takes it to its counterpart.
  have hvar := h.work 1 Nat.one_pos (by simp [assignBody, Instruction.vars])
  have hdrain := h.number 1 (by omega) (by simp [assignBody, Instruction.target?])
  have hrestore := h.number 2 (by omega) (by simp [assignBody, Instruction.target?])
  have hdone := h.number 3 (by omega) (by simp [assignBody, Instruction.target?])
  simp [assignBody, Instruction.rename, hvar, hdrain, hrestore, hdone]

/-- Counting up takes no new names. -/
theorem assignConstantBody_line (count : Nat) :
    assignConstantBody count (ρ.var v) = (assignConstantBody count v).map ρ.line := by
  simp [assignConstantBody, Instruction.rename]

/-- A jump at zero needs a label to leap over it. -/
theorem Shifts.jumpZeroBody_line (h : ρ.Shifts s t (jumpZeroBody (s.labelAt 1) v target)) :
    jumpZeroBody (t.labelAt 1) (ρ.var v) (ρ.label target) =
      (jumpZeroBody (s.labelAt 1) v target).map ρ.line := by
  have hlabel := h.number 1 Nat.one_pos (by simp [jumpZeroBody, Instruction.target?])
  simp [jumpZeroBody, Instruction.rename, hlabel]

/-- A comparison with a constant counts down a copy, and leaves from one label. -/
theorem Shifts.jumpEqualConstantBody_line {count : Nat}
    (h : ρ.Shifts s t (jumpEqualConstantBody (s.workAt 1) (s.labelAt 1) count v target)) :
    jumpEqualConstantBody (t.workAt 1) (t.labelAt 1) count (ρ.var v) (ρ.label target) =
      (jumpEqualConstantBody (s.workAt 1) (s.labelAt 1) count v target).map ρ.line := by
  have hvar := h.work 1 Nat.one_pos (by simp [jumpEqualConstantBody, Instruction.vars])
  have hlabel := h.number 1 Nat.one_pos (by simp [jumpEqualConstantBody, Instruction.target?])
  simp [jumpEqualConstantBody, Instruction.rename, hvar, hlabel]

/-- A comparison of two counters counts down a copy of each. -/
theorem Shifts.jumpEqualVariableBody_line
    (h : ρ.Shifts s t (jumpEqualVariableBody (s.workAt 1) (s.workAt 2) (s.labelAt 1) (s.labelAt 2)
      (s.labelAt 3) v w target)) :
    jumpEqualVariableBody (t.workAt 1) (t.workAt 2) (t.labelAt 1) (t.labelAt 2) (t.labelAt 3)
        (ρ.var v) (ρ.var w) (ρ.label target) =
      (jumpEqualVariableBody (s.workAt 1) (s.workAt 2) (s.labelAt 1) (s.labelAt 2) (s.labelAt 3)
        v w target).map ρ.line := by
  -- The names come in the same order from both supplies.
  have hleft := h.work 1 (by omega) (by simp [jumpEqualVariableBody, Instruction.vars])
  have hright := h.work 2 (by omega) (by simp [jumpEqualVariableBody, Instruction.vars])
  have hdiffer := h.number 1 (by omega) (by simp [jumpEqualVariableBody, Instruction.target?])
  have hstep := h.number 2 (by omega) (by simp [jumpEqualVariableBody, Instruction.target?])
  have hdone := h.number 3 (by omega)
    (by simp [jumpEqualVariableBody, mem_labels_mk, Instruction.target?])
  simp [jumpEqualVariableBody, Instruction.rename, hleft, hright, hdiffer, hstep, hdone]

end

/-! ### Lowering -/

section

variable {table : FunctionTable}

/-- A call is found and inlined alike. -/
theorem inlineNamed_line {call : Call} {final final' : Variable → Instruction}
    (h : inlineNamed table call final s = .ok (lines, s')) (hs : ρ.Shifts s t lines)
    (hfinal : ∀ w, (final w).rename ρ.var ρ.label = final' (ρ.var w)) :
    ∃ labels works, s' = s.take labels works ∧
      inlineNamed table (call.rename ρ.var) final' t =
        .ok (lines.map ρ.line, t.take labels works) := by
  -- How much is taken from the supply depends on the function, which is the same.
  obtain ⟨callee, hfind, rfl, rfl⟩ := inlineNamed_eq_ok h
  refine ⟨callee.numberedLabels.length + 1, callee.vars.length, rfl, ?_⟩
  rw [← inlineCall_line hs hfinal, inlineNamed, Call.rename]
  simp only [hfind]
  rfl

/-- A renamed instruction stands for the renamed lines. Of its counters only those matter that it is
looked at whether they are the same. -/
theorem body_line {x : Label} {i : Instruction} (h : i.body table x s = .ok (lines, s'))
    (hinj : ∀ v ∈ i.vars, ∀ w ∈ i.vars, ρ.var v = ρ.var w → v = w) (hs : ρ.Shifts s t lines) :
    ∃ labels works, s' = s.take labels works ∧
      (i.rename ρ.var ρ.label).body table (ρ.label x) t =
        .ok (lines.map ρ.line, t.take labels works) := by
  -- A basic instruction is its own body, and takes no names.
  have hbasic : i.body table x s = .ok ([.plain i], s) →
      (i.rename ρ.var ρ.label).body table (ρ.label x) t =
        .ok ([.plain (i.rename ρ.var ρ.label)], t) →
      ∃ labels works, s' = s.take labels works ∧
        (i.rename ρ.var ρ.label).body table (ρ.label x) t =
          .ok (lines.map ρ.line, t.take labels works) := by
    intro hi hi'
    rw [hi] at h
    cases h
    exact ⟨0, 0, rfl, hi'⟩
  cases i with
  | neutral v => exact hbasic rfl rfl
  | increase v => exact hbasic rfl rfl
  | decrease v => exact hbasic rfl rfl
  | jumpNotZero v target => exact hbasic rfl rfl
  | zero v =>
    rw [Instruction.rename, Instruction.body, number?_isSome_label]
    rw [Instruction.body] at h
    split at h
    · cases h
      exact ⟨0, 0, rfl, by simp [zeroBody, Instruction.rename, Supply.take, *]⟩
    · cases h
      exact ⟨1, 0, rfl, by simp [hs.zeroBody_line, *]⟩
  | goto target =>
    cases h
    exact ⟨0, 1, rfl, by rw [Instruction.rename, Instruction.body, hs.gotoBody_line]⟩
  | assign dst src =>
    rw [Instruction.rename, Instruction.body]
    rw [Instruction.body] at h
    split at h
    · rename_i heq
      cases h
      exact ⟨0, 0, rfl, by rw [if_pos (by rw [heq])]; rfl⟩
    · rename_i hne
      -- The renaming must tell the counters apart, or else there would be nothing to copy.
      have hne' : ρ.var dst ≠ ρ.var src :=
        fun heq => hne (hinj dst (by simp [Instruction.vars]) src (by simp [Instruction.vars]) heq)
      cases h
      exact ⟨3, 1, rfl, by rw [if_neg hne', hs.assignBody_line]⟩
  | assignConstant v value =>
    rw [Instruction.rename, Instruction.body]
    rw [Instruction.body] at h
    cases hu : unrolled value with
    | error e => rw [hu] at h; cases h
    | ok count =>
      rw [hu] at h
      cases h
      exact ⟨0, 0, rfl, by rw [← assignConstantBody_line]; rfl⟩
  | jumpZero v target =>
    cases h
    exact ⟨1, 0, rfl, by rw [Instruction.rename, Instruction.body, hs.jumpZeroBody_line]⟩
  | jumpEqual v rhs target =>
    cases rhs with
    | var w =>
      cases h
      exact ⟨3, 2, rfl, by
        rw [Instruction.rename, Operand.rename, Instruction.body, hs.jumpEqualVariableBody_line]⟩
    | const value =>
      rw [Instruction.rename, Operand.rename, Instruction.body]
      rw [Instruction.body] at h
      cases hu : unrolled value with
      | error e => rw [hu] at h; cases h
      | ok count =>
        rw [hu] at h
        cases h
        exact ⟨1, 1, rfl, by rw [← hs.jumpEqualConstantBody_line]; rfl⟩
  | quote dst call => exact inlineNamed_line h hs fun _ => rfl
  | jumpEqualCall v call target => exact inlineNamed_line h hs fun _ => rfl

/-- A renamed line is lowered to the renamed lines, if the names that come in are replaced by those
that the other supply hands out. -/
theorem lower_line {l : Line} (h : l.lower table s = .ok (lines, s'))
    (hinj : ∀ v ∈ l.instruction.vars, ∀ w ∈ l.instruction.vars, ρ.var v = ρ.var w → v = w)
    (hs : ρ.Shifts s t lines) : ∃ labels works, s' = s.take labels works ∧
      (ρ.line l).lower table t = .ok (lines.map ρ.line, t.take labels works) := by
  obtain ⟨body, hb, rfl⟩ := lower_eq_ok h
  -- The label of the line is used by the lowered lines, whatever the body is.
  have hs' : ρ.Shifts s t body :=
    ⟨fun k hk hv => hs.work k hk (usesVar_attachLabel.mpr hv),
      fun k hk hx => hs.number k hk (usesLabel_attachLabel_of_usesLabel hx)⟩
  obtain ⟨labels, works, rfl, hbody⟩ := body_line hb hinj hs'
  refine ⟨labels, works, rfl, ?_⟩
  rw [Line.lower, line]
  simp only [hbody, Except.map, map_line_attachLabel]

end

end Renaming

end CounterMachine
