import CounterMachine.Proofs.Lowering.Uses

/-!
# The lines of an inlined call

A call is replaced by lines of four kinds: the arguments are passed, the other counters of the
function are set to zero, the lines of the function follow under fresh names, and a last line uses
the result.

## Key results

- `freshVariable_inj`, `freshLabel_numbered_inj`: different names stay different
- `inlineCall_eq`, `mem_inlineCall`: the four parts, and what a line can be
- `inlineCall_var_from`, `inlineCall_label_from`: the names that they use
- `calleeVar_used`, `calleeLabel_used`: all names of the function are among them
-/

namespace CounterMachine

/-! ### Fresh names for a function -/

section

variable {s : Supply} {names : List Variable} {labels : List Label} {v w : Variable} {x y : Label}

/-- A counter of the function is replaced by a fresh one. -/
theorem freshVariable_of_mem (h : v ∈ names) :
    ∃ i < names.length, freshVariable s names v = s.workAt (i + 1) := by
  cases hi : names.idxOf? v with
  | none => exact absurd h (List.idxOf?_eq_none_iff.mp hi)
  | some i =>
    refine ⟨i, ?_, by rw [freshVariable, hi]⟩
    exact (List.findIdx?_eq_some_iff_getElem.mp hi).1

/-- Different counters of the function are replaced by different ones. -/
theorem freshVariable_inj (hv : v ∈ names) (hw : w ∈ names)
    (h : freshVariable s names v = freshVariable s names w) : v = w := by
  cases hi : names.idxOf? v with
  | none => exact absurd hv (List.idxOf?_eq_none_iff.mp hi)
  | some i =>
    cases hj : names.idxOf? w with
    | none => exact absurd hw (List.idxOf?_eq_none_iff.mp hj)
    | some j =>
      rw [freshVariable, hi, freshVariable, hj] at h
      -- Names that are the same have got the same index, so they stand at the same place of the
      -- list.
      have hij : i = j := by
        simp only [Supply.workAt, Variable.work.injEq] at h
        omega
      subst hij
      obtain ⟨hi', hvi, _⟩ := List.findIdx?_eq_some_iff_getElem.mp hi
      obtain ⟨_, hwi, _⟩ := List.findIdx?_eq_some_iff_getElem.mp hj
      rw [← beq_iff_eq.mp hvi, beq_iff_eq.mp hwi]

/-- A numbered label of the function is replaced by a fresh one. -/
theorem freshLabel_numbered {n : Nat} (h : .numbered n ∈ labels) :
    ∃ i < labels.length, freshLabel s labels (.numbered n) = s.labelAt (i + 1) := by
  cases hi : labels.idxOf? (.numbered n) with
  | none => exact absurd h (List.idxOf?_eq_none_iff.mp hi)
  | some i =>
    refine ⟨i, ?_, by simp [freshLabel, hi]⟩
    exact (List.findIdx?_eq_some_iff_getElem.mp hi).1

/-- Different numbered labels of the function are replaced by different ones. -/
theorem freshLabel_numbered_inj {m n : Nat} (hm : .numbered m ∈ labels)
    (hn : .numbered n ∈ labels)
    (h : freshLabel s labels (.numbered m) = freshLabel s labels (.numbered n)) : m = n := by
  cases hi : labels.idxOf? (.numbered m) with
  | none => exact absurd hm (List.idxOf?_eq_none_iff.mp hi)
  | some i =>
    cases hj : labels.idxOf? (.numbered n) with
    | none => exact absurd hn (List.idxOf?_eq_none_iff.mp hj)
    | some j =>
      simp only [freshLabel, hi, hj, Supply.labelAt, Label.numbered.injEq] at h
      -- As with counters, the same new number means the same place.
      have hij : i = j := by omega
      subst hij
      obtain ⟨hi', hmi, _⟩ := List.findIdx?_eq_some_iff_getElem.mp hi
      obtain ⟨_, hni, _⟩ := List.findIdx?_eq_some_iff_getElem.mp hj
      exact Label.numbered.inj ((beq_iff_eq.mp hmi).symm.trans (beq_iff_eq.mp hni))

/-- The empty label stays empty: it is no label of the function. -/
theorem freshLabel_empty (h : .empty ∉ labels) : freshLabel s labels .empty = .empty := by
  have : labels.idxOf? .empty = none := List.idxOf?_eq_none_iff.mpr h
  simp only [freshLabel, this]

end

/-! ### Parts of an inlined call -/

section

variable (callee : Program) (args : List Argument) (s : Supply)

/-- The numbered labels of a function. -/
def Program.numberedLabels : List Label := callee.labels.filter (·.number?.isSome)

/-- What the counters of an inlined function are called. -/
def calleeVar : Variable → Variable := freshVariable s callee.vars

/-- What the labels of an inlined function are called. -/
def calleeLabel : Label → Label := freshLabel s callee.numberedLabels

/-- The lines that pass the arguments. -/
def bindingLines : List Line :=
  List.zipWith (fun input arg => bindArgument (calleeVar callee s input) arg) callee.inputs args

/-- The counters of a function that no argument reaches. -/
def unboundVars : List Variable :=
  callee.vars.filter (!(callee.inputs.take args.length).contains ·)

/-- The lines that set these counters to zero. -/
def clearingLines : List Line :=
  (unboundVars callee args).map fun v => Line.plain (.zero (calleeVar callee s v))

/-- The lines of the function under their new names. -/
def calleeLines : List Line :=
  callee.operations.map fun op =>
    Line.mk (calleeLabel callee s op.label)
      (op.instruction.rename (calleeVar callee s) (calleeLabel callee s))

/-- The line that uses the result of the function. -/
def returnLine (final : Variable → Instruction) : Line :=
  ⟨returnLabel s callee.numberedLabels, final (calleeVar callee s .result)⟩

/-- An inlined call consists of four parts: the arguments are passed, the other counters are set to
zero, the function follows, and its result is used. -/
theorem inlineCall_eq (final : Variable → Instruction) :
    inlineCall callee args final s =
      (bindingLines callee args s ++ clearingLines callee args s ++ calleeLines callee s ++
          [returnLine callee s final],
        s.take (callee.numberedLabels.length + 1) callee.vars.length) := rfl

/-- A call is inlined where the table has its function. -/
theorem inlineNamed_eq_ok {table : FunctionTable} {call : Call} {final : Variable → Instruction}
    {s s' : Supply} {lines : List Line} (h : inlineNamed table call final s = .ok (lines, s')) :
    ∃ callee, table.find? call.function = some callee ∧
      lines = (inlineCall callee call.args final s).1 ∧
      s' = (inlineCall callee call.args final s).2 := by
  rw [inlineNamed] at h
  split at h
  · cases h
  · rename_i callee hfind
    have h := Except.ok.inj h
    exact ⟨callee, hfind, congrArg Prod.fst h.symm, congrArg Prod.snd h.symm⟩

variable {callee args s}

/-- The counters of an inlined function are fresh. -/
theorem freshVar_calleeVar {v : Variable} (h : v ∈ callee.vars) (labels : Nat) :
    FreshVar s (s.take labels callee.vars.length) (calleeVar callee s v) := by
  obtain ⟨i, hi, hv⟩ := freshVariable_of_mem (s := s) h
  rw [calleeVar, hv]
  exact s.freshVar_workAt _ labels _ (Nat.succ_pos i) hi

/-- The label behind the function is the last fresh one. -/
theorem freshLabel_returnLabel (works : Nat) :
    FreshLabel s (s.take (callee.numberedLabels.length + 1) works)
      (returnLabel s callee.numberedLabels) :=
  s.freshLabel_labelAt _ _ works (Nat.succ_pos _) (Nat.le_refl _)

/-- The empty label has got no number. -/
theorem empty_notMem_numberedLabels : .empty ∉ callee.numberedLabels := by
  simp [Program.numberedLabels, Label.number?]

/-- A numbered label that an operation carries or jumps to is a label of the function. -/
theorem mem_numberedLabels {op : Operation} (hop : op ∈ callee.operations) {n : Nat}
    (h : .numbered n ∈ op.labels) : .numbered n ∈ callee.numberedLabels := by
  rw [Program.numberedLabels, List.mem_filter, Program.mem_labels]
  exact ⟨List.mem_flatMap.mpr ⟨op, hop, h⟩, rfl⟩

/-- A counter that an operation reads or writes is a counter of the function. -/
theorem mem_vars_of_mem_operation {op : Operation} (hop : op ∈ callee.operations) {v : Variable}
    (h : v ∈ op.instruction.vars) : v ∈ callee.vars := by
  rw [Program.mem_vars, Program.usedVars]
  exact List.mem_append_right _ (List.mem_cons_of_mem _ (List.mem_flatMap.mpr ⟨op, hop, h⟩))

/-- A label of an inlined function is empty or fresh. -/
theorem calleeLabel_cases {op : Operation} (hop : op ∈ callee.operations) {x : Label}
    (h : x = .empty ∨ x ∈ op.labels ∨ x = .exit) (works : Nat) :
    calleeLabel callee s x = .empty ∨
      FreshLabel s (s.take (callee.numberedLabels.length + 1) works) (calleeLabel callee s x) := by
  cases x with
  | empty => exact .inl (freshLabel_empty empty_notMem_numberedLabels)
  | exit => exact .inr (freshLabel_returnLabel works)
  | numbered n =>
    have hn : .numbered n ∈ op.labels := by simpa using h
    -- A number that the function uses is replaced, and the place in its list tells by which.
    obtain ⟨i, hi, hx⟩ := freshLabel_numbered (s := s) (mem_numberedLabels hop hn)
    rw [calleeLabel, hx]
    exact .inr (s.freshLabel_labelAt _ _ works (Nat.succ_pos i) (by omega))

end

/-! ### Lines of the function -/

section

variable {callee : Program} {s : Supply}

/-- Different counters of the function do not get the same name. -/
theorem calleeVar_inj {v w : Variable} (hv : v ∈ callee.vars) (hw : w ∈ callee.vars)
    (h : calleeVar callee s v = calleeVar callee s w) : v = w :=
  freshVariable_inj hv hw h

/-- The lines of the function come over one by one. -/
theorem calleeLines_eq : calleeLines callee s = callee.lines.map fun line =>
    ⟨calleeLabel callee s line.label,
      line.instruction.rename (calleeVar callee s) (calleeLabel callee s)⟩ := by
  rw [calleeLines, Program.lines, List.map_map]
  rfl

/-- There are as many of them as there are operations to be seen. -/
theorem calleeLines_length : (calleeLines callee s).length = callee.lines.length := by
  rw [calleeLines_eq, List.length_map]

/-- A counter of a line is a counter of the function. -/
theorem vars_of_mem_lines {line : Line} (h : line ∈ callee.lines) {v : Variable}
    (hv : v ∈ line.instruction.vars) : v ∈ callee.vars := by
  obtain ⟨op, hop, rfl⟩ := List.mem_map.mp h
  exact mem_vars_of_mem_operation hop hv

/-- A label of a function that is a target is empty, or numbered and known, or `EXIT`. -/
theorem target_cases {line : Line} (h : line ∈ callee.lines) {x : Label}
    (hx : line.instruction.target? = some x) :
    x = .empty ∨ x = .exit ∨ ∃ n, x = .numbered n ∧ .numbered n ∈ callee.numberedLabels := by
  cases x with
  | empty => exact .inl rfl
  | exit => exact .inr (.inl rfl)
  | numbered n =>
    -- What an operation jumps to is among the labels of the program.
    obtain ⟨op, hop, rfl⟩ := List.mem_map.mp h
    exact .inr (.inr ⟨n, rfl, mem_numberedLabels hop (op.mem_labels.mpr (.inr hx))⟩)

/-- A line of a function that does not carry `EXIT` carries a numbered label or none. -/
theorem label_cases {line : Line} (h : line ∈ callee.lines) (hexit : line.label ≠ .exit) :
    line.label = .empty ∨ ∃ n, line.label = .numbered n ∧ .numbered n ∈ callee.numberedLabels := by
  cases hl : line.label with
  | empty => exact .inl rfl
  | exit => exact absurd hl hexit
  | numbered n =>
    obtain ⟨op, hop, rfl⟩ := List.mem_map.mp h
    have hl' : op.label = .numbered n := hl
    exact .inr ⟨n, rfl, mem_numberedLabels hop (op.mem_labels.mpr (.inl ⟨hl'.symm, nofun⟩))⟩

/-- A numbered label gets another number. -/
theorem calleeLabel_numbered {n : Nat} (h : .numbered n ∈ callee.numberedLabels) :
    ∃ m, calleeLabel callee s (.numbered n) = .numbered m := by
  obtain ⟨i, _, hx⟩ := freshLabel_numbered (s := s) h
  exact ⟨s.label + (i + 1), hx⟩

/-- A line of the function without a label has got none after it is inlined. -/
theorem calleeLabel_empty : calleeLabel callee s .empty = .empty :=
  freshLabel_empty empty_notMem_numberedLabels

end

/-! ### Names of an inlined call -/

section

variable {callee : Program} {args : List Argument} {s : Supply}

/-- A line that passes an argument sets the counter of the input, and reads the argument. -/
theorem bindArgument_vars (dst : Variable) (arg : Argument) :
    (bindArgument dst arg).instruction.vars = dst :: arg.vars := by
  cases arg <;> rfl

/-- Such a line neither carries a label nor jumps. -/
theorem bindArgument_labels (dst : Variable) (arg : Argument) :
    (bindArgument dst arg).labels = [] := by
  cases arg <;> rfl

/-- The four kinds of lines that an inlined call consists of. -/
inductive InlinedLine (callee : Program) (args : List Argument) (s : Supply)
    (final : Variable → Instruction) : Line → Prop
  | binding {k : Nat} {input : Variable} {arg : Argument} (hinput : callee.inputs[k]? = some input)
      (harg : args[k]? = some arg) :
      InlinedLine callee args s final (bindArgument (calleeVar callee s input) arg)
  | clearing {v : Variable} (hv : v ∈ unboundVars callee args) :
      InlinedLine callee args s final (.plain (.zero (calleeVar callee s v)))
  | own {line : Line} (hline : line ∈ callee.lines) :
      InlinedLine callee args s final ⟨calleeLabel callee s line.label,
        line.instruction.rename (calleeVar callee s) (calleeLabel callee s)⟩
  | last : InlinedLine callee args s final (returnLine callee s final)

/-- Inputs and arguments are passed in pairs, as far as there are both. -/
theorem mem_bindingLines {line : Line} :
    line ∈ bindingLines callee args s ↔ ∃ (k : Nat) (input : Variable) (arg : Argument),
      callee.inputs[k]? = some input ∧ args[k]? = some arg ∧
        line = bindArgument (calleeVar callee s input) arg := by
  rw [List.mem_iff_getElem?]
  refine exists_congr fun k => ?_
  rw [bindingLines, List.getElem?_zipWith]
  cases hinput : callee.inputs[k]? <;> cases harg : args[k]? <;> simp [eq_comm]

/-- The lines of an inlined call are the lines of the four kinds. -/
theorem mem_inlineCall {final : Variable → Instruction} {line : Line} :
    line ∈ (inlineCall callee args final s).1 ↔ InlinedLine callee args s final line := by
  rw [inlineCall_eq]
  simp only [List.mem_append, List.mem_singleton]
  -- The four parts are searched one after the other.
  constructor
  · rintro (((h | h) | h) | rfl)
    · obtain ⟨k, input, arg, hinput, harg, rfl⟩ := mem_bindingLines.mp h
      exact .binding hinput harg
    · obtain ⟨v, hv, rfl⟩ := List.mem_map.mp h
      exact .clearing hv
    · rw [calleeLines_eq] at h
      obtain ⟨line', hline', rfl⟩ := List.mem_map.mp h
      exact .own hline'
    · exact .last
  · intro h
    cases h with
    | binding hinput harg =>
      exact .inl (.inl (.inl (mem_bindingLines.mpr ⟨_, _, _, hinput, harg, rfl⟩)))
    | clearing hv => exact .inl (.inl (.inr (List.mem_map_of_mem hv)))
    | own hline =>
      rw [calleeLines_eq]
      exact .inl (.inr (List.mem_map_of_mem hline))
    | last => exact .inr rfl

/-- The counters that the lines of an inlined call use. -/
theorem inlineCall_var_from (final : Variable → Instruction) {v : Variable}
    (h : UsesVar (inlineCall callee args final s).1 v) :
    FreshVar s (inlineCall callee args final s).2 v ∨ v ∈ Argument.listVars args ∨
      v ∈ (final (calleeVar callee s .result)).vars := by
  obtain ⟨line, hline, hv⟩ := h
  cases mem_inlineCall.mp hline with
  | @binding k input arg hinput harg =>
    -- The counter of an input is set to an argument of the call.
    rw [bindArgument_vars, List.mem_cons] at hv
    rcases hv with rfl | hv
    · have hmem := Program.mem_vars_of_mem_inputs (List.mem_of_getElem? hinput)
      exact .inl (freshVar_calleeVar hmem _)
    · exact .inr (.inl (mem_listVars.mpr ⟨arg, List.mem_of_getElem? harg, hv⟩))
  | clearing hw =>
    -- A line that clears uses the counter that it clears.
    rw [Line.plain, Instruction.vars, List.mem_singleton] at hv
    subst hv
    exact .inl (freshVar_calleeVar (List.mem_filter.mp hw).1 _)
  | own hmem =>
    rw [Instruction.vars_rename, List.mem_map] at hv
    -- A line of the function uses its counters under their new names.
    obtain ⟨w, hw, rfl⟩ := hv
    exact .inl (freshVar_calleeVar (vars_of_mem_lines hmem hw) _)
  | last => exact .inr (.inr hv)

/-- The labels that the lines of an inlined call use. -/
theorem inlineCall_label_from (final : Variable → Instruction) {x : Label}
    (h : UsesLabel (inlineCall callee args final s).1 x) :
    FreshLabel s (inlineCall callee args final s).2 x ∨ x = .empty ∨
      (final (calleeVar callee s .result)).target? = some x := by
  obtain ⟨line, hline, hx⟩ := h
  cases mem_inlineCall.mp hline with
  | binding hinput harg =>
    rw [bindArgument_labels] at hx
    cases hx
  | clearing hw => cases hx
  | own hmem =>
    obtain ⟨op, hop, rfl⟩ := List.mem_map.mp hmem
    -- Both the label and the target are labels of the function, under their new names.
    have key : ∃ y, (y = .empty ∨ y ∈ op.labels ∨ y = .exit) ∧ x = calleeLabel callee s y := by
      rcases mem_line_labels.mp hx with ⟨rfl, _⟩ | hx
      · refine ⟨op.label, ?_, rfl⟩
        cases hl : op.label with
        | empty => exact .inl rfl
        | exit => exact .inr (.inr rfl)
        | numbered n => exact .inr (.inl (by simp [Operation.labels, hl, Label.isEmpty]))
      · rw [Instruction.target?_rename, Option.map_eq_some_iff] at hx
        obtain ⟨y, hy, rfl⟩ := hx
        exact ⟨y, .inr (.inl (op.mem_labels.mpr (.inr hy))), rfl⟩
    obtain ⟨y, hy, rfl⟩ := key
    rcases calleeLabel_cases (s := s) hop hy callee.vars.length with h | h
    · exact .inr (.inl h)
    · exact .inl h
  | last =>
    rcases mem_line_labels.mp hx with ⟨rfl, _⟩ | hx
    · exact .inl (freshLabel_returnLabel _)
    · exact .inr (.inr hx)

/-- An inlined call uses a fresh counter, if only for the result. -/
theorem inlineCall_uses_fresh (final : Variable → Instruction)
    (hfinal : ∀ w, w ∈ (final w).vars) :
    ∃ w, FreshVar s (inlineCall callee args final s).2 w ∧
      UsesVar (inlineCall callee args final s).1 w := by
  refine ⟨calleeVar callee s .result, freshVar_calleeVar (Program.result_mem_vars callee) _, ?_⟩
  rw [inlineCall_eq]
  simp only [usesVar_append, usesVar_cons]
  exact .inr (.inl (hfinal _))

/-- Every counter of the function is used under its new name: it is set before the function's own
lines. -/
theorem calleeVar_used (final : Variable → Instruction) {v : Variable} (h : v ∈ callee.vars) :
    UsesVar (inlineCall callee args final s).1 (calleeVar callee s v) := by
  rw [inlineCall_eq]
  simp only [usesVar_append]
  by_cases hbound : v ∈ callee.inputs.take args.length
  · -- An input that an argument reaches is set to the argument.
    obtain ⟨i, hi⟩ := List.mem_iff_getElem?.mp hbound
    rw [List.getElem?_take] at hi
    split at hi
    · rename_i hlt
      have hget : (bindingLines callee args s)[i]? =
          some (bindArgument (calleeVar callee s v) args[i]) := by
        rw [bindingLines, List.getElem?_zipWith, hi, List.getElem?_eq_getElem hlt]
      refine .inl (.inl (.inl ⟨_, List.mem_of_getElem? hget, ?_⟩))
      rw [bindArgument_vars]
      exact List.mem_cons_self
    · cases hi
  · -- Every other counter is set to zero.
    have hun : v ∈ unboundVars callee args := List.mem_filter.mpr ⟨h, by simpa using hbound⟩
    exact .inl (.inl (.inr ⟨_, List.mem_map_of_mem hun, List.mem_singleton_self _⟩))

/-- Every numbered label of the function is used under its new name. -/
theorem calleeLabel_used (final : Variable → Instruction) {n : Nat}
    (h : .numbered n ∈ callee.numberedLabels) (hne : calleeLabel callee s (.numbered n) ≠ .empty) :
    UsesLabel (inlineCall callee args final s).1 (calleeLabel callee s (.numbered n)) := by
  rw [Program.numberedLabels, List.mem_filter, Program.mem_labels] at h
  obtain ⟨op, hop, hmem⟩ := List.mem_flatMap.mp h.1
  rw [inlineCall_eq]
  simp only [usesLabel_append]
  refine .inl (.inr ⟨_, List.mem_map_of_mem hop, mem_line_labels.mpr ?_⟩)
  -- The operation carries the label, or it jumps there.
  rcases op.mem_labels.mp hmem with ⟨hl, _⟩ | ht
  · exact .inl ⟨by rw [hl], hne⟩
  · exact .inr (by rw [Instruction.target?_rename, ht, Option.map_some])

/-- Something is done before the function's own lines, if only its result is set to zero. -/
theorem prologue_ne_nil : bindingLines callee args s ++ clearingLines callee args s ≠ [] := by
  intro hnil
  obtain ⟨hbindings, hclearings⟩ := List.append_eq_nil_iff.mp hnil
  -- If nothing is set to zero, an argument is passed in the result counter.
  have hbound : .result ∈ callee.inputs.take args.length := by
    refine Classical.byContradiction fun hnot => ?_
    have hunbound : .result ∈ unboundVars callee args :=
      List.mem_filter.mpr ⟨Program.result_mem_vars callee, by simpa using hnot⟩
    exact List.ne_nil_of_mem (List.mem_map_of_mem hunbound) hclearings
  rw [bindingLines, List.zipWith_eq_nil_iff] at hbindings
  rcases hbindings with hnone | hnone
  · rw [hnone, List.take_nil] at hbound
    cases hbound
  · rw [hnone, List.length_nil, List.take_zero] at hbound
    cases hbound

/-- The first line of an inlined call has no label. -/
theorem inlineCall_head (final : Variable → Instruction) :
    ∃ first rest, (inlineCall callee args final s).1 = first :: rest ∧ first.label = .empty := by
  obtain ⟨first, rest, h⟩ := List.exists_cons_of_ne_nil
    (prologue_ne_nil : bindingLines callee args s ++ clearingLines callee args s ≠ [])
  refine ⟨first, rest ++ (calleeLines callee s ++ [returnLine callee s final]), ?_, ?_⟩
  · rw [inlineCall_eq]
    simp only [List.append_assoc] at h ⊢
    rw [← List.append_assoc, h, List.cons_append]
  · have hmem : first ∈ bindingLines callee args s ++ clearingLines callee args s :=
      h ▸ List.mem_cons_self
    rcases List.mem_append.mp hmem with hmem | hmem
    · obtain ⟨_, _, arg, _, _, rfl⟩ := mem_bindingLines.mp hmem
      cases arg <;> rfl
    · obtain ⟨v, _, rfl⟩ := List.mem_map.mp hmem
      rfl

end

end CounterMachine
