import CounterMachine.Proofs.Degree.Basic
import CounterMachine.Proofs.Lowering.Calls

/-!
# The degree of a lowered line

A line of degree `m + 1` is lowered to lines of degree `m` and less. The two directions need
different things of calls. No line has a larger degree if the degree of a function is at least that
of its body. Some line has degree `m` if the degree of a function is at most that of its body, and
if the calls that the call passes reach inputs: an argument that is too much is counted in the
degree of a call but is not among the lines that it is lowered to.

## Key results

- `lower_degree_le`: lowering takes one from the degree
- `degree_le_of_lower`: it takes no more than one
-/

namespace CounterMachine

section

variable {d : String → Nat} {callee : Program} {s : Supply} {line : Line}

/-- The lines of the function keep their degrees under their new names. -/
theorem degree_calleeLine (hline : line ∈ callee.lines) :
    (line.instruction.rename (calleeVar callee s) (calleeLabel callee s)).degree d =
      line.instruction.degree d :=
  line.instruction.degree_rename d _ _ fun _ hv _ hw =>
    calleeVar_inj (vars_of_mem_lines hline hv) (vars_of_mem_lines hline hw)

/-- No line of a function has a larger degree than its body. -/
theorem mem_lines_degree_le (hline : line ∈ callee.lines) :
    line.instruction.degree d ≤ callee.degreeUnder d := by
  obtain ⟨op, hop, rfl⟩ := List.mem_map.mp hline
  exact Program.degree_le_degreeUnder hop

end

/-! ### No larger degree than one less -/

section

variable {table : FunctionTable} {d : String → Nat} {callee : Program} {call : Call}
  {final : Variable → Instruction} {s s' : Supply} {lines : List Line} {line : Line} {m : Nat}

/-- The lines of an inlined call have at most the degree of the function, of the arguments and of
the line that uses the result. -/
theorem inlineCall_degree_le (hfunction : callee.degreeUnder d ≤ d call.function)
    (hbody : call.bodyDegree d ≤ m) (htwo : 2 ≤ m) (hfinal : ∀ w, (final w).degree d ≤ m) :
    ∀ l ∈ (inlineCall callee call.args final s).1, l.instruction.degree d ≤ m := by
  rw [Call.bodyDegree, Nat.max_le, Argument.listDegree_le_iff] at hbody
  intro l hl
  -- A line of the expansion passes an argument, clears a counter of the callee, is one of the
  -- callee's lines or uses the result.
  cases mem_inlineCall.mp hl with
  | @binding k input arg hinput harg =>
    cases arg with
    | var src =>
      show (if _ then 1 else 2) ≤ m
      -- What passes a counter is an assignment, of degree one or two.
      split <;> omega
    | nested function args => exact hbody.2 _ (List.mem_of_getElem? harg)
  | clearing hv =>
    show 1 ≤ m
    omega
  | own hmem =>
    rw [degree_calleeLine hmem]
    exact Nat.le_trans (mem_lines_degree_le hmem) (Nat.le_trans hfunction hbody.1)
  | last => exact hfinal _

variable (hfunctions : ∀ function callee, table.find? function = some callee →
  callee.degreeUnder d ≤ d function)
include hfunctions

/-- The lines of a body have degrees that are one less than that of the instruction, or even
less. -/
theorem body_degree_le {label : Label} {i : Instruction}
    (h : i.body table label s = .ok (lines, s')) (hi : i.degree d ≤ m + 1) :
    ∀ l ∈ lines, l.instruction.degree d ≤ m := by
  cases body_cases h with
  | basic _ hbasic =>
    have hzero := (i.isBasic_iff_degree_eq_zero d).mp hbasic
    simp [Line.plain, hzero]
  | zeroOwn v n hn => simp [zeroBody, Line.plain, Instruction.degree]
  | zeroFresh v hn => simp [zeroBody, Line.plain, Instruction.degree]
  | goto target => simp [gotoBody, Line.plain, Instruction.degree]
  | assignSelf v => simp [Line.plain, Instruction.degree]
  | assign dst src hne =>
    rw [Instruction.degree, if_neg hne] at hi
    simp only [assignBody, Line.plain, List.forall_mem_cons, Instruction.degree]
    exact ⟨by omega, by omega, by omega, by simp⟩
  | assignConstant v value =>
    rw [Instruction.degree] at hi
    simp only [assignConstantBody, Line.plain, List.forall_mem_cons, List.mem_replicate,
      Instruction.degree]
    exact ⟨by omega, by simp +contextual⟩
  | jumpZero v target =>
    rw [Instruction.degree] at hi
    simp only [jumpZeroBody, Line.plain, List.forall_mem_cons, Instruction.degree]
    exact ⟨by omega, by omega, by simp⟩
  | jumpEqualConstant v value target =>
    rw [Instruction.degree] at hi
    simp only [jumpEqualConstantBody, Line.plain, List.cons_append, List.forall_mem_cons,
      List.forall_mem_append, List.mem_flatten, List.mem_replicate, Instruction.degree]
    refine ⟨by split <;> omega, ?_, by omega, by omega, by simp⟩
    rintro l ⟨pair, ⟨-, rfl⟩, hl⟩
    simp only [List.mem_cons, List.not_mem_nil, or_false] at hl
    rcases hl with rfl | rfl <;> simp only <;> omega
  | jumpEqualVariable v w target =>
    rw [Instruction.degree] at hi
    simp only [jumpEqualVariableBody, Line.plain, List.forall_mem_cons, Instruction.degree]
    refine ⟨by split <;> omega, by split <;> omega, ?_⟩
    simp
    omega
  | quote dst call callee hfind =>
    rw [Instruction.degree] at hi
    refine inlineCall_degree_le (hfunctions _ _ hfind) (by omega) (by omega) fun w => ?_
    rw [Instruction.degree]
    split <;> omega
  | jumpEqualCall v call target callee hfind =>
    rw [Instruction.degree] at hi
    refine inlineCall_degree_le (hfunctions _ _ hfind) (by omega) (by omega) fun w => ?_
    rw [Instruction.degree]
    omega

/-- Lowering takes one from the degree. -/
theorem lower_degree_le (h : line.lower table s = .ok (lines, s'))
    (hline : line.instruction.degree d ≤ m + 1) : ∀ l ∈ lines, l.instruction.degree d ≤ m := by
  obtain ⟨body, hb, rfl⟩ := lower_eq_ok h
  intro l hl
  obtain ⟨l', hl', heq⟩ := instruction_attachLabel hl
  exact heq ▸ body_degree_le hfunctions hb hline l' hl'

end

/-! ### No smaller degree than one less -/

section

variable {table : FunctionTable} {d : String → Nat} {callee : Program} {call : Call}
  {final : Variable → Instruction} {s s' : Supply} {lines : List Line} {line : Line} {m : Nat}

/-- The function, the arguments and the line that uses the result have at most the degree of the
lines of an inlined call. -/
theorem degree_le_of_inlineCall (hfind : table.find? call.function = some callee)
    (hfunction : d call.function ≤ callee.degreeUnder d)
    (hreceives : table.Receives call.function call.args)
    (hlines : ∀ l ∈ (inlineCall callee call.args final s).1, l.instruction.degree d ≤ m) :
    call.bodyDegree d ≤ m ∧ (final (calleeVar callee s .result)).degree d ≤ m := by
  refine ⟨?_, hlines _ (mem_inlineCall.mpr .last)⟩
  rw [Call.bodyDegree, Nat.max_le, Argument.listDegree_le_iff]
  constructor
  · -- Every line of the function is there under new names, with the same degree.
    refine Nat.le_trans hfunction (Program.degreeUnder_le_iff.mpr fun op hop => ?_)
    have hmem : op.line ∈ callee.lines := List.mem_map_of_mem hop
    have hown := hlines _ (mem_inlineCall.mpr (.own hmem))
    rwa [degree_calleeLine hmem] at hown
  · intro arg harg
    cases arg with
    | var v => exact Nat.zero_le m
    | nested function args =>
      -- The call is received by an input, so the line that passes it is there.
      obtain ⟨k, hk⟩ := List.mem_iff_getElem?.mp harg
      have hlt := hreceives callee hfind k function args hk
      exact hlines _ (mem_inlineCall.mpr (.binding (List.getElem?_eq_getElem hlt) hk))

variable (hfunctions : ∀ function callee, table.find? function = some callee →
  d function ≤ callee.degreeUnder d)
include hfunctions

/-- The degree of an instruction is at most one more than those of the lines of its body. -/
theorem degree_le_of_body {label : Label} {i : Instruction} (hsyn : i.isBasic = false)
    (h : i.body table label s = .ok (lines, s'))
    (hcovered : ∀ v ∈ i.vars, Name.Covered s (.var v)) (hreceived : i.EachCall table.Receives)
    (hlines : ∀ l ∈ lines, l.instruction.degree d ≤ m) : i.degree d ≤ m + 1 := by
  cases body_cases h with
  | basic _ hbasic => exact absurd hbasic (Bool.eq_false_iff.mp hsyn)
  | zeroOwn v n hn => exact Nat.succ_le_succ (Nat.zero_le m)
  | zeroFresh v hn => exact Nat.succ_le_succ (Nat.zero_le m)
  | goto target => exact Nat.succ_le_succ (Nat.zero_le m)
  | assignSelf v =>
    rw [Instruction.degree, if_pos rfl]
    exact Nat.succ_le_succ (Nat.zero_le m)
  | assign dst src hne =>
    have hzero : 1 ≤ m := hlines (.plain (.zero dst)) (by simp [assignBody])
    rw [Instruction.degree, if_neg hne]
    omega
  | assignConstant v value =>
    have hzero : 1 ≤ m := hlines (.plain (.zero v)) (by simp [assignConstantBody])
    exact Nat.succ_le_succ hzero
  | jumpZero v target =>
    have hgoto : 1 ≤ m := hlines (.plain (.goto target)) (by simp [jumpZeroBody])
    exact Nat.succ_le_succ hgoto
  | jumpEqualConstant v value target =>
    -- The copy is another counter than the one that is copied.
    have hcopy := hlines (.plain (.assign (s.workAt 1) v)) (by simp [jumpEqualConstantBody])
    have hne := (hcovered v (by simp [Instruction.vars])).workAt_ne Nat.one_pos
    simp only [Line.plain, Instruction.degree, if_neg hne] at hcopy
    exact Nat.succ_le_succ hcopy
  | jumpEqualVariable v w target =>
    have hcopy := hlines (.plain (.assign (s.workAt 1) v)) (by simp [jumpEqualVariableBody])
    have hne := (hcovered v (by simp [Instruction.vars])).workAt_ne Nat.one_pos
    simp only [Line.plain, Instruction.degree, if_neg hne] at hcopy
    exact Nat.succ_le_succ hcopy
  | quote dst call callee hfind =>
    obtain ⟨hbody, hfinal⟩ := degree_le_of_inlineCall hfind (hfunctions _ _ hfind)
      (hreceived call rfl).1 hlines
    -- The counter that gets the result is an old one, and it is copied from a fresh one.
    have hne : dst ≠ calleeVar callee s .result := fun heq =>
      (hcovered dst (by simp [Instruction.vars])).not_fresh
        (heq ▸ freshVar_calleeVar (Program.result_mem_vars callee) 0)
    rw [Instruction.degree, if_neg hne] at hfinal
    rw [Instruction.degree]
    omega
  | jumpEqualCall v call target callee hfind =>
    obtain ⟨hbody, hfinal⟩ := degree_le_of_inlineCall hfind (hfunctions _ _ hfind)
      (hreceived call rfl).1 hlines
    have hthree : 3 ≤ m := hfinal
    rw [Instruction.degree]
    omega

/-- Lowering takes no more than one from the degree. -/
theorem degree_le_of_lower (hsyn : line.instruction.isBasic = false)
    (h : line.lower table s = .ok (lines, s')) (hcovered : ∀ ν ∈ line.names, ν.Covered s)
    (hreceived : line.instruction.EachCall table.Receives)
    (hlines : ∀ l ∈ lines, l.instruction.degree d ≤ m) : line.instruction.degree d ≤ m + 1 := by
  obtain ⟨body, hb, rfl⟩ := lower_eq_ok h
  refine degree_le_of_body hfunctions hsyn hb
    (fun v hv => hcovered _ (var_mem_names.mpr hv)) hreceived fun l hl => ?_
  obtain ⟨l', hl', heq⟩ := exists_mem_attachLabel line.label hl
  exact heq ▸ hlines l' hl'

/-- So some line has a degree that is at most one less. -/
theorem exists_degree_le_of_lower (hsyn : line.instruction.isBasic = false)
    (h : line.lower table s = .ok (lines, s')) (hcovered : ∀ ν ∈ line.names, ν.Covered s)
    (hreceived : line.instruction.EachCall table.Receives) :
    ∃ l ∈ lines, line.instruction.degree d ≤ l.instruction.degree d + 1 := by
  -- Otherwise all the lines would be smaller, and so would the line itself.
  refine Classical.byContradiction fun hnone => ?_
  have hsmaller : ∀ l ∈ lines, l.instruction.degree d + 1 < line.instruction.degree d :=
    fun l hl => Nat.lt_of_not_le fun hle => hnone ⟨l, hl, hle⟩
  obtain ⟨first, hfirst⟩ := List.exists_mem_of_ne_nil _ (lower_names h).ne_nil
  have hdegree := degree_le_of_lower (m := line.instruction.degree d - 2) hfunctions hsyn h hcovered
    hreceived fun l hl => by have := hsmaller l hl; omega
  have := hsmaller first hfirst
  omega

end

end CounterMachine
