import CounterMachine.Proofs.Execution.Detached
import CounterMachine.Proofs.Semantics.Placement

/-!
# What a step can do

All that later results need to know of a step of the machine is said here once: what the instruction
leaves behind, where control goes, and in which ways a step fails.

## Key definitions

- `CallEvaluator.worth?`, `CallEvaluator.spent`: the value and the cycles of a call under bindings
- `Instruction.after?`, `Instruction.jump?`: what an instruction does, and where it jumps
- `Program.GoesOn`: where control goes after the operation at a position
- `Program.Moves`: everything that a step can do

## Key results

- `Instruction.execute_finished`, `Instruction.execute_failed`: what an execution leaves behind
- `Machine.step_moves`: a step does nothing else
-/

namespace CounterMachine

open Environment (fresh)

/-- What a call is worth under given bindings, if it comes to its end. -/
def CallEvaluator.worth? (evaluate : CallEvaluator) (b : Bindings) (call : Call) : Option Value :=
  match evaluate call (fresh b) with
  | .finished value _ => some value
  | _ => none

/-- The cycles that a call spends under given bindings, if it comes to its end. -/
def CallEvaluator.spent (evaluate : CallEvaluator) (b : Bindings) (call : Call) : Value :=
  match evaluate call (fresh b) with
  | .finished _ env => env.cycles
  | _ => 0

/-- The value of an operand under given bindings. -/
def Operand.under (b : Bindings) : Operand → Value
  | var v => b.read v
  | const value => value

namespace Instruction

/-- The bindings after an instruction. There are none if it makes a call that is worth nothing. -/
def after? (worth? : Call → Option Value) (i : Instruction) (b : Bindings) : Option Bindings :=
  match i with
  | increase v => some (b.bind v (Value.succ (b.read v)))
  | decrease v => some (b.bind v (Value.pred (b.read v)))
  | zero v => some (b.bind v 0)
  | assign dst src => some (b.bind dst (b.read src))
  | assignConstant v value => some (b.bind v value)
  | quote dst call => (worth? call).map (b.bind dst)
  | jumpEqualCall _ call _ => (worth? call).map fun _ => b
  | neutral _ | jumpNotZero _ _ | goto _ | jumpZero _ _ | jumpEqual _ _ _ => some b

/-- The label that an instruction jumps to, if it jumps. -/
def jump? (worth? : Call → Option Value) (i : Instruction) (b : Bindings) : Option Label :=
  match i with
  | jumpNotZero v target => if b.read v ≠ 0 then some target else none
  | goto target => some target
  | jumpZero v target => if b.read v = 0 then some target else none
  | jumpEqual v rhs target => if b.read v = rhs.under b then some target else none
  | jumpEqualCall v call target => if worth? call = some (b.read v) then some target else none
  | neutral _ | increase _ | decrease _ | zero _ | assign _ _ | assignConstant _ _
  | quote _ _ => none

/-- An instruction binds the counter that it writes, if there is one, and nothing else. -/
theorem after?_cases {worth? : Call → Option Value} {i : Instruction} {b b' : Bindings}
    (h : i.after? worth? b = some b') :
    i.written? = none ∧ b' = b ∨ ∃ v value, i.written? = some v ∧ b' = b.bind v value := by
  cases i with
  | increase v => exact .inr ⟨v, _, rfl, (Option.some.inj h).symm⟩
  | decrease v => exact .inr ⟨v, _, rfl, (Option.some.inj h).symm⟩
  | zero v => exact .inr ⟨v, _, rfl, (Option.some.inj h).symm⟩
  | assign dst src => exact .inr ⟨dst, _, rfl, (Option.some.inj h).symm⟩
  | assignConstant v value => exact .inr ⟨v, _, rfl, (Option.some.inj h).symm⟩
  | quote dst call =>
    obtain ⟨value, -, hb⟩ := Option.map_eq_some_iff.mp h
    exact .inr ⟨dst, value, rfl, hb.symm⟩
  | jumpEqualCall v call target =>
    obtain ⟨value, -, hb⟩ := Option.map_eq_some_iff.mp h
    exact .inl ⟨rfl, hb.symm⟩
  | neutral v => exact .inl ⟨rfl, (Option.some.inj h).symm⟩
  | jumpNotZero v target => exact .inl ⟨rfl, (Option.some.inj h).symm⟩
  | goto target => exact .inl ⟨rfl, (Option.some.inj h).symm⟩
  | jumpZero v target => exact .inl ⟨rfl, (Option.some.inj h).symm⟩
  | jumpEqual v rhs target => exact .inl ⟨rfl, (Option.some.inj h).symm⟩

/-- An instruction changes only the counter that it writes. -/
theorem getElem?_of_after? {worth? : Call → Option Value} {i : Instruction} {b b' : Bindings}
    (h : i.after? worth? b = some b') {v : Variable} (hv : i.written? ≠ some v) :
    b'[v]? = b[v]? := by
  rcases after?_cases h with ⟨-, rfl⟩ | ⟨w, value, hw, rfl⟩
  · rfl
  · have hne : w ≠ v := fun heq => hv (heq ▸ hw)
    simp [Bindings.bind, Std.ExtTreeMap.getElem?_insert, Std.LawfulEqCmp.compare_eq_iff_eq, hne]

/-- An instruction has an effect only if the call that it makes is worth something. -/
theorem exists_worth?_of_after? {worth? : Call → Option Value} {i : Instruction} {b b' : Bindings}
    (h : i.after? worth? b = some b') {call : Call} (hcall : i.call? = some call) :
    ∃ value, worth? call = some value := by
  -- Two instructions make a call, and both of them ask what it is worth.
  cases i <;> simp only [call?, reduceCtorEq, Option.some.injEq] at hcall
  all_goals
    subst hcall
    obtain ⟨value, hvalue, -⟩ := Option.map_eq_some_iff.mp h
    exact ⟨value, hvalue⟩

/-- What an instruction has left behind when it has been executed. -/
structure Executed (evaluate : CallEvaluator) (i : Instruction) (env env' : Environment) :
    Prop where
  bindings : i.after? (evaluate.worth? env.bindings) env.bindings = some env'.bindings
  steps : env'.steps = env.steps
  /-- The cycles of the function that is called are charged first. -/
  cycles : env'.cycles =
    Value.add (Value.add env.cycles ((i.call?.map (evaluate.spent env.bindings)).getD 0)) i.cycles

end Instruction

/-- Where control goes with or without a jump. -/
def Flow.ofJump? : Option Label → Flow
  | none => .fallThrough
  | some target => .jump target

/-- A jump under a condition is made if the condition holds. -/
theorem Flow.jumpIf_eq {condition : Bool} {p : Prop} [Decidable p] (h : condition = true ↔ p)
    (target : Label) : jumpIf condition target = ofJump? (if p then some target else none) := by
  unfold jumpIf
  by_cases hp : p <;> simp [h, hp, ofJump?]

namespace Environment

/-- What is charged is added to the meter. -/
theorem cycles_charge (env : Environment) (cycles : Value) :
    (env.charge cycles).cycles = Value.add env.cycles cycles := by
  cases env
  rfl

/-- Charging records no step. -/
theorem steps_charge (env : Environment) (cycles : Value) :
    (env.charge cycles).steps = env.steps := by
  cases env
  rfl

/-- What has been spent in a fresh environment is added to the meter. -/
theorem cycles_absorb (env s : Environment) :
    (env.absorb s).cycles = Value.add env.cycles s.cycles := by
  cases env
  rfl

/-- An operand is worth what it is under the bindings. -/
theorem operand_under (env : Environment) (rhs : Operand) :
    env.operand rhs = rhs.under env.bindings := by
  cases rhs <;> rfl

end Environment

section

variable {evaluate : CallEvaluator} (h : evaluate.Apart)
include h

/-- A call that comes to its end leaves its value and its cycles behind. -/
theorem CallEvaluator.Apart.of_finished {call : Call} {env env' : Environment} {value : Value}
    (hcall : evaluate call env = .finished value env') :
    evaluate.worth? env.bindings call = some value ∧ env'.bindings = env.bindings ∧
      env'.steps = env.steps ∧
      env'.cycles = Value.add env.cycles (evaluate.spent env.bindings call) := by
  rw [h.detached call env] at hcall
  have hkeeps := h.keeps call (fresh env.bindings)
  unfold CallEvaluator.worth? CallEvaluator.spent
  -- A call with a value has got it in a fresh environment too, and what it spends there is charged.
  cases hfresh : evaluate call (fresh env.bindings) with
  | finished value' s =>
    rw [hfresh] at hcall hkeeps
    rw [Evaluation.mapState_finished, Evaluation.finished.injEq] at hcall
    obtain ⟨rfl, rfl⟩ := hcall
    exact ⟨rfl, (env.bindings_absorb s).trans hkeeps, env.steps_absorb s, env.cycles_absorb s⟩
  | failed error s => rw [hfresh] at hcall; cases hcall
  | unfinished => rw [hfresh] at hcall; cases hcall

/-- A call that fails leaves the bindings and the steps as they were, and fails the same way under
these bindings ever after. -/
theorem CallEvaluator.Apart.of_failed {call : Call} {env env' : Environment}
    {error : ExecutionError} (hcall : evaluate call env = .failed error env') :
    (∃ s, evaluate call (fresh env.bindings) = .failed error s) ∧ env'.bindings = env.bindings ∧
      env'.steps = env.steps := by
  have hkeeps := h.keeps call env
  rw [hcall] at hkeeps
  rw [h.detached call env] at hcall
  cases hfresh : evaluate call (fresh env.bindings) with
  | finished value s => rw [hfresh] at hcall; cases hcall
  | unfinished => rw [hfresh] at hcall; cases hcall
  | failed error' s =>
    rw [hfresh, Evaluation.mapState_failed, Evaluation.failed.injEq] at hcall
    obtain ⟨rfl, rfl⟩ := hcall
    exact ⟨⟨s, rfl⟩, hkeeps, env.steps_absorb s⟩

/-- What an execution leaves behind, and where control goes after it: a jump looks at the bindings
that the instruction leaves. -/
theorem Instruction.execute_finished {i : Instruction} {env env' : Environment} {flow : Flow}
    (hi : i.execute evaluate env = .finished flow env') :
    i.Executed evaluate env env' ∧
      flow = .ofJump? (i.jump? (evaluate.worth? env'.bindings) env'.bindings) := by
  -- The cost of the instruction itself is charged last.
  have charged {env₁ : Environment} {flow₁ : Flow}
      (hend : Evaluation.finished flow₁ (env₁.charge i.cycles) = .finished flow env')
      (hcycles : env₁.cycles =
        Value.add env.cycles ((i.call?.map (evaluate.spent env.bindings)).getD 0))
      (hsteps : env₁.steps = env.steps)
      (hbindings : i.after? (evaluate.worth? env.bindings) env.bindings = some env₁.bindings)
      (hflow : flow₁ = .ofJump? (i.jump? (evaluate.worth? env₁.bindings) env₁.bindings)) :
      i.Executed evaluate env env' ∧
        flow = .ofJump? (i.jump? (evaluate.worth? env'.bindings) env'.bindings) := by
    obtain ⟨rfl, rfl⟩ := Evaluation.finished.inj hend
    rw [Environment.bindings_charge]
    exact ⟨⟨by rw [hbindings, Environment.bindings_charge],
      by rw [Environment.steps_charge, hsteps], by rw [Environment.cycles_charge, hcycles]⟩, hflow⟩
  -- Only calls spend cycles before.
  have kept : env.cycles = Value.add env.cycles 0 := (Value.add_zero _).symm
  cases i with
  | neutral v => exact charged hi kept rfl rfl rfl
  | increase v => exact charged hi kept rfl rfl rfl
  | decrease v => exact charged hi kept rfl rfl rfl
  | zero v => exact charged hi kept rfl rfl rfl
  | assign dst src => exact charged hi kept rfl rfl rfl
  | assignConstant v value => exact charged hi kept rfl rfl rfl
  | goto target => exact charged hi kept rfl rfl rfl
  | jumpNotZero v target => exact charged hi kept rfl rfl (Flow.jumpIf_eq bne_iff_ne _)
  | jumpZero v target => exact charged hi kept rfl rfl (Flow.jumpIf_eq beq_iff_eq _)
  | jumpEqual v rhs target =>
    refine charged hi kept rfl rfl (Flow.jumpIf_eq ?_ _)
    rw [beq_iff_eq, Environment.operand_under]
    rfl
  | quote dst call =>
    cases hcall : evaluate call env with
    | failed error s => simp only [execute, hcall, Evaluation.bind_failed, reduceCtorEq] at hi
    | unfinished => simp only [execute, hcall, Evaluation.bind_unfinished, reduceCtorEq] at hi
    | finished value s =>
      simp only [execute, hcall, Evaluation.bind_finished] at hi
      obtain ⟨hworth, hbindings, hsteps, hcycles⟩ := h.of_finished hcall
      refine charged hi hcycles hsteps ?_ rfl
      rw [after?, hworth, ← hbindings]
      rfl
  | jumpEqualCall v call target =>
    cases hcall : evaluate call env with
    | failed error s => simp only [execute, hcall, Evaluation.bind_failed, reduceCtorEq] at hi
    | unfinished => simp only [execute, hcall, Evaluation.bind_unfinished, reduceCtorEq] at hi
    | finished value s =>
      simp only [execute, hcall, Evaluation.bind_finished] at hi
      obtain ⟨hworth, hbindings, hsteps, hcycles⟩ := h.of_finished hcall
      refine charged hi hcycles hsteps ?_ ?_
      · rw [after?, hworth, hbindings]
        rfl
      · refine Flow.jumpIf_eq ?_ _
        rw [beq_iff_eq, hbindings, hworth, Option.some.injEq, Environment.get, hbindings, eq_comm]

omit h in
/-- An execution fails only in the call that the instruction makes, and then the cost of the
instruction has not been charged. -/
theorem Instruction.execute_failed {i : Instruction} {env env' : Environment}
    {error : ExecutionError} (hi : i.execute evaluate env = .failed error env') :
    ∃ call, i.call? = some call ∧ evaluate call env = .failed error env' := by
  -- What comes after a call always finishes, so a failure is that of the call.
  have of_call (call : Call) {next : Value → Environment → Evaluation Environment Flow}
      (hnext : ∀ value s, ∃ flow s', next value s = .finished flow s')
      (hbind : (evaluate call env).bind next = .failed error env') :
      evaluate call env = .failed error env' := by
    cases hcall : evaluate call env with
    | finished value s =>
      obtain ⟨flow, s', hvalue⟩ := hnext value s
      rw [hcall, Evaluation.bind_finished, hvalue] at hbind
      cases hbind
    | failed error' s =>
      rw [hcall, Evaluation.bind_failed] at hbind
      obtain ⟨rfl, rfl⟩ := Evaluation.failed.inj hbind
      rfl
    | unfinished => rw [hcall] at hbind; cases hbind
  cases i with
  | quote dst call => exact ⟨call, rfl, of_call call (fun _ _ => ⟨_, _, rfl⟩) hi⟩
  | jumpEqualCall v call target => exact ⟨call, rfl, of_call call (fun _ _ => ⟨_, _, rfl⟩) hi⟩
  | neutral v => cases hi
  | increase v => cases hi
  | decrease v => cases hi
  | zero v => cases hi
  | assign dst src => cases hi
  | assignConstant v value => cases hi
  | goto target => cases hi
  | jumpNotZero v target => cases hi
  | jumpZero v target => cases hi
  | jumpEqual v rhs target => cases hi

end

/-! ### Steps -/

/-- The operation at a position is the last one that carries a label. -/
structure Program.LastCarrier (p : Program) (x : Label) (i : Nat) : Prop where
  ne_empty : x ≠ .empty
  carries : (p.operations.map (·.label))[i]? = some x
  last : ∀ j, i < j → (p.operations.map (·.label))[j]? ≠ some x

/-- No later line carries the label. -/
theorem last_of_labelPlace? {x : Label} {lines : List Line} {i j : Nat}
    (h : labelPlace? x lines = some i) (hj : i < j) : (lines.map (·.label))[j]? ≠ some x := by
  -- The search goes to the end of the lines first, so what it finds is the last place.
  induction lines generalizing i j with
  | nil => cases h
  | cons line rest ih =>
    obtain ⟨j, rfl⟩ := Nat.exists_eq_add_one_of_ne_zero (Nat.ne_of_gt (Nat.zero_lt_of_lt hj))
    rw [List.map_cons, List.getElem?_cons_succ]
    rw [labelPlace?] at h
    cases hrest : labelPlace? x rest with
    | some k =>
      rw [hrest] at h
      cases h
      exact ih hrest (Nat.lt_of_succ_lt_succ hj)
    | none =>
      -- If a line of the rest carried the label, it would be found there.
      rw [hrest] at h
      intro hcarries
      obtain ⟨other, hother, hlabel⟩ := List.mem_map.mp (List.mem_of_getElem? hcarries)
      have hne : x ≠ .empty := by
        simp only [ite_eq_iff] at h
        tauto
      obtain ⟨k, hk⟩ := exists_labelPlace? hother hlabel hne
      rw [hrest] at hk
      cases hk

/-- The labels of the lines are those of the operations. -/
theorem Program.labels_lines (p : Program) :
    p.lines.map (·.label) = p.operations.map (·.label) := by
  rw [lines, List.map_map]
  rfl

/-- A label is found at the last operation that carries it. -/
theorem Program.labelPlace?_eq_some {p : Program} {x : Label} {i : Nat} :
    labelPlace? x p.lines = some i ↔ p.LastCarrier x i := by
  constructor
  · intro h
    obtain ⟨line, hline, hlabel, hne⟩ := exists_line_of_labelPlace? h
    refine ⟨hne, ?_, fun j hj => p.labels_lines ▸ last_of_labelPlace? h hj⟩
    rw [← p.labels_lines, List.getElem?_map, hline, ← hlabel]
    rfl
  · rintro ⟨hne, hcarries, hlast⟩
    rw [← p.labels_lines] at hcarries hlast
    obtain ⟨line, hline, hlabel⟩ := List.mem_map.mp (List.mem_of_getElem? hcarries)
    obtain ⟨j, hj⟩ := exists_labelPlace? hline hlabel hne
    obtain ⟨other, hother, hlabel', -⟩ := exists_line_of_labelPlace? hj
    have hcarries' : (p.lines.map (·.label))[j]? = some x := by
      rw [List.getElem?_map, hother, ← hlabel']
      rfl
    -- Both places are the last.
    rcases Nat.lt_trichotomy i j with hlt | rfl | hlt
    · exact absurd hcarries' (hlast j hlt)
    · exact hj
    · exact absurd hcarries (last_of_labelPlace? hj hlt)

/-- Control goes from one position on to another: to the operation that carries the label of the
jump, or without a jump to the next one. -/
def Program.GoesOn (p : Program) (jump? : Option Label) (i j : Nat) : Prop :=
  match jump? with
  | none => j = i + 1
  | some x => x ≠ .exit ∧ p.LastCarrier x j

/-- The machine stands before an operation, with the counters as they are. -/
structure Machine.At (p : Program) (m : Machine) (op : Operation) : Prop where
  running : m.status = .running
  op_eq : p.operations[m.position]? = some op

/-- What the status is when control comes to a position. -/
def Program.statusAt (p : Program) (i : Nat) : Status :=
  if i < p.operations.length then .running else .halted

/-- Everything that a step of the machine can do. -/
inductive Program.Moves (evaluate : CallEvaluator) (p : Program) (m : Machine) :
    Evaluation Machine Status → Prop where
  /-- A machine that has halted stays as it is. -/
  | rests (hs : m.status = .halted) : Moves evaluate p m (.finished .halted m)
  /-- There is nothing to execute. -/
  | ends (hs : m.status = .running) (hi : p.operations.length ≤ m.position) :
    Moves evaluate p m (.finished .halted { m with status := .halted })
  /-- The operation is executed and recorded, and control goes on. -/
  | lands {op : Operation} {env : Environment} {i : Nat} (hat : m.At p op)
    (hop : op.instruction.Executed evaluate m.env env)
    (hto : p.GoesOn (op.instruction.jump? (evaluate.worth? env.bindings) env.bindings)
      m.position i) :
    Moves evaluate p m (.finished (p.statusAt i)
      { m.withEnvironment env with position := i, status := p.statusAt i })
  /-- The operation is executed and recorded, and jumps out of the program. -/
  | leaves {op : Operation} {env : Environment} (hat : m.At p op)
    (hop : op.instruction.Executed evaluate m.env env)
    (hto : op.instruction.jump? (evaluate.worth? env.bindings) env.bindings = some .exit) :
    Moves evaluate p m (.finished .halted { m.withEnvironment env with status := .halted })
  /-- The operation is executed and recorded, and jumps to a label that is nowhere. -/
  | strays {op : Operation} {env : Environment} {x : Label} (hat : m.At p op)
    (hop : op.instruction.Executed evaluate m.env env)
    (hto : op.instruction.jump? (evaluate.worth? env.bindings) env.bindings = some x)
    (hx : x ≠ .exit) (hnowhere : ∀ i, ¬ p.LastCarrier x i) :
    Moves evaluate p m (.failed (.unresolvedLabel x) (m.withEnvironment env))
  /-- The call that the operation makes fails, and nothing is recorded. -/
  | fails {op : Operation} {call : Call} {error : ExecutionError} {env : Environment}
    (hat : m.At p op) (hcall : op.instruction.call? = some call)
    (herror : evaluate call m.env = .failed error env) :
    Moves evaluate p m (.failed error { m with env })
  /-- The fuel does not suffice. -/
  | waits : Moves evaluate p m .unfinished

/-- The machine runs the operations of the program, in their order. -/
theorem Program.operations_code (p : Program) : p.code.operations = p.operations.toArray := rfl

/-- A machine that moves to a position runs on there, or halts behind the last operation. -/
theorem Machine.moveTo_eq (p : Program) (m : Machine) (i : Nat) :
    m.moveTo p.code i =
      .finished (p.statusAt i) { m with position := i, status := p.statusAt i } := by
  unfold Program.statusAt
  split
  · rename_i hi
    exact m.moveTo_of_lt (by simpa [Program.operations_code] using hi)
  · rename_i hi
    exact m.moveTo_of_le (by simpa [Program.operations_code] using hi)

/-- A step of the machine does nothing else. -/
theorem Machine.step_moves {evaluate : CallEvaluator} (h : evaluate.Apart) (p : Program)
    (m : Machine) : p.Moves evaluate m (m.step evaluate p.code) := by
  obtain ⟨env, position, status, recording⟩ := m
  cases status with
  | halted => exact .rests rfl
  | running =>
    rw [step]
    simp only
    rw [p.operations_code, List.getElem?_toArray]
    cases hop : p.operations[position]? with
    | none => exact .ends rfl (List.getElem?_eq_none_iff.mp hop)
    | some op =>
      have hat : Machine.At p ⟨env, position, .running, recording⟩ op := ⟨rfl, hop⟩
      simp only
      cases hi : op.instruction.execute evaluate env with
      | unfinished => exact .waits
      | failed error env' =>
        obtain ⟨call, hcall, herror⟩ := Instruction.execute_failed hi
        exact .fails hat hcall herror
      | finished flow env' =>
        obtain ⟨hx, rfl⟩ := Instruction.execute_finished h hi
        simp only
        -- A jump is decided on the bindings that the instruction has left.
        cases hjump : op.instruction.jump? (evaluate.worth? env'.bindings) env'.bindings with
        | none =>
          rw [Flow.ofJump?, follow, moveTo_eq]
          refine .lands hat hx ?_
          rw [hjump]
          rfl
        | some x =>
          by_cases hexit : x = .exit
          · subst hexit
            exact .leaves hat hx hjump
          · have hflow : Flow.ofJump? (some x) = .goto x := by
              cases x with
              | exit => exact absurd rfl hexit
              | empty => rfl
              | numbered n => rfl
            have hpos : p.code.positions[x]? = labelPlace? x p.lines := labelPositions_getElem? ..
            rw [hflow, follow, hpos]
            cases hplace : labelPlace? x p.lines with
            | none =>
              -- If an operation carried the label, it would be found.
              refine .strays hat hx hjump hexit fun i hi => ?_
              rw [Program.labelPlace?_eq_some.mpr hi] at hplace
              cases hplace
            | some i =>
              simp only
              rw [moveTo_eq]
              refine .lands hat hx ?_
              rw [hjump]
              exact ⟨hexit, Program.labelPlace?_eq_some.mp hplace⟩

end CounterMachine
