import CounterMachine.Proofs.Execution.Fuel
import CounterMachine.Proofs.Execution.Replay

/-!
# Machines that stand still

A machine that has halted does nothing any more. A machine whose step fails is left as it was before
the step, but for its meter and for the step that may have been recorded, so the next step fails in
the same way. This is true after any steps from the start, also after steps that have failed.

A step can fail in two places. The call that the instruction makes is evaluated before the step is
recorded; the label that it jumps to is looked up afterwards.

## Key definitions

- `Machine.Stepped`: a machine that steps have led to, whether they have failed or not
- `Program.Lacks`: a jump to a label leads nowhere
- `Machine.Stalls`: what a step that fails leaves behind

## Key results

- `Detached.of_failed`, `Detached.failed_again`: how a detached computation fails
- `Machine.step_stalls`: a step that fails does nothing else
- `Machine.step_failed_again`: a step fails wherever the bindings and the position are the same
- `Machine.Stepped.stands_still`: machines that have halted, or failed, stand still
-/

namespace CounterMachine

open Environment (fresh)

/-- The meter never goes back. -/
theorem Value.le_add (a b : Value) : a ≤ add a b := by
  rw [UInt64.le_iff_toNat_le, toNat_add]
  exact Nat.le_min.mpr ⟨Nat.le_add_right _ _, toNat_le_max a⟩

/-! ### Computations that fail -/

namespace Detached

variable {α : Type} {f : Environment → Evaluation Environment α} (hf : Detached f)
  {env env' : Environment} {error : ExecutionError}
include hf

/-- A detached computation that fails only adds to the meter what it would have spent in a fresh
environment. -/
theorem of_failed (h : f env = .failed error env') :
    ∃ s, f (fresh env.bindings) = .failed error s ∧ env' = env.absorb s := by
  -- The computation is the one in a fresh environment, with what that has spent taken over.
  rw [hf env] at h
  cases hfresh : f (fresh env.bindings) with
  | finished a s => rw [hfresh] at h; cases h
  | unfinished => rw [hfresh] at h; cases h
  | failed error' s =>
    rw [hfresh, Evaluation.mapState_failed] at h
    obtain ⟨rfl, rfl⟩ := Evaluation.failed.inj h
    exact ⟨s, rfl, rfl⟩

/-- It fails in the same way wherever the bindings are the same. -/
theorem failed_again (h : f env = .failed error env') {other : Environment}
    (hb : other.bindings = env.bindings) : ∃ again, f other = .failed error again := by
  obtain ⟨s, hs, -⟩ := hf.of_failed h
  rw [hf other, hb, hs]
  exact ⟨_, rfl⟩

/-- It has the same value wherever the bindings are the same. -/
theorem finished_again {a : α} (h : f env = .finished a env') {other : Environment}
    (hb : other.bindings = env.bindings) : ∃ again, f other = .finished a again := by
  rw [hf env] at h
  rw [hf other, hb]
  cases hfresh : f (fresh env.bindings) with
  | failed error s => rw [hfresh] at h; cases h
  | unfinished => rw [hfresh] at h; cases h
  | finished a' s =>
    rw [hfresh, Evaluation.mapState_finished] at h
    obtain ⟨rfl, -⟩ := Evaluation.finished.inj h
    exact ⟨_, rfl⟩

end Detached

/-- A call that fails leaves nothing behind but the cycles of the calls before it. -/
theorem CallEvaluator.Apart.eq_of_failed {evaluate : CallEvaluator} (h : evaluate.Apart)
    {call : Call} {env env' : Environment} {error : ExecutionError}
    (hcall : evaluate call env = .failed error env') :
    ∃ cycles, env' = env.charge cycles := by
  obtain ⟨s, -, rfl⟩ := (h.detached call).of_failed hcall
  -- A call leaves the bindings alone, also if it fails.
  have hkeeps := h.keeps call env
  rw [hcall] at hkeeps
  have hb : s.bindings = env.bindings := (env.bindings_absorb s).symm.trans hkeeps
  refine ⟨s.cycles, ?_⟩
  rw [Environment.absorb, hb]
  rfl

/-! ### Instructions that jump -/

/-- An instruction that jumps writes no counter. -/
theorem Instruction.written?_of_jump? {worth? : Call → Option Value} {i : Instruction}
    {b : Bindings} {x : Label} (h : i.jump? worth? b = some x) : i.written? = none := by
  cases i with
  | jumpNotZero v target => rfl
  | goto target => rfl
  | jumpZero v target => rfl
  | jumpEqual v rhs target => rfl
  | jumpEqualCall v call target => rfl
  | neutral v => cases h
  | increase v => cases h
  | decrease v => cases h
  | zero v => cases h
  | assign dst src => cases h
  | assignConstant v value => cases h
  | quote dst call => cases h

/-- An instruction does not jump if the call that it makes is worth nothing. -/
theorem Instruction.jump?_of_worth?_eq_none {worth? : Call → Option Value} {i : Instruction}
    {call : Call} (hcall : i.call? = some call) (hworth : worth? call = none) (b : Bindings) :
    i.jump? worth? b = none := by
  cases i <;> simp only [call?, reduceCtorEq, Option.some.injEq] at hcall
  case quote dst call' => rfl
  case jumpEqualCall v call' target =>
    subst hcall
    rw [jump?, hworth]
    rfl

/-- An instruction that jumps has only charged cycles. -/
theorem Instruction.Executed.eq_charge {evaluate : CallEvaluator} {i : Instruction}
    {env env' : Environment} (h : i.Executed evaluate env env') (hi : i.written? = none) :
    ∃ cycles, env' = env.charge cycles := by
  -- Nothing is written, so the bindings are the old ones, and the steps always are.
  have hb : env'.bindings = env.bindings := by
    rcases after?_cases h.bindings with ⟨-, hb⟩ | ⟨v, value, hv, -⟩
    · exact hb
    · rw [hi] at hv
      cases hv
  refine ⟨Value.add ((i.call?.map (evaluate.spent env.bindings)).getD 0) i.cycles, ?_⟩
  calc env' = ⟨env'.bindings, env'.cycles, env'.steps⟩ := rfl
    _ = env.charge _ := by
      rw [hb, h.cycles, h.steps, Value.add_assoc, Environment.charge]

/-- A jump to a label leads nowhere: no operation carries the label, or it is the empty one, which
stands for no label. -/
def Program.Lacks (p : Program) (x : Label) : Prop :=
  x = .empty ∨ ∀ op ∈ p.operations, op.label ≠ x

/-- A label that has got no place leads nowhere. -/
theorem Program.lacks_of_not_lastCarrier {p : Program} {x : Label}
    (h : ∀ i, ¬ p.LastCarrier x i) : p.Lacks x := by
  by_cases hx : x = .empty
  · exact .inl hx
  · refine .inr fun op hop hlabel => ?_
    -- Among the operations that carry the label one is the last.
    have hline : (⟨op.label, op.instruction⟩ : Line) ∈ p.lines := List.mem_map_of_mem hop
    obtain ⟨i, hi⟩ := exists_labelPlace? hline hlabel hx
    exact h i (Program.labelPlace?_eq_some.mp hi)

/-- A program has got no more operations than its order has places. -/
theorem Program.length_operations_le (p : Program) : p.operations.length ≤ p.size :=
  List.length_filterMap_le _ _

/-! ### Steps that fail -/

namespace Machine

/-- The machine with cycles added to its meter. -/
def charge (m : Machine) (cycles : Value) : Machine := { m with env := m.env.charge cycles }

/-- The machine with the step at its position recorded. -/
def record (m : Machine) : Machine := { m with env := m.env.record m.position }

-- The machine is taken apart in these proofs: otherwise it would be compared with itself by
-- computing what its meter shows.
section

variable (m : Machine) (cycles : Value)

/-- Charging moves nothing. -/
@[simp] theorem position_charge : (m.charge cycles).position = m.position := by
  cases m
  rfl

/-- Charging does not halt a machine, nor set it going again. -/
@[simp] theorem status_charge : (m.charge cycles).status = m.status := by
  cases m
  rfl

/-- Charging does not change whether steps are recorded. -/
@[simp] theorem recording_charge : (m.charge cycles).recording = m.recording := by
  cases m
  rfl

/-- Charging records no step. -/
@[simp] theorem trace_charge : (m.charge cycles).trace = m.trace := by
  cases m
  exact congrArg Array.toList (Environment.steps_charge _ _)

/-- Charging writes no counter. -/
@[simp] theorem bindings_charge : (m.charge cycles).env.bindings = m.env.bindings := by
  cases m
  exact Environment.bindings_charge _ _

/-- What is charged is not less than nothing. -/
theorem le_cycles_charge : m.env.cycles ≤ (m.charge cycles).env.cycles := by
  rw [charge, Environment.cycles_charge]
  exact Value.le_add _ _

/-- Recording moves nothing. -/
@[simp] theorem position_record : m.record.position = m.position := by
  cases m
  rfl

/-- Recording does not change the status. -/
@[simp] theorem status_record : m.record.status = m.status := by
  cases m
  rfl

/-- A machine that records a step goes on recording. -/
@[simp] theorem recording_record : m.record.recording = m.recording := by
  cases m
  rfl

/-- Recording writes no counter. -/
@[simp] theorem bindings_record : m.record.env.bindings = m.env.bindings := by
  cases m
  rfl

/-- Recording costs nothing. -/
@[simp] theorem cycles_record : m.record.env.cycles = m.env.cycles := by
  cases m
  rfl

/-- The recorded step has got the position and the bindings of the machine. -/
@[simp] theorem trace_record : m.record.trace = m.trace ++ [⟨m.position, m.env.bindings⟩] := by
  cases m
  exact Array.toList_push

end

/-- The instruction at the position jumps to a label that leads nowhere. -/
def Strays (evaluate : CallEvaluator) (p : Program) (m : Machine) (x : Label) : Prop :=
  ∃ op, p.operations[m.position]? = some op ∧
    op.instruction.jump? (evaluate.worth? m.env.bindings) m.env.bindings = some x ∧
    x ≠ .exit ∧ p.Lacks x

/-- The call that the instruction at the position makes fails. -/
def CallFails (evaluate : CallEvaluator) (p : Program) (m : Machine) (error : ExecutionError) :
    Prop :=
  ∃ op call s, p.operations[m.position]? = some op ∧ op.instruction.call? = some call ∧
    evaluate call (fresh m.env.bindings) = .failed error s

/-- Where the call fails it does not come to a jump. -/
theorem CallFails.not_strays {evaluate : CallEvaluator} {p : Program} {m : Machine}
    {error : ExecutionError} (h : m.CallFails evaluate p error) (x : Label) :
    ¬ m.Strays evaluate p x := by
  rintro ⟨op, hop, hjump, -⟩
  obtain ⟨op', call, s, hop', hcall, herror⟩ := h
  cases hop.symm.trans hop'
  have hworth : evaluate.worth? m.env.bindings call = none := by
    rw [CallEvaluator.worth?, herror]
  rw [Instruction.jump?_of_worth?_eq_none hcall hworth] at hjump
  cases hjump

/-- What a step that fails leaves behind: the machine as it was, but for the meter and for the step
that is recorded before its jump is looked up. -/
inductive Stalls (evaluate : CallEvaluator) (p : Program) (m : Machine) :
    ExecutionError → Machine → Prop where
  | jump {x : Label} (h : m.Strays evaluate p x) (cycles : Value) :
    Stalls evaluate p m (.unresolvedLabel x) (m.charge cycles).record
  | call {error : ExecutionError} (h : m.CallFails evaluate p error) (cycles : Value) :
    Stalls evaluate p m error (m.charge cycles)

section

variable {evaluate : CallEvaluator} (h : evaluate.Apart) {p : Program} {m m' : Machine}
  {error : ExecutionError}
include h

/-- A step that fails does nothing else. -/
theorem step_stalls (hm : m.recording = true)
    (hstep : m.step evaluate p.code = .failed error m') : m.Stalls evaluate p error m' := by
  have hmoves := m.step_moves h p
  rw [hstep] at hmoves
  -- Two of the ways in which a step can go are failures.
  cases hmoves with
  | @strays op env x hat hop hto hx hnowhere =>
    obtain ⟨cycles, rfl⟩ := hop.eq_charge (Instruction.written?_of_jump? hto)
    rw [Environment.bindings_charge] at hto
    have hrecord : m.withEnvironment (m.env.charge cycles) = (m.charge cycles).record := by
      rw [withEnvironment, if_pos hm, record, charge]
    rw [hrecord]
    exact .jump ⟨op, hat.op_eq, hto, hx, Program.lacks_of_not_lastCarrier hnowhere⟩ cycles
  | @fails op call error env hat hcall herror =>
    obtain ⟨cycles, rfl⟩ := h.eq_of_failed herror
    obtain ⟨s, hs, -⟩ := (h.detached call).of_failed herror
    exact .call ⟨op, call, s, hat.op_eq, hcall, hs⟩ cycles

/-- A step fails in the same way wherever the bindings, the position and the status are the
same. -/
theorem step_failed_again {other : Machine} (hb : other.env.bindings = m.env.bindings)
    (hposition : other.position = m.position) (hstatus : other.status = m.status)
    (hstep : m.step evaluate p.code = .failed error m') :
    ∃ again, other.step evaluate p.code = .failed error again := by
  -- The step is followed in both machines side by side: they are at the same operation.
  unfold step at hstep ⊢
  rw [hposition, hstatus]
  cases hs : m.status with
  | halted => rw [hs] at hstep; cases hstep
  | running =>
    cases hop : p.code.operations[m.position]? with
    | none => rw [hs, hop] at hstep; cases hstep
    | some op =>
      simp only [hs, hop] at hstep
      simp only
      have hdetached := op.instruction.execute_detached h
      cases hexecute : op.instruction.execute evaluate m.env with
      | unfinished => rw [hexecute] at hstep; cases hstep
      | failed error' env =>
        rw [hexecute] at hstep
        obtain ⟨rfl, -⟩ := Evaluation.failed.inj hstep
        obtain ⟨again, hagain⟩ := hdetached.failed_again hexecute hb
        rw [hagain]
        exact ⟨_, rfl⟩
      | finished flow env =>
        rw [hexecute] at hstep
        simp only at hstep
        obtain ⟨again, hagain⟩ := hdetached.finished_again hexecute hb
        rw [hagain]
        -- Both go to the same label, and only a jump to one that is nowhere fails.
        cases flow with
        | fallThrough => cases hstep
        | exit => cases hstep
        | goto x =>
          simp only [follow] at hstep ⊢
          cases hx : p.code.positions[x]? with
          | some i => rw [hx] at hstep; cases hstep
          | none =>
            rw [hx] at hstep
            obtain ⟨rfl, -⟩ := Evaluation.failed.inj hstep
            exact ⟨_, rfl⟩

end

/-! ### Machines that steps have led to -/

/-- A machine that any number of steps have led to from the start of a program, whether they have
failed or not. -/
inductive Stepped (table : FunctionTable) (p : Program) (values : List Value) : Machine → Prop where
  | start : Stepped table p values (.start p values true)
  | finished {m m' : Machine} {fuel : Nat} {status : Status} (h : Stepped table p values m)
    (hstep : m.step (evaluateCall table fuel) p.code = .finished status m') :
    Stepped table p values m'
  | failed {m m' : Machine} {fuel : Nat} {error : ExecutionError} (h : Stepped table p values m)
    (hstep : m.step (evaluateCall table fuel) p.code = .failed error m') : Stepped table p values m'

variable {table : FunctionTable} {p : Program} {values : List Value} {m m' : Machine}

/-- A machine records its steps, and while it runs it stands at an operation. -/
structure Standing (p : Program) (m : Machine) : Prop where
  recording : m.recording = true
  position_lt : m.status = .running → m.position < p.size

/-- At the start a machine stands at the first operation, if there is one. -/
theorem standing_start (p : Program) (values : List Value) :
    (Machine.start p values true).Standing p := by
  refine ⟨rfl, fun hs => ?_⟩
  -- A program without operations has halted at the start.
  have hne : p.isEmpty = false := by
    by_contra hempty
    rw [start, Bool.not_eq_false] at *
    rw [if_pos hempty] at hs
    cases hs
  rw [Program.isEmpty, List.isEmpty_eq_false_iff] at hne
  exact List.length_pos_of_ne_nil hne

/-- A step that succeeds leads to an operation, or halts. -/
theorem Standing.finished {evaluate : CallEvaluator} (h : evaluate.Apart) (hm : m.Standing p)
    {status : Status} (hstep : m.step evaluate p.code = .finished status m') : m'.Standing p := by
  have hmoves := m.step_moves h p
  rw [hstep] at hmoves
  -- Only a step that lands at an operation leaves the machine running.
  cases hmoves with
  | rests hs => exact hm
  | ends hs hi => exact ⟨hm.recording, nofun⟩
  | leaves hat hop hto => exact ⟨hm.recording, nofun⟩
  | @lands op env i hat hop hto =>
    refine ⟨hm.recording, fun hs => ?_⟩
    -- It runs only if there is an operation where it has moved to.
    have hlt : i < p.operations.length := by
      by_contra hge
      exact absurd ((if_neg hge).symm.trans hs) nofun
    exact Nat.lt_of_lt_of_le hlt p.length_operations_le

/-- Charging leaves a machine where it stands. -/
theorem Standing.charge (hm : m.Standing p) (cycles : Value) : (m.charge cycles).Standing p where
  recording := (m.recording_charge cycles).trans hm.recording
  position_lt := by
    rw [status_charge, position_charge]
    exact hm.position_lt

/-- So does recording. -/
theorem Standing.record (hm : m.Standing p) : m.record.Standing p where
  recording := m.recording_record.trans hm.recording
  position_lt := by
    rw [status_record, position_record]
    exact hm.position_lt

/-- A step that fails does no more than these. -/
theorem Standing.stalls {evaluate : CallEvaluator} {error : ExecutionError} (hm : m.Standing p)
    (hstalls : m.Stalls evaluate p error m') : m'.Standing p := by
  cases hstalls with
  | jump h cycles => exact (hm.charge cycles).record
  | call h cycles => exact hm.charge cycles

/-- A machine that steps have led to stands at an operation while it runs. -/
theorem Stepped.standing (h : m.Stepped table p values) : m.Standing p := by
  -- Standing is kept by every step, whether it succeeds or fails.
  induction h with
  | start => exact standing_start p values
  | finished _ hstep ih => exact ih.finished (evaluateCall_apart table _) hstep
  | failed _ hstep ih =>
    exact ih.stalls (step_stalls (evaluateCall_apart table _) ih.recording hstep)

/-- While a machine runs, it stands at an operation. A machine that has halted is not changed by a
step. A step that fails leaves the position, the status, the counters and the recorded steps as they
were, and takes nothing from the meter; one step is recorded if the instruction itself jumps
nowhere, and none if its call fails. From then on every step fails with the same error. -/
theorem Stepped.stands_still (h : m.Stepped table p values) :
    (m.status = .running → m.position < p.size) ∧
    (m.status = .halted → ∀ fuel,
      m.step (evaluateCall table fuel) p.code = .finished .halted m) ∧
    ∀ fuel error m', m.step (evaluateCall table fuel) p.code = .failed error m' →
      m'.position = m.position ∧ m'.status = m.status ∧ m'.env.bindings = m.env.bindings ∧
      m.env.cycles ≤ m'.env.cycles ∧
      ((∃ x, error = .unresolvedLabel x ∧ m.Strays (evaluateCall table fuel) p x) ∧
          m'.trace = m.trace ++ [⟨m.position, m.env.bindings⟩] ∨
        m.CallFails (evaluateCall table fuel) p error ∧
          (∀ x, ¬ m.Strays (evaluateCall table fuel) p x) ∧ m'.trace = m.trace) ∧
      ∀ fuel', fuel ≤ fuel' ∨ m'.step (evaluateCall table fuel') p.code ≠ .unfinished →
        ∃ again, m'.step (evaluateCall table fuel') p.code = .failed error again := by
  refine ⟨h.standing.position_lt, fun hs fuel => ?_, fun fuel error m' hstep => ?_⟩
  · rw [step, hs]
  · have hapart := evaluateCall_apart table fuel
    have hstalls := step_stalls hapart h.standing.recording hstep
    -- What is left behind by the two ways to fail differs in the trace only.
    have hsame : m'.position = m.position ∧ m'.status = m.status ∧
        m'.env.bindings = m.env.bindings ∧ m.env.cycles ≤ m'.env.cycles := by
      cases hstalls with
      | jump h cycles =>
        have hle := m.le_cycles_charge cycles
        exact ⟨by simp, by simp, by simp, by simpa using hle⟩
      | call h cycles => exact ⟨by simp, by simp, by simp, m.le_cycles_charge cycles⟩
    have htrace : (∃ x, error = .unresolvedLabel x ∧ m.Strays (evaluateCall table fuel) p x) ∧
          m'.trace = m.trace ++ [⟨m.position, m.env.bindings⟩] ∨
        m.CallFails (evaluateCall table fuel) p error ∧
          (∀ x, ¬ m.Strays (evaluateCall table fuel) p x) ∧ m'.trace = m.trace := by
      cases hstalls with
      | jump h cycles => exact .inl ⟨⟨_, rfl, h⟩, by simp⟩
      | call h cycles => exact .inr ⟨h, h.not_strays, by simp⟩
    obtain ⟨hposition, hstatus, hbindings, hcycles⟩ := hsame
    refine ⟨hposition, hstatus, hbindings, hcycles, htrace, fun fuel' hfuel => ?_⟩
    -- The machine that is left behind fails with the fuel of the first step.
    obtain ⟨again, hagain⟩ := step_failed_again hapart hbindings hposition hstatus hstep
    refine ⟨again, ?_⟩
    rcases Nat.le_total fuel fuel' with hle | hle
    · -- More fuel does not change what the step does.
      exact (m'.step_extends (evaluateCall_extends table hle) p.code
        (Evaluation.ne_unfinished_of_failed hagain)).trans hagain
    · rcases hfuel with hge | hne
      · cases Nat.le_antisymm hle hge
        exact hagain
      · -- With less fuel, what the step does is what it does with more, if it has got enough at
        -- all.
        exact (m'.step_extends (evaluateCall_extends table hle) p.code hne).symm.trans hagain

/-- The second argument of its call is the call of a function that is missing. -/
def lacking : Program := .ofLines "lacking" none none none
  [.plain (.quote .result ⟨"next", [.nested "next" [.var (.input 1)], .nested "missing" []]⟩)]

/-- Each time the step is tried the first argument is evaluated and charged for, and nothing else is
left behind. -/
theorem Stepped.stands_still_lacking : ∃ m m' again : Machine,
    m.Stepped .successor lacking [3] ∧
    m.step (evaluateCall .successor 4) lacking.code = .failed (.unknownFunction "missing") m' ∧
    m'.step (evaluateCall .successor 4) lacking.code =
      .failed (.unknownFunction "missing") again ∧
    m'.position = m.position ∧ m'.env.bindings = m.env.bindings ∧ m'.trace = m.trace ∧
    m.env.cycles = 10 ∧ m'.env.cycles = 20 := by
  obtain ⟨m, hm, hcycles⟩ : ∃ m, (Machine.start lacking [3] true).step
      (evaluateCall .successor 4) lacking.code = .failed (.unknownFunction "missing") m ∧
        m.env.cycles = 10 := ⟨_, rfl, rfl⟩
  obtain ⟨m', hm', hcycles'⟩ : ∃ m', m.step (evaluateCall .successor 4) lacking.code =
      .failed (.unknownFunction "missing") m' ∧ m'.env.cycles = 20 := by
    cases hm
    exact ⟨_, rfl, rfl⟩
  have hstepped := Stepped.start.failed hm
  obtain ⟨hposition, -, hbindings, -, htrace, hagain⟩ :=
    (stands_still hstepped).2.2 4 _ m' hm'
  obtain ⟨again, hagain⟩ := hagain 4 (.inl (Nat.le_refl 4))
  rcases htrace with ⟨⟨x, herror, -⟩, -⟩ | ⟨-, -, htrace⟩
  · cases herror
  · exact ⟨m, m', again, hstepped, hm', hagain, hposition, hbindings, htrace, hcycles, hcycles'⟩

end Machine

end CounterMachine
