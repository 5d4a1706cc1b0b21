import CounterMachine.Proofs.Execution.Replay

/-!
# The meter counts every step and every call

The cost of a run is the sum over its recorded steps: each of them costs what its instruction
declares and, if it makes a call, what the function costs in a run of its own. The costs are plain
numbers and are not cut off. The meter, which adds values that are cut off, in the environments of
all functions that are called, shows their sum, cut off once.

A function that is called records no steps. That changes nothing but the record.

## Key definitions

- `Program.traceCost`: the cost of recorded steps
- `Call.cost`: the cost of a call, arguments and function

## Key results

- `Machine.run_silent`: a machine that does not record does the same
- `evaluateCall_meters`: the cycles of a call are its cost, cut off
- `Program.cycles_traceCost`: the cycles of a run are the cost of its trace, cut off
-/

namespace CounterMachine

open Environment (fresh)

/-- What arguments cost: those that are calls cost what the call costs, and a surcharge. -/
def Argument.listCost (cost : Call → Nat) : List Argument → Nat
  | [] => 0
  | .var _ :: rest => listCost cost rest
  | .nested function args :: rest =>
    cost ⟨function, args⟩ + Instruction.quoteCycles.toNat + listCost cost rest

/-- What an operation costs under given bindings: what it declares, and the call it makes. -/
def Operation.cost (callCost : Call → Bindings → Nat) (op : Operation) (b : Bindings) : Nat :=
  op.instruction.cycles.toNat +
    match op.instruction.call? with
    | some call => callCost call b
    | none => 0

/-- What a recorded step costs, given the bindings before it. -/
def Program.stepCost (callCost : Call → Bindings → Nat) (p : Program) (b : Bindings)
    (s : TraceStep) : Nat :=
  match p.operations[s.index]? with
  | some op => op.cost callCost b
  | none => 0

/-- What recorded steps cost, given the bindings before the first of them. -/
def Program.traceCost (callCost : Call → Bindings → Nat) (p : Program) :
    Bindings → List TraceStep → Nat
  | _, [] => 0
  | b, s :: rest => p.stepCost callCost b s + traceCost callCost p s.snapshot rest

/-- What a call costs under given bindings: its arguments, and the run of the function on their
values. -/
def Call.cost (table : FunctionTable) : (fuel : Nat) → Call → Bindings → Nat
  | 0, _, _ => 0
  | fuel + 1, call, b =>
    Argument.listCost (fun arg => Call.cost table fuel arg b) call.args +
      match table.find? call.function,
        Argument.values (evaluateCall table fuel) call.args (fresh b) with
      | some callee, .finished values _ =>
        match callee.runIn table fuel values with
        | some (.ok outcome) =>
          callee.traceCost (Call.cost table fuel) (.initial callee.vars callee.inputs values)
            outcome.trace.steps
        | _ => 0
      | _, _ => 0

/-! ### Machines that do not record -/

/-- The environment without its steps. -/
def Environment.silent (env : Environment) : Environment := { env with steps := #[] }

/-- The bindings are there also if no steps are recorded. -/
theorem Environment.bindings_silent (env : Environment) : env.silent.bindings = env.bindings := by
  cases env
  rfl

/-- Absorbing what happened does not depend on the steps recorded before. -/
theorem Environment.absorb_silent (env s : Environment) :
    env.silent.absorb s = (env.absorb s).silent := by
  cases env
  cases s
  rfl

/-- An instruction does the same where no steps are recorded. -/
theorem Instruction.execute_silent {evaluate : CallEvaluator} (h : evaluate.Apart) (i : Instruction)
    (env : Environment) :
    i.execute evaluate env.silent = (i.execute evaluate env).mapState Environment.silent := by
  -- Detached from the two environments, the executions are one and the same.
  rw [i.execute_detached h env, i.execute_detached h env.silent, env.bindings_silent,
    Evaluation.mapState_mapState, Evaluation.mapState_congr env.absorb_silent]

/-- The machine that does not record. -/
def Machine.silent (m : Machine) : Machine := { m with env := m.env.silent, recording := false }

namespace Machine

/-- A machine that does not record takes over the environment without its steps. -/
theorem withEnvironment_silent (m : Machine) (env : Environment) :
    m.silent.withEnvironment env.silent = (m.withEnvironment env).silent := by
  unfold withEnvironment
  cases m.recording <;> rfl

/-- Where control goes does not depend on what is recorded. -/
theorem follow_silent (code : Code) (m : Machine) (flow : Flow) :
    m.silent.follow code flow = (m.follow code flow).mapState silent := by
  cases flow with
  | fallThrough => rfl
  | exit => rfl
  | goto label =>
    simp only [follow]
    cases code.positions[label]? <;> rfl

/-- In one step, a machine that does not record does the same as one that does. -/
theorem step_silent {evaluate : CallEvaluator} (h : evaluate.Apart) (code : Code) (m : Machine) :
    m.silent.step evaluate code = (m.step evaluate code).mapState silent := by
  obtain ⟨env, position, status, recording⟩ := m
  cases status with
  | halted => rfl
  | running =>
    rw [step, step]
    simp only [silent]
    cases code.operations[position]? with
    | none => rfl
    | some op =>
      -- The instruction comes to the same end, and so does what is made of it.
      simp only [Instruction.execute_silent h]
      cases op.instruction.execute evaluate env with
      | unfinished => rfl
      | failed error env' => rfl
      | finished flow env' =>
        rw [← follow_silent, ← withEnvironment_silent]
        rfl

/-- A machine that does not record does the same as one that does. -/
theorem run_silent {evaluate : CallEvaluator} (h : evaluate.Apart) (code : Code) (fuel : Nat)
    (m : Machine) :
    Machine.run evaluate code fuel m.silent =
      (Machine.run evaluate code fuel m).mapState silent := by
  -- Both machines stop after the same number of steps.
  induction fuel generalizing m with
  | zero => rfl
  | succ fuel ih =>
    rw [run, run, step_silent h]
    cases m.step evaluate code with
    | unfinished => rfl
    | failed error m' => rfl
    | finished status m' =>
      cases status with
      | running => exact ih m'
      | halted => rfl

end Machine

/-! ### The meter -/

/-- The cycles of a call are its cost, cut off. -/
def CallEvaluator.Meters (evaluate : CallEvaluator) (callCost : Call → Bindings → Nat) : Prop :=
  ∀ b call value, evaluate.worth? b call = some value →
    (evaluate.spent b call).toNat = min Value.max.toNat (callCost call b)

section

variable {evaluate : CallEvaluator} {callCost : Call → Bindings → Nat}

/-- Charging one cost after another is charging their sum: it is cut off once. -/
theorem Value.toNat_add_of_min {a b : Value} {m n : Nat} (ha : a.toNat = min Value.max.toNat m)
    (hb : b.toNat = min Value.max.toNat n) :
    (Value.add a b).toNat = min Value.max.toNat (m + n) := by
  rw [Value.toNat_add]
  omega

theorem Value.toNat_eq_min (a : Value) : a.toNat = min Value.max.toNat a.toNat := by
  have := Value.toNat_le_max a
  omega

/-- The cost of a longer trace is that of the shorter one and of the last step. -/
theorem Program.traceCost_concat (p : Program) (start : Bindings) (steps : List TraceStep)
    (s : TraceStep) :
    p.traceCost callCost start (steps ++ [s]) =
      p.traceCost callCost start steps + p.stepCost callCost (lastBindings start steps) s := by
  induction steps generalizing start with
  | nil => rw [List.nil_append, traceCost, traceCost, traceCost, lastBindings_nil, Nat.add_comm]
  | cons first rest ih =>
    have hlast : lastBindings start (first :: rest) = lastBindings first.snapshot rest := by
      cases rest <;> rfl
    rw [List.cons_append, traceCost, traceCost, ih, hlast, Nat.add_assoc]

/-- The meter shows the cost of arguments when they have been evaluated. -/
theorem Argument.values_meters (h : evaluate.Apart) (hmeters : evaluate.Meters callCost)
    {args : List Argument} {env env' : Environment} {values : List Value} {n : Nat}
    (hn : env.cycles.toNat = min Value.max.toNat n)
    (hvalues : Argument.values evaluate args env = .finished values env') :
    env'.cycles.toNat =
      min Value.max.toNat (n + Argument.listCost (fun arg => callCost arg env.bindings) args) := by
  -- By what has been charged so far, `n`, the next argument starts from any reading of the meter.
  induction args generalizing env values n with
  | nil =>
    cases hvalues
    exact hn
  | cons arg rest ih =>
    cases arg with
    | var v =>
      obtain ⟨restValues, hrest, -⟩ := Evaluation.map_eq_finished.mp hvalues
      exact ih hn hrest
    | nested function args =>
      obtain ⟨value, env₁, hcall, hvalues⟩ := Evaluation.bind_eq_finished.mp hvalues
      obtain ⟨restValues, hrest, -⟩ := Evaluation.map_eq_finished.mp hvalues
      obtain ⟨hworth, hbindings, -, hcycles⟩ := h.of_finished hcall
      -- The call is charged, then the surcharge, and then come the other arguments.
      have hcharged := Value.toNat_add_of_min
        (Value.toNat_add_of_min hn (hmeters _ _ _ hworth)) Instruction.quoteCycles.toNat_eq_min
      rw [← hcycles, ← Environment.cycles_charge] at hcharged
      have hmeter := ih hcharged hrest
      rw [Environment.bindings_charge, hbindings] at hmeter
      rw [hmeter, listCost, Nat.add_assoc, Nat.add_assoc, Nat.add_assoc]

/-- The cost of a step is charged when it is recorded. -/
theorem Machine.withEnvironment_meters (hmeters : evaluate.Meters callCost) {p : Program}
    {start : Bindings} {m : Machine} (h : m.Recorded evaluate p start)
    (hm : m.env.cycles.toNat = min Value.max.toNat (p.traceCost callCost start m.trace))
    {op : Operation} {env : Environment} (hat : m.At p op)
    (hop : op.instruction.Executed evaluate m.env env) :
    (m.withEnvironment env).env.cycles.toNat =
      min Value.max.toNat (p.traceCost callCost start (m.withEnvironment env).trace) := by
  have hcall : ((op.instruction.call?.map (evaluate.spent m.env.bindings)).getD 0).toNat =
      min Value.max.toNat (match op.instruction.call? with
        | some call => callCost call m.env.bindings
        | none => 0) := by
    cases hcall : op.instruction.call? with
    | none => rfl
    | some call =>
      -- The instruction has been executed, so its call has come to its end.
      obtain ⟨value, hworth⟩ := Instruction.exists_worth?_of_after? hop.bindings hcall
      exact hmeters _ _ _ hworth
  have hcycles : (m.withEnvironment env).env.cycles = env.cycles := by
    rw [withEnvironment]
    split <;> rfl
  have hstep : p.stepCost callCost m.env.bindings ⟨m.position, env.bindings⟩ =
      op.cost callCost m.env.bindings := by
    rw [Program.stepCost, hat.op_eq]
  -- The meter had the cost of the trace so far, and both the call and the instruction are charged.
  rw [trace_withEnvironment m h.recording hop.steps, Program.traceCost_concat, ← h.bindings, hstep,
    Operation.cost, hcycles, hop.cycles, Value.toNat_add_of_min
      (Value.toNat_add_of_min hm hcall) op.instruction.cycles.toNat_eq_min]
  congr 1
  omega

/-- If the meter shows the cost of the trace, then it does so after one more step. -/
theorem Machine.step_meters (hevaluate : evaluate.Apart) (hmeters : evaluate.Meters callCost)
    {p : Program} {start : Bindings} {m m' : Machine} {status : Status}
    (h : m.Recorded evaluate p start)
    (hm : m.env.cycles.toNat = min Value.max.toNat (p.traceCost callCost start m.trace))
    (hstep : m.step evaluate p.code = .finished status m') :
    m'.env.cycles.toNat = min Value.max.toNat (p.traceCost callCost start m'.trace) := by
  have hmoves := m.step_moves hevaluate p
  rw [hstep] at hmoves
  -- A machine at rest records nothing and charges nothing.
  cases hmoves with
  | rests hs => exact hm
  | ends hs hi => exact hm
  | lands hat hop hto => exact withEnvironment_meters hmeters h hm hat hop
  | leaves hat hop hto => exact withEnvironment_meters hmeters h hm hat hop

/-- At the end of a run the meter shows the cost of the trace. -/
theorem Machine.run_meters (hevaluate : evaluate.Apart) (hmeters : evaluate.Meters callCost)
    {p : Program} {start : Bindings} {fuel : Nat} {m m' : Machine}
    (h : m.Recorded evaluate p start)
    (hm : m.env.cycles.toNat = min Value.max.toNat (p.traceCost callCost start m.trace))
    (hrun : Machine.run evaluate p.code fuel m = .finished () m') :
    m'.env.cycles.toNat = min Value.max.toNat (p.traceCost callCost start m'.trace) := by
  induction fuel generalizing m with
  | zero => cases hrun
  | succ fuel ih =>
    rw [run] at hrun
    have hrecorded := h.step hevaluate
    cases hs : m.step evaluate p.code with
    | unfinished => rw [hs] at hrun; cases hrun
    | failed error m'' => rw [hs] at hrun; cases hrun
    | finished status m'' =>
      rw [hs] at hrun hrecorded
      have hmeter := step_meters hevaluate hmeters h hm hs
      cases status with
      | running => exact ih hrecorded.1 hmeter hrun
      | halted =>
        cases hrun
        exact hmeter

end

/-- The meter of a run shows the cost of its trace, if the meter shows the costs of calls. -/
theorem Program.runIn_meters {table : FunctionTable} {fuel : Nat}
    {callCost : Call → Bindings → Nat} (hmeters : (evaluateCall table fuel).Meters callCost)
    {p : Program} {values : List Value} {outcome : RunOutcome}
    (h : p.runIn table fuel values = some (.ok outcome)) :
    outcome.cycles.toNat = min Value.max.toNat
      (p.traceCost callCost (.initial p.vars p.inputs values) outcome.trace.steps) := by
  obtain ⟨m, hrun, rfl⟩ := runIn_eq_ok.mp h
  have hstart := Machine.recorded_start (evaluateCall table fuel) p values
  exact Machine.run_meters (evaluateCall_apart table fuel) hmeters hstart rfl hrun

/-- A call that comes to its end has found the function and the values of its arguments, and the
function has come to its end, also if it had recorded its steps. -/
theorem evaluateCall_eq_finished {table : FunctionTable} {fuel : Nat} {call : Call}
    {env env' : Environment} {value : Value}
    (h : evaluateCall table (fuel + 1) call env = .finished value env') :
    ∃ callee values env₁ outcome, table.find? call.function = some callee ∧
      Argument.values (evaluateCall table fuel) call.args env = .finished values env₁ ∧
      callee.runIn table fuel values = some (.ok outcome) ∧ value = outcome.result ∧
      env' = env₁.charge outcome.cycles := by
  rw [evaluateCall] at h
  cases hfind : table.find? call.function with
  | none => rw [hfind] at h; cases h
  | some callee =>
    rw [hfind] at h
    obtain ⟨values, env₁, hvalues, h⟩ := Evaluation.bind_eq_finished.mp h
    -- The function runs without recording. A machine that records comes to the same end.
    have hsilent :
        Machine.start callee values false = (Machine.start callee values true).silent := rfl
    rw [hsilent, Machine.run_silent (evaluateCall_apart table fuel)] at h
    cases hrun : Machine.run (evaluateCall table fuel) callee.code fuel
        (.start callee values true) with
    | unfinished => rw [hrun] at h; cases h
    | failed error m => rw [hrun] at h; cases h
    | finished _ m =>
      rw [hrun] at h
      obtain ⟨rfl, rfl⟩ := Evaluation.finished.inj h
      exact ⟨callee, values, env₁, m.outcome, rfl, hvalues,
        Program.runIn_eq_ok.mpr ⟨m, hrun, rfl⟩, rfl, rfl⟩

/-- The cycles of a call are its cost, cut off. -/
theorem evaluateCall_meters (table : FunctionTable) (fuel : Nat) :
    (evaluateCall table fuel).Meters (Call.cost table fuel) := by
  -- The costs of the calls in a function are known for one fuel less.
  induction fuel with
  | zero =>
    intro b call value hworth
    cases hworth
  | succ fuel ih =>
    intro b call value hworth
    unfold CallEvaluator.worth? at hworth
    unfold CallEvaluator.spent
    cases hcall : evaluateCall table (fuel + 1) call (fresh b) with
    | failed error s => rw [hcall] at hworth; cases hworth
    | unfinished => rw [hcall] at hworth; cases hworth
    | finished value' s =>
      obtain ⟨callee, values, env₁, outcome, hfind, hvalues, hrun, -, rfl⟩ :=
        evaluateCall_eq_finished hcall
      -- The arguments begin with nothing on the meter, and the run of the function comes on top.
      have hargs := Argument.values_meters (evaluateCall_apart table fuel) ih
        (show (fresh b).cycles.toNat = min Value.max.toNat 0 from rfl) hvalues
      rw [Nat.zero_add] at hargs
      simp only [Environment.cycles_charge]
      rw [Value.toNat_add_of_min hargs (Program.runIn_meters ih hrun), Call.cost, hfind, hvalues]
      simp only [hrun]
      rfl

/-- The cycles of a run that comes to its end are the cost of its trace, cut off at the largest
value. -/
theorem Program.cycles_traceCost {table : FunctionTable} {fuel : Nat} {p : Program}
    {values : List Value} {outcome : RunOutcome}
    (h : p.runIn table fuel values = some (.ok outcome)) :
    outcome.cycles.toNat = min 18446744073709551615
      (p.traceCost (Call.cost table fuel) (.initial p.vars p.inputs values)
        outcome.trace.steps) :=
  runIn_meters (evaluateCall_meters table fuel) h

/-- A function is called three times, once for the result and twice for arguments. The second
argument is too much for the function, and costs as much as the first. -/
theorem Program.cycles_traceCost_surplus : ∃ outcome,
    (ofLines "main" none none none [.plain (.quote .result
      ⟨"next", [.nested "next" [.var .result], .nested "next" [.var .result]]⟩)]).runIn
        ⟨[ofLines "next" none (some [.input 1]) none
          [.plain (.assign .result (.input 1)), .plain (.increase .result)]]⟩ 4 [] =
        some (.ok outcome) ∧
    outcome.cycles.toNat = min 18446744073709551615
      ((ofLines "main" none none none [.plain (.quote .result
        ⟨"next", [.nested "next" [.var .result], .nested "next" [.var .result]]⟩)]).traceCost
          (Call.cost ⟨[ofLines "next" none (some [.input 1]) none
            [.plain (.assign .result (.input 1)), .plain (.increase .result)]]⟩ 4)
          (.initial [.result] [] []) outcome.trace.steps) ∧
    outcome.cycles = 5 + (4 + 1) + (5 + (4 + 1)) + (5 + (4 + 1)) := by
  obtain ⟨outcome, hrun, hcycles⟩ : ∃ outcome,
      (ofLines "main" none none none [.plain (.quote .result
        ⟨"next", [.nested "next" [.var .result], .nested "next" [.var .result]]⟩)]).runIn
          ⟨[ofLines "next" none (some [.input 1]) none
            [.plain (.assign .result (.input 1)), .plain (.increase .result)]]⟩ 4 [] =
          some (.ok outcome) ∧
      outcome.cycles = 5 + (4 + 1) + (5 + (4 + 1)) + (5 + (4 + 1)) := ⟨_, rfl, rfl⟩
  exact ⟨outcome, hrun, cycles_traceCost hrun, hcycles⟩

end CounterMachine
