import CounterMachine.Proofs.Semantics.Store

/-!
# The machine runs over stores

The machine does to its counters what a run over stores does, step by step and with the same fuel.

## Key results

- `Instruction.execute_tells`: an instruction has its effect
- `Machine.step_steps`, `Machine.run_shows`: a step of the machine is a step of a run over stores,
  and a run is a run
- `evaluateCall_tells`: and so is the evaluation of a call
-/

namespace CounterMachine

/-- An evaluation comes to the same end as a reply, and `rel` relates what they yield. -/
def Evaluation.Tells {σ α β : Type} (e : Evaluation σ α) (r : Reply β) (rel : α → σ → β → Prop) :
    Prop :=
  match e with
  | .finished a s => ∃ b, r = .value b ∧ rel a s b
  | .failed _ _ => r = .fault
  | .unfinished => r = .never

/-- An evaluator of calls answers like an oracle and leaves the counters of the caller alone. -/
def Agrees (evaluate : CallEvaluator) (ask : Oracle) : Prop :=
  ∀ call env, (evaluate call env).Tells (ask call env.get)
    fun value env' answer => value = answer ∧ env'.bindings = env.bindings

namespace Evaluation

variable {σ α β γ δ : Type}

/-- If one evaluation after another tells one reply each, then together they tell what comes of both
replies. -/
theorem Tells.bind {e : Evaluation σ α} {r : Reply β} {rel : α → σ → β → Prop}
    {rel' : γ → σ → δ → Prop} {next : α → σ → Evaluation σ γ} {next' : β → Reply δ}
    (h : e.Tells r rel) (hnext : ∀ a s b, rel a s b → (next a s).Tells (next' b) rel') :
    (e.bind next).Tells (r.bind next') rel' := by
  cases e with
  | finished a s =>
    obtain ⟨b, rfl, hrel⟩ := h
    exact hnext a s b hrel
  | failed error s => rw [show r = .fault from h]; rfl
  | unfinished => rw [show r = .never from h]; rfl

/-- Changing the value is changing the reply. -/
theorem Tells.map {e : Evaluation σ α} {r : Reply β} {rel : α → σ → β → Prop}
    {rel' : γ → σ → δ → Prop} {f : α → γ} {f' : β → δ} (h : e.Tells r rel)
    (hf : ∀ a s b, rel a s b → rel' (f a) s (f' b)) : (e.map f).Tells (r.map f') rel' :=
  h.bind fun a s b hrel => ⟨f' b, rfl, hf a s b hrel⟩

end Evaluation

namespace Environment

/-- Writing a counter is writing it in the store. -/
theorem get_set (env : Environment) (v : Variable) (value : Value) :
    (env.set v value).get = Store.set env.get v value := by
  funext w
  show (env.bindings.bind v value).read w = _
  rw [Bindings.read_bind, Store.set_apply]
  simp only [eq_comm]
  rfl

/-- The contents of the counters depend on the bindings only. -/
theorem get_congr {env env' : Environment} (h : env'.bindings = env.bindings) :
    env'.get = env.get := by
  funext v
  rw [get, get, h]

/-- Charging cycles changes no counter. -/
theorem bindings_charge (env : Environment) (cycles : Value) :
    (env.charge cycles).bindings = env.bindings := by
  cases env
  rfl

/-- So charging leaves the store as it is. -/
theorem get_charge (env : Environment) (cycles : Value) : (env.charge cycles).get = env.get :=
  get_congr (env.bindings_charge cycles)

/-- An operand is worth the same in the environment and in its store. -/
theorem operand_eq (env : Environment) (rhs : Operand) :
    env.operand rhs = Store.operand env.get rhs := by
  cases rhs <;> rfl

end Environment

/-! ### Instructions -/

section

variable {evaluate : CallEvaluator} {ask : Oracle} (h : Agrees evaluate ask)
include h

/-- The values of arguments are answered by the oracle, and the counters stay as they are. -/
theorem Argument.values_tells (args : List Argument) (env : Environment) :
    (Argument.values evaluate args env).Tells (Argument.answers ask args env.get)
      fun values env' answers => values = answers ∧ env'.bindings = env.bindings := by
  induction args generalizing env with
  | nil => exact ⟨[], rfl, rfl, rfl⟩
  | cons arg rest ih =>
    cases arg with
    | var v =>
      show ((Argument.values evaluate rest env).map _).Tells ((Reply.value (env.get v)).bind _) _
      exact (ih env).map fun values env' answers hrel => ⟨by rw [hrel.1], hrel.2⟩
    | nested function args =>
      refine (h ⟨function, args⟩ env).bind fun value env' answer hrel => ?_
      -- The caller is charged for the argument, which changes no counter.
      have hget : (env'.charge Instruction.quoteCycles).get = env.get := by
        rw [Environment.get_charge, Environment.get_congr hrel.2]
      have hrest := ih (env'.charge Instruction.quoteCycles)
      rw [hget] at hrest
      refine hrest.map fun values env'' answers hrel' => ⟨by rw [hrel.1, hrel'.1], ?_⟩
      rw [hrel'.2, Environment.bindings_charge, hrel.2]

/-- An instruction has its effect. -/
theorem Instruction.execute_tells (i : Instruction) (env : Environment) :
    (i.execute evaluate env).Tells (i.effect ask env.get)
      fun flow env' effect => flow = effect.1 ∧ env'.get = effect.2 := by
  cases i with
  | neutral v => exact ⟨_, rfl, rfl, Environment.get_charge ..⟩
  | jumpNotZero v target => exact ⟨_, rfl, rfl, Environment.get_charge ..⟩
  | goto target => exact ⟨_, rfl, rfl, Environment.get_charge ..⟩
  | jumpZero v target => exact ⟨_, rfl, rfl, Environment.get_charge ..⟩
  | jumpEqual v rhs target =>
    refine ⟨_, rfl, ?_, Environment.get_charge ..⟩
    rw [Environment.operand_eq]
  | increase v => exact ⟨_, rfl, rfl, (Environment.get_charge ..).trans (Environment.get_set ..)⟩
  | decrease v => exact ⟨_, rfl, rfl, (Environment.get_charge ..).trans (Environment.get_set ..)⟩
  | zero v => exact ⟨_, rfl, rfl, (Environment.get_charge ..).trans (Environment.get_set ..)⟩
  | assign dst src =>
    exact ⟨_, rfl, rfl, (Environment.get_charge ..).trans (Environment.get_set ..)⟩
  | assignConstant v value =>
    exact ⟨_, rfl, rfl, (Environment.get_charge ..).trans (Environment.get_set ..)⟩
  | quote dst call =>
    refine (h call env).bind fun value env' answer hrel => ⟨_, rfl, rfl, ?_⟩
    rw [Environment.get_charge, Environment.get_set, Environment.get_congr hrel.2, hrel.1]
  | jumpEqualCall v call target =>
    refine (h call env).bind fun value env' answer hrel => ⟨_, rfl, ?_, ?_⟩
    · rw [Environment.get_congr hrel.2, hrel.1]
    · rw [Environment.get_charge, Environment.get_congr hrel.2]

end

/-! ### Labels -/

/-- The positions of labels are their places in the lines. -/
theorem labelPositions_getElem? (ops : List Operation) (x : Label) :
    (labelPositions 0 ops)[x]? = labelPlace? x (ops.map Operation.line) := by
  -- The fold is generalised over what has been found before and over where the operations start.
  have general : ∀ (ops : List Operation) (start : Nat) (found : Std.TreeMap Label Nat),
      (ops.foldl (fun (found : Nat × Std.TreeMap Label Nat) op =>
        (found.1 + 1, if op.label.isEmpty then found.2 else found.2.insert op.label found.1))
        (start, found)).2[x]? =
          ((labelPlace? x (ops.map Operation.line)).map (start + ·)).or found[x]? := by
    intro ops
    induction ops with
    | nil => exact fun _ _ => rfl
    | cons op ops ih =>
      intro start found
      rw [List.foldl_cons, ih, List.map_cons, labelPlace?]
      -- A later operation with the same label has the last word, in the map and in the list.
      cases hplace : labelPlace? x (ops.map Operation.line) with
      | some i =>
        simp only [Option.map_some, Option.some_or, Option.some.injEq]
        omega
      | none =>
        have hline : op.line.label = op.label := rfl
        cases hl : op.label <;> cases x <;>
          simp [hline, hl, Label.isEmpty, Std.TreeMap.getElem?_insert,
            Std.LawfulEqCmp.compare_eq_iff_eq]
        -- Two numbered labels are left, which are the same or not.
        split <;> simp_all
  rw [labelPositions, general ops 0 ∅]
  cases labelPlace? x (ops.map Operation.line) <;> simp

/-- The place of a label is the place of a line. -/
theorem lt_of_labelPlace? {x : Label} {lines : List Line} {i : Nat}
    (h : labelPlace? x lines = some i) : i < lines.length := by
  induction lines generalizing i with
  | nil => cases h
  | cons line rest ih =>
    rw [labelPlace?] at h
    cases hrest : labelPlace? x rest with
    | some j =>
      rw [hrest] at h
      have := ih hrest
      cases h
      rw [List.length_cons]
      omega
    | none =>
      rw [hrest] at h
      simp only at h
      split at h
      · cases h
        exact Nat.succ_pos _
      · cases h

/-! ### Runs -/

/-- A run of the machine comes to the same end as a run over stores. -/
def Evaluation.Shows (e : Evaluation Machine Unit) (c : RunState) : Prop :=
  match e with
  | .finished _ m => c = .halted m.env.get
  | .failed _ _ => c = .faulted
  | .unfinished => ¬ c.Ended

/-- A run that has halted stays halted. -/
theorem RunState.iterate_next_halted (ask : Oracle) (lines : List Line) (σ : Store) (n : Nat) :
    (next ask lines)^[n] (.halted σ) = .halted σ :=
  Function.iterate_fixed rfl n

/-- A run that has met a fault stays there. -/
theorem RunState.iterate_next_faulted (ask : Oracle) (lines : List Line) (n : Nat) :
    (next ask lines)^[n] .faulted = .faulted :=
  Function.iterate_fixed rfl n

/-- A machine that moves to an operation goes on. -/
theorem Machine.moveTo_of_lt {code : Code} (m : Machine) {position : Nat}
    (h : position < code.operations.size) :
    m.moveTo code position = .finished .running { m with position, status := .running } := by
  simp [moveTo, Nat.not_le_of_lt h]

/-- A machine that moves behind the last operation halts. -/
theorem Machine.moveTo_of_le {code : Code} (m : Machine) {position : Nat}
    (h : code.operations.size ≤ position) :
    m.moveTo code position = .finished .halted { m with position, status := .halted } := by
  simp [moveTo, h]

/-- A step of the machine comes to the same as a step of a run over stores from `c` to `c'`. -/
def Evaluation.Steps (e : Evaluation Machine Status) (c c' : RunState) : Prop :=
  match e with
  | .finished .running m => m.status = .running ∧ c' = .running m.position m.env.get
  | .finished .halted m => c' = .halted m.env.get
  | .failed _ _ => c' = .faulted
  | .unfinished => c' = c

/-- The lines of a program are those of the operations that the machine runs. -/
theorem Program.code_getElem? (p : Program) (i : Nat) :
    p.lines[i]? = (p.code.operations[i]?).map Operation.line := by
  rw [lines, List.getElem?_map]
  simp [code]

/-- There are as many of them. -/
theorem Program.code_size (p : Program) : p.code.operations.size = p.lines.length := by
  simp [code, lines]

/-- Recording a step changes no counter. -/
theorem Machine.get_withEnvironment (m : Machine) (env : Environment) :
    (m.withEnvironment env).env.get = env.get := by
  rw [withEnvironment]
  split <;> rfl

/-- The machine moves on as a run over stores does. -/
theorem Machine.follow_steps (p : Program) (m : Machine) (flow : Flow) (c : RunState) :
    (m.follow p.code flow).Steps c (RunState.follow p.lines m.position m.env.get flow) := by
  cases flow with
  | fallThrough =>
    rw [follow, RunState.follow, RunState.goto]
    by_cases hlt : m.position + 1 < p.lines.length
    · rw [if_pos hlt, moveTo_of_lt _ (p.code_size ▸ hlt)]
      exact ⟨rfl, rfl⟩
    · rw [if_neg hlt, moveTo_of_le _ (p.code_size ▸ Nat.le_of_not_lt hlt)]
      rfl
  | goto label =>
    have hpos : p.code.positions[label]? = labelPlace? label p.lines := labelPositions_getElem? ..
    simp only [follow, RunState.follow, hpos]
    cases htarget : labelPlace? label p.lines with
    | none => rfl
    | some target =>
      simp only
      rw [moveTo_of_lt _ (p.code_size ▸ lt_of_labelPlace? htarget)]
      exact ⟨rfl, rfl⟩
  | exit => rfl

/-- A step of a running machine is a step of a run over stores. -/
theorem Machine.step_steps {evaluate : CallEvaluator} {ask : Oracle} (h : Agrees evaluate ask)
    (p : Program) (m : Machine) (hm : m.status = .running) :
    (m.step evaluate p.code).Steps (.running m.position m.env.get)
      (RunState.next ask p.lines (.running m.position m.env.get)) := by
  rw [step, hm, RunState.next, p.code_getElem?]
  simp only
  cases p.code.operations[m.position]? with
  | none => rfl
  | some op =>
    simp only [Option.map_some]
    have heffect : (op.instruction.execute evaluate m.env).Tells
        (op.line.instruction.effect ask m.env.get)
        fun flow env' effect => flow = effect.1 ∧ env'.get = effect.2 :=
      op.instruction.execute_tells h m.env
    -- The instruction is executed, and its effect on the store is told by that.
    cases hexec : op.instruction.execute evaluate m.env with
    | unfinished =>
      rw [hexec] at heffect
      rw [show op.line.instruction.effect ask m.env.get = .never from heffect]
      rfl
    | failed error env =>
      rw [hexec] at heffect
      rw [show op.line.instruction.effect ask m.env.get = .fault from heffect]
      rfl
    | finished flow env =>
      rw [hexec] at heffect
      obtain ⟨⟨flow', σ⟩, hvalue, hflow, hget⟩ := heffect
      simp only at hflow hget
      subst hflow hget
      rw [hvalue, ← m.get_withEnvironment env]
      exact follow_steps p (m.withEnvironment env) flow _

/-- A run of the machine is a run over stores. -/
theorem Machine.run_shows {evaluate : CallEvaluator} {ask : Oracle} (h : Agrees evaluate ask)
    (p : Program) (fuel : Nat) (m : Machine) (hm : m.status = .running) :
    (Machine.run evaluate p.code fuel m).Shows
      ((RunState.next ask p.lines)^[fuel] (.running m.position m.env.get)) := by
  -- Step by step: as long as the machine runs, the run over stores is at the same position.
  induction fuel generalizing m with
  | zero => exact id
  | succ fuel ih =>
    have hstep := step_steps h p m hm
    rw [Function.iterate_succ_apply, run]
    cases hs : m.step evaluate p.code with
    | unfinished =>
      rw [hs] at hstep
      show ¬ RunState.Ended _
      -- The run asks for ever.
      rw [show RunState.next ask p.lines _ = _ from hstep, Function.iterate_fixed hstep]
      exact id
    | failed error m' =>
      rw [hs] at hstep
      rw [show RunState.next ask p.lines _ = RunState.faulted from hstep]
      exact RunState.iterate_next_faulted ..
    | finished status m' =>
      rw [hs] at hstep
      cases status with
      | running =>
        rw [hstep.2]
        exact ih m' hstep.1
      | halted =>
        rw [show RunState.next ask p.lines _ = RunState.halted _ from hstep]
        exact RunState.iterate_next_halted ..

/-! ### Calls and programs -/

namespace Bindings

/-- Binding several counters is writing them one after the other, so the last value counts. -/
theorem read_bindAll (b : Bindings) (pairs : List (Variable × Value)) :
    (b.bindAll pairs).read = pairs.foldl (fun σ pair => Store.set σ pair.1 pair.2) b.read := by
  induction pairs generalizing b with
  | nil => rfl
  | cons pair rest ih =>
    have hbind : (b.bind pair.1 pair.2).read = Store.set b.read pair.1 pair.2 := by
      funext w
      rw [read_bind, Store.set_apply]
      simp only [eq_comm]
    rw [List.foldl_cons, ← hbind, ← ih]
    rfl

/-- At the start everything is zero but the inputs. -/
theorem read_initial (declared inputs : List Variable) (values : List Value) :
    (initial declared inputs values).read = Store.initial inputs values := by
  have hzero : (bindAll ∅ ((declared ++ [Variable.result]).map (·, 0))).read = fun _ => 0 := by
    rw [read_bindAll]
    have hempty : (∅ : Bindings).read = fun _ => 0 := by
      funext v
      simp [read]
    rw [hempty]
    generalize declared ++ [Variable.result] = vars
    induction vars with
    | nil => rfl
    | cons v vars ih =>
      rw [List.map_cons, List.foldl_cons, Store.set_eq_self]
      exact ih
  rw [initial, read_bindAll, hzero, Store.initial]

end Bindings

/-- A run from the start is a run over stores from its start. -/
theorem Machine.start_shows {evaluate : CallEvaluator} {ask : Oracle} (h : Agrees evaluate ask)
    (p : Program) (fuel : Nat) (values : List Value) (recording : Bool) :
    (Machine.run evaluate p.code fuel (.start p values recording)).Shows
      ((RunState.next ask p.lines)^[fuel] (.running 0 (.initial p.inputs values))) := by
  have hget : (Machine.start p values recording).env.get = Store.initial p.inputs values :=
    Bindings.read_initial ..
  rw [← hget]
  by_cases hempty : p.isEmpty = true
  · -- Without lines, the machine is halted from the start, and a run over stores halts at once.
    have hlines : p.lines = [] := by
      rw [Program.isEmpty, List.isEmpty_iff] at hempty
      simp [Program.lines, Program.operations, hempty]
    have hstatus : (Machine.start p values recording).status = .halted := if_pos hempty
    cases fuel with
    | zero => exact id
    | succ fuel =>
      rw [Function.iterate_succ_apply, run, step, hstatus, hlines]
      exact RunState.iterate_next_halted ..
  · exact run_shows h p fuel (.start p values recording) (if_neg hempty)

/-- A call is worth what the oracle says that runs the functions over stores. -/
theorem evaluateCall_tells (table : FunctionTable) (fuel : Nat) :
    Agrees (evaluateCall table fuel) (Call.answer table fuel) := by
  induction fuel with
  | zero => exact fun _ _ => rfl
  | succ fuel ih =>
    intro call env
    rw [evaluateCall, Call.answer]
    cases hfind : table.find? call.function with
    | none => rfl
    | some callee =>
      refine (Argument.values_tells ih call.args env).bind fun values env' answers hrel => ?_
      rw [hrel.1]
      -- The function runs on, with the fuel that is left both for steps and for calls.
      have hrun := Machine.start_shows ih callee fuel answers false
      cases hm : Machine.run (evaluateCall table fuel) callee.code fuel
          (.start callee answers false) with
      | finished _ m =>
        rw [hm] at hrun
        rw [show _ = RunState.halted _ from hrun]
        refine ⟨_, rfl, rfl, ?_⟩
        rw [Environment.bindings_charge, hrel.2]
      | failed error m =>
        rw [hm] at hrun
        rw [show _ = RunState.faulted from hrun]
        rfl
      | unfinished =>
        rw [hm] at hrun
        -- A run that has been cut short has no result.
        show RunState.result _ = .never
        cases hc : (RunState.next (Call.answer table fuel) callee.lines)^[fuel]
            (.running 0 (.initial callee.inputs answers)) with
        | running position σ => rfl
        | halted σ => rw [hc] at hrun; exact absurd trivial hrun
        | faulted => rw [hc] at hrun; exact absurd trivial hrun

end CounterMachine
