import CounterMachine.Proofs.Execution.Step

/-!
# The trace is a replay of the run

Whoever has a program, the bindings at the start and the recorded steps can replay the run without
running anything: every step says which operation was executed and what the counters were after it,
and the next step stands where that operation has sent control.

## Key definitions

- `Machine.stepTimes`: a number of steps, of which the first that fails is the last
- `Program.Replay`: what makes recorded steps a replay
- `Program.Leaves`: the last recorded step has left the program
- `Program.Fails`: the two ways a step can fail, with what each of them records

## Key results

- `Program.Replay.push`: a replay is continued by the operation that control has come to
- `Machine.Recorded.step`: a step of the machine continues the replay
- `Program.trace_replays`: the trace of any number of steps is a replay, and so is that of a run
-/

namespace CounterMachine

open Environment (fresh)

/-- Steps the machine a number of times. The first step that fails is the last. -/
def Machine.stepTimes (evaluate : CallEvaluator) (code : Code) :
    Nat → Machine → Evaluation Machine Unit
  | 0, m => .finished () m
  | n + 1, m => (stepTimes evaluate code n m).bind fun _ m => (m.step evaluate code).map fun _ => ()

/-- One step more is made after the others. -/
theorem Machine.stepTimes_succ (evaluate : CallEvaluator) (code : Code) (n : Nat) (m : Machine) :
    m.stepTimes evaluate code (n + 1) =
      (m.stepTimes evaluate code n).bind fun _ m => (m.step evaluate code).map fun _ => () := rfl

/-- The steps that a machine has recorded. -/
def Machine.trace (m : Machine) : List TraceStep := m.env.steps.toList

/-- The bindings that recorded steps have left, beginning with those at the start. -/
def lastBindings (start : Bindings) (steps : List TraceStep) : Bindings :=
  (steps.getLast?.map (·.snapshot)).getD start

/-- The bindings before a recorded step. -/
def bindingsBefore (start : Bindings) (steps : List TraceStep) (k : Nat) : Bindings :=
  lastBindings start (steps.take k)

namespace Program

/-- Control goes from a recorded step on to a position. -/
def GoesOnFrom (evaluate : CallEvaluator) (p : Program) (s : TraceStep) (i : Nat) : Prop :=
  ∀ op, p.operations[s.index]? = some op →
    p.GoesOn (op.instruction.jump? (evaluate.worth? s.snapshot) s.snapshot) s.index i

/-- Control has come to a position after the recorded steps. -/
def ControlAt (evaluate : CallEvaluator) (p : Program) (steps : List TraceStep) (i : Nat) : Prop :=
  match steps.getLast? with
  | none => i = 0
  | some s => p.GoesOnFrom evaluate s i

/-- What makes recorded steps a replay. -/
structure Replay (evaluate : CallEvaluator) (p : Program) (start : Bindings)
    (steps : List TraceStep) : Prop where
  /-- The first step is that of the first operation. -/
  first : ∀ s : TraceStep, steps[0]? = some s → s.index = 0
  /-- There is an operation at every step. -/
  index_lt : ∀ s ∈ steps, s.index < p.operations.length
  /-- Nothing changes but the counter that the instruction writes. -/
  frame : ∀ (k : Nat) (s : TraceStep) (op : Operation), steps[k]? = some s →
    p.operations[s.index]? = some op → ∀ v, op.instruction.written? ≠ some v →
      s.snapshot[v]? = (bindingsBefore start steps k)[v]?
  /-- The instruction has its effect. -/
  effect : ∀ (k : Nat) (s : TraceStep) (op : Operation), steps[k]? = some s →
    p.operations[s.index]? = some op →
    op.instruction.after? (evaluate.worth? (bindingsBefore start steps k))
      (bindingsBefore start steps k) = some s.snapshot
  /-- The next step is where the instruction sends control. -/
  next : ∀ (k : Nat) (s t : TraceStep), steps[k]? = some s → steps[k + 1]? = some t →
    p.GoesOnFrom evaluate s t.index

/-- The recorded steps have left the program: the last one has jumped to `EXIT`, or it has fallen
through at the last position. Without any step, there is no operation. -/
def Leaves (evaluate : CallEvaluator) (p : Program) (steps : List TraceStep) : Prop :=
  match steps.getLast? with
  | none => p.operations = []
  | some s => ∃ op, p.operations[s.index]? = some op ∧
    (op.instruction.jump? (evaluate.worth? s.snapshot) s.snapshot = some .exit ∨
      op.instruction.jump? (evaluate.worth? s.snapshot) s.snapshot = none ∧
        s.index + 1 = p.operations.length)

/-- The two ways in which a step can fail. -/
inductive Fails (evaluate : CallEvaluator) (p : Program) (m m' : Machine) :
    ExecutionError → Prop where
  /-- The instruction jumps to a label that no operation carries. It has been executed, and its step
  is the last of the trace. -/
  | jump {s : TraceStep} {op : Operation} {x : Label} (htrace : m'.trace = m.trace ++ [s])
    (hindex : s.index = m.position) (hop : p.operations[m.position]? = some op)
    (hjump : op.instruction.jump? (evaluate.worth? s.snapshot) s.snapshot = some x)
    (hx : x ≠ .exit) (hnowhere : ∀ i, ¬ p.LastCarrier x i) :
    Fails evaluate p m m' (.unresolvedLabel x)
  /-- The call that the instruction makes fails. No step is recorded, and the counters are as they
  were. -/
  | call {op : Operation} {call : Call} {error : ExecutionError} {env : Environment}
    (htrace : m'.trace = m.trace) (hbindings : m'.env.bindings = m.env.bindings)
    (hop : p.operations[m.position]? = some op) (hcall : op.instruction.call? = some call)
    (herror : evaluate call (fresh m.env.bindings) = .failed error env) :
    Fails evaluate p m m' error

end Program

/-! ### A replay goes on -/

/-- Where no step is recorded the bindings are those at the start. -/
@[simp] theorem lastBindings_nil (start : Bindings) : lastBindings start [] = start := rfl

/-- A step that is recorded leaves the last bindings. -/
@[simp] theorem lastBindings_concat (start : Bindings) (steps : List TraceStep) (s : TraceStep) :
    lastBindings start (steps ++ [s]) = s.snapshot := by
  simp [lastBindings]

/-- Behind all steps the bindings are the last ones. -/
theorem bindingsBefore_length (start : Bindings) (steps : List TraceStep) :
    bindingsBefore start steps steps.length = lastBindings start steps := by
  rw [bindingsBefore, List.take_length]

/-- Steps that are recorded later do not change what was before. -/
theorem bindingsBefore_append (start : Bindings) (steps rest : List TraceStep) {k : Nat}
    (hk : k ≤ steps.length) :
    bindingsBefore start (steps ++ rest) k = bindingsBefore start steps k := by
  rw [bindingsBefore, bindingsBefore, List.take_append_of_le_length hk]

/-- A step of a longer list is one of the shorter list or the last. -/
theorem getElem?_concat_cases {α : Type} {xs : List α} {x y : α} {k : Nat}
    (h : (xs ++ [x])[k]? = some y) : xs[k]? = some y ∨ k = xs.length ∧ y = x := by
  rw [List.getElem?_append] at h
  split at h
  · exact .inl h
  · rename_i hk
    obtain ⟨hk', hy⟩ := List.getElem?_eq_some_iff.mp h
    simp only [List.length_singleton] at hk'
    simp only [List.getElem_singleton] at hy
    exact .inr ⟨by omega, hy.symm⟩

namespace Program

variable {evaluate : CallEvaluator} {p : Program} {start : Bindings} {steps : List TraceStep}

/-- After a step that is recorded control is where that step sends it. -/
theorem controlAt_concat {s : TraceStep} {i : Nat} :
    p.ControlAt evaluate (steps ++ [s]) i ↔ p.GoesOnFrom evaluate s i := by
  rw [ControlAt, List.getLast?_append]
  rfl

/-- Steps have left the program if the last one of them has. -/
theorem leaves_concat {s : TraceStep} :
    p.Leaves evaluate (steps ++ [s]) ↔ ∃ op, p.operations[s.index]? = some op ∧
      (op.instruction.jump? (evaluate.worth? s.snapshot) s.snapshot = some .exit ∨
        op.instruction.jump? (evaluate.worth? s.snapshot) s.snapshot = none ∧
          s.index + 1 = p.operations.length) := by
  rw [Leaves, List.getLast?_append]
  rfl

/-- Without steps there is nothing to replay. -/
theorem replay_nil : p.Replay evaluate start [] where
  first _ h := by cases h
  index_lt _ h := by cases h
  frame _ _ _ h := by cases h
  effect _ _ _ h := by cases h
  next _ _ _ h := by cases h

/-- A replay is continued by the operation that control has come to. -/
theorem Replay.push (h : p.Replay evaluate start steps) {i : Nat} {op : Operation} {b : Bindings}
    (hcontrol : p.ControlAt evaluate steps i) (hop : p.operations[i]? = some op)
    (hafter : op.instruction.after? (evaluate.worth? (lastBindings start steps))
      (lastBindings start steps) = some b) :
    p.Replay evaluate start (steps ++ [⟨i, b⟩]) := by
  -- The frame follows from the effect.
  have effect : ∀ (k : Nat) (s : TraceStep) (op' : Operation),
      (steps ++ [⟨i, b⟩])[k]? = some s → p.operations[s.index]? = some op' →
      op'.instruction.after? (evaluate.worth? (bindingsBefore start (steps ++ [⟨i, b⟩]) k))
        (bindingsBefore start (steps ++ [⟨i, b⟩]) k) = some s.snapshot := by
    intro k s op' hs hop'
    rcases getElem?_concat_cases hs with hs | ⟨rfl, rfl⟩
    · rw [bindingsBefore_append _ _ _ (Nat.le_of_lt (List.getElem?_eq_some_iff.mp hs).1)]
      exact h.effect k s op' hs hop'
    · cases hop.symm.trans hop'
      rw [bindingsBefore_append _ _ _ (Nat.le_refl _), bindingsBefore_length]
      exact hafter
  refine ⟨?_, ?_, ?_, effect, ?_⟩
  · intro s hs
    rcases getElem?_concat_cases hs with hs | ⟨hlength, rfl⟩
    · exact h.first s hs
    · -- The new step is the first, so control has not moved yet.
      rw [ControlAt, List.eq_nil_of_length_eq_zero hlength.symm] at hcontrol
      exact hcontrol
  · -- There is an operation at the new step, since control has come to it.
    intro s hs
    rcases List.mem_append.mp hs with hs | hs
    · exact h.index_lt s hs
    · rw [List.mem_singleton.mp hs]
      exact (List.getElem?_eq_some_iff.mp hop).1
  · -- The other counters are kept by what the instruction does.
    intro k s op' hs hop' v hv
    exact Instruction.getElem?_of_after? (effect k s op' hs hop') hv
  · intro k s t hs ht
    rcases getElem?_concat_cases ht with ht | ⟨hk, rfl⟩
    · have hk := (List.getElem?_eq_some_iff.mp ht).1
      rw [List.getElem?_append_left (by omega)] at hs
      exact h.next k s t hs ht
    · -- The step before the new one was the last.
      rw [List.getElem?_append_left (by omega)] at hs
      rw [ControlAt, List.getLast?_eq_getElem?, ← hk, Nat.add_sub_cancel, hs] at hcontrol
      exact hcontrol

/-- Where control has come to the end of the operations, the steps have left the program. -/
theorem ControlAt.leaves (h : p.Replay evaluate start steps) {i : Nat}
    (hcontrol : p.ControlAt evaluate steps i) (hi : p.operations.length ≤ i) :
    p.Leaves evaluate steps := by
  unfold ControlAt at hcontrol
  unfold Leaves
  cases hlast : steps.getLast? with
  | none =>
    rw [hlast] at hcontrol
    cases hcontrol
    exact List.eq_nil_of_length_eq_zero (Nat.le_zero.mp hi)
  | some s =>
    rw [hlast] at hcontrol
    have hlt := h.index_lt s (List.mem_of_getLast? hlast)
    refine ⟨_, List.getElem?_eq_getElem hlt, .inr ?_⟩
    have hgoes := hcontrol _ (List.getElem?_eq_getElem hlt)
    cases hjump : p.operations[s.index].instruction.jump? (evaluate.worth? s.snapshot)
      s.snapshot with
    | none =>
      rw [hjump] at hgoes
      have : i = s.index + 1 := hgoes
      exact ⟨rfl, by omega⟩
    | some x =>
      -- A jump that goes on finds an operation.
      rw [hjump] at hgoes
      have := (List.getElem?_eq_some_iff.mp hgoes.2.carries).1
      rw [List.length_map] at this
      omega

end Program

/-! ### The machine -/

/-- What is known of a machine between two steps: its trace is a replay, its bindings are those that
the trace has left, and it stands where the trace has sent it. -/
structure Machine.Recorded (evaluate : CallEvaluator) (p : Program) (start : Bindings)
    (m : Machine) : Prop where
  recording : m.recording = true
  replay : p.Replay evaluate start m.trace
  bindings : m.env.bindings = lastBindings start m.trace
  control : m.status = .running → p.ControlAt evaluate m.trace m.position
  leaves : m.status = .halted → p.Leaves evaluate m.trace

namespace Machine

variable {evaluate : CallEvaluator} {p : Program} {start : Bindings} {m : Machine}

/-- A machine that records adds one step, with its position and the new bindings. -/
theorem trace_withEnvironment (m : Machine) (hm : m.recording = true) {env : Environment}
    (hsteps : env.steps = m.env.steps) :
    (m.withEnvironment env).trace = m.trace ++ [⟨m.position, env.bindings⟩] := by
  rw [withEnvironment, if_pos hm, trace, trace, ← hsteps]
  exact Array.toList_push

/-- Recording leaves the new bindings as they are. -/
theorem bindings_withEnvironment (m : Machine) (env : Environment) :
    (m.withEnvironment env).env.bindings = env.bindings := by
  rw [withEnvironment]
  split <;> rfl

/-- What is known of a machine once it has recorded an operation. -/
theorem Recorded.executed (h : m.Recorded evaluate p start) {op : Operation} {env : Environment}
    (hat : m.At p op) (hop : op.instruction.Executed evaluate m.env env) :
    p.Replay evaluate start (m.withEnvironment env).trace ∧
      (m.withEnvironment env).env.bindings =
        lastBindings start (m.withEnvironment env).trace := by
  have htrace := trace_withEnvironment m h.recording hop.steps
  have hafter := hop.bindings
  rw [h.bindings] at hafter
  rw [htrace, lastBindings_concat]
  exact ⟨h.replay.push (h.control hat.running) hat.op_eq hafter, bindings_withEnvironment ..⟩

/-- A step of the machine continues the replay, also the step that fails. -/
theorem Recorded.step (hevaluate : evaluate.Apart) (h : m.Recorded evaluate p start) :
    match m.step evaluate p.code with
    | .finished status m' => m'.Recorded evaluate p start ∧ m'.status = status
    | .failed error m' => p.Replay evaluate start m'.trace ∧
      m'.env.bindings = lastBindings start m'.trace ∧ p.Fails evaluate m m' error
    | .unfinished => True := by
  have hmoves := m.step_moves hevaluate p
  generalize m.step evaluate p.code = e at hmoves
  -- Whatever the step does, the trace grows by one step, or it stays.
  cases hmoves with
  | waits => trivial
  | rests hs => exact ⟨h, hs⟩
  | ends hs hi =>
    have hleaves := (h.control hs).leaves h.replay hi
    exact ⟨⟨h.recording, h.replay, h.bindings, nofun, fun _ => hleaves⟩, rfl⟩
  | @lands op env i hat hop hto =>
    obtain ⟨hreplay, hbindings⟩ := h.executed hat hop
    have hcontrol : p.ControlAt evaluate (m.withEnvironment env).trace i := by
      rw [trace_withEnvironment m h.recording hop.steps, Program.controlAt_concat]
      intro op' hop'
      cases hat.op_eq.symm.trans hop'
      exact hto
    refine ⟨⟨h.recording, hreplay, hbindings, fun _ => hcontrol, fun hs => ?_⟩, rfl⟩
    -- A machine that has moved to a position has halted only if that is behind all operations.
    refine hcontrol.leaves hreplay ?_
    by_contra hlt
    exact absurd ((if_pos (Nat.lt_of_not_le hlt)).symm.trans hs) nofun
  | @leaves op env hat hop hto =>
    obtain ⟨hreplay, hbindings⟩ := h.executed hat hop
    refine ⟨⟨h.recording, hreplay, hbindings, nofun, fun _ => ?_⟩, rfl⟩
    show p.Leaves evaluate (m.withEnvironment env).trace
    rw [trace_withEnvironment m h.recording hop.steps, Program.leaves_concat]
    exact ⟨op, hat.op_eq, .inl hto⟩
  | @strays op env x hat hop hto hx hnowhere =>
    obtain ⟨hreplay, hbindings⟩ := h.executed hat hop
    exact ⟨hreplay, hbindings,
      .jump (trace_withEnvironment m h.recording hop.steps) rfl hat.op_eq hto hx hnowhere⟩
  | @fails op call error env hat hcall herror =>
    -- What a call leaves behind that fails has the bindings and the steps of before.
    obtain ⟨⟨s, hfresh⟩, hbindings, hsteps⟩ := hevaluate.of_failed herror
    have htrace : trace { m with env } = m.trace := congrArg Array.toList hsteps
    refine ⟨?_, ?_, .call htrace hbindings hat.op_eq hcall hfresh⟩
    · rw [htrace]
      exact h.replay
    · rw [htrace]
      exact hbindings.trans h.bindings

/-- At the start nothing is recorded, and control is at the first operation. -/
theorem recorded_start (evaluate : CallEvaluator) (p : Program) (values : List Value) :
    (Machine.start p values true).Recorded evaluate p
      (Machine.start p values true).env.bindings where
  recording := rfl
  replay := Program.replay_nil
  bindings := rfl
  control _ := rfl
  leaves hs := by
    -- Only a program without operations has come to its end at the start.
    have hempty : p.isEmpty = true := by
      by_contra hne
      exact absurd ((if_neg hne).symm.trans hs) nofun
    rw [Program.isEmpty, List.isEmpty_iff] at hempty
    show p.operations = []
    rw [Program.operations, hempty]
    rfl

/-- Any number of steps that succeed continue the replay, and one that fails after them does. -/
theorem Recorded.stepTimes (hevaluate : evaluate.Apart) (h : m.Recorded evaluate p start)
    (n : Nat) :
    match m.stepTimes evaluate p.code n with
    | .finished _ m' => m'.Recorded evaluate p start
    | .failed error m' => p.Replay evaluate start m'.trace ∧
      m'.env.bindings = lastBindings start m'.trace ∧
        ∃ k < n, ∃ before, m.stepTimes evaluate p.code k = .finished () before ∧
          p.Fails evaluate before m' error
    | .unfinished => True := by
  -- By induction on the number of steps; only the last of them can fail.
  induction n with
  | zero => exact h
  | succ n ih =>
    rw [stepTimes_succ]
    cases hn : m.stepTimes evaluate p.code n with
    | unfinished => trivial
    | failed error m' =>
      -- No step is made after one that has failed.
      rw [hn] at ih
      obtain ⟨hreplay, hbindings, k, hk, before, hbefore, hfails⟩ := ih
      exact ⟨hreplay, hbindings, k, Nat.lt_succ_of_lt hk, before, hbefore, hfails⟩
    | finished _ m' =>
      rw [hn] at ih
      rw [Evaluation.bind_finished]
      have hstep := Recorded.step hevaluate ih
      cases hs : m'.step evaluate p.code with
      | unfinished => trivial
      | finished status m'' =>
        rw [hs] at hstep
        exact hstep.1
      | failed error m'' =>
        rw [hs] at hstep
        obtain ⟨hreplay, hbindings, hfails⟩ := hstep
        exact ⟨hreplay, hbindings, n, Nat.lt_succ_self n, m', hn, hfails⟩

/-- A machine that runs to its end comes there by some number of steps, and has halted. -/
theorem Recorded.run (hevaluate : evaluate.Apart) (h : m.Recorded evaluate p start) {fuel : Nat}
    {m' : Machine} (hrun : Machine.run evaluate p.code fuel m = .finished () m') :
    m'.Recorded evaluate p start ∧ m'.status = .halted := by
  -- By induction on the fuel: each step that leaves the machine running continues the replay.
  induction fuel generalizing m with
  | zero => cases hrun
  | succ fuel ih =>
    rw [Machine.run] at hrun
    have hstep := h.step hevaluate
    cases hs : m.step evaluate p.code with
    | unfinished => rw [hs] at hrun; cases hrun
    | failed error m'' => rw [hs] at hrun; cases hrun
    | finished status m'' =>
      rw [hs] at hrun hstep
      cases status with
      | running => exact ih hstep.1 hrun
      | halted =>
        cases hrun
        exact hstep

end Machine

/-- The outcome of a run is what its machine leaves behind. -/
theorem Program.runIn_eq_ok {table : FunctionTable} {fuel : Nat} {p : Program}
    {values : List Value} {outcome : RunOutcome} :
    p.runIn table fuel values = some (.ok outcome) ↔ ∃ m,
      Machine.run (evaluateCall table fuel) p.code fuel (.start p values true) = .finished () m ∧
        m.outcome = outcome := by
  unfold runIn
  cases Machine.run (evaluateCall table fuel) p.code fuel (.start p values true) with
  | finished _ m => simp
  | failed error m => simp
  | unfinished => simp

/-- The trace of any number of steps from the start is a replay of them, also if the last one fails.
A step that fails in its own jump is recorded, and one that fails in its call is not. Where the run
comes to its end, the last step has left the program, and the outcome holds the bindings after
it. -/
theorem Program.trace_replays (table : FunctionTable) (fuel : Nat) (p : Program)
    (values : List Value) :
    (∀ n,
      match (Machine.start p values true).stepTimes (evaluateCall table fuel) p.code n with
      | .finished _ m =>
        p.Replay (evaluateCall table fuel) (.initial p.vars p.inputs values) m.trace ∧
          m.env.bindings = lastBindings (.initial p.vars p.inputs values) m.trace ∧
          (m.status = .halted → p.Leaves (evaluateCall table fuel) m.trace)
      | .failed error m =>
        p.Replay (evaluateCall table fuel) (.initial p.vars p.inputs values) m.trace ∧
          m.env.bindings = lastBindings (.initial p.vars p.inputs values) m.trace ∧
          ∃ k < n, ∃ before,
            (Machine.start p values true).stepTimes (evaluateCall table fuel) p.code k =
                .finished () before ∧
              p.Fails (evaluateCall table fuel) before m error
      | .unfinished => True) ∧
    ∀ outcome, p.runIn table fuel values = some (.ok outcome) →
      p.Replay (evaluateCall table fuel) (.initial p.vars p.inputs values) outcome.trace.steps ∧
        p.Leaves (evaluateCall table fuel) outcome.trace.steps ∧
        outcome.bindings = lastBindings (.initial p.vars p.inputs values) outcome.trace.steps ∧
        outcome.result = outcome.bindings.read .result := by
  have hevaluate := evaluateCall_apart table fuel
  have hstart := Machine.recorded_start (evaluateCall table fuel) p values
  refine ⟨fun n => ?_, fun outcome houtcome => ?_⟩
  · have hsteps := hstart.stepTimes hevaluate n
    split
    · rename_i m hm
      rw [hm] at hsteps
      exact ⟨hsteps.replay, hsteps.bindings, hsteps.leaves⟩
    · rename_i error m hm
      rw [hm] at hsteps
      exact hsteps
    · trivial
  · obtain ⟨m, hrun, rfl⟩ := runIn_eq_ok.mp houtcome
    obtain ⟨hm, hhalted⟩ := hstart.run hevaluate hrun
    exact ⟨hm.replay, hm.leaves hhalted, hm.bindings, rfl⟩

/-- The trace of a loop that is gone through twice. -/
theorem Program.trace_replays_loop : ∃ outcome,
    (ofLines "double" none none none [⟨.numbered 1, .increase .result⟩, .plain (.increase .result),
      .plain (.decrease (.input 1)), .plain (.jumpNotZero (.input 1) (.numbered 1))]).runIn
        .empty 9 [2] = some (.ok outcome) ∧
    (ofLines "double" none none none [⟨.numbered 1, .increase .result⟩, .plain (.increase .result),
      .plain (.decrease (.input 1)), .plain (.jumpNotZero (.input 1) (.numbered 1))]).Replay
        (evaluateCall .empty 9) (.initial [.result, .input 1] [.input 1] [2]) outcome.trace.steps ∧
    outcome.trace.steps.map (·.index) = [0, 1, 2, 3, 0, 1, 2, 3] ∧ outcome.result = 4 := by
  obtain ⟨outcome, hrun, hindex, hresult⟩ : ∃ outcome, (ofLines "double" none none none
      [⟨.numbered 1, .increase .result⟩, .plain (.increase .result),
        .plain (.decrease (.input 1)), .plain (.jumpNotZero (.input 1) (.numbered 1))]).runIn
        .empty 9 [2] = some (.ok outcome) ∧
      outcome.trace.steps.map (·.index) = [0, 1, 2, 3, 0, 1, 2, 3] ∧ outcome.result = 4 :=
    ⟨_, rfl, rfl, rfl⟩
  exact ⟨outcome, hrun, ((trace_replays .empty 9 _ [2]).2 outcome hrun).1, hindex, hresult⟩

end CounterMachine
