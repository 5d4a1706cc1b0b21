import CounterMachine.Expansion.Expand
import CounterMachine.Proofs.Execution.Replay

/-!
# The counters of a run are those of the program

A run begins with a value for every counter of the program, and an instruction writes one of them.
So the bindings have the same keys all the time. The counters of a function that is called are
nowhere among them, however deep the calls nest, and neither do they replace any: a function has an
environment of its own.

## Key results

- `Instruction.hasKeys_after?`: an instruction changes no keys
- `Program.Replay.hasKeys`: so the keys are the same all along a replay
- `Program.keys_vars`: in every run the keys are the counters of the program
-/

namespace CounterMachine

/-- The counters that are bound are those of a list. -/
def Bindings.HasKeys (b : Bindings) (vars : List Variable) : Prop := ∀ v, v ∈ b ↔ v ∈ vars

theorem Bindings.HasKeys.bind {b : Bindings} {vars : List Variable} (h : b.HasKeys vars)
    {v : Variable} (hv : v ∈ vars) (value : Value) : (b.bind v value).HasKeys vars := by
  intro w
  rw [mem_bind, h w]
  constructor
  · rintro (rfl | hw)
    · exact hv
    · exact hw
  · exact .inr

/-- At the start every counter of the program is bound, and nothing else. -/
theorem Program.hasKeys_initial (p : Program) (values : List Value) :
    (Bindings.initial p.vars p.inputs values).HasKeys p.vars := by
  intro v
  have hinputs : v ∈ (Bindings.inputPairs p.inputs values).map Prod.fst ↔ v ∈ p.inputs := by
    simp [Bindings.inputPairs, List.mem_iff_getElem, List.getElem_mapIdx]
  have hdeclared : v ∈ ((p.vars ++ [Variable.result]).map fun v => (v, (0 : Value))).map Prod.fst ↔
      v ∈ p.vars ++ [.result] := by
    simp
  -- The result and the inputs are among the counters of every program, so they add no keys.
  rw [Bindings.initial, Bindings.mem_bindAll, Bindings.mem_bindAll, hinputs, hdeclared]
  constructor
  · rintro ((hv | hv) | hv)
    · simp at hv
    · rcases List.mem_append.mp hv with hv | hv
      · exact hv
      · exact List.mem_singleton.mp hv ▸ p.result_mem_vars
    · exact mem_vars_of_mem_inputs hv
  · exact fun hv => .inl (.inr (List.mem_append_left _ hv))

/-- An instruction changes no keys if the counter that it writes is one of them. -/
theorem Instruction.hasKeys_after? {worth? : Call → Option Value} {i : Instruction}
    {b b' : Bindings} {vars : List Variable} (h : i.after? worth? b = some b')
    (hi : ∀ v ∈ i.vars, v ∈ vars) (hb : b.HasKeys vars) : b'.HasKeys vars := by
  rcases after?_cases h with ⟨-, rfl⟩ | ⟨v, value, hv, rfl⟩
  · exact hb
  · exact hb.bind (hi v (mem_vars_of_written? hv)) value

namespace Program

variable {evaluate : CallEvaluator} {p : Program} {start : Bindings} {steps : List TraceStep}

theorem mem_vars_of_operation {op : Operation} {i : Nat} (hop : p.operations[i]? = some op)
    {v : Variable} (hv : v ∈ op.instruction.vars) : v ∈ p.vars := by
  rw [mem_vars, usedVars]
  exact List.mem_append_right _ (List.mem_cons_of_mem _
    (List.mem_flatMap.mpr ⟨op, List.mem_of_getElem? hop, hv⟩))

/-- The keys are the same all along a replay. -/
theorem Replay.hasKeys_before (h : p.Replay evaluate start steps) (hstart : start.HasKeys p.vars)
    {k : Nat} (hk : k ≤ steps.length) : (bindingsBefore start steps k).HasKeys p.vars := by
  induction k with
  | zero => exact hstart
  | succ k ih =>
    -- They are the snapshot of the step before, in which its instruction has written.
    have hs : steps[k]? = some steps[k] := List.getElem?_eq_getElem hk
    have hop := List.getElem?_eq_getElem (h.index_lt steps[k] (List.getElem_mem _))
    rw [bindingsBefore, List.take_add_one, hs, Option.toList_some, lastBindings_concat]
    exact Instruction.hasKeys_after? (h.effect k _ _ hs hop)
      (fun v hv => mem_vars_of_operation hop hv) (ih (Nat.le_of_succ_le hk))

theorem Replay.hasKeys (h : p.Replay evaluate start steps) (hstart : start.HasKeys p.vars) :
    (lastBindings start steps).HasKeys p.vars ∧ ∀ s ∈ steps, s.snapshot.HasKeys p.vars := by
  constructor
  · rw [← bindingsBefore_length]
    exact h.hasKeys_before hstart (Nat.le_refl _)
  · intro s hs
    obtain ⟨k, hk⟩ := List.mem_iff_getElem?.mp hs
    have hbefore := h.hasKeys_before hstart (k := k + 1) (List.getElem?_eq_some_iff.mp hk).1
    rwa [bindingsBefore, List.take_add_one, hk, Option.toList_some, lastBindings_concat] at hbefore

/-- In every run, finished, failed or not yet at its end, the counters that are bound are those of
the program: at the start, after every recorded step and at the end. What has been expanded or
collapsed before makes no difference, and neither does what the functions do that are called. -/
theorem keys_vars (table : FunctionTable) (fuel : Nat) (p : Program) (values : List Value) :
    (Bindings.initial p.vars p.inputs values).HasKeys p.vars ∧
    (∀ n, ((Machine.start p values true).stepTimes (evaluateCall table fuel) p.code n).Leaves
      fun m => m.env.bindings.HasKeys p.vars ∧ ∀ s ∈ m.trace, s.snapshot.HasKeys p.vars) ∧
    ∀ outcome, p.runIn table fuel values = some (.ok outcome) →
      outcome.bindings.HasKeys p.vars ∧
        ∀ s ∈ outcome.trace.steps, s.snapshot.HasKeys p.vars := by
  have hevaluate := evaluateCall_apart table fuel
  have hstart := Machine.recorded_start (evaluateCall table fuel) p values
  have hinitial := p.hasKeys_initial values
  refine ⟨hinitial, fun n => ?_, fun outcome houtcome => ?_⟩
  · have hsteps := hstart.stepTimes hevaluate n
    cases hn : (Machine.start p values true).stepTimes (evaluateCall table fuel) p.code n with
    | unfinished => trivial
    | finished _ m =>
      rw [hn] at hsteps
      have hkeys := hsteps.replay.hasKeys hinitial
      rwa [← hsteps.bindings] at hkeys
    | failed error m =>
      -- The trace of steps that end in a failure is a replay, too.
      rw [hn] at hsteps
      have hkeys := hsteps.1.hasKeys hinitial
      rwa [← hsteps.2.1] at hkeys
  · obtain ⟨m, hrun, rfl⟩ := runIn_eq_ok.mp houtcome
    obtain ⟨hm, -⟩ := hstart.run hevaluate hrun
    have hkeys := hm.replay.hasKeys hinitial
    rwa [← hm.bindings] at hkeys

/-- A call has been expanded into the lines of the function, with counters that the source does not
have, and the run binds these too. -/
theorem keys_vars_expanded : ∃ q outcome,
    (ofLines "main" none none (some [ofLines "next" none none none
        [.plain (.assign .result (.input 1)), .plain (.increase .result)]])
      [.plain (.quote .result ⟨"next", [.var (.input 1)]⟩)]).expand 1 = .ok q ∧
    q.run 30 [3] = some (.ok outcome) ∧ outcome.bindings.HasKeys q.vars ∧
    q.vars = [.result, .input 1, .work 1, .work 2] ∧ outcome.result = 4 := by
  obtain ⟨q, outcome, hq, hrun, hvars, hresult⟩ : ∃ q outcome,
      (ofLines "main" none none (some [ofLines "next" none none none
          [.plain (.assign .result (.input 1)), .plain (.increase .result)]])
        [.plain (.quote .result ⟨"next", [.var (.input 1)]⟩)]).expand 1 = .ok q ∧
      q.run 30 [3] = some (.ok outcome) ∧
      q.vars = [.result, .input 1, .work 1, .work 2] ∧ outcome.result = 4 :=
    ⟨_, _, rfl, rfl, rfl, rfl⟩
  exact ⟨q, outcome, hq, hrun, ((keys_vars q.callable 30 q [3]).2.2 outcome hrun).1, hvars, hresult⟩

end Program

end CounterMachine
