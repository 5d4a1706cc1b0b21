import CounterMachine.Proofs.Execution.Charges

/-!
# More fuel

An evaluation that has come to an end, or has met a fault, does the same with more fuel: it leaves
the same behind and charges the same amounts. Fuel is used up in two places, by calls that nest and
by the steps of a run. Everything else is passed on from an evaluator of calls to another one that
evaluates more.

## Key definitions

- `Evaluation.Extends`: an evaluation that answers at least what another one answers

## Key results

- `Machine.run_extends`: a run takes the same steps and may then go on
- `evaluateCall_extends`: more fuel, same value
- `Instruction.charges_extends`: more fuel, same charges
-/

namespace CounterMachine

open Environment (fresh)

namespace Evaluation

variable {σ α β : Type} {e e' : Evaluation σ α}

/-- An evaluation that has got a value has not run out of fuel. -/
theorem ne_unfinished_of_finished {value : α} {state : σ} (h : e = .finished value state) :
    e ≠ .unfinished := by
  rw [h]
  nofun

/-- Nor has one that has failed. -/
theorem ne_unfinished_of_failed {error : ExecutionError} {state : σ}
    (h : e = .failed error state) : e ≠ .unfinished := by
  rw [h]
  nofun

/-- If two evaluations in a row have not run out of fuel, then the first one has not. -/
theorem ne_unfinished_of_bind {next : α → σ → Evaluation σ β} (h : e.bind next ≠ .unfinished) :
    e ≠ .unfinished := by
  rintro rfl
  exact h rfl

/-- An evaluation answers at least what another one answers. -/
def Extends (e' e : Evaluation σ α) : Prop := e ≠ .unfinished → e' = e

namespace Extends

/-- An evaluation answers what it answers itself. -/
theorem refl (e : Evaluation σ α) : e.Extends e := fun _ => rfl

/-- A value is the same with more fuel. -/
theorem of_finished {value : α} {state : σ} (h : e'.Extends e) (he : e = .finished value state) :
    e' = .finished value state :=
  (h (ne_unfinished_of_finished he)).trans he

/-- What goes on from an evaluation that answers more answers more, if it goes on to more. -/
theorem bind {next next' : α → σ → Evaluation σ β} (h : e'.Extends e)
    (hnext : ∀ value state, (next' value state).Extends (next value state)) :
    (e'.bind next').Extends (e.bind next) := by
  cases e with
  | finished value state =>
    rw [h nofun]
    exact hnext value state
  | failed error state =>
    rw [h nofun]
    exact refl _
  | unfinished => exact fun hne => absurd rfl hne

/-- So is a value that has been changed. -/
theorem map (h : e'.Extends e) (f : α → β) : (e'.map f).Extends (e.map f) :=
  h.bind fun _ _ => refl _

end Extends

end Evaluation

/-- An evaluator of calls that answers at least what another one answers. -/
def CallEvaluator.Extends (evaluate' evaluate : CallEvaluator) : Prop :=
  ∀ call env, (evaluate' call env).Extends (evaluate call env)

section

variable {evaluate evaluate' : CallEvaluator} (h : evaluate'.Extends evaluate)
include h

/-- Arguments have the same values, if calls do. -/
theorem Argument.values_extends (args : List Argument) (env : Environment) :
    (values evaluate' args env).Extends (values evaluate args env) := by
  -- One argument after the other, in whatever environment the calls before have left.
  induction args generalizing env with
  | nil => exact .refl _
  | cons arg rest ih =>
    cases arg with
    | var v => exact (ih env).map _
    | nested function args => exact (h ⟨function, args⟩ env).bind fun _ _ => (ih _).map _

/-- An instruction does the same, if its call does. -/
theorem Instruction.execute_extends (i : Instruction) (env : Environment) :
    (i.execute evaluate' env).Extends (i.execute evaluate env) := by
  cases i with
  | quote dst call => exact (h call env).bind fun _ _ => .refl _
  | jumpEqualCall v call target => exact (h call env).bind fun _ _ => .refl _
  | _ => exact .refl _

/-- A step does the same, if its instruction does. -/
theorem Machine.step_extends (code : Code) (m : Machine) :
    (m.step evaluate' code).Extends (m.step evaluate code) := by
  intro hne
  -- A step runs out of fuel in its instruction only.
  unfold step at hne ⊢
  cases hs : m.status with
  | halted => rfl
  | running =>
    cases hop : code.operations[m.position]? with
    | none => rfl
    | some op =>
      simp only [hs, hop] at hne ⊢
      have hexecute : op.instruction.execute evaluate m.env ≠ .unfinished :=
        fun hunfinished => hne (by rw [hunfinished])
      rw [op.instruction.execute_extends h m.env hexecute]

/-- A run with more fuel takes the same steps. If they do not take it to its end, it goes on. -/
theorem Machine.run_extends (code : Code) {fuel fuel' : Nat} (hfuel : fuel ≤ fuel') (m : Machine) :
    (m.run evaluate' code fuel').Extends (m.run evaluate code fuel) := by
  -- By induction on the smaller amount of fuel.
  induction fuel generalizing fuel' m with
  | zero => exact fun hne => absurd rfl hne
  | succ fuel ih =>
    obtain ⟨fuel', rfl⟩ := Nat.exists_eq_add_one.mpr (Nat.zero_lt_of_lt hfuel)
    intro hne
    rw [run] at hne
    rw [run, run]
    -- The first step is the same, and the rest of the run has a step less to go on both sides.
    have hstep : m.step evaluate code ≠ .unfinished :=
      fun hunfinished => hne (by rw [hunfinished])
    rw [m.step_extends h code hstep]
    cases hs : m.step evaluate code with
    | finished status m' =>
      cases status with
      | running =>
        rw [hs] at hne
        exact ih (Nat.le_of_succ_le_succ hfuel) m' hne
      | halted => rfl
    | failed error m' => rfl
    | unfinished => rfl

end

/-- With more fuel a call has the same value, and fails the same way. -/
theorem evaluateCall_extends (table : FunctionTable) {fuel fuel' : Nat} (hfuel : fuel ≤ fuel') :
    (evaluateCall table fuel').Extends (evaluateCall table fuel) := by
  induction fuel generalizing fuel' with
  | zero => exact fun _ _ hne => absurd rfl hne
  | succ fuel ih =>
    obtain ⟨fuel', rfl⟩ := Nat.exists_eq_add_one.mpr (Nat.zero_lt_of_lt hfuel)
    have hle := Nat.le_of_succ_le_succ hfuel
    intro call env
    rw [evaluateCall, evaluateCall]
    cases table.find? call.function with
    | none => exact .refl _
    | some callee =>
      -- The function calls others with less fuel, and has less fuel for its own steps.
      refine (Argument.values_extends (ih hle) call.args env).bind fun values s hne => ?_
      have hrun : Machine.run (evaluateCall table fuel) callee.code fuel
          (.start callee values false) ≠ .unfinished :=
        fun hunfinished => hne (by rw [hunfinished])
      rw [Machine.run_extends (ih hle) callee.code hle _ hrun]

/-! ### Charges -/

section

variable {evaluate evaluate' : CallEvaluator}

/-- A call that has not run out of fuel does not do so in a fresh environment. -/
theorem CallEvaluator.Apart.fresh_ne_unfinished (h : evaluate.Apart) {call : Call}
    {env : Environment} (hne : evaluate call env ≠ .unfinished) :
    evaluate call (fresh env.bindings) ≠ .unfinished := by
  rw [h.detached call env] at hne
  intro hunfinished
  rw [hunfinished] at hne
  exact hne rfl

/-- A call that does not run out of fuel is worth the same with more. -/
theorem CallEvaluator.Extends.worth?_eq (h : evaluate'.Extends evaluate) {call : Call}
    {b : Bindings} (hne : evaluate call (fresh b) ≠ .unfinished) :
    evaluate'.worth? b call = evaluate.worth? b call := by
  rw [worth?, worth?, h call (fresh b) hne]

/-- The same amounts are charged for arguments that have been evaluated, or of which one has
failed. -/
theorem Argument.listCharges_extends (h : evaluate'.Extends evaluate) (hapart : evaluate.Apart)
    {charges charges' : Call → List Value} {b : Bindings}
    (hcharges : ∀ call, evaluate call (fresh b) ≠ .unfinished → charges' call = charges call)
    (args : List Argument) {env : Environment} (hb : env.bindings = b)
    (hne : values evaluate args env ≠ .unfinished) :
    listCharges evaluate' charges' b args = listCharges evaluate charges b args := by
  induction args generalizing env with
  | nil => rfl
  | cons arg rest ih =>
    cases arg with
    | var v => exact ih hb (Evaluation.ne_unfinished_of_bind hne)
    | nested function args =>
      have hcall := hapart.fresh_ne_unfinished (Evaluation.ne_unfinished_of_bind hne)
      rw [hb] at hcall
      rw [listCharges, listCharges, hcharges _ hcall, h.worth?_eq hcall]
      -- The other arguments matter only if this one has a value.
      cases he : evaluate ⟨function, args⟩ env with
      | unfinished => exact absurd he (Evaluation.ne_unfinished_of_bind hne)
      | failed error s => rw [← hb, hapart.worth?_eq, he]
      | finished value s =>
        obtain ⟨hworth, hs, -⟩ := hapart.of_finished he
        rw [values, he] at hne
        rw [← hb, hworth]
        simp only
        rw [hb, ih ((s.bindings_charge _).trans (hs.trans hb))
          (Evaluation.ne_unfinished_of_bind hne)]

end

/-- With more fuel the same amounts are charged for a call. -/
theorem Call.charges_extends (table : FunctionTable) {fuel fuel' : Nat} (hfuel : fuel ≤ fuel')
    {call : Call} {b : Bindings} (hne : evaluateCall table fuel call (fresh b) ≠ .unfinished) :
    charges table fuel' call b = charges table fuel call b := by
  -- The induction follows the nesting of calls: an argument has less fuel than the call around it.
  induction fuel generalizing fuel' call with
  | zero => exact absurd rfl hne
  | succ fuel ih =>
    obtain ⟨fuel', rfl⟩ := Nat.exists_eq_add_one.mpr (Nat.zero_lt_of_lt hfuel)
    have hle := Nat.le_of_succ_le_succ hfuel
    have hextends := evaluateCall_extends table hle
    rw [evaluateCall] at hne
    rw [charges, charges]
    cases hfind : table.find? call.function with
    | none => rfl
    | some callee =>
      simp only [hfind] at hne ⊢
      have hvalues := Evaluation.ne_unfinished_of_bind hne
      rw [Argument.listCharges_extends hextends (evaluateCall_apart table fuel)
          (fun call hcall => ih hle hcall) call.args rfl hvalues,
        Argument.values_extends hextends call.args _ hvalues]
      cases hargs : Argument.values (evaluateCall table fuel) call.args (fresh b) with
      | unfinished => rfl
      | failed error s => rfl
      | finished values s =>
        rw [hargs, Evaluation.bind_finished] at hne
        have hrun : Machine.run (evaluateCall table fuel) callee.code fuel
            (.start callee values false) ≠ .unfinished :=
          fun hunfinished => hne (by rw [hunfinished])
        simp only
        rw [Machine.run_extends hextends callee.code hle _ hrun]

/-- With more fuel the same amounts are charged for an instruction. -/
theorem Instruction.charges_extends (table : FunctionTable) {fuel fuel' : Nat}
    (hfuel : fuel ≤ fuel') {i : Instruction} {env : Environment}
    (hne : i.execute (evaluateCall table fuel) env ≠ .unfinished) :
    i.charges table fuel' env.bindings = i.charges table fuel env.bindings := by
  have hcall {call : Call} (hcall : evaluateCall table fuel call env ≠ .unfinished) :=
    (evaluateCall_apart table fuel).fresh_ne_unfinished hcall
  cases i with
  | quote dst call =>
    have hne := hcall (Evaluation.ne_unfinished_of_bind hne)
    simp only [charges, call?, Call.charges_extends table hfuel hne,
      (evaluateCall_extends table hfuel).worth?_eq hne]
  | jumpEqualCall v call target =>
    have hne := hcall (Evaluation.ne_unfinished_of_bind hne)
    simp only [charges, call?, Call.charges_extends table hfuel hne,
      (evaluateCall_extends table hfuel).worth?_eq hne]
  | _ => rfl

end CounterMachine
