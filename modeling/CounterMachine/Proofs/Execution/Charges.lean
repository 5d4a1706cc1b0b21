import CounterMachine.Proofs.Execution.Step

/-!
# What is charged

An instruction is charged for in several amounts: one for each function that is called, one for each
argument that is a call, and its own cost at the end. The amounts are listed here in their order,
for an instruction that comes to its end as well as for one that fails on the way. The meter adds
them up and is cut off at its largest value; the list is not.

## Key definitions

- `Call.charges`, `Instruction.charges`: the amounts that are charged
- `Environment.write`, `Environment.chargeAll`: what an instruction does to its environment

## Key results

- `Argument.values_charges`: arguments do nothing but charge their amounts, if calls do nothing else
- `evaluateCall_charges`: and calls do nothing else
- `Call.charges_of_run`: the amounts for a call whose function comes to its end
-/

namespace CounterMachine

open Environment (fresh)

/-- The amounts that are charged while arguments are evaluated, up to the first one that has no
value. -/
def Argument.listCharges (evaluate : CallEvaluator) (charges : Call → List Value) (b : Bindings) :
    List Argument → List Value
  | [] => []
  | .var _ :: rest => listCharges evaluate charges b rest
  | .nested function args :: rest =>
    charges ⟨function, args⟩ ++
      match evaluate.worth? b ⟨function, args⟩ with
      | some _ => Instruction.quoteCycles :: listCharges evaluate charges b rest
      | none => []

/-- The amounts that are charged to the caller while a call is evaluated: those for its arguments,
and what the meter of the function shows at the end. -/
def Call.charges (table : FunctionTable) : (fuel : Nat) → Call → Bindings → List Value
  | 0, _, _ => []
  | fuel + 1, call, b =>
    match table.find? call.function with
    | none => []
    | some callee =>
      Argument.listCharges (evaluateCall table fuel) (Call.charges table fuel · b) b call.args ++
        match Argument.values (evaluateCall table fuel) call.args (fresh b) with
        | .finished values _ =>
          match Machine.run (evaluateCall table fuel) callee.code fuel
            (.start callee values false) with
          | .finished _ m => [m.env.cycles]
          | _ => []
        | _ => []

/-- The amounts that are charged while an instruction is executed. Its own cost is charged unless it
makes a call that has no value. -/
def Instruction.charges (table : FunctionTable) (fuel : Nat) (i : Instruction) (b : Bindings) :
    List Value :=
  match i.call? with
  | none => [i.cycles]
  | some call =>
    Call.charges table fuel call b ++
      match (evaluateCall table fuel).worth? b call with
      | some _ => [i.cycles]
      | none => []

namespace Environment

/-- The environment after amounts have been charged. -/
def chargeAll (env : Environment) (amounts : List Value) : Environment :=
  { env with cycles := amounts.foldl Value.add env.cycles }

/-- The environment after a counter has been written, if there is one to be written. -/
def write (env : Environment) : Option (Variable × Value) → Environment
  | none => env
  | some (v, value) => env.set v value

@[simp] theorem bindings_chargeAll (env : Environment) (amounts : List Value) :
    (env.chargeAll amounts).bindings = env.bindings := rfl

/-- Charging does not change the contents of any counter. -/
theorem get_chargeAll (env : Environment) (amounts : List Value) :
    (env.chargeAll amounts).get = env.get :=
  get_congr (env.bindings_chargeAll amounts)

@[simp] theorem chargeAll_nil (env : Environment) : env.chargeAll [] = env := rfl

/-- Amounts may be charged in two lots. -/
theorem chargeAll_append (env : Environment) (xs ys : List Value) :
    env.chargeAll (xs ++ ys) = (env.chargeAll xs).chargeAll ys := by
  simp [chargeAll]

/-- The first amount is charged first. -/
theorem chargeAll_cons (env : Environment) (x : Value) (xs : List Value) :
    env.chargeAll (x :: xs) = (env.charge x).chargeAll xs := by
  cases env
  rfl

theorem chargeAll_singleton (env : Environment) (x : Value) :
    env.chargeAll [x] = env.charge x := by
  rw [chargeAll_cons, chargeAll_nil]

/-- A counter may be written before the amounts are charged or after. -/
theorem write_chargeAll (env : Environment) (written : Option (Variable × Value))
    (amounts : List Value) :
    (env.chargeAll amounts).write written = (env.write written).chargeAll amounts := by
  cases written <;> rfl

end Environment

section

variable {evaluate : CallEvaluator}

/-- A call is worth the same in every environment with the same bindings. -/
theorem CallEvaluator.Apart.worth?_eq (h : evaluate.Apart) (call : Call) (env : Environment) :
    evaluate.worth? env.bindings call =
      match evaluate call env with
      | .finished value _ => some value
      | _ => none := by
  rw [h.detached call env, worth?]
  cases evaluate call (fresh env.bindings) <;> rfl

/-- Arguments do nothing to the environment but charge their amounts, if calls do nothing else. -/
theorem Argument.values_charges (h : evaluate.Apart) {charges : Call → Bindings → List Value}
    (hcharges : ∀ call env, (evaluate call env).Leaves
      (· = env.chargeAll (charges call env.bindings)))
    (args : List Argument) (env : Environment) :
    (Argument.values evaluate args env).Leaves
      (· = env.chargeAll (listCharges evaluate (charges · env.bindings) env.bindings args)) := by
  induction args generalizing env with
  | nil => exact rfl
  | cons arg rest ih =>
    cases arg with
    | var v => exact (ih env).map _
    | nested function args =>
      have hcall := hcharges ⟨function, args⟩ env
      rw [values, listCharges]
      cases he : evaluate ⟨function, args⟩ env with
      | unfinished => trivial
      | failed error s =>
        rw [he] at hcall
        -- A call that fails still charges what it has come to, and no argument after it is reached.
        simp only [h.worth?_eq, he, List.append_nil]
        exact hcall
      | finished value s =>
        rw [he] at hcall
        obtain rfl : s = env.chargeAll _ := hcall
        -- The surcharge comes after the call, and then the other arguments.
        have hrest := ih ((env.chargeAll (charges ⟨function, args⟩ env.bindings)).charge
          Instruction.quoteCycles)
        rw [Environment.bindings_charge, Environment.bindings_chargeAll,
          ← Environment.chargeAll_cons, ← Environment.chargeAll_append] at hrest
        rw [(h.of_finished he).1]
        exact hrest.map _

end

/-- A call does nothing to the environment of the caller but charge its amounts. -/
theorem evaluateCall_charges (table : FunctionTable) (fuel : Nat) (call : Call)
    (env : Environment) :
    (evaluateCall table fuel call env).Leaves
      (· = env.chargeAll (Call.charges table fuel call env.bindings)) := by
  -- By the fuel: the calls in the arguments and in the function have less.
  induction fuel generalizing call env with
  | zero => trivial
  | succ fuel ih =>
    rw [evaluateCall, Call.charges]
    cases table.find? call.function with
    | none => exact rfl
    | some callee =>
      have hargs := Argument.values_charges (evaluateCall_apart table fuel) ih call.args env
      have hdetached := Argument.values_detached (evaluateCall_apart table fuel) call.args env
      simp only
      -- The arguments are evaluated in a fresh environment, whose meters `env` then absorbs.
      cases hvalues : Argument.values (evaluateCall table fuel) call.args (fresh env.bindings) with
      | unfinished =>
        rw [hvalues] at hdetached
        rw [hdetached]
        trivial
      | failed error s =>
        rw [hvalues] at hdetached
        rw [hdetached] at hargs ⊢
        rw [List.append_nil]
        exact hargs
      | finished values s =>
        rw [hvalues] at hdetached
        rw [hdetached] at hargs ⊢
        rw [Evaluation.mapState_finished, Evaluation.bind_finished]
        have hs : env.absorb s = env.chargeAll _ := hargs
        rw [hs, Environment.chargeAll_append]
        simp only
        -- The meter of the function itself is charged only if its run ends.
        cases Machine.run (evaluateCall table fuel) callee.code fuel
          (.start callee values false) with
        | unfinished => trivial
        | failed error m =>
          rw [Environment.chargeAll_nil]
          exact rfl
        | finished _ m =>
          rw [Environment.chargeAll_singleton]
          exact rfl

/-- A call of a function that is in the table. -/
theorem evaluateCall_of_find {table : FunctionTable} {call : Call} {callee : Program}
    (hfind : table.find? call.function = some callee) (fuel : Nat) (env : Environment) :
    evaluateCall table (fuel + 1) call env =
      (Argument.values (evaluateCall table fuel) call.args env).bind fun values s =>
        match Machine.run (evaluateCall table fuel) callee.code fuel
          (.start callee values false) with
        | .finished _ m => .finished (m.env.get .result) (s.charge m.env.cycles)
        | .failed error _ => .failed error s
        | .unfinished => .unfinished := by
  rewrite [evaluateCall, hfind]
  rfl

/-- The amounts that are charged for a call whose function comes to its end. -/
theorem Call.charges_of_run {table : FunctionTable} {fuel : Nat} {call : Call} {callee : Program}
    {env s : Environment} {values : List Value} {m : Machine}
    (hfind : table.find? call.function = some callee)
    (hvalues : Argument.values (evaluateCall table fuel) call.args env = .finished values s)
    (hrun : Machine.run (evaluateCall table fuel) callee.code fuel (.start callee values false) =
      .finished () m) :
    charges table (fuel + 1) call env.bindings =
      Argument.listCharges (evaluateCall table fuel) (charges table fuel · env.bindings)
        env.bindings call.args ++ [m.env.cycles] := by
  rw [Argument.values_detached (evaluateCall_apart table fuel) call.args env] at hvalues
  rw [charges, hfind]
  -- The charges are told for a fresh environment, where the arguments have the same values.
  cases hfresh : Argument.values (evaluateCall table fuel) call.args (fresh env.bindings) with
  | unfinished => rw [hfresh] at hvalues; cases hvalues
  | failed error s => rw [hfresh] at hvalues; cases hvalues
  | finished values' s' =>
    rw [hfresh] at hvalues
    obtain ⟨rfl, -⟩ := Evaluation.finished.inj hvalues
    simp only
    rw [hrun]

namespace Instruction

variable {table : FunctionTable} {fuel : Nat} {i : Instruction} {call : Call}

/-- Without a call, only the cost of the instruction is charged. -/
theorem charges_of_no_call (hcall : i.call? = none) (b : Bindings) :
    i.charges table fuel b = [i.cycles] := by
  rw [charges, hcall]

/-- If the call comes to its end, the instruction's own cost is charged last. -/
theorem charges_of_finished {env env' : Environment} {value : Value} (hcall : i.call? = some call)
    (hvalue : evaluateCall table fuel call env = .finished value env') :
    i.charges table fuel env.bindings =
      Call.charges table fuel call env.bindings ++ [i.cycles] := by
  rw [charges, hcall]
  simp only [(evaluateCall_apart table fuel).worth?_eq, hvalue]

/-- If the call fails, its amounts are all that is charged. -/
theorem charges_of_failed {env env' : Environment} {error : ExecutionError}
    (hcall : i.call? = some call) (herror : evaluateCall table fuel call env = .failed error env') :
    i.charges table fuel env.bindings = Call.charges table fuel call env.bindings := by
  rw [charges, hcall]
  simp only [(evaluateCall_apart table fuel).worth?_eq, herror, List.append_nil]

end Instruction

/-- A table with one function, which adds one to its input. -/
def FunctionTable.successor : FunctionTable :=
  ⟨[.ofLines "next" none (some [.input 1]) none
    [.plain (.assign .result (.input 1)), .plain (.increase .result)]]⟩

/-- The function of the argument, the surcharge, the function of the call and the instruction. -/
example : (Instruction.quote .result ⟨"next", [.nested "next" [.var (.input 1)]]⟩).charges
    .successor 4 ∅ = [4 + 1, 5, 4 + 1, 5] := rfl

end CounterMachine
