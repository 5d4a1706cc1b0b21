import CounterMachine.Proofs.Execution.Fuel
import CounterMachine.Proofs.Execution.Renaming

/-!
# Nested calls and calls in a row

An argument that is a call may as well be evaluated before, into a counter of its own, which is
passed in its place. The surcharge for an argument that is a call is what the assignment of its
result costs, so the same amounts are charged, in the same order.

The call in a call is evaluated with less fuel than the same call in a row, so the two sides come to
their ends with different fuel. That does not matter, since more fuel does not change an end.

## Key definitions

- `Call.sequence`: the assignments of the arguments that are calls, and then the call
- `Instruction.executeAll`, `Instruction.chargesAll`: instructions in a row, and their charges

## Key results

- `Argument.values_flatten`: the values of arguments, and of the counters they are assigned to
- `Instruction.quote_alike`: one fuel after the other, both sides come to the same end
- `Instruction.quote_sequence`: a call with nested calls is equivalent to calls in a row
-/

namespace CounterMachine

open Environment (fresh)

/-! ### Calls in a row -/

/-- The arguments that are calls, from left to right. -/
def Argument.nestedCalls : List Argument → List Call
  | [] => []
  | .var _ :: rest => nestedCalls rest
  | .nested function args :: rest => ⟨function, args⟩ :: nestedCalls rest

/-- The counters that are passed if counters are put in the place of calls. -/
def Argument.flatten : List Variable → List Argument → List Variable
  | _, [] => []
  | ts, .var v :: rest => v :: flatten ts rest
  | t :: ts, .nested _ _ :: rest => t :: flatten ts rest
  | [], .nested _ _ :: _ => []

/-- The arguments that are calls are assigned to counters. -/
def Argument.assignments (ts : List Variable) (args : List Argument) : List Instruction :=
  List.zipWith .quote ts (nestedCalls args)

/-- The call with counters in the place of the arguments that are calls. -/
def Call.flatten (call : Call) (ts : List Variable) : Call :=
  .ofVariables call.function (Argument.flatten ts call.args)

/-- The assignments of the arguments that are calls, and then the call with counters in their
place. -/
def Call.sequence (call : Call) (dst : Variable) (ts : List Variable) : List Instruction :=
  Argument.assignments ts call.args ++ [.quote dst (call.flatten ts)]

namespace Instruction

/-- Executes instructions one after the other, each of which has to come to its end. -/
def executeAll (evaluate : CallEvaluator) : List Instruction → Environment →
    Evaluation Environment Unit
  | [], env => .finished () env
  | i :: rest, env => (i.execute evaluate env).bind fun _ env => executeAll evaluate rest env

/-- The amounts that are charged while instructions are executed one after the other. -/
def chargesAll (table : FunctionTable) (fuel : Nat) : List Instruction → Environment → List Value
  | [], _ => []
  | i :: rest, env =>
    i.charges table fuel env.bindings ++
      match i.execute (evaluateCall table fuel) env with
      | .finished _ env => chargesAll table fuel rest env
      | _ => []

/-- An assignment of the result of a call, and what comes after it. -/
theorem executeAll_quote_cons (evaluate : CallEvaluator) (t : Variable) (call : Call)
    (rest : List Instruction) (env : Environment) :
    executeAll evaluate (quote t call :: rest) env =
      (evaluate call env).bind fun value s =>
        executeAll evaluate rest ((s.set t value).charge quoteCycles) := by
  rw [executeAll, execute]
  cases evaluate call env <;> rfl

/-- Of instructions in a row, the first ones are executed first. -/
theorem executeAll_append (evaluate : CallEvaluator) (is js : List Instruction)
    (env : Environment) :
    executeAll evaluate (is ++ js) env =
      (executeAll evaluate is env).bind fun _ env => executeAll evaluate js env := by
  induction is generalizing env with
  | nil => rfl
  | cons i rest ih =>
    rw [List.cons_append, executeAll, executeAll]
    cases i.execute evaluate env with
    | finished flow s => exact ih s
    | failed error s => rfl
    | unfinished => rfl

/-- The amounts for the first instructions come first, and what follows is charged for under the
bindings that they leave. -/
theorem chargesAll_append (table : FunctionTable) (fuel : Nat) (is js : List Instruction)
    {env s : Environment} (hs : executeAll (evaluateCall table fuel) is env = .finished () s) :
    chargesAll table fuel (is ++ js) env =
      chargesAll table fuel is env ++ chargesAll table fuel js s := by
  induction is generalizing env with
  | nil =>
    obtain ⟨-, rfl⟩ := Evaluation.finished.inj hs
    rfl
  | cons i rest ih =>
    obtain ⟨flow, s', hi, hrest⟩ := Evaluation.bind_eq_finished.mp hs
    rw [List.cons_append, chargesAll, chargesAll, hi, List.append_assoc]
    simp only
    rw [ih hrest]

/-- With more fuel, instructions in a row come to the same end. -/
theorem executeAll_extends {evaluate evaluate' : CallEvaluator} (h : evaluate'.Extends evaluate)
    (is : List Instruction) (env : Environment) :
    (executeAll evaluate' is env).Extends (executeAll evaluate is env) := by
  induction is generalizing env with
  | nil => exact .refl _
  | cons i rest ih => exact (i.execute_extends h env).bind fun _ s => ih s

/-- If instructions in a row come to an end, then more fuel does not change what is charged. -/
theorem chargesAll_extends (table : FunctionTable) {fuel fuel' : Nat} (hfuel : fuel ≤ fuel')
    (is : List Instruction) {env : Environment}
    (hne : executeAll (evaluateCall table fuel) is env ≠ .unfinished) :
    chargesAll table fuel' is env = chargesAll table fuel is env := by
  induction is generalizing env with
  | nil => rfl
  | cons i rest ih =>
    have hi : i.execute (evaluateCall table fuel) env ≠ .unfinished :=
      Evaluation.ne_unfinished_of_bind hne
    rw [chargesAll, chargesAll, charges_extends table hfuel hi,
      i.execute_extends (evaluateCall_extends table hfuel) env hi]
    cases hs : i.execute (evaluateCall table fuel) env with
    | finished flow s =>
      rw [executeAll, hs] at hne
      simp only
      rw [ih hne]
    | failed error s => rfl
    | unfinished => rfl

/-- The meter shows the amounts that have been charged for an instruction. -/
theorem execute_cycles (table : FunctionTable) (fuel : Nat) (i : Instruction)
    (env : Environment) :
    (i.execute (evaluateCall table fuel) env).Leaves fun s =>
      s.cycles = (i.charges table fuel env.bindings).foldl Value.add env.cycles := by
  -- An instruction is executed like itself, so what is known of renamed ones tells its charges.
  have hsame : ∀ v ∈ i.vars, env.get (id v) = env.get v := fun _ _ => rfl
  have hends := i.execute_rename table fuel (g := id) hsame fun _ _ => Iff.rfl
  cases hs : i.execute (evaluateCall table fuel) env with
  | finished flow s =>
    rw [hs] at hends
    obtain ⟨_, _, -, -, written, -, rfl, -⟩ := hends.of_finished
    -- Writing a counter leaves the meter alone.
    cases written <;> exact rfl
  | failed error s =>
    rw [hs] at hends
    obtain ⟨_, -, rfl, -⟩ := hends.of_failed
    exact rfl
  | unfinished => trivial

/-- The meter shows the amounts that have been charged for instructions in a row. -/
theorem executeAll_cycles (table : FunctionTable) (fuel : Nat) (is : List Instruction)
    (env : Environment) :
    (executeAll (evaluateCall table fuel) is env).Leaves fun s =>
      s.cycles = (chargesAll table fuel is env).foldl Value.add env.cycles := by
  induction is generalizing env with
  | nil => exact rfl
  | cons i rest ih =>
    have hi := i.execute_cycles table fuel env
    rw [executeAll, chargesAll, List.foldl_append]
    cases hs : i.execute (evaluateCall table fuel) env with
    | finished flow s =>
      rw [hs] at hi
      simp only
      -- The rest begins with what the first instruction has left on the meter.
      rw [← show s.cycles = _ from hi]
      exact ih s
    | failed error s =>
      rw [hs] at hi
      exact hi
    | unfinished => trivial

end Instruction

/-! ### Arguments that are assigned before -/

section

variable {evaluate : CallEvaluator}

/-- Counters are read without any effect. -/
theorem Argument.values_vars (evaluate : CallEvaluator) (vs : List Variable) (env : Environment) :
    values evaluate (vs.map .var) env = .finished (vs.map env.get) env := by
  induction vs with
  | nil => rfl
  | cons v rest ih =>
    rw [List.map_cons, values, ih]
    rfl

/-- If counters are put in the place of calls, nothing is left to be evaluated. -/
theorem Call.values_flatten (evaluate : CallEvaluator) (call : Call) (ts : List Variable)
    (env : Environment) : Argument.values evaluate (call.flatten ts).args env =
      .finished ((Argument.flatten ts call.args).map env.get) env :=
  Argument.values_vars ..

/-- Nothing is charged for reading counters. -/
theorem Argument.listCharges_vars (evaluate : CallEvaluator) (charges : Call → List Value)
    (b : Bindings) (vs : List Variable) : listCharges evaluate charges b (vs.map .var) = [] := by
  induction vs with
  | nil => rfl
  | cons v rest ih => exact ih

/-- A call has the same value where its counters have the same contents. -/
theorem CallEvaluator.Transparent.congr (h : evaluate.Transparent id) (call : Call)
    {env env' : Environment} (hget : ∀ v ∈ call.vars, env'.get v = env.get v) :
    (evaluate call env).SameResult (evaluate call env') := by
  have hends := h call env env' hget
  rwa [call.rename_id] at hends

/-- An assignment changes no other counter. -/
theorem Environment.get_assigned {env s : Environment} (hs : s.bindings = env.bindings)
    {t v : Variable} {value cycles : Value} (hv : v ≠ t) :
    ((s.set t value).charge cycles).get v = env.get v := by
  rw [get_charge, get_set, Store.set_of_ne _ _ hv, get_congr hs]

/-- The assignments of arguments that are calls come to the same end as the evaluation of the
arguments, and then the counters that are passed contain the values of the arguments. -/
theorem Argument.values_flatten (h : evaluate.Apart) (hcalls : evaluate.Transparent id)
    {ts : List Variable} {args : List Argument} (hlength : ts.length = (nestedCalls args).length)
    (hnodup : ts.Nodup) (hts : ∀ t ∈ ts, t ∉ listVars args) {env env' : Environment}
    (hget : ∀ v ∈ listVars args, env'.get v = env.get v) :
    Evaluation.Alike
      (fun values _ _ s' => values = (flatten ts args).map s'.get ∧
        ∀ v, v ∉ ts → s'.get v = env'.get v)
      (fun _ _ => True)
      (values evaluate args env) (Instruction.executeAll evaluate (assignments ts args) env') := by
  -- Each argument that is a call takes the next counter. The environments drift apart in the
  -- counters taken so far, which no other argument reads.
  induction args generalizing ts env env' with
  | nil =>
    obtain rfl := List.eq_nil_of_length_eq_zero hlength
    exact .finished ⟨rfl, fun _ _ => rfl⟩
  | cons arg rest ih =>
    obtain ⟨hgetHere, hgetRest⟩ := List.forall_mem_append.mp hget
    have htsRest : ∀ t ∈ ts, t ∉ listVars rest :=
      fun t ht hv => hts t ht (List.mem_append_right _ hv)
    cases arg with
    | var v =>
      have hv : v ∈ listVars (.var v :: rest) := List.mem_cons_self
      rw [values, flatten]
      refine (ih hlength hnodup htsRest hgetRest).map_left ?_
      rintro _ s _ s' ⟨rfl, hframe⟩
      refine ⟨?_, hframe⟩
      rw [List.map_cons, hframe v fun ht => hts v ht hv, hget v hv]
    | nested function args =>
      cases ts with
      | nil => cases hlength
      | cons t ts =>
        obtain ⟨ht, hnodup⟩ := List.nodup_cons.mp hnodup
        rw [values, flatten]
        show Evaluation.Alike _ _ _ (Instruction.executeAll evaluate
          (.quote t ⟨function, args⟩ :: assignments ts rest) env')
        rw [Instruction.executeAll_quote_cons]
        refine ((hcalls.congr ⟨function, args⟩ hgetHere).leaves (h.keeps _ env)
          (h.keeps _ env')).imp (fun _ _ _ _ => id) (fun _ _ _ => trivial) |>.bind ?_
        rintro _ s value s' ⟨rfl, hs, hs'⟩
        -- The counter is written here, and the rest neither reads nor writes it.
        have hgetAssigned : ∀ v ∈ listVars rest,
            ((s'.set t value).charge Instruction.quoteCycles).get v =
              (s.charge Instruction.quoteCycles).get v := fun v hv => by
          have hne : v ≠ t := fun heq => htsRest t List.mem_cons_self (heq ▸ hv)
          rw [Environment.get_assigned hs' hne, hgetRest v hv, Environment.get_charge,
            Environment.get_congr hs]
        refine (ih (Nat.succ.inj hlength) hnodup
          (fun u hu => htsRest u (List.mem_cons_of_mem _ hu)) hgetAssigned).map_left ?_
        rintro _ s₁ _ s₂ ⟨rfl, hframe⟩
        refine ⟨?_, fun v hv => ?_⟩
        · rw [List.map_cons, hframe t ht, Environment.get_charge, Environment.get_set,
            Store.set_self]
        · obtain ⟨hne, hrest⟩ := not_or.mp fun hmem => hv (List.mem_cons.mpr hmem)
          rw [hframe v hrest, Environment.get_assigned hs' hne]

end

/-- The assignments of arguments that are calls charge the same amounts as the evaluation of the
arguments. -/
theorem Argument.listCharges_assignments (table : FunctionTable) (fuel : Nat) {ts : List Variable}
    {args : List Argument} (hlength : ts.length = (nestedCalls args).length)
    (hts : ∀ t ∈ ts, t ∉ listVars args) {env env' : Environment}
    (hget : ∀ v ∈ listVars args, env'.get v = env.get v) :
    listCharges (evaluateCall table fuel) (Call.charges table fuel · env.bindings) env.bindings
        args =
      Instruction.chargesAll table fuel (assignments ts args) env' := by
  induction args generalizing ts env' with
  | nil =>
    obtain rfl := List.eq_nil_of_length_eq_zero hlength
    rfl
  | cons arg rest ih =>
    obtain ⟨hgetHere, hgetRest⟩ := List.forall_mem_append.mp hget
    have htsRest : ∀ t ∈ ts, t ∉ listVars rest :=
      fun t ht hv => hts t ht (List.mem_append_right _ hv)
    cases arg with
    | var v => exact ih hlength htsRest hgetRest
    | nested function args =>
      cases ts with
      | nil => cases hlength
      | cons t ts =>
        have hcharges := Call.charges_rename table fuel (f := id) ⟨function, args⟩ hgetHere
        have hworth := (evaluateCall_rename table fuel id).worth?_eq ⟨function, args⟩ hgetHere
        rw [Call.rename_id] at hcharges hworth
        -- The call is worth the same and charges the same in both environments.
        show _ = Instruction.chargesAll table fuel
          (.quote t ⟨function, args⟩ :: assignments ts rest) env'
        have hapart := evaluateCall_apart table fuel
        rw [listCharges, Instruction.chargesAll, ← hcharges, ← hworth, hapart.worth?_eq]
        cases he : evaluateCall table fuel ⟨function, args⟩ env' with
        | finished value s =>
          -- The surcharge is what the assignment costs.
          have hgetAssigned : ∀ v ∈ listVars rest,
              ((s.set t value).charge Instruction.quoteCycles).get v = env.get v := fun v hv => by
            have hne : v ≠ t := fun heq => htsRest t List.mem_cons_self (heq ▸ hv)
            rw [Environment.get_assigned (hapart.of_finished he).2.1 hne, hgetRest v hv]
          have hrest := ih (Nat.succ.inj hlength)
            (fun u hu => htsRest u (List.mem_cons_of_mem _ hu)) hgetAssigned
          rw [Instruction.charges_of_finished rfl he, List.append_assoc]
          simp only [Instruction.execute, he, Evaluation.bind_finished]
          rw [hrest]
          rfl
        | failed error s =>
          rw [Instruction.charges_of_failed rfl he]
          simp only [Instruction.execute, he, Evaluation.bind_failed]
        | unfinished =>
          simp only [Instruction.charges, Instruction.call?, hapart.worth?_eq, Instruction.execute,
            he, Evaluation.bind_unfinished, List.append_nil]

namespace Instruction

section

variable {table : FunctionTable} {dst : Variable} {call : Call} {ts : List Variable}
  {callee : Program}

/-- The last of the calls in a row charges what its function spends, and its own cost. -/
theorem chargesAll_flatten {fuel : Nat} {s : Environment} {m : Machine}
    (hfind : table.find? (call.flatten ts).function = some callee)
    (hrun : Machine.run (evaluateCall table fuel) callee.code fuel
      (.start callee ((Argument.flatten ts call.args).map s.get) false) = .finished () m) :
    chargesAll table (fuel + 1) [quote dst (call.flatten ts)] s = [m.env.cycles, quoteCycles] := by
  have hvalues := call.values_flatten (evaluateCall table fuel) ts s
  have hcall : evaluateCall table (fuel + 1) (call.flatten ts) s =
      .finished (m.env.get .result) (s.charge m.env.cycles) := by
    rw [evaluateCall_of_find hfind, hvalues, Evaluation.bind_finished, hrun]
  have hnested : Argument.listCharges (evaluateCall table fuel)
      (Call.charges table fuel · s.bindings) s.bindings (call.flatten ts).args = [] :=
    Argument.listCharges_vars ..
  rw [chargesAll, charges_of_finished rfl hcall, Call.charges_of_run hfind hvalues hrun, hnested]
  simp only [execute, hcall]
  rfl

/-- A call with nested calls and the calls in a row have left the same behind, but for the counters
that the nested calls are assigned to, and have charged the same amounts. -/
structure CallsAlike (table : FunctionTable) (fuel : Nat) (dst : Variable) (call : Call)
    (ts : List Variable) (env s s' : Environment) : Prop where
  value : s.get dst = s'.get dst
  frame : ∀ v, v ≠ dst → v ∉ ts → s'.get v = env.get v
  charges : (quote dst call).charges table fuel env.bindings =
    chargesAll table fuel (call.sequence dst ts) env

/-- Calls in a row leave the same behind with any fuel that suffices. -/
theorem executeAll_unique {is : List Instruction} {fuel fuel' : Nat} {env s s' : Environment}
    (h : executeAll (evaluateCall table fuel) is env = .finished () s)
    (h' : executeAll (evaluateCall table fuel') is env = .finished () s') :
    s = s' ∧ chargesAll table fuel is env = chargesAll table fuel' is env := by
  -- Both come to the end that the larger one of the two fuels leads to.
  have hle := Nat.le_max_left fuel fuel'
  have hle' := Nat.le_max_right fuel fuel'
  have hmax := (executeAll_extends (evaluateCall_extends table hle) is env).of_finished h
  have hmax' := (executeAll_extends (evaluateCall_extends table hle') is env).of_finished h'
  refine ⟨(Evaluation.finished.inj (hmax.symm.trans hmax')).2, ?_⟩
  rw [← chargesAll_extends table hle is (Evaluation.ne_unfinished_of_finished h),
    ← chargesAll_extends table hle' is (Evaluation.ne_unfinished_of_finished h')]

/-- An assignment of the result of a call changes no other counter. -/
theorem get_of_quote {fuel : Nat} {flow : Flow} {env s : Environment}
    (h : (quote dst call).execute (evaluateCall table fuel) env = .finished flow s) {v : Variable}
    (hv : v ≠ dst) : s.get v = env.get v := by
  obtain ⟨value, s', hvalue, hs⟩ := Evaluation.bind_eq_finished.mp h
  obtain ⟨-, rfl⟩ := Evaluation.finished.inj hs
  have hkeeps := (evaluateCall_apart table fuel).of_finished hvalue
  exact Environment.get_assigned hkeeps.2.1 hv

section

variable (hfind : table.find? call.function = some callee)
  (hlength : ts.length = (Argument.nestedCalls call.args).length) (hnodup : ts.Nodup)
  (hts : ∀ t ∈ ts, t ∉ call.vars)
include hfind hlength hnodup hts

variable (dst) in
/-- A call with nested calls comes to the same end as calls in a row, if the nested calls have the
same fuel on both sides and the function has. -/
theorem quote_alike (fuel : Nat) (env : Environment) :
    Evaluation.Alike
      (fun _ s _ s' => CallsAlike table (fuel + 1) dst call ts env s s') (fun _ _ => True)
      ((quote dst call).execute (evaluateCall table (fuel + 1)) env)
      ((executeAll (evaluateCall table fuel) (Argument.assignments ts call.args) env).bind
        fun _ s => executeAll (evaluateCall table (fuel + 1))
          [quote dst (call.flatten ts)] s) := by
  have hapart := evaluateCall_apart table fuel
  have hsame : ∀ v ∈ call.vars, env.get v = env.get v := fun _ _ => rfl
  have hargs := Argument.values_flatten hapart (evaluateCall_rename table fuel id) hlength hnodup
    hts hsame
  have hlast := call.values_flatten (evaluateCall table fuel) ts
  have hfindLast : table.find? (call.flatten ts).function = some callee := hfind
  have hdirect (env : Environment) := evaluateCall_of_find hfind fuel env
  have hflat (s : Environment) := evaluateCall_of_find hfindLast fuel s
  -- Up to the values of the arguments, both sides do the same.
  cases hvalues : Argument.values (evaluateCall table fuel) call.args env with
  | unfinished =>
    rw [hvalues] at hargs
    simp only [execute, hdirect, hvalues, hargs.of_unfinished, Evaluation.bind_unfinished]
    exact .unfinished
  | failed error s =>
    rw [hvalues] at hargs
    obtain ⟨s', hs', -⟩ := hargs.of_failed
    simp only [execute, hdirect, hvalues, hs', Evaluation.bind_failed]
    exact .failed trivial
  | finished values s =>
    rw [hvalues] at hargs
    obtain ⟨_, s', hs', rfl, hframe⟩ := hargs.of_finished
    -- Both sides go on with the same run of the function.
    simp only [execute, executeAll_quote_cons, hdirect, hvalues, hs', hflat, hlast,
      Evaluation.bind_finished]
    cases hrun : Machine.run (evaluateCall table fuel) callee.code fuel
        (.start callee ((Argument.flatten ts call.args).map s'.get) false) with
    | unfinished => exact .unfinished
    | failed error m => exact .failed trivial
    | finished _ m =>
      refine .finished ⟨?_, fun v hv hvts => ?_, ?_⟩
      · rw [Environment.get_charge, Environment.get_charge, Environment.get_set,
          Environment.get_set, Store.set_self, Store.set_self]
      · rw [Environment.get_assigned (s'.bindings_charge _) hv, hframe v hvts]
      · have hcall : evaluateCall table (fuel + 1) call env =
            .finished (m.env.get .result) (s.charge m.env.cycles) := by
          rw [hdirect, hvalues, Evaluation.bind_finished, hrun]
        have hassigned := (executeAll_extends (evaluateCall_extends table (Nat.le_succ fuel))
          (Argument.assignments ts call.args) env).of_finished hs'
        rw [charges_of_finished rfl hcall, Call.charges_of_run hfind hvalues hrun,
          Argument.listCharges_assignments table fuel hlength hts hsame,
          Call.sequence, chargesAll_append table (fuel + 1) _ _ hassigned,
          chargesAll_extends table (Nat.le_succ fuel) _ (Evaluation.ne_unfinished_of_finished hs'),
          chargesAll_flatten hfindLast hrun, List.append_assoc]
        rfl

/-- If a call with nested calls comes to an end, the calls in a row do so with the same fuel. -/
theorem quote_alike_sequence {fuel : Nat} {env : Environment}
    (hne : (quote dst call).execute (evaluateCall table fuel) env ≠ .unfinished) :
    Evaluation.Alike
      (fun _ s _ s' => CallsAlike table fuel dst call ts env s s') (fun _ _ => True)
      ((quote dst call).execute (evaluateCall table fuel) env)
      (executeAll (evaluateCall table fuel) (call.sequence dst ts) env) := by
  cases fuel with
  | zero => exact absurd rfl hne
  | succ fuel =>
    have hends := quote_alike dst hfind hlength hnodup hts fuel env
    rw [Call.sequence, executeAll_append]
    -- The nested calls have more fuel than they need.
    have hextends := (executeAll_extends (evaluateCall_extends table (Nat.le_succ fuel))
      (Argument.assignments ts call.args) env).bind fun _ s => .refl (executeAll
        (evaluateCall table (fuel + 1))
        [quote dst (call.flatten ts)] s)
    rw [hextends fun hunfinished => hne (hunfinished ▸ hends).symm.of_unfinished]
    exact hends

/-- If calls in a row come to an end, the call with nested calls does so with a little more fuel. -/
theorem sequence_alike_quote {fuel : Nat} {env : Environment}
    (hne : executeAll (evaluateCall table fuel) (call.sequence dst ts) env ≠ .unfinished) :
    Evaluation.Alike
      (fun _ s _ s' => CallsAlike table (fuel + 1) dst call ts env s s') (fun _ _ => True)
      ((quote dst call).execute (evaluateCall table (fuel + 1)) env)
      (executeAll (evaluateCall table fuel) (call.sequence dst ts) env) := by
  have hends := quote_alike dst hfind hlength hnodup hts fuel env
  rw [Call.sequence, executeAll_append] at hne ⊢
  -- The last call has more fuel than it needs.
  have hextends := (Evaluation.Extends.refl (executeAll (evaluateCall table fuel)
    (Argument.assignments ts call.args) env)).bind fun _ s =>
      executeAll_extends (evaluateCall_extends table (Nat.le_succ fuel))
        [quote dst (call.flatten ts)] s
  rw [← hextends hne]
  exact hends

end

end

/-- A call with nested calls is equivalent to calls in a row: the nested calls are assigned to
counters of their own, and these are passed to the call. Both come to their end or neither does, and
both fail with the same error or neither does. If they come to their ends, they leave the same
result and have charged the same amounts in the same order, so that the meters show the same. Only
the result has changed, and in a row the counters that the nested calls are assigned to. -/
theorem quote_sequence (table : FunctionTable) {dst : Variable} {call : Call} {ts : List Variable}
    (hcallee : table.contains call.function = true)
    (hlength : ts.length = (Argument.nestedCalls call.args).length) (hnodup : ts.Nodup)
    (hts : ∀ t ∈ ts, t ∉ call.vars) (env : Environment) :
    ((∃ fuel flow s, (quote dst call).execute (evaluateCall table fuel) env = .finished flow s) ↔
      ∃ fuel s, executeAll (evaluateCall table fuel) (call.sequence dst ts) env =
        .finished () s) ∧
    (∀ error,
      (∃ fuel s, (quote dst call).execute (evaluateCall table fuel) env = .failed error s) ↔
      ∃ fuel s, executeAll (evaluateCall table fuel) (call.sequence dst ts) env =
        .failed error s) ∧
    ∀ fuel fuel' flow s s',
      (quote dst call).execute (evaluateCall table fuel) env = .finished flow s →
      executeAll (evaluateCall table fuel') (call.sequence dst ts) env = .finished () s' →
        s.get dst = s'.get dst ∧
        (quote dst call).charges table fuel env.bindings =
          chargesAll table fuel' (call.sequence dst ts) env ∧
        s.cycles = s'.cycles ∧
        (∀ v, v ≠ dst → s.get v = env.get v) ∧ ∀ v, v ≠ dst → v ∉ ts → s'.get v = env.get v := by
  obtain ⟨callee, hfind⟩ := Option.isSome_iff_exists.mp hcallee
  -- Going to the row, the same fuel will do. Going back, it takes one more.
  refine ⟨⟨?_, ?_⟩, fun error => ⟨?_, ?_⟩, ?_⟩
  · rintro ⟨fuel, flow, s, h⟩
    have hends := quote_alike_sequence hfind hlength hnodup hts
      (Evaluation.ne_unfinished_of_finished h)
    rw [h] at hends
    obtain ⟨_, s', h', -⟩ := hends.of_finished
    exact ⟨fuel, s', h'⟩
  · rintro ⟨fuel, s', h'⟩
    have hends := (sequence_alike_quote hfind hlength hnodup hts
      (Evaluation.ne_unfinished_of_finished h')).symm
    rw [h'] at hends
    obtain ⟨flow, s, h, -⟩ := hends.of_finished
    exact ⟨fuel + 1, flow, s, h⟩
  · rintro ⟨fuel, s, h⟩
    have hends := quote_alike_sequence hfind hlength hnodup hts
      (Evaluation.ne_unfinished_of_failed h)
    rw [h] at hends
    obtain ⟨s', h', -⟩ := hends.of_failed
    exact ⟨fuel, s', h'⟩
  · rintro ⟨fuel, s', h'⟩
    have hends := (sequence_alike_quote hfind hlength hnodup hts
      (Evaluation.ne_unfinished_of_failed h')).symm
    rw [h'] at hends
    obtain ⟨s, h, -⟩ := hends.of_failed
    exact ⟨fuel + 1, s, h⟩
  · intro fuel fuel' flow s s' h h'
    have hends := quote_alike_sequence hfind hlength hnodup hts
      (Evaluation.ne_unfinished_of_finished h)
    rw [h] at hends
    obtain ⟨_, t, ht, halike⟩ := hends.of_finished
    -- The row has been executed with two fuels, and has left the same.
    obtain ⟨rfl, hsame⟩ := executeAll_unique ht h'
    have hcharges := halike.charges.trans hsame
    have hcycles := execute_cycles table fuel (quote dst call) env
    have hcycles' := executeAll_cycles table fuel' (call.sequence dst ts) env
    rw [h] at hcycles
    rw [h'] at hcycles'
    exact ⟨halike.value, hcharges, hcycles.trans (hcharges ▸ hcycles'.symm),
      fun v hv => get_of_quote h hv, halike.frame⟩

/-- A nested call with a call nested in it, beside a counter. The meter is almost full before. -/
theorem quote_sequence_full : ∃ s s',
    (quote .result ⟨"next", [.nested "next" [.nested "next" [.var (.input 1)]],
      .var .result]⟩).execute (evaluateCall .successor 5)
        ⟨.ofPairs [(.input 1, 3)], 18446744073709551600, #[]⟩ = .finished .fallThrough s ∧
    executeAll (evaluateCall .successor 5)
      [quote (.work 1) ⟨"next", [.nested "next" [.var (.input 1)]]⟩,
        quote .result ⟨"next", [.var (.work 1), .var .result]⟩]
      ⟨.ofPairs [(.input 1, 3)], 18446744073709551600, #[]⟩ = .finished () s' ∧
    s.get .result = s'.get .result ∧ s.cycles = s'.cycles ∧ s'.cycles = Value.max := by
  obtain ⟨s, h⟩ : ∃ s, (quote .result ⟨"next", [.nested "next" [.nested "next"
      [.var (.input 1)]], .var .result]⟩).execute (evaluateCall .successor 5)
        ⟨.ofPairs [(.input 1, 3)], 18446744073709551600, #[]⟩ = .finished .fallThrough s := ⟨_, rfl⟩
  obtain ⟨s', h', hfull⟩ : ∃ s', executeAll (evaluateCall .successor 5)
      (Call.sequence ⟨"next", [.nested "next" [.nested "next" [.var (.input 1)]], .var .result]⟩
        .result [.work 1])
      ⟨.ofPairs [(.input 1, 3)], 18446744073709551600, #[]⟩ = .finished () s' ∧
      s'.cycles = Value.max := ⟨_, rfl, rfl⟩
  obtain ⟨hvalue, -, hcycles, -⟩ := (quote_sequence .successor rfl rfl (by decide) (by decide)
    ⟨.ofPairs [(.input 1, 3)], 18446744073709551600, #[]⟩).2.2 5 5 _ s s' h h'
  exact ⟨s, s', h, h', hvalue, hcycles, hfull⟩

end Instruction

end CounterMachine
