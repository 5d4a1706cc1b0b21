import CounterMachine.Proofs.Degree.Basic
import CounterMachine.Proofs.Execution.Charges
import CounterMachine.Proofs.Lowering.Renaming
import CounterMachine.Proofs.Lowering.Uses
import Mathlib.Logic.Equiv.Basic

/-!
# Executions of renamed instructions

An execution looks only at the counters that the instruction lists, and it changes at most one of
them. So it does not matter what these counters are called, nor what other counters contain: two
environments in which the listed counters have the same contents, under whatever names, take the
instruction to the same end, with the same amounts charged on the way.

All statements are about executions with the same fuel. So an execution that never comes to its end,
whatever the fuel, does so on both sides.

## Key definitions

- `Evaluation.Alike`: two evaluations that come to the same end
- `CallEvaluator.Transparent`: renamed calls have the same values
- `Instruction.WroteAlike`: the same value has been written under two names

## Key results

- `evaluateCall_rename`, `Call.charges_rename`: a renamed call has the same value and charges
- `Instruction.execute_rename`: a renamed instruction does the same under the new names
- `Instruction.execute_vars`: what an instruction depends on and what it touches
- `Instruction.rename_transparent`: a renaming cannot be told from the execution
-/

namespace CounterMachine

open Environment (fresh)

namespace Evaluation

variable {σ τ α β γ δ : Type}

/-- Two evaluations come to the same end: both finish, or both meet the same fault, or both run out
of fuel. What they leave behind is related. -/
inductive Alike (done : α → σ → β → τ → Prop) (faulted : σ → τ → Prop) :
    Evaluation σ α → Evaluation τ β → Prop where
  | finished {a : α} {s : σ} {b : β} {t : τ} (h : done a s b t) :
    Alike done faulted (.finished a s) (.finished b t)
  | failed {error : ExecutionError} {s : σ} {t : τ} (h : faulted s t) :
    Alike done faulted (.failed error s) (.failed error t)
  | unfinished : Alike done faulted .unfinished .unfinished

namespace Alike

variable {done : α → σ → β → τ → Prop} {faulted : σ → τ → Prop} {e : Evaluation σ α}
  {e' : Evaluation τ β}

/-- An evaluation comes to the same end as itself. -/
theorem refl {done : α → σ → α → σ → Prop} {faulted : σ → σ → Prop} (hdone : ∀ a s, done a s a s)
    (hfaulted : ∀ s, faulted s s) (e : Evaluation σ α) : Alike done faulted e e := by
  cases e with
  | finished a s => exact .finished (hdone a s)
  | failed error s => exact .failed (hfaulted s)
  | unfinished => exact .unfinished

/-- Evaluations that come to the same end go on to the same end, if they go on alike. -/
theorem bind {done' : γ → σ → δ → τ → Prop} {next : α → σ → Evaluation σ γ}
    {next' : β → τ → Evaluation τ δ} (h : Alike done faulted e e')
    (hnext : ∀ a s b t, done a s b t → Alike done' faulted (next a s) (next' b t)) :
    Alike done' faulted (e.bind next) (e'.bind next') := by
  cases h with
  | finished h => exact hnext _ _ _ _ h
  | failed h => exact .failed h
  | unfinished => exact .unfinished

/-- Changing the values leaves the ends alike. -/
theorem map {done' : γ → σ → δ → τ → Prop} {f : α → γ} {f' : β → δ} (h : Alike done faulted e e')
    (hf : ∀ a s b t, done a s b t → done' (f a) s (f' b) t) :
    Alike done' faulted (e.map f) (e'.map f') :=
  h.bind fun a s b t hdone => .finished (hf a s b t hdone)

/-- Only the first of the two goes on. -/
theorem map_left {done' : γ → σ → β → τ → Prop} {f : α → γ} (h : Alike done faulted e e')
    (hf : ∀ a s b t, done a s b t → done' (f a) s b t) : Alike done' faulted (e.map f) e' := by
  cases h with
  | finished h => exact .finished (hf _ _ _ _ h)
  | failed h => exact .failed h
  | unfinished => exact .unfinished

/-- Less can be said of what is left behind. -/
theorem imp {done' : α → σ → β → τ → Prop} {faulted' : σ → τ → Prop} (h : Alike done faulted e e')
    (hdone : ∀ a s b t, done a s b t → done' a s b t)
    (hfaulted : ∀ s t, faulted s t → faulted' s t) : Alike done' faulted' e e' := by
  cases h with
  | finished h => exact .finished (hdone _ _ _ _ h)
  | failed h => exact .failed (hfaulted _ _ h)
  | unfinished => exact .unfinished

/-- What is alike to a value is a value. -/
theorem of_finished {a : α} {s : σ} (h : Alike done faulted (.finished a s) e') :
    ∃ b t, e' = .finished b t ∧ done a s b t := by
  cases h with
  | finished h => exact ⟨_, _, rfl, h⟩

/-- What is alike to a failure is the same failure. -/
theorem of_failed {error : ExecutionError} {s : σ} (h : Alike done faulted (.failed error s) e') :
    ∃ t, e' = .failed error t ∧ faulted s t := by
  cases h with
  | failed h => exact ⟨_, rfl, h⟩

/-- What is alike to running out of fuel runs out of it. -/
theorem of_unfinished (h : Alike done faulted (.unfinished : Evaluation σ α) e') :
    e' = .unfinished := by
  cases h
  rfl

/-- Being alike goes both ways. -/
theorem symm (h : Alike done faulted e e') :
    Alike (fun b t a s => done a s b t) (fun t s => faulted s t) e' e := by
  cases h with
  | finished h => exact .finished h
  | failed h => exact .failed h
  | unfinished => exact .unfinished

/-- What each of the two leaves behind is known on top. -/
theorem leaves {P : σ → Prop} {Q : τ → Prop} (h : Alike done faulted e e') (hs : e.Leaves P)
    (ht : e'.Leaves Q) :
    Alike (fun a s b t => done a s b t ∧ P s ∧ Q t) (fun s t => faulted s t ∧ P s ∧ Q t) e e' := by
  cases h with
  | finished h => exact .finished ⟨h, hs, ht⟩
  | failed h => exact .failed ⟨h, hs, ht⟩
  | unfinished => exact .unfinished

end Alike

/-- Both evaluations come to the same end, with the same result. -/
abbrev SameResult (e : Evaluation σ α) (e' : Evaluation τ α) : Prop :=
  Alike (fun a _ b _ => b = a) (fun _ _ => True) e e'

end Evaluation

/-! ### Renamed calls -/

section

variable {f : Variable → Variable} {evaluate : CallEvaluator}

/-- Renamed calls have the same values, in environments with the same contents. -/
def CallEvaluator.Transparent (evaluate : CallEvaluator) (f : Variable → Variable) : Prop :=
  ∀ (call : Call) (env env' : Environment), (∀ v ∈ call.vars, env'.get (f v) = env.get v) →
    (evaluate call env).SameResult (evaluate (call.rename f) env')

/-- Renamed arguments have the same values, if renamed calls have. -/
theorem Argument.values_rename (h : evaluate.Apart) (hcalls : evaluate.Transparent f)
    (args : List Argument) (env env' : Environment)
    (hget : ∀ v ∈ listVars args, env'.get (f v) = env.get v) :
    (values evaluate args env).SameResult (values evaluate (renameList f args) env') := by
  -- Argument by argument, in any two environments with the same contents.
  induction args generalizing env env' with
  | nil => exact .finished rfl
  | cons arg rest ih =>
    obtain ⟨hhere, hrest⟩ := List.forall_mem_append.mp hget
    cases arg with
    | var v =>
      have hv : env'.get (f v) = env.get v := hhere v (List.mem_singleton_self v)
      rw [renameList, rename, values, values]
      exact (ih env env' hrest).map fun _ _ _ _ heq => by rw [hv, heq]
    | nested function args =>
      rw [renameList, rename, values, values]
      -- The calls leave the counters alone, so the other arguments find them as they were.
      refine ((hcalls ⟨function, args⟩ env env' hhere).leaves (h.keeps _ env)
        (h.keeps _ env')).imp (fun _ _ _ _ => id) (fun _ _ _ => trivial) |>.bind ?_
      rintro value s _ s' ⟨rfl, hs, hs'⟩
      refine (ih _ _ fun v hv => ?_).map fun _ _ _ _ heq => by rw [heq]
      rw [Environment.get_charge, Environment.get_charge, Environment.get_congr hs,
        Environment.get_congr hs', hrest v hv]

/-- Renamed calls have the same values, whatever functions they call. -/
theorem evaluateCall_rename (table : FunctionTable) (fuel : Nat) (f : Variable → Variable) :
    (evaluateCall table fuel).Transparent f := by
  -- The fuel bounds how deep calls nest, so the arguments and the function have less of it.
  induction fuel with
  | zero => exact fun _ _ _ _ => .unfinished
  | succ fuel ih =>
    intro call env env' hget
    rw [evaluateCall, evaluateCall, Call.rename]
    cases table.find? call.function with
    | none => exact .failed trivial
    | some callee =>
      refine (Argument.values_rename (evaluateCall_apart table fuel) ih call.args env env'
        hget).bind ?_
      rintro _ s values s' rfl
      -- The function runs in an environment of its own.
      cases Machine.run (evaluateCall table fuel) callee.code fuel
        (.start callee values false) with
      | finished _ m => exact .finished rfl
      | failed error m => exact .failed trivial
      | unfinished => exact .unfinished

/-- A renamed call is worth the same. -/
theorem CallEvaluator.Transparent.worth?_eq (hcalls : evaluate.Transparent f) (call : Call)
    {b b' : Bindings} (hread : ∀ v ∈ call.vars, b'.read (f v) = b.read v) :
    evaluate.worth? b' (call.rename f) = evaluate.worth? b call := by
  -- Fresh environments with such bindings have the same contents.
  have hends := hcalls call (fresh b) (fresh b') hread
  unfold worth?
  cases he : evaluate call (fresh b) with
  | finished value s =>
    rw [he] at hends
    obtain ⟨_, s', he', rfl⟩ := hends.of_finished
    rw [he']
  | failed error s =>
    rw [he] at hends
    obtain ⟨s', he', -⟩ := hends.of_failed
    rw [he']
  | unfinished =>
    rw [he] at hends
    rw [hends.of_unfinished]

/-- The same amounts are charged for renamed arguments, if they are for renamed calls. -/
theorem Argument.listCharges_rename (hcalls : evaluate.Transparent f) (args : List Argument)
    (charges charges' : Call → List Value) {b b' : Bindings}
    (hcharges : ∀ call : Call, (∀ v ∈ call.vars, b'.read (f v) = b.read v) →
      charges' (call.rename f) = charges call)
    (hread : ∀ v ∈ listVars args, b'.read (f v) = b.read v) :
    listCharges evaluate charges' b' (renameList f args) = listCharges evaluate charges b args := by
  induction args with
  | nil => rfl
  | cons arg rest ih =>
    obtain ⟨hhere, hrest⟩ := List.forall_mem_append.mp hread
    cases arg with
    | var v => exact ih hrest
    | nested function args =>
      have hcall : charges' ⟨function, renameList f args⟩ = charges ⟨function, args⟩ :=
        hcharges ⟨function, args⟩ hhere
      have hworth : evaluate.worth? b' ⟨function, renameList f args⟩ =
          evaluate.worth? b ⟨function, args⟩ :=
        hcalls.worth?_eq ⟨function, args⟩ hhere
      -- Whether the list goes on behind a call depends on whether the call has got a value.
      rw [renameList, rename, listCharges, listCharges, hcall, hworth, ih hrest]

/-- The same amounts are charged for a renamed call. -/
theorem Call.charges_rename (table : FunctionTable) (fuel : Nat) (call : Call) {b b' : Bindings}
    (hread : ∀ v ∈ call.vars, b'.read (f v) = b.read v) :
    charges table fuel (call.rename f) b' = charges table fuel call b := by
  -- By induction on the fuel, which bounds the nesting of calls.
  induction fuel generalizing call with
  | zero => rfl
  | succ fuel ih =>
    rw [charges, charges, Call.rename]
    cases table.find? call.function with
    | none => rfl
    | some callee =>
      have hargs := Argument.listCharges_rename (evaluateCall_rename table fuel f) call.args
        (charges table fuel · b) (charges table fuel · b') (fun call => ih call) hread
      have hvalues := Argument.values_rename (evaluateCall_apart table fuel)
        (evaluateCall_rename table fuel f) call.args (fresh b) (fresh b') hread
      simp only
      rw [hargs]
      -- Both evaluations of the arguments come to the same end, so the same branch is taken.
      cases he : Argument.values (evaluateCall table fuel) call.args (fresh b) with
      | finished values s =>
        rw [he] at hvalues
        obtain ⟨_, s', he', rfl⟩ := hvalues.of_finished
        rw [he']
      | failed error s =>
        rw [he] at hvalues
        obtain ⟨s', he', -⟩ := hvalues.of_failed
        rw [he']
      | unfinished =>
        rw [he] at hvalues
        rw [hvalues.of_unfinished]

/-- Both environments have been charged the same amounts, and nothing else has happened. -/
def Environment.ChargedAlike (amounts : List Value) (env env' s s' : Environment) : Prop :=
  s = env.chargeAll amounts ∧ s' = env'.chargeAll amounts

/-- A renamed call has the same value and charges the same amounts, also if it fails. -/
theorem evaluateCall_rename_charges (table : FunctionTable) (fuel : Nat) (call : Call)
    {env env' : Environment} (hget : ∀ v ∈ call.vars, env'.get (f v) = env.get v) :
    Evaluation.Alike
      (fun value s value' s' => value' = value ∧
        Environment.ChargedAlike (Call.charges table fuel call env.bindings) env env' s s')
      (Environment.ChargedAlike (Call.charges table fuel call env.bindings) env env')
      (evaluateCall table fuel call env) (evaluateCall table fuel (call.rename f) env') := by
  have hleaves := evaluateCall_charges table fuel (call.rename f) env'
  rw [Call.charges_rename table fuel call hget] at hleaves
  exact ((evaluateCall_rename table fuel f call env env' hget).leaves
    (evaluateCall_charges table fuel call env) hleaves).imp (fun _ _ _ _ => id) fun _ _ => And.right

/-! ### Renamed instructions -/

/-- Where control goes with the label replaced. -/
def Flow.rename (g : Label → Label) : Flow → Flow
  | fallThrough => fallThrough
  | goto label => goto (g label)
  | exit => exit

/-- A jump to the new name of a label is the renamed jump, if the renaming keeps `EXIT` apart. -/
theorem Flow.rename_jump {g : Label → Label} {target : Label}
    (h : g target = .exit ↔ target = .exit) : jump (g target) = (jump target).rename g := by
  have hisExit (x : Label) : x.isExit = true ↔ x = .exit := by cases x <;> simp [Label.isExit]
  unfold jump
  simp only [hisExit, h]
  split <;> rfl

/-- So is a jump under a condition. -/
theorem Flow.rename_jumpIf {g : Label → Label} {target : Label}
    (h : g target = .exit ↔ target = .exit) (condition : Bool) :
    jumpIf condition (g target) = (jumpIf condition target).rename g := by
  cases condition with
  | false => rfl
  | true => exact rename_jump h

/-- Where labels keep their names control goes to the same place. -/
theorem Flow.rename_id (flow : Flow) : flow.rename id = flow := by
  cases flow <;> rfl

namespace Instruction

/-- The same amounts are charged for a renamed instruction. -/
theorem charges_rename (table : FunctionTable) (fuel : Nat) (i : Instruction)
    (g : Label → Label) {b b' : Bindings} (hread : ∀ v ∈ i.vars, b'.read (f v) = b.read v) :
    (i.rename f g).charges table fuel b' = i.charges table fuel b := by
  -- Only the call is charged for under names; what the instruction costs itself is its kind.
  have hcall (call : Call) (hread : ∀ v ∈ call.vars, b'.read (f v) = b.read v) :
      Call.charges table fuel (call.rename f) b' = Call.charges table fuel call b ∧
        (evaluateCall table fuel).worth? b' (call.rename f) =
          (evaluateCall table fuel).worth? b call :=
    ⟨Call.charges_rename table fuel call hread,
      (evaluateCall_rename table fuel f).worth?_eq call hread⟩
  cases i with
  | quote dst call =>
    obtain ⟨hcharges, hworth⟩ := hcall call fun v hv => hread v (List.mem_cons_of_mem _ hv)
    simp only [rename, charges, call?, hcharges, hworth]
    rfl
  | jumpEqualCall v call target =>
    obtain ⟨hcharges, hworth⟩ := hcall call fun v hv => hread v (List.mem_cons_of_mem _ hv)
    simp only [rename, charges, call?, hcharges, hworth]
    rfl
  | _ => rfl

/-- What is written to a counter, written to its new name. -/
def renameWrite (f : Variable → Variable) :
    Option (Variable × Value) → Option (Variable × Value)
  | none => none
  | some (v, value) => some (f v, value)

/-- Both environments have got the same value for the counter that the instruction writes, if it
writes one, and have been charged the same amounts. Nothing else has happened. -/
def WroteAlike (i : Instruction) (f : Variable → Variable) (amounts : List Value)
    (env env' s s' : Environment) : Prop :=
  ∃ written : Option (Variable × Value), (∀ w ∈ written, i.written? = some w.1) ∧
    Environment.ChargedAlike amounts (env.write written) (env'.write (renameWrite f written)) s s'

section

variable {table : FunctionTable} {fuel : Nat} {i : Instruction} {g : Label → Label}
  {env env' : Environment}

/-- An instruction that makes no call charges its own cost, and that is all. -/
theorem alike_of_no_call (written : Option (Variable × Value)) {flow flow' : Flow}
    (hcall : i.call? = none) (hwritten : ∀ w ∈ written, i.written? = some w.1)
    (hflow : flow' = flow.rename g) :
    Evaluation.Alike
      (fun flow s flow' s' => flow' = flow.rename g ∧
        i.WroteAlike f (i.charges table fuel env.bindings) env env' s s')
      (Environment.ChargedAlike (i.charges table fuel env.bindings) env env')
      (.finished flow ((env.write written).charge i.cycles))
      (.finished flow' ((env'.write (renameWrite f written)).charge (i.rename f g).cycles)) := by
  rw [charges_of_no_call hcall, cycles_rename]
  exact .finished ⟨hflow, written, hwritten, (Environment.chargeAll_singleton ..).symm,
    (Environment.chargeAll_singleton ..).symm⟩

/-- A call charges its amounts first, and if it has no value they are all. -/
theorem alike_of_call {call : Call} (written : Value → Option (Variable × Value))
    {flow flow' : Value → Environment → Flow} (hcall : i.call? = some call)
    (hget : ∀ v ∈ call.vars, env'.get (f v) = env.get v)
    (hwritten : ∀ value, ∀ w ∈ written value, i.written? = some w.1)
    (hflow : ∀ value s s', s.get = env.get → s'.get = env'.get →
      flow' value s' = (flow value s).rename g) :
    Evaluation.Alike
      (fun flow s flow' s' => flow' = flow.rename g ∧
        i.WroteAlike f (i.charges table fuel env.bindings) env env' s s')
      (Environment.ChargedAlike (i.charges table fuel env.bindings) env env')
      ((evaluateCall table fuel call env).bind fun value s =>
        .finished (flow value s) ((s.write (written value)).charge i.cycles))
      ((evaluateCall table fuel (call.rename f) env').bind fun value s =>
        .finished (flow' value s)
          ((s.write (renameWrite f (written value))).charge (i.rename f g).cycles)) := by
  have hends := evaluateCall_rename_charges table fuel call hget
  rw [cycles_rename]
  cases he : evaluateCall table fuel call env with
  | unfinished =>
    rw [he] at hends
    rw [hends.of_unfinished]
    exact .unfinished
  | failed error s =>
    rw [he] at hends
    obtain ⟨s', he', hcharged⟩ := hends.of_failed
    rw [he', charges_of_failed hcall he]
    exact .failed hcharged
  | finished value s =>
    rw [he] at hends
    obtain ⟨value', s', he', hvalue, rfl, rfl⟩ := hends.of_finished
    rw [he', hvalue, charges_of_finished hcall he]
    -- The call has left the counters alone, so the jump is decided alike.
    refine .finished ⟨hflow value _ _ (env.get_chargeAll _) (env'.get_chargeAll _),
      written value, hwritten value, ?_, ?_⟩
    · rw [Environment.write_chargeAll, Environment.chargeAll_append,
        Environment.chargeAll_singleton]
    · rw [Environment.write_chargeAll, Environment.chargeAll_append,
        Environment.chargeAll_singleton]

end

/-- A renamed instruction does the same under the new names: it comes to the same end, goes to the
new name of the label, writes the same value to the new name of the counter, and is charged for in
the same amounts. -/
theorem execute_rename (table : FunctionTable) (fuel : Nat) (i : Instruction) {g : Label → Label}
    {env env' : Environment} (hget : ∀ v ∈ i.vars, env'.get (f v) = env.get v)
    (hexit : ∀ target, i.target? = some target → (g target = .exit ↔ target = .exit)) :
    Evaluation.Alike
      (fun flow s flow' s' => flow' = flow.rename g ∧
        i.WroteAlike f (i.charges table fuel env.bindings) env env' s s')
      (Environment.ChargedAlike (i.charges table fuel env.bindings) env env')
      (i.execute (evaluateCall table fuel) env)
      ((i.rename f g).execute (evaluateCall table fuel) env') := by
  -- Instructions without a call read the same and write the same; the other two first make their
  -- call.
  cases i with
  | neutral v => exact alike_of_no_call none rfl nofun rfl
  | increase v =>
    simp only [execute, rename, hget v (List.mem_singleton_self v)]
    exact alike_of_no_call (some (v, Value.succ (env.get v))) rfl (by simp [written?])
      rfl
  | decrease v =>
    simp only [execute, rename, hget v (List.mem_singleton_self v)]
    exact alike_of_no_call (some (v, Value.pred (env.get v))) rfl (by simp [written?])
      rfl
  | jumpNotZero v target =>
    simp only [execute, rename, hget v (List.mem_singleton_self v)]
    exact alike_of_no_call none rfl nofun (Flow.rename_jumpIf (hexit target rfl) _)
  | zero v => exact alike_of_no_call (some (v, 0)) rfl (by simp [written?]) rfl
  | assign dst src =>
    simp only [execute, rename, hget src (by simp [vars])]
    exact alike_of_no_call (some (dst, env.get src)) rfl (by simp [written?]) rfl
  | assignConstant v value =>
    exact alike_of_no_call (some (v, value)) rfl (by simp [written?]) rfl
  | goto target =>
    exact alike_of_no_call none rfl nofun (Flow.rename_jump (hexit target rfl))
  | jumpZero v target =>
    simp only [execute, rename, hget v (List.mem_singleton_self v)]
    exact alike_of_no_call none rfl nofun (Flow.rename_jumpIf (hexit target rfl) _)
  | jumpEqual v rhs target =>
    -- An operand is a counter under its new name, or a constant.
    have hrhs : env'.operand (rhs.rename f) = env.operand rhs := by
      cases rhs with
      | var w => exact hget w (by simp [vars, Operand.vars])
      | const value => rfl
    simp only [execute, rename, hget v (by simp [vars]), hrhs]
    exact alike_of_no_call none rfl nofun (Flow.rename_jumpIf (hexit target rfl) _)
  | quote dst call =>
    exact alike_of_call (fun value => some (dst, value)) rfl
      (fun v hv => hget v (List.mem_cons_of_mem _ hv)) (by simp [written?]) fun _ _ _ _ _ => rfl
  | jumpEqualCall v call target =>
    refine alike_of_call (fun _ => none) rfl
      (fun v hv => hget v (List.mem_cons_of_mem _ hv)) (fun _ => nofun) fun value s s' hs hs' => ?_
    rw [hs, hs', hget v (by simp [vars])]
    exact Flow.rename_jumpIf (hexit target rfl) _

/-- Where counters keep their names the same counter is written. -/
theorem renameWrite_id (written : Option (Variable × Value)) :
    renameWrite id written = written := by
  cases written <;> rfl

/-- An execution depends on the counters that the instruction lists, and touches one of them at
most: where these have the same contents, it comes to the same end and goes to the same place, the
same amounts are charged, and the same counter gets the same value. The other counters and the
recorded steps stay as they are, and if it fails all counters do. -/
theorem execute_vars (table : FunctionTable) (fuel : Nat) (i : Instruction)
    {env₁ env₂ : Environment} (hget : ∀ v ∈ i.vars, env₁.get v = env₂.get v) :
    i.charges table fuel env₁.bindings = i.charges table fuel env₂.bindings ∧
      Evaluation.Alike
        (fun flow₁ s₁ flow₂ s₂ => flow₁ = flow₂ ∧ ∃ written : Option (Variable × Value),
          (∀ w ∈ written, w.1 ∈ i.vars) ∧
          s₁ = (env₁.write written).chargeAll (i.charges table fuel env₁.bindings) ∧
          s₂ = (env₂.write written).chargeAll (i.charges table fuel env₂.bindings))
        (fun s₁ s₂ => s₁ = env₁.chargeAll (i.charges table fuel env₁.bindings) ∧
          s₂ = env₂.chargeAll (i.charges table fuel env₂.bindings))
        (i.execute (evaluateCall table fuel) env₁) (i.execute (evaluateCall table fuel) env₂) := by
  -- Names that are replaced by themselves are a special case of other names.
  have hsame : ∀ v ∈ i.vars, env₂.get (id v) = env₁.get v := fun v hv => (hget v hv).symm
  have hcharges := i.charges_rename table fuel id (f := id) hsame
  have hends := i.execute_rename table fuel (f := id) (g := id) hsame fun _ _ => Iff.rfl
  rw [i.rename_id] at hcharges hends
  rw [hcharges]
  refine ⟨rfl, hends.imp ?_ fun _ _ => id⟩
  rintro flow₁ s₁ flow₂ s₂ ⟨hflow, written, hwritten, h₁, h₂⟩
  rw [renameWrite_id] at h₂
  exact ⟨hflow.trans flow₁.rename_id |>.symm, written,
    fun w hw => mem_vars_of_written? (hwritten w hw), h₁, h₂⟩

/-- A function of a function is called in two environments, of which one has a counter and cycles
that the other has not. -/
theorem execute_vars_nested :
    (∀ v ∈ (quote .result ⟨"next", [.nested "next" [.var (.input 1)]]⟩).vars,
      (fresh (.ofPairs [(.input 1, 3)])).get v =
        (Environment.mk (.ofPairs [(.input 1, 3), (.work 1, 9)]) 7 #[]).get v) ∧
    ∃ s₁ s₂ written,
      (quote .result ⟨"next", [.nested "next" [.var (.input 1)]]⟩).execute
        (evaluateCall .successor 4) (fresh (.ofPairs [(.input 1, 3)])) =
          .finished .fallThrough s₁ ∧
      (quote .result ⟨"next", [.nested "next" [.var (.input 1)]]⟩).execute
        (evaluateCall .successor 4) ⟨.ofPairs [(.input 1, 3), (.work 1, 9)], 7, #[]⟩ =
          .finished .fallThrough s₂ ∧
      s₁ = ((fresh (.ofPairs [(.input 1, 3)])).write written).chargeAll [5, 5, 5, 5] ∧
      s₂ = (Environment.write ⟨.ofPairs [(.input 1, 3), (.work 1, 9)], 7, #[]⟩ written).chargeAll
        [5, 5, 5, 5] := by
  have hget : ∀ v ∈ (quote .result ⟨"next", [.nested "next" [.var (.input 1)]]⟩).vars,
      (fresh (.ofPairs [(.input 1, 3)])).get v =
        (Environment.mk (.ofPairs [(.input 1, 3), (.work 1, 9)]) 7 #[]).get v := by decide
  have hends := (execute_vars .successor 4 _ hget).2
  obtain ⟨s₁, h₁⟩ : ∃ s₁, (quote .result ⟨"next", [.nested "next" [.var (.input 1)]]⟩).execute
      (evaluateCall .successor 4) (fresh (.ofPairs [(.input 1, 3)])) =
        .finished .fallThrough s₁ := ⟨_, rfl⟩
  obtain ⟨s₂, h₂⟩ : ∃ s₂, (quote .result ⟨"next", [.nested "next" [.var (.input 1)]]⟩).execute
      (evaluateCall .successor 4) ⟨.ofPairs [(.input 1, 3), (.work 1, 9)], 7, #[]⟩ =
        .finished .fallThrough s₂ := ⟨_, rfl⟩
  rw [h₁, h₂] at hends
  cases hends with
  | finished hdone =>
    obtain ⟨-, written, -, hs₁, hs₂⟩ := hdone
    exact ⟨hget, s₁, s₂, written, h₁, h₂, hs₁, hs₂⟩

/-- What is written under a new name stands there, if no two names become one. -/
theorem get_renameWrite {env env' : Environment} (hf : f.Injective)
    (hget : ∀ x, env'.get (f x) = env.get x) (written : Option (Variable × Value)) (x : Variable) :
    (env'.write (renameWrite f written)).get (f x) = (env.write written).get x := by
  cases written with
  | none => exact hget x
  | some w =>
    -- What is read is the counter that was written, or another one, on both sides.
    rw [renameWrite, Environment.write, Environment.write, Environment.get_set,
      Environment.get_set, Store.set_apply, Store.set_apply, hget]
    simp only [hf.eq_iff]

/-- A counter that is no new name keeps its contents. -/
theorem get_renameWrite_of_ne {env' : Environment} {v : Variable} (hv : ∀ x, f x ≠ v)
    (written : Option (Variable × Value)) :
    (env'.write (renameWrite f written)).get v = env'.get v := by
  cases written with
  | none => rfl
  | some w =>
    rw [renameWrite, Environment.write, Environment.get_set, Store.set_of_ne _ _ (hv w.1).symm]

/-- A renaming that keeps counters apart, and sends no other label to `EXIT` and `EXIT` to no other,
cannot be told from the execution: it comes to the same end, goes to the new name of the label, and
is charged for in the same amounts. Afterwards the counters have the same contents under their new
names, and what has no old name is as it was. Nor can it be told from the declared cost, the degree
and the functions that are called, and the counters are listed in the same order. -/
theorem rename_transparent (table : FunctionTable) (fuel : Nat) (i : Instruction)
    {g : Label → Label} {env env' : Environment} (hf : f.Injective)
    (hexit : ∀ target, i.target? = some target → (g target = .exit ↔ target = .exit))
    (hget : ∀ x, env'.get (f x) = env.get x) :
    Evaluation.Alike
      (fun flow s flow' s' => flow' = flow.rename g ∧
        s.cycles = (i.charges table fuel env.bindings).foldl Value.add env.cycles ∧
        s'.cycles = (i.charges table fuel env.bindings).foldl Value.add env'.cycles ∧
        (∀ x, s'.get (f x) = s.get x) ∧ ∀ v, (∀ x, f x ≠ v) → s'.get v = env'.get v)
      (Environment.ChargedAlike (i.charges table fuel env.bindings) env env')
      (i.execute (evaluateCall table fuel) env)
      ((i.rename f g).execute (evaluateCall table fuel) env') ∧
    (i.rename f g).charges table fuel env'.bindings = i.charges table fuel env.bindings ∧
    (i.rename f g).cycles = i.cycles ∧
    (∀ degreeOf, (i.rename f g).degree degreeOf = i.degree degreeOf) ∧
    (i.rename f g).callees = i.callees ∧
    (i.rename f g).vars = i.vars.map f := by
  refine ⟨?_, i.charges_rename table fuel g fun v _ => hget v, i.cycles_rename, fun degreeOf =>
    degree_rename degreeOf f g fun v _ w _ => @hf v w, callees_rename f g i, i.vars_rename f g⟩
  refine (i.execute_rename table fuel (fun v _ => hget v) hexit).imp ?_ fun _ _ => id
  rintro flow s flow' s' ⟨hflow, written, -, rfl, rfl⟩
  refine ⟨hflow, ?_, ?_, fun x => ?_, fun v hv => ?_⟩
  · cases written <;> rfl
  · cases written <;> rfl
  · rw [Environment.get_chargeAll, Environment.get_chargeAll, get_renameWrite hf hget]
  · rw [Environment.get_chargeAll, get_renameWrite_of_ne hv]

/-- The result and a work counter change their names, and so does a label. The instruction jumps
because the function of zero is one. -/
theorem rename_transparent_swap :
    (∀ x, (fresh (.ofPairs [(.work 1, 1)])).get (Equiv.swap .result (.work 1) x) =
      (fresh (.ofPairs [(.result, 1)])).get x) ∧
    ∃ s s',
      (jumpEqualCall .result ⟨"next", [.var (.input 1)]⟩ (.numbered 1)).execute
        (evaluateCall .successor 4) (fresh (.ofPairs [(.result, 1)])) =
          .finished (.goto (.numbered 1)) s ∧
      (jumpEqualCall (.work 1) ⟨"next", [.var (.input 1)]⟩ (.numbered 8)).execute
        (evaluateCall .successor 4) (fresh (.ofPairs [(.work 1, 1)])) =
          .finished (.goto (.numbered 8)) s' ∧
      s'.cycles = s.cycles ∧ ∀ x, s'.get (Equiv.swap .result (.work 1) x) = s.get x := by
  have hget (x : Variable) : (fresh (.ofPairs [(.work 1, 1)])).get
      (Equiv.swap .result (.work 1) x) = (fresh (.ofPairs [(.result, 1)])).get x := by
    have hread (v w : Variable) : (fresh (.ofPairs [(v, 1)])).get w = if v = w then 1 else 0 :=
      Bindings.read_bind ∅ v w 1
    have hiff := (Equiv.swap Variable.result (.work 1)).injective.eq_iff (a := .result) (b := x)
    rw [Equiv.swap_apply_left] at hiff
    simp only [hread, hiff]
  obtain ⟨s, h⟩ : ∃ s,
      (jumpEqualCall .result ⟨"next", [.var (.input 1)]⟩ (.numbered 1)).execute
        (evaluateCall .successor 4) (fresh (.ofPairs [(.result, 1)])) =
          .finished (.goto (.numbered 1)) s := ⟨_, rfl⟩
  obtain ⟨s', h'⟩ : ∃ s',
      ((jumpEqualCall .result ⟨"next", [.var (.input 1)]⟩ (.numbered 1)).rename
        (Equiv.swap .result (.work 1)) fun _ => .numbered 8).execute
        (evaluateCall .successor 4) (fresh (.ofPairs [(.work 1, 1)])) =
          .finished (.goto (.numbered 8)) s' := ⟨_, rfl⟩
  have hends := (rename_transparent .successor 4
    (jumpEqualCall .result ⟨"next", [.var (.input 1)]⟩ (.numbered 1)) (g := fun _ => .numbered 8)
    (Equiv.injective _) (fun target htarget => by cases htarget; decide) hget).1
  rw [h, h'] at hends
  cases hends with
  | finished hdone =>
    obtain ⟨-, hcycles, hcycles', hnames, -⟩ := hdone
    exact ⟨hget, s, s', h, h', hcycles'.trans hcycles.symm, hnames⟩

end Instruction

end

end CounterMachine
