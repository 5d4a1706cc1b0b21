import CounterMachine.Proofs.Semantics.Machine

/-!
# Runs without fuel

More fuel never changes an answer that has been given. So there is an oracle without fuel, which
answers what any amount of fuel answers, and runs that ask this oracle come to the ends that runs
of the machine come to.

## Key results

- `Call.answer_mono`: more fuel, same answer
- `oracle_eq`: the oracle answers a call by running the function, asking itself
- `Program.run_ok`, `Program.exists_run_ok`: the ends of runs of a program
-/

namespace CounterMachine

/-- An oracle answers at least what another one answers. -/
def Extends (ask' ask : Oracle) : Prop :=
  ∀ call σ, ask call σ ≠ .never → ask' call σ = ask call σ

/-- A run from a configuration comes to an end. -/
def Ends (ask : Oracle) (lines : List Line) (c e : RunState) : Prop :=
  e.Ended ∧ ∃ n, (RunState.next ask lines)^[n] c = e

section

variable {ask ask' : Oracle} {lines : List Line} {c : RunState}

/-- If an answer comes after something, then that was answered as well. -/
theorem Reply.ne_never_of_bind {α β : Type} {r : Reply α} {next : α → Reply β}
    (h : r.bind next ≠ .never) : r ≠ .never := by
  rintro rfl
  exact h rfl

/-! ### Ends of runs -/

/-- A run that has ended makes no further step. -/
theorem RunState.next_of_ended (h : c.Ended) : c.next ask lines = c := by
  cases c with
  | running position σ => exact absurd h id
  | halted σ => rfl
  | faulted => rfl

/-- It makes none however often a step is tried. -/
theorem RunState.iterate_next_of_ended (h : c.Ended) (n : Nat) :
    (RunState.next ask lines)^[n] c = c :=
  Function.iterate_fixed (next_of_ended h) n

/-- A run that has ended stays where it is. -/
theorem RunState.iterate_next_add {m : Nat} (h : ((RunState.next ask lines)^[m] c).Ended)
    (n : Nat) :
    (RunState.next ask lines)^[n + m] c = (RunState.next ask lines)^[m] c := by
  rw [Function.iterate_add_apply, iterate_next_of_ended h]

/-- A run that has ended after some number of steps is at the same end after any larger number. -/
theorem RunState.iterate_next_of_le {m n : Nat} (h : ((RunState.next ask lines)^[m] c).Ended)
    (hmn : m ≤ n) : (RunState.next ask lines)^[n] c = (RunState.next ask lines)^[m] c := by
  obtain ⟨k, rfl⟩ := Nat.exists_eq_add_of_le' hmn
  exact iterate_next_add h k

/-- A run comes to one end only. -/
theorem Ends.unique {e e' : RunState} (h : Ends ask lines c e) (h' : Ends ask lines c e') :
    e = e' := by
  obtain ⟨he, m, rfl⟩ := h
  obtain ⟨he', n, rfl⟩ := h'
  rcases Nat.le_total m n with hle | hle
  · exact (RunState.iterate_next_of_le he hle).symm
  · exact RunState.iterate_next_of_le he' hle

open Classical in
/-- What comes of a run in the end. -/
noncomputable def RunState.outcome (ask : Oracle) (lines : List Line) (c : RunState) :
    Reply Value :=
  if h : ∃ n, ((RunState.next ask lines)^[n] c).Ended then
    ((RunState.next ask lines)^[h.choose] c).result
  else .never

/-- What comes of a run that ends is the result of its end. -/
theorem RunState.outcome_of_ends {e : RunState} (h : Ends ask lines c e) :
    c.outcome ask lines = e.result := by
  have hex : ∃ n, ((RunState.next ask lines)^[n] c).Ended := by
    obtain ⟨he, n, rfl⟩ := h
    exact ⟨n, he⟩
  rw [outcome, dif_pos hex, Ends.unique ⟨hex.choose_spec, _, rfl⟩ h]

/-- Nothing comes of a run that does not end. -/
theorem RunState.outcome_of_never (h : ∀ n, ¬ ((RunState.next ask lines)^[n] c).Ended) :
    c.outcome ask lines = .never := by
  rw [outcome, dif_neg fun ⟨n, hn⟩ => h n hn]

/-! ### Oracles that answer more -/

variable (hask : Extends ask' ask)
include hask

/-- An argument that has been answered is answered alike by an oracle that answers more. -/
theorem Argument.answer_extends (arg : Argument) (σ : Store) (h : arg.answer ask σ ≠ .never) :
    arg.answer ask' σ = arg.answer ask σ := by
  cases arg with
  | var v => rfl
  | nested function args => exact hask _ σ h

/-- So are several arguments: if the last one has been answered, then all before it have been. -/
theorem Argument.answers_extends (args : List Argument) (σ : Store)
    (h : Argument.answers ask args σ ≠ .never) :
    Argument.answers ask' args σ = Argument.answers ask args σ := by
  induction args with
  | nil => rfl
  | cons arg rest ih =>
    rw [answers] at h
    rw [answers, answers, answer_extends hask arg σ (Reply.ne_never_of_bind h)]
    cases ha : arg.answer ask σ with
    | value value =>
      rw [ha, Reply.bind_value] at h
      rw [Reply.bind_value, Reply.bind_value, ih (Reply.ne_never_of_bind h)]
    | fault => rfl
    | never => rfl

/-- And an instruction whose call has been answered has got the same effect. -/
theorem Instruction.effect_extends (i : Instruction) (σ : Store)
    (h : i.effect ask σ ≠ .never) : i.effect ask' σ = i.effect ask σ := by
  cases i with
  | quote dst call => simp only [effect, hask call σ (Reply.ne_never_of_bind h)]
  | jumpEqualCall v call target => simp only [effect, hask call σ (Reply.ne_never_of_bind h)]
  | _ => rfl

/-- A run that has ended does not ask for more. -/
theorem RunState.iterate_next_extends (n : Nat) (c : RunState)
    (h : ((RunState.next ask lines)^[n] c).Ended) :
    (RunState.next ask' lines)^[n] c = (RunState.next ask lines)^[n] c := by
  induction n generalizing c with
  | zero => rfl
  | succ n ih =>
    rw [Function.iterate_succ_apply] at h
    rw [Function.iterate_succ_apply, Function.iterate_succ_apply]
    -- The first step is the same with both oracles, and the rest is by induction.
    suffices heq : c.next ask' lines = c.next ask lines by rw [heq, ih _ h]
    cases c with
    | halted σ => rfl
    | faulted => rfl
    | running position σ =>
      cases hline : lines[position]? with
      | none => simp only [next, hline]
      | some line =>
        have hne : line.instruction.effect ask σ ≠ .never := by
          intro hnever
          -- Without an answer the run would stay here.
          have hstay : RunState.next ask lines (.running position σ) = .running position σ := by
            simp only [next, hline, hnever]
          rw [hstay, Function.iterate_fixed hstay] at h
          exact h
        simp only [next, hline, Instruction.effect_extends hask _ σ hne]

end

/-! ### Fuel -/

/-- More fuel does not change an answer. -/
theorem Call.answer_mono (table : FunctionTable) (fuel : Nat) :
    Extends (Call.answer table (fuel + 1)) (Call.answer table fuel) := by
  -- By induction on the fuel: the function asks for its own calls with one less.
  induction fuel with
  | zero => exact fun _ _ h => absurd rfl h
  | succ fuel ih =>
    intro call σ h
    rw [answer] at h
    rw [answer, answer]
    cases hfind : table.find? call.function with
    | none => rfl
    | some callee =>
      simp only [hfind] at h ⊢
      rw [Argument.answers_extends ih _ σ (Reply.ne_never_of_bind h)]
      cases ha : Argument.answers (answer table fuel) call.args σ with
      | fault => rfl
      | never => rfl
      | value values =>
        rw [ha, Reply.bind_value] at h
        -- A run that gives an answer has ended within its fuel.
        have hended : ((RunState.next (answer table fuel) callee.lines)^[fuel]
            (.running 0 (.initial callee.inputs values))).Ended := by
          cases hc : (RunState.next (answer table fuel) callee.lines)^[fuel]
              (.running 0 (.initial callee.inputs values)) with
          | running position σ' => rw [hc] at h; exact absurd rfl h
          | halted σ' => exact trivial
          | faulted => exact trivial
        rw [Reply.bind_value, Reply.bind_value]
        -- So it does not ask for more, and further steps leave it where it is.
        have hmore := RunState.iterate_next_extends ih _ _ hended
        rw [← hmore] at hended
        rw [RunState.iterate_next_of_le hended (Nat.le_succ fuel), hmore]

/-- Nor does any larger amount of fuel. -/
theorem Call.answer_of_le (table : FunctionTable) {m n : Nat} (h : m ≤ n) :
    Extends (Call.answer table n) (Call.answer table m) := by
  induction h with
  | refl => exact fun _ _ _ => rfl
  | step _ ih =>
    intro call σ hne
    have heq := ih call σ hne
    rw [answer_mono table _ call σ (heq ▸ hne), heq]

open Classical in
/-- The oracle that answers what any amount of fuel answers. -/
noncomputable def FunctionTable.oracle (table : FunctionTable) : Oracle := fun call σ =>
  if h : ∃ fuel, Call.answer table fuel call σ ≠ .never then Call.answer table h.choose call σ
  else .never

section

variable {table : FunctionTable}

/-- The oracle answers what any amount of fuel answers, and it answers the same. -/
theorem FunctionTable.oracle_extends (fuel : Nat) :
    Extends table.oracle (Call.answer table fuel) := by
  intro call σ hne
  have hex : ∃ fuel, Call.answer table fuel call σ ≠ .never := ⟨fuel, hne⟩
  rw [oracle, dif_pos hex]
  rcases Nat.le_total fuel hex.choose with hle | hle
  · exact Call.answer_of_le table hle call σ hne
  · exact (Call.answer_of_le table hle call σ hex.choose_spec).symm

/-- Some fuel suffices for an answer. -/
theorem FunctionTable.exists_answer {call : Call} {σ : Store} (h : table.oracle call σ ≠ .never) :
    ∃ fuel, Call.answer table fuel call σ = table.oracle call σ := by
  rw [oracle] at h ⊢
  split at h
  · rename_i hex
    exact ⟨hex.choose, by rw [dif_pos hex]⟩
  · exact absurd rfl h

/-- What some amount of fuel answers, any larger amount answers. -/
theorem FunctionTable.answer_of_eq {call : Call} {σ : Store} {m n : Nat} (hmn : m ≤ n)
    (h : Call.answer table m call σ = table.oracle call σ) :
    Call.answer table n call σ = table.oracle call σ := by
  by_cases hne : Call.answer table m call σ = .never
  · -- Then nothing is ever answered.
    rw [← h, hne]
    by_contra hn
    rw [← table.oracle_extends n call σ hn, ← h] at hn
    exact hn hne
  · rw [Call.answer_of_le table hmn call σ hne, h]

/-- From some amount of fuel on, a call is answered like the oracle answers it, if it answers at
all. -/
theorem FunctionTable.exists_answer' (table : FunctionTable) (call : Call) (σ : Store) :
    ∃ m, ∀ n, m ≤ n → Call.answer table n call σ = table.oracle call σ := by
  by_cases h : table.oracle call σ = .never
  · refine ⟨0, fun n _ => ?_⟩
    by_contra hn
    rw [h] at hn
    exact hn ((table.oracle_extends n call σ hn).symm.trans h)
  · obtain ⟨m, hm⟩ := exists_answer h
    exact ⟨m, fun n hmn => answer_of_eq hmn hm⟩

/-- Some fuel suffices for the values of arguments. -/
theorem Argument.exists_answers (table : FunctionTable) (args : List Argument) (σ : Store) :
    ∃ m, ∀ n, m ≤ n →
      Argument.answers (Call.answer table n) args σ = Argument.answers table.oracle args σ := by
  induction args with
  | nil => exact ⟨0, fun _ _ => rfl⟩
  | cons arg rest ih =>
    obtain ⟨m, hm⟩ := ih
    cases arg with
    | var v => exact ⟨m, fun n hn => by rw [answers, answers, hm n hn]; rfl⟩
    | nested function args =>
      obtain ⟨k, hk⟩ := table.exists_answer' ⟨function, args⟩ σ
      -- Fuel for the call, and for the arguments behind it.
      refine ⟨max m k, fun n hn => ?_⟩
      rw [answers, answers, hm n (by omega), answer, answer, hk n (by omega)]

/-- Some fuel suffices for an instruction. -/
theorem Instruction.exists_effect (table : FunctionTable) (i : Instruction) (σ : Store) :
    ∃ m, ∀ n, m ≤ n → i.effect (Call.answer table n) σ = i.effect table.oracle σ := by
  cases i with
  | quote dst call =>
    obtain ⟨m, hm⟩ := table.exists_answer' call σ
    exact ⟨m, fun n hn => by simp only [effect, hm n hn]⟩
  | jumpEqualCall v call target =>
    obtain ⟨m, hm⟩ := table.exists_answer' call σ
    exact ⟨m, fun n hn => by simp only [effect, hm n hn]⟩
  | _ => exact ⟨0, fun _ _ => rfl⟩

/-- Some fuel suffices for a step. -/
theorem RunState.exists_next (table : FunctionTable) (lines : List Line) (c : RunState) :
    ∃ m, ∀ n, m ≤ n → c.next (Call.answer table n) lines = c.next table.oracle lines := by
  cases c with
  | halted σ => exact ⟨0, fun _ _ => rfl⟩
  | faulted => exact ⟨0, fun _ _ => rfl⟩
  | running position σ =>
    cases hline : lines[position]? with
    | none => exact ⟨0, fun _ _ => by simp only [next, hline]⟩
    | some line =>
      obtain ⟨m, hm⟩ := line.instruction.exists_effect table σ
      exact ⟨m, fun n hn => by simp only [next, hline, hm n hn]⟩

/-- Some fuel suffices for a run of a number of steps. -/
theorem RunState.exists_iterate (table : FunctionTable) (lines : List Line) (steps : Nat)
    (c : RunState) :
    ∃ m, ∀ n, m ≤ n → (RunState.next (Call.answer table n) lines)^[steps] c =
      (RunState.next table.oracle lines)^[steps] c := by
  induction steps generalizing c with
  | zero => exact ⟨0, fun _ _ => rfl⟩
  | succ steps ih =>
    obtain ⟨m, hm⟩ := exists_next table lines c
    obtain ⟨k, hk⟩ := ih (c.next table.oracle lines)
    refine ⟨max m k, fun n hn => ?_⟩
    rw [Function.iterate_succ_apply, Function.iterate_succ_apply, hm n (by omega),
      hk n (by omega)]

/-- What comes of running a function on values. -/
noncomputable def Program.outcome (table : FunctionTable) (p : Program) (values : List Value) :
    Reply Value :=
  RunState.outcome table.oracle p.lines (.running 0 (.initial p.inputs values))

/-- Some fuel, for calls and for steps, suffices for what comes of running a function. -/
theorem Program.exists_outcome (table : FunctionTable) (p : Program) (values : List Value) :
    ∃ m, ∀ n, m ≤ n → ((RunState.next (Call.answer table n) p.lines)^[n]
      (.running 0 (.initial p.inputs values))).result = p.outcome table values := by
  rw [outcome]
  generalize RunState.running 0 (.initial p.inputs values) = c
  -- Either the run ends, after a number of steps that some fuel allows, or no fuel makes it end.
  by_cases hend : ∃ n, ((RunState.next table.oracle p.lines)^[n] c).Ended
  · obtain ⟨l, hl⟩ := hend
    obtain ⟨m, hm⟩ := RunState.exists_iterate table p.lines l c
    refine ⟨max m l, fun n hn => ?_⟩
    rw [RunState.outcome_of_ends ⟨hl, l, rfl⟩]
    rw [← hm n (by omega)] at hl ⊢
    rw [RunState.iterate_next_of_le hl (by omega)]
  · refine ⟨0, fun n _ => ?_⟩
    rw [RunState.outcome_of_never fun n hn => hend ⟨n, hn⟩]
    by_cases hended : ((RunState.next (Call.answer table n) p.lines)^[n] c).Ended
    · -- Then a run that asks the oracle would have ended too.
      rw [← RunState.iterate_next_extends (table.oracle_extends n) _ _ hended] at hended
      exact absurd ⟨n, hended⟩ hend
    · cases hc : (RunState.next (Call.answer table n) p.lines)^[n] c with
      | running position σ => rfl
      | _ => exact absurd (hc ▸ trivial) hended

/-- The oracle answers a call by running the function, and asks itself on the way. -/
theorem FunctionTable.oracle_eq (table : FunctionTable) (call : Call) (σ : Store) :
    table.oracle call σ =
      match table.find? call.function with
      | none => .fault
      | some callee =>
        (Argument.answers table.oracle call.args σ).bind (callee.outcome table) := by
  -- With fuel enough for the call, for its arguments and for the run of the function, one unfolding
  -- of the answer shows the equation.
  obtain ⟨m, hm⟩ := table.exists_answer' call σ
  cases hfind : table.find? call.function with
  | none => rw [← hm (m + 1) (Nat.le_succ m), Call.answer, hfind]
  | some callee =>
    simp only
    obtain ⟨k, hk⟩ := Argument.exists_answers table call.args σ
    cases ha : Argument.answers table.oracle call.args σ with
    | fault =>
      rw [← hm (max m k + 1) (by omega), Call.answer, hfind]
      simp only [hk _ (Nat.le_max_right m k), ha, Reply.bind_fault]
    | never =>
      rw [← hm (max m k + 1) (by omega), Call.answer, hfind]
      simp only [hk _ (Nat.le_max_right m k), ha, Reply.bind_never]
    | value values =>
      obtain ⟨l, hl⟩ := callee.exists_outcome table values
      have hargs := hk (max (max m k) l) (by omega)
      have hrun := hl (max (max m k) l) (by omega)
      rw [← hm (max (max m k) l + 1) (by omega), Call.answer, hfind]
      simp only [hargs, ha, Reply.bind_value, hrun]

end

/-! ### Runs of programs -/

namespace Program

/-- A run of a program over stores, without fuel, comes to an end. -/
def RunsTo (p : Program) (values : List Value) (e : RunState) : Prop :=
  Ends p.callable.oracle p.lines (.running 0 (.initial p.inputs values)) e

variable {p : Program} {fuel : Nat} {values : List Value}

/-- A run of the machine with fuel is a run over stores with the answers that the same fuel
gives. -/
private theorem run_shows (p : Program) (fuel : Nat) (values : List Value) :
    (Machine.run (evaluateCall p.callable fuel) p.code fuel (.start p values true)).Shows
      ((RunState.next (Call.answer p.callable fuel) p.lines)^[fuel]
        (.running 0 (.initial p.inputs values))) :=
  Machine.start_shows (evaluateCall_tells _ fuel) p fuel values true

/-- Where a run with fuel has ended, the run without fuel ends. -/
private theorem runsTo_of_answer {e : RunState} (he : e.Ended)
    (h : (RunState.next (Call.answer p.callable fuel) p.lines)^[fuel]
      (.running 0 (.initial p.inputs values)) = e) : p.RunsTo values e := by
  subst h
  exact ⟨he, fuel, RunState.iterate_next_extends (p.callable.oracle_extends fuel) _ _ he⟩

/-- A run that is finished shows what the run over stores ends with. -/
theorem run_ok {o : RunOutcome} (h : p.run fuel values = some (.ok o)) :
    ∃ σ, p.RunsTo values (.halted σ) ∧ o.result = σ .result ∧ ∀ v, o.bindings.read v = σ v := by
  have hshows := run_shows p fuel values
  rw [run, runIn] at h
  cases hm : Machine.run (evaluateCall p.callable fuel) p.code fuel (.start p values true) with
  | finished _ m =>
    rw [hm] at hshows h
    cases h
    exact ⟨m.env.get, runsTo_of_answer trivial hshows, rfl, fun _ => rfl⟩
  | failed error m => rw [hm] at h; cases h
  | unfinished => rw [hm] at h; cases h

/-- A run that fails shows that the run over stores meets a fault. -/
theorem run_error {error : ExecutionError} (h : p.run fuel values = some (.error error)) :
    p.RunsTo values .faulted := by
  have hshows := run_shows p fuel values
  rw [run, runIn] at h
  cases hm : Machine.run (evaluateCall p.callable fuel) p.code fuel (.start p values true) with
  | finished _ m => rw [hm] at h; cases h
  | failed error m => rw [hm] at hshows; exact runsTo_of_answer trivial hshows
  | unfinished => rw [hm] at h; cases h

/-- Where the run over stores ends, so does a run with fuel enough. -/
private theorem exists_answer_of_runsTo {e : RunState} (h : p.RunsTo values e) :
    ∃ fuel, (RunState.next (Call.answer p.callable fuel) p.lines)^[fuel]
      (.running 0 (.initial p.inputs values)) = e := by
  obtain ⟨he, n, hn⟩ := h
  -- Enough fuel is needed for the answers and for the steps.
  obtain ⟨m, hm⟩ := RunState.exists_iterate p.callable p.lines n
    (.running 0 (.initial p.inputs values))
  have hfuel := (hm (max m n) (by omega)).trans hn
  refine ⟨max m n, ?_⟩
  rw [RunState.iterate_next_of_le (hfuel ▸ he) (Nat.le_max_right m n), hfuel]

/-- Where the run over stores halts, a run with fuel enough is finished. -/
theorem exists_run_ok {σ : Store} (h : p.RunsTo values (.halted σ)) :
    ∃ fuel o, p.run fuel values = some (.ok o) := by
  obtain ⟨fuel, hfuel⟩ := exists_answer_of_runsTo h
  have hshows := run_shows p fuel values
  rw [hfuel] at hshows
  refine ⟨fuel, ?_⟩
  rw [run, runIn]
  cases hm : Machine.run (evaluateCall p.callable fuel) p.code fuel (.start p values true) with
  | finished _ m => exact ⟨_, rfl⟩
  | failed error m => rw [hm] at hshows; cases hshows
  | unfinished => rw [hm] at hshows; exact absurd trivial hshows

/-- It shows what the run over stores ends with. -/
theorem exists_run_eq {σ : Store} (h : p.RunsTo values (.halted σ)) :
    ∃ fuel o, p.run fuel values = some (.ok o) ∧ o.result = σ .result ∧
      ∀ v, o.bindings.read v = σ v := by
  obtain ⟨fuel, o, hrun⟩ := exists_run_ok h
  obtain ⟨τ, hτ, hresult, hread⟩ := run_ok hrun
  cases hτ.unique h
  exact ⟨fuel, o, hrun, hresult, hread⟩

/-- Where the run over stores meets a fault, a run with fuel enough fails. -/
theorem exists_run_error (h : p.RunsTo values .faulted) :
    ∃ fuel error, p.run fuel values = some (.error error) := by
  obtain ⟨fuel, hfuel⟩ := exists_answer_of_runsTo h
  have hshows := run_shows p fuel values
  rw [hfuel] at hshows
  refine ⟨fuel, ?_⟩
  rw [run, runIn]
  cases hm : Machine.run (evaluateCall p.callable fuel) p.code fuel (.start p values true) with
  | finished _ m => rw [hm] at hshows; cases hshows
  | failed error m => exact ⟨_, rfl⟩
  | unfinished => rw [hm] at hshows; exact absurd trivial hshows

end Program

end CounterMachine
