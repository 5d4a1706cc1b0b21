import CounterMachine.Proofs.Lowering.Names

/-!
# The calls in a lowered line

A line is lowered to lines that make no calls but those of the line itself and of the function that
it calls. So a property that all calls of a program and of its functions have, nested ones included,
is kept when a line is lowered, as long as it does not depend on the counters that are passed.

Two such properties matter. A call may pass no more than its function takes; or, what is less, the
calls that it passes may all reach an input, so that what is too much are counters only.

## Key results

- `lower_eachCall`: the calls of a lowered line have the property
- `Instruction.fits_iff`, `Instruction.Fits.received`: calls that pass no more than functions take
-/

namespace CounterMachine

/-- A property of all functions that calls find. -/
def FunctionTable.Each (table : FunctionTable) (P : Program → Prop) : Prop :=
  ∀ function callee, table.find? function = some callee → P callee

/-- Of all functions that calls find, less can be said as well. -/
theorem FunctionTable.Each.imp {table : FunctionTable} {P Q : Program → Prop} (h : table.Each P)
    (himp : ∀ callee, P callee → Q callee) : table.Each Q :=
  fun function callee hfind => himp callee (h function callee hfind)

mutual

/-- A call that is an argument has a property, and so have the calls in it. -/
def Argument.EachCall (P : String → List Argument → Prop) : Argument → Prop
  | .var _ => True
  | .nested function args => P function args ∧ Argument.AllCalls P args

/-- The same for all arguments of a list. -/
def Argument.AllCalls (P : String → List Argument → Prop) : List Argument → Prop
  | [] => True
  | arg :: rest => arg.EachCall P ∧ Argument.AllCalls P rest

end

/-- The call of an instruction has a property, if there is one, and so have the calls in it. -/
def Instruction.EachCall (P : String → List Argument → Prop) (i : Instruction) : Prop :=
  ∀ call, i.call? = some call → P call.function call.args ∧ Argument.AllCalls P call.args

/-- What is said of all arguments is said of each one. -/
theorem Argument.AllCalls.of_mem {P : String → List Argument → Prop} {args : List Argument}
    (h : Argument.AllCalls P args) {arg : Argument} (harg : arg ∈ args) : arg.EachCall P := by
  induction args with
  | nil => cases harg
  | cons first rest ih =>
    rw [AllCalls] at h
    rcases List.mem_cons.mp harg with rfl | harg
    · exact h.1
    · exact ih h.2 harg

/-- Nothing is said of an instruction that makes no call. -/
theorem Instruction.eachCall_of_call?_eq_none {P : String → List Argument → Prop} {i : Instruction}
    (h : i.call? = none) : i.EachCall P := by
  intro call hcall
  rw [h] at hcall
  cases hcall

/-! ### Calls under new names -/

section

variable {P : String → List Argument → Prop} (f : Variable → Variable)

/-- The call of a renamed instruction is the renamed call. -/
theorem Instruction.call?_rename (g : Label → Label) (i : Instruction) :
    (i.rename f g).call? = i.call?.map (Call.rename f) := by
  cases i <;> rfl

mutual

/-- A property that does not depend on names is kept by the calls in an argument when it is
renamed. -/
theorem Argument.eachCall_rename
    (hP : ∀ function args, P function args → P function (Argument.renameList f args)) :
    (arg : Argument) → arg.EachCall P → (arg.rename f).EachCall P
  | .var _, _ => trivial
  | .nested function args, h => by
    rw [EachCall] at h
    rw [rename, EachCall]
    exact ⟨hP function args h.1, Argument.allCalls_renameList hP args h.2⟩

/-- It is kept by the calls in all arguments. -/
theorem Argument.allCalls_renameList
    (hP : ∀ function args, P function args → P function (Argument.renameList f args)) :
    (args : List Argument) → Argument.AllCalls P args →
      Argument.AllCalls P (Argument.renameList f args)
  | [], _ => trivial
  | arg :: rest, h => by
    rw [AllCalls] at h
    rw [renameList, AllCalls]
    exact ⟨Argument.eachCall_rename hP arg h.1, Argument.allCalls_renameList hP rest h.2⟩

end

/-- A renamed instruction makes its calls under new names. -/
theorem Instruction.eachCall_rename
    (hP : ∀ function args, P function args → P function (Argument.renameList f args))
    (g : Label → Label) {i : Instruction} (h : i.EachCall P) : (i.rename f g).EachCall P := by
  intro call hcall
  rw [Instruction.call?_rename, Option.map_eq_some_iff] at hcall
  obtain ⟨call, hcall, rfl⟩ := hcall
  exact ⟨hP _ _ (h call hcall).1, Argument.allCalls_renameList f hP _ (h call hcall).2⟩

end

/-! ### Calls of a lowered line -/

section

variable {P : String → List Argument → Prop} {table : FunctionTable} {callee : Program}
  {args : List Argument} {s s' : Supply} {lines : List Line} {line : Line}

/-- A line that passes an argument makes the call that the argument is. -/
theorem bindArgument_eachCall {dst : Variable} {arg : Argument} (h : arg.EachCall P) :
    (bindArgument dst arg).instruction.EachCall P := by
  cases arg with
  | var src => exact Instruction.eachCall_of_call?_eq_none rfl
  | nested function args =>
    intro call hcall
    cases hcall
    exact h

/-- The body of an instruction that makes no call makes none. -/
theorem body_call?_eq_none {label : Label} {i : Instruction} (hi : i.call? = none)
    (h : i.body table label s = .ok (lines, s')) : ∀ l ∈ lines, l.instruction.call? = none := by
  -- No body contains a call but those of the two instructions that make one.
  cases body_cases h with
  | basic _ hbasic => simpa [Line.plain] using hi
  | zeroOwn v n hn => simp [zeroBody, Line.plain, Instruction.call?]
  | zeroFresh v hn => simp [zeroBody, Line.plain, Instruction.call?]
  | goto target => simp [gotoBody, Line.plain, Instruction.call?]
  | assignSelf v => simp [Line.plain, Instruction.call?]
  | assign dst src hne => simp [assignBody, Line.plain, Instruction.call?]
  | assignConstant v value => simp [assignConstantBody, Line.plain, Instruction.call?]
  | jumpZero v target => simp [jumpZeroBody, Line.plain, Instruction.call?]
  | jumpEqualConstant v value target =>
    simp [jumpEqualConstantBody, Line.plain, Instruction.call?, or_imp, forall_and]
  | jumpEqualVariable v w target => simp [jumpEqualVariableBody, Line.plain, Instruction.call?]
  | quote dst call callee hfind => cases hi
  | jumpEqualCall v call target callee hfind => cases hi

variable (hP : ∀ f function args, P function args → P function (Argument.renameList f args))
include hP

/-- The calls of an inlined call are those among its arguments and those of the function. -/
theorem inlineCall_eachCall {final : Variable → Instruction}
    (hcallee : ∀ line ∈ callee.lines, line.instruction.EachCall P)
    (hargs : Argument.AllCalls P args) (hfinal : ∀ w, (final w).call? = none) :
    ∀ line ∈ (inlineCall callee args final s).1, line.instruction.EachCall P := by
  intro line hline
  -- The four kinds of lines: arguments are passed, counters are cleared, the function runs, its
  -- result is used.
  cases mem_inlineCall.mp hline with
  | binding hinput harg => exact bindArgument_eachCall (hargs.of_mem (List.mem_of_getElem? harg))
  | clearing hv => exact Instruction.eachCall_of_call?_eq_none rfl
  | own hmem => exact Instruction.eachCall_rename _ (hP _) _ (hcallee _ hmem)
  | last => exact Instruction.eachCall_of_call?_eq_none (hfinal _)

variable (htable : table.Each fun callee => ∀ line ∈ callee.lines, line.instruction.EachCall P)
include htable

/-- The calls of a body have the property that those of the instruction and of all functions
have. -/
theorem body_eachCall {label : Label} {i : Instruction} (hi : i.EachCall P)
    (h : i.body table label s = .ok (lines, s')) : ∀ l ∈ lines, l.instruction.EachCall P := by
  -- An instruction without a call has got a body without calls.
  by_cases hnone : i.call? = none
  · exact fun l hl => Instruction.eachCall_of_call?_eq_none (body_call?_eq_none hnone h l hl)
  · cases body_cases h with
    | quote dst call callee hfind =>
      exact inlineCall_eachCall hP (htable _ _ hfind) (hi call rfl).2 fun _ => rfl
    | jumpEqualCall v call target callee hfind =>
      exact inlineCall_eachCall hP (htable _ _ hfind) (hi call rfl).2 fun _ => rfl
    | basic _ hbasic => simpa [Line.plain] using hi
    | _ => exact absurd rfl hnone

/-- So have the calls of a lowered line. -/
theorem lower_eachCall (hi : line.instruction.EachCall P)
    (h : line.lower table s = .ok (lines, s')) : ∀ l ∈ lines, l.instruction.EachCall P := by
  obtain ⟨body, hb, rfl⟩ := lower_eq_ok h
  intro l hl
  -- The label in front of the body makes no difference to its instructions.
  obtain ⟨l', hl', heq⟩ := instruction_attachLabel hl
  exact heq ▸ body_eachCall hP htable hi hb l' hl'

end

/-! ### What functions take -/

/-- A call passes no more than its function takes, if there is that function. -/
def FunctionTable.Takes (table : FunctionTable) (function : String) (args : List Argument) : Prop :=
  ∀ callee, table.find? function = some callee → args.length ≤ callee.inputs.length

/-- The call of an instruction passes no more than its function takes. What the calls in it pass
does not matter. -/
def Instruction.Takes (table : FunctionTable) (i : Instruction) : Prop :=
  ∀ call, i.call? = some call → table.Takes call.function call.args

/-- The calls that a call passes reach an input of its function, if there is that function. -/
def FunctionTable.Receives (table : FunctionTable) (function : String) (args : List Argument) :
    Prop :=
  ∀ callee, table.find? function = some callee → ∀ (k : Nat) (inner : String)
    (innerArgs : List Argument), args[k]? = some (.nested inner innerArgs) →
      k < callee.inputs.length

mutual

/-- A call that is an argument passes no more than its function takes, nor do the calls in it. -/
def Argument.Fits (table : FunctionTable) : Argument → Prop
  | .var _ => True
  | .nested function args => table.Takes function args ∧ Argument.AllFit table args

/-- The same for all arguments of a list. -/
def Argument.AllFit (table : FunctionTable) : List Argument → Prop
  | [] => True
  | arg :: rest => arg.Fits table ∧ Argument.AllFit table rest

end

/-- A call passes no more than its function takes, nor do the calls in it. -/
def Call.Fits (table : FunctionTable) (call : Call) : Prop :=
  table.Takes call.function call.args ∧ Argument.AllFit table call.args

/-- The call of an instruction fits, if there is one. -/
def Instruction.Fits (table : FunctionTable) : Instruction → Prop
  | quote _ call => call.Fits table
  | jumpEqualCall _ call _ => call.Fits table
  | _ => True

section

variable {table : FunctionTable}

/-- Renaming neither adds arguments nor drops any. -/
theorem length_renameList (f : Variable → Variable) (args : List Argument) :
    (Argument.renameList f args).length = args.length := by
  rw [Argument.renameList_eq_map, List.length_map]

/-- How much a call passes does not depend on names. -/
theorem FunctionTable.Takes.rename (f : Variable → Variable) {function : String}
    {args : List Argument} (h : table.Takes function args) :
    table.Takes function (Argument.renameList f args) := by
  intro callee hfind
  rw [length_renameList]
  exact h callee hfind

/-- Nor does it depend on names where a call passes calls. -/
theorem FunctionTable.Receives.rename (f : Variable → Variable) {function : String}
    {args : List Argument} (h : table.Receives function args) :
    table.Receives function (Argument.renameList f args) := by
  intro callee hfind k inner innerArgs hk
  rw [Argument.renameList_eq_map, List.getElem?_map, Option.map_eq_some_iff] at hk
  obtain ⟨arg, harg, hnested⟩ := hk
  -- A renamed call is a call, so it was passed in the same place before.
  cases arg with
  | var v => cases hnested
  | nested g as => exact h callee hfind k g as harg

mutual

/-- An argument fits if and only if each call in it passes no more than its function takes. -/
theorem Argument.fits_iff : (arg : Argument) → (arg.Fits table ↔ arg.EachCall table.Takes)
  | .var _ => Iff.rfl
  | .nested function args => by rw [Fits, EachCall, Argument.allFit_iff args]

/-- So it is with all arguments of a list. -/
theorem Argument.allFit_iff : (args : List Argument) →
    (Argument.AllFit table args ↔ Argument.AllCalls table.Takes args)
  | [] => Iff.rfl
  | arg :: rest => by rw [AllFit, AllCalls, Argument.fits_iff arg, Argument.allFit_iff rest]

end

/-- An instruction fits if each of its calls passes no more than its function takes. -/
theorem Instruction.fits_iff (i : Instruction) : i.Fits table ↔ i.EachCall table.Takes := by
  cases i <;>
    simp [Fits, Call.Fits, EachCall, call?, Argument.allFit_iff]

/-- An instruction that fits makes a call that does. -/
theorem Instruction.Fits.takes {i : Instruction} (h : i.Fits table) : i.Takes table :=
  fun call hcall => (i.fits_iff.mp h call hcall).1

mutual

/-- A property of the calls in an argument can be weakened. -/
theorem Argument.EachCall.imp {P Q : String → List Argument → Prop}
    (himp : ∀ function args, P function args → Q function args) :
    (arg : Argument) → arg.EachCall P → arg.EachCall Q
  | .var _, _ => trivial
  | .nested function args, h => by
    rw [EachCall] at h ⊢
    exact ⟨himp function args h.1, Argument.AllCalls.imp himp args h.2⟩

/-- So can a property of the calls in all arguments. -/
theorem Argument.AllCalls.imp {P Q : String → List Argument → Prop}
    (himp : ∀ function args, P function args → Q function args) :
    (args : List Argument) → Argument.AllCalls P args → Argument.AllCalls Q args
  | [], _ => trivial
  | arg :: rest, h => by
    rw [AllCalls] at h ⊢
    exact ⟨Argument.EachCall.imp himp arg h.1, Argument.AllCalls.imp himp rest h.2⟩

end

/-- Where nothing is too much, all calls that are passed are received. -/
theorem Instruction.Fits.received {i : Instruction} (h : i.Fits table) :
    i.EachCall table.Receives := by
  -- A call that is passed has a place among the arguments, which are no more than the inputs.
  have himp : ∀ function args, table.Takes function args → table.Receives function args := by
    intro function args htakes callee hfind k inner innerArgs hk
    have hlt := (List.getElem?_eq_some_iff.mp hk).1
    have hle := htakes callee hfind
    omega
  intro call hcall
  obtain ⟨htakes, hargs⟩ := i.fits_iff.mp h call hcall
  exact ⟨himp _ _ htakes, Argument.AllCalls.imp himp _ hargs⟩

end

end CounterMachine
