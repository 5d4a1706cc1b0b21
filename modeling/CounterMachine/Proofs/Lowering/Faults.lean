import CounterMachine.Proofs.Lowering.Calls
import CounterMachine.Proofs.Lowering.Renaming
import Mathlib.Data.List.Basic

/-!
# What cannot be lowered

An instruction cannot be lowered if its constant is too large to be written out, or if the function
that it calls is not there. Which instructions a line will come to be lowered to is told by the
program text alone: a call comes to the calls that it passes and to the instructions of its
function, and any other line comes to instructions that can all be lowered. So the first fault that
an expansion meets can be told without lowering anything, and does not depend on names.

## Key results

- `mem_occurrences`: the instructions that occur down to a depth
- `faultOf_lower`: a line can be lowered unless it has a fault
- `firstFault_lower`: the first fault of a lowered line is that of its parts
- `firstFault_mono`: a fault that is not met on more levels is not met on fewer
-/

namespace CounterMachine

/-- The call that an argument is, if it is one. -/
def Argument.call? : Argument → Option Call
  | .var _ => none
  | .nested function args => some ⟨function, args⟩

namespace Instruction

/-- Why an instruction cannot be lowered, if it cannot. -/
def fault? (table : FunctionTable) : Instruction → Option ExpansionError
  | assignConstant _ value | jumpEqual _ (.const value) _ =>
    if maxUnrolled < value then some (.constantTooLarge value maxUnrolled) else none
  | quote _ call | jumpEqualCall _ call _ =>
    if table.contains call.function then none else some (.unknownFunction call.function)
  | _ => none

/-- What a call comes to: a call for each one that it passes to an input of its function, and the
instructions of the function. What their results are called does not matter. -/
def parts (table : FunctionTable) (i : Instruction) : List Instruction :=
  match i.call? with
  | none => []
  | some call =>
    match table.find? call.function with
    | none => []
    | some callee =>
      ((call.args.take callee.inputs.length).filterMap Argument.call?).map (quote .result) ++
        callee.operations.map (·.instruction)

end Instruction

/-- An instruction occurs at a depth: it is one of some instructions, or a part of one that occurs
at the depth above. -/
inductive OccursAt (table : FunctionTable) (roots : List Instruction) : Nat → Instruction → Prop
  | root {i : Instruction} (h : i ∈ roots) : OccursAt table roots 0 i
  | part {depth : Nat} {i part : Instruction} (h : OccursAt table roots depth i)
      (hpart : part ∈ i.parts table) : OccursAt table roots (depth + 1) part

/-- The instructions that occur on a number of levels, from left to right, and each before its
parts. -/
def occurrences (table : FunctionTable) : (levels : Nat) → List Instruction → List Instruction
  | 0, _ => []
  | levels + 1, is => is.flatMap fun i => i :: occurrences table levels (i.parts table)

/-- Why not all instructions that occur on a number of levels can be lowered. -/
def firstFault (table : FunctionTable) (levels : Nat) (is : List Instruction) :
    Option ExpansionError :=
  (occurrences table levels is).findSome? (Instruction.fault? table)

section

variable {table : FunctionTable} {levels levels' : Nat} {i : Instruction} {is js : List Instruction}

/-! ### Occurrences -/

/-- What occurs in a part of an instruction occurs one level deeper in the instruction. -/
theorem occursAt_part {depth : Nat} {j : Instruction} (hi : i ∈ is)
    (h : OccursAt table (i.parts table) depth j) : OccursAt table is (depth + 1) j := by
  -- By induction on the depth: the roots of the parts are parts of a root.
  induction h with
  | root hj => exact .part (.root hi) hj
  | part _ hpart ih => exact .part ih hpart

/-- Below the roots, what occurs occurs in the parts of one of the roots. -/
theorem occursAt_succ {depth : Nat} {j : Instruction} :
    OccursAt table is (depth + 1) j ↔ ∃ i ∈ is, OccursAt table (i.parts table) depth j := by
  refine ⟨fun h => ?_, fun ⟨i, hi, h⟩ => occursAt_part hi h⟩
  -- The depth is generalised, since an occurrence at the depth above has got another one.
  generalize hd : depth + 1 = d at h
  induction h generalizing depth with
  | root => cases hd
  | part h hpart ih =>
    cases hd
    cases h with
    | root hi => exact ⟨_, hi, .root hpart⟩
    | part h hi =>
      obtain ⟨top, htop, hocc⟩ := ih rfl
      exact ⟨top, htop, .part hocc hpart⟩

/-- With more roots, no less occurs. -/
theorem OccursAt.mono {depth : Nat} {j : Instruction} (hsub : is ⊆ js)
    (h : OccursAt table is depth j) : OccursAt table js depth j := by
  induction h with
  | root hj => exact .root (hsub hj)
  | part _ hpart ih => exact .part ih hpart

/-- The instructions that occur on a number of levels are those that occur at a depth below it. -/
theorem mem_occurrences {j : Instruction} :
    j ∈ occurrences table levels is ↔ ∃ depth < levels, OccursAt table is depth j := by
  induction levels generalizing is with
  | zero => simp [occurrences]
  | succ levels ih =>
    simp only [occurrences, List.mem_flatMap, List.mem_cons, ih]
    -- The first level are the roots, and the others are the levels of their parts.
    constructor
    · rintro ⟨i, hi, rfl | ⟨depth, hdepth, hocc⟩⟩
      · exact ⟨0, Nat.succ_pos _, .root hi⟩
      · exact ⟨depth + 1, Nat.succ_lt_succ hdepth, occursAt_part hi hocc⟩
    · rintro ⟨depth, hdepth, hocc⟩
      cases depth with
      | zero =>
        cases hocc with
        | root hj => exact ⟨j, hj, .inl rfl⟩
      | succ depth =>
        obtain ⟨i, hi, hocc⟩ := occursAt_succ.mp hocc
        exact ⟨i, hi, .inr ⟨depth, Nat.lt_of_succ_lt_succ hdepth, hocc⟩⟩

/-- On no level there is a fault. -/
@[simp] theorem firstFault_zero : firstFault table 0 is = none := rfl

/-- Without instructions there is no fault. -/
@[simp] theorem firstFault_nil : firstFault table levels [] = none := by
  cases levels <;> rfl

/-- The first fault is that of the first part of a list, or else that of the second one. -/
theorem firstFault_append :
    firstFault table levels (is ++ js) =
      (firstFault table levels is).or (firstFault table levels js) := by
  cases levels with
  | zero => rfl
  | succ levels => rw [firstFault, occurrences, List.flatMap_append, List.findSome?_append]; rfl

/-- The first fault is that of the first instruction, or of its parts, or of the others. -/
theorem firstFault_cons :
    firstFault table (levels + 1) (i :: is) =
      ((i.fault? table).or (firstFault table levels (i.parts table))).or
        (firstFault table (levels + 1) is) := by
  rw [firstFault, occurrences, List.flatMap_cons, List.findSome?_append, List.findSome?_cons]
  cases i.fault? table <;> rfl

/-- There is a first fault if and only if an instruction with a fault occurs at a depth that is
reached. -/
theorem firstFault_isSome : (firstFault table levels is).isSome ↔
    ∃ depth < levels, ∃ i, OccursAt table is depth i ∧ (i.fault? table).isSome := by
  simp only [firstFault, List.findSome?_isSome_iff, mem_occurrences]
  grind

/-- A fault that is not met on more levels is not met on fewer. -/
theorem firstFault_mono (hle : levels ≤ levels') (h : firstFault table levels' is = none) :
    firstFault table levels is = none := by
  rw [← Option.not_isSome_iff_eq_none, firstFault_isSome] at h ⊢
  exact fun ⟨depth, hdepth, hfault⟩ => h ⟨depth, Nat.lt_of_lt_of_le hdepth hle, hfault⟩

/-- Where no fault is met, none is met with fewer instructions either. -/
theorem firstFault_of_subset (hsub : is ⊆ js) (h : firstFault table levels js = none) :
    firstFault table levels is = none := by
  rw [← Option.not_isSome_iff_eq_none, firstFault_isSome] at h ⊢
  rintro ⟨depth, hdepth, i, hocc, hfault⟩
  exact h ⟨depth, hdepth, i, hocc.mono hsub, hfault⟩

/-- Instructions without faults and without calls bring no fault. -/
theorem firstFault_eq_none (h : ∀ i ∈ is, i.fault? table = none ∧ i.call? = none) :
    firstFault table levels is = none := by
  cases levels with
  | zero => rfl
  | succ levels =>
    induction is with
    | nil => rfl
    | cons i is ih =>
      obtain ⟨⟨hfault, hcall⟩, hrest⟩ := List.forall_mem_cons.mp h
      have hparts : i.parts table = [] := by rw [Instruction.parts, hcall]
      rw [firstFault_cons, hfault, hparts, firstFault_nil, ih hrest]
      rfl

/-! ### Names do not matter -/

/-- A renamed argument is the renamed call, if it is one. -/
theorem Argument.call?_rename (f : Variable → Variable) (arg : Argument) :
    (arg.rename f).call? = arg.call?.map (Call.rename f) := by
  cases arg <;> rfl

namespace Instruction

/-- An instruction without its names. -/
def nameless (i : Instruction) : Instruction := i.rename (fun _ => .result) fun _ => .empty

/-- Renaming cannot be seen without names. -/
theorem nameless_rename (f : Variable → Variable) (g : Label → Label) (i : Instruction) :
    (i.rename f g).nameless = i.nameless :=
  i.rename_rename

/-- The fault of an instruction does not depend on its names. -/
theorem fault?_nameless (i : Instruction) : i.nameless.fault? table = i.fault? table := by
  cases i with
  | jumpEqual v rhs target => cases rhs <;> rfl
  | _ => rfl

/-- The parts of an instruction without names are its parts, up to names. -/
theorem map_nameless_parts (i : Instruction) :
    (i.nameless.parts table).map nameless = (i.parts table).map nameless := by
  rw [parts, parts, nameless, call?_rename]
  cases i.call? with
  | none => rfl
  | some call =>
    simp only [Option.map_some, Call.rename]
    cases table.find? call.function with
    | none => rfl
    | some callee =>
      simp only [List.map_append, List.map_map, Argument.renameList_eq_map, ← List.map_take,
        List.filterMap_map]
      congr 1
      -- The calls that are passed are renamed, which nameless instructions do not show.
      rw [List.map_filterMap, List.map_filterMap]
      refine List.filterMap_congr fun arg _ => ?_
      rw [Function.comp_apply, Argument.call?_rename, Option.map_map]
      exact Option.map_congr fun inner _ =>
        nameless_rename (fun _ => .result) id (.quote .result inner)

end Instruction

/-- The first fault does not depend on the names, on any number of levels. -/
theorem firstFault_map_nameless :
    firstFault table levels (is.map Instruction.nameless) = firstFault table levels is := by
  -- The induction on the levels is for the parts, the one on the list for the other instructions.
  induction levels generalizing is with
  | zero => rfl
  | succ levels ih =>
    induction is with
    | nil => rfl
    | cons i is ihis =>
      have hparts : firstFault table levels (i.nameless.parts table) =
          firstFault table levels (i.parts table) := by
        rw [← ih, i.map_nameless_parts, ih]
      rw [List.map_cons, firstFault_cons, firstFault_cons, ihis, i.fault?_nameless, hparts]

/-- Instructions that differ in names only have the same first fault. -/
theorem firstFault_congr (h : is.map Instruction.nameless = js.map Instruction.nameless) :
    firstFault table levels is = firstFault table levels js := by
  rw [← firstFault_map_nameless, h, firstFault_map_nameless]

end

/-! ### Results -/

/-- The reason for which there is no result. -/
def faultOf {α : Type} : Except ExpansionError α → Option ExpansionError
  | .ok _ => none
  | .error e => some e

section

variable {α β : Type} {r : Except ExpansionError α} {e : ExpansionError}

/-- The fault of a result is the error that it is. -/
theorem faultOf_eq_some : faultOf r = some e ↔ r = .error e := by
  cases r <;> simp [faultOf]

/-- Where there is no fault there is a result. -/
theorem faultOf_eq_none : faultOf r = none ↔ ∃ a, r = .ok a := by
  cases r <;> simp [faultOf]

/-- Where there is a fault there is no result. -/
theorem faultOf_isSome : (faultOf r).isSome ↔ ∃ e, r = .error e := by
  cases r <;> simp [faultOf]

/-- What is made of a result has got the same fault. -/
theorem faultOf_map (f : α → β) : faultOf (r.map f) = faultOf r := by
  cases r <;> rfl

/-- So has what is returned after it. -/
theorem faultOf_bind_ok (f : α → β) : faultOf (r >>= fun a => .ok (f a)) = faultOf r := by
  cases r <;> rfl

end

/-! ### Lowering -/

section

variable {table : FunctionTable} {levels : Nat} {s s' : Supply} {lines : List Line} {line : Line}

/-- A constant is unrolled unless it is too large. -/
theorem faultOf_unrolled (value : Value) : faultOf (unrolled value) =
    if maxUnrolled < value then some (.constantTooLarge value maxUnrolled) else none := by
  rw [unrolled]
  split <;> rfl

/-- A call is inlined unless its function is missing. -/
theorem faultOf_inlineNamed (call : Call) (final : Variable → Instruction) :
    faultOf (inlineNamed table call final s) =
      if table.contains call.function then none else some (.unknownFunction call.function) := by
  rw [inlineNamed, FunctionTable.contains]
  cases table.find? call.function <;> rfl

/-- An instruction has a body unless it has a fault. -/
theorem faultOf_body (label : Label) (i : Instruction) :
    faultOf (i.body table label s) = i.fault? table := by
  cases i with
  | zero v => rw [Instruction.body]; split <;> rfl
  | assign dst src => rw [Instruction.body]; split <;> rfl
  | assignConstant v value =>
    rw [Instruction.body, faultOf_bind_ok, faultOf_unrolled, Instruction.fault?]
  | jumpEqual v rhs target =>
    cases rhs with
    | var w => rfl
    | const value => rw [Instruction.body, faultOf_bind_ok, faultOf_unrolled, Instruction.fault?]
  | quote dst call => exact faultOf_inlineNamed call _
  | jumpEqualCall v call target => exact faultOf_inlineNamed call _
  | _ => rfl

/-- A line can be lowered unless it has a fault. -/
theorem faultOf_lower (line : Line) (s : Supply) :
    faultOf (line.lower table s) = line.instruction.fault? table := by
  rw [Line.lower, faultOf_map, faultOf_body]

/-- The body of an instruction that makes no call can be lowered line by line. -/
theorem body_fault?_eq_none {label : Label} {i : Instruction} (hi : i.call? = none)
    (h : i.body table label s = .ok (lines, s')) (hsyn : i.isBasic = false) :
    ∀ l ∈ lines, l.instruction.fault? table = none := by
  cases body_cases h with
  | basic _ hbasic => rw [hbasic] at hsyn; cases hsyn
  | zeroOwn v n hn => simp [zeroBody, Line.plain, Instruction.fault?]
  | zeroFresh v hn => simp [zeroBody, Line.plain, Instruction.fault?]
  | goto target => simp [gotoBody, Line.plain, Instruction.fault?]
  | assignSelf v => simp [Line.plain, Instruction.fault?]
  | assign dst src hne => simp [assignBody, Line.plain, Instruction.fault?]
  | assignConstant v value => simp [assignConstantBody, Line.plain, Instruction.fault?]
  | jumpZero v target => simp [jumpZeroBody, Line.plain, Instruction.fault?]
  | jumpEqualConstant v value target =>
    simp [jumpEqualConstantBody, Line.plain, Instruction.fault?, or_imp, forall_and]
  | jumpEqualVariable v w target => simp [jumpEqualVariableBody, Line.plain, Instruction.fault?]
  | quote dst call callee hfind => cases hi
  | jumpEqualCall v call target callee hfind => cases hi

/-- The lines that pass arguments come to the calls among those that reach inputs. -/
theorem firstFault_bindingLines (callee : Program) (args : List Argument) (s : Supply) :
    firstFault table levels ((bindingLines callee args s).map Line.instruction) =
      firstFault table levels (((args.take callee.inputs.length).filterMap Argument.call?).map
        (.quote .result)) := by
  rw [bindingLines]
  generalize callee.inputs = inputs
  induction inputs generalizing args with
  | nil => simp
  | cons input inputs ih =>
    cases args with
    | nil => simp
    | cons arg args =>
      rw [List.zipWith_cons_cons, List.length_cons, List.take_succ_cons, List.map_cons,
        ← List.singleton_append, firstFault_append, ih]
      cases arg with
      | var src =>
        rw [firstFault_eq_none (by simp [bindArgument, Line.plain, Instruction.fault?,
          Instruction.call?])]
        rfl
      | nested function inner =>
        -- What the result is called does not matter.
        have hfirst : firstFault table levels
            [(bindArgument (calleeVar callee s input) (.nested function inner)).instruction] =
              firstFault table levels [.quote .result ⟨function, inner⟩] :=
          firstFault_congr rfl
        rw [hfirst, ← firstFault_append]
        rfl

/-- An inlined call comes to the calls that reach inputs and to the instructions of the function. -/
theorem firstFault_inlineCall {callee : Program} {args : List Argument}
    {final : Variable → Instruction}
    (hfinal : ∀ w, (final w).fault? table = none ∧ (final w).call? = none) :
    firstFault table levels ((inlineCall callee args final s).1.map Line.instruction) =
      firstFault table levels
        (((args.take callee.inputs.length).filterMap Argument.call?).map (.quote .result) ++
          callee.operations.map (·.instruction)) := by
  -- Of the four blocks, only the arguments and the function bring faults.
  have hclearing : firstFault table levels ((clearingLines callee args s).map Line.instruction) =
      none := firstFault_eq_none fun i hi => by
    obtain ⟨line, hline, rfl⟩ := List.mem_map.mp hi
    obtain ⟨v, _, rfl⟩ := List.mem_map.mp hline
    exact ⟨rfl, rfl⟩
  have hcallee : firstFault table levels ((calleeLines callee s).map Line.instruction) =
      firstFault table levels (callee.operations.map (·.instruction)) := by
    -- The lines of the function are its operations under other names.
    refine firstFault_congr ?_
    rw [calleeLines, List.map_map, List.map_map, List.map_map]
    exact List.map_congr_left fun op _ => Instruction.nameless_rename _ _ op.instruction
  have hreturn :
      firstFault table levels ([returnLine callee s final].map Line.instruction) = none :=
    firstFault_eq_none (by simpa [returnLine] using hfinal _)
  rw [inlineCall_eq]
  simp only [List.map_append, firstFault_append, firstFault_bindingLines, hclearing, hcallee,
    hreturn, Option.or_none]

/-- What a body comes to is what the parts of the instruction come to. -/
theorem firstFault_body {label : Label} {i : Instruction} (hsyn : i.isBasic = false)
    (h : i.body table label s = .ok (lines, s')) :
    firstFault table levels (lines.map Line.instruction) =
      firstFault table levels (i.parts table) := by
  -- Without a call an instruction has got no parts, and its body has got no faults.
  by_cases hcall : i.call? = none
  · have hparts : i.parts table = [] := by rw [Instruction.parts, hcall]
    rw [hparts, firstFault_nil]
    exact firstFault_eq_none (List.forall_mem_map.mpr fun l hl =>
      ⟨body_fault?_eq_none hcall h hsyn l hl, body_call?_eq_none hcall h l hl⟩)
  · cases body_cases h with
    | quote dst call callee hfind =>
      rw [firstFault_inlineCall fun _ => ⟨rfl, rfl⟩]
      simp only [Instruction.parts, Instruction.call?, hfind]
    | jumpEqualCall v call target callee hfind =>
      rw [firstFault_inlineCall fun _ => ⟨rfl, rfl⟩]
      simp only [Instruction.parts, Instruction.call?, hfind]
    | basic _ hbasic => rw [hbasic] at hsyn; cases hsyn
    | _ => exact absurd rfl hcall

/-- The lines that a line is lowered to come to what its parts come to. -/
theorem firstFault_lower (hsyn : line.instruction.isBasic = false)
    (h : line.lower table s = .ok (lines, s')) :
    firstFault table levels (lines.map Line.instruction) =
      firstFault table levels (line.instruction.parts table) := by
  obtain ⟨body, hb, rfl⟩ := lower_eq_ok h
  rw [map_instruction_attachLabel]
  exact firstFault_body hsyn hb

end

end CounterMachine
