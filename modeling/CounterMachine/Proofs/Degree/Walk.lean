import CounterMachine.Proofs.Degree.Paths

/-!
# Degrees that are asked for on the way

The degree of a function can also be found by a walk that knows no bound. The degree of each
instruction of the body asks for the degrees of the callees one by one, and each question is either
answered from what is written down, or the walk goes through the body of the callee before it goes
on. A function that is met while the walk is in its body is answered with zero. Every question takes
one more function of the table onto the path, so the walk comes to an end, whatever the functions
call.

Answers are not revised: once a function has been asked for, later questions do not change what is
written down for it. So the walk writes down what is written down when all callees are settled
before the degree of the body is told. It begins no body twice, since a body that it has begun is
that of a function on the path or of one that has got its degree.

## Key definitions

- `FunctionTable.visit`, `FunctionTable.walk`: the walk, with a record of the bodies it has begun
- `Steady`: look-ups whose answers are not revised
- `FunctionTable.AcyclicFrom`: a function reaches no cycle of calls

## Key results

- `Steady.instruction`, `Steady.program`: a degree that is told by questions is the degree under the
  answers that stand in the end
- `FunctionTable.visit_of_done`, `FunctionTable.visit_of_find?`: what one question does
- `FunctionTable.AcyclicFrom.degrees_of`: without cycles the degree of a function is that of its body
- `FunctionTable.walk_degrees`: what the walk comes to
-/

namespace CounterMachine

/-! ### Degrees by questions -/

section

variable {σ : Type} (look : String → σ → Nat × σ)

mutual

/-- What an argument adds to the degree of a call. Every look-up may change what the next one looks
into. -/
def Argument.askDegree : Argument → σ → Nat × σ
  | .var _, s => (0, s)
  | .nested function args, s =>
    let (callee, s) := look function s
    let (inner, s) := Argument.askListDegree args s
    (1 + max (max callee inner) 2, s)

/-- The largest degree of a list of arguments. They are asked for from left to right. -/
def Argument.askListDegree : List Argument → σ → Nat × σ
  | [], s => (0, s)
  | arg :: rest, s =>
    let (first, s) := arg.askDegree s
    let (others, s) := Argument.askListDegree rest s
    (max first others, s)

end

/-- The degree that a call's function and its arguments bring. -/
def Call.askDegree (call : Call) (s : σ) : Nat × σ :=
  let (callee, s) := look call.function s
  let (inner, s) := Argument.askListDegree look call.args s
  (max callee inner, s)

/-- The degree of an instruction. Only calls ask questions. -/
def Instruction.askDegree (i : Instruction) (s : σ) : Nat × σ :=
  match i with
  | quote _ call =>
    let (body, s) := call.askDegree look s
    (1 + max body 2, s)
  | jumpEqualCall _ call _ =>
    let (body, s) := call.askDegree look s
    (1 + max body 3, s)
  | i => (i.degree fun _ => 0, s)

/-- The largest degree of the operations of a program. -/
def Program.askDegree (p : Program) (s : σ) : Nat × σ :=
  p.operations.foldl (fun (degree, s) op =>
    let (own, s) := op.instruction.askDegree look s
    (max degree own, s)) (0, s)

/-- What is left when functions have been asked for one after the other. -/
def askAll (names : List String) (s : σ) : σ := names.foldl (fun s name => (look name s).2) s

/-- Where nobody is asked for nothing changes. -/
@[simp] theorem askAll_nil (s : σ) : askAll look [] s = s := rfl

/-- The first one is asked for first. -/
@[simp] theorem askAll_cons (name : String) (names : List String) (s : σ) :
    askAll look (name :: names) s = askAll look names (look name s).2 := rfl

/-- Two lists are asked for one after the other. -/
@[simp] theorem askAll_append (names more : List String) (s : σ) :
    askAll look (names ++ more) s = askAll look more (askAll look names s) := List.foldl_append

/-- Answers are not revised: a look-up answers what `told` finds in what it leaves behind, and later
look-ups do not change that. -/
structure Steady (told : σ → String → Nat) (valid : σ → Prop) : Prop where
  valid_look : ∀ s name, valid s → valid (look name s).2
  answer : ∀ s name, valid s → (look name s).1 = told (look name s).2 name
  stays : ∀ s name names, valid s →
    told (askAll look names (look name s).2) name = told (look name s).2 name

end

namespace Steady

variable {σ : Type} {look : String → σ → Nat × σ} {told : σ → String → Nat} {valid : σ → Prop}
  {s : σ}

/-- However many are asked for, what is left behind is valid. -/
theorem valid_askAll (h : Steady look told valid) (hs : valid s) (names : List String) :
    valid (askAll look names s) := by
  induction names generalizing s with
  | nil => exact hs
  | cons name names ih => exact ih (h.valid_look s name hs)

/-- A look-up answers what it finds written down afterwards. -/
theorem look_eq (h : Steady look told valid) (hs : valid s) (name : String) :
    look name s = (told (look name s).2 name, (look name s).2) :=
  Prod.ext (h.answer s name hs) rfl

/-- What has been asked for among others stays too. -/
theorem told_askAll (h : Steady look told valid) (hs : valid s) {names : List String}
    {name : String} (hname : name ∈ names) (more : List String) :
    told (askAll look more (askAll look names s)) name = told (askAll look names s) name := by
  obtain ⟨before, behind, rfl⟩ := List.append_of_mem hname
  have hbefore := h.valid_askAll hs before
  rw [askAll_append, askAll_cons, ← askAll_append, h.stays _ name _ hbefore,
    h.stays _ name _ hbefore]

mutual

/-- The degree of an argument is the degree under the answers that stand when its functions have
been asked for. -/
theorem argument (h : Steady look told valid) {s : σ} (hs : valid s) : (arg : Argument) →
    arg.askDegree look s =
      (arg.degree (told (askAll look arg.callees s)), askAll look arg.callees s)
  | .var _ => rfl
  | .nested function args => by
    have hinner := listArgument h (h.valid_look s function hs) args
    rw [Argument.askDegree, h.look_eq hs]
    simp only [hinner]
    rw [Argument.degree, Argument.callees, askAll_cons, h.stays s function _ hs]

/-- So is the degree of a list of arguments. -/
theorem listArgument (h : Steady look told valid) {s : σ} (hs : valid s) :
    (args : List Argument) → Argument.askListDegree look args s =
      (Argument.listDegree (told (askAll look (Argument.listCallees args) s)) args,
        askAll look (Argument.listCallees args) s)
  | [] => rfl
  | arg :: rest => by
    have hfirst := argument h hs arg
    have hothers := listArgument h (h.valid_askAll hs arg.callees) rest
    -- The answers for the first argument still stand when the others have been asked for.
    have hstays := arg.degree_congr fun name hname =>
      h.told_askAll hs hname (Argument.listCallees rest)
    rw [Argument.askListDegree, hfirst]
    simp only [hothers]
    rw [Argument.listDegree, Argument.listCallees, askAll_append, hstays]

end

/-- And so is what a call brings. -/
theorem call (h : Steady look told valid) (hs : valid s) (call : Call) :
    call.askDegree look s =
      (call.bodyDegree (told (askAll look call.callees s)), askAll look call.callees s) := by
  -- The function is asked for first, and its answer stands when the arguments have been asked for.
  rw [Call.askDegree, h.look_eq hs]
  simp only [h.listArgument (h.valid_look s call.function hs)]
  rw [Call.bodyDegree, Call.callees, askAll_cons, h.stays s call.function _ hs]

/-- The degree of an instruction is the degree under the answers that stand when its callees have
been asked for. -/
theorem instruction (h : Steady look told valid) (hs : valid s) (i : Instruction) :
    i.askDegree look s =
      (i.degree (told (askAll look i.callees s)), askAll look i.callees s) := by
  cases i with
  | quote dst call => rw [Instruction.askDegree, h.call hs]; rfl
  | jumpEqualCall v call target => rw [Instruction.askDegree, h.call hs]; rfl
  | _ => rfl

/-- The degree of a program is the degree under the answers that stand when all its callees have
been asked for. -/
theorem program (h : Steady look told valid) (hs : valid s) (p : Program) :
    p.askDegree look s =
      (p.degreeUnder (told (askAll look p.callees s)), askAll look p.callees s) := by
  -- The degree so far is a parameter. The answers that are told in the end are also those that each
  -- line was given on the way.
  have general : ∀ (ops : List Operation) (degree : Nat) (s : σ), valid s →
      ops.foldl (fun (degree, s) op =>
        let (own, s) := op.instruction.askDegree look s
        (max degree own, s)) (degree, s) =
      (ops.foldl (fun degree op => max degree (op.instruction.degree
          (told (askAll look (ops.flatMap (·.instruction.callees)) s)))) degree,
        askAll look (ops.flatMap (·.instruction.callees)) s) := by
    intro ops
    induction ops with
    | nil => exact fun _ _ _ => rfl
    | cons op ops ih =>
      intro degree s hs
      have hstays := op.instruction.degree_congr fun name hname =>
        h.told_askAll hs hname (ops.flatMap (·.instruction.callees))
      rw [List.foldl_cons, List.foldl_cons, List.flatMap_cons, askAll_append, hstays]
      simp only [h.instruction hs]
      exact ih _ _ (h.valid_askAll hs op.instruction.callees)
  exact general p.operations 0 s hs

end Steady

/-! ### The walk -/

/-- How far a walk along the calls has come. -/
structure Walk where
  /-- The degrees that are written down. -/
  degrees : FunctionTable.Degrees
  /-- The functions whose bodies the walk has begun, the latest first. -/
  begun : List String

namespace FunctionTable

open Relation (ReflTransGen TransGen)

/-- Asks for the degree of a function. It is known, or there is no such function, or the walk is in
its body, or the walk goes through its body. -/
def visit (table : FunctionTable) (path : List String) (name : String) (walk : Walk) : Nat × Walk :=
  match walk.degrees.lookup name with
  | some degree => (degree, walk)
  | none =>
    match _found : table.find? name with
    | none => (0, walk)
    | some function =>
      if _new : name ∈ path then
        (0, walk)
      else
        let (degree, walk) := function.askDegree
          (fun callee walk => visit table (name :: path) callee walk)
          { walk with begun := name :: walk.begun }
        (degree, { walk with degrees := (name, degree) :: walk.degrees })
termination_by (table.names.filter (· ∉ path)).length
decreasing_by exact length_filter_notMem_lt (mem_names_of_contains (contains_of_find? _found)) _new

/-- Asks for all functions of the table, by name. -/
def walk (table : FunctionTable) : Walk := askAll (table.visit []) table.names ⟨[], []⟩

/-- What a walk keeps while it is in the bodies of the functions on `path`: the bodies that it has
begun are those, and the ones of the functions that have got their degrees. -/
structure Underway (table : FunctionTable) (path : List String) (walk : Walk) : Prop where
  history : table.History walk.degrees
  begun : walk.begun.Perm (walk.degrees.map Prod.fst ++ path)

section

variable {table : FunctionTable} {path : List String} {degrees : Degrees} {name : String}
  {function : Program} {walk : Walk}

/-- Only functions of the table get degrees. -/
theorem History.contains (h : table.History degrees) (hname : (degrees.lookup name).isSome) :
    table.contains name := by
  induction h with
  | nil => cases hname
  | @cons first function degrees _ hfind _ ih =>
    rw [List.lookup_cons] at hname
    split at hname
    · rename_i heq
      rw [beq_iff_eq.mp heq]
      exact contains_of_find? hfind
    · exact ih hname

/-- A function has got a degree if it is one of those that degrees are written down for. -/
theorem isSome_lookup_iff : (degrees.lookup name).isSome ↔ name ∈ degrees.map Prod.fst := by
  rw [← not_iff_not, Option.not_isSome_iff_eq_none, List.lookup_eq_none_iff, List.mem_map]
  grind

/-- No function gets two degrees. -/
theorem History.nodup (h : table.History degrees) : (degrees.map Prod.fst).Nodup := by
  induction h with
  | nil => exact List.nodup_nil
  | @cons first function degrees _ _ hnone ih =>
    refine List.nodup_cons.mpr ⟨fun hmem => ?_, ih⟩
    have hsome := isSome_lookup_iff.mpr hmem
    rw [hnone] at hsome
    cases hsome

/-- A body is begun, and its function comes onto the path. -/
theorem Underway.begin (h : table.Underway path walk) (name : String) :
    table.Underway (name :: path) { walk with begun := name :: walk.begun } :=
  ⟨h.history, (h.begun.cons name).trans List.perm_middle.symm⟩

/-- The degree of the body is written down, and its function leaves the path. -/
theorem Underway.finish (h : table.Underway (name :: path) walk)
    (hfind : table.find? name = some function) (hnone : walk.degrees.lookup name = none) :
    table.Underway path { walk with
      degrees := (name, function.degreeUnder walk.degrees.of) :: walk.degrees } :=
  ⟨.cons h.history hfind hnone, h.begun.trans List.perm_middle⟩

/-! ### One question -/

/-- Where there is nothing to walk through, a question changes nothing. -/
theorem visit_of_done
    (h : (walk.degrees.lookup name).isSome ∨ ¬ table.contains name ∨ name ∈ path) :
    table.visit path name walk = (walk.degrees.of name, walk) := by
  rw [visit, Degrees.of]
  cases hlookup : walk.degrees.lookup name with
  | some degree => rfl
  | none =>
    rw [hlookup, contains] at h
    dsimp only
    -- It is not written down, so it is missing or on the path.
    split
    · rfl
    · rename_i hfind
      have hmem : name ∈ path := by simpa [hfind] using h
      rw [dif_pos hmem]
      rfl

/-- Otherwise the walk goes through the body and writes down its degree. -/
theorem visit_of_find? (hnone : walk.degrees.lookup name = none)
    (hfind : table.find? name = some function) (hnew : name ∉ path) :
    table.visit path name walk =
      let body := function.askDegree (table.visit (name :: path))
        { walk with begun := name :: walk.begun }
      (body.1, { body.2 with degrees := (name, body.1) :: body.2.degrees }) := by
  rw [visit, hnone]
  dsimp only
  split
  · rename_i hmissing
    rw [hfind] at hmissing
    cases hmissing
  · rename_i found hfound
    rw [hfind] at hfound
    cases hfound
    rw [dif_neg hnew]

/-- Questions on a path of calls settle functions and are answered with what is written down
then. -/
def Answers (table : FunctionTable) (depth : Nat) (path : List String) : Prop :=
  ∀ name walk, table.Underway path walk →
    table.Underway path (table.visit path name walk).2 ∧
      (table.visit path name walk).2.degrees = table.settle depth path walk.degrees name ∧
      (table.visit path name walk).1 = (table.visit path name walk).2.degrees.of name

section

variable {depth : Nat} (h : table.Answers depth path)
include h

/-- Many questions settle one function after the other. -/
theorem Answers.askAll (hwalk : table.Underway path walk) (names : List String) :
    table.Underway path (askAll (table.visit path) names walk) ∧
      (askAll (table.visit path) names walk).degrees =
        names.foldl (table.settle depth path) walk.degrees := by
  induction names generalizing walk with
  | nil => exact ⟨hwalk, rfl⟩
  | cons name names ih =>
    obtain ⟨hnext, hdegrees, _⟩ := h name walk hwalk
    rw [askAll_cons, List.foldl_cons, ← hdegrees]
    exact ih hnext

/-- The answers are not revised. A function that has been asked for has got its degree, or it will
have none as long as the walk is in the bodies of the functions on the path. -/
theorem Answers.steady (hdepth : table.size ≤ depth + path.length) (hnodup : path.Nodup)
    (hpath : ∀ t ∈ path, table.contains t) :
    Steady (table.visit path) (fun walk => walk.degrees.of) (table.Underway path) where
  valid_look walk name hwalk := (h name walk hwalk).1
  answer walk name hwalk := (h name walk hwalk).2.2
  stays walk name names hwalk := by
    obtain ⟨hnext, hdegrees, _⟩ := h name walk hwalk
    obtain ⟨hlast, hlater⟩ := h.askAll hnext names
    have hgrows := Grows.foldl (table.settle_grows depth path) names
      (table.visit path name walk).2.degrees
    rw [← hlater] at hgrows
    -- A function on the path has got no degree yet; any other one has got its final one.
    by_cases hmem : name ∈ path
    · rw [Degrees.of, Degrees.of, hgrows.path_eq name hmem]
    · refine hgrows.of_eq (fun hname => ?_) hlast.history.contains
      rw [hdegrees]
      exact isSome_lookup_settle depth hdepth hnodup hpath hname hmem

end

/-- What a question does on any path. The bound on the depth is never reached, since the functions
on a path are different functions of the table. -/
theorem answers (table : FunctionTable) (depth : Nat) (path : List String)
    (hdepth : table.size ≤ depth + path.length) (hnodup : path.Nodup)
    (hpath : ∀ t ∈ path, table.contains t) : table.Answers depth path := by
  -- By induction on the depth, since the walk through a body is on a path that is longer by one.
  induction depth generalizing path with
  | zero =>
    intro name walk hwalk
    -- A path as long as the table has room for no other function.
    have hdone : ¬ table.contains name ∨ name ∈ path := by
      by_contra hnot
      rw [not_or, not_not] at hnot
      have := table.length_lt_size_of_notMem hnodup hpath hnot.1 hnot.2
      omega
    rw [visit_of_done (.inr hdone)]
    exact ⟨hwalk, rfl, rfl⟩
  | succ depth ih =>
    intro name walk hwalk
    rcases table.settle_cases depth path walk.degrees name
      with ⟨heq, hdone⟩ | ⟨function, hfind, hnone, hnew, heq⟩
    · have hdone' : (walk.degrees.lookup name).isSome ∨ ¬ table.contains name ∨ name ∈ path := by
        tauto
      rw [visit_of_done hdone', heq]
      exact ⟨hwalk, rfl, rfl⟩
    · have hnodup' : (name :: path).Nodup := List.nodup_cons.mpr ⟨hnew, hnodup⟩
      have hpath' : ∀ t ∈ name :: path, table.contains t :=
        List.forall_mem_cons.mpr ⟨contains_of_find? hfind, hpath⟩
      have hdepth' : table.size ≤ depth + (name :: path).length := by
        rw [List.length_cons]
        omega
      -- The questions of the body are questions on the longer path.
      have hcallees := ih (name :: path) hdepth' hnodup' hpath'
      have hbegun := hwalk.begin name
      have hbody := (hcallees.steady hdepth' hnodup' hpath').program hbegun function
      obtain ⟨hlast, hdegrees⟩ := hcallees.askAll hbegun function.callees
      -- Nothing is written down of the function as long as it is on the path.
      have hnone' : (askAll (table.visit (name :: path)) function.callees
          { walk with begun := name :: walk.begun }).degrees.lookup name = none := by
        have hgrows := Grows.foldl (table.settle_grows depth (name :: path)) function.callees
          walk.degrees
        rw [hdegrees, hgrows.path_eq name List.mem_cons_self, hnone]
      rw [visit_of_find? hnone hfind hnew, hbody, heq, ← hdegrees]
      refine ⟨hlast.finish hfind hnone', rfl, ?_⟩
      rw [Degrees.of, List.lookup_cons_self]
      rfl

/-! ### The whole table -/

/-- The walk writes down the degrees of the table, and what it has begun are the bodies of the
functions that have got one. -/
theorem walk_eq (table : FunctionTable) :
    table.walk.degrees = table.degrees ∧
      table.walk.begun.Perm (table.degrees.map Prod.fst) := by
  have hanswers := table.answers table.size [] (Nat.le_refl _) List.nodup_nil nofun
  have hstart : table.Underway [] ⟨[], []⟩ := ⟨.nil, .nil⟩
  obtain ⟨hwalk, hdegrees⟩ := hanswers.askAll hstart table.names
  have hbegun := hwalk.begun
  rw [List.append_nil, hdegrees] at hbegun
  exact ⟨hdegrees, hbegun⟩

/-- What has got a name in the table is in the table. -/
theorem contains_of_mem_names (h : name ∈ table.names) : table.contains name := by
  obtain ⟨function, hmem, rfl⟩ := List.mem_map.mp (mem_sortedSet.mp h)
  rw [contains, find?, List.find?_isSome]
  exact ⟨function, List.mem_reverse.mpr hmem, beq_self_eq_true function.name⟩

/-- The functions that get a degree are those of the table. -/
theorem keys_degrees (table : FunctionTable) :
    (table.degrees.map Prod.fst).Perm table.names := by
  have hhistory : table.History table.degrees :=
    List.foldlRecOn _ _ .nil fun degrees h name _ => table.settle_history _ [] degrees name h
  -- Neither list has duplicates, so they need only have the same members.
  refine (List.perm_ext_iff_of_nodup hhistory.nodup (nodup_sortedSet _)).mpr fun name => ?_
  rw [← isSome_lookup_iff]
  refine ⟨fun hsome => mem_names_of_contains (hhistory.contains hsome), fun hmem => ?_⟩
  exact table.isSome_lookup_degreesBy hmem (contains_of_mem_names hmem)

/-! ### Functions that reach no cycle -/

/-- No function that a function reaches calls itself, directly or through others. -/
def AcyclicFrom (table : FunctionTable) (f : String) : Prop :=
  ∀ g, ReflTransGen table.Calls f g → ¬ TransGen table.Calls g g

/-- A function that reaches no cycle makes no mutual calls. -/
theorem AcyclicFrom.noMutualCalls (h : table.AcyclicFrom name) : table.NoMutualCalls name :=
  fun g _ hg hgh hhg => absurd (hgh.trans hhg) (h g hg)

/-- What is written down of a function without mutual calls is its degree along paths. -/
theorem NoMutualCalls.degrees_of (h : table.NoMutualCalls name) :
    table.degrees.of name = table.pathDegree [] name := by
  rw [Degrees.of]
  cases hlookup : table.degrees.lookup name with
  | some degree => exact table.exact_degreesBy table.names name degree hlookup h
  | none =>
    have hmissing : ¬ table.contains name := fun hname => by
      have hsome := table.isSome_lookup_degreesBy (mem_names_of_contains hname) hname
      rw [degreesBy, ← degrees, hlookup] at hsome
      cases hsome
    rw [pathDegree_of_not_contains hmissing]
    rfl

/-- The degree of a function that reaches no cycle is that of its body, whatever else is in the
table. -/
theorem AcyclicFrom.degrees_of (h : table.AcyclicFrom name)
    (hfind : table.find? name = some function) :
    table.degrees.of name = function.degreeUnder table.degrees.of := by
  have hmutual := h.noMutualCalls
  rw [hmutual.degrees_of, pathDegree_of_find? hfind List.not_mem_nil]
  refine Program.degreeUnder_congr fun callee hcallee => ?_
  have hcall : table.Calls name callee := ⟨function, hfind, hcallee⟩
  have hne : callee ≠ name := by
    rintro rfl
    exact h callee .refl (.single hcall)
  rw [hmutual.pathDegree_callee hcall hne, (hmutual.of_calls hcall).degrees_of]

/-- Whatever the functions of a table call, a walk that knows no bound comes to an end with the
degrees of the table. It begins every body once, and every function of the table gets one degree. If
a function reaches no cycle, its degree is that of its body under the degrees of the table, where
functions that are missing count as zero. -/
theorem walk_degrees (table : FunctionTable) :
    table.walk.degrees = table.degrees ∧
    table.walk.begun.Perm table.names ∧
    (table.degrees.map Prod.fst).Perm table.names ∧
    ∀ name function, table.find? name = some function → table.AcyclicFrom name →
      table.degree? name =
        some (function.degreeUnder fun callee => (table.degree? callee).getD 0) := by
  obtain ⟨hdegrees, hbegun⟩ := table.walk_eq
  refine ⟨hdegrees, hbegun.trans table.keys_degrees, table.keys_degrees,
    fun name function hfind hacyclic => ?_⟩
  obtain ⟨degree, hdegree⟩ := Option.isSome_iff_exists.mp <|
    table.isSome_lookup_degreesBy (mem_names_of_contains (contains_of_find? hfind))
      (contains_of_find? hfind)
  have hof := hacyclic.degrees_of hfind
  rw [Degrees.of, degrees, ← degreesBy, hdegree] at hof
  rw [degree?, degrees, ← degreesBy, hdegree]
  exact congrArg some hof

/-- A function that calls one that calls nothing, with a call of it and one of a missing function
among the arguments, in a table in which others call themselves and each other. -/
theorem walk_degrees_apart :
    let calls : String → Call → Program := fun name call =>
      Program.ofLines name none none none [⟨.empty, .quote .result call⟩]
    let leaf := Program.ofLines "leaf" none none none [⟨.empty, .assign .result (.input 1)⟩]
    let main := calls "main" ⟨"leaf", [.nested "leaf" [.var (.input 1)], .nested "missing" []]⟩
    let table : FunctionTable :=
      ⟨[calls "b" ⟨"a", []⟩, main, calls "loop" ⟨"loop", []⟩, leaf, calls "a" ⟨"b", []⟩]⟩
    table.find? "main" = some main ∧ table.AcyclicFrom "main" ∧ table.degree? "main" = some 4 ∧
      table.degree? "main" =
        some (main.degreeUnder fun callee => (table.degree? callee).getD 0) ∧
      table.walk.begun.Perm table.names ∧ table.names = ["a", "b", "leaf", "loop", "main"] := by
  intro calls leaf main table
  have hmain : table.find? "main" = some main := rfl
  have hleaf : table.find? "leaf" = some leaf := rfl
  have hmissing : table.find? "missing" = none := rfl
  have hcallees : ∀ g, table.Calls "main" g → g = "leaf" ∨ g = "missing" := by
    rintro g ⟨function, hfind, hg⟩
    obtain rfl := Option.some.inj (hmain.symm.trans hfind)
    have hg' : g ∈ ["leaf", "leaf", "missing"] := hg
    simpa using hg'
  have hend : ∀ g h, g = "leaf" ∨ g = "missing" → ¬ table.Calls g h := by
    rintro g h (rfl | rfl) ⟨function, hfind, hh⟩
    · obtain rfl := Option.some.inj (hleaf.symm.trans hfind)
      exact absurd (show h ∈ [] from hh) List.not_mem_nil
    · rw [hmissing] at hfind
      cases hfind
  have hacyclic : table.AcyclicFrom "main" := by
    intro g hg hgg
    obtain ⟨h, hgh, hback⟩ := Relation.TransGen.head'_iff.mp hgg
    rcases hg.cases_head with rfl | ⟨k, hk, hkg⟩
    · -- Nobody calls back.
      rcases hback.cases_head with rfl | ⟨_, hcall, _⟩
      · exact absurd (hcallees _ hgh) (by decide)
      · exact hend h _ (hcallees h hgh) hcall
    · rcases hkg.cases_head with rfl | ⟨_, hcall, _⟩
      · exact hend k h (hcallees k hk) hgh
      · exact hend k _ (hcallees k hk) hcall
  obtain ⟨_, hbegun, _, hvalue⟩ := table.walk_degrees
  exact ⟨hmain, hacyclic, by decide +kernel, hvalue "main" main hmain hacyclic, hbegun,
    by decide +kernel⟩

end

end FunctionTable

end CounterMachine
