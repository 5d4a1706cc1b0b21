import CounterMachine.Proofs.Lowering.Targets
import CounterMachine.Proofs.Reachable.Lines
import CounterMachine.Proofs.Semantics.Placement

/-!
# Jumps are resolved

Where the labels of a program and of its functions are linked, a run fails only because a function
is missing: every jump finds the one line that carries its label. A source that is linked leads to
linked programs only, so this is true of everything that is reachable from it.

## Key results

- `Machine.run_resolves`, `evaluateCall_resolves`: runs and calls do not fail because of a label
- `Program.Reachable.labels_resolved`: labels of reachable programs are distinct, and all jumps of
  their runs are resolved
-/

namespace CounterMachine

/-- What an evaluation yields has a property, and a fault can only be a function that is missing. -/
def Evaluation.Resolves {σ α : Type} (e : Evaluation σ α) (P : α → Prop) : Prop :=
  match e with
  | .finished a _ => P a
  | .failed error _ => ∃ name, error = .unknownFunction name
  | .unfinished => True

/-- An evaluator of calls fails only because a function is missing. -/
def Resolving (evaluate : CallEvaluator) : Prop :=
  ∀ call env, (evaluate call env).Resolves fun _ => True

/-- Control goes to the next line, or where an instruction may jump. -/
def Instruction.Allows (i : Instruction) (flow : Flow) : Prop :=
  flow = .fallThrough ∨ ∃ target, i.target? = some target ∧ flow = .jump target

section

variable {σ α β : Type}

/-- Two evaluations in a row fail only because a function is missing, if each of them does. -/
theorem Evaluation.Resolves.bind {e : Evaluation σ α} {P : α → Prop} {Q : β → Prop}
    {next : α → σ → Evaluation σ β} (h : e.Resolves P)
    (hnext : ∀ a s, P a → (next a s).Resolves Q) : (e.bind next).Resolves Q := by
  cases e with
  | finished a s => exact hnext a s h
  | failed error s => exact h
  | unfinished => exact h

/-- A jump under a condition falls through or goes to its target. -/
theorem Instruction.allows_jumpIf {i : Instruction} {target : Label} (h : i.target? = some target)
    (condition : Bool) : i.Allows (.jumpIf condition target) := by
  cases condition with
  | false => exact .inl rfl
  | true => exact .inr ⟨target, h, rfl⟩

end

/-! ### One step -/

section

variable {evaluate : CallEvaluator} (h : Resolving evaluate)
include h

/-- Arguments fail only because a function is missing. -/
theorem Argument.values_resolves (args : List Argument) (env : Environment) :
    (Argument.values evaluate args env).Resolves fun _ => True := by
  induction args generalizing env with
  | nil => trivial
  | cons arg rest ih =>
    cases arg with
    | var v => exact (ih env).bind fun _ _ _ => trivial
    | nested function args =>
      refine (h ⟨function, args⟩ env).bind fun value env _ => ?_
      exact (ih _).bind fun _ _ _ => trivial

/-- An instruction fails only because of a call, and control goes where the instruction allows. -/
theorem Instruction.execute_resolves (i : Instruction) (env : Environment) :
    (i.execute evaluate env).Resolves i.Allows := by
  cases i with
  | jumpNotZero v target => exact allows_jumpIf rfl _
  | goto target => exact .inr ⟨target, rfl, rfl⟩
  | jumpZero v target => exact allows_jumpIf rfl _
  | jumpEqual v rhs target => exact allows_jumpIf rfl _
  | quote dst call => exact (h call env).bind fun _ _ _ => .inl rfl
  | jumpEqualCall v call target => exact (h call env).bind fun _ _ _ => allows_jumpIf rfl _
  | _ => exact .inl rfl

omit h in
/-- A machine that goes where an instruction of its program allows finds the label. -/
theorem Machine.follow_resolves {p : Program} (hp : Linked p.lines) {line : Line}
    (hline : line ∈ p.lines) {flow : Flow} (hflow : line.instruction.Allows flow) (m : Machine) :
    (m.follow p.code flow).Resolves fun _ => True := by
  rcases hflow with rfl | ⟨x, hx, rfl⟩
  · trivial
  · -- In a linked program the target is `EXIT`, or some line carries it.
    rcases hp.resolved line hline x hx with rfl | hmem
    · trivial
    · obtain ⟨hne, other, hother, hl⟩ := mem_carried.mp hmem
      obtain ⟨target, htarget⟩ := exists_labelPlace? hother hl hne
      have hexit : x.isExit = false := by
        cases x with
        | exit => exact absurd hl (hp.no_exit other hother)
        | _ => rfl
      have hposition : p.code.positions[x]? = some target :=
        (labelPositions_getElem? p.operations x).trans htarget
      simp only [Flow.jump, hexit, Bool.false_eq_true, if_false, Machine.follow, hposition]
      trivial

/-- A step of a linked program fails only because a function is missing. -/
theorem Machine.step_resolves {p : Program} (hp : Linked p.lines) (m : Machine) :
    (m.step evaluate p.code).Resolves fun _ => True := by
  rw [step]
  split
  · trivial
  · cases hop : p.code.operations[m.position]? with
    | none => trivial
    | some op =>
      have hline : op.line ∈ p.lines := by
        refine List.mem_of_getElem? (i := m.position) ?_
        rw [p.code_getElem?, hop, Option.map_some]
      have hexec := op.instruction.execute_resolves h m.env
      simp only
      -- The instruction fails for its call, or control goes where it allows.
      cases he : op.instruction.execute evaluate m.env with
      | finished flow env =>
        rw [he] at hexec
        exact follow_resolves hp hline hexec _
      | failed error env =>
        rw [he] at hexec
        exact hexec
      | unfinished => trivial

/-- So does a run. -/
theorem Machine.run_resolves {p : Program} (hp : Linked p.lines) (fuel : Nat) (m : Machine) :
    (Machine.run evaluate p.code fuel m).Resolves fun _ => True := by
  -- Step by step, a run fails only where a step does.
  induction fuel generalizing m with
  | zero => trivial
  | succ fuel ih =>
    have hstep := step_resolves h hp m
    rw [run]
    cases hs : m.step evaluate p.code with
    | finished status m' =>
      cases status with
      | running => exact ih m'
      | halted => trivial
    | failed error m' =>
      rw [hs] at hstep
      exact hstep
    | unfinished => trivial

end

/-- The evaluation of a call fails only because a function is missing. -/
theorem evaluateCall_resolves {table : FunctionTable}
    (htable : table.Each fun callee => Linked callee.lines) (fuel : Nat) :
    Resolving (evaluateCall table fuel) := by
  -- By induction on the fuel, as the function makes calls with less of it.
  induction fuel with
  | zero => exact fun _ _ => trivial
  | succ fuel ih =>
    intro call env
    rw [evaluateCall]
    cases hfind : table.find? call.function with
    | none => exact ⟨call.function, rfl⟩
    | some callee =>
      refine (Argument.values_resolves ih call.args env).bind fun values env' _ => ?_
      -- The function runs with the fuel that is left, and what it fails for is passed on.
      have hrun := Machine.run_resolves ih (htable _ _ hfind) fuel (.start callee values false)
      cases hm : Machine.run (evaluateCall table fuel) callee.code fuel
          (.start callee values false) with
      | finished _ m => trivial
      | failed error m =>
        rw [hm] at hrun
        exact hrun
      | unfinished => trivial

namespace Program

/-- A run of a linked program does not fail because of a label. -/
theorem run_ne_unresolvedLabel {p : Program} (hp : Linked p.lines)
    (htable : p.callable.Each fun callee => Linked callee.lines) (fuel : Nat)
    (values : List Value) (x : Label) :
    p.run fuel values ≠ some (.error (.unresolvedLabel x)) := by
  have hrun := Machine.run_resolves (evaluateCall_resolves htable fuel) hp fuel
    (.start p values true)
  intro h
  rw [run, runIn] at h
  split at h
  · cases h
  · rename_i error m hm
    rw [hm] at hrun
    -- The fault is another one.
    obtain ⟨name, rfl⟩ := hrun
    cases h
  · cases h

section

variable {source p : Program}

/-- What has grown from a linked source is linked. -/
theorem Grown.linked (h : Grown source p) (horder : source.order = List.range source.arena.size)
    (hsource : Linked source.lines)
    (htable : source.callable.Each fun callee => Linked callee.lines) : Linked p.lines :=
  h.lines_induction horder Linked hsource fun _ _ _ _ _ _ hlow _ hlinked =>
    hlinked.lower htable hlow

end

variable {name : String} {displayName : Option String} {inputs : Option (List Variable)}
  {functions : Option (List Program)} {lines : List Line} {p : Program}

/-- Let no label be carried twice in a source or in one of the functions that it can call, let
`EXIT` be carried nowhere, and let every jump lead to `EXIT` or to a label that a line of the same
program carries. Then in every program that is reachable from the source no label is carried twice,
every jump leads to `EXIT` or to the label of exactly one operation, and no run fails because of a
label. -/
theorem Reachable.labels_resolved
    (hsource : Linked (ofLines name displayName inputs functions lines).lines)
    (htable : (ofLines name displayName inputs functions lines).callable.Each
      fun callee => Linked callee.lines)
    (h : Reachable (ofLines name displayName inputs functions lines) p) :
    DistinctLabels p.lines ∧
    (∀ op ∈ p.operations, ∀ x, op.instruction.target? = some x →
      x = .exit ∨ x ≠ .empty ∧ ∃! position : Nat, ∃ other : Operation,
        p.operations[position]? = some other ∧ other.label = x) ∧
    ∀ fuel values x, p.run fuel values ≠ some (.error (.unresolvedLabel x)) := by
  have hg := h.grown (Grown.ofLines ..)
  have hlinked := hg.linked (ofLines_order ..) hsource htable
  refine ⟨hlinked.distinct, fun op hop x hx => ?_, fun fuel values x => ?_⟩
  · refine (hlinked.resolved op.line (List.mem_map_of_mem hop) x hx).imp_right fun hmem => ?_
    -- Some line carries the target, and since labels are distinct no other one does.
    obtain ⟨hne, line, hline, hl⟩ := mem_carried.mp hmem
    obtain ⟨other, hother, rfl⟩ := List.mem_map.mp hline
    obtain ⟨position, hposition⟩ := List.mem_iff_getElem?.mp hother
    refine ⟨hne, position, ⟨other, hposition, hl⟩, fun position' ⟨other', hposition', hl'⟩ => ?_⟩
    have hlines : ∀ {k : Nat} {o : Operation}, p.operations[k]? = some o →
        p.lines[k]? = some o.line := fun hk => by rw [Program.lines, List.getElem?_map, hk]; rfl
    exact hlinked.distinct position' position other'.line other.line (hlines hposition')
      (hlines hposition) (hl'.trans hl.symm) fun hempty => hne (hl'.symm.trans hempty)
  · exact run_ne_unresolvedLabel hlinked (hg.callable_eq ▸ htable) fuel values x

/-- A loop and a call of a function with a loop, both with the label `L1`. -/
theorem labels_resolved_loops : ∃ p,
    (ofLines "count" none none
      (some [ofLines "clear" none none none
        [⟨.numbered 1, .decrease (.input 1)⟩, .plain (.jumpNotZero (.input 1) (.numbered 1))]])
      [⟨.numbered 1, .decrease (.input 1)⟩, .plain (.jumpNotZero (.input 1) (.numbered 1)),
        .plain (.quote .result ⟨"clear", [.var (.input 1)]⟩)]).expand 1 = .ok p ∧
    DistinctLabels p.lines ∧
    ∀ fuel values x, p.run fuel values ≠ some (.error (.unresolvedLabel x)) := by
  have hp : (ofLines "count" none none
      (some [ofLines "clear" none none none
        [⟨.numbered 1, .decrease (.input 1)⟩, .plain (.jumpNotZero (.input 1) (.numbered 1))]])
      [⟨.numbered 1, .decrease (.input 1)⟩, .plain (.jumpNotZero (.input 1) (.numbered 1)),
        .plain (.quote .result ⟨"clear", [.var (.input 1)]⟩)]).expand 1 = .ok _ := rfl
  -- Both texts begin with the loop, and no other line of them jumps.
  have hloop : ∀ rest : List Line, DistinctLabels (⟨.numbered 1, .decrease (.input 1)⟩ ::
      .plain (.jumpNotZero (.input 1) (.numbered 1)) :: rest) →
      (∀ line ∈ rest, line.label ≠ .exit ∧ line.instruction.target? = none) →
      Linked (⟨.numbered 1, .decrease (.input 1)⟩ ::
        .plain (.jumpNotZero (.input 1) (.numbered 1)) :: rest) := by
    refine fun rest hd hrest => ⟨⟨hd, ?_⟩, ?_⟩
    · simpa [Line.plain] using fun line hline => (hrest line hline).1
    · simp only [List.mem_cons, forall_eq_or_imp, carried_cons]
      refine ⟨fun x hx => ?_, fun x hx => .inr ?_, fun line hline x hx => ?_⟩
      · cases hx
      · cases hx
        exact List.mem_cons_self
      · rw [(hrest line hline).2] at hx
        cases hx
  have hresolved := Reachable.labels_resolved ?_ (fun function callee hfind => ?_)
    (.expand .refl hp)
  · exact ⟨_, hp, hresolved.1, hresolved.2.2⟩
  · exact hloop [.plain (.quote .result ⟨"clear", [.var (.input 1)]⟩)]
      (distinctLabels_iff.mpr (by decide)) (by simp [Line.plain, Instruction.target?])
  · rw [List.mem_singleton.mp (List.mem_of_find?_eq_some hfind)]
    exact hloop [] (distinctLabels_iff.mpr (by decide)) (List.forall_mem_nil _)

end Program

end CounterMachine
