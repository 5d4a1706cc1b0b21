import CounterMachine.Proofs.Semantics.Prologue
import CounterMachine.Proofs.Semantics.Simulation

/-!
# Inlined calls

The lines of a function, under fresh names, do among other lines what the function does in a run of
its own: step by step, on the counters that have the fresh names. Leaving the function means going
to the line behind it, which uses the result.

## Key results

- `inlined_simulates`: the function and its inlined lines in step
- `inlineCall_meets`: an inlined call comes to what the call is answered
-/

namespace CounterMachine

/-- What inlining asks of a function: its labels are in order, and no input is listed twice. -/
structure Inlinable (callee : Program) : Prop extends Labelled callee.lines where
  inputs_nodup : callee.inputs.Nodup

/-- Functions that can be inlined have distinct labels. -/
theorem FunctionTable.Each.labelled {table : FunctionTable} (h : table.Each Inlinable) :
    table.Each fun callee => Labelled callee.lines :=
  h.imp fun _ hcallee => hcallee.toLabelled

/-- Where a label that comes in with a body is carried, the body carries it. -/
def CarriedBy (lines : List Line) (s s' : Supply) (body : List Line) : Prop :=
  ∀ line ∈ lines, FreshLabel s s' line.label → UsesLabel body line.label →
    ∃ b ∈ body, b.label = line.label

/-- The fresh counters of an inlined function. -/
def CalleeVar (callee : Program) (s : Supply) (w : Variable) : Prop :=
  ∃ v ∈ callee.vars, w = calleeVar callee s v

section

variable {table : FunctionTable} {callee : Program} {args : List Argument} {s : Supply}
  {lines : List Line} {k : Nat}

/-! ### Arguments and other counters -/

/-- Where the values have been passed and the other counters of the function are zero, they stand as
a run of the function starts. -/
theorem matches_initial (hn : callee.inputs.Nodup) {values : List Value} {τ τ₁ τ₂ : Store}
    (hpassed : Passed (calleeVar callee s) (callee.inputs.take args.length) values τ τ₁)
    (hlen : args.length ≤ callee.inputs.length)
    (hzero : ∀ v ∈ unboundVars callee args, τ₂ (calleeVar callee s v) = 0)
    (hoff : AgreeOff (fun w => ∃ v ∈ unboundVars callee args, w = calleeVar callee s v) τ₁ τ₂) :
    Matches (· ∈ callee.vars) (calleeVar callee s) (.initial callee.inputs values) τ₂ := by
  have hlength : values.length = args.length := by
    rw [hpassed.length_eq, List.length_take, Nat.min_eq_left hlen]
  intro v hv
  by_cases hbound : v ∈ callee.inputs.take args.length
  · -- A counter that an argument has been passed in.
    obtain ⟨i, hi⟩ := List.mem_iff_getElem?.mp hbound
    have hnot : ¬ ∃ w ∈ unboundVars callee args, calleeVar callee s v = calleeVar callee s w := by
      rintro ⟨w, hw, heq⟩
      obtain ⟨hw', hunbound⟩ := List.mem_filter.mp hw
      rw [calleeVar_inj hv hw' heq] at hbound
      simp [hbound] at hunbound
    have hi' : callee.inputs[i]? = some v := by
      rw [List.getElem?_take] at hi
      split at hi
      · exact hi
      · cases hi
    rw [hoff _ hnot, hpassed.value_eq i v hi, Store.initial_of_getElem? values hn hi']
  · -- A counter that starts at zero.
    have hunbound : v ∈ unboundVars callee args := List.mem_filter.mpr ⟨hv, by simpa using hbound⟩
    rw [hzero v hunbound]
    by_cases hin : v ∈ callee.inputs
    · obtain ⟨i, hi⟩ := List.mem_iff_getElem?.mp hin
      have hge : args.length ≤ i := by
        by_contra hlt
        refine hbound (List.mem_iff_getElem?.mpr ⟨i, ?_⟩)
        rw [List.getElem?_take, if_pos (by omega), hi]
      rw [Store.initial_of_getElem? values hn hi, List.getElem?_eq_none (by omega)]
      rfl
    · rw [Store.initial_of_notMem values hin]

/-- The lines before the function's own lines set its counters as a run of it starts. -/
theorem prologue_arrives (table : FunctionTable) (hn : callee.inputs.Nodup)
    (hlen : args.length ≤ callee.inputs.length)
    (hargs : ∀ v ∈ Argument.listVars args, ¬ CalleeVar callee s v)
    (h : Placed lines k (bindingLines callee args s ++ clearingLines callee args s)) (τ : Store) :
    Arrives table.oracle lines (.goto lines k τ)
      (fun values c => ∃ τ', c = .goto lines (k + (bindingLines callee args s ++
          clearingLines callee args s).length) τ' ∧
        Matches (· ∈ callee.vars) (calleeVar callee s) (.initial callee.inputs values) τ' ∧
        AgreeOff (CalleeVar callee s) τ τ')
      (Argument.answers table.oracle args τ) := by
  have hmem : ∀ v ∈ callee.inputs, v ∈ callee.vars := fun v hv =>
    Program.mem_vars_of_mem_inputs hv
  have hbindings := bindings_arrive table (X := CalleeVar callee s) callee.inputs args
    h.append_left hlen hn (fun v hv => ⟨v, hmem v hv, rfl⟩)
    (fun v hv w hw => calleeVar_inj (hmem v hv) (hmem w hw)) hargs (.refl τ)
  refine hbindings.go fun values c ⟨τ₁, hc, hpassed⟩ => ?_
  obtain ⟨τ₂, hreach, hzero, hoff⟩ := clearings_reach table.oracle (unboundVars callee args) τ₁
    h.append_right
  subst hc
  refine ⟨_, ?_, τ₂, rfl, matches_initial hn hpassed hlen hzero hoff, fun w hw => ?_⟩
  · have hblen : (bindingLines callee args s).length = args.length := by
      rw [bindingLines, List.length_zipWith, Nat.min_eq_right hlen]
    have hclen : (clearingLines callee args s).length = (unboundVars callee args).length := by
      rw [clearingLines, List.length_map]
    rw [hblen] at hreach
    rw [List.length_append, hblen, hclen, ← Nat.add_assoc]
    exact hreach
  · -- What is not a counter of the function is neither cleared nor written an argument to.
    have hcleared : ¬ ∃ v ∈ unboundVars callee args, w = calleeVar callee s v := by
      rintro ⟨v, hv, heq⟩
      exact hw ⟨v, (List.mem_filter.mp hv).1, heq⟩
    have hbound : ¬ ∃ v ∈ callee.inputs.take args.length, w = calleeVar callee s v := by
      rintro ⟨v, hv, heq⟩
      exact hw ⟨v, hmem v (List.mem_of_mem_take hv), heq⟩
    rw [hoff w hcleared, hpassed.other w hbound]

/-! ### The function itself -/

/-- A run of a function, and a run at its inlined lines from position `c` on. -/
inductive InStep (callee : Program) (s : Supply) (c : Nat) (τ₀ : Store) : RunState → RunState → Prop
  | running {p : Nat} {ρ τ : Store} (hp : p < callee.lines.length)
      (hm : Matches (· ∈ callee.vars) (calleeVar callee s) ρ τ)
      (hoff : AgreeOff (CalleeVar callee s) τ₀ τ) :
      InStep callee s c τ₀ (.running p ρ) (.running (c + p) τ)
  | halted {ρ τ : Store} (hm : Matches (· ∈ callee.vars) (calleeVar callee s) ρ τ)
      (hoff : AgreeOff (CalleeVar callee s) τ₀ τ) :
      InStep callee s c τ₀ (.halted ρ) (.running (c + callee.lines.length) τ)
  | faulted : InStep callee s c τ₀ .faulted .faulted

/-- A label of a function is found where its new name is found. -/
theorem labelPlace?_calleeLabel (hcallee : Inlinable callee) (hd : DistinctLabels lines) {c : Nat}
    (h : Placed lines c (calleeLines callee s)) {n : Nat}
    (hn : .numbered n ∈ callee.numberedLabels)
    (hcarried : ∀ line ∈ lines, line.label = calleeLabel callee s (.numbered n) →
      ∃ b ∈ calleeLines callee s, b.label = calleeLabel callee s (.numbered n)) :
    labelPlace? (calleeLabel callee s (.numbered n)) lines =
      (labelPlace? (.numbered n) callee.lines).map (c + ·) := by
  obtain ⟨m, hm⟩ := calleeLabel_numbered (s := s) hn
  cases hp : labelPlace? (.numbered n) callee.lines with
  | some p =>
    obtain ⟨line, hline, hl, _⟩ := exists_line_of_labelPlace? hp
    have hb : (calleeLines callee s)[p]? = some ⟨calleeLabel callee s line.label,
        line.instruction.rename (calleeVar callee s) (calleeLabel callee s)⟩ := by
      rw [calleeLines_eq, List.getElem?_map, hline]
      rfl
    rw [hm, Option.map_some]
    exact h.labelPlace hd hb (by rw [← hm, ← hl])
  | none =>
    -- A line with the new name would stand for one of the function that carries the label.
    refine labelPlace?_eq_none fun line hline hl => ?_
    exfalso
    obtain ⟨b, hb, hbl⟩ := hcarried line hline hl
    rw [calleeLines_eq] at hb
    obtain ⟨line', hline', rfl⟩ := List.mem_map.mp hb
    simp only at hbl
    rcases label_cases hline' (hcallee.no_exit line' hline') with he | ⟨n', hn', hmem⟩
    · rw [he, calleeLabel_empty, hm] at hbl
      cases hbl
    · rw [hn'] at hbl
      have hnn := freshLabel_numbered_inj hmem hn hbl
      obtain ⟨i, hi⟩ := exists_labelPlace? hline' hn' nofun
      rw [hnn, hp] at hi
      cases hi

theorem labelPlace?_empty : labelPlace? .empty lines = none :=
  labelPlace?_eq_none fun _ _ _ => rfl

/-- While the function runs, the expansion runs. -/
theorem InStep.live {c : Nat} {τ₀ : Store} {c₁ d : RunState} (h : InStep callee s c τ₀ c₁ d)
    (hlive : ¬ c₁.Ended) : ¬ d.Ended := by
  cases h with
  | running hp hm hoff => exact id
  | halted hm hoff => exact id
  | faulted => exact hlive

/-- The function starts in step with its inlined lines. -/
theorem InStep.start {ρ τ₀ τ : Store} (c : Nat)
    (hm : Matches (· ∈ callee.vars) (calleeVar callee s) ρ τ)
    (hoff : AgreeOff (CalleeVar callee s) τ₀ τ) :
    InStep callee s c τ₀ (.goto callee.lines 0 ρ) (.running c τ) := by
  by_cases hempty : 0 < callee.lines.length
  · rw [RunState.goto_of_lt hempty]
    exact .running hempty hm hoff
  · -- A function without lines has halted at once.
    rw [RunState.goto_of_le (by omega)]
    have hhalted := InStep.halted (c := c) hm hoff
    rwa [show c + callee.lines.length = c by omega] at hhalted

/-- Going to the first line or to the end of no lines comes to the same. -/
theorem outcome_goto_zero (ask : Oracle) (lines : List Line) (σ : Store) :
    RunState.outcome ask lines (.running 0 σ) = RunState.outcome ask lines (.goto lines 0 σ) := by
  cases lines with
  | nil =>
    have hhalted : Ends ask [] (.halted σ) (.halted σ) := ⟨trivial, 0, rfl⟩
    have hrunning : Ends ask [] (.running 0 σ) (.halted σ) := ⟨trivial, 1, rfl⟩
    rw [RunState.outcome_of_ends hrunning]
    exact (RunState.outcome_of_ends hhalted).symm
  | cons line rest => rfl

section

variable {c : Nat} {τ₀ : Store}
  (hend : c + callee.lines.length < lines.length)
  (hreturn : labelPlace? (returnLabel s callee.numberedLabels) lines =
    some (c + callee.lines.length))
  (hlabels : ∀ n, .numbered n ∈ callee.numberedLabels →
    labelPlace? (calleeLabel callee s (.numbered n)) lines =
      (labelPlace? (.numbered n) callee.lines).map (c + ·))
include hend hreturn hlabels

/-- Going on in the function and among its inlined lines comes to the same. -/
theorem inStep_follow {p : Nat} {line : Line} (hline : callee.lines[p]? = some line)
    {flow flow' : Flow} (hflow : FlowMatches line.instruction (calleeLabel callee s) flow flow')
    {ρ τ : Store} (hm : Matches (· ∈ callee.vars) (calleeVar callee s) ρ τ)
    (hoff : AgreeOff (CalleeVar callee s) τ₀ τ) :
    InStep callee s c τ₀ (.follow callee.lines p ρ flow) (.follow lines (c + p) τ flow') := by
  have hp : p < callee.lines.length := (List.getElem?_eq_some_iff.mp hline).1
  rcases hflow with ⟨rfl, rfl⟩ | ⟨target, htarget, rfl, rfl⟩
  · -- Going on behind the last line of the function ends up where leaving it does.
    rw [RunState.follow, RunState.follow, Nat.add_assoc]
    by_cases hlast : p + 1 < callee.lines.length
    · rw [RunState.goto_of_lt hlast, RunState.goto_of_lt (by omega)]
      exact .running hlast hm hoff
    · have hplast : p + 1 = callee.lines.length := by omega
      rw [RunState.goto_of_le (by omega), RunState.goto_of_lt (by omega), hplast]
      exact .halted hm hoff
  · rcases target_cases (List.mem_of_getElem? hline) htarget with rfl | rfl | ⟨n, rfl, hn⟩
    · -- No line carries the empty label.
      rw [calleeLabel_empty]
      simp only [Flow.jump, Label.isExit, Bool.false_eq_true, if_false, RunState.follow,
        labelPlace?_empty]
      exact .faulted
    · -- Leaving the function is going to the line behind it.
      have hexit : calleeLabel callee s .exit = returnLabel s callee.numberedLabels := rfl
      obtain ⟨m, hm₁⟩ : ∃ m, returnLabel s callee.numberedLabels = .numbered m := ⟨_, rfl⟩
      rw [hexit, hm₁]
      rw [hm₁] at hreturn
      simp only [Flow.jump, Label.isExit, Bool.false_eq_true, if_true, if_false,
        RunState.follow, hreturn]
      exact .halted hm hoff
    · obtain ⟨m, hm₁⟩ := calleeLabel_numbered (s := s) hn
      have hplace := hlabels n hn
      rw [hm₁] at hplace ⊢
      simp only [Flow.jump, Label.isExit, Bool.false_eq_true, if_false, RunState.follow, hplace]
      cases hp' : labelPlace? (.numbered n) callee.lines with
      | none => exact .faulted
      | some q => exact .running (lt_of_labelPlace? hp') hm hoff

/-- The function and its inlined lines in step. -/
theorem inlined_simulates (table : FunctionTable) (h : Placed lines c (calleeLines callee s)) :
    Simulates table.oracle callee.lines lines (InStep callee s c τ₀) := by
  refine ⟨fun c₁ d hR hlive => ?_, fun c₁ d => InStep.live⟩
  cases hR with
  | halted hm hoff => exact absurd trivial hlive
  | faulted => exact absurd trivial hlive
  | @running p ρ τ hp hm hoff =>
    have hline : callee.lines[p]? = some callee.lines[p] := List.getElem?_eq_getElem hp
    have hmem : callee.lines[p] ∈ callee.lines := List.getElem_mem hp
    have hb : (calleeLines callee s)[p]? = some ⟨calleeLabel callee s callee.lines[p].label,
        callee.lines[p].instruction.rename (calleeVar callee s) (calleeLabel callee s)⟩ := by
      rw [calleeLines_eq, List.getElem?_map, hline]
      rfl
    obtain ⟨line', hline', hi, _⟩ := h p _ hb
    have hi : line'.instruction =
        callee.lines[p].instruction.rename (calleeVar callee s) (calleeLabel callee s) := hi
    have heffect := callee.lines[p].instruction.effect_rename table (f := calleeVar callee s)
      (calleeLabel callee s) (fun v w => calleeVar_inj) (fun v hv => vars_of_mem_lines hmem hv) hm
    rw [← hi] at heffect
    refine matched_of_meets hline heffect (meets_line _ τ hline') .faulted
      fun effect effect' d' _ hrel hd' => ?_
    obtain ⟨hflow, hm', hsame⟩ := hrel
    -- The renamed instruction writes fresh counters only.
    have hoff' : AgreeOff (CalleeVar callee s) τ₀ effect'.2 := by
      intro w hw
      rw [hsame w fun v hv heq => hw ⟨v, hv, heq⟩, hoff w hw]
    rw [hd']
    exact inStep_follow hend hreturn hlabels hline hflow hm' hoff'

/-- From its start on, an inlined function comes to what a run of it comes to. -/
theorem callee_arrives (table : FunctionTable) (h : Placed lines c (calleeLines callee s))
    {values : List Value} {τ : Store}
    (hm : Matches (· ∈ callee.vars) (calleeVar callee s) (.initial callee.inputs values) τ)
    (hoff : AgreeOff (CalleeVar callee s) τ₀ τ) :
    Arrives table.oracle lines (.running c τ)
      (fun value d => ∃ τ', d = .running (c + callee.lines.length) τ' ∧
        τ' (calleeVar callee s .result) = value ∧ AgreeOff (CalleeVar callee s) τ₀ τ')
      (callee.outcome table values) := by
  have hsim : Simulates table.oracle callee.lines lines (InStep callee s c τ₀) :=
    inlined_simulates hend hreturn hlabels table h
  have hstart := InStep.start c hm hoff
  rw [Program.outcome, outcome_goto_zero]
  rcases ends_or_endless table.oracle callee.lines
    (.goto callee.lines 0 (.initial callee.inputs values)) with ⟨e, he⟩ | hendless
  · rw [RunState.outcome_of_ends he]
    obtain ⟨d, hd, hR⟩ := hsim.reaches hstart he
    cases hR with
    | running hp hm hoff => exact absurd he.1 id
    | @halted ρ τ' hm' hoff' =>
      exact ⟨_, hd, τ', rfl, hm' .result (Program.result_mem_vars callee), hoff'⟩
    | faulted => exact hd
  · rw [RunState.outcome_of_never hendless]
    exact hsim.endless hstart hendless

end

/-! ### The whole call -/

variable {final : Variable → Instruction}

/-- The line that uses the result is the last one. -/
theorem inlineCall_last :
    (inlineCall callee args final s).1[(bindingLines callee args s ++ clearingLines callee args s ++
      calleeLines callee s).length]? = some (returnLine callee s final) := by
  rw [inlineCall_eq]
  exact List.getElem?_concat_length

/-- The labels of the function are carried, under their new names, by its own lines. -/
theorem carried_calleeLines
    (hcarried : CarriedBy lines s (inlineCall callee args final s).2
      (inlineCall callee args final s).1)
    {n : Nat} (hn : .numbered n ∈ callee.numberedLabels) {line : Line} (hline : line ∈ lines)
    (hl : line.label = calleeLabel callee s (.numbered n)) :
    ∃ b ∈ calleeLines callee s, b.label = calleeLabel callee s (.numbered n) := by
  obtain ⟨i, hi, hx⟩ := freshLabel_numbered (s := s) hn
  have hfresh : FreshLabel s (inlineCall callee args final s).2 line.label := by
    rw [hl, calleeLabel, hx, inlineCall_eq]
    exact s.freshLabel_labelAt _ _ _ (Nat.succ_pos i) (by omega)
  have hne : calleeLabel callee s (.numbered n) ≠ .empty := by
    obtain ⟨m, hm⟩ := calleeLabel_numbered (s := s) hn
    simp [hm]
  obtain ⟨b, hb, hbl⟩ := hcarried line hline hfresh (hl ▸ calleeLabel_used final hn hne)
  rw [hl] at hbl
  rw [inlineCall_eq] at hb
  simp only [List.mem_append, List.mem_singleton] at hb
  rcases hb with ((hb | hb) | hb) | rfl
  · obtain ⟨_, _, arg, _, _, rfl⟩ := mem_bindingLines.mp hb
    cases arg <;> exact absurd hbl.symm hne
  · obtain ⟨v, _, rfl⟩ := List.mem_map.mp hb
    exact absurd hbl.symm hne
  · exact ⟨b, hb, hbl⟩
  · -- The label of the last line is larger than all of these.
    rw [calleeLabel, hx] at hbl
    simp only [returnLine, returnLabel, Supply.labelAt, Label.numbered.injEq] at hbl
    omega

/-- Up to its last line, an inlined call comes to what the call is answered. -/
theorem inlineCall_meets {call : Call} (hfind : table.find? call.function = some callee)
    (hcallee : Inlinable callee) (hlen : call.args.length ≤ callee.inputs.length)
    (hargs : ∀ v ∈ call.vars, ¬ CalleeVar callee s v) (hd : DistinctLabels lines)
    (hcarried : CarriedBy lines s (inlineCall callee call.args final s).2
      (inlineCall callee call.args final s).1)
    (h : Placed lines k (inlineCall callee call.args final s).1) (τ : Store) :
    Meets table.oracle lines (.running k τ)
      (fun value c => ∃ τ', c = .running (k + (bindingLines callee call.args s ++
          clearingLines callee call.args s ++ calleeLines callee s).length) τ' ∧
        τ' (calleeVar callee s .result) = value ∧ AgreeOff (CalleeVar callee s) τ τ')
      (table.oracle call τ) := by
  have hlast := h.lt_length (List.getElem?_eq_some_iff.mp inlineCall_last).1
  obtain ⟨last, hlastline, _, hlastlabel⟩ := h _ _ inlineCall_last
  rw [List.length_append, calleeLines_length, ← Nat.add_assoc] at hlast hlastline ⊢
  rw [inlineCall_eq] at h
  have hbody := h.append_left
  have hne : returnLabel s callee.numberedLabels ≠ .empty := by
    simp [returnLabel, Supply.labelAt]
  have hreturn := labelPlace?_of_distinct hd hlastline (hlastlabel hne) hne
  have hprologue := prologue_arrives table hcallee.inputs_nodup hlen hargs hbody.append_left τ
  rw [RunState.goto_of_lt (by omega)] at hprologue
  rw [table.oracle_eq, hfind]
  refine Arrives.meets (hprologue.bind ?_) (by simp) ?_
  · -- The function is entered as it starts and left behind its own lines.
    rintro values _ ⟨τ₁, rfl, hm, hoff⟩
    rw [RunState.goto_of_lt (by omega)]
    exact callee_arrives hlast hreturn
      (fun n hn => labelPlace?_calleeLabel hcallee hd hbody.append_right hn
        fun line hline hl => carried_calleeLines hcarried hn hline hl)
      table hbody.append_right hm hoff
  · -- Something stands before the function's own lines.
    rintro value _ ⟨τ', rfl, _⟩ heq
    have hpos := List.length_pos_iff.mpr
      (prologue_ne_nil :
        bindingLines callee call.args s ++ clearingLines callee call.args s ≠ [])
    have hplace := (RunState.running.inj heq).1
    omega

end

end CounterMachine
