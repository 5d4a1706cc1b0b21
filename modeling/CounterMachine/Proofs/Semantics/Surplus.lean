import CounterMachine.Proofs.Reachable.Leaves
import CounterMachine.Proofs.Semantics.Equivalence

/-!
# Arguments that are too much

A call may pass more than its function takes. The machine asks for the value of every argument and
then leaves out what is too much, while a lowered call passes as many arguments as there are inputs
and does not mention the others. So the lowered lines stand for the call that is trimmed to the
inputs of its function. Where the whole call is answered, the trimmed one is answered the same. But
an argument that is too much may be a call that fails, or that is never answered, and the lowered
lines know nothing of that.

## Key results

- `lower_trim`: a call and the trimmed call are lowered to the same lines
- `FunctionTable.oracle_trim_of_value`, `FunctionTable.oracle_trim`: answers of both
- `Program.expandSingle_halts`: an expanded call still halts with what it halted with
- `Program.expandSingle_runsEqually`: if only counters are too much, it fails on the same inputs too
- `Program.expandSingle_call_runs`: runs before and after a call is expanded
-/

namespace CounterMachine

/-- The call with a number of its arguments. -/
def Call.trim (n : Nat) (call : Call) : Call := { call with args := call.args.take n }

/-- The instruction with a number of the arguments of its call. -/
def Instruction.trim (n : Nat) : Instruction → Instruction
  | quote dst call => quote dst (call.trim n)
  | jumpEqualCall v call target => jumpEqualCall v (call.trim n) target
  | i => i

/-- The line with a number of the arguments of its call. -/
def Line.trim (n : Nat) (line : Line) : Line := ⟨line.label, line.instruction.trim n⟩

/-! ### Lowering -/

section

variable {table : FunctionTable} {callee : Program} {call : Call} {i : Instruction} {line : Line}
  {s : Supply}

/-- Arguments behind the last input are not mentioned. -/
theorem inlineCall_take (callee : Program) (args : List Argument) (final : Variable → Instruction)
    (s : Supply) :
    inlineCall callee (args.take callee.inputs.length) final s =
      inlineCall callee args final s := by
  have hbound : callee.inputs.take (args.take callee.inputs.length).length =
      callee.inputs.take args.length := by
    rw [List.length_take, ← List.take_take]
    exact List.take_of_length_le (List.length_take_le' _ _)
  have hzip : ∀ f : Variable → Argument → Line, List.zipWith f callee.inputs
      (args.take callee.inputs.length) = List.zipWith f callee.inputs args := fun f => calc
    _ = (List.zipWith f callee.inputs args).take callee.inputs.length := by
      rw [List.take_zipWith, List.take_length]
    _ = List.zipWith f callee.inputs args :=
      List.take_of_length_le (List.length_zipWith ▸ Nat.min_le_left _ _)
  rw [inlineCall, inlineCall, hbound, hzip]

/-- A call and the trimmed call are lowered to the same lines. -/
theorem lower_trim (hcall : line.instruction.call? = some call)
    (hfind : table.find? call.function = some callee) :
    (line.trim callee.inputs.length).lower table s = line.lower table s := by
  -- Only the arguments that reach an input occur in the body.
  have hbody : (line.instruction.trim callee.inputs.length).body table line.label s =
      line.instruction.body table line.label s := by
    cases hi : line.instruction with
    | quote dst call' =>
      rw [hi] at hcall
      cases hcall
      simp only [Instruction.trim, Call.trim, Instruction.body, inlineNamed, hfind, inlineCall_take]
    | jumpEqualCall v call' target =>
      rw [hi] at hcall
      cases hcall
      simp only [Instruction.trim, Call.trim, Instruction.body, inlineNamed, hfind, inlineCall_take]
    | _ => rfl
  rw [Line.lower, Line.lower, Line.trim, hbody]

/-- The trimmed call passes no more than its function takes. -/
theorem Instruction.trim_takes (hcall : i.call? = some call)
    (hfind : table.find? call.function = some callee) :
    (i.trim callee.inputs.length).Takes table := by
  -- What is left of the arguments is no longer than the inputs.
  have htakes : table.Takes call.function (call.args.take callee.inputs.length) := by
    intro callee' hfind'
    rw [hfind] at hfind'
    cases hfind'
    exact List.length_take_le _ _
  intro trimmed htrimmed
  cases i with
  | quote dst call' => cases hcall; cases htrimmed; exact htakes
  | jumpEqualCall v call' target => cases hcall; cases htrimmed; exact htakes
  | _ => cases hcall

/-- The first arguments list no other counters than all of them do. -/
theorem Argument.listVars_take_subset (args : List Argument) (n : Nat) :
    Argument.listVars (args.take n) ⊆ Argument.listVars args := by
  induction args generalizing n with
  | nil => simp
  | cons arg rest ih =>
    cases n with
    | zero => exact List.nil_subset _
    | succ n =>
      rw [List.take_succ_cons, listVars, listVars]
      exact List.append_subset.mpr ⟨List.subset_append_left _ _,
        fun v hv => List.mem_append_right _ (ih n hv)⟩

/-- The trimmed line uses no other names. -/
theorem Line.names_trim_subset (line : Line) (n : Nat) : (line.trim n).names ⊆ line.names := by
  have hvars : (line.instruction.trim n).vars ⊆ line.instruction.vars := by
    cases line.instruction with
    | quote dst call =>
      exact List.cons_subset_cons dst (Argument.listVars_take_subset call.args n)
    | jumpEqualCall v call target =>
      exact List.cons_subset_cons v (Argument.listVars_take_subset call.args n)
    | _ => exact List.Subset.refl _
  have hlabels : (line.trim n).labels = line.labels := by
    rw [Line.labels, Line.labels, Line.trim]
    cases line.instruction <;> rfl
  rw [names, names, hlabels]
  exact List.append_subset.mpr ⟨fun ν hν => List.mem_append_left _ (List.map_subset _ hvars hν),
    List.subset_append_right _ _⟩

end

/-! ### Answers -/

section

variable {ask : Oracle} {σ : Store}

/-- The values of some of the arguments are among the values of all. -/
theorem Argument.answers_take {args : List Argument} {values : List Value} (n : Nat)
    (h : Argument.answers ask args σ = .value values) :
    Argument.answers ask (args.take n) σ = .value (values.take n) := by
  induction args generalizing values n with
  | nil =>
    cases h
    rw [List.take_nil, List.take_nil]
    rfl
  | cons arg rest ih =>
    -- The first value is asked for in any case, so the others are asked for as before.
    cases n with
    | zero => rfl
    | succ n =>
      rw [answers] at h
      obtain ⟨first, hfirst, hrest⟩ := Reply.bind_eq_value.mp h
      obtain ⟨others, hothers, rfl⟩ := Reply.map_eq_value.mp hrest
      rw [List.take_succ_cons, answers, hfirst, Reply.bind_value, ih n hothers, Reply.map_value,
        List.take_succ_cons]

/-- Arguments are evaluated from left to right, so a list of them can be cut in two. -/
theorem Argument.answers_append (args args' : List Argument) :
    Argument.answers ask (args ++ args') σ = (Argument.answers ask args σ).bind fun values =>
      (Argument.answers ask args' σ).map (values ++ ·) := by
  -- A fault or a missing answer in the first part comes before the second part.
  induction args with
  | nil =>
    rw [List.nil_append, answers, Reply.bind_value]
    cases Argument.answers ask args' σ <;> rfl
  | cons arg rest ih =>
    rw [List.cons_append, answers, answers, ih]
    cases arg.answer ask σ <;> cases Argument.answers ask rest σ <;>
      cases Argument.answers ask args' σ <;> rfl

/-- Counters that are passed have values. -/
theorem Argument.exists_answers_of_var {args : List Argument}
    (h : ∀ (k : Nat) (function : String) (inner : List Argument),
      args[k]? ≠ some (.nested function inner)) :
    ∃ values, Argument.answers ask args σ = .value values := by
  induction args with
  | nil => exact ⟨[], rfl⟩
  | cons arg rest ih =>
    -- A counter is read, which always comes to a value.
    cases arg with
    | nested function inner => exact absurd rfl (h 0 function inner)
    | var v =>
      obtain ⟨values, hvalues⟩ := ih fun k => h (k + 1)
      exact ⟨σ v :: values, by rw [answers, hvalues]; rfl⟩

/-- Values behind the last input are left out. -/
theorem Store.initial_take (inputs : List Variable) (values : List Value) :
    Store.initial inputs (values.take inputs.length) = Store.initial inputs values := by
  have hpairs : Bindings.inputPairs inputs (values.take inputs.length) =
      Bindings.inputPairs inputs values := by
    refine List.mapIdx_eq_mapIdx_iff.mpr fun i hi => ?_
    rw [List.getElem?_take_of_lt hi]
  rw [initial, initial, hpairs]

/-- So they make no difference to what a function comes to. -/
theorem Program.outcome_take (table : FunctionTable) (p : Program) (values : List Value) :
    p.outcome table (values.take p.inputs.length) = p.outcome table values := by
  rw [outcome, outcome, Store.initial_take]

variable {table : FunctionTable} {callee : Program} {call : Call}

/-- Where a call is answered, the trimmed call is answered the same. -/
theorem FunctionTable.oracle_trim_of_value (hfind : table.find? call.function = some callee)
    {value : Value} (h : table.oracle call σ = .value value) :
    table.oracle (call.trim callee.inputs.length) σ = .value value := by
  have hfind' : table.find? (call.trim callee.inputs.length).function = some callee := hfind
  rw [table.oracle_eq, hfind] at h
  rw [table.oracle_eq, hfind']
  simp only [Call.trim] at h ⊢
  obtain ⟨values, hvalues, houtcome⟩ := Reply.bind_eq_value.mp h
  rw [Argument.answers_take _ hvalues, Reply.bind_value, callee.outcome_take, houtcome]

/-- If only counters are too much, then both calls are answered the same. -/
theorem FunctionTable.oracle_trim (hfind : table.find? call.function = some callee)
    (hreceives : table.Receives call.function call.args) :
    table.oracle (call.trim callee.inputs.length) σ = table.oracle call σ := by
  have hfind' : table.find? (call.trim callee.inputs.length).function = some callee := hfind
  -- What is too much has values, so only the other arguments decide whether the call is answered.
  obtain ⟨others, hothers⟩ : ∃ values,
      Argument.answers table.oracle (call.args.drop callee.inputs.length) σ = .value values :=
    Argument.exists_answers_of_var fun k function inner hk => by
      rw [List.getElem?_drop] at hk
      have := hreceives callee hfind _ function inner hk
      omega
  have hall : Argument.answers table.oracle call.args σ =
      (Argument.answers table.oracle (call.args.take callee.inputs.length) σ).map
        (· ++ others) := by
    nth_rewrite 1 [← List.take_append_drop callee.inputs.length call.args]
    rw [Argument.answers_append, hothers]
    rfl
  rw [table.oracle_eq, table.oracle_eq, hfind, hfind']
  simp only [Call.trim]
  cases htrimmed : Argument.answers table.oracle (call.args.take callee.inputs.length) σ with
  | fault => rw [hall, htrimmed]; rfl
  | never => rw [hall, htrimmed]; rfl
  | value values =>
    rw [htrimmed, Reply.map_value] at hall
    -- The values of the trimmed call are those of the whole call that are not too much.
    have hvalues := Argument.answers_take callee.inputs.length hall
    rw [htrimmed] at hvalues
    rw [hall, Reply.bind_value, Reply.bind_value, ← callee.outcome_take table (values ++ others),
      ← Reply.value.inj hvalues]

/-! ### Runs -/

variable {lines lines' : List Line}

/-- Where the labels are the same, they are found at the same places. -/
theorem labelPlace?_congr {x : Label} (h : lines'.map Line.label = lines.map Line.label) :
    labelPlace? x lines' = labelPlace? x lines := by
  induction lines generalizing lines' with
  | nil => rw [List.map_eq_nil_iff.mp h]
  | cons line rest ih =>
    obtain ⟨line', rest', rfl, hline, hrest⟩ := List.map_eq_cons_iff.mp h
    rw [labelPlace?, labelPlace?, ih hrest, hline]

/-- So control goes to the same places. -/
theorem RunState.follow_congr (h : lines'.map Line.label = lines.map Line.label) (p : Nat)
    (flow : Flow) : RunState.follow lines' p σ flow = RunState.follow lines p σ flow := by
  have hlength : lines'.length = lines.length := by simpa using congrArg List.length h
  cases flow with
  | fallThrough => rw [follow, follow, goto, goto, hlength]
  | goto x => rw [follow, follow, labelPlace?_congr h]
  | exit => rfl

/-- There is a line at the same positions, with the same label. -/
theorem getElem?_label_congr (h : lines'.map Line.label = lines.map Line.label) (p : Nat) :
    lines'[p]?.map Line.label = lines[p]?.map Line.label := by
  rw [← List.getElem?_map, h, List.getElem?_map]

/-- A step is the same where the lines have the same effect. -/
theorem RunState.next_congr_at (hlabels : lines'.map Line.label = lines.map Line.label) {p : Nat}
    {τ : Store} (heffect : ∀ line line' : Line, lines[p]? = some line → lines'[p]? = some line' →
      line'.instruction.effect ask τ = line.instruction.effect ask τ) :
    RunState.next ask lines' (.running p τ) = RunState.next ask lines (.running p τ) := by
  have hlabel := getElem?_label_congr hlabels p
  cases hline : lines[p]? with
  | none =>
    rw [hline, Option.map_none, Option.map_eq_none_iff] at hlabel
    simp only [next, hline, hlabel]
  | some line =>
    rw [hline, Option.map_some, Option.map_eq_some_iff] at hlabel
    obtain ⟨line', hline', _⟩ := hlabel
    simp only [next, hline, hline', heffect line line' hline hline', follow_congr hlabels]

/-- Where a run halts, the run of a program with the same labels halts in the same store, if all
effects that lines of the first program have are those of the lines of the second one. -/
theorem RunState.iterate_next_of_halted (hlabels : lines'.map Line.label = lines.map Line.label)
    (heffect : ∀ (p : Nat) (line line' : Line), lines[p]? = some line → lines'[p]? = some line' →
      ∀ τ effect, line.instruction.effect ask τ = .value effect →
        line'.instruction.effect ask τ = .value effect)
    (n : Nat) (c : RunState) (h : (RunState.next ask lines)^[n] c = .halted σ) :
    (RunState.next ask lines')^[n] c = .halted σ := by
  -- By induction on the number of steps to the end.
  induction n generalizing c with
  | zero => exact h
  | succ n ih =>
    cases c with
    | halted τ =>
      rw [iterate_next_halted] at h ⊢
      exact h
    | faulted =>
      rw [iterate_next_faulted] at h
      cases h
    | running p τ =>
      rw [Function.iterate_succ_apply] at h ⊢
      -- A run that halts has got an answer at each line on its way.
      rw [next_congr_at hlabels fun line line' hline hline' => ?_]
      · exact ih _ h
      · cases he : line.instruction.effect ask τ with
        | value effect => exact heffect p line line' hline hline' τ effect he
        | fault =>
          rw [next_of_fault hline he, iterate_next_faulted] at h
          cases h
        | never =>
          rw [next_of_never hline he, Function.iterate_fixed (next_of_never hline he)] at h
          cases h

/-- Programs with the same labels run alike, if their lines have the same effects. -/
theorem RunsAlike.of_effect_eq {V : Variable → Prop}
    (hlabels : lines'.map Line.label = lines.map Line.label)
    (heffect : ∀ (p : Nat) (line line' : Line), lines[p]? = some line → lines'[p]? = some line' →
      line'.instruction.effect ask = line.instruction.effect ask) :
    RunsAlike ask V σ lines lines' := by
  -- Step by step, both runs are one and the same.
  have hnext : RunState.next ask lines' = RunState.next ask lines := by
    funext c
    cases c with
    | halted τ => rfl
    | faulted => rfl
    | running p τ =>
      exact RunState.next_congr_at hlabels fun line line' hline hline' =>
        congrFun (heffect p line line' hline hline') τ
  exact ⟨fun e he => ⟨e, by rwa [Ends, hnext], .refl he.1⟩,
    fun hendless => by rwa [Endless, hnext]⟩

end

/-! ### Programs with one call trimmed -/

section

variable {table : FunctionTable} {callee : Program} {call : Call} {i : Instruction}
  {before after lines : List Line} {line : Line} {s s' : Supply} {σ : Store}

/-- Where an instruction has got an effect, it has got the same one with its call trimmed. -/
theorem Instruction.effect_trim_of_value (hcall : i.call? = some call)
    (hfind : table.find? call.function = some callee) {effect : Flow × Store}
    (h : i.effect table.oracle σ = .value effect) :
    (i.trim callee.inputs.length).effect table.oracle σ = .value effect := by
  have hanswer : ∀ f : Value → Flow × Store, (table.oracle call σ).map f = .value effect →
      (table.oracle (call.trim callee.inputs.length) σ).map f = .value effect := by
    intro f hmap
    obtain ⟨value, hvalue, rfl⟩ := Reply.map_eq_value.mp hmap
    rw [table.oracle_trim_of_value hfind hvalue, Reply.map_value]
  cases i with
  | quote dst call' => cases hcall; exact hanswer _ h
  | jumpEqualCall v call' target => cases hcall; exact hanswer _ h
  | _ => cases hcall

/-- If only counters are too much, then the effect is the same in any case. -/
theorem Instruction.effect_trim (hcall : i.call? = some call)
    (hfind : table.find? call.function = some callee)
    (hreceives : table.Receives call.function call.args) :
    (i.trim callee.inputs.length).effect table.oracle = i.effect table.oracle := by
  funext σ
  cases i with
  | quote dst call' =>
    cases hcall
    simp only [trim, effect, table.oracle_trim hfind hreceives]
  | jumpEqualCall v call' target =>
    cases hcall
    simp only [trim, effect, table.oracle_trim hfind hreceives]
  | _ => cases hcall

/-- Trimming a call changes no label. -/
theorem map_label_trim (before after : List Line) (line : Line) (n : Nat) :
    (before ++ line.trim n :: after).map Line.label = (before ++ line :: after).map Line.label := by
  rw [List.map_append, List.map_append, List.map_cons, List.map_cons]
  rfl

/-- At a position stands the same line, or the trimmed one. -/
theorem getElem?_trim {n p : Nat} {here here' : Line}
    (h : (before ++ line :: after)[p]? = some here)
    (h' : (before ++ line.trim n :: after)[p]? = some here') :
    here' = here ∨ here = line ∧ here' = line.trim n := by
  -- Before the line, at the line, and behind it.
  rcases Nat.lt_trichotomy p before.length with hlt | rfl | hgt
  · rw [List.getElem?_append_left hlt] at h h'
    exact .inl (Option.some.inj (h'.symm.trans h))
  · rw [List.getElem?_append_right (Nat.le_refl _), Nat.sub_self] at h h'
    exact .inr ⟨(Option.some.inj h).symm, (Option.some.inj h').symm⟩
  · rw [List.getElem?_append_right (Nat.le_of_lt hgt), List.getElem?_cons,
      if_neg (by omega)] at h h'
    exact .inl (Option.some.inj (h'.symm.trans h))

/-- So labels are as well placed as before. -/
theorem Labelled.trim (h : Labelled (before ++ line :: after)) (n : Nat) :
    Labelled (before ++ line.trim n :: after) := by
  refine ⟨distinctLabels_iff.mpr ?_, fun other hother => ?_⟩
  · rw [carried, map_label_trim]
    exact distinctLabels_iff.mp h.distinct
  · rcases List.mem_append.mp hother with hmem | hmem
    · exact h.no_exit other (List.mem_append_left _ hmem)
    · rcases List.mem_cons.mp hmem with rfl | hmem
      · exact h.no_exit line (List.mem_append_right _ List.mem_cons_self)
      · exact h.no_exit other (List.mem_append_right _ (List.mem_cons_of_mem _ hmem))

/-- The lowered lines stand for the trimmed line too. -/
theorem LoweredAmong.trim (h : LoweredAmong table before after line s s' lines)
    (hcall : line.instruction.call? = some call)
    (hfind : table.find? call.function = some callee) :
    LoweredAmong table before after (line.trim callee.inputs.length) s s' lines where
  lower_eq := (lower_trim hcall hfind).trans h.lower_eq
  covered ν hν := h.covered ν (line.names_trim_subset _ hν)
  apart := h.apart

/-- What makes a call is not basic. -/
theorem Instruction.isBasic_of_call? (i : Instruction) (hcall : i.call? = some call) :
    i.isBasic = false := by
  cases i with
  | quote dst call' => rfl
  | jumpEqualCall v call' target => rfl
  | _ => cases hcall

/-- The function of a call that is lowered is in the table. -/
theorem exists_find?_of_lower (h : line.lower table s = .ok (lines, s'))
    (hcall : line.instruction.call? = some call) :
    ∃ callee, table.find? call.function = some callee := by
  obtain ⟨body, hb, _⟩ := lower_eq_ok h
  -- A body is told by the form of the instruction.
  cases hi : line.instruction with
  | quote dst call' =>
    rw [hi] at hcall hb
    cases hcall
    cases body_cases hb with
    | basic _ hbasic => cases hbasic
    | quote _ _ callee hfind => exact ⟨callee, hfind⟩
  | jumpEqualCall v call' target =>
    rw [hi] at hcall hb
    cases hcall
    cases body_cases hb with
    | basic _ hbasic => cases hbasic
    | jumpEqualCall _ _ _ callee hfind => exact ⟨callee, hfind⟩
  | _ => rw [hi] at hcall; cases hcall

variable (htable : table.Each Inlinable) (h : Labelled (before ++ line :: after))
  (hlow : LoweredAmong table before after line s s' lines)
  (hcall : line.instruction.call? = some call) {V : Variable → Prop}
  (hV : ∀ v, V v → ¬ Added s s' lines v) (hzero : ∀ v, Added s s' lines v → σ v = 0)
include htable h hlow hcall hV hzero

/-- Where a program halts, the program after a call has been lowered halts alike. -/
theorem lowered_halts {τ : Store}
    (hhalts : Ends table.oracle (before ++ line :: after) (.running 0 σ) (.halted τ)) :
    ∃ e, Ends table.oracle (before ++ lines ++ after) (.running 0 σ) e ∧
      EndsAlike V (.halted τ) e := by
  obtain ⟨callee, hfind⟩ := exists_find?_of_lower hlow.lower_eq hcall
  obtain ⟨hended, n, hn⟩ := hhalts
  -- The lines stand for the trimmed call, with which the program halts in the same store.
  have htrimmed := RunState.iterate_next_of_halted
    (map_label_trim before after line callee.inputs.length)
    (fun p here here' hhere hhere' υ effect heffect => by
      rcases getElem?_trim hhere hhere' with rfl | ⟨rfl, rfl⟩
      · exact heffect
      · exact Instruction.effect_trim_of_value hcall hfind heffect) n _ hn
  exact (lowered_runsAlike htable (h.trim _) (Instruction.trim_takes hcall hfind)
    (hlow.trim hcall hfind) hV hzero).ends _ ⟨hended, n, htrimmed⟩

/-- If only counters are too much, both programs end alike. -/
theorem lowered_runsAlike_of_receives (hreceives : table.Receives call.function call.args) :
    RunsAlike table.oracle V σ (before ++ line :: after) (before ++ lines ++ after) := by
  obtain ⟨callee, hfind⟩ := exists_find?_of_lower hlow.lower_eq hcall
  -- Trimming comes first, which changes no effect, and then lowering.
  have htrimmed : RunsAlike table.oracle V σ (before ++ line :: after)
      (before ++ line.trim callee.inputs.length :: after) :=
    .of_effect_eq (map_label_trim before after line _) fun p here here' hhere hhere' => by
      rcases getElem?_trim hhere hhere' with rfl | ⟨rfl, rfl⟩
      · rfl
      · exact Instruction.effect_trim hcall hfind hreceives
  exact htrimmed.trans (lowered_runsAlike htable (h.trim _) (Instruction.trim_takes hcall hfind)
    (hlow.trim hcall hfind) hV hzero)

end

/-! ### Expanding a call -/

namespace Program

/-- An expanded operation leaves the table and the inputs alone. -/
theorem expandSingle_frame {p q : Program} {id levels : Nat}
    (h : p.expandSingle id levels = .ok q) :
    q.callable = p.callable ∧ q.inputs = p.inputs := by
  obtain ⟨_, _, _, _, rfl⟩ := expandSingle_eq_ok p q id levels h
  exact ⟨rfl, rfl⟩

section

variable {p q : Program} {id : Nat} {op : Operation} {call : Call} {s : Supply}
  {lines : List Line} {v : Variable}

/-- What the supply of a program hands out is no counter of the program. -/
theorem not_added_of_mem_vars (hv : v ∈ p.vars) : ¬ Added (Supply.ofProgram p) s lines v :=
  fun hadded => (Supply.covered_of_mem_usedVars (mem_vars.mp hv)).not_fresh hadded.1

/-- So it is no input, and starts at zero. -/
theorem initial_of_added (hadded : Added (Supply.ofProgram p) s lines v) (values : List Value) :
    Store.initial p.inputs values v = 0 :=
  Store.initial_of_notMem values fun hmem =>
    not_added_of_mem_vars (mem_vars_of_mem_inputs hmem) hadded

variable (hp : ∀ i ∈ p.order, i < p.arena.size) (hlabelled : Labelled p.lines)
  (htable : p.callable.Each Inlinable) (hop : p.operation? id = some op)
  (hcall : op.instruction.call? = some call) (h : p.expandSingle id 1 = .ok q)
include hp hlabelled htable hop hcall h

/-- Where a program halts, it halts alike after a call has been expanded by one level. -/
theorem expandSingle_halts {fuel : Nat} {values : List Value} {o : RunOutcome}
    (hrun : p.run fuel values = some (.ok o)) :
    ∃ fuel' o', q.run fuel' values = some (.ok o') ∧ o'.result = o.result ∧
      ∀ v ∈ p.vars, o'.bindings.read v = o.bindings.read v := by
  obtain ⟨before, after, lines, s, hlines, hlines', hlow⟩ :=
    expandSingle_loweredAmong hp hop (op.instruction.isBasic_of_call? hcall) h
  obtain ⟨hcallable, hinputs⟩ := expandSingle_frame h
  obtain ⟨σ, hσ, hresult, hread⟩ := run_ok hrun
  rw [hlines] at hlabelled
  rw [RunsTo, hlines] at hσ
  obtain ⟨e, he, halike⟩ := lowered_halts htable hlabelled hlow hcall
    (fun v => not_added_of_mem_vars) (fun v hadded => initial_of_added hadded values) hσ
  -- What has halted in a store has got the result and the contents of that store.
  cases halike with
  | @halted _ τ hsame =>
    have hτ : q.RunsTo values (.halted τ) := by
      rw [RunsTo, hlines', hcallable, hinputs]
      exact he
    obtain ⟨fuel', o', hrun', hresult', hread'⟩ := exists_run_eq hτ
    exact ⟨fuel', o', hrun', by rw [hresult', hresult, hsame _ (result_mem_vars p)],
      fun v hv => by rw [hread', hread, hsame v hv]⟩

/-- If only counters are too much, then it also fails on the same inputs. -/
theorem expandSingle_runsEqually (hreceives : p.callable.Receives call.function call.args)
    (values : List Value) : RunsEqually p q values := by
  obtain ⟨before, after, lines, s, hlines, hlines', hlow⟩ :=
    expandSingle_loweredAmong hp hop (op.instruction.isBasic_of_call? hcall) h
  obtain ⟨hcallable, hinputs⟩ := expandSingle_frame h
  refine .of_runsAlike hcallable hinputs ?_
  rw [hlines] at hlabelled ⊢
  rw [hlines']
  exact lowered_runsAlike_of_receives htable hlabelled hlow hcall
    (fun v => not_added_of_mem_vars) (fun v hadded => initial_of_added hadded values) hreceives

end

section

variable {name : String} {displayName : Option String} {inputs : Option (List Variable)}
  {functions : Option (List Program)} {lines : List Line} {p : Program}

/-- Let a source and the functions that it can call carry no label twice and `EXIT` nowhere, and let
these functions list no input twice. If a call of the source is expanded by one level, then where
the source halts the expanded program halts, with the same result and with the same values in all
counters of the source. If each call that the call passes reaches an input, then both also fail on
the same inputs. With counters of 32 bits the expansion is one without an overflow
(`expandSingleChecked_cases`). -/
theorem expandSingle_call_runs
    (hsource : Labelled (ofLines name displayName inputs functions lines).lines)
    (htable : (ofLines name displayName inputs functions lines).callable.Each Inlinable)
    {id : Nat} {op : Operation} {call : Call}
    (hop : (ofLines name displayName inputs functions lines).operation? id = some op)
    (hcall : op.instruction.call? = some call)
    (h : (ofLines name displayName inputs functions lines).expandSingle id 1 = .ok p)
    (values : List Value) :
    (∀ fuel o, (ofLines name displayName inputs functions lines).run fuel values = some (.ok o) →
      ∃ fuel' o', p.run fuel' values = some (.ok o') ∧ o'.result = o.result ∧
        ∀ v ∈ (ofLines name displayName inputs functions lines).vars,
          o'.bindings.read v = o.bindings.read v) ∧
    ((ofLines name displayName inputs functions lines).callable.Receives call.function call.args →
      RunsEqually (ofLines name displayName inputs functions lines) p values) := by
  have horder := fun i => (ofLines_forest name displayName inputs functions lines).lt_size (i := i)
  constructor
  · intro fuel o hrun
    exact expandSingle_halts horder hsource htable hop hcall h hrun
  · intro hreceives
    exact expandSingle_runsEqually horder hsource htable hop hcall h hreceives values

end

/-- A counter that is too much for the function changes nothing. -/
theorem expandSingle_surplus_counter : ∃ p,
    (ofLines "main" none none
      (some [ofLines "id" none none none [.plain (.assign .result (.input 1))]])
      [.plain (.quote .result ⟨"id", [.var (.input 1), .var (.input 2)]⟩)]).expandSingle 0 1 =
        .ok p ∧
    RunsEqually (ofLines "main" none none
      (some [ofLines "id" none none none [.plain (.assign .result (.input 1))]])
      [.plain (.quote .result ⟨"id", [.var (.input 1), .var (.input 2)]⟩)]) p [7, 8] := by
  have hp : (ofLines "main" none none
      (some [ofLines "id" none none none [.plain (.assign .result (.input 1))]])
      [.plain (.quote .result ⟨"id", [.var (.input 1), .var (.input 2)]⟩)]).expandSingle 0 1 =
        .ok _ := rfl
  refine ⟨_, hp, (expandSingle_call_runs ⟨distinctLabels_iff.mpr (by decide), by decide⟩
    (fun function callee hfind => ?_) rfl rfl hp [7, 8]).2 fun callee _ k inner innerArgs hk => ?_⟩
  · rw [List.mem_singleton.mp (List.mem_of_find?_eq_some hfind)]
    exact ⟨⟨distinctLabels_iff.mpr (by decide), by decide⟩, by decide⟩
  · -- Both arguments are counters.
    have hmem := List.mem_of_getElem? hk
    simp at hmem

/-- A call of a function that is missing, passed to a function without inputs, makes the source
fail. The expanded program does not fail, since it does not mention the argument. -/
theorem expandSingle_surplus_call : ∃ p,
    (ofLines "main" none none (some [ofLines "f" none none none [.plain (.neutral .result)]])
      [.plain (.quote .result ⟨"f", [.nested "missing" []]⟩)]).expandSingle 0 1 = .ok p ∧
    (∃ fuel error, (ofLines "main" none none
      (some [ofLines "f" none none none [.plain (.neutral .result)]])
      [.plain (.quote .result ⟨"f", [.nested "missing" []]⟩)]).run fuel [] =
        some (.error error)) ∧
    ¬ ∃ fuel error, p.run fuel [] = some (.error error) := by
  -- The lines of the expanded program are run through, and a run comes to one end only.
  obtain ⟨p, o, hp, hok⟩ : ∃ p o, (ofLines "main" none none
      (some [ofLines "f" none none none [.plain (.neutral .result)]])
      [.plain (.quote .result ⟨"f", [.nested "missing" []]⟩)]).expandSingle 0 1 = .ok p ∧
        p.run 5 [] = some (.ok o) := ⟨_, _, rfl, rfl⟩
  refine ⟨p, hp, ⟨2, .unknownFunction "missing", rfl⟩, ?_⟩
  rintro ⟨fuel, error, hrun⟩
  obtain ⟨σ, hσ, _⟩ := run_ok hok
  cases (run_error hrun).unique hσ

end Program

end CounterMachine
