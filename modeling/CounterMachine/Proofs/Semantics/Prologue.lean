import CounterMachine.Proofs.Lowering.Inline
import CounterMachine.Proofs.Semantics.Placement
import CounterMachine.Proofs.Semantics.Renaming

/-!
# Passing arguments

An inlined call starts with lines that pass the arguments and set the other counters of the
function to zero. They leave the counters of the function with the contents that a run of the
function starts with.

## Key results

- `bindings_arrive`, `clearings_reach`: what the two kinds of lines do
-/

namespace CounterMachine

/-! ### The start of a run -/

namespace Store

/-- A counter that is not among those that are written keeps its contents. -/
private theorem foldl_set_of_notMem (pairs : List (Variable × Value)) (σ : Store) {v : Variable}
    (h : ∀ pair ∈ pairs, pair.1 ≠ v) :
    pairs.foldl (fun σ pair => σ.set pair.1 pair.2) σ v = σ v := by
  induction pairs generalizing σ with
  | nil => rfl
  | cons pair rest ih =>
    rw [List.foldl_cons, ih _ fun p hp => h p (List.mem_cons_of_mem _ hp),
      set_of_ne _ _ (h pair List.mem_cons_self).symm]

/-- What is no input starts at zero. -/
theorem initial_of_notMem {inputs : List Variable} (values : List Value) {v : Variable}
    (h : v ∉ inputs) : initial inputs values v = 0 := by
  rw [initial, foldl_set_of_notMem]
  rintro pair hpair rfl
  obtain ⟨i, hi, rfl⟩ := List.mem_mapIdx.mp hpair
  exact h (List.getElem_mem hi)

/-- An input starts with its value, or at zero. -/
theorem initial_of_getElem? {inputs : List Variable} (values : List Value) (hn : inputs.Nodup)
    {i : Nat} {v : Variable} (h : inputs[i]? = some v) :
    initial inputs values v = values[i]?.getD 0 := by
  -- No input is listed twice, so later inputs do not overwrite it.
  have general : ∀ (inputs : List Variable) (f : Nat → Value) (σ : Store) (i : Nat),
      inputs.Nodup → inputs[i]? = some v →
        (inputs.mapIdx fun i w => (w, f i)).foldl (fun σ pair => σ.set pair.1 pair.2) σ v =
          f i := by
    intro inputs
    induction inputs with
    | nil => intro f σ i _ hi; cases hi
    | cons x xs ih =>
      intro f σ i hn hi
      obtain ⟨hx, hxs⟩ := List.nodup_cons.mp hn
      rw [List.mapIdx_cons, List.foldl_cons]
      cases i with
      | zero =>
        cases hi
        rw [foldl_set_of_notMem, set_self]
        rintro pair hpair rfl
        obtain ⟨j, hj, rfl⟩ := List.mem_mapIdx.mp hpair
        exact hx (List.getElem_mem hj)
      | succ i => exact ih (fun i => f (i + 1)) _ i hxs hi
  exact general inputs (fun i => values[i]?.getD 0) _ i hn h

end Store

/-! ### Arguments -/

/-- Two stores differ in some counters only. -/
def AgreeOff (X : Variable → Prop) (σ τ : Store) : Prop := ∀ v, ¬ X v → τ v = σ v

section

variable {X : Variable → Prop} {σ τ υ : Store}

theorem AgreeOff.refl (σ : Store) : AgreeOff X σ σ := fun _ _ => rfl

/-- Agreement passes on from store to store. -/
theorem AgreeOff.trans (h : AgreeOff X σ τ) (h' : AgreeOff X τ υ) : AgreeOff X σ υ :=
  fun v hv => (h' v hv).trans (h v hv)

/-- Writing one of the counters that do not matter makes no difference. -/
theorem AgreeOff.set {d : Variable} (hd : X d) (value : Value) : AgreeOff X σ (σ.set d value) :=
  fun v hv => Store.set_of_ne _ _ fun heq : v = d => hv (heq ▸ hd)

end

section

variable (table : FunctionTable) {lines : List Line}

/-- A line that passes an argument sets a counter to the value of the argument. -/
theorem bindArgument_effect (dst : Variable) (arg : Argument) (τ : Store) :
    (bindArgument dst arg).instruction.effect table.oracle τ =
      (arg.answer table.oracle τ).map fun value => (.fallThrough, τ.set dst value) := by
  cases arg <;> rfl

variable {f : Variable → Variable} {X : Variable → Prop}

/-- Values have been passed to inputs: the counters of the inputs have them, and no other counter
has changed. -/
structure Passed (f : Variable → Variable) (inputs : List Variable) (values : List Value)
    (τ τ' : Store) : Prop where
  length_eq : values.length = inputs.length
  value_eq : ∀ (i : Nat) (v : Variable), inputs[i]? = some v → τ' (f v) = values[i]?.getD 0
  other : AgreeOff (fun w => ∃ v ∈ inputs, w = f v) τ τ'

/-- One value has been passed before the others. -/
theorem Passed.cons {x : Variable} {value : Value} {inputs : List Variable} {values : List Value}
    {τ τ' : Store} (hx : ∀ v ∈ inputs, f x ≠ f v)
    (h : Passed f inputs values (τ.set (f x) value) τ') :
    Passed f (x :: inputs) (value :: values) τ τ' := by
  refine ⟨by simp [h.length_eq], fun i v hi => ?_, fun w hw => ?_⟩
  · cases i with
    | zero =>
      cases hi
      -- The later lines set other counters.
      rw [h.other _ fun ⟨v, hv, heq⟩ => hx v hv heq, Store.set_self]
      rfl
    | succ i => exact h.value_eq i v hi
  · rw [h.other w fun ⟨v, hv, heq⟩ => hw ⟨v, List.mem_cons_of_mem _ hv, heq⟩,
      Store.set_of_ne _ _ fun heq => hw ⟨x, List.mem_cons_self, heq⟩]

/-- The lines that pass arguments give the inputs their values. A fault of an argument is a fault of
the run, and an argument without an answer holds the run up. -/
theorem bindings_arrive (inputs : List Variable) (args : List Argument) {k : Nat} {σ τ : Store}
    (h : Placed lines k (List.zipWith (fun input arg => bindArgument (f input) arg) inputs args))
    (hlen : args.length ≤ inputs.length) (hn : inputs.Nodup)
    (hX : ∀ v ∈ inputs, X (f v)) (hf : ∀ v ∈ inputs, ∀ w ∈ inputs, f v = f w → v = w)
    (hargs : ∀ v ∈ Argument.listVars args, ¬ X v) (hτ : AgreeOff X σ τ) :
    Arrives table.oracle lines (.goto lines k τ)
      (fun values c => ∃ τ', c = .goto lines (k + args.length) τ' ∧
        Passed f (inputs.take args.length) values τ τ')
      (Argument.answers table.oracle args σ) := by
  induction args generalizing inputs k τ with
  | nil => exact ⟨_, .refl _, τ, rfl, rfl, by simp, .refl τ⟩
  | cons arg args ih =>
    cases inputs with
    | nil => simp at hlen
    | cons x inputs =>
      obtain ⟨hx, hn'⟩ := List.nodup_cons.mp hn
      rw [List.zipWith_cons_cons] at h
      have hk : k < lines.length := h.lt_length (j := 0) (by simp)
      -- The lines before this one have set fresh counters only, which no argument reads.
      have hanswer : arg.answer table.oracle τ = arg.answer table.oracle σ :=
        arg.answer_congr table fun v hv =>
          hτ v (hargs v (by rw [Argument.listVars]; exact List.mem_append_left _ hv))
      obtain ⟨line, hline, hi, _⟩ := h 0 _ rfl
      have hmeets := meets_line table.oracle τ hline
      rw [hi, bindArgument_effect, hanswer] at hmeets
      rw [RunState.goto_of_lt hk, Argument.answers]
      refine hmeets.of_map.arrives.bind fun value c hc => ?_
      subst hc
      have hrest := ih inputs h.of_cons (by simpa using hlen) hn'
        (fun v hv => hX v (List.mem_cons_of_mem _ hv))
        (fun v hv w hw => hf v (List.mem_cons_of_mem _ hv) w (List.mem_cons_of_mem _ hw))
        (fun v hv => hargs v (by rw [Argument.listVars]; exact List.mem_append_right _ hv))
        (hτ.trans (.set (hX x List.mem_cons_self) value))
      refine hrest.bind fun values c ⟨τ', hc, hpassed⟩ => ⟨c, .refl c, τ', ?_, ?_⟩
      · rw [hc, List.length_cons, Nat.add_comm args.length, ← Nat.add_assoc]
      · refine hpassed.cons fun v hv heq => hx ?_
        have hv' := List.mem_of_mem_take hv
        exact hf x List.mem_cons_self v (List.mem_cons_of_mem _ hv') heq ▸ hv'

/-- The lines that set counters to zero. -/
theorem clearings_reach (ask : Oracle) (vars : List Variable) {k : Nat} (τ : Store)
    (h : Placed lines k (vars.map fun v => Line.plain (.zero (f v)))) :
    ∃ τ', Reaches ask lines (.goto lines k τ) (.goto lines (k + vars.length) τ') ∧
      (∀ v ∈ vars, τ' (f v) = 0) ∧ AgreeOff (fun w => ∃ v ∈ vars, w = f v) τ τ' := by
  induction vars generalizing k τ with
  | nil => exact ⟨τ, .refl _, nofun, .refl τ⟩
  | cons x vars ih =>
    rw [List.map_cons] at h
    have hk : k < lines.length := h.lt_length (j := 0) (by simp)
    have hstep : Leads ask lines (.running k τ) (.goto lines (k + 1) (τ.set (f x) 0)) :=
      h.leave (j := 0) rfl rfl
    obtain ⟨τ', hreach, hzero, hoff⟩ := ih (τ.set (f x) 0) h.of_cons
    refine ⟨τ', ?_, fun v hv => ?_, fun w hw => ?_⟩
    · rw [RunState.goto_of_lt hk, List.length_cons, Nat.add_comm vars.length, ← Nat.add_assoc]
      exact hstep.reaches.trans hreach
    · rcases List.mem_cons.mp hv with rfl | hv
      · -- A later line may clear the same counter again.
        by_cases hex : ∃ w ∈ vars, f v = f w
        · obtain ⟨w, hw, heq⟩ := hex
          rw [heq, hzero w hw]
        · rw [hoff _ hex, Store.set_self]
      · exact hzero v hv
    · rw [hoff w fun ⟨v, hv, heq⟩ => hw ⟨v, List.mem_cons_of_mem _ hv, heq⟩,
        Store.set_of_ne _ _ fun heq => hw ⟨x, List.mem_cons_self, heq⟩]

end

end CounterMachine
