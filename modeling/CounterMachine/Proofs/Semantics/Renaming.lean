import CounterMachine.Proofs.Semantics.Limit

/-!
# Renamed instructions

An instruction whose counters and label are replaced has the same effect, on stores that have the
same contents under the new names. Nothing else changes.

## Key results

- `oracle_rename`: a call is answered alike
- `Instruction.effect_rename`: an instruction has the same effect
- `Instruction.effect_congr`: an effect depends on the counters of the instruction only
-/

namespace CounterMachine

/-- Two replies of one kind, with answers that are related. -/
def Reply.Related {α β : Type} (rel : α → β → Prop) : Reply α → Reply β → Prop
  | .value a, .value b => rel a b
  | .fault, .fault => True
  | .never, .never => True
  | _, _ => False

/-- Replies that are related are related by what follows. -/
theorem Reply.Related.imp {α β : Type} {rel rel' : α → β → Prop} {r : Reply α} {r' : Reply β}
    (h : Reply.Related rel r r') (himp : ∀ a b, rel a b → rel' a b) : Reply.Related rel' r r' := by
  cases r <;> cases r' <;> first | exact himp _ _ h | exact h

/-- A reply that is related to an answer is one. -/
theorem Reply.Related.value {α β : Type} {rel : α → β → Prop} {a : α} {r : Reply β}
    (h : Reply.Related rel (.value a) r) : ∃ b, r = .value b ∧ rel a b := by
  cases r with
  | value b => exact ⟨b, rfl, h⟩
  | fault => exact h.elim
  | never => exact h.elim

/-- A reply that is related to a fault is one. -/
theorem Reply.Related.fault {α β : Type} {rel : α → β → Prop} {r : Reply β}
    (h : Reply.Related rel (.fault : Reply α) r) : r = .fault := by
  cases r <;> first | rfl | exact h.elim

/-- A reply that is related to no answer is none. -/
theorem Reply.Related.never {α β : Type} {rel : α → β → Prop} {r : Reply β}
    (h : Reply.Related rel (.never : Reply α) r) : r = .never := by
  cases r <;> first | rfl | exact h.elim

/-- The contents of some counters stand under other names in another store. -/
def Matches (V : Variable → Prop) (f : Variable → Variable) (σ τ : Store) : Prop :=
  ∀ v, V v → τ (f v) = σ v

/-- Two stores differ in the new names of some counters only. -/
def SameOff (V : Variable → Prop) (f : Variable → Variable) (τ τ' : Store) : Prop :=
  ∀ w, (∀ v, V v → w ≠ f v) → τ' w = τ w

/-- Both instructions fall through, or both jump, to a label and to its new name. -/
def FlowMatches (i : Instruction) (g : Label → Label) (flow flow' : Flow) : Prop :=
  flow = .fallThrough ∧ flow' = .fallThrough ∨
    ∃ target, i.target? = some target ∧ flow = .jump target ∧ flow' = .jump (g target)

section

variable (table : FunctionTable) {f : Variable → Variable} {σ τ : Store}

mutual

/-- A renamed argument is worth the same, if the counters have the same contents under their new
names. -/
theorem Argument.answer_rename : (arg : Argument) → (∀ v ∈ arg.vars, τ (f v) = σ v) →
    (arg.rename f).answer table.oracle τ = arg.answer table.oracle σ
  | .var v, h => by rw [rename, answer, answer, h v (by simp [vars])]
  | .nested function args, h => by
    rw [rename, answer, answer, table.oracle_eq, table.oracle_eq]
    simp only [Argument.answers_rename args fun v hv => h v (by rw [vars]; exact hv)]

/-- So are several renamed arguments. -/
theorem Argument.answers_rename : (args : List Argument) →
    (∀ v ∈ Argument.listVars args, τ (f v) = σ v) →
    Argument.answers table.oracle (Argument.renameList f args) τ =
      Argument.answers table.oracle args σ
  | [], _ => rfl
  | arg :: rest, h => by
    have harg := Argument.answer_rename arg fun v hv => h v (by simp [listVars, hv])
    have hrest := Argument.answers_rename rest fun v hv => h v (by simp [listVars, hv])
    rw [renameList, answers, answers, harg, hrest]

end

/-- A renamed call is answered alike. -/
theorem oracle_rename (call : Call) (h : ∀ v ∈ call.vars, τ (f v) = σ v) :
    table.oracle (call.rename f) τ = table.oracle call σ := by
  rw [table.oracle_eq, table.oracle_eq]
  simp only [Call.rename, Argument.answers_rename table call.args h]

omit table in
/-- Both instructions write one counter. -/
theorem Matches.set {V : Variable → Prop} (hm : Matches V f σ τ)
    (hf : ∀ v w, V v → V w → f v = f w → v = w) {d : Variable} (hd : V d) (value : Value) :
    Matches V f (σ.set d value) (τ.set (f d) value) := by
  intro v hv
  by_cases h : v = d
  · -- The counter itself has got the new value in both stores.
    rw [h, Store.set_self, Store.set_self]
  · -- Another counter has got another new name, as the renaming keeps them apart.
    rw [Store.set_of_ne _ _ h, Store.set_of_ne _ _ fun heq => h (hf v d hv hd heq), hm v hv]

omit table in
/-- Writing a counter under its new name leaves the others alone. -/
theorem SameOff.set {V : Variable → Prop} {d : Variable} (hd : V d) (value : Value) :
    SameOff V f τ (τ.set (f d) value) :=
  fun _ hw => Store.set_of_ne _ _ (hw d hd)

/-- A renamed instruction has the same effect. -/
theorem Instruction.effect_rename (i : Instruction) (g : Label → Label) {V : Variable → Prop}
    (hf : ∀ v w, V v → V w → f v = f w → v = w) (hV : ∀ v ∈ i.vars, V v)
    (hm : Matches V f σ τ) :
    Reply.Related
      (fun effect effect' => FlowMatches i g effect.1 effect'.1 ∧ Matches V f effect.2 effect'.2 ∧
        SameOff V f τ effect'.2)
      (i.effect table.oracle σ) ((i.rename f g).effect table.oracle τ) := by
  have hsame : SameOff V f τ τ := fun _ _ => rfl
  have hfall : FlowMatches i g .fallThrough .fallThrough := .inl ⟨rfl, rfl⟩
  -- A jump under a condition is a jump or falls through.
  have hjump : ∀ target, i.target? = some target → ∀ condition,
      FlowMatches i g (.jumpIf condition target) (.jumpIf condition (g target)) := by
    intro target ht condition
    cases condition with
    | false => exact .inl ⟨rfl, rfl⟩
    | true => exact .inr ⟨target, ht, rfl, rfl⟩
  -- An instruction that writes puts the same value into the counter under both names.
  have hwrite : ∀ d ∈ i.vars, ∀ value,
      FlowMatches i g .fallThrough .fallThrough ∧ Matches V f (σ.set d value) (τ.set (f d) value) ∧
        SameOff V f τ (τ.set (f d) value) :=
    fun d hd value => ⟨hfall, hm.set hf (hV d hd) value, SameOff.set (hV d hd) value⟩
  cases i with
  | neutral v => exact ⟨hfall, hm, hsame⟩
  | increase v =>
    simp only [effect, rename, hm v (hV v (by simp [vars]))]
    exact hwrite v (by simp [vars]) _
  | decrease v =>
    simp only [effect, rename, hm v (hV v (by simp [vars]))]
    exact hwrite v (by simp [vars]) _
  | jumpNotZero v target =>
    simp only [effect, rename, hm v (hV v (by simp [vars]))]
    exact ⟨hjump target rfl _, hm, hsame⟩
  | zero v => exact hwrite v (by simp [vars]) _
  | assign dst src =>
    simp only [effect, rename, hm src (hV src (by simp [vars]))]
    exact hwrite dst (by simp [vars]) _
  | assignConstant v value => exact hwrite v (by simp [vars]) _
  | goto target => exact ⟨.inr ⟨target, rfl, rfl, rfl⟩, hm, hsame⟩
  | jumpZero v target =>
    simp only [effect, rename, hm v (hV v (by simp [vars]))]
    exact ⟨hjump target rfl _, hm, hsame⟩
  | jumpEqual v rhs target =>
    -- An operand is a counter, which matches, or a constant.
    have hrhs : τ.operand (rhs.rename f) = σ.operand rhs := by
      cases rhs with
      | var w => exact hm w (hV w (by simp [vars, Operand.vars]))
      | const value => rfl
    simp only [effect, rename, hm v (hV v (by simp [vars])), hrhs]
    exact ⟨hjump target rfl _, hm, hsame⟩
  | quote dst call =>
    have hcall := oracle_rename table call fun v hv => hm v (hV v (by simp [vars, hv]))
    simp only [effect, rename, hcall]
    cases table.oracle call σ with
    | value value => exact hwrite dst (by simp [vars]) value
    | fault => trivial
    | never => trivial
  | jumpEqualCall v call target =>
    have hcall := oracle_rename table call fun v hv => hm v (hV v (by simp [vars, hv]))
    simp only [effect, rename, hcall, hm v (hV v (by simp [vars]))]
    cases table.oracle call σ with
    | value value => exact ⟨hjump target rfl _, hm, hsame⟩
    | fault => trivial
    | never => trivial

end

/-! ### Stores that differ elsewhere -/

mutual

/-- An argument that keeps its names is the same. -/
theorem Argument.rename_id : (arg : Argument) → arg.rename id = arg
  | .var _ => rfl
  | .nested _ args => by rw [rename, Argument.renameList_id args]

/-- So are several arguments. -/
theorem Argument.renameList_id : (args : List Argument) → Argument.renameList id args = args
  | [] => rfl
  | arg :: rest => by rw [renameList, Argument.rename_id arg, Argument.renameList_id rest]

end

/-- A call that keeps its names is the same. -/
theorem Call.rename_id (call : Call) : call.rename id = call := by
  rw [rename, Argument.renameList_id]

/-- And so is an instruction. -/
theorem Instruction.rename_id (i : Instruction) : i.rename id id = i := by
  cases i with
  | jumpEqual v rhs target => cases rhs <;> rfl
  | quote dst call => simp [rename, Call.rename_id]
  | jumpEqualCall v call target => simp [rename, Call.rename_id]
  | _ => rfl

section

variable (table : FunctionTable) {σ τ : Store}

/-- An argument is worth the same wherever its counters have the same contents. -/
theorem Argument.answer_congr (arg : Argument) (h : ∀ v ∈ arg.vars, τ v = σ v) :
    arg.answer table.oracle τ = arg.answer table.oracle σ := by
  have := Argument.answer_rename table (f := id) arg h
  rwa [Argument.rename_id] at this

/-- An instruction has the same effect on stores that differ elsewhere, and leaves the difference
alone. -/
theorem Instruction.effect_congr (i : Instruction) {X : Variable → Prop}
    (hX : ∀ v ∈ i.vars, ¬ X v) (h : ∀ v, ¬ X v → τ v = σ v) :
    Reply.Related
      (fun effect effect' => effect.1 = effect'.1 ∧ (∀ v, ¬ X v → effect'.2 v = effect.2 v) ∧
        ∀ v, X v → effect'.2 v = τ v)
      (i.effect table.oracle σ) (i.effect table.oracle τ) := by
  -- Nothing is renamed here, so this is the case of the identity.
  have hrel := i.effect_rename table (f := id) id (fun v w _ _ heq => heq) hX h
  rw [i.rename_id] at hrel
  refine hrel.imp fun effect effect' ⟨hflow, hm, hsame⟩ => ⟨?_, hm, fun v hv => ?_⟩
  · rcases hflow with ⟨h₁, h₂⟩ | ⟨target, _, h₁, h₂⟩
    · rw [h₁, h₂]
    · rw [h₁, h₂, id]
  · exact hsame v fun w hw (heq : v = w) => hw (heq ▸ hv)

/-- Control goes to the next line, or where the instruction jumps to. -/
theorem Instruction.flow_cases (i : Instruction) {flow : Flow} {σ' : Store}
    (h : i.effect table.oracle σ = .value (flow, σ')) :
    flow = .fallThrough ∨ ∃ target, i.target? = some target ∧ flow = .jump target := by
  have hm : Matches (fun _ => True) id σ σ := fun _ _ => rfl
  -- Compared with itself, an instruction shows the two ways in which control can go.
  have hrel := i.effect_rename table id (fun v w _ _ heq => heq) (fun _ _ => trivial) hm
  rw [h] at hrel
  obtain ⟨effect, _, hflow, _⟩ := hrel.value
  rcases hflow with ⟨hfall, _⟩ | ⟨target, htarget, hjump, _⟩
  · exact .inl hfall
  · exact .inr ⟨target, htarget, hjump⟩

end

end CounterMachine
