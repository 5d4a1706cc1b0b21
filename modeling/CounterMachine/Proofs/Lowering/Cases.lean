import CounterMachine.Proofs.Lowering.Inline

/-!
# The body that an instruction stands for

Which body an instruction stands for depends on its kind, on whether its label can head a loop, and
on whether an assignment moves anything. `BodyOf` has one case for each of them.

## Key results

- `body_cases`: what the body of an instruction can be
- `lower_eq_ok`: a lowered line is a body with a label on its first line
-/

namespace CounterMachine

/-- The body that an instruction stands for, and the supply after it. -/
inductive BodyOf (table : FunctionTable) (label : Label) (s : Supply) :
    Instruction → List Line → Supply → Prop
  | basic (i : Instruction) (h : i.isBasic = true) : BodyOf table label s i [.plain i] s
  /-- The line's own label heads the loop. -/
  | zeroOwn (v : Variable) (n : Nat) (h : label = .numbered n) :
      BodyOf table label s (.zero v) (zeroBody label v) s
  | zeroFresh (v : Variable) (h : label.number? = none) :
      BodyOf table label s (.zero v) (zeroBody (s.labelAt 1) v) (s.take 1 0)
  | goto (target : Label) :
      BodyOf table label s (.goto target) (gotoBody (s.workAt 1) target) (s.take 0 1)
  | assignSelf (v : Variable) : BodyOf table label s (.assign v v) [.plain (.neutral v)] s
  | assign (dst src : Variable) (h : dst ≠ src) :
      BodyOf table label s (.assign dst src)
        (assignBody (s.workAt 1) (s.labelAt 1) (s.labelAt 2) (s.labelAt 3) dst src) (s.take 3 1)
  | assignConstant (v : Variable) (value : Value) :
      BodyOf table label s (.assignConstant v value) (assignConstantBody value.toNat v) s
  | jumpZero (v : Variable) (target : Label) :
      BodyOf table label s (.jumpZero v target) (jumpZeroBody (s.labelAt 1) v target) (s.take 1 0)
  | jumpEqualConstant (v : Variable) (value : Value) (target : Label) :
      BodyOf table label s (.jumpEqual v (.const value) target)
        (jumpEqualConstantBody (s.workAt 1) (s.labelAt 1) value.toNat v target) (s.take 1 1)
  | jumpEqualVariable (v w : Variable) (target : Label) :
      BodyOf table label s (.jumpEqual v (.var w) target)
        (jumpEqualVariableBody (s.workAt 1) (s.workAt 2) (s.labelAt 1) (s.labelAt 2) (s.labelAt 3)
          v w target) (s.take 3 2)
  | quote (dst : Variable) (call : Call) (callee : Program)
      (h : table.find? call.function = some callee) :
      BodyOf table label s (.quote dst call)
        (inlineCall callee call.args (fun answer => .assign dst answer) s).1
        (inlineCall callee call.args (fun answer => .assign dst answer) s).2
  | jumpEqualCall (v : Variable) (call : Call) (target : Label) (callee : Program)
      (h : table.find? call.function = some callee) :
      BodyOf table label s (.jumpEqualCall v call target)
        (inlineCall callee call.args (fun answer => .jumpEqual v (.var answer) target) s).1
        (inlineCall callee call.args (fun answer => .jumpEqual v (.var answer) target) s).2

section

variable {table : FunctionTable} {s s' : Supply} {lines : List Line}

/-- A constant that is small enough is unrolled as often as it says. -/
theorem unrolled_eq_ok {value : Value} {count : Nat} (h : unrolled value = .ok count) :
    count = value.toNat := by
  rw [unrolled] at h
  split at h
  · cases h
  · exact (Except.ok.inj h).symm

/-- What the body of an instruction can be. -/
theorem body_cases {label : Label} {i : Instruction}
    (h : i.body table label s = .ok (lines, s')) : BodyOf table label s i lines s' := by
  cases i with
  | neutral v => cases h; exact .basic _ rfl
  | increase v => cases h; exact .basic _ rfl
  | decrease v => cases h; exact .basic _ rfl
  | jumpNotZero v target => cases h; exact .basic _ rfl
  | zero v =>
    -- The loop is headed by the label of the line, if that has got a number.
    rw [Instruction.body] at h
    split at h
    · rename_i hnumber
      cases h
      cases label with
      | numbered n => exact .zeroOwn v n rfl
      | empty => cases hnumber
      | exit => cases hnumber
    · rename_i hnumber
      cases h
      exact .zeroFresh v (by simpa using hnumber)
  | goto target => cases h; exact .goto target
  | assign dst src =>
    -- A counter that is copied to itself needs no loop.
    rw [Instruction.body] at h
    split at h
    · rename_i heq
      cases h
      subst heq
      exact .assignSelf dst
    · rename_i hne
      cases h
      exact .assign dst src hne
  | assignConstant v value =>
    rw [Instruction.body] at h
    cases hu : unrolled value with
    | error e => rw [hu] at h; cases h
    | ok count =>
      rw [hu, unrolled_eq_ok hu] at h
      cases h
      exact .assignConstant v value
  | jumpZero v target => cases h; exact .jumpZero v target
  | jumpEqual v rhs target =>
    cases rhs with
    | var w => cases h; exact .jumpEqualVariable v w target
    | const value =>
      rw [Instruction.body] at h
      cases hu : unrolled value with
      | error e => rw [hu] at h; cases h
      | ok count =>
        rw [hu, unrolled_eq_ok hu] at h
        cases h
        exact .jumpEqualConstant v value target
  | quote dst call =>
    -- A call has got a body if its function is in the table.
    obtain ⟨callee, hfind, rfl, rfl⟩ := inlineNamed_eq_ok h
    exact .quote dst call callee hfind
  | jumpEqualCall v call target =>
    obtain ⟨callee, hfind, rfl, rfl⟩ := inlineNamed_eq_ok h
    exact .jumpEqualCall v call target callee hfind

/-- A lowered line is a body, with the label of the line on its first line. -/
theorem lower_eq_ok {line : Line} (h : line.lower table s = .ok (lines, s')) :
    ∃ body, line.instruction.body table line.label s = .ok (body, s') ∧
      lines = attachLabel line.label body := by
  rw [Line.lower] at h
  cases hb : line.instruction.body table line.label s with
  | error e => rw [hb] at h; cases h
  | ok body =>
    rw [hb] at h
    have h := Except.ok.inj h
    have hs : body.2 = s' := congrArg Prod.snd h
    exact ⟨body.1, by rw [← hs], (congrArg Prod.fst h).symm⟩

end

end CounterMachine
