import CounterMachine.Proofs.Semantics.Bodies
import CounterMachine.Proofs.Semantics.Inlining

/-!
# Lowered lines

A run that comes to the body of an instruction does what the instruction does, and changes besides
only counters that came in with the body. So a run of a program and a run of the program in which
one line is lowered keep step, and come to ends that agree on all other counters.

## Key results

- `body_meets`: the body of an instruction does what the instruction does
- `lowered_simulates`: a program and its lowered program in step
- `lowered_runsAlike`: their runs end alike
-/

namespace CounterMachine

/-- The counter over which an assignment is made is zero between two runs of its body. -/
def Spared (i : Instruction) (s : Supply) (τ : Store) : Prop :=
  match i with
  | .assign dst src => dst ≠ src → τ (s.workAt 1) = 0
  | _ => True

section

variable {table : FunctionTable} {lines body : List Line} {k : Nat} {s s' : Supply} {τ : Store}

/-- Stores that agree but for some counters still do so when the same is written to both. -/
theorem AgreeOff.set_both {X : Variable → Prop} {σ τ : Store} (h : AgreeOff X σ τ) (d : Variable)
    (value : Value) : AgreeOff X (σ.set d value) (τ.set d value) := by
  intro v hv
  rw [Store.set_apply, Store.set_apply, h v hv]

/-- An inlined call does what is done with the answer of the call. -/
theorem inlineCall_body_meets {callee : Program} {call : Call} (final : Variable → Instruction)
    (act : Value → Flow × Store) (hfind : table.find? call.function = some callee)
    (htable : table.Each Inlinable) (hcall : table.Takes call.function call.args)
    (hcovered : ∀ v ∈ call.vars, Name.Covered s (.var v)) (hd : DistinctLabels lines)
    (hcarried : CarriedBy lines s (inlineCall callee call.args final s).2
      (inlineCall callee call.args final s).1)
    (h : Placed lines k (inlineCall callee call.args final s).1)
    (hact : ∀ value τ', τ' (calleeVar callee s .result) = value →
      AgreeOff (CalleeVar callee s) τ τ' → ∃ υ,
        (final (calleeVar callee s .result)).effect table.oracle τ' = .value ((act value).1, υ) ∧
        AgreeOff (CalleeVar callee s) (act value).2 υ) :
    Meets table.oracle lines (.running k τ)
      (fun effect c => ∃ τ',
        c = .follow lines (k + ((inlineCall callee call.args final s).1.length - 1)) τ' effect.1 ∧
        AgreeOff (Added s (inlineCall callee call.args final s).2
          (inlineCall callee call.args final s).1) effect.2 τ')
      ((table.oracle call τ).map act) := by
  have hadded : ∀ v, CalleeVar callee s v → Added s (inlineCall callee call.args final s).2
      (inlineCall callee call.args final s).1 v := by
    rintro _ ⟨v, hv, rfl⟩
    exact ⟨freshVar_calleeVar hv _, calleeVar_used final hv⟩
  have hmeets := inlineCall_meets hfind (htable _ _ hfind) (hcall callee hfind)
    (fun v hv hcallee => (hcovered v hv).not_fresh (hadded v hcallee).1) hd hcarried h τ
  -- What is left is the line that uses the result.
  refine hmeets.bind fun value c ⟨τ', hc, hresult, hoff⟩ => ?_
  obtain ⟨υ, heffect, hoff'⟩ := hact value τ' hresult hoff
  subst hc
  refine ⟨_, h.step inlineCall_last heffect, υ, ?_,
    fun v hv => hoff' v fun hcallee => hv (hadded v hcallee)⟩
  have hlen : (inlineCall callee call.args final s).1.length =
      (bindingLines callee call.args s ++ clearingLines callee call.args s ++
        calleeLines callee s).length + 1 := List.length_append
  rw [hlen, Nat.add_sub_cancel]

/-- The body of an instruction does what the instruction does. -/
theorem body_meets {label : Label} {i : Instruction} (htable : table.Each Inlinable)
    (h : i.body table label s = .ok (body, s')) (htakes : i.Takes table)
    (hcovered : ∀ v ∈ i.vars, Name.Covered s (.var v)) (hd : DistinctLabels lines)
    (hcarried : CarriedBy lines s s' body) (hplaced : Placed lines k body)
    (hspared : Spared i s τ) :
    Meets table.oracle lines (.running k τ)
      (fun effect c => ∃ τ', c = .follow lines (k + (body.length - 1)) τ' effect.1 ∧
        AgreeOff (Added s s' body) effect.2 τ' ∧ Spared i s τ')
      (i.effect table.oracle τ) := by
  -- What the supply hands out is none of the counters of the instruction.
  have hself : ∀ {n : Nat}, 0 < n → ∀ v ∈ i.vars, s.workAt n ≠ v :=
    fun hn v hv => (hcovered v hv).workAt_ne hn
  cases body_cases h with
  | basic _ hbasic =>
    -- A basic instruction is its own body.
    obtain ⟨line, hline, hi, _⟩ := hplaced 0 _ rfl
    have hmeets := meets_line table.oracle τ hline
    rw [hi] at hmeets
    refine hmeets.imp fun effect c hc => ⟨effect.2, hc, .refl _, ?_⟩
    cases i <;> first | exact trivial | cases hbasic
  | zeroOwn v n hn =>
    exact ⟨_, zeroBody_leads hd hn hplaced τ, _, rfl, .refl _, trivial⟩
  | zeroFresh v hn =>
    exact ⟨_, zeroBody_leads hd rfl hplaced τ, _, rfl, .refl _, trivial⟩
  | goto target =>
    refine ⟨_, gotoBody_leads hplaced τ, _, rfl, .set ⟨?_, ?_⟩ _, trivial⟩
    · exact s.freshVar_workAt 1 0 1 (by omega) (by omega)
    · simp [gotoBody, Instruction.vars]
  | assignSelf v =>
    refine ⟨_, hplaced.step (j := 0) rfl rfl, τ, rfl, ?_, fun hne => absurd rfl hne⟩
    exact fun w _ => congrFun (Store.set_eq_self τ v).symm w
  | assign dst src hne =>
    -- The spare counter is zero before the loops, and zero again after them.
    have hspare := hspared hne
    have hdst : s.workAt 1 ≠ dst := hself Nat.one_pos dst (by simp [Instruction.vars])
    have hsrc : s.workAt 1 ≠ src := hself Nat.one_pos src (by simp [Instruction.vars])
    refine ⟨_, assignBody_leads hd hdst hsrc hne hplaced rfl rfl rfl τ hspare, _, rfl, .refl _,
      fun _ => ?_⟩
    rw [Store.set_of_ne _ _ hdst, hspare]
  | assignConstant v value =>
    refine ⟨_, assignConstantBody_leads hplaced τ, _, ?_, .refl _, trivial⟩
    simp [assignConstantBody, RunState.follow, Nat.add_assoc]
  | jumpZero v target =>
    exact ⟨_, jumpZeroBody_leads hd rfl hplaced τ, _, rfl, .refl _, trivial⟩
  | jumpEqualConstant v value target =>
    obtain ⟨τ', hlead, hother⟩ := jumpEqualConstantBody_leads hd rfl hplaced τ
    refine ⟨_, hlead, τ', ?_, fun w hw => hother w ?_, trivial⟩
    · have hlen : (jumpEqualConstantBody (s.workAt 1) (s.labelAt 1) value.toNat v target).length =
          2 * value.toNat + 4 := by
        simp [jumpEqualConstantBody, Nat.mul_comm]
      rw [hlen]
      rfl
    · rintro rfl
      refine hw ⟨s.freshVar_workAt 1 1 1 (by omega) (by omega), ?_⟩
      simp [jumpEqualConstantBody, Instruction.vars]
  | jumpEqualVariable v w target =>
    obtain ⟨τ', hlead, hother⟩ := jumpEqualVariableBody_leads hd rfl rfl rfl hplaced
      (by simp [Supply.workAt]) (hself Nat.one_pos w (by simp [Instruction.vars, Operand.vars])) τ
    refine ⟨_, hlead, τ', rfl, fun u hu => hother u ?_ ?_, trivial⟩
    · rintro rfl
      refine hu ⟨s.freshVar_workAt 1 3 2 (by omega) (by omega), ?_⟩
      simp [jumpEqualVariableBody, Instruction.vars]
    · rintro rfl
      refine hu ⟨s.freshVar_workAt 2 3 2 (by omega) (by omega), ?_⟩
      simp [jumpEqualVariableBody, Instruction.vars]
  | quote dst call callee hfind =>
    have hmeets := inlineCall_body_meets (fun answer => .assign dst answer)
      (fun value => (.fallThrough, τ.set dst value)) hfind htable (htakes call rfl)
      (fun v hv => hcovered v (by simp [Instruction.vars, hv])) hd hcarried hplaced
      fun value τ' hvalue hoff => ⟨_, rfl, hvalue ▸ hoff.set_both dst _⟩
    refine hmeets.imp fun effect c hc => ?_
    obtain ⟨τ', hc, hoff⟩ := hc
    exact ⟨τ', hc, hoff, trivial⟩
  | jumpEqualCall v call target callee hfind =>
    have hmeets := inlineCall_body_meets
      (fun answer => .jumpEqual v (.var answer) target)
      (fun value => (.jumpIf (τ v == value) target, τ)) hfind htable (htakes call rfl)
      (fun w hw => hcovered w (by simp [Instruction.vars, hw])) hd hcarried hplaced
      fun value τ' hvalue hoff => by
        -- The function leaves the counter alone that its answer is compared with.
        have hv : τ' v = τ v := by
          refine hoff v ?_
          rintro ⟨w, hw, rfl⟩
          exact (hcovered _ (by simp [Instruction.vars])).not_fresh (freshVar_calleeVar hw 0)
        exact ⟨τ', by simp only [Instruction.effect, Store.operand, hvalue, hv], hoff⟩
    refine hmeets.imp fun effect c hc => ?_
    obtain ⟨τ', hc, hoff⟩ := hc
    exact ⟨τ', hc, hoff, trivial⟩

/-! ### Places -/

/-- Where the lines of a program stand after the line at a position has given way to a number of
lines. -/
def moved (k count p : Nat) : Nat := if p ≤ k then p else p + (count - 1)

variable {before after : List Line} {line : Line}

/-- Up to the line, positions stay. -/
theorem moved_of_le {count p : Nat} (h : p ≤ k) : moved k count p = p := if_pos h

/-- Behind it, they move on by the lines that it was lowered to. -/
theorem moved_of_lt {count p : Nat} (h : k < p) : moved k count p = p + (count - 1) :=
  if_neg (Nat.not_le_of_lt h)

/-- The lines before and after the lowered one are the same. -/
theorem getElem?_moved (hne : lines ≠ []) {p : Nat} (hp : p ≠ before.length) :
    (before ++ lines ++ after)[moved before.length lines.length p]? =
      (before ++ line :: after)[p]? := by
  have hpos := List.length_pos_iff.mpr hne
  rcases Nat.lt_or_gt_of_ne hp with hlt | hgt
  · rw [moved_of_le (Nat.le_of_lt hlt), List.append_assoc, List.getElem?_append_left hlt,
      List.getElem?_append_left hlt]
  · rw [moved_of_lt hgt, List.getElem?_append_right (by rw [List.length_append]; omega),
      List.getElem?_append_right (Nat.le_of_lt hgt), List.getElem?_cons, if_neg (by omega)]
    congr 1
    rw [List.length_append]
    omega

/-- The lowered lines stand in the place of their line. -/
theorem placed_lowered (before lines after : List Line) :
    Placed (before ++ lines ++ after) before.length lines := by
  intro j b hb
  have hj := (List.getElem?_eq_some_iff.mp hb).1
  refine ⟨b, ?_, rfl, fun _ => rfl⟩
  rw [List.append_assoc, List.getElem?_append_right (Nat.le_add_right _ j),
    Nat.add_sub_cancel_left, List.getElem?_append_left hj, hb]

/-- So do they before the label is attached. -/
theorem Placed.of_attachLabel {label : Label} {at' : Nat}
    (h : Placed lines at' (attachLabel label body)) : Placed lines at' body := by
  intro j b hb
  cases body with
  | nil => cases hb
  | cons first rest =>
    -- Only the first line has got another label.
    cases j with
    | zero =>
      cases hb
      obtain ⟨line, hline, hi, hl⟩ := h 0 _ rfl
      refine ⟨line, hline, ?_, fun hne => ?_⟩
      · rw [hi]
        split <;> rfl
      · have hnot : b.label.isEmpty = false := by
          cases hb : b.label <;> first | rfl | exact absurd hb hne
        rw [hnot] at hl
        exact hl hne
    | succ j => exact h (j + 1) b hb

/-- The label of the lowered line is on the first line of its body. -/
theorem exists_head_lowered (hlow : line.lower table s = .ok (lines, s')) {n : Nat}
    (hn : line.label = .numbered n) :
    ∃ first, (before ++ lines ++ after)[before.length]? = some first ∧
      first.label = line.label := by
  obtain ⟨body, hb, hlines⟩ := lower_eq_ok hlow
  obtain ⟨first, rest, hfirst, hlabel⟩ := head_label_of_body_names (body_names hb) hn
  -- The body has got a first line, which stands where the lowered line stood.
  refine ⟨first, ?_, hlabel⟩
  rw [hlines, hfirst, List.append_assoc, List.getElem?_append_right (Nat.le_refl _), Nat.sub_self]
  rfl

/-- Apart from labels that come in, the lowered program carries the labels of the program. -/
theorem exists_carrier (htable : table.Each Inlinable) (h : Labelled (before ++ line :: after))
    (hlow : line.lower table s = .ok (lines, s')) {x : Label}
    (hx : FreshLabel s s' x → ¬ UsesLabel lines x) (hne : x ≠ .empty) {other : Line}
    (hother : other ∈ before ++ lines ++ after) (hl : other.label = x) :
    ∃ other' ∈ before ++ line :: after, other'.label = x := by
  have hline : line ∈ before ++ line :: after := List.mem_append_right _ List.mem_cons_self
  rcases List.mem_append.mp hother with hother | hother
  · rcases List.mem_append.mp hother with hother | hother
    · exact ⟨other, List.mem_append_left _ hother, hl⟩
    · -- A line of the body carries the label of the lowered line, or one that comes in.
      obtain ⟨fresh, hcarried, _, hfresh⟩ :=
        lower_carried htable.labelled (h.no_exit line hline) hlow
      have hmem : x ∈ carried lines := mem_carried.mpr ⟨hne, other, hother, hl⟩
      have huses := usesLabel_of_mem_carried hmem
      rw [hcarried, List.mem_append] at hmem
      rcases hmem with hmem | hmem
      · rw [own, List.mem_filter, List.mem_singleton] at hmem
        exact ⟨line, hline, hmem.1.symm⟩
      · exact absurd huses (hx (hfresh x hmem))
  · exact ⟨other, List.mem_append_right _ (List.mem_cons_of_mem _ hother), hl⟩

/-- A label of the program is found where its line went. -/
theorem labelPlace?_lowered (htable : table.Each Inlinable) (h : Labelled (before ++ line :: after))
    (hlow : LoweredAmong table before after line s s' lines) {x : Label}
    (hx : FreshLabel s s' x → ¬ UsesLabel lines x) :
    labelPlace? x (before ++ lines ++ after) =
      (labelPlace? x (before ++ line :: after)).map (moved before.length lines.length) := by
  have hd := (h.lower htable.labelled hlow).distinct
  cases hp : labelPlace? x (before ++ line :: after) with
  | some p =>
    obtain ⟨line', hline', hl, hxne⟩ := exists_line_of_labelPlace? hp
    rw [Option.map_some]
    -- The lowered line passes its label on to its first line, and the others take theirs along.
    by_cases hpk : p = before.length
    · subst hpk
      rw [List.getElem?_append_right (Nat.le_refl _), Nat.sub_self] at hline'
      cases hline'
      obtain ⟨n, hn⟩ : ∃ n, line.label = .numbered n := by
        cases hlabel : line.label with
        | numbered n => exact ⟨n, rfl⟩
        | empty => exact absurd (hl ▸ hlabel) hxne
        | exit =>
          exact absurd hlabel (h.no_exit line (List.mem_append_right _ List.mem_cons_self))
      obtain ⟨first, hfirst, hlabel⟩ := exists_head_lowered hlow.lower_eq hn
      rw [moved_of_le (Nat.le_refl _)]
      exact labelPlace?_of_distinct hd hfirst (hlabel.trans hl) hxne
    · have hne := (lower_names hlow.lower_eq).ne_nil
      exact labelPlace?_of_distinct hd ((getElem?_moved hne hpk).trans hline') hl hxne
  | none =>
    rw [Option.map_none]
    -- A label that no line carries is not carried by what came in either.
    refine labelPlace?_eq_none fun other hother hl => ?_
    by_contra hxne
    obtain ⟨other', hother', hl'⟩ := exists_carrier htable h hlow.lower_eq hx hxne hother hl
    obtain ⟨p, hp'⟩ := exists_labelPlace? hother' hl' hxne
    rw [hp] at hp'
    cases hp'

/-! ### Runs -/

/-- A run of a program, and a run of the program after a line has been lowered. -/
inductive KeepsPace (before after : List Line) (line : Line) (s s' : Supply) (lines : List Line) :
    RunState → RunState → Prop
  | running {p : Nat} {σ τ : Store} (hp : p < (before ++ line :: after).length)
      (hoff : AgreeOff (Added s s' lines) σ τ) (hspared : Spared line.instruction s τ) :
      KeepsPace before after line s s' lines (.running p σ)
        (.running (moved before.length lines.length p) τ)
  | halted {σ τ : Store} (hoff : AgreeOff (Added s s' lines) σ τ) :
      KeepsPace before after line s s' lines (.halted σ) (.halted τ)
  | faulted : KeepsPace before after line s s' lines .faulted .faulted

/-- Going on from one line and from its counterpart comes to the same. -/
theorem keepsPace_follow (htable : table.Each Inlinable) (h : Labelled (before ++ line :: after))
    (hlow : LoweredAmong table before after line s s' lines) {flow : Flow}
    (hflow : flow = .fallThrough ∨
      ∃ x, (FreshLabel s s' x → ¬ UsesLabel lines x) ∧ flow = .jump x)
    {p q : Nat} (hq : q + 1 = moved before.length lines.length (p + 1)) {σ τ : Store}
    (hoff : AgreeOff (Added s s' lines) σ τ) (hspared : Spared line.instruction s τ) :
    KeepsPace before after line s s' lines (.follow (before ++ line :: after) p σ flow)
      (.follow (before ++ lines ++ after) q τ flow) := by
  have hpos := List.length_pos_iff.mpr (lower_names hlow.lower_eq).ne_nil
  rcases hflow with rfl | ⟨x, hx, rfl⟩
  · rw [RunState.follow, RunState.follow, hq]
    by_cases hlt : p + 1 < (before ++ line :: after).length
    · rw [RunState.goto_of_lt hlt, RunState.goto_of_lt]
      · exact .running hlt hoff hspared
      · simp only [List.length_append, List.length_cons, moved] at hlt ⊢
        split <;> omega
    · rw [RunState.goto_of_le (by omega), RunState.goto_of_le]
      · exact .halted hoff
      · simp only [List.length_append, List.length_cons, moved] at hlt ⊢
        split <;> omega
  · -- The label is not one that the lowering has added, so its place only moves.
    have hplace := labelPlace?_lowered htable h hlow hx
    rw [Flow.jump]
    split
    · exact .halted hoff
    · simp only [RunState.follow, hplace]
      cases hp : labelPlace? x (before ++ line :: after) with
      | none => exact .faulted
      | some t => exact .running (lt_of_labelPlace? hp) hoff hspared

/-- The counter over which an assignment is made comes in with its body. -/
theorem added_spare (h : line.lower table s = .ok (lines, s')) {dst src : Variable}
    (hi : line.instruction = .assign dst src) (hne : dst ≠ src) :
    Added s s' lines (s.workAt 1) := by
  obtain ⟨body, hb, rfl⟩ := lower_eq_ok h
  rw [hi] at hb
  cases body_cases hb with
  | basic _ hbasic => cases hbasic
  | assignSelf v => exact absurd rfl hne
  | assign _ _ _ =>
    refine ⟨s.freshVar_workAt 1 3 1 (by omega) (by omega), usesVar_attachLabel.mpr ?_⟩
    simp [assignBody, Instruction.vars]

/-- A step that leaves the added counters alone. -/
theorem Spared.of_eq (h : line.lower table s = .ok (lines, s')) {τ' : Store}
    (hspared : Spared line.instruction s τ) (heq : ∀ v, Added s s' lines v → τ' v = τ v) :
    Spared line.instruction s τ' := by
  cases hi : line.instruction with
  | assign dst src =>
    rw [hi] at hspared
    exact fun hne => (heq _ (added_spare h hi hne)).trans (hspared hne)
  | _ => trivial

/-- The lowered lines carry what comes in with them. -/
theorem carriedBy_lowered (hlow : LoweredAmong table before after line s s' lines) :
    CarriedBy (before ++ lines ++ after) s s' lines := by
  intro other hother hfresh huses
  -- A fresh label is used by no line but those that came in.
  by_cases hmem : other ∈ lines
  · exact ⟨other, hmem, rfl⟩
  · have hrest : other ∈ before ++ after := by
      simp only [List.mem_append] at hother ⊢
      tauto
    refine absurd (label_mem_names.mpr (mem_line_labels.mpr (.inl ⟨rfl, ?_⟩)))
      (hlow.apart (.label other.label) hfresh (uses_label.mpr huses) other hrest)
    obtain ⟨n, _, _, hn⟩ := hfresh
    rw [hn]
    exact nofun

/-- So does the body before the label is attached: that label did not come in. -/
theorem CarriedBy.of_attachLabel {label : Label} (hlabel : Name.Covered s (.label label))
    (h : CarriedBy lines s s' (attachLabel label body)) : CarriedBy lines s s' body := by
  intro other hother hfresh huses
  obtain ⟨b, hb, hl⟩ := h other hother hfresh (usesLabel_attachLabel_of_usesLabel huses)
  cases body with
  | nil => cases hb
  | cons first rest =>
    rcases List.mem_cons.mp hb with rfl | hb
    · split at hl
      · exact absurd hfresh (hl ▸ hlabel.not_fresh)
      · exact ⟨first, List.mem_cons_self, hl⟩
    · exact ⟨b, List.mem_cons_of_mem _ hb, hl⟩

/-- The label in front adds no line. -/
theorem length_attachLabel (label : Label) (body : List Line) :
    (attachLabel label body).length = body.length := by
  cases body <;> rfl

/-- Where the lowered line stood, its lines do what it does. -/
theorem lowered_meets (htable : table.Each Inlinable) (h : Labelled (before ++ line :: after))
    (htakes : line.instruction.Takes table) (hlow : LoweredAmong table before after line s s' lines)
    (hspared : Spared line.instruction s τ) :
    Meets table.oracle (before ++ lines ++ after) (.running before.length τ)
      (fun effect c => ∃ τ',
        c = .follow (before ++ lines ++ after) (before.length + (lines.length - 1)) τ' effect.1 ∧
        AgreeOff (Added s s' lines) effect.2 τ' ∧ Spared line.instruction s τ')
      (line.instruction.effect table.oracle τ) := by
  have hline : line ∈ before ++ line :: after := List.mem_append_right _ List.mem_cons_self
  have hd := (h.lower htable.labelled hlow).distinct
  have hcarried := carriedBy_lowered hlow
  have hplaced := placed_lowered before lines after
  obtain ⟨body, hb, hlines⟩ := lower_eq_ok hlow.lower_eq
  have hlabel : Name.Covered s (.label line.label) := by
    by_cases hempty : line.label = .empty
    · rw [hempty]
      exact fun n => nofun
    · exact hlow.covered _ (label_mem_names.mpr (mem_line_labels.mpr (.inl ⟨rfl, hempty⟩)))
  -- The label that is attached changes nothing for the body.
  generalize before ++ lines ++ after = all at hd hcarried hplaced ⊢
  subst hlines
  have hmeets := body_meets htable hb htakes
    (fun v hv => hlow.covered _ (var_mem_names.mpr hv)) hd (hcarried.of_attachLabel hlabel)
    hplaced.of_attachLabel hspared
  refine hmeets.imp fun effect c ⟨τ', hc, hoff, hspared'⟩ => ⟨τ', ?_, fun v hv => ?_, hspared'⟩
  · rw [hc, length_attachLabel]
  · exact hoff v fun hadded => hv ⟨hadded.1, usesVar_attachLabel.mpr hadded.2⟩

/-- Both where the lowered line stood and elsewhere, a run gets to where the effect leads. Elsewhere
the counter over which an assignment is made is as it was. -/
theorem moved_meets (htable : table.Each Inlinable) (h : Labelled (before ++ line :: after))
    (htakes : line.instruction.Takes table) (hlow : LoweredAmong table before after line s s' lines)
    (hspared : Spared line.instruction s τ) {p : Nat} {here : Line}
    (hhere : (before ++ line :: after)[p]? = some here) :
    ∃ q, q + 1 = moved before.length lines.length (p + 1) ∧
      Meets table.oracle (before ++ lines ++ after)
        (.running (moved before.length lines.length p) τ)
        (fun effect c => ∃ τ', c = .follow (before ++ lines ++ after) q τ' effect.1 ∧
          AgreeOff (Added s s' lines) effect.2 τ' ∧
          ((∀ v, Added s s' lines v → effect.2 v = τ v) → Spared line.instruction s τ'))
        (here.instruction.effect table.oracle τ) := by
  have hne := (lower_names hlow.lower_eq).ne_nil
  have hpos := List.length_pos_iff.mpr hne
  by_cases hpk : p = before.length
  · -- The line itself is where its expansion begins.
    subst hpk
    rw [List.getElem?_append_right (Nat.le_refl _), Nat.sub_self] at hhere
    cases hhere
    refine ⟨before.length + (lines.length - 1), ?_, ?_⟩
    · rw [moved_of_lt (Nat.lt_succ_self _)]
      omega
    · rw [moved_of_le (Nat.le_refl _)]
      exact (lowered_meets htable h htakes hlow hspared).imp
        fun effect c ⟨τ', hc, hoff, hspared'⟩ => ⟨τ', hc, hoff, fun _ => hspared'⟩
  · -- Any other line is still there.
    refine ⟨moved before.length lines.length p, ?_, ?_⟩
    · simp only [moved]
      split <;> split <;> omega
    · exact (meets_line _ _ ((getElem?_moved hne hpk).trans hhere)).imp fun effect c hc =>
        ⟨effect.2, hc, .refl _, hspared.of_eq hlow.lower_eq⟩

/-- A program and the program after a line has been lowered keep step. -/
theorem lowered_simulates (htable : table.Each Inlinable) (h : Labelled (before ++ line :: after))
    (htakes : line.instruction.Takes table)
    (hlow : LoweredAmong table before after line s s' lines) :
    Simulates table.oracle (before ++ line :: after) (before ++ lines ++ after)
      (KeepsPace before after line s s' lines) := by
  refine ⟨fun c d hR hlive => ?_, fun c d hR hlive => ?_⟩
  · cases hR with
    | halted hoff => exact absurd trivial hlive
    | faulted => exact absurd trivial hlive
    | @running p σ τ hp hoff hspared =>
      obtain ⟨here, hhere⟩ : ∃ here, (before ++ line :: after)[p]? = some here :=
        ⟨_, List.getElem?_eq_getElem hp⟩
      have hmem : here ∈ before ++ line :: after := List.mem_of_getElem? hhere
      -- No line of the program mentions what comes in with the body.
      have hX : ∀ v ∈ here.instruction.vars, ¬ Added s s' lines v := fun v hv hadded =>
        hlow.notMem_names (ν := .var v) hadded.1 (uses_var.mpr hadded.2) hmem
          (var_mem_names.mpr hv)
      have hflow : ∀ flow σ', here.instruction.effect table.oracle σ = .value (flow, σ') →
          flow = .fallThrough ∨
            ∃ x, (FreshLabel s s' x → ¬ UsesLabel lines x) ∧ flow = .jump x := by
        intro flow σ' he
        refine (here.instruction.flow_cases table he).imp_right fun ⟨x, hx, hjump⟩ =>
          ⟨x, fun hfresh huses => ?_, hjump⟩
        exact hlow.notMem_names (ν := .label x) hfresh (uses_label.mpr huses) hmem
          (label_mem_names.mpr (mem_line_labels.mpr (.inr hx)))
      have heffect := here.instruction.effect_congr table hX hoff
      obtain ⟨q, hq, hmeets⟩ := moved_meets htable h htakes hlow hspared hhere
      refine matched_of_meets hhere heffect hmeets .faulted fun effect effect' c he hrel hc => ?_
      obtain ⟨hsame, hoff₁, hkept⟩ := hrel
      obtain ⟨τ', hc, hoff', hspared'⟩ := hc
      rw [hc, ← hsame]
      exact keepsPace_follow htable h hlow (hflow _ _ he) hq
        (fun v hv => (hoff' v hv).trans (hoff₁ v hv)) (hspared' hkept)
  · cases hR with
    | running => exact id
    | halted => exact absurd trivial hlive
    | faulted => exact absurd trivial hlive

/-- Where counters that come in are zero at first, runs of both programs end alike. -/
theorem lowered_runsAlike (htable : table.Each Inlinable) (h : Labelled (before ++ line :: after))
    (htakes : line.instruction.Takes table) (hlow : LoweredAmong table before after line s s' lines)
    {V : Variable → Prop} {σ : Store}
    (hV : ∀ v, V v → ¬ Added s s' lines v) (hzero : ∀ v, Added s s' lines v → σ v = 0) :
    RunsAlike table.oracle V σ (before ++ line :: after) (before ++ lines ++ after) := by
  have hsim := lowered_simulates htable h htakes hlow
  have hstart : KeepsPace before after line s s' lines (.running 0 σ) (.running 0 σ) := by
    have hpos : 0 < (before ++ line :: after).length := by
      rw [List.length_append, List.length_cons]
      omega
    -- Nothing has been written yet.
    have hspared : Spared line.instruction s σ := by
      cases hi : line.instruction with
      | assign dst src => exact fun hne => hzero _ (added_spare hlow.lower_eq hi hne)
      | _ => trivial
    have hrunning : KeepsPace before after line s s' lines _ _ :=
      .running hpos (.refl σ) hspared
    rwa [moved_of_le (Nat.zero_le _)] at hrunning
  refine ⟨fun e he => ?_, hsim.endless hstart⟩
  obtain ⟨e', ⟨n, hn⟩, hR⟩ := hsim.reaches hstart he
  cases hR with
  | running hp hoff hspared => exact absurd he.1 id
  | @halted σ' τ hoff =>
    exact ⟨.halted τ, ⟨trivial, n, hn⟩, .halted fun v hv => hoff v (hV v hv)⟩
  | faulted => exact ⟨.faulted, ⟨trivial, n, hn⟩, .faulted⟩

end

end CounterMachine
