import CounterMachine.Proofs.Lowering.Labels

/-!
# The jumps in a lowered line

The labels of a program are linked if they are in order and every jump leads to `EXIT` or to a label
that a line carries. When a line is lowered, the jumps of its lines lead where the line itself may
jump, or to a label that one of them carries. So labels stay linked.

## Key results

- `lower_target`: where the jumps in a lowered line lead
- `Linked.lower`: labels stay linked
-/

namespace CounterMachine

/-- Labels are in order, and every jump leads to `EXIT` or to a label that a line carries. -/
structure Linked (lines : List Line) : Prop extends Labelled lines where
  resolved : ∀ line ∈ lines, ∀ x, line.instruction.target? = some x →
    x = .exit ∨ x ∈ carried lines

theorem FunctionTable.Each.labelled_of_linked {table : FunctionTable}
    (h : table.Each fun callee => Linked callee.lines) :
    table.Each fun callee => Labelled callee.lines :=
  h.imp fun _ hcallee => hcallee.toLabelled

section

variable {table : FunctionTable} {callee : Program} {args : List Argument} {s s' : Supply}
  {lines before after : List Line} {line l : Line} {x : Label}

/-- Passing an argument is no jump. -/
theorem bindArgument_target? (dst : Variable) (arg : Argument) :
    (bindArgument dst arg).instruction.target? = none := by
  cases arg <;> rfl

/-- The jumps of an inlined call lead where its last line jumps, or to a label that its lines
carry. -/
theorem inlineCall_target {final : Variable → Instruction} (hcallee : Linked callee.lines)
    (hl : l ∈ (inlineCall callee args final s).1) (hx : l.instruction.target? = some x) :
    (final (calleeVar callee s .result)).target? = some x ∨
      x ∈ carried (inlineCall callee args final s).1 := by
  rw [carried_inlineCall hcallee.no_exit]
  cases mem_inlineCall.mp hl with
  | binding hinput harg =>
    rw [bindArgument_target?] at hx
    cases hx
  | clearing hv => cases hx
  | last => exact .inl hx
  | own hmem =>
    -- A jump out of the function leads behind its lines, any other jump stays among them.
    rw [Instruction.target?_rename, Option.map_eq_some_iff] at hx
    obtain ⟨y, hy, rfl⟩ := hx
    refine .inr (List.mem_append.mpr ?_)
    rcases hcallee.resolved _ hmem y hy with rfl | hy
    · exact .inr (List.mem_singleton.mpr rfl)
    · exact .inl (List.mem_map_of_mem hy)

/-- The jumps of a body lead where the instruction jumps, or to a label that its lines carry. -/
theorem body_target {label : Label} {i : Instruction}
    (htable : table.Each fun callee => Linked callee.lines)
    (h : i.body table label s = .ok (lines, s')) :
    ∀ l ∈ lines, ∀ x, l.instruction.target? = some x → i.target? = some x ∨ x ∈ carried lines := by
  cases body_cases h with
  | basic _ hbasic =>
    intro l hl x hx
    rw [List.mem_singleton.mp hl] at hx
    exact .inl hx
  | zeroOwn v n hn =>
    subst hn
    simp [zeroBody, Line.plain, Instruction.target?, carried]
  | zeroFresh v hn => simp [zeroBody, Line.plain, Instruction.target?, carried, Supply.labelAt]
  | goto target => simp [gotoBody, Line.plain, Instruction.target?]
  | assignSelf v => simp [Line.plain, Instruction.target?]
  | assign dst src hne =>
    simp [assignBody, Line.plain, Instruction.target?, carried, Supply.labelAt]
  | assignConstant v value => simp [assignConstantBody, Line.plain, Instruction.target?]
  | jumpZero v target =>
    simp [jumpZeroBody, Line.plain, Instruction.target?, carried, Supply.labelAt]
  | jumpEqualConstant v value target =>
    simp [jumpEqualConstantBody, Line.plain, Instruction.target?, carried, Supply.labelAt, or_imp,
      forall_and]
  | jumpEqualVariable v w target =>
    simp [jumpEqualVariableBody, Line.plain, Instruction.target?, carried, Supply.labelAt]
  | quote dst call callee hfind =>
    exact fun l hl x hx => inlineCall_target (htable _ _ hfind) hl hx
  | jumpEqualCall v call target callee hfind =>
    exact fun l hl x hx => inlineCall_target (htable _ _ hfind) hl hx

/-- Lines that get a label where there was none carry what they carried. -/
theorem carried_subset_attachLabel (label : Label) :
    carried lines ⊆ carried (attachLabel label lines) := by
  intro x hx
  cases lines with
  | nil => exact hx
  | cons first rest =>
    rw [attachLabel, carried_cons, List.mem_append]
    rw [carried_cons, List.mem_append] at hx
    refine hx.imp_left fun hx => ?_
    split
    · rename_i hempty
      -- The empty label is not carried.
      cases hl : first.label <;> simp_all [own, Label.isEmpty]
    · exact hx

/-- The jumps in a lowered line lead where the line jumps, or to a label that its lines carry. -/
theorem lower_target (htable : table.Each fun callee => Linked callee.lines)
    (h : line.lower table s = .ok (lines, s')) (hl : l ∈ lines)
    (hx : l.instruction.target? = some x) :
    line.instruction.target? = some x ∨ x ∈ carried lines := by
  obtain ⟨body, hb, rfl⟩ := lower_eq_ok h
  obtain ⟨l', hl', heq⟩ := instruction_attachLabel hl
  exact (body_target htable hb l' hl' x (heq ▸ hx)).imp_right
    fun hx => carried_subset_attachLabel _ hx

/-- Labels stay linked when a line is lowered. -/
theorem Linked.lower (htable : table.Each fun callee => Linked callee.lines)
    (h : Linked (before ++ line :: after))
    (hlow : LoweredAmong table before after line s s' lines) :
    Linked (before ++ lines ++ after) := by
  have hline : line ∈ before ++ line :: after := List.mem_append_right _ List.mem_cons_self
  obtain ⟨fresh, hcarried, _, _⟩ :=
    lower_carried htable.labelled_of_linked (h.no_exit line hline) hlow.lower_eq
  -- Every label that was carried is carried still.
  have hkept : ∀ old ∈ before ++ line :: after, ∀ x, old.instruction.target? = some x →
      x = .exit ∨ x ∈ carried (before ++ lines ++ after) := fun old hold x hx =>
    (h.resolved old hold x hx).imp_right fun hx =>
      (carried_lowered _ _ hcarried).mem_iff.mpr (List.mem_append_left _ hx)
  refine ⟨h.toLabelled.lower htable.labelled_of_linked hlow, fun other hother x hx => ?_⟩
  simp only [List.append_assoc, List.mem_append] at hother
  rcases hother with hother | hother | hother
  · exact hkept other (List.mem_append_left _ hother) x hx
  · rcases lower_target htable hlow.lower_eq hother hx with hx | hx
    · exact hkept line hline x hx
    · rw [carried_append, carried_append]
      exact .inr (List.mem_append_left _ (List.mem_append_right _ hx))
  · exact hkept other (List.mem_append_right _ (List.mem_cons_of_mem _ hother)) x hx

end

end CounterMachine
