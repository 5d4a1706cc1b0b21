import CounterMachine.Proofs.Identifier.Grammar
import CounterMachine.Proofs.Lowering.Names

/-!
# The last names that a lowering hands out

A lowering uses the last counter and the last label that it takes from the supply. So whether the
supply has left the range of 32 bits can be told from the names in the lines: all of them have 32
bits if and only if the supply has not left the range.

## Key results

- `Name.InRange`: a name whose number or index has 32 bits
- `lower_usesLast`: the last names are used
- `inRange_lower_iff`: the supply is in range if and only if the names in the lines are
-/

namespace CounterMachine

/-- A name whose number or index has 32 bits. -/
def Name.InRange : Name → Prop
  | .var v => v.InRange
  | .label x => x.InRange

/-- What was handed out is in range if the supply still is. -/
theorem Name.Fresh.inRange {s s' : Supply} {ν : Name} (h : ν.Fresh s s') (hs' : s'.InRange) :
    ν.InRange := by
  cases ν with
  | var v =>
    obtain ⟨n, _, hn, rfl⟩ := h
    exact hn.trans hs'.2
  | label x =>
    obtain ⟨n, _, hn, rfl⟩ := h
    intro m hm
    cases hm
    exact hn.trans hs'.1

/-- Reserved names are in range. -/
theorem Name.Reserved.inRange {ν : Name} (h : ν.Reserved) : ν.InRange := by
  cases h with
  | result => exact Nat.zero_le _
  | empty => exact nofun

/-- Lines use the last names that were handed out, if any were. -/
structure UsesLast (s : Supply) (lines : List Line) (s' : Supply) : Prop where
  work : s.work < s'.work → UsesVar lines (.work s'.work)
  label : s.label < s'.label → UsesLabel lines (.numbered s'.label)

section

variable {callee : Program} {args : List Argument} {s s' : Supply} {table : FunctionTable}

/-- Lines for which nothing is handed out. -/
theorem usesLast_refl (lines : List Line) : UsesLast s lines s :=
  ⟨fun h => absurd h (Nat.lt_irrefl _), fun h => absurd h (Nat.lt_irrefl _)⟩

/-- The last counter of a function gets the last fresh counter. -/
theorem exists_calleeVar_eq_last (callee : Program) (s : Supply) : ∃ v ∈ callee.vars,
    calleeVar callee s v = .work (s.work + callee.vars.length) := by
  have hne : callee.vars ≠ [] := List.ne_nil_of_mem (Program.result_mem_vars callee)
  have hpos := List.length_pos_iff.mpr hne
  have hlt : callee.vars.length - 1 < callee.vars.length := by omega
  refine ⟨callee.vars[callee.vars.length - 1], List.getElem_mem hlt, ?_⟩
  have hlast : callee.vars.idxOf? callee.vars[callee.vars.length - 1] =
      some (callee.vars.length - 1) := by
    refine List.findIdx?_eq_some_iff_getElem.mpr ⟨hlt, beq_self_eq_true _, fun j hj => ?_⟩
    -- A sorted set lists no counter twice.
    have hne := List.pairwise_iff_getElem.mp (nodup_sortedSet callee.usedVars)
      j _ (Nat.lt_trans hj hlt) hlt hj
    exact fun heq => hne (beq_iff_eq.mp heq)
  rw [calleeVar, freshVariable, hlast]
  simp only [Supply.workAt, Variable.work.injEq]
  omega

/-- An inlined call uses the last fresh counter for a counter of the function, and the last fresh
label behind its lines. -/
theorem usesLast_inlineCall (final : Variable → Instruction) :
    UsesLast s (inlineCall callee args final s).1 (inlineCall callee args final s).2 where
  work _ := by
    obtain ⟨v, hv, hlast⟩ := exists_calleeVar_eq_last callee s
    exact hlast ▸ calleeVar_used final hv
  label _ := by
    rw [inlineCall_eq]
    simp only [usesLabel_append, usesLabel_cons]
    exact .inr (.inl (mem_line_labels.mpr (.inl ⟨rfl, Label.noConfusion⟩)))

/-- The body of an instruction uses the last names that it takes. -/
theorem body_usesLast {label : Label} {i : Instruction} {lines : List Line}
    (h : i.body table label s = .ok (lines, s')) : UsesLast s lines s' := by
  cases body_cases h with
  | basic _ => exact usesLast_refl _
  | zeroOwn v n hn => exact usesLast_refl _
  | zeroFresh v hn =>
    refine ⟨fun h => absurd h (Nat.lt_irrefl _), fun _ => ?_⟩
    simp [zeroBody, mem_labels_mk, Supply.labelAt, Supply.take]
  | goto target =>
    refine ⟨fun _ => ?_, fun h => absurd h (Nat.lt_irrefl _)⟩
    simp [gotoBody, Supply.workAt, Supply.take, Instruction.vars]
  | assignSelf v => exact usesLast_refl _
  | assign dst src hne =>
    refine ⟨fun _ => ?_, fun _ => ?_⟩
    · simp [assignBody, Supply.workAt, Supply.take, Instruction.vars]
    · simp [assignBody, mem_labels_mk, Supply.labelAt, Supply.take]
  | assignConstant v value => exact usesLast_refl _
  | jumpZero v target =>
    refine ⟨fun h => absurd h (Nat.lt_irrefl _), fun _ => ?_⟩
    simp [jumpZeroBody, mem_labels_mk, Supply.labelAt, Supply.take]
  | jumpEqualConstant v value target =>
    refine ⟨fun _ => ?_, fun _ => ?_⟩
    · simp [jumpEqualConstantBody, Supply.workAt, Supply.take, Instruction.vars]
    · simp [jumpEqualConstantBody, mem_labels_mk, Supply.labelAt, Supply.take]
  | jumpEqualVariable v w target =>
    refine ⟨fun _ => ?_, fun _ => ?_⟩
    · simp [jumpEqualVariableBody, Supply.workAt, Supply.take, Instruction.vars]
    · simp [jumpEqualVariableBody, mem_labels_mk, Supply.labelAt, Supply.take]
  | quote dst call callee hfind => exact usesLast_inlineCall _
  | jumpEqualCall v call target callee hfind => exact usesLast_inlineCall _

/-- So do the lines of a lowered line, since a label on the first of them changes no other name. -/
theorem lower_usesLast {line : Line} {lines : List Line}
    (h : line.lower table s = .ok (lines, s')) : UsesLast s lines s' := by
  obtain ⟨body, hbody, rfl⟩ := lower_eq_ok h
  have hlast := body_usesLast hbody
  exact ⟨fun h => usesVar_attachLabel.mpr (hlast.work h),
    fun h => usesLabel_attachLabel_of_usesLabel (hlast.label h)⟩

/-- The names in a lowered line have 32 bits if and only if the supply has not left the range. -/
theorem inRange_lower_iff {line : Line} {lines : List Line} (hline : ∀ ν ∈ line.names, ν.InRange)
    (hs : s.InRange) (h : line.lower table s = .ok (lines, s')) :
    s'.InRange ↔ ∀ ν, Uses lines ν → ν.InRange := by
  have hnames := lower_names h
  constructor
  · intro hs' ν hν
    rcases hnames.name_from ν hν with hmem | hmem | hfresh
    · exact hline ν hmem
    · exact hmem.inRange
    · exact hfresh.inRange hs'
  · intro hlines
    have hlast := lower_usesLast h
    -- What the supply counts is what it was, or the last name, which is used.
    constructor
    · rcases hnames.label_le.eq_or_lt with heq | hlt
      · exact heq ▸ hs.1
      · exact hlines _ (uses_label.mpr (hlast.label hlt)) _ rfl
    · rcases hnames.work_le.eq_or_lt with heq | hlt
      · exact heq ▸ hs.2
      · exact hlines _ (uses_var.mpr (hlast.work hlt))

end

end CounterMachine
