import CounterMachine.Proofs.Reachable.Faults

/-!
# The expansion of one operation

When one visible operation is expanded, the entries of the arena stay, and new ones are added below
the operation. What has become of it takes its place among the visible operations, and the others
keep theirs. `ExpandedAt` collects what such an expansion has done; it succeeds if the degree of the
operation allows the levels and nothing that it comes to has a fault.

## Key results

- `Program.expandSingle_expandedAt`: what the expansion of one operation has done
- `Program.faultOf_expandSingle`: why it fails
- `Program.ExpandedAt.notMem_block`: an operation that is expanded is no longer visible
-/

namespace CounterMachine

section

variable {arena arena' : Array Operation} {i : Nat}

/-- Entries that stay keep their parents and all that is above them. -/
theorem lineage_of_kept (hkept : ∀ i < arena.size, arena'[i]? = arena[i]?) (hi : i < arena.size) :
    lineage arena' i = lineage arena i := by
  have hparent : ∀ j ≤ i, parentOf arena' j = parentOf arena j := by
    intro j hj
    rw [parentOf, parentOf, hkept j (by omega)]
  rw [lineage, lineage, ancestors_congr arena arena' i hparent]

end

/-- No operation gets above the layer that it came from. -/
theorem Sprouts.le_layer {table : FunctionTable} {levels n : Nat} {leaves out : List Leaf}
    {s s' : Supply} (h : Sprouts table levels leaves s out s')
    (hleaves : ∀ leaf ∈ leaves, n ≤ leaf.layer) : ∀ leaf ∈ out, n ≤ leaf.layer := by
  -- Lines that are written for an operation are one layer deeper than it.
  induction h with
  | nil => exact nofun
  | keep _ _ ih =>
    obtain ⟨hleaf, hrest⟩ := List.forall_mem_cons.mp hleaves
    exact List.forall_mem_cons.mpr ⟨hleaf, ih hrest⟩
  | lower _ _ _ _ ihbelow ihrest =>
    obtain ⟨hleaf, hrest⟩ := List.forall_mem_cons.mp hleaves
    refine List.forall_mem_append.mpr ⟨?_, ihrest hrest⟩
    exact ihbelow (List.forall_mem_map.mpr fun line _ => Nat.le_succ_of_le hleaf)

/-- What is visible stands below an entry. -/
structure Stage.Below (id : Nat) (stage : Stage) : Prop where
  id_eq : ∀ (i : Nat) (op : Operation), stage.arena[i]? = some op → op.id = i
  visible : ∀ i ∈ stage.order, i < stage.arena.size ∧ id ∈ lineage stage.arena i

section

variable {table : FunctionTable} {id : Nat} {stage stage' : Stage}

/-- One step of an expansion writes the lines of an operation below it. -/
theorem Stage.Below.step (h : stage.Below id) (hstep : Unfolds table stage stage') :
    stage'.Below id := by
  cases hstep with
  | @lower arena left right k op s s' lines hop hsyn hlower =>
    have hk : op.id = k := h.id_eq k op hop
    have hlt : op.id < arena.size := hk ▸ (Array.getElem?_eq_some_iff.mp hop).1
    refine ⟨fun i x => id_eq_withChildren arena op lines h.id_eq, fun i hi => ?_⟩
    have hold : i ∈ left ++ k :: right → i < (withChildren arena op lines).size ∧
        id ∈ lineage (withChildren arena op lines) i := by
      intro hi
      obtain ⟨hsize, hid⟩ := h.visible i hi
      rw [lineage_withChildren_lt arena op lines hsize, size_withChildren]
      exact ⟨Nat.lt_add_right _ hsize, hid⟩
    simp only [List.mem_append] at hi
    -- The new entries are below `id`, because the one that they replace was.
    rcases hi with (hi | hi) | hi
    · exact hold (List.mem_append_left _ hi)
    · rw [List.mem_range'_1] at hi
      rw [lineage_withChildren_ge arena op lines hlt hi.1 hi.2, size_withChildren, hk]
      refine ⟨hi.2, List.mem_cons_of_mem i ?_⟩
      exact (h.visible k (List.mem_append_right _ List.mem_cons_self)).2
    · exact hold (List.mem_append_right _ (List.mem_cons_of_mem _ hi))

/-- So do any number of steps. -/
theorem Stage.Below.steps (h : stage.Below id)
    (hsteps : Relation.ReflTransGen (Unfolds table) stage stage') : stage'.Below id := by
  induction hsteps with
  | refl => exact h
  | tail _ hstep ih => exact ih.step hstep

end

namespace Program

/-- The degree of a visible operation. -/
def operationDegree (p : Program) (id : Nat) : Nat :=
  match p.operation? id with
  | some op => op.instruction.degree p.callable.degrees.of
  | none => 0

/-- What the expansion of one visible operation by a number of levels has done: the entries stay,
and in the place of the operation there is what it sprouts to. -/
structure ExpandedAt (p : Program) (id levels : Nat) (q : Program) (op : Operation)
    (left block right : List Nat) : Prop where
  entry : p.arena[id]? = some op
  levels_le : levels ≤ op.instruction.degree p.callable.degrees.of
  order_eq : p.order = left ++ id :: right
  frame : q = { p with arena := q.arena, order := left ++ block ++ right }
  size_le : p.arena.size ≤ q.arena.size
  kept : ∀ i < p.arena.size, q.arena[i]? = p.arena[i]?
  lt_size : ∀ i ∈ block, i < q.arena.size
  steps : ∃ s, Relation.ReflTransGen (Unfolds p.callable) ⟨p.arena, [id], Supply.ofProgram p⟩
    ⟨q.arena, block, s⟩
  sprouts : ∃ s, Sprouts p.callable levels [op.leaf] (Supply.ofProgram p)
    (leavesAt q.arena block) s

variable {p q : Program} {id levels position : Nat} {op : Operation}

/-- One visible operation is expanded if its degree allows the levels. -/
theorem expandSingle_eq (hpos : p.positionOf? id = some position) (levels : Nat) :
    p.expandSingle id levels =
      if p.operationDegree id < levels then .error (.invalidDegree levels (p.operationDegree id))
      else Growth.expand p.callable levels p.seed id >>= fun g => .ok { p with
        arena := g.arena
        order := p.order.take position ++ g.order.toList ++ p.order.drop (position + 1) } := by
  rw [expandSingle, hpos, operationDegree]
  cases p.operation? id with
  | none => simp only; split <;> rfl
  | some op => simp only; split <;> rfl

/-- What is visible has got a position. -/
theorem exists_positionOf? (h : id ∈ p.order) : ∃ position, p.positionOf? id = some position := by
  cases hpos : p.positionOf? id with
  | none => exact absurd h (List.idxOf?_eq_none_iff.mp hpos)
  | some position => exact ⟨position, rfl⟩

/-- The degree of a visible operation is that of its instruction. -/
theorem operationDegree_eq (hop : p.arena[id]? = some op) :
    p.operationDegree id = op.instruction.degree p.callable.degrees.of := by
  rw [operationDegree, operation?, hop]

/-- What the expansion of one operation has done. -/
theorem expandSingle_expandedAt (hp : ∀ i ∈ p.order, i < p.arena.size)
    (h : p.expandSingle id levels = .ok q) :
    ∃ op left block right, ExpandedAt p id levels q op left block right := by
  obtain ⟨position, g, hpos, hg, hq⟩ := expandSingle_eq_ok p q id levels h
  have horder := order_of_positionOf? p id position hpos
  have hid : id < p.arena.size := hp id (horder ▸ by simp)
  have hop : p.arena[id]? = some p.arena[id] := Array.getElem?_eq_getElem hid
  have hle : levels ≤ p.operationDegree id := by
    by_contra hlt
    rw [expandSingle_eq hpos, if_pos (Nat.lt_of_not_le hlt)] at h
    cases h
  -- The expansion is looked at twice, as something that sprouts and as a row of steps.
  obtain ⟨block, grown⟩ := Growth.expand_sprouted levels p.seed id g hid hg
  obtain ⟨block', horder', hsteps⟩ := Growth.expand_unfolds levels p.seed g id hg
  have hblock : g.order.toList = block := grown.order_eq
  have hblock' : g.order.toList = block' := horder'
  obtain rfl : block = block' := hblock.symm.trans hblock'
  subst hq
  refine ⟨p.arena[id], p.order.take position, block, p.order.drop (position + 1), hop,
    operationDegree_eq hop ▸ hle, horder, by rw [hblock], grown.size_le, grown.kept,
    grown.lt_size, ⟨g.supply, ?_⟩, ⟨g.supply, ?_⟩⟩
  · have hsteps := hsteps [] []
    simp only [List.nil_append, List.append_nil] at hsteps
    exact hsteps
  · have hsprouts := grown.sprouts
    rwa [show leavesAt p.seed.arena [id] = [p.arena[id].leaf] from leavesAt_cons hop] at hsprouts

/-- By no level, nothing is done. -/
theorem eq_of_expandSingle_zero (h : p.expandSingle id 0 = .ok q) : q = p := by
  obtain ⟨position, g, hpos, hg, rfl⟩ := expandSingle_eq_ok p q id 0 h
  have horder := order_of_positionOf? p id position hpos
  have hkeep : g = p.seed.keep id := (Except.ok.inj hg).symm
  -- The operation is put back where it was taken from.
  have hplace : p.order.take position ++ g.order.toList ++ p.order.drop (position + 1) =
      p.order := by
    rw [hkeep]
    show p.order.take position ++ [id] ++ p.order.drop (position + 1) = p.order
    rw [List.append_assoc, List.singleton_append, ← horder]
  rw [hplace, hkeep]
  cases p
  rfl

/-- The expansion of one operation fails if its degree does not allow the levels, or else for the
first fault of what it comes to on them. -/
theorem faultOf_expandSingle (hp : ∀ i ∈ p.order, i < p.arena.size) (hid : id ∈ p.order)
    (hop : p.arena[id]? = some op) (hle : levels ≤ p.operationDegree id) :
    faultOf (p.expandSingle id levels) = firstFault p.callable levels [op.instruction] := by
  obtain ⟨position, hpos⟩ := exists_positionOf? hid
  have hleaf : leavesAt p.seed.arena [id] = [op.leaf] := leavesAt_cons hop
  rw [expandSingle_eq hpos, if_neg (Nat.not_lt.mpr hle), faultOf_bind_ok,
    Growth.faultOf_expand levels p.seed id (hp id hid), hleaf]
  rfl

namespace ExpandedAt

variable {left block right : List Nat} {i : Nat}

/-- Afterwards the block stands where the operation stood. -/
theorem order_after (h : ExpandedAt p id levels q op left block right) :
    q.order = left ++ block ++ right := by
  rw [h.frame]

/-- Before, the operation and the others are visible. -/
theorem mem_order (h : ExpandedAt p id levels q op left block right) :
    i ∈ p.order ↔ i = id ∨ i ∈ left ++ right := by
  rw [h.order_eq]
  simp only [List.mem_append, List.mem_cons]
  tauto

/-- Afterwards, the block and the others are. -/
theorem mem_order_after (h : ExpandedAt p id levels q op left block right) :
    i ∈ q.order ↔ i ∈ block ∨ i ∈ left ++ right := by
  rw [h.order_after]
  simp only [List.mem_append]
  tauto

/-- No operation is visible twice, so the operation is not one of the others. -/
theorem mem_others (h : ExpandedAt p id levels q op left block right)
    (hf : Forest p.arena p.order) : i ∈ left ++ right ↔ i ∈ p.order ∧ i ≠ id := by
  obtain ⟨hleft, hright⟩ := (h.order_eq ▸ hf).not_mem_of_split
  have hid : id ∉ left ++ right := fun hid => (List.mem_append.mp hid).elim hleft hright
  rw [h.mem_order]
  -- The order shows no entry twice, so the operation is on neither side of itself.
  constructor
  · exact fun hi => ⟨.inr hi, fun heq => hid (heq ▸ hi)⟩
  · exact fun ⟨hi, hne⟩ => hi.resolve_left hne

/-- What is in the place of the operation stands below it. -/
theorem mem_lineage (h : ExpandedAt p id levels q op left block right)
    (hf : Forest p.arena p.order) (hi : i ∈ block) : id ∈ lineage q.arena i := by
  obtain ⟨s, hsteps⟩ := h.steps
  have hbelow : Stage.Below id ⟨p.arena, [id], Supply.ofProgram p⟩ := by
    refine ⟨hf.id_eq, fun i hi => ?_⟩
    rw [List.mem_singleton.mp hi]
    exact ⟨(Array.getElem?_eq_some_iff.mp h.entry).1, self_mem_lineage p.arena id⟩
  exact ((hbelow.steps hsteps).visible i hi).2

/-- The other operations do not. -/
theorem notMem_lineage (h : ExpandedAt p id levels q op left block right)
    (hf : Forest p.arena p.order) (hi : i ∈ left ++ right) : id ∉ lineage q.arena i := by
  obtain ⟨hmem, hne⟩ := (h.mem_others hf).mp hi
  rw [lineage_of_kept h.kept (hf.lt_size hmem)]
  intro hlineage
  exact hne (hf.eq_of_mem_lineage (h.mem_order.mpr (.inl rfl)) hlineage).symm

/-- An operation that is expanded is no longer visible. -/
theorem notMem_block (h : ExpandedAt p id levels q op left block right) (hlevels : 0 < levels) :
    id ∉ block := by
  obtain ⟨s, hsprouts⟩ := h.sprouts
  obtain ⟨n, rfl⟩ : ∃ n, levels = n + 1 := ⟨levels - 1, by omega⟩
  have hsyn : ¬ op.instruction.isBasic = true := by
    rw [Instruction.isBasic_iff_degree_eq_zero p.callable.degrees.of]
    have := h.levels_le
    omega
  -- Everything in its place is deeper than it.
  have hdeeper : ∀ leaf ∈ leavesAt q.arena block, op.layer + 1 ≤ leaf.layer := by
    generalize leavesAt q.arena block = out at hsprouts
    cases hsprouts with
    | keep hstay _ => exact absurd (hstay.resolve_left (Nat.succ_ne_zero n)) hsyn
    | lower _ _ hbelow hrest =>
      cases hrest
      rw [List.append_nil]
      exact hbelow.le_layer (List.forall_mem_map.mpr fun _ _ => Nat.le_refl _)
  intro hid
  have hentry : q.arena[id]? = some op :=
    (h.kept id (Array.getElem?_eq_some_iff.mp h.entry).1).trans h.entry
  have hleaf : op.leaf ∈ leavesAt q.arena block :=
    List.mem_filterMap.mpr ⟨id, hid, by rw [hentry]; rfl⟩
  have hlayer : op.layer + 1 ≤ op.layer := hdeeper op.leaf hleaf
  omega

end ExpandedAt

end Program

end CounterMachine
