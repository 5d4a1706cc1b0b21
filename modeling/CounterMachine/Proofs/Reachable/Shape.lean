import CounterMachine.Proofs.Reachable.Invariant

/-!
# The shape of reachable programs

In a program that is reachable from a source, every entry of the arena stands at its own place and
behind its parent, the visible operations are the entries without children, and they are read from
left to right: what was written for one operation stands together, and stands where the operation
stood. No place outside the arena is ever looked up.

## Key results

- `Program.Shape`: what all this says of a program
- `Program.Reachable.hasShape`: it holds of every reachable program
-/

namespace CounterMachine

namespace Program

/-- The places of the visible operations that are an entry or were written for it. -/
def visibleBelow (p : Program) (a : Nat) : List Nat := p.order.filter (p.descends a ·)

/-- The arena is a forest and the order lists its leaves from left to right. -/
structure Shape (p : Program) : Prop where
  /-- Every entry stands at its own place. -/
  id_eq : ∀ (i : Nat) (op : Operation), p.arena[i]? = some op → op.id = i
  /-- A source operation is on layer zero. -/
  layer_root : ∀ (i : Nat) (op : Operation), p.arena[i]? = some op → op.parent = none →
    op.layer = 0
  /-- A parent stands before its children, one layer above them. -/
  layer_child : ∀ (i : Nat) (op : Operation) (k : Nat), p.arena[i]? = some op →
    op.parent = some k → k < i ∧ ∃ parent, p.arena[k]? = some parent ∧ op.layer = parent.layer + 1
  /-- No operation is visible twice. -/
  order_nodup : p.order.Nodup
  /-- The visible operations are those that are nobody's parent. -/
  mem_order : ∀ i, i ∈ p.order ↔ i < p.arena.size ∧
    ∀ (j : Nat) (op : Operation), p.arena[j]? = some op → op.parent ≠ some i
  /-- Something was written for every entry, and it stands together. -/
  block : ∀ a < p.arena.size, p.visibleBelow a ≠ [] ∧
    ∃ left right, p.order = left ++ p.visibleBelow a ++ right
  /-- What was written for children of one parent, or for source operations, stands in the order
  of their places. -/
  siblings : ∀ (a b : Nat) (x y : Operation), p.arena[a]? = some x → p.arena[b]? = some y →
    x.parent = y.parent → a < b →
      ∃ left middle right, p.order =
        left ++ p.visibleBelow a ++ middle ++ p.visibleBelow b ++ right
  /-- The counters in use are the inputs, the result and the counters of visible operations. -/
  vars_eq : ∀ v, v ∈ p.vars ↔
    v ∈ p.inputs ∨ v = .result ∨ ∃ op ∈ p.operations, v ∈ op.instruction.vars
  /-- The labels in use are those that visible operations carry or jump to. -/
  labels_eq : ∀ x, x ∈ p.labels ↔ ∃ op ∈ p.operations,
    (x = op.label ∧ x ≠ .empty) ∨ op.instruction.target? = some x
  /-- The order leads to operations only. -/
  operations_eq : p.order.map p.operation? = p.operations.map some
  /-- From every entry the parent links lead, each to an entry, to a source operation. -/
  walk : ∀ i < p.arena.size, (p.provenance i).map Operation.id = lineage p.arena i ∧
    (p.provenance i).IsChain (fun x y => x.parent = some y.id) ∧
    ∃ root, (p.provenance i).getLast? = some root ∧ root.parent = none

end Program

namespace Forest

variable {arena : Array Operation} {order : List Nat}

/-- A walk from an entry meets entries only, follows every parent link and ends without one. -/
theorem walk (hf : Forest arena order) {i : Nat} (hi : i < arena.size) :
    ∃ ops : List Operation, (lineage arena i).filterMap (arena[·]?) = ops ∧
      ops.map Operation.id = lineage arena i ∧
      ops.IsChain (fun x y => x.parent = some y.id) ∧
      ∃ root, ops.getLast? = some root ∧ root.parent = none := by
  -- On the place, since a parent stands before its children.
  induction i using Nat.strongRecOn with
  | ind i ih =>
    have hop : arena[i]? = some arena[i] := Array.getElem?_eq_getElem hi
    have hid := hf.id_eq i _ hop
    have hparent := parentOf_of_getElem? hop
    cases hp : arena[i].parent with
    | none =>
      rw [lineage_of_root _ _ (hparent.trans hp)]
      exact ⟨[arena[i]], by simp [hop], by simp [hid], by simp, arena[i], rfl, hp⟩
    | some k =>
      obtain ⟨hlt, _⟩ := hf.layer_of_parent hop hp
      obtain ⟨ops, heq, hids, hchain, root, hroot, hnone⟩ := ih k hlt (by omega)
      rw [lineage_of_parent _ _ _ (hparent.trans hp) hlt]
      refine ⟨arena[i] :: ops, ?_, ?_, ?_, root, ?_, hnone⟩
      · rw [List.filterMap_cons_some hop, heq]
      · rw [List.map_cons, hids, hid]
      · -- The first operation of the rest of the walk is the parent.
        cases ops with
        | nil => simp
        | cons y ys =>
          rw [lineage, List.map_cons] at hids
          exact List.isChain_cons_cons.mpr ⟨by rw [hp, (List.cons.inj hids).1], hchain⟩
      · rw [List.getLast?_cons, hroot, Option.getD_some]

end Forest

namespace Program

variable {name : String} {displayName : Option String} {inputs : Option (List Variable)}
  {functions : Option (List Program)} {lines : List Line} {p : Program}

/-- Every program that is reachable from a source has the shape of a forest. -/
theorem Reachable.hasShape
    (h : Reachable (ofLines name displayName inputs functions lines) p) : p.Shape := by
  have hf := (h.grown (Grown.ofLines ..)).forest
  exact {
    id_eq := hf.id_eq
    layer_root := fun i op hop hp => by
      rw [hf.layer_eq i op hop, ancestors_of_root _ _ ((parentOf_of_getElem? hop).trans hp)]
      rfl
    layer_child := fun i op k hop hk => hf.layer_of_parent hop hk
    order_nodup := hf.nodup
    mem_order := fun i => by
      rw [hf.mem_order]
      -- A parent is told by the entry that names it, in both forms.
      refine and_congr_right fun _ => ⟨fun h j op hop hp => ?_, fun h j hp => ?_⟩
      · exact h j ((parentOf_of_getElem? hop).trans hp)
      · obtain ⟨op, hop, hp⟩ := Option.bind_eq_some_iff.mp hp
        exact h j op hop hp
    block := fun a ha => ⟨hf.filter_lineage_ne_nil ha, hf.block a⟩
    siblings := fun a b x y hx hy hxy hlt => by
      -- Source operations are siblings too: they have no parent.
      refine hf.sibling_blocks (Array.getElem?_eq_some_iff.mp hx).1 ?_ hlt
      rw [parentOf_of_getElem? hx, parentOf_of_getElem? hy, hxy]
    vars_eq := fun v => by simp [mem_vars, usedVars]
    labels_eq := fun x => by
      rw [mem_labels, usedLabels, List.mem_flatMap]
      exact exists_congr fun op => and_congr_right fun _ => op.mem_labels
    operations_eq := by
      -- Every place that is listed is an entry, so no operation is dropped.
      have hall : ∀ i ∈ p.order, ∃ op, p.operation? i = some op := fun i hi => hf.exists_entry hi
      rw [operations]
      generalize p.order = ids at hall
      induction ids with
      | nil => rfl
      | cons i ids ih =>
        obtain ⟨op, hop⟩ := hall i List.mem_cons_self
        rw [List.map_cons, hop, List.filterMap_cons_some hop, List.map_cons,
          ih fun j hj => hall j (List.mem_cons_of_mem _ hj)]
    walk := fun i hi => by
      obtain ⟨ops, heq, hids, hchain, hroot⟩ := hf.walk hi
      have hprov : p.provenance i = ops := by
        rw [provenance, operation?, Array.getElem?_eq_getElem hi]
        exact heq
      rw [hprov]
      exact ⟨hids, hchain, hroot⟩ }

/-- An assignment that was expanded twice and collapsed once. -/
theorem hasShape_collapsed_assign : ∃ p q,
    (ofLines "copy" none none none [.plain (.assign .result (.input 1))]).expand 2 = .ok p ∧
      p.collapse = .ok q ∧ q.Shape := by
  have hp : (ofLines "copy" none none none [.plain (.assign .result (.input 1))]).expand 2 =
    .ok _ := rfl
  exact ⟨_, _, hp, rfl, Reachable.hasShape (.collapse (.expand .refl hp) rfl)⟩

end Program

end CounterMachine
