import CounterMachine.Proofs.Reachable.Invariant

/-!
# Fresh names are fresh in the whole arena

The supply of a program looks at the visible operations only, while a collapse can bring back any
of the operations that they were written for. Nevertheless no name that the supply hands out is in
use in the arena, and what a lowering has brought in is used for its operation alone.

## Key results

- `Program.Reachable.supply_unused`: names that the supply hands out are new to the arena
-/

namespace CounterMachine

namespace Program

variable {name : String} {displayName : Option String} {inputs : Option (List Variable)}
  {functions : Option (List Program)} {lines : List Line} {p : Program}

/-- What an entry uses and its parent does not, is used below the parent only. -/
theorem Grown.below_of_new_name {source : Program} (h : Grown source p) {j k : Nat}
    {x op : Operation} (hx : p.arena[j]? = some x) (hop : p.arena[k]? = some op)
    (hparent : x.parent = some k) {ν : Name} (hν : ν ∈ x.line.names) (hnew : ν ∉ op.line.names)
    (hreserved : ¬ ν.Reserved) {i : Nat} {y : Operation} (hy : p.arena[i]? = some y)
    (hyν : ν ∈ y.line.names) : k ∈ ancestors p.arena i := by
  have hj : j ∈ childIds p.arena k := mem_childIds.mpr ((parentOf_of_getElem? hx).trans hparent)
  obtain ⟨s, s', hlow⟩ := h.derived k op hop (List.ne_nil_of_mem hj)
  have huses : Uses (linesAt p.arena (childIds p.arena k)) ν :=
    ⟨x.line, mem_linesAt.mpr ⟨j, hj, x, hx, rfl⟩, hν⟩
  -- The name is the parent's own, or reserved, or it came in with the children.
  rcases (lower_names hlow.lower_eq).name_from ν huses with hmem | hmem | hfresh
  · exact absurd hmem hnew
  · exact absurd hmem hreserved
  · exact hlow.fresh_below ν hfresh huses i y hy hyν

/-- No label and no counter that the supply of a reachable program hands out is used by an entry of
the arena, visible or hidden. And the labels and counters that came in when an operation was
expanded are used below that operation only, so no hidden operation gets into conflict with them
by coming back. The names are counted without a bound here; with counters of 32 bits they are handed
out up to the last one, and nothing is handed out after it (`CheckedReachable.reachable`). -/
theorem Reachable.supply_unused
    (h : Reachable (ofLines name displayName inputs functions lines) p) :
    (∀ (i : Nat) (op : Operation), p.arena[i]? = some op →
      (∀ n, (Supply.ofProgram p).label < n →
        op.label ≠ .numbered n ∧ op.instruction.target? ≠ some (.numbered n)) ∧
      ∀ n, (Supply.ofProgram p).work < n → .work n ∉ op.instruction.vars) ∧
    ∀ (j k : Nat) (x op : Operation), p.arena[j]? = some x → p.arena[k]? = some op →
      x.parent = some k →
      (∀ n, .numbered n ∈ x.labels → .numbered n ∉ op.labels →
        ∀ (i : Nat) (y : Operation), p.arena[i]? = some y → .numbered n ∈ y.labels →
          k ∈ ancestors p.arena i) ∧
      ∀ n, .work n ∈ x.instruction.vars → .work n ∉ op.instruction.vars →
        ∀ (i : Nat) (y : Operation), p.arena[i]? = some y → .work n ∈ y.instruction.vars →
          k ∈ ancestors p.arena i := by
  have hg := h.grown (Grown.ofLines ..)
  -- The seeds are taken from the visible operations, and bound the names of hidden ones too.
  have hcovers := hg.forest.covers_ofProgram (hg.inputs_eq.symm ▸ hg.derived)
  refine ⟨fun i op hop => ⟨fun n hn => ?_, fun n hn hmem => ?_⟩,
    fun j k x op hx hop hparent =>
      ⟨fun n hmem hnew i y hy hyn => ?_, fun n hmem hnew i y hy hyn => ?_⟩⟩
  · have hlabels : .numbered n ∉ op.line.labels := fun hmem =>
      absurd (hcovers.2 i op hop _ (label_mem_names.mpr hmem) n rfl) (Nat.not_le_of_lt hn)
    rw [mem_line_labels, not_or] at hlabels
    exact ⟨fun heq => hlabels.1 ⟨heq.symm, nofun⟩, hlabels.2⟩
  · exact absurd (hcovers.2 i op hop _ (var_mem_names.mpr hmem) n rfl) (Nat.not_le_of_lt hn)
  · exact hg.below_of_new_name hx hop hparent (label_mem_names.mpr hmem)
      (fun h => hnew (label_mem_names.mp h)) nofun hy (label_mem_names.mpr hyn)
  · exact hg.below_of_new_name hx hop hparent (var_mem_names.mpr hmem)
      (fun h => hnew (var_mem_names.mp h)) nofun hy (var_mem_names.mpr hyn)

/-- An expanded assignment leaves the labels from `L4` on and the counters from `z2` on. -/
theorem supply_unused_assign : ∃ p,
    (ofLines "copy" none none none [.plain (.assign .result (.input 1))]).expand 1 = .ok p ∧
      ∀ (i : Nat) (op : Operation), p.arena[i]? = some op →
        (∀ n, 3 < n → op.label ≠ .numbered n ∧ op.instruction.target? ≠ some (.numbered n)) ∧
        ∀ n, 1 < n → .work n ∉ op.instruction.vars := by
  have hp : (ofLines "copy" none none none [.plain (.assign .result (.input 1))]).expand 1 =
    .ok _ := rfl
  exact ⟨_, hp, (Reachable.supply_unused (.expand .refl hp)).1⟩

end Program

end CounterMachine
