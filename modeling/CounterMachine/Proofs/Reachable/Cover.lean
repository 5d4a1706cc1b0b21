import CounterMachine.Proofs.Reachable.Derivation

/-!
# What the supply of a program covers

The supply of a program starts above the names of its visible operations. The hidden entries of
the arena use no larger names: what an entry is lowered to keeps the names of the entry, or uses
larger ones, and so it goes on down to the visible operations.

## Key results

- `Derived.covers`: names of visible operations bound the names of all entries
- `Forest.covers_ofProgram`: the supply of a program covers its arena
-/

namespace CounterMachine

/-! ### Largest numbers -/

/-- No number is larger than the largest one. -/
theorem Supply.le_largest {n : Nat} {numbers : List Nat} (h : n ∈ numbers) :
    n ≤ Supply.largest numbers :=
  ((foldl_max_le_iff id numbers 0 _).mp (Nat.le_refl _)).2 n h

section

variable {p : Program}

/-- The supply of a program covers the counters that are in use. -/
theorem Supply.covered_of_mem_usedVars {v : Variable} (h : v ∈ p.usedVars) :
    Name.Covered (Supply.ofProgram p) (.var v) := by
  rintro n rfl
  exact le_largest (List.mem_filterMap.mpr ⟨_, h, rfl⟩)

/-- The supply of a program covers the labels that are in use. -/
theorem Supply.covered_of_mem_usedLabels {x : Label} (h : x ∈ p.usedLabels) :
    Name.Covered (Supply.ofProgram p) (.label x) := by
  rintro n rfl
  exact le_largest (List.mem_filterMap.mpr ⟨_, h, rfl⟩)

/-- What is visible are the entries at the places in the order. -/
theorem Program.mem_operations {x : Operation} :
    x ∈ p.operations ↔ ∃ i ∈ p.order, p.arena[i]? = some x :=
  List.mem_filterMap

/-- The supply of a program covers the names of the visible operations. -/
theorem Supply.covered_of_mem_operations {x : Operation} (hx : x ∈ p.operations) (ν : Name)
    (hν : ν ∈ x.line.names) : ν.Covered (Supply.ofProgram p) := by
  cases ν with
  | var v =>
    have hv : v ∈ x.instruction.vars := var_mem_names.mp hν
    exact covered_of_mem_usedVars (List.mem_append_right _
      (List.mem_cons_of_mem _ (List.mem_flatMap.mpr ⟨x, hx, hv⟩)))
  | label y =>
    have hy : y ∈ x.labels := label_mem_names.mp hν
    exact covered_of_mem_usedLabels (List.mem_flatMap.mpr ⟨x, hx, hy⟩)

end

/-! ### From the visible operations to the hidden entries -/

/-- A supply that covers what a line is lowered to covers the line. -/
theorem LineNames.covered_of_lines {line : Line} {lines : List Line} {s s' t : Supply}
    (h : LineNames line s lines s') (hline : ∀ ν ∈ line.names, ν.Covered s)
    (hlines : ∀ ν, Uses lines ν → ν.Covered t) (ν : Name) (hν : ν ∈ line.names) :
    ν.Covered t := by
  cases ν with
  | var v =>
    rintro n rfl
    rcases h.var_kept _ (var_mem_names.mp hν) with hv | ⟨w, ⟨m, hm, _, rfl⟩, hw⟩
    · exact hlines _ (uses_var.mpr hv) n rfl
    · -- The counter is lost, but a fresh one of a larger index is there.
      have hn : n ≤ s.work := hline _ hν n rfl
      have hm' : m ≤ t.work := hlines _ (uses_var.mpr hw) m rfl
      omega
  | label x =>
    rintro n rfl
    exact hlines _ (uses_label.mpr (h.label_kept n (label_mem_names.mp hν))) n rfl

section

variable {table : FunctionTable} {inputs : List Variable} {arena : Array Operation}
  {order : List Nat} {t : Supply}

/-- A supply that covers the names of the visible operations covers those of all entries. -/
theorem Derived.covers (hd : Derived table inputs arena) (hf : Forest arena order)
    (ht : ∀ i ∈ order, ∀ (x : Operation), arena[i]? = some x → ∀ ν ∈ x.line.names, ν.Covered t)
    (k : Nat) (op : Operation) (hop : arena[k]? = some op) : ∀ ν ∈ op.line.names, ν.Covered t := by
  -- The children of an entry stand behind it.
  induction hn : arena.size - k using Nat.strongRecOn generalizing k op with
  | ind n ih =>
    have hk : k < arena.size := (Array.getElem?_eq_some_iff.mp hop).1
    by_cases hvis : k ∈ order
    · exact ht k hvis op hop
    · obtain ⟨j, hj⟩ := hf.exists_child hk hvis
      obtain ⟨s, s', hlow⟩ := hd k op hop (List.ne_nil_of_mem (mem_childIds.mpr hj))
      refine (lower_names hlow.lower_eq).covered_of_lines hlow.covered ?_
      rintro ν ⟨line, hline, hν⟩
      obtain ⟨i, hi, x, hx, rfl⟩ := mem_linesAt.mp hline
      have hki := hf.descending i k (mem_childIds.mp hi)
      exact ih (arena.size - i) (by omega) i x hx rfl ν hν

end

/-- The supply of a program covers its whole arena, though it looks at the visible operations
only. -/
theorem Forest.covers_ofProgram {p : Program} {table : FunctionTable}
    (hf : Forest p.arena p.order) (hd : Derived table p.inputs p.arena) :
    Covers (Supply.ofProgram p) p.inputs p.arena := by
  refine ⟨fun v hv => Supply.covered_of_mem_usedVars (List.mem_append_left _ hv), ?_⟩
  refine hd.covers hf fun i hi x hx => ?_
  exact Supply.covered_of_mem_operations (Program.mem_operations.mpr ⟨i, hi, hx⟩)

end CounterMachine
