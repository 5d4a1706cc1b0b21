import CounterMachine.Proofs.Lowering.Names
import CounterMachine.Proofs.Reachable.Cuts
import CounterMachine.Proofs.Reachable.Invariant

/-!
# From the lines of a source to the visible lines

Whatever has been expanded and collapsed on the way from a source to a program, the visible lines
come from the lines of the source when lines are lowered, one at a time, among the others: from cut
to cut at most one line is. So what every such lowering keeps is true of every reachable program.

## Key results

- `Program.Grown.lines_induction`: induction from the lines of the source to the visible lines
-/

namespace CounterMachine

/-- An entry that was lowered to its children was lowered among entries that are not below it. -/
theorem LoweredAt.among {table : FunctionTable} {inputs : List Variable} {arena : Array Operation}
    {k : Nat} {op : Operation} {s s' : Supply} (h : LoweredAt table inputs arena k op s s')
    {left right : List Nat} (hapart : ∀ j ∈ left ++ right, k ∉ ancestors arena j) :
    LoweredAmong table (linesAt arena left) (linesAt arena right) op.line s s'
      (linesAt arena (childIds arena k)) where
  lower_eq := h.lower_eq
  covered := h.covered
  apart ν hfresh huses other hother hν := by
    rw [← linesAt_append] at hother
    obtain ⟨j, hj, x, hx, rfl⟩ := mem_linesAt.mp hother
    exact hapart j hj (h.fresh_below ν hfresh huses j x hx hν)

namespace Program

/-- The visible lines are the lines at the visible places. -/
theorem lines_eq_linesAt (p : Program) : p.lines = linesAt p.arena p.order := by
  rw [lines, operations, List.map_filterMap]
  rfl

section

variable {source p : Program} {k : Nat} {op : Operation} {s s' : Supply}

/-- The names of a program: those that are in use, and the empty label. -/
def Names (p : Program) : Name → Prop
  | .var v => v ∈ p.vars
  | .label x => x = .empty ∨ x ∈ p.labels

/-- The names of the source are none of those that come in when an entry is lowered. -/
theorem Grown.not_uses_of_fresh (h : Grown source p)
    (hlow : LoweredAt source.callable source.inputs p.arena k op s s') {ν : Name}
    (hν : source.Names ν) (hfresh : ν.Fresh s s') :
    ¬ Uses (linesAt p.arena (childIds p.arena k)) ν := by
  intro huses
  -- A line of the source is at a root, which is below nothing.
  have hline : ∀ x ∈ source.operations, ν ∉ x.line.names := by
    intro x hx hν
    obtain ⟨i, _, hi⟩ := mem_operations.mp hx
    have hlt := (Array.getElem?_eq_some_iff.mp hi).1
    have hi' : p.arena[i]? = some x := (h.rooted.entry i hlt).trans hi
    have hroot : parentOf p.arena i = none :=
      (h.rooted.root_iff i (Nat.lt_of_lt_of_le hlt h.size_le)).mpr hlt
    have hbelow := hlow.fresh_below ν hfresh huses i x hi' hν
    rw [ancestors_of_root _ _ hroot] at hbelow
    cases hbelow
  -- What the source uses without a line is not fresh, or it is an input.
  cases ν with
  | var v =>
    rw [Names, mem_vars, usedVars, List.mem_append, List.mem_cons, List.mem_flatMap] at hν
    rcases hν with hv | rfl | ⟨x, hx, hv⟩
    · exact hlow.fresh_inputs v hv hfresh (uses_var.mp huses)
    · obtain ⟨n, _, _, hn⟩ := hfresh
      cases hn
    · exact hline x hx (var_mem_names.mpr hv)
  | label y =>
    rw [Names, mem_labels, usedLabels, List.mem_flatMap] at hν
    rcases hν with rfl | ⟨x, hx, hy⟩
    · obtain ⟨n, _, _, hn⟩ := hfresh
      cases hn
    · exact hline x hx (label_mem_names.mpr hy)

/-- The roots are the entries of the source. -/
theorem Grown.roots_eq (h : Grown source p) :
    (List.range p.arena.size).filter (fun i => parentOf p.arena i = none) =
      List.range source.arena.size := by
  -- Both lists are increasing, so it is enough that they have the same members.
  refine (List.pairwise_lt_range.filter _).eq_of_mem_iff List.pairwise_lt_range fun {i} => ?_
  simp only [List.mem_filter, List.mem_range, decide_eq_true_eq]
  constructor
  · exact fun ⟨hi, hroot⟩ => (h.rooted.root_iff i hi).mp hroot
  · intro hi
    have hi' := Nat.lt_of_lt_of_le hi h.size_le
    exact ⟨hi', (h.rooted.root_iff i hi').mpr hi⟩

/-- The lines at the roots are the lines of the source, which shows all its entries. -/
theorem Grown.lines_roots (h : Grown source p)
    (horder : source.order = List.range source.arena.size) :
    linesAt p.arena ((List.range p.arena.size).filter fun i => parentOf p.arena i = none) =
      source.lines := by
  rw [h.roots_eq, lines_eq_linesAt, horder]
  exact linesAt_congr fun i hi => by rw [h.rooted.entry i (List.mem_range.mp hi)]

/-- What the lines of the source have and what every lowering of a line among others keeps, as long
as no counter of the source comes in with it, the visible lines have too. -/
theorem Grown.lines_induction (h : Grown source p)
    (horder : source.order = List.range source.arena.size) (Φ : List Line → Prop)
    (base : Φ source.lines)
    (step : ∀ (before after lines : List Line) (line : Line) (s s' : Supply),
      LoweredAmong source.callable before after line s s' lines →
        (∀ v ∈ source.vars, ¬ Added s s' lines v) → Φ (before ++ line :: after) →
          Φ (before ++ lines ++ after)) : Φ p.lines := by
  have hd := h.forest.descending
  -- From the roots down, one entry after the other gives way to its children.
  have hcuts : ∀ k ≤ p.arena.size, ∃ ids, Cut p.arena k ids ∧ Φ (linesAt p.arena ids) := by
    intro k hk
    induction k with
    | zero =>
      refine ⟨_, .roots p.arena, ?_⟩
      rw [h.lines_roots horder]
      exact base
    -- An entry without children stays, any other one gives way to the lines it was lowered to.
    | succ k ih =>
      obtain ⟨ids, hcut, hΦ⟩ := ih (Nat.le_of_succ_le hk)
      by_cases hleaf : childIds p.arena k = []
      · exact ⟨ids, hcut.stay hleaf, hΦ⟩
      · obtain ⟨left, right, rfl⟩ := List.append_of_mem (hcut.mem_self hd hk)
        have hop : p.arena[k]? = some p.arena[k] := Array.getElem?_eq_getElem hk
        obtain ⟨s, s', hlow⟩ := h.derived k _ hop hleaf
        have hlines : linesAt p.arena (left ++ k :: right) =
            linesAt p.arena left ++ p.arena[k].line :: linesAt p.arena right := by
          rw [linesAt_append, linesAt, linesAt, List.filterMap_cons, hop]
          rfl
        rw [hlines] at hΦ
        refine ⟨_, hcut.giveWay hd hleaf, ?_⟩
        rw [linesAt_append, linesAt_append]
        exact step _ _ _ _ s s'
          (hlow.among fun j hj => hcut.notMem_ancestors hd (hcut.mem_of_mem_rest hj).1)
          (fun v hv hadded => h.not_uses_of_fresh hlow (ν := .var v) hv hadded.1
            (uses_var.mpr hadded.2)) hΦ
  obtain ⟨ids, hcut, hΦ⟩ := hcuts p.arena.size (Nat.le_refl _)
  rwa [hcut.eq_order h.forest, ← lines_eq_linesAt] at hΦ

end

end Program

end CounterMachine
