import CounterMachine.Proofs.Semantics.Inlining

/-!
# Admissible programs

The lines of a program that keeps its labels apart, leaves `EXIT` to jumps and passes no function
more than it takes. A line of such a program can be lowered, and the program stays like that.

## Key results

- `Admissible.lower`: an admissible program stays admissible
-/

namespace CounterMachine

/-- Labels are distinct, no line carries `EXIT`, and calls fit. -/
structure Admissible (table : FunctionTable) (lines : List Line) : Prop where
  distinct : DistinctLabels lines
  no_exit : ∀ line ∈ lines, line.label ≠ .exit
  fits : ∀ line ∈ lines, line.instruction.Fits table

/-- The functions that calls find are admissible, and none of them lists an input twice. -/
structure FunctionTable.Sound (table : FunctionTable) : Prop where
  admissible : ∀ function callee, table.find? function = some callee →
    Admissible table callee.lines
  inputs_nodup : ∀ function callee, table.find? function = some callee → callee.inputs.Nodup

section

variable {table : FunctionTable} {before after lines : List Line} {line : Line} {s s' : Supply}

/-- In particular its labels are as they should be. -/
theorem Admissible.labelled (h : Admissible table lines) : Labelled lines :=
  ⟨h.distinct, h.no_exit⟩

/-- The functions of a sound table can be inlined. -/
theorem FunctionTable.Sound.inlinable (h : table.Sound) : table.Each Inlinable :=
  fun function callee hfind =>
    ⟨(h.admissible function callee hfind).labelled, h.inputs_nodup function callee hfind⟩

/-- The lines of a lowered line pass no more than functions take. -/
theorem lower_fits (htable : table.Sound) (hi : line.instruction.Fits table)
    (h : line.lower table s = .ok (lines, s')) : ∀ l ∈ lines, l.instruction.Fits table := by
  -- That calls fit is a property of each call in a line, which lowering keeps.
  have hcalls : ∀ l ∈ lines, l.instruction.EachCall table.Takes :=
    lower_eachCall (fun f _ _ h => h.rename f)
      (fun function callee hfind l hl =>
        l.instruction.fits_iff.mp ((htable.admissible function callee hfind).fits l hl))
      (line.instruction.fits_iff.mp hi) h
  exact fun l hl => l.instruction.fits_iff.mpr (hcalls l hl)

/-- A program stays admissible when a line of it is lowered. -/
theorem Admissible.lower (htable : table.Sound) (h : Admissible table (before ++ line :: after))
    (hlow : LoweredAmong table before after line s s' lines) :
    Admissible table (before ++ lines ++ after) := by
  have hlabelled := h.labelled.lower htable.inlinable.labelled hlow
  refine ⟨hlabelled.distinct, hlabelled.no_exit, fun other hother => ?_⟩
  simp only [List.append_assoc, List.mem_append] at hother
  rcases hother with hother | hother | hother
  · exact h.fits other (List.mem_append_left _ hother)
  · have hline := h.fits line (List.mem_append_right _ List.mem_cons_self)
    exact lower_fits htable hline hlow.lower_eq other hother
  · exact h.fits other (List.mem_append_right _ (List.mem_cons_of_mem _ hother))

end

end CounterMachine
