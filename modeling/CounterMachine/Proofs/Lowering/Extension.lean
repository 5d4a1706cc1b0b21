import CounterMachine.Proofs.Lowering.Renaming

/-!
# Renamings that grow with a lowering

A line among others is lowered. If the others and the line itself stand under new names elsewhere,
so can what the line is lowered to: the names that come in are replaced by the next ones of the
supply that is used there, and all other names by what they were replaced by before.

## Key results

- `Renaming.Faithful`: different names stay different, and some names stay as they are
- `Renaming.Faithful.lower`: the renamed line is lowered to renamed lines, and the renaming of all
  lines is faithful again
-/

namespace CounterMachine

namespace Name

/-- The name that one supply hands out where another one hands out this name. -/
def shift (s t : Supply) : Name → Name
  | var (.work n) => var (.work (t.work + (n - s.work)))
  | label (.numbered n) => label (.numbered (t.label + (n - s.label)))
  | ν => ν

variable {s s' t : Supply} {ν ν' : Name}

/-- Different fresh names are handed out as different ones there. -/
theorem shift_inj (hν : ν.Fresh s s') (hν' : ν'.Fresh s s') (h : ν.shift s t = ν'.shift s t) :
    ν = ν' := by
  -- A counter and a label stay apart, and among each the distance from the supply is kept.
  cases ν with
  | var v =>
    obtain ⟨n, hn, _, rfl⟩ := hν
    cases ν' with
    | var w =>
      obtain ⟨m, hm, _, rfl⟩ := hν'
      simp only [shift, var.injEq, Variable.work.injEq] at h ⊢
      omega
    | label y =>
      obtain ⟨m, hm, _, rfl⟩ := hν'
      cases h
  | label x =>
    obtain ⟨n, hn, _, rfl⟩ := hν
    cases ν' with
    | var w =>
      obtain ⟨m, hm, _, rfl⟩ := hν'
      cases h
    | label y =>
      obtain ⟨m, hm, _, rfl⟩ := hν'
      simp only [shift, label.injEq, Label.numbered.injEq] at h ⊢
      omega

/-- It is fresh there, too. -/
theorem Fresh.shift {labels works : Nat} (h : ν.Fresh s (s.take labels works)) :
    (ν.shift s t).Fresh t (t.take labels works) := by
  cases ν with
  | var v =>
    obtain ⟨n, hn, hle, rfl⟩ := h
    simp only [Supply.take] at hle
    exact ⟨t.work + (n - s.work), by omega, by simp only [Supply.take]; omega, rfl⟩
  | label x =>
    obtain ⟨n, hn, hle, rfl⟩ := h
    simp only [Supply.take] at hle
    exact ⟨t.label + (n - s.label), by omega, by simp only [Supply.take]; omega, rfl⟩

end Name

namespace Renaming

/-- The renaming that replaces the fresh names in lines by those of another supply, and all other
names as before. -/
def extend (ρ : Renaming) (s s' t : Supply) (lines : List Line) : Renaming where
  work n :=
    if s.work < n ∧ n ≤ s'.work ∧ .work n ∈ lines.flatMap (·.instruction.vars) then
      t.work + (n - s.work)
    else
      ρ.work n
  number n :=
    if s.label < n ∧ n ≤ s'.label ∧ .numbered n ∈ lines.flatMap Line.labels then
      t.label + (n - s.label)
    else
      ρ.number n

section

variable {ρ : Renaming} {s s' t : Supply} {lines : List Line} {ν : Name}

/-- A fresh name in the lines is replaced by the one that is handed out there. -/
theorem name_extend_of_fresh (hfresh : ν.Fresh s s') (huses : Uses lines ν) :
    (ρ.extend s s' t lines).name ν = ν.shift s t := by
  cases ν with
  | var v =>
    obtain ⟨n, hn, hle, rfl⟩ := hfresh
    have hmem : .work n ∈ lines.flatMap (·.instruction.vars) :=
      List.mem_flatMap.mpr (uses_var.mp huses)
    simp only [name, var, extend, hn, hle, hmem, and_self, if_true, Name.shift]
  | label x =>
    obtain ⟨n, hn, hle, rfl⟩ := hfresh
    have hmem : .numbered n ∈ lines.flatMap Line.labels :=
      List.mem_flatMap.mpr (uses_label.mp huses)
    simp only [name, label, extend, hn, hle, hmem, and_self, if_true, Name.shift]

/-- Any other name is replaced as before. -/
theorem name_extend_of_not (h : ν.Fresh s s' → ¬ Uses lines ν) :
    (ρ.extend s s' t lines).name ν = ρ.name ν := by
  cases ν with
  | var v =>
    cases v with
    | work n =>
      have hnot : ¬ (s.work < n ∧ n ≤ s'.work ∧ .work n ∈ lines.flatMap (·.instruction.vars)) := by
        rintro ⟨hn, hle, hmem⟩
        exact h ⟨n, hn, hle, rfl⟩ (uses_var.mpr (List.mem_flatMap.mp hmem))
      simp only [name, var, extend, if_neg hnot]
    | result => rfl
    | input n => rfl
  | label x =>
    cases x with
    | numbered n =>
      have hnot : ¬ (s.label < n ∧ n ≤ s'.label ∧ .numbered n ∈ lines.flatMap Line.labels) := by
        rintro ⟨hn, hle, hmem⟩
        exact h ⟨n, hn, hle, rfl⟩ (uses_label.mpr (List.mem_flatMap.mp hmem))
      simp only [name, label, extend, if_neg hnot]
    | empty => rfl
    | exit => rfl

end

/-- Some names stay as they are, and among these and the names of some lines no two are replaced by
one. A supply covers what they are replaced by. -/
structure Faithful (ρ : Renaming) (known : Name → Prop) (lines : List Line) (t : Supply) :
    Prop where
  fixes : ∀ ν, known ν → ρ.name ν = ν
  injective : ∀ ν ν', known ν ∨ Uses lines ν → known ν' ∨ Uses lines ν' →
    ρ.name ν = ρ.name ν' → ν = ν'
  covered : ∀ ν, known ν ∨ Uses lines ν → (ρ.name ν).Covered t

section

variable {table : FunctionTable} {before after lines : List Line} {line : Line}
  {s s' t : Supply} {ρ : Renaming} {known : Name → Prop}

/-- A name in the new lines was there before, or it is fresh and used by the lines that came in. -/
theorem known_or_fresh_of_lowered (hreserved : ∀ ν, ν.Reserved → known ν)
    (hn : LineNames line s lines s') {ν : Name}
    (hν : known ν ∨ Uses (before ++ lines ++ after) ν) :
    (known ν ∨ Uses (before ++ line :: after) ν) ∨ ν.Fresh s s' ∧ Uses lines ν := by
  rcases hν with hν | ⟨l, hl, hν⟩
  · exact .inl (.inl hν)
  -- The lines beside stay, and what came in has the names of the line, reserved or fresh ones.
  rw [List.append_assoc, List.mem_append, List.mem_append] at hl
  rcases hl with hl | hl | hl
  · exact .inl (.inr ⟨l, List.mem_append_left _ hl, hν⟩)
  · rcases hn.name_from ν ⟨l, hl, hν⟩ with hν' | hν' | hν'
    · exact .inl (.inr ⟨line, List.mem_append_right _ List.mem_cons_self, hν'⟩)
    · exact .inl (.inl (hreserved ν hν'))
    · exact .inr ⟨hν', l, hl, hν⟩
  · exact .inl (.inr ⟨l, List.mem_append_right _ (List.mem_cons_of_mem _ hl), hν⟩)

/-- What was there is replaced as before. -/
theorem name_extend_of_old (hlow : LoweredAmong table before after line s s' lines)
    (hknown : ∀ ν, known ν → ν.Fresh s s' → ¬ Uses lines ν) {ν : Name}
    (hν : known ν ∨ Uses (before ++ line :: after) ν) :
    (ρ.extend s s' t lines).name ν = ρ.name ν := by
  rcases hν with hν | ⟨l, hl, hν⟩
  · exact name_extend_of_not (hknown ν hν)
  · exact name_extend_of_not fun hfresh huses => hlow.notMem_names hfresh huses hl hν

/-- What a supply hands out to lower a line is replaced by what the other supply hands out. -/
theorem shifts_extend (hlow : LoweredAmong table before after line s s' lines) :
    (ρ.extend s s' t lines).Shifts s t lines := by
  have hn := lower_names hlow.lower_eq
  -- A name above the supply that the lines use has come in with them.
  have hname : ∀ ν, Uses lines ν → ¬ ν.Covered s →
      (ρ.extend s s' t lines).name ν = ν.shift s t := by
    intro ν huses hcovered
    refine name_extend_of_fresh ?_ huses
    rcases hn.name_from ν huses with hν | hν | hν
    · exact absurd (hlow.covered ν hν) hcovered
    · exact absurd (hν.covered s) hcovered
    · exact hν
  refine ⟨fun k hk huses => ?_, fun k hk huses => ?_⟩
  · have hwork := hname _ (uses_var.mpr huses) fun hc => hc.workAt_ne hk rfl
    simpa [name, Name.shift, Supply.workAt] using hwork
  · have hnumber := hname _ (uses_label.mpr huses) fun hc => by
      have := hc _ rfl
      omega
    simpa [name, Name.shift, Supply.labelAt] using hnumber

variable (h : ρ.Faithful known (before ++ line :: after) t)
  (hreserved : ∀ ν, ν.Reserved → known ν)
include h hreserved

/-- The extended renaming keeps different names different, the new ones too. -/
theorem Faithful.extend {labels works : Nat}
    (hlow : LoweredAmong table before after line s (s.take labels works) lines)
    (hknown : ∀ ν, known ν → ν.Fresh s (s.take labels works) → ¬ Uses lines ν) :
    (ρ.extend s (s.take labels works) t lines).Faithful known (before ++ lines ++ after)
      (t.take labels works) := by
  have hn := lower_names hlow.lower_eq
  have hold : ∀ ν, known ν ∨ Uses (before ++ line :: after) ν →
      (ρ.extend s (s.take labels works) t lines).name ν = ρ.name ν :=
    fun ν hν => name_extend_of_old hlow hknown hν
  have hnew : ∀ ν, ν.Fresh s (s.take labels works) ∧ Uses lines ν →
      (ρ.extend s (s.take labels works) t lines).name ν = ν.shift s t :=
    fun ν ⟨hfresh, huses⟩ => name_extend_of_fresh hfresh huses
  -- An old name is replaced by one that the supply covers, and a fresh one is not.
  have hapart : ∀ {ν ν' : Name}, known ν ∨ Uses (before ++ line :: after) ν →
      ν'.Fresh s (s.take labels works) → ρ.name ν ≠ ν'.shift s t :=
    fun hν hν' heq => (heq ▸ h.covered _ hν).not_fresh hν'.shift
  refine ⟨fun ν hν => ?_, fun ν ν' hν hν' heq => ?_, fun ν hν => ?_⟩
  · rw [hold ν (.inl hν), h.fixes ν hν]
  · -- Both names are old, or both are new, or one of them is.
    rcases known_or_fresh_of_lowered hreserved hn hν with hν | hν <;>
      rcases known_or_fresh_of_lowered hreserved hn hν' with hν' | hν'
    · rw [hold ν hν, hold ν' hν'] at heq
      exact h.injective ν ν' hν hν' heq
    · rw [hold ν hν, hnew ν' hν'] at heq
      exact absurd heq (hapart hν hν'.1)
    · rw [hnew ν hν, hold ν' hν'] at heq
      exact absurd heq.symm (hapart hν' hν.1)
    · rw [hnew ν hν, hnew ν' hν'] at heq
      exact Name.shift_inj hν.1 hν'.1 heq
  · rcases known_or_fresh_of_lowered hreserved hn hν with hν | hν
    · rw [hold ν hν]
      exact (h.covered ν hν).mono (Nat.le_add_right _ _) (Nat.le_add_right _ _)
    · rw [hnew ν hν]
      exact hν.1.shift.covered

/-- If a line is lowered among others, then so it is under new names: the fresh names are replaced
by those of another supply, and what was there keeps its new names. -/
theorem Faithful.lower (hlow : LoweredAmong table before after line s s' lines)
    (hknown : ∀ ν, known ν → ν.Fresh s s' → ¬ Uses lines ν) :
    ∃ (ρ' : Renaming) (t' : Supply), (ρ.line line).lower table t = .ok (lines.map ρ'.line, t') ∧
      ρ'.Faithful known (before ++ lines ++ after) t' ∧
      ∀ l ∈ before ++ after, ρ'.line l = ρ.line l := by
  have huses : ∀ l ∈ before ++ line :: after, ∀ ν ∈ l.names,
      known ν ∨ Uses (before ++ line :: after) ν := fun l hl ν hν => .inr ⟨l, hl, hν⟩
  -- A line that was there only has names from before, which keep their new names.
  have hold : ∀ l ∈ before ++ line :: after, (ρ.extend s s' t lines).line l = ρ.line l :=
    fun l hl => line_congr fun ν hν => name_extend_of_old hlow hknown (huses l hl ν hν)
  have hline : line ∈ before ++ line :: after := List.mem_append_right _ List.mem_cons_self
  -- The line itself is renamed as before, so its counters stay different.
  have hinj : ∀ v ∈ line.instruction.vars, ∀ w ∈ line.instruction.vars,
      (ρ.extend s s' t lines).var v = (ρ.extend s s' t lines).var w → v = w := by
    intro v hv w hw heq
    have hv := huses line hline (.var v) (var_mem_names.mpr hv)
    have hw := huses line hline (.var w) (var_mem_names.mpr hw)
    have heq : (ρ.extend s s' t lines).name (.var v) = (ρ.extend s s' t lines).name (.var w) :=
      congrArg Name.var heq
    rw [name_extend_of_old hlow hknown hv, name_extend_of_old hlow hknown hw] at heq
    exact Name.var.inj (h.injective _ _ hv hw heq)
  obtain ⟨labels, works, rfl, hlower⟩ := lower_line hlow.lower_eq hinj (shifts_extend hlow)
  rw [hold line hline] at hlower
  refine ⟨_, t.take labels works, hlower, h.extend hreserved hlow hknown, fun l hl => hold l ?_⟩
  exact (List.mem_append.mp hl).elim (List.mem_append_left _)
    fun hl => List.mem_append_right _ (List.mem_cons_of_mem _ hl)

end

end Renaming

end CounterMachine
