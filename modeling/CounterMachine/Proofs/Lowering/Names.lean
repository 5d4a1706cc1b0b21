import CounterMachine.Proofs.Lowering.Cases

/-!
# The names in a lowered line

A line is lowered to lines that use the names of the line itself, the result counter and names
fresh from the supply, and none besides. Conversely the names of the line live on: its labels all
do, and where a counter is lost (a call that passes more than the function takes) a fresh counter,
of a larger index, is used instead.

## Key results

- `body_names`: the names in the body of an instruction
- `lower_names`: what the lines of a lowered line use, and what they keep
-/

namespace CounterMachine

/-! ### Names of a body -/

/-- What the lines of a body use, and what they keep of the line that they stand for. -/
structure NamesOf (label : Label) (i : Instruction) (s : Supply) (lines : List Line)
    (s' : Supply) : Prop where
  /-- A numbered label finds the first line without one, or there already. -/
  head : ∃ first rest, lines = first :: rest ∧
    (first.label = .empty ∨ first.label = label ∨ label.number? = none)
  label_le : s.label ≤ s'.label
  work_le : s.work ≤ s'.work
  var_from : ∀ v, UsesVar lines v → v ∈ i.vars ∨ v = .result ∨ FreshVar s s' v
  label_from : ∀ x, UsesLabel lines x →
    x = label ∨ i.target? = some x ∨ x = .empty ∨ FreshLabel s s' x
  var_kept : ∀ v ∈ i.vars, UsesVar lines v ∨ ∃ w, FreshVar s s' w ∧ UsesVar lines w
  target_kept : ∀ x, i.target? = some x → UsesLabel lines x

section

variable {callee : Program} {args : List Argument} {s : Supply}

/-- An inlined call uses what it passes, what its last line is made of, and the counters and labels
that its function is given. If something was passed that the function does not take, a counter of
the function stands in for it. -/
theorem namesOf_inlineCall (label : Label) (i : Instruction) (final : Variable → Instruction)
    (hfinal : ∀ w, w ∈ (final w).vars) (hargs : ∀ v ∈ Argument.listVars args, v ∈ i.vars)
    (hvars : ∀ w, ∀ v ∈ (final w).vars, v = w ∨ v ∈ i.vars)
    (htarget : ∀ w, (final w).target? = i.target?) :
    NamesOf label i s (inlineCall callee args final s).1 (inlineCall callee args final s).2 where
  head :=
    have ⟨first, rest, h, hl⟩ := inlineCall_head final
    ⟨first, rest, h, .inl hl⟩
  label_le := Nat.le_add_right _ _
  work_le := Nat.le_add_right _ _
  var_from v h := by
    -- A counter comes from the function, from an argument or from the last line.
    rcases inlineCall_var_from final h with h | h | h
    · exact .inr (.inr h)
    · exact .inl (hargs v h)
    · rcases hvars _ v h with rfl | h
      · exact .inr (.inr (freshVar_calleeVar (Program.result_mem_vars callee) _))
      · exact .inl h
  label_from x h := by
    -- A label comes from the function, or it is that of the last line or its target.
    rcases inlineCall_label_from final h with h | h | h
    · exact .inr (.inr (.inr h))
    · exact .inr (.inr (.inl h))
    · exact .inr (.inl (htarget _ ▸ h))
  var_kept _ _ := .inr (inlineCall_uses_fresh final hfinal)
  target_kept x hx := by
    rw [inlineCall_eq]
    simp only [usesLabel_append, usesLabel_cons]
    exact .inr (.inl (mem_line_labels.mpr (.inr ((htarget _).trans hx))))

end

/-! ### A label on the first line -/

section

variable {label : Label} {i : Instruction} {lines : List Line} {v : Variable} {x : Label}

/-- A label on the first line changes no instruction. -/
theorem map_instruction_attachLabel :
    (attachLabel label lines).map Line.instruction = lines.map Line.instruction := by
  cases lines with
  | nil => rfl
  | cons first rest =>
    rw [attachLabel, List.map_cons, List.map_cons]
    -- Whether the first line takes the label or not, its instruction is the same.
    split <;> rfl

/-- An instruction that is found behind the label was there before. -/
theorem instruction_attachLabel {line : Line} (h : line ∈ attachLabel label lines) :
    ∃ line' ∈ lines, line'.instruction = line.instruction := by
  have hmem : line.instruction ∈ (attachLabel label lines).map Line.instruction :=
    List.mem_map_of_mem h
  rw [map_instruction_attachLabel] at hmem
  exact List.mem_map.mp hmem

/-- And one that was there before is found behind it. -/
theorem exists_mem_attachLabel (label : Label) {line : Line} (h : line ∈ lines) :
    ∃ line' ∈ attachLabel label lines, line'.instruction = line.instruction := by
  have hmem : line.instruction ∈ lines.map Line.instruction := List.mem_map_of_mem h
  rw [← @map_instruction_attachLabel label] at hmem
  exact List.mem_map.mp hmem

/-- So the counters that are used are the same. -/
theorem usesVar_attachLabel : UsesVar (attachLabel label lines) v ↔ UsesVar lines v := by
  cases lines with
  | nil => rfl
  | cons first rest =>
    simp only [attachLabel, usesVar_cons]
    split <;> rfl

/-- Among the labels there is the one that has been attached. -/
theorem usesLabel_attachLabel (h : UsesLabel (attachLabel label lines) x) :
    UsesLabel lines x ∨ (x = label ∧ x ≠ .empty) := by
  cases lines with
  | nil => exact .inl h
  | cons first rest =>
    simp only [attachLabel, usesLabel_cons] at h ⊢
    -- Only a first line without a label of its own takes the new one.
    split at h
    · rcases h with h | h
      · rcases mem_line_labels.mp h with h | h
        · exact .inr h
        · exact .inl (.inl (mem_line_labels.mpr (.inr h)))
      · exact .inl (.inr h)
    · exact .inl h

/-- No label gets lost. -/
theorem usesLabel_attachLabel_of_usesLabel (h : UsesLabel lines x) :
    UsesLabel (attachLabel label lines) x := by
  cases lines with
  | nil => exact h
  | cons first rest =>
    simp only [attachLabel, usesLabel_cons] at h ⊢
    refine h.imp_left fun h => ?_
    split
    · rename_i he
      -- The line that takes the label had none, so it keeps its target only.
      rcases mem_line_labels.mp h with ⟨hx, hne⟩ | h
      · cases hl : first.label <;> simp_all [Label.isEmpty]
      · exact mem_line_labels.mpr (.inr h)
    · exact h

end

/-! ### Names of each body -/

section

variable {s : Supply} {label x : Label} {v : Variable}

/-- A line without a label of its own has got the one that it jumps to. -/
@[simp] theorem plain_labels (i : Instruction) : (Line.plain i).labels = i.target?.toList := rfl

/-- A plain line is its instruction. -/
@[simp] theorem plain_instruction (i : Instruction) : (Line.plain i).instruction = i := rfl

/-- The labels of a line with a label. -/
theorem mem_labels_mk {i : Instruction} :
    x ∈ (Line.mk label i).labels ↔ (x = label ∧ x ≠ .empty) ∨ i.target? = some x :=
  mem_line_labels

/-- A line that is repeated uses the counters that it uses once. -/
theorem usesVar_replicate {line : Line} {n : Nat} (h : UsesVar (List.replicate n line) v) :
    v ∈ line.instruction.vars := by
  obtain ⟨l, hl, hv⟩ := h
  rwa [List.eq_of_mem_replicate hl] at hv

/-- It uses the labels that it uses once. -/
theorem usesLabel_replicate {line : Line} {n : Nat} (h : UsesLabel (List.replicate n line) x) :
    x ∈ line.labels := by
  obtain ⟨l, hl, hx⟩ := h
  rwa [List.eq_of_mem_replicate hl] at hx

/-- What occurs in copies of a list occurs in the list. -/
theorem mem_flatten_replicate {α : Type} {xs : List α} {n : Nat} {a : α}
    (h : a ∈ (List.replicate n xs).flatten) : a ∈ xs := by
  obtain ⟨ys, hys, ha⟩ := List.mem_flatten.mp h
  rwa [List.eq_of_mem_replicate hys] at ha

/-- Several rounds use the counters of one round. -/
theorem usesVar_flatten_replicate {block : List Line} {n : Nat}
    (h : UsesVar (List.replicate n block).flatten v) : UsesVar block v := by
  obtain ⟨line, hline, hv⟩ := h
  exact ⟨line, mem_flatten_replicate hline, hv⟩

/-- Several rounds use the labels of one round. -/
theorem usesLabel_flatten_replicate {block : List Line} {n : Nat}
    (h : UsesLabel (List.replicate n block).flatten x) : UsesLabel block x := by
  obtain ⟨line, hline, hx⟩ := h
  exact ⟨line, mem_flatten_replicate hline, hx⟩

/-- A basic instruction is its own body. -/
theorem namesOf_basic (i : Instruction) :
    NamesOf label i s [.plain i] s where
  head := ⟨_, _, rfl, .inl rfl⟩
  label_le := Nat.le_refl _
  work_le := Nat.le_refl _
  var_from v h := by simp at h; exact .inl h
  label_from x h := by simp at h; exact .inr (.inl h)
  var_kept v h := .inl (by simpa using h)
  target_kept x h := by simpa using h

/-- Clearing uses the label of the loop, which is that of the line or a fresh one. -/
theorem namesOf_zeroBody {s' : Supply} (head : Label) (hs : s.label ≤ s'.label)
    (hs' : s.work ≤ s'.work)
    (hhead : head = label ∨ label.number? = none) (hfresh : head = label ∨ FreshLabel s s' head) :
    NamesOf label (.zero v) s (zeroBody head v) s' where
  head := ⟨_, _, rfl, .inr hhead⟩
  label_le := hs
  work_le := hs'
  var_from w h := .inl (by simpa [zeroBody, Instruction.vars] using h)
  label_from x h := by
    -- Both lines name the head of the loop, and nothing else.
    have : x = head := by
      simp [zeroBody, mem_labels_mk, Instruction.target?] at h
      grind
    subst this
    exact hfresh.imp_right fun h => .inr (.inr h)
  var_kept w h := .inl (by simpa [zeroBody, Instruction.vars] using h)
  target_kept x h := nomatch h

/-- A jump without a test uses a fresh counter. -/
theorem namesOf_gotoBody (target : Label) :
    NamesOf label (.goto target) s (gotoBody (s.workAt 1) target) (s.take 0 1) where
  head := ⟨_, _, rfl, .inl rfl⟩
  label_le := Nat.le_add_right _ _
  work_le := Nat.le_add_right _ _
  var_from w h := by
    have : w = s.workAt 1 := by simpa [gotoBody, Instruction.vars] using h
    exact .inr (.inr (this ▸ s.freshVar_workAt 1 0 1 (by omega) (by omega)))
  label_from x h := by simp [gotoBody, Instruction.target?] at h ⊢; exact .inr (.inl h.symm)
  var_kept w h := nomatch h
  target_kept x h := by simpa [gotoBody, Instruction.target?, eq_comm] using h

/-- Copying uses both counters, a third one to put the value aside, and three labels. -/
theorem namesOf_assignBody (dst src : Variable) :
    NamesOf label (.assign dst src) s
      (assignBody (s.workAt 1) (s.labelAt 1) (s.labelAt 2) (s.labelAt 3) dst src)
      (s.take 3 1) where
  head := ⟨_, _, rfl, .inl rfl⟩
  label_le := Nat.le_add_right _ _
  work_le := Nat.le_add_right _ _
  var_from w h := by
    have fresh := s.freshVar_workAt 1 3 1 (by omega) (by omega)
    simp only [assignBody, usesVar_cons, usesVar_nil, plain_instruction, Instruction.vars,
      List.mem_cons, List.not_mem_nil, or_false] at h ⊢
    grind
  label_from x h := by
    -- The label is the head of a loop or the place behind it, and all of these are fresh.
    have fresh₁ := s.freshLabel_labelAt 1 3 1 (by omega) (by omega)
    have fresh₂ := s.freshLabel_labelAt 2 3 1 (by omega) (by omega)
    have fresh₃ := s.freshLabel_labelAt 3 3 1 (by omega) (by omega)
    simp only [assignBody, usesLabel_cons, usesLabel_nil, plain_labels, mem_labels_mk,
      Instruction.target?, Option.toList, List.mem_cons, List.not_mem_nil, or_false] at h ⊢
    grind
  var_kept w h := .inl (by
    simp only [assignBody, usesVar_cons, usesVar_nil, plain_instruction, Instruction.vars,
      List.mem_cons, List.not_mem_nil, or_false] at h ⊢
    grind)
  target_kept x h := nomatch h

/-- Setting a counter to a constant uses no other name. -/
theorem namesOf_assignConstantBody (count : Nat) (value : Value) :
    NamesOf label (.assignConstant v value) s (assignConstantBody count v) s where
  head := ⟨_, _, rfl, .inl rfl⟩
  label_le := Nat.le_refl _
  work_le := Nat.le_refl _
  var_from w h := by
    -- The first line clears the counter, and the others count it up.
    simp only [assignConstantBody, usesVar_cons] at h
    rcases h with h | h
    · exact .inl h
    · exact .inl (usesVar_replicate h)
  label_from x h := by
    simp only [assignConstantBody, usesLabel_cons] at h
    rcases h with h | h
    · cases h
    · cases usesLabel_replicate h
  var_kept w h := .inl (by simp only [assignConstantBody, usesVar_cons]; exact .inl h)
  target_kept x h := nomatch h

/-- A jump at zero uses a fresh label, and keeps its target. -/
theorem namesOf_jumpZeroBody (target : Label) :
    NamesOf label (.jumpZero v target) s (jumpZeroBody (s.labelAt 1) v target)
      (s.take 1 0) where
  head := ⟨_, _, rfl, .inl rfl⟩
  label_le := Nat.le_add_right _ _
  work_le := Nat.le_add_right _ _
  var_from w h := by
    simp only [jumpZeroBody, usesVar_cons, usesVar_nil, plain_instruction, Instruction.vars,
      List.mem_cons, List.not_mem_nil, or_false] at h ⊢
    grind
  label_from x h := by
    have fresh := s.freshLabel_labelAt 1 1 0 (by omega) (by omega)
    simp only [jumpZeroBody, usesLabel_cons, usesLabel_nil, plain_labels, mem_labels_mk,
      Instruction.target?, Option.toList, List.mem_cons, List.not_mem_nil, or_false] at h ⊢
    grind
  var_kept w h := .inl (by
    simp only [jumpZeroBody, usesVar_cons, plain_instruction, Instruction.vars] at h ⊢
    exact .inl h)
  target_kept x h := by
    simp only [jumpZeroBody, usesLabel_cons, plain_labels, Instruction.target?] at h ⊢
    simp [← Option.some.inj h]

/-- A comparison with a constant uses a copy of the counter and a label, and keeps its target. -/
theorem namesOf_jumpEqualConstantBody (count : Nat) (value : Value) (target : Label) :
    NamesOf label (.jumpEqual v (.const value) target) s
      (jumpEqualConstantBody (s.workAt 1) (s.labelAt 1) count v target) (s.take 1 1) where
  head := ⟨_, _, rfl, .inl rfl⟩
  label_le := Nat.le_add_right _ _
  work_le := Nat.le_add_right _ _
  var_from w h := by
    have fresh := s.freshVar_workAt 1 1 1 (by omega) (by omega)
    rw [jumpEqualConstantBody, List.cons_append, usesVar_cons, usesVar_append] at h
    -- All rounds of the countdown use what one round uses.
    have h := h.imp_right (Or.imp_left usesVar_flatten_replicate)
    simp only [usesVar_cons, usesVar_nil, plain_instruction, Instruction.vars, List.mem_cons,
      List.not_mem_nil, or_false] at h ⊢
    grind
  label_from x h := by
    have fresh := s.freshLabel_labelAt 1 1 1 (by omega) (by omega)
    rw [jumpEqualConstantBody, List.cons_append, usesLabel_cons, usesLabel_append] at h
    have h := h.imp_right (Or.imp_left usesLabel_flatten_replicate)
    simp only [usesLabel_cons, usesLabel_nil, plain_labels, mem_labels_mk, Instruction.target?,
      Option.toList, List.mem_cons, List.not_mem_nil, or_false] at h ⊢
    grind
  var_kept w h := .inl (by
    simp only [jumpEqualConstantBody, List.cons_append, usesVar_cons, plain_instruction,
      Instruction.vars, Operand.vars, List.mem_cons, List.not_mem_nil, or_false] at h ⊢
    exact .inl (.inr h))
  target_kept x h := by
    simp only [jumpEqualConstantBody, List.cons_append, usesLabel_cons, usesLabel_append,
      plain_labels, Instruction.target?] at h ⊢
    simp [← Option.some.inj h]

/-- A comparison of counters uses copies of both and three labels, and keeps its target. -/
theorem namesOf_jumpEqualVariableBody (w : Variable) (target : Label) :
    NamesOf label (.jumpEqual v (.var w) target) s
      (jumpEqualVariableBody (s.workAt 1) (s.workAt 2) (s.labelAt 1) (s.labelAt 2) (s.labelAt 3)
        v w target) (s.take 3 2) where
  head := ⟨_, _, rfl, .inl rfl⟩
  label_le := Nat.le_add_right _ _
  work_le := Nat.le_add_right _ _
  var_from u h := by
    -- Both copies are counters of the supply.
    have fresh₁ := s.freshVar_workAt 1 3 2 (by omega) (by omega)
    have fresh₂ := s.freshVar_workAt 2 3 2 (by omega) (by omega)
    simp only [jumpEqualVariableBody, usesVar_cons, usesVar_nil, plain_instruction,
      Instruction.vars, Operand.vars, List.mem_cons, List.not_mem_nil, or_false] at h ⊢
    grind
  label_from x h := by
    have fresh₁ := s.freshLabel_labelAt 1 3 2 (by omega) (by omega)
    have fresh₂ := s.freshLabel_labelAt 2 3 2 (by omega) (by omega)
    have fresh₃ := s.freshLabel_labelAt 3 3 2 (by omega) (by omega)
    simp only [jumpEqualVariableBody, usesLabel_cons, usesLabel_nil, plain_labels, mem_labels_mk,
      Instruction.target?, Option.toList, List.mem_cons, List.not_mem_nil, or_false] at h ⊢
    grind
  var_kept u h := .inl (by
    simp only [jumpEqualVariableBody, usesVar_cons, usesVar_nil, plain_instruction,
      Instruction.vars, Operand.vars, List.mem_cons, List.not_mem_nil, or_false] at h ⊢
    grind)
  target_kept x h := by
    simp only [jumpEqualVariableBody, usesLabel_cons, plain_labels, mem_labels_mk,
      Instruction.target?] at h ⊢
    simp [← Option.some.inj h]

end

/-- What a body uses, and what it keeps. -/
theorem body_names {table : FunctionTable} {label : Label} {i : Instruction} {s s' : Supply}
    {lines : List Line} (h : i.body table label s = .ok (lines, s')) :
    NamesOf label i s lines s' := by
  -- Each form of instruction has got a body of its own.
  cases body_cases h with
  | basic _ => exact namesOf_basic _
  | zeroOwn v n hn =>
    exact namesOf_zeroBody label (Nat.le_refl _) (Nat.le_refl _) (.inl rfl) (.inl rfl)
  | zeroFresh v hn =>
    exact namesOf_zeroBody _ (Nat.le_add_right _ _) (Nat.le_refl _) (.inr hn)
      (.inr (s.freshLabel_labelAt 1 1 0 (by omega) (by omega)))
  | goto target => exact namesOf_gotoBody target
  | assignSelf v =>
    exact ⟨⟨_, _, rfl, .inl rfl⟩, Nat.le_refl _, Nat.le_refl _,
      fun w hw => .inl (by simpa [Instruction.vars] using hw), fun x hx => by
        simp [Instruction.target?] at hx,
      fun w hw => .inl (by simpa [Instruction.vars] using hw), nofun⟩
  | assign dst src hne => exact namesOf_assignBody dst src
  | assignConstant v value => exact namesOf_assignConstantBody value.toNat value
  | jumpZero v target => exact namesOf_jumpZeroBody target
  | jumpEqualConstant v value target => exact namesOf_jumpEqualConstantBody value.toNat value target
  | jumpEqualVariable v w target => exact namesOf_jumpEqualVariableBody w target
  | quote dst call callee hfind =>
    refine namesOf_inlineCall label _ _ ?_ ?_ ?_ ?_
    · intro w; simp [Instruction.vars]
    · intro v hv; simp [Instruction.vars, Call.vars, hv]
    · intro w v hv; simp [Instruction.vars] at hv ⊢; grind
    · intro w; rfl
  | jumpEqualCall v call target callee hfind =>
    refine namesOf_inlineCall label _ _ ?_ ?_ ?_ ?_
    · intro w; simp [Instruction.vars, Operand.vars]
    · intro v hv; simp [Instruction.vars, Call.vars, hv]
    · intro w v hv; simp [Instruction.vars, Operand.vars] at hv ⊢; grind
    · intro w; rfl

/-! ### Names of a lowered line -/

/-- What the lines of a lowered line use, and what they keep of it. -/
structure LineNames (line : Line) (s : Supply) (lines : List Line) (s' : Supply) : Prop where
  ne_nil : lines ≠ []
  label_le : s.label ≤ s'.label
  work_le : s.work ≤ s'.work
  var_from : ∀ v, UsesVar lines v →
    v ∈ line.instruction.vars ∨ v = .result ∨ FreshVar s s' v
  label_from : ∀ x, UsesLabel lines x → x ∈ line.labels ∨ x = .empty ∨ FreshLabel s s' x
  var_kept : ∀ v ∈ line.instruction.vars,
    UsesVar lines v ∨ ∃ w, FreshVar s s' w ∧ UsesVar lines w
  label_kept : ∀ n, .numbered n ∈ line.labels → UsesLabel lines (.numbered n)

/-- A numbered label of a line is carried by the first line it is lowered to. -/
theorem head_label_of_body_names {label : Label} {i : Instruction} {s s' : Supply}
    {body : List Line} (h : NamesOf label i s body s') {n : Nat} (hn : label = .numbered n) :
    ∃ first rest, attachLabel label body = first :: rest ∧ first.label = label := by
  -- The label of the first line is empty, or that label itself; another one would come from a line
  -- without a number.
  obtain ⟨first, rest, rfl, hl⟩ := h.head
  subst hn
  rw [attachLabel]
  rcases hl with hl | hl | hl
  · exact ⟨_, _, rfl, by rw [hl]; rfl⟩
  · exact ⟨_, _, rfl, by rw [hl]; exact hl⟩
  · cases hl

/-- What a body uses and keeps, a lowered line uses and keeps with its label. -/
theorem lower_names {table : FunctionTable} {line : Line} {s s' : Supply} {lines : List Line}
    (h : line.lower table s = .ok (lines, s')) : LineNames line s lines s' := by
  -- A lowered line is the body with the label attached, which adds no other name.
  obtain ⟨body, hb, rfl⟩ := lower_eq_ok h
  have hn := body_names hb
  refine ⟨?_, hn.label_le, hn.work_le, ?_, ?_, ?_, ?_⟩
  · obtain ⟨first, rest, rfl, _⟩ := hn.head
    simp [attachLabel]
  · exact fun v hv => hn.var_from v (usesVar_attachLabel.mp hv)
  · intro x hx
    -- The empty label is not among the labels of a line, unless it is the target.
    have own : x = line.label → x ∈ line.labels ∨ x = .empty := by
      intro hx
      by_cases he : x = .empty
      · exact .inr he
      · exact .inl (mem_line_labels.mpr (.inl ⟨hx, he⟩))
    rcases usesLabel_attachLabel hx with hx | ⟨hx, _⟩
    · rcases hn.label_from x hx with hx | hx | hx | hx
      · exact (own hx).imp_right .inl
      · exact .inl (mem_line_labels.mpr (.inr hx))
      · exact .inr (.inl hx)
      · exact .inr (.inr hx)
    · exact (own hx).imp_right .inl
  · intro v hv
    simp only [usesVar_attachLabel]
    exact hn.var_kept v hv
  · intro n hx
    rcases mem_line_labels.mp hx with ⟨hx, _⟩ | hx
    · -- The label of the line is the one that its first line carries from now on.
      obtain ⟨first, rest, hlines, hl⟩ := head_label_of_body_names hn hx.symm
      rw [hlines, usesLabel_cons]
      exact .inl (mem_line_labels.mpr (.inl ⟨hx.trans hl.symm, nofun⟩))
    · -- A target is kept by the body.
      exact usesLabel_attachLabel_of_usesLabel (hn.target_kept _ hx)

namespace LineNames

variable {line : Line} {s s' : Supply} {lines : List Line}

/-- A name in a lowered line is one of the line's own, or it is reserved, or it is fresh. -/
theorem name_from (h : LineNames line s lines s') (ν : Name) (hν : Uses lines ν) :
    ν ∈ line.names ∨ ν.Reserved ∨ ν.Fresh s s' := by
  cases ν with
  | var v =>
    rcases h.var_from v (uses_var.mp hν) with hv | rfl | hv
    · exact .inl (var_mem_names.mpr hv)
    · exact .inr (.inl .result)
    · exact .inr (.inr hv)
  | label x =>
    rcases h.label_from x (uses_label.mp hν) with hx | rfl | hx
    · exact .inl (label_mem_names.mpr hx)
    · exact .inr (.inl .empty)
    · exact .inr (.inr hx)

/-- After a line has been lowered, its supply covers the new names too. -/
theorem covered (h : LineNames line s lines s') (hline : ∀ ν ∈ line.names, ν.Covered s)
    (ν : Name) (hν : Uses lines ν) : ν.Covered s' := by
  rcases h.name_from ν hν with hν | hν | hν
  · exact (hline ν hν).mono h.label_le h.work_le
  · exact hν.covered s'
  · exact hν.covered

end LineNames

/-! ### A lowering among other lines -/

/-- A line that stands between others is lowered, and no name that comes in is used by the
others. -/
structure LoweredAmong (table : FunctionTable) (before after : List Line) (line : Line)
    (s s' : Supply) (lines : List Line) : Prop where
  lower_eq : line.lower table s = .ok (lines, s')
  covered : ∀ ν ∈ line.names, ν.Covered s
  apart : ∀ ν, ν.Fresh s s' → Uses lines ν → ∀ other ∈ before ++ after, ν ∉ other.names

/-- The counters that come in with lines. -/
def Added (s s' : Supply) (lines : List Line) (v : Variable) : Prop :=
  FreshVar s s' v ∧ UsesVar lines v

section

variable {table : FunctionTable} {before after lines : List Line} {line : Line} {s s' : Supply}

/-- A name that comes in is used by no line that was there. -/
theorem LoweredAmong.notMem_names (h : LoweredAmong table before after line s s' lines) {ν : Name}
    (hfresh : ν.Fresh s s') (hν : Uses lines ν) {other : Line}
    (hother : other ∈ before ++ line :: after) : ν ∉ other.names := by
  rcases List.mem_append.mp hother with hmem | hmem
  · exact h.apart ν hfresh hν other (List.mem_append_left _ hmem)
  · rcases List.mem_cons.mp hmem with rfl | hmem
    · exact fun hν => (h.covered ν hν).not_fresh hfresh
    · exact h.apart ν hfresh hν other (List.mem_append_right _ hmem)

end

end CounterMachine
