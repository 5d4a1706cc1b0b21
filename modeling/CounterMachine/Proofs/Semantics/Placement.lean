import CounterMachine.Proofs.Lowering.Labels
import CounterMachine.Proofs.Semantics.Limit

/-!
# Lines in their place

The body of an instruction runs in the midst of other lines. `Placed lines k body` says that it
stands there from position `k` on, and `Leads` that a run gets from one configuration to another
one, in at least one step.

## Key results

- `labelPlace?_of_distinct`: a label that only one line carries is found there
- `meets_line`: a line does what its instruction does
- `Placed.step`: a step of a run inside a body
- `Placed.fall`, `Placed.jump`: the same, where the run stays inside
-/

namespace CounterMachine

/-- A body stands among other lines, from a position on. A line of it may have got a label there
if it had none. -/
def Placed (lines : List Line) (k : Nat) (body : List Line) : Prop :=
  ∀ (j : Nat) (b : Line), body[j]? = some b → ∃ line, lines[k + j]? = some line ∧
    line.instruction = b.instruction ∧ (b.label ≠ .empty → line.label = b.label)

/-- A run gets from one configuration to another one, in at least one step. -/
def Leads (ask : Oracle) (lines : List Line) (c c' : RunState) : Prop :=
  ∃ n, 0 < n ∧ (RunState.next ask lines)^[n] c = c'

/-- A run gets from one configuration to another one, or is there already. -/
def Reaches (ask : Oracle) (lines : List Line) (c c' : RunState) : Prop :=
  ∃ n, (RunState.next ask lines)^[n] c = c'

/-- A run never comes to an end. -/
def Endless (ask : Oracle) (lines : List Line) (c : RunState) : Prop :=
  ∀ n, ¬ ((RunState.next ask lines)^[n] c).Ended

/-- A run meets a reply: it gets where the answer says, or it faults, or it never comes to an
end. -/
def Meets {α : Type} (ask : Oracle) (lines : List Line) (c : RunState) (P : α → RunState → Prop) :
    Reply α → Prop
  | .value a => ∃ c', Leads ask lines c c' ∧ P a c'
  | .fault => Leads ask lines c .faulted
  | .never => Endless ask lines c

/-- The same, but the run may be there already. -/
def Arrives {α : Type} (ask : Oracle) (lines : List Line) (c : RunState) (P : α → RunState → Prop) :
    Reply α → Prop
  | .value a => ∃ c', Reaches ask lines c c' ∧ P a c'
  | .fault => Reaches ask lines c .faulted
  | .never => Endless ask lines c

/-! ### Labels -/

section

variable {lines : List Line} {x : Label} {i : Nat}

/-- Where a label is found, a line carries it. -/
theorem exists_line_of_labelPlace? (h : labelPlace? x lines = some i) :
    ∃ line, lines[i]? = some line ∧ line.label = x ∧ x ≠ .empty := by
  induction lines generalizing i with
  | nil => cases h
  | cons line rest ih =>
    rw [labelPlace?] at h
    -- The last line that carries the label counts, so the rest is asked first.
    cases hrest : labelPlace? x rest with
    | some j =>
      rw [hrest] at h
      cases h
      exact ih hrest
    | none =>
      rw [hrest] at h
      simp only at h
      split at h
      · rename_i hx
        cases h
        exact ⟨line, rfl, hx⟩
      · cases h

/-- A label that no line carries is not found. -/
theorem labelPlace?_eq_none (h : ∀ line ∈ lines, line.label = x → x = .empty) :
    labelPlace? x lines = none := by
  -- What is found is carried by the line there.
  cases hp : labelPlace? x lines with
  | none => rfl
  | some i =>
    obtain ⟨line, hline, hx, hne⟩ := exists_line_of_labelPlace? hp
    exact absurd (h line (List.mem_of_getElem? hline) hx) hne

/-- A label that some line carries is found. -/
theorem exists_labelPlace? {line : Line} (h : line ∈ lines) (hx : line.label = x)
    (hne : x ≠ .empty) : ∃ i, labelPlace? x lines = some i := by
  induction lines with
  | nil => cases h
  | cons first rest ih =>
    rw [labelPlace?]
    cases hrest : labelPlace? x rest with
    | some j => exact ⟨j + 1, rfl⟩
    | none =>
      -- It is not behind the first line, so it is there.
      rcases List.mem_cons.mp h with rfl | h
      · exact ⟨0, if_pos ⟨hx, hne⟩⟩
      · obtain ⟨i, hi⟩ := ih h
        rw [hrest] at hi
        cases hi

/-- A label that only one line carries is found there. -/
theorem labelPlace?_of_distinct (hd : DistinctLabels lines) {line : Line}
    (h : lines[i]? = some line) (hx : line.label = x) (hne : x ≠ .empty) :
    labelPlace? x lines = some i := by
  -- Some place is found, and as labels are distinct it is this one.
  obtain ⟨j, hj⟩ := exists_labelPlace? (List.mem_of_getElem? h) hx hne
  obtain ⟨line', hline', hx', _⟩ := exists_line_of_labelPlace? hj
  rw [hj, hd j i line' line hline' h (hx'.trans hx.symm) (hx' ▸ hne)]

end

/-! ### Runs -/

section

variable {ask : Oracle} {lines : List Line} {c c' c'' : RunState}

/-- What gets somewhere gets where a run from there gets. -/
theorem Leads.trans (h : Leads ask lines c c') (h' : Leads ask lines c' c'') :
    Leads ask lines c c'' := by
  obtain ⟨m, hm, rfl⟩ := h
  obtain ⟨n, hn, rfl⟩ := h'
  exact ⟨n + m, by omega, Function.iterate_add_apply ..⟩

/-- At least one step is some number of steps. -/
theorem Leads.reaches (h : Leads ask lines c c') : Reaches ask lines c c' := by
  obtain ⟨n, _, hn⟩ := h
  exact ⟨n, hn⟩

/-- A run is where it starts. -/
theorem Reaches.refl (c : RunState) : Reaches ask lines c c := ⟨0, rfl⟩

/-- What reaches something reaches what can be reached from there. -/
theorem Reaches.trans (h : Reaches ask lines c c') (h' : Reaches ask lines c' c'') :
    Reaches ask lines c c'' := by
  obtain ⟨m, rfl⟩ := h
  obtain ⟨n, rfl⟩ := h'
  exact ⟨n + m, Function.iterate_add_apply ..⟩

/-- Getting somewhere else takes a step. -/
theorem Reaches.leads_of_ne (h : Reaches ask lines c c') (hne : c ≠ c') :
    Leads ask lines c c' := by
  obtain ⟨n, hn⟩ := h
  refine ⟨n, ?_, hn⟩
  -- Without a step it would still be there.
  rcases Nat.eq_zero_or_pos n with rfl | hpos
  · exact absurd hn hne
  · exact hpos

/-- What gets to an endless run is endless. -/
theorem Reaches.endless (h : Reaches ask lines c c') (h' : Endless ask lines c') :
    Endless ask lines c := by
  obtain ⟨m, rfl⟩ := h
  intro n hn
  -- An end after `n` steps is still there after `m` more of them.
  refine h' n ?_
  rw [← Function.iterate_add_apply, Nat.add_comm, Function.iterate_add_apply,
    RunState.iterate_next_of_ended hn]
  exact hn

/-- A run ends or is endless. -/
theorem ends_or_endless (ask : Oracle) (lines : List Line) (c : RunState) :
    (∃ e, Ends ask lines c e) ∨ Endless ask lines c := by
  by_cases h : ∃ n, ((RunState.next ask lines)^[n] c).Ended
  · obtain ⟨n, hn⟩ := h
    exact .inl ⟨_, hn, n, rfl⟩
  · exact .inr fun n hn => h ⟨n, hn⟩

/-- A run that ends is not endless. -/
theorem Ends.not_endless {e : RunState} (h : Ends ask lines c e) : ¬ Endless ask lines c := by
  obtain ⟨he, n, rfl⟩ := h
  exact fun hendless => hendless n he

/-- One step leads to the next configuration. -/
theorem Leads.of_next (h : c.next ask lines = c') : Leads ask lines c c' :=
  ⟨1, Nat.one_pos, h⟩

/-- Less can be said of where a reply is met. -/
theorem Meets.imp {α : Type} {P Q : α → RunState → Prop} {r : Reply α} (h : Meets ask lines c P r)
    (himp : ∀ a c', P a c' → Q a c') : Meets ask lines c Q r := by
  cases r with
  | value a =>
    obtain ⟨c', hlead, hP⟩ := h
    exact ⟨c', hlead, himp a c' hP⟩
  | fault => exact h
  | never => exact h

/-- What gets to where a reply is met meets it. -/
theorem Leads.meets {α : Type} {P : α → RunState → Prop} {r : Reply α}
    (h : Leads ask lines c c') (h' : Meets ask lines c' P r) : Meets ask lines c P r := by
  cases r with
  | value a =>
    obtain ⟨c'', hlead, hP⟩ := h'
    exact ⟨c'', h.trans hlead, hP⟩
  | fault => exact h.trans h'
  | never => exact h.reaches.endless h'

/-- Going on from where a reply has been met. -/
theorem Meets.bind {α β : Type} {P : α → RunState → Prop} {Q : β → RunState → Prop} {r : Reply α}
    {f : α → Reply β} (h : Meets ask lines c P r)
    (hf : ∀ a c', P a c' → Meets ask lines c' Q (f a)) : Meets ask lines c Q (r.bind f) := by
  cases r with
  | value a =>
    obtain ⟨c', hlead, hP⟩ := h
    exact hlead.meets (hf a c' hP)
  | fault => exact h
  | never => exact h

/-- Meeting an image of a reply is meeting the reply. -/
theorem Meets.of_map {α β : Type} {P : β → RunState → Prop} {r : Reply α} {f : α → β}
    (h : Meets ask lines c P (r.map f)) : Meets ask lines c (fun a => P (f a)) r := by
  cases r <;> exact h

/-- What meets a reply arrives at it. -/
theorem Meets.arrives {α : Type} {P : α → RunState → Prop} {r : Reply α}
    (h : Meets ask lines c P r) : Arrives ask lines c P r := by
  cases r with
  | value a =>
    obtain ⟨c', hlead, hP⟩ := h
    exact ⟨c', hlead.reaches, hP⟩
  | fault => exact h.reaches
  | never => exact h

/-- What arrives somewhere else meets the reply. -/
theorem Arrives.meets {α : Type} {P : α → RunState → Prop} {r : Reply α}
    (h : Arrives ask lines c P r) (hc : c ≠ .faulted) (hne : ∀ a c', P a c' → c ≠ c') :
    Meets ask lines c P r := by
  cases r with
  | value a =>
    obtain ⟨c', hreach, hP⟩ := h
    exact ⟨c', hreach.leads_of_ne (hne a c' hP), hP⟩
  | fault => exact h.leads_of_ne hc
  | never => exact h

/-- What reaches where a reply arrives arrives at it. -/
theorem Reaches.arrives {α : Type} {P : α → RunState → Prop} {r : Reply α}
    (h : Reaches ask lines c c') (h' : Arrives ask lines c' P r) : Arrives ask lines c P r := by
  cases r with
  | value a =>
    obtain ⟨c'', hreach, hP⟩ := h'
    exact ⟨c'', h.trans hreach, hP⟩
  | fault => exact h.trans h'
  | never => exact h.endless h'

/-- Going on from where a reply has arrived. -/
theorem Arrives.bind {α β : Type} {P : α → RunState → Prop} {Q : β → RunState → Prop} {r : Reply α}
    {f : α → Reply β} (h : Arrives ask lines c P r)
    (hf : ∀ a c', P a c' → Arrives ask lines c' Q (f a)) : Arrives ask lines c Q (r.bind f) := by
  cases r with
  | value a =>
    obtain ⟨c', hreach, hP⟩ := h
    exact hreach.arrives (hf a c' hP)
  | fault => exact h
  | never => exact h

/-- Going on with the answer that has arrived. -/
theorem Arrives.go {α : Type} {P Q : α → RunState → Prop} {r : Reply α}
    (h : Arrives ask lines c P r)
    (hgo : ∀ a c', P a c' → ∃ c'', Reaches ask lines c' c'' ∧ Q a c'') :
    Arrives ask lines c Q r := by
  cases r with
  | value a =>
    obtain ⟨c', hreach, hP⟩ := h
    obtain ⟨c'', hreach', hQ⟩ := hgo a c' hP
    exact ⟨c'', hreach.trans hreach', hQ⟩
  | fault => exact h
  | never => exact h

/-- Where there is a line, a run goes on. -/
theorem RunState.goto_of_lt {k : Nat} {σ : Store} (h : k < lines.length) :
    RunState.goto lines k σ = .running k σ :=
  if_pos h

/-- Behind the last line it halts. -/
theorem RunState.goto_of_le {k : Nat} {σ : Store} (h : lines.length ≤ k) :
    RunState.goto lines k σ = .halted σ :=
  if_neg (Nat.not_lt_of_le h)

/-- What comes of a step at a line. -/
theorem RunState.next_of_value {k : Nat} {line : Line} {σ σ' : Store} {flow : Flow}
    (hline : lines[k]? = some line)
    (heffect : line.instruction.effect ask σ = .value (flow, σ')) :
    RunState.next ask lines (.running k σ) = follow lines k σ' flow := by
  simp only [next, hline, heffect]

/-- A line whose effect is a fault stops the run with it. -/
theorem RunState.next_of_fault {k : Nat} {line : Line} {σ : Store} (hline : lines[k]? = some line)
    (heffect : line.instruction.effect ask σ = .fault) :
    RunState.next ask lines (.running k σ) = faulted := by
  simp only [next, hline, heffect]

/-- A line that waits for an answer in vain leaves the run where it is. -/
theorem RunState.next_of_never {k : Nat} {line : Line} {σ : Store} (hline : lines[k]? = some line)
    (heffect : line.instruction.effect ask σ = .never) :
    RunState.next ask lines (.running k σ) = running k σ := by
  simp only [next, hline, heffect]

/-- A run that waits for an answer never ends. -/
theorem RunState.endless_of_never {k : Nat} {line : Line} {σ : Store}
    (hline : lines[k]? = some line) (heffect : line.instruction.effect ask σ = .never) :
    Endless ask lines (.running k σ) := by
  intro n
  rw [Function.iterate_fixed (next_of_never hline heffect)]
  exact id

/-- A line meets the effect of its instruction. -/
theorem meets_line (ask : Oracle) (σ : Store) {k : Nat} {line : Line}
    (hline : lines[k]? = some line) :
    Meets ask lines (.running k σ) (fun effect c => c = .follow lines k effect.2 effect.1)
      (line.instruction.effect ask σ) := by
  -- The three replies are those of one step: it goes on, it faults, or it waits forever.
  cases he : line.instruction.effect ask σ with
  | value effect => exact ⟨_, .of_next (RunState.next_of_value hline he), rfl⟩
  | fault => exact .of_next (RunState.next_of_fault hline he)
  | never => exact RunState.endless_of_never hline he

/-- A loop comes out. Its invariant is kept by each round, which makes the measure smaller or gets
out of the loop. -/
theorem leads_loop {I : Store → Prop} {P : RunState → Prop} {p : Nat} (measure : Store → Nat)
    (round : ∀ τ, I τ →
      (∃ τ', Leads ask lines (.running p τ) (.running p τ') ∧ I τ' ∧ measure τ' < measure τ) ∨
      ∃ c, Leads ask lines (.running p τ) c ∧ P c)
    {τ : Store} (h : I τ) : ∃ c, Leads ask lines (.running p τ) c ∧ P c := by
  -- The induction is on the measure, for all stores at once.
  induction hn : measure τ using Nat.strongRecOn generalizing τ with
  | ind n ih =>
    rcases round τ h with ⟨τ', hlead, hI, hlt⟩ | hout
    · obtain ⟨c, hlead', hP⟩ := ih (measure τ') (hn ▸ hlt) hI rfl
      exact ⟨c, hlead.trans hlead', hP⟩
    · exact hout

/-- A jump does not depend on where it is made. -/
theorem RunState.follow_jump (k k' : Nat) (σ : Store) (x : Label) :
    follow lines k σ (.jump x) = follow lines k' σ (.jump x) := by
  rw [Flow.jump]
  split <;> rfl

end

/-! ### Inside a body -/

namespace Placed

variable {ask : Oracle} {lines body : List Line} {k j : Nat} {b : Line} {σ σ' : Store}

/-- A body stands inside the lines. -/
theorem lt_length (h : Placed lines k body) (hj : j < body.length) : k + j < lines.length := by
  obtain ⟨line, hline, _⟩ := h j body[j] (List.getElem?_eq_getElem hj)
  exact (List.getElem?_eq_some_iff.mp hline).1

/-- The first part of a body stands where the body stands. -/
theorem append_left {body' : List Line} (h : Placed lines k (body ++ body')) :
    Placed lines k body := fun j b hb =>
  h j b (by rw [List.getElem?_append_left (List.getElem?_eq_some_iff.mp hb).1, hb])

/-- The second part stands behind the first one. -/
theorem append_right {body' : List Line} (h : Placed lines k (body ++ body')) :
    Placed lines (k + body.length) body' := by
  intro j b hb
  -- The place of a line is counted from the start of the whole body.
  obtain ⟨line, hline, hrest⟩ := h (body.length + j) b (by
    rw [List.getElem?_append_right (Nat.le_add_right _ j), Nat.add_sub_cancel_left, hb])
  exact ⟨line, by rw [Nat.add_assoc, hline], hrest⟩

/-- Behind its first line the rest of a body stands. -/
theorem of_cons {first : Line} (h : Placed lines k (first :: body)) : Placed lines (k + 1) body :=
  append_right (show Placed lines k ([first] ++ body) from h)

/-- A label of a body is found in its place. -/
theorem labelPlace (h : Placed lines k body) (hd : DistinctLabels lines) (hb : body[j]? = some b)
    {n : Nat} (hl : b.label = .numbered n) : labelPlace? (.numbered n) lines = some (k + j) := by
  obtain ⟨line, hline, _, hlabel⟩ := h j b hb
  -- The line carries this very label, as the label of the body is not empty.
  refine labelPlace?_of_distinct hd hline ?_ nofun
  rw [hlabel (by rw [hl]; exact nofun), hl]

/-- A step inside a body. -/
theorem step (h : Placed lines k body) (hb : body[j]? = some b) {flow : Flow}
    (heffect : b.instruction.effect ask σ = .value (flow, σ')) :
    Leads ask lines (.running (k + j) σ) (.follow lines (k + j) σ' flow) := by
  obtain ⟨line, hline, hi, _⟩ := h j b hb
  exact .of_next (RunState.next_of_value hline (by rw [hi, heffect]))

/-- A step to the next line of a body. -/
theorem fall (h : Placed lines k body) (hb : body[j]? = some b)
    (heffect : b.instruction.effect ask σ = .value (.fallThrough, σ'))
    (hj : j + 1 < body.length) :
    Leads ask lines (.running (k + j) σ) (.running (k + (j + 1)) σ') := by
  have hstep := h.step hb heffect
  rwa [RunState.follow, Nat.add_assoc, RunState.goto_of_lt (h.lt_length hj)] at hstep

/-- A step behind a body. -/
theorem leave (h : Placed lines k body) (hb : body[j]? = some b)
    (heffect : b.instruction.effect ask σ = .value (.fallThrough, σ')) :
    Leads ask lines (.running (k + j) σ) (.goto lines (k + (j + 1)) σ') :=
  h.step hb heffect

/-- A jump to a label of a body. -/
theorem jump (h : Placed lines k body) (hd : DistinctLabels lines) (hb : body[j]? = some b)
    {n : Nat} (heffect : b.instruction.effect ask σ = .value (.jump (.numbered n), σ'))
    {t : Nat} {b' : Line} (ht : body[t]? = some b') (hl : b'.label = .numbered n) :
    Leads ask lines (.running (k + j) σ) (.running (k + t) σ') := by
  have hstep := h.step hb heffect
  -- The label is that of a line of the body, so the jump stays inside.
  have hplace := h.labelPlace hd ht hl
  simp only [Flow.jump, Label.isExit, Bool.false_eq_true, if_false, RunState.follow,
    hplace] at hstep
  exact hstep

end Placed

end CounterMachine
