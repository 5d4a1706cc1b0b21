import CounterMachine.Proofs.Lowering.Range
import CounterMachine.Proofs.Reachable.Invariant
import CounterMachine.Proofs.Reachable.Single

/-!
# Counters of 32 bits

The supply of an expansion counts without a bound, while the numbers of labels and the indexes of
counters have 32 bits. Here an expansion counts with 32 bits and stops where one of its counters
overflows. Otherwise it comes to what the unbounded one comes to, and which of the two it is can be
told from the unbounded result: the counters overflow if and only if some name in it does not have
32 bits. So what is proved of expansions holds of those with 32 bits, wherever these have a result.

## Key results

- `Program.expandChecked`, `Program.expandSingleChecked`: expansions with counters of 32 bits
- `inRange_steps_iff`: the supply is in range if and only if the names in the arena are
- `Program.expandChecked_cases`, `Program.expandSingleChecked_cases`: such an expansion overflows, or
  it comes to the same
- `Program.CheckedReachable.reachable`: what is reached without an overflow is reachable, and its
  names have 32 bits
-/

namespace CounterMachine

open Relation (ReflTransGen)

/-! ### Definitions -/

/-- Why an expansion with counters of 32 bits has no result. -/
inductive CheckedFault where
  /-- A counter of the supply has overflowed. -/
  | overflow
  /-- The expansion has failed. -/
  | fault (error : ExpansionError)
  deriving DecidableEq, Repr

/-- Expands the operation at a place of the arena by a number of levels, and stops where a counter
overflows. A line that cannot be lowered fails before it takes any name. -/
def Growth.expandChecked (table : FunctionTable) : (levels : Nat) → Growth → (id : Nat) →
    Except CheckedFault Growth
  | 0, g, id => .ok (g.keep id)
  | levels + 1, g, id =>
    match g.arena[id]? with
    | none => .ok (g.keep id)
    | some op =>
      if op.instruction.isBasic then
        .ok (g.keep id)
      else
        match Line.lower table ⟨op.label, op.instruction⟩ g.supply with
        | .error error => .error (.fault error)
        | .ok (lines, supply) =>
          if supply.InRange then
            (List.range' g.arena.size lines.length).foldlM (expandChecked table levels)
              { g with arena := lines.foldl (addChild op) g.arena, supply }
          else
            .error .overflow

namespace Program

/-- Expands a program with counters of 32 bits. -/
def expandChecked (p : Program) (levels : Nat) : Except CheckedFault Program := do
  let g ← p.order.foldlM (Growth.expandChecked p.callable (min levels p.degree)) p.seed
  return { p with arena := g.arena, order := g.order.toList }

/-- Expands one visible operation with counters of 32 bits. -/
def expandSingleChecked (p : Program) (id levels : Nat) : Except CheckedFault Program :=
  match p.positionOf? id with
  | none => .error (.fault (.unknownOperation id))
  | some position =>
    if p.operationDegree id < levels then
      .error (.fault (.invalidDegree levels (p.operationDegree id)))
    else do
      let g ← Growth.expandChecked p.callable levels p.seed id
      return { p with
        arena := g.arena
        order := p.order.take position ++ g.order.toList ++ p.order.drop (position + 1) }

end Program

/-- All names in an arena have 32 bits. -/
def ArenaInRange (arena : Array Operation) : Prop :=
  ∀ (i : Nat) (op : Operation), arena[i]? = some op → ∀ ν ∈ op.line.names, ν.InRange

/-- All names in a program have 32 bits, those of hidden entries included. -/
structure Program.InRange (p : Program) : Prop where
  inputs : ∀ v ∈ p.inputs, v.InRange
  arena : ArenaInRange p.arena

/-! ### Names and supply -/

section

variable {table : FunctionTable} {stage stage' : Stage}

/-- The names of a grown arena are those of the old one and those of the new lines. -/
theorem arenaInRange_withChildren {arena : Array Operation} {op : Operation} {lines : List Line} :
    ArenaInRange (withChildren arena op lines) ↔
      ArenaInRange arena ∧ ∀ ν, Uses lines ν → ν.InRange := by
  -- A child has the place of its line behind the old entries.
  constructor
  · refine fun h => ⟨fun i x hx => ?_, fun ν ⟨line, hline, hν⟩ => ?_⟩
    · refine h i x ?_
      rwa [getElem?_withChildren_lt arena op lines (Array.getElem?_eq_some_iff.mp hx).1]
    · obtain ⟨k, hk⟩ := List.mem_iff_getElem?.mp hline
      refine h (arena.size + k) (childOf op (arena.size + k) line) ?_ ν hν
      rw [getElem?_withChildren_add, hk]
      rfl
  · rintro ⟨hold, hlines⟩ i x hx ν hν
    rcases entry_withChildren op lines hx with hx | ⟨-, -, hline⟩
    · exact hold i x hx ν hν
    · exact hlines ν ⟨x.line, hline, hν⟩

/-- A step takes names from the supply, and gives none back. -/
theorem Unfolds.supply_le (h : Unfolds table stage stage') :
    stage.supply.label ≤ stage'.supply.label ∧ stage.supply.work ≤ stage'.supply.work := by
  cases h with
  | lower hop hsyn hlower => exact ⟨(lower_names hlower).label_le, (lower_names hlower).work_le⟩

/-- A step leaves the entries there, so it brings no name back into range. -/
theorem Unfolds.arenaInRange_of (h : Unfolds table stage stage') (ha : ArenaInRange stage'.arena) :
    ArenaInRange stage.arena := by
  cases h with
  | lower hop hsyn hlower => exact (arenaInRange_withChildren.mp ha).1

/-- In one step, the supply stays in range if and only if the names of the arena do. -/
theorem Unfolds.inRange_iff (h : Unfolds table stage stage') (hs : stage.supply.InRange)
    (ha : ArenaInRange stage.arena) : stage'.supply.InRange ↔ ArenaInRange stage'.arena := by
  cases h with
  | lower hop hsyn hlower =>
    rw [arenaInRange_withChildren, and_iff_right ha]
    exact inRange_lower_iff (ha _ _ hop) hs hlower

/-- A supply that is in range at the end of an expansion was in range all the time. -/
theorem inRange_of_steps (h : ReflTransGen (Unfolds table) stage stage')
    (hs' : stage'.supply.InRange) : stage.supply.InRange := by
  -- The supply only grows from one stage to the next.
  induction h with
  | refl => exact hs'
  | tail _ hstep ih => exact ih (hs'.of_le hstep.supply_le.1 hstep.supply_le.2)

/-- At the end of an expansion, the supply is in range if and only if the names of the arena are. -/
theorem inRange_steps_iff (h : ReflTransGen (Unfolds table) stage stage')
    (hs : stage.supply.InRange) (ha : ArenaInRange stage.arena) :
    stage'.supply.InRange ↔ ArenaInRange stage'.arena := by
  induction h with
  | refl => exact iff_of_true hs ha
  | tail _ hstep ih =>
    constructor
    · intro hs'
      have hmid := hs'.of_le hstep.supply_le.1 hstep.supply_le.2
      exact (hstep.inRange_iff hmid (ih.mp hmid)).mp hs'
    · -- The entries are still there at the end, so their names were in range before.
      intro ha'
      have hmid := hstep.arenaInRange_of ha'
      exact (hstep.inRange_iff (ih.mpr hmid) hmid).mpr ha'

/-- If the names of a program have 32 bits, then its supply starts in range. -/
theorem Program.InRange.supply {p : Program} (hp : p.InRange) : (Supply.ofProgram p).InRange := by
  have hops : ∀ op ∈ p.operations, ∀ ν ∈ op.line.names, ν.InRange := fun op hop => by
    obtain ⟨i, _, hi⟩ := Program.mem_operations.mp hop
    exact hp.arena i op hi
  -- The numbers are those of the labels in the program, the indexes those of its counters.
  constructor
  · refine (foldl_max_le_iff id _ _ _).mpr ⟨Nat.zero_le _, fun n hn => ?_⟩
    obtain ⟨x, hx, hxn⟩ := List.mem_filterMap.mp hn
    obtain ⟨op, hop, hmem⟩ := List.mem_flatMap.mp hx
    exact hops op hop (.label x) (label_mem_names.mpr hmem) n hxn
  · refine (foldl_max_le_iff id _ _ _).mpr ⟨Nat.zero_le _, fun n hn => ?_⟩
    obtain ⟨v, hv, hvn⟩ := List.mem_filterMap.mp hn
    have hrange : v.InRange := by
      rcases List.mem_append.mp hv with hv | hv
      · exact hp.inputs v hv
      · rcases List.mem_cons.mp hv with rfl | hv
        · exact Nat.zero_le _
        · obtain ⟨op, hop, hmem⟩ := List.mem_flatMap.mp hv
          exact hops op hop (.var v) (var_mem_names.mpr hmem)
    cases v with
    | work m => cases hvn; exact hrange
    | result => cases hvn
    | input m => cases hvn

end

/-! ### Expansions that stop at an overflow -/

/-- A computation that stops at an overflow overflows, or it comes to what the unbounded one comes
to. It overflows if and only if the unbounded one leaves the range, if that has a result at all. -/
def Checked {α : Type} (InRange : α → Prop) (x : Except CheckedFault α)
    (y : Except ExpansionError α) : Prop :=
  (∀ a, y = .ok a → InRange a) ∧ x = y.mapError .fault ∨
    (∀ a, y = .ok a → ¬ InRange a) ∧ x = .error .overflow

namespace Checked

variable {α β : Type} {InRange : α → Prop} {InRange' : β → Prop} {x : Except CheckedFault α}
  {y : Except ExpansionError α}

/-- A result in range. -/
theorem ok {a : α} (h : InRange a) : Checked InRange (.ok a) (.ok a) :=
  .inl ⟨fun _ heq => Except.ok.inj heq ▸ h, rfl⟩

/-- A failure. -/
theorem error (e : ExpansionError) : Checked InRange (.error (.fault e)) (.error e) :=
  .inl ⟨nofun, rfl⟩

/-- The results are those of the unbounded computation that are in range. -/
theorem eq_ok_iff (h : Checked InRange x y) {a : α} : x = .ok a ↔ y = .ok a ∧ InRange a := by
  obtain ⟨hin, rfl⟩ | ⟨hout, rfl⟩ := h
  · cases y with
    | error e => simp [Except.mapError]
    | ok b =>
      simp only [Except.mapError, Except.ok.injEq, iff_self_and]
      rintro rfl
      exact hin b rfl
  · simp only [reduceCtorEq, false_iff, not_and]
    exact hout a

/-- What is made of a result is in range if and only if the result is. -/
theorem map (h : Checked InRange x y) (f : α → β)
    (hf : ∀ a, y = .ok a → (InRange' (f a) ↔ InRange a)) :
    Checked InRange' (x.map f) (y.map f) := by
  cases y with
  | error e => exact h.imp (fun ⟨_, hx⟩ => ⟨nofun, hx ▸ rfl⟩) fun ⟨_, hx⟩ => ⟨nofun, hx ▸ rfl⟩
  | ok a =>
    have hrange := hf a rfl
    obtain ⟨hin, rfl⟩ | ⟨hout, rfl⟩ := h
    · exact .ok (hrange.mpr (hin a rfl))
    · exact .inr ⟨fun b hb => Except.ok.inj hb ▸ hrange.not.mpr (hout a rfl), rfl⟩

end Checked

namespace Growth

variable {table : FunctionTable}

/-- A supply that is in range after entries are expanded was in range before. -/
theorem Unfolded.inRange_of {ids : List Nat} {g g' : Growth} (h : Unfolded table g ids g')
    (hg' : g'.supply.InRange) : g.supply.InRange := by
  obtain ⟨_, -, hsteps⟩ := h
  exact inRange_of_steps (hsteps [] []) hg'

/-- Entries that are expanded from left to right: after an overflow no later entry brings the supply
back into range. -/
theorem foldlM_checked {levels : Nat}
    (hstep : ∀ (g : Growth) (id : Nat), g.supply.InRange →
      Checked (·.supply.InRange) (expandChecked table levels g id) (expand table levels g id))
    (ids : List Nat) (g : Growth) (hg : g.supply.InRange) :
    Checked (·.supply.InRange) (ids.foldlM (expandChecked table levels) g)
      (ids.foldlM (expand table levels) g) := by
  induction ids generalizing g with
  | nil => exact .ok hg
  | cons id ids ih =>
    rw [List.foldlM_cons, List.foldlM_cons]
    obtain ⟨hin, hx⟩ | ⟨hout, hx⟩ := hstep g id hg
    · rw [hx]
      cases hfirst : expand table levels g id with
      | error e => exact .inl ⟨nofun, rfl⟩
      | ok g₁ => exact ih g₁ (hin g₁ hfirst)
    · -- After an overflow the unbounded expansion goes on, but never comes back into range.
      rw [hx]
      refine .inr ⟨fun g' hg' hrange => ?_, rfl⟩
      cases hfirst : expand table levels g id with
      | error e => rw [hfirst] at hg'; cases hg'
      | ok g₁ =>
        rw [hfirst] at hg'
        exact hout g₁ hfirst ((expandAll_unfolds hg').inRange_of hrange)

/-- The expansion of one entry. -/
theorem expand_checked (levels : Nat) (g : Growth) (id : Nat) (hg : g.supply.InRange) :
    Checked (·.supply.InRange) (expandChecked table levels g id) (expand table levels g id) := by
  induction levels generalizing g id with
  | zero => exact .ok (a := g.keep id) hg
  | succ levels ih =>
    rw [expandChecked, expand]
    cases g.arena[id]? with
    | none => exact .ok (a := g.keep id) hg
    | some op =>
      simp only
      by_cases hbasic : op.instruction.isBasic = true
      · rw [if_pos hbasic, if_pos hbasic]
        exact .ok (a := g.keep id) hg
      · rw [if_neg hbasic, if_neg hbasic]
        cases Line.lower table ⟨op.label, op.instruction⟩ g.supply with
        | error e => exact .error e
        | ok lowered =>
          obtain ⟨lines, s'⟩ := lowered
          simp only
          by_cases hs' : s'.InRange
          · rw [if_pos hs']
            exact foldlM_checked ih _ _ hs'
          · -- The supply is out of range, and the lines that follow do not bring it back.
            rw [if_neg hs']
            refine .inr ⟨fun g' hg' hrange => hs' ?_, rfl⟩
            exact (expandAll_unfolds hg').inRange_of hrange

end Growth

namespace Program

variable {p q source : Program}

/-- Whether an expansion has left the range can be told from the names in what it comes to. -/
theorem InRange.growth_iff (hp : p.InRange) {g : Growth} {ids : List Nat} {order : List Nat}
    (hg : Growth.Unfolded p.callable p.seed ids g) :
    ({ p with arena := g.arena, order } : Program).InRange ↔ g.supply.InRange := by
  obtain ⟨_, -, hsteps⟩ := hg
  have hiff : g.supply.InRange ↔ ArenaInRange g.arena :=
    inRange_steps_iff (hsteps [] []) hp.supply hp.arena
  exact ⟨fun hq => hiff.mpr hq.arena, fun hs => ⟨hp.inputs, hiff.mp hs⟩⟩

/-- An expansion with counters of 32 bits overflows, or it comes to what the unbounded one comes to.
It overflows if and only if that has a name without 32 bits, if it has a result at all. -/
theorem expandChecked_cases (hp : p.InRange) (levels : Nat) :
    Checked InRange (p.expandChecked levels) (p.expand levels) := by
  have hfold : Checked (·.supply.InRange)
      (p.order.foldlM (Growth.expandChecked p.callable (min levels p.degree)) p.seed) _ :=
    Growth.foldlM_checked (Growth.expand_checked _) p.order p.seed hp.supply
  exact hfold.map (fun g => { p with arena := g.arena, order := g.order.toList })
    fun g hg => hp.growth_iff (Growth.expandAll_unfolds hg)

/-- The same holds of the expansion of one operation. -/
theorem expandSingleChecked_cases (hp : p.InRange) (id levels : Nat) :
    Checked InRange (p.expandSingleChecked id levels) (p.expandSingle id levels) := by
  rw [expandSingleChecked]
  cases hpos : p.positionOf? id with
  | none =>
    rw [expandSingle, hpos]
    exact .error (.unknownOperation id)
  | some position =>
    rw [expandSingle_eq hpos]
    simp only
    split
    · exact .error (.invalidDegree levels (p.operationDegree id))
    · exact (Growth.expand_checked levels p.seed id hp.supply).map _
        fun g hg => hp.growth_iff (Growth.expand_unfolds _ _ _ _ hg)

/-! ### Programs that are reached without an overflow -/

/-- Expansions with counters of 32 bits and collapses lead from a program to another one. -/
inductive CheckedReachable (source : Program) : Program → Prop
  | refl : CheckedReachable source source
  | expand {p q : Program} {levels : Nat} (hp : CheckedReachable source p)
      (h : p.expandChecked levels = .ok q) : CheckedReachable source q
  | expandSingle {p q : Program} {id levels : Nat} (hp : CheckedReachable source p)
      (h : p.expandSingleChecked id levels = .ok q) : CheckedReachable source q
  | collapse {p q : Program} (hp : CheckedReachable source p) (h : p.collapse = .ok q) :
      CheckedReachable source q
  | collapseSingle {p q : Program} {id levels : Nat} (hp : CheckedReachable source p)
      (h : p.collapseSingle id levels = .ok q) : CheckedReachable source q

/-- What is left after operations have given way has no other names. -/
theorem InRange.giveWay (hp : p.InRange) (hf : Forest p.arena p.order) (stand : Nat → Nat) :
    (p.giveWay stand).InRange := by
  obtain ⟨f, hr, _⟩ := giveWay_renumbers hf stand
  refine ⟨hp.inputs, fun j x hx => ?_⟩
  obtain ⟨i, op, -, -, hop, rfl⟩ := hr.exists_of_getElem? hx
  exact hp.arena i op hop

/-- What is reached without an overflow is reachable, and its names have 32 bits. So all that is
known of reachable programs is known of it. -/
theorem CheckedReachable.reachable (h : CheckedReachable source p) (hs : Grown source source)
    (hsource : source.InRange) : Reachable source p ∧ p.InRange := by
  -- An expansion is in range by what it checks, and a collapse brings no name in.
  induction h with
  | refl => exact ⟨.refl, hsource⟩
  | expand _ h ih =>
    obtain ⟨hq, hrange⟩ := (expandChecked_cases ih.2 _).eq_ok_iff.mp h
    exact ⟨.expand ih.1 hq, hrange⟩
  | expandSingle _ h ih =>
    obtain ⟨hq, hrange⟩ := (expandSingleChecked_cases ih.2 _ _).eq_ok_iff.mp h
    exact ⟨.expandSingle ih.1 hq, hrange⟩
  | collapse _ h ih =>
    obtain ⟨_, rfl⟩ := collapse_eq_ok h
    exact ⟨.collapse ih.1 h, ih.2.giveWay (ih.1.grown hs).forest _⟩
  | collapseSingle _ h ih =>
    obtain ⟨_, rfl⟩ := collapseSingle_eq_ok h
    exact ⟨.collapseSingle ih.1 h, ih.2.giveWay (ih.1.grown hs).forest _⟩

/-- Above the largest index there is no counter left to copy with. -/
example : (ofLines "copy" none none none
    [.plain (.assign .result (.work 4294967295))]).expandChecked 1 = .error .overflow := by
  rfl

end Program

end CounterMachine
