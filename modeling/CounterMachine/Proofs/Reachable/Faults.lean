import CounterMachine.Proofs.Lowering.Faults
import CounterMachine.Proofs.Reachable.Leaves

/-!
# Why an expansion fails

An expansion fails if and only if one of the instructions that occur on its levels cannot be
lowered, and it fails with the fault of the first of them: operations are expanded from left to
right, and what one is lowered to before the operation that follows. Since the occurrences on fewer
levels are among those on more, an expansion by fewer levels succeeds where one by more does.

## Key results

- `Program.faultOf_expand`: the fault of an expansion
- `Program.expand_faults`: where a program cannot be expanded, and why
-/

namespace CounterMachine

/-- The instruction of a visible operation. -/
def Leaf.instruction (leaf : Leaf) : Instruction := leaf.line.instruction

/-- The visible instructions of a program. -/
def Program.instructions (p : Program) : List Instruction := p.operations.map (·.instruction)

namespace Growth

variable {table : FunctionTable} {levels : Nat}

/-- Entries that are expanded from left to right: the first fault is that of the first entry which
has one. -/
theorem faultOf_foldlM
    (hstep : ∀ (g : Growth) (id : Nat), id < g.arena.size → faultOf (expand table levels g id) =
      firstFault table levels ((leavesAt g.arena [id]).map Leaf.instruction))
    (ids : List Nat) (g : Growth) (hids : ∀ i ∈ ids, i < g.arena.size) :
    faultOf (ids.foldlM (expand table levels) g) =
      firstFault table levels ((leavesAt g.arena ids).map Leaf.instruction) := by
  induction ids generalizing g with
  | nil => simp [leavesAt, pure, Except.pure, faultOf]
  | cons id ids ih =>
    obtain ⟨hid, hids⟩ := List.forall_mem_cons.mp hids
    have hfirst := hstep g id hid
    -- The first entry comes first, on both sides.
    rw [List.foldlM_cons, ← List.singleton_append, leavesAt_append, List.map_append,
      firstFault_append, ← hfirst]
    cases hg : expand table levels g id with
    | error e => rfl
    | ok g₁ =>
      -- The other entries are as they were.
      obtain ⟨_, grown⟩ := expand_sprouted levels g id g₁ hid hg
      rw [← leavesAt_congr fun i hi => grown.kept i (hids i hi)]
      exact ih g₁ fun i hi => (hids i hi).trans_le grown.size_le

/-- An entry cannot be expanded if it, or what it comes to on the levels below, cannot be
lowered. -/
theorem faultOf_expand (levels : Nat) (g : Growth) (id : Nat) (hid : id < g.arena.size) :
    faultOf (expand table levels g id) =
      firstFault table levels ((leavesAt g.arena [id]).map Leaf.instruction) := by
  induction levels generalizing g id with
  | zero => rfl
  | succ levels ih =>
    obtain ⟨op, hop⟩ : ∃ op, g.arena[id]? = some op := ⟨_, Array.getElem?_eq_getElem hid⟩
    have hleaf : (leavesAt g.arena [id]).map Leaf.instruction = [op.instruction] := by
      rw [leavesAt_cons hop]
      rfl
    simp only [expand, hop, hleaf]
    split
    · rename_i hbasic
      -- A basic instruction stays.
      symm
      apply firstFault_eq_none
      intro i hi
      rw [List.mem_singleton.mp hi]
      cases hi : op.instruction <;> simp_all [Instruction.isBasic, Instruction.kind,
        Instruction.fault?, Instruction.call?]
    · rename_i hsyn
      have hfault : faultOf (Line.lower table ⟨op.label, op.instruction⟩ g.supply) =
          op.instruction.fault? table := faultOf_lower _ _
      rw [firstFault_cons, firstFault_nil, Option.or_none, ← hfault]
      cases hl : Line.lower table ⟨op.label, op.instruction⟩ g.supply with
      | error e => rfl
      | ok lowered =>
        obtain ⟨lines, s⟩ := lowered
        have hchildren := faultOf_foldlM ih (List.range' g.arena.size lines.length)
          ⟨withChildren g.arena op lines, s, g.order⟩
          fun i hi => by simpa using (List.mem_range'_1.mp hi).2
        rw [leavesAt_withChildren, List.map_map] at hchildren
        exact hchildren.trans (firstFault_lower (Bool.eq_false_iff.mpr hsyn) hl)

end Growth

namespace Program

variable {p : Program}

/-- The visible instructions are those of the leaves. -/
theorem instructions_eq_map_leaves (p : Program) :
    p.instructions = p.leaves.map Leaf.instruction := by
  rw [instructions, leaves, List.map_map]
  rfl

/-- The fault of an expansion is the first one of what occurs on its levels. -/
theorem faultOf_expand (hp : ∀ i ∈ p.order, i < p.arena.size) (levels : Nat) :
    faultOf (p.expand levels) =
      firstFault p.callable (min levels p.degree) p.instructions := by
  rw [instructions_eq_map_leaves, leaves_eq]
  have hexpand : p.expand levels =
      p.order.foldlM (Growth.expand p.callable (min levels p.degree)) p.seed >>=
        fun g => .ok { p with arena := g.arena, order := g.order.toList } := rfl
  rw [hexpand, faultOf_bind_ok]
  exact Growth.faultOf_foldlM (Growth.faultOf_expand _) p.order p.seed hp

/-- A program whose order names entries of its arena, as it does in every program that is reachable
from a source, cannot be expanded if and only if an instruction with a fault occurs at a depth that
is reached, and then for the fault of the first one of these. So it can be expanded by fewer levels
if it can be expanded by more. With counters of 32 bits there is an overflow to be told from these
faults, which none of them depends on (`expandChecked_cases`). -/
theorem expand_faults (hp : ∀ i ∈ p.order, i < p.arena.size) (levels : Nat) :
    (∀ e, p.expand levels = .error e ↔
      firstFault p.callable (min levels p.degree) p.instructions = some e) ∧
    ((∃ e, p.expand levels = .error e) ↔ ∃ depth < min levels p.degree, ∃ i,
      OccursAt p.callable p.instructions depth i ∧ (i.fault? p.callable).isSome) ∧
    ∀ fewer ≤ levels, (∃ q, p.expand levels = .ok q) → ∃ q, p.expand fewer = .ok q := by
  refine ⟨fun e => ?_, ?_, fun fewer hle hq => ?_⟩
  · rw [← faultOf_eq_some, faultOf_expand hp]
  · rw [← faultOf_isSome, faultOf_expand hp, firstFault_isSome]
  · rw [← faultOf_eq_none, faultOf_expand hp] at hq ⊢
    exact firstFault_mono (by omega) hq

/-- A call of a function with a constant that is too large, to which the result of a missing
function is passed. Both are parts of the call, so it is lowered, and what is passed is the first of
them. -/
theorem expand_faults_passed :
    let p := ofLines "main" none none
      (some [ofLines "f" none (some [.input 1]) none [.plain (.assignConstant .result 70000)]])
      [.plain (.quote .result ⟨"f", [.nested "missing" []]⟩)]
    (∀ i ∈ p.order, i < p.arena.size) ∧
    p.expand 2 = .error (.unknownFunction "missing") ∧
    (∃ depth < min 2 p.degree, ∃ i,
      OccursAt p.callable p.instructions depth i ∧ (i.fault? p.callable).isSome) ∧
    (∃ q, p.expand 1 = .ok q) ∧ ∃ q, p.expand 0 = .ok q := by
  intro p
  have hp : ∀ i ∈ p.order, i < p.arena.size := by decide
  obtain ⟨hfault, hoccurs, _⟩ := expand_faults hp 2
  have herror : p.expand 2 = .error (.unknownFunction "missing") :=
    (hfault _).mpr (by decide +kernel)
  have hone : ∃ q, p.expand 1 = .ok q :=
    faultOf_eq_none.mp ((faultOf_expand hp 1).trans (by decide +kernel))
  exact ⟨hp, herror, hoccurs.mp ⟨_, herror⟩, hone,
    (expand_faults hp 1).2.2 0 (Nat.zero_le 1) hone⟩

end Program

end CounterMachine
