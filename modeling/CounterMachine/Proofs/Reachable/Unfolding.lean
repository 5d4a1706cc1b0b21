import CounterMachine.Proofs.Forest.Growth
import Mathlib.Logic.Relation

/-!
# Expansion, one operation at a time

However deep an expansion goes and wherever it is asked for, it is a sequence of single steps: a
visible operation that is not basic is lowered, its lines become new entries of the arena, and
they take its place in the order. What a single step preserves is therefore preserved by every
expansion.

## Key results

- `Growth.expand_unfolds`, `Growth.expandAll_unfolds`: expanding one entry, or several from left to
  right, is a sequence of such steps
- `Program.expand_unfolds`, `Program.expandSingle_unfolds`: and so are the two expansions of a
  program
-/

namespace CounterMachine

open Relation (ReflTransGen)

/-- A program under expansion: its arena, its visible operations and the supply of names. -/
structure Stage where
  arena : Array Operation
  order : List Nat
  supply : Supply

/-- One visible operation gives way to the lines that it stands for. -/
inductive Unfolds (table : FunctionTable) : Stage → Stage → Prop
  | lower {arena : Array Operation} {left right : List Nat} {id : Nat} {op : Operation}
      {s s' : Supply} {lines : List Line} (hop : arena[id]? = some op)
      (hsyn : op.instruction.isBasic = false)
      (hlower : op.line.lower table s = .ok (lines, s')) :
      Unfolds table ⟨arena, left ++ id :: right, s⟩
        ⟨withChildren arena op lines,
          left ++ List.range' arena.size lines.length ++ right, s'⟩

variable {table : FunctionTable}

namespace Growth

/-- What an expansion does to a growth: it appends visible operations, and these stand where the
expanded ones stood. -/
def Unfolded (table : FunctionTable) (g : Growth) (ids : List Nat) (g' : Growth) : Prop :=
  ∃ ids', g'.order.toList = g.order.toList ++ ids' ∧
    ∀ left right, ReflTransGen (Unfolds table)
      ⟨g.arena, left ++ ids ++ right, g.supply⟩ ⟨g'.arena, left ++ ids' ++ right, g'.supply⟩

/-- An entry that is kept is shown behind the others. -/
theorem unfolded_keep (g : Growth) (id : Nat) : Unfolded table g [id] (g.keep id) :=
  ⟨[id], Array.toList_push, fun _ _ => .refl⟩

/-- Entries that are expanded from left to right. -/
theorem foldlM_unfolds (step : Growth → Nat → Except ExpansionError Growth)
    (hstep : ∀ g id g', step g id = .ok g' → Unfolded table g [id] g') (ids : List Nat)
    (g g' : Growth) (h : ids.foldlM step g = .ok g') : Unfolded table g ids g' := by
  induction ids generalizing g with
  | nil =>
    cases h
    exact ⟨[], (List.append_nil _).symm, fun _ _ => .refl⟩
  | cons id ids ih =>
    rw [List.foldlM_cons] at h
    cases hg : step g id with
    | error e => rw [hg] at h; cases h
    | ok g₁ =>
      rw [hg] at h
      obtain ⟨ids₁, horder₁, hsteps₁⟩ := hstep g id g₁ hg
      obtain ⟨ids₂, horder₂, hsteps₂⟩ := ih g₁ h
      refine ⟨ids₁ ++ ids₂, by rw [horder₂, horder₁, List.append_assoc], fun left right => ?_⟩
      -- First the entry itself, with the others to its right, then these.
      have first := hsteps₁ left (ids ++ right)
      have others := hsteps₂ (left ++ ids₁) right
      simp only [List.append_assoc, List.cons_append, List.nil_append] at first others ⊢
      exact first.trans others

/-- Expanding one entry is a sequence of single steps. -/
theorem expand_unfolds (levels : Nat) (g g' : Growth) (id : Nat)
    (h : expand table levels g id = .ok g') : Unfolded table g [id] g' := by
  -- By induction on the levels: one step writes the lines, and these are expanded by one level
  -- less.
  induction levels generalizing g g' id with
  | zero => cases h; exact unfolded_keep g id
  | succ levels ih =>
    rw [expand] at h
    split at h
    · cases h; exact unfolded_keep g id
    · rename_i op hop
      split at h
      · cases h; exact unfolded_keep g id
      · rename_i hsyn
        cases hl : Line.lower table ⟨op.label, op.instruction⟩ g.supply with
        | error e => rw [hl] at h; cases h
        | ok lowered =>
          obtain ⟨lines, s'⟩ := lowered
          rw [hl] at h
          have hrest := foldlM_unfolds _ (fun g id g' => ih g g' id) _ _ _ h
          obtain ⟨ids', horder, hsteps⟩ := hrest
          refine ⟨ids', horder, fun left right => ?_⟩
          -- The entry gives way to its lines, which then give way in turn.
          have first : Unfolds table ⟨g.arena, left ++ id :: right, g.supply⟩
              ⟨withChildren g.arena op lines,
                left ++ List.range' g.arena.size lines.length ++ right, s'⟩ :=
            .lower hop (Bool.eq_false_iff.mpr hsyn) hl
          have others := hsteps left right
          simp only [List.append_assoc, List.cons_append, List.nil_append] at first others ⊢
          exact .head first others

/-- Expanding several entries is a sequence of single steps as well. -/
theorem expandAll_unfolds {levels : Nat} {ids : List Nat} {g g' : Growth}
    (h : ids.foldlM (expand table levels) g = .ok g') : Unfolded table g ids g' :=
  foldlM_unfolds _ (fun g id g' => expand_unfolds levels g g' id) ids g g' h

end Growth

namespace Program

/-- What a successful expansion of a program has done. -/
theorem expand_eq_ok (p q : Program) (levels : Nat) (h : p.expand levels = .ok q) :
    ∃ g, p.order.foldlM (Growth.expand p.callable (min levels p.degree)) p.seed = .ok g ∧
      q = { p with arena := g.arena, order := g.order.toList } := by
  rw [expand] at h
  cases hg : p.order.foldlM (Growth.expand p.callable (min levels (p.degreeIn p.callable)))
      p.seed with
  | error e => simp [hg, bind, Except.bind] at h
  | ok g =>
    simp only [hg, bind, Except.bind, pure, Except.pure] at h
    cases h
    exact ⟨g, hg, rfl⟩

/-- Whole-program expansion is a sequence of single steps. -/
theorem expand_unfolds (p q : Program) (levels : Nat) (h : p.expand levels = .ok q) :
    ∃ s, q = { p with arena := q.arena, order := q.order } ∧
      ReflTransGen (Unfolds p.callable) ⟨p.arena, p.order, Supply.ofProgram p⟩
        ⟨q.arena, q.order, s⟩ := by
  obtain ⟨g, hg, rfl⟩ := expand_eq_ok p q levels h
  obtain ⟨ids', horder, hsteps⟩ := Growth.expandAll_unfolds hg
  have := hsteps [] []
  simp only [List.nil_append, List.append_nil] at this
  rw [seed, List.nil_append] at horder
  exact ⟨g.supply, rfl, horder ▸ this⟩

/-- A visible operation stands between those before its position and those behind it. -/
theorem order_of_positionOf? (p : Program) (id position : Nat)
    (h : p.positionOf? id = some position) :
    p.order = p.order.take position ++ id :: p.order.drop (position + 1) := by
  obtain ⟨hlt, heq, _⟩ := List.findIdx?_eq_some_iff_getElem.mp h
  have : p.order[position] = id := by simpa using heq
  rw [← this, List.getElem_cons_drop, List.take_append_drop]

/-- What a successful expansion of one operation has done. -/
theorem expandSingle_eq_ok (p q : Program) (id levels : Nat)
    (h : p.expandSingle id levels = .ok q) :
    ∃ position g, p.positionOf? id = some position ∧
      Growth.expand p.callable levels p.seed id = .ok g ∧
      q = { p with
        arena := g.arena
        order := p.order.take position ++ g.order.toList ++ p.order.drop (position + 1) } := by
  rw [expandSingle] at h
  split at h
  · cases h
  · rename_i position hpos
    cases hg : Growth.expand p.callable levels p.seed id with
    | error e =>
      simp only [hg, bind, Except.bind, throw, throwThe, MonadExceptOf.throw] at h
      repeat' split at h
      all_goals cases h
    | ok g =>
      simp only [hg, bind, Except.bind, pure, Except.pure, throw, throwThe,
        MonadExceptOf.throw] at h
      refine ⟨position, g, hpos, rfl, ?_⟩
      repeat' split at h
      all_goals cases h <;> rfl

/-- Expanding one visible operation is a sequence of single steps. -/
theorem expandSingle_unfolds (p q : Program) (id levels : Nat)
    (h : p.expandSingle id levels = .ok q) :
    ∃ s, q = { p with arena := q.arena, order := q.order } ∧
      ReflTransGen (Unfolds p.callable) ⟨p.arena, p.order, Supply.ofProgram p⟩
        ⟨q.arena, q.order, s⟩ := by
  obtain ⟨position, g, hpos, hg, rfl⟩ := expandSingle_eq_ok p q id levels h
  obtain ⟨ids', horder, hsteps⟩ := Growth.expand_unfolds _ _ _ _ hg
  have := hsteps (p.order.take position) (p.order.drop (position + 1))
  rw [seed, List.nil_append] at horder
  rw [List.append_assoc, List.singleton_append, seed,
    ← order_of_positionOf? p id position hpos] at this
  exact ⟨_, rfl, horder ▸ this⟩

end Program

end CounterMachine
