import CounterMachine.Proofs.Degree.Levels

/-!
# Programs on one level

Expanding and collapsing a program as a whole takes all its operations from level to level: nothing
is deeper than the level that the program is on, and what is not as deep is basic, so that there is
nothing left to expand. All this time an entry of the arena has the cost that its instruction
declares, and an entry with children is not basic.

## Key results

- `Program.Levelled`: what is reached by expanding and collapsing programs as a whole
- `Program.Levelled.expandedTo`: such a program is expanded to its level
- `Program.Reachable.regular`: costs and kinds of the entries of a reachable program
-/

namespace CounterMachine

/-! ### Entries -/

/-- An entry has the cost that its instruction declares, and it has children only if it is not
basic. -/
structure Regular (arena : Array Operation) : Prop where
  cycles_eq : ∀ (i : Nat) (op : Operation), arena[i]? = some op → op.cycles = op.instruction.cycles
  synthetic : ∀ (i : Nat) (op : Operation), arena[i]? = some op → childIds arena i ≠ [] →
    op.instruction.isBasic = false

/-- One step of an expansion writes entries with their declared costs, below one that is not
basic. -/
theorem Regular.step {table : FunctionTable} {inputs : List Variable} {stage stage' : Stage}
    (h : Regular stage.arena) (hvalid : stage.Valid table inputs)
    (hstep : Unfolds table stage stage') : Regular stage'.arena := by
  cases hstep with
  | @lower arena left right id op s s' lines hop hsyn hlower =>
    have hid : op.id = id := hvalid.forest.id_eq id op hop
    have hlt : id < arena.size := (Array.getElem?_eq_some_iff.mp hop).1
    -- An entry of the new arena is one of the old, or it was made of a line.
    have hcases : ∀ (i : Nat) (x : Operation), (withChildren arena op lines)[i]? = some x →
        arena[i]? = some x ∨ arena.size ≤ i ∧ ∃ line, x = childOf op i line := by
      intro i x hx
      by_cases hi : i < arena.size
      · exact .inl ((getElem?_withChildren_lt arena op lines hi).symm.trans hx)
      · obtain ⟨k, rfl⟩ := Nat.exists_eq_add_of_le (Nat.le_of_not_lt hi)
        rw [getElem?_withChildren_add] at hx
        obtain ⟨line, _, rfl⟩ := Option.map_eq_some_iff.mp hx
        exact .inr ⟨Nat.le_add_right _ _, line, rfl⟩
    refine ⟨fun i x hx => ?_, fun i x hx hchild => ?_⟩
    · rcases hcases i x hx with hx | ⟨_, line, rfl⟩
      · exact h.cycles_eq i x hx
      · rfl
    · rw [childIds_withChildren, hid] at hchild
      by_cases hi : id = i
      · subst hi
        rw [getElem?_withChildren_lt arena op lines hlt, hop] at hx
        cases hx
        exact hsyn
      · -- The other entries with children had them before.
        rw [if_neg hi, List.append_nil] at hchild
        obtain ⟨j, hj⟩ := List.exists_mem_of_ne_nil _ hchild
        have hij := hvalid.forest.descending j i (mem_childIds.mp hj)
        have hj := lt_size_of_mem_childIds hj
        rw [getElem?_withChildren_lt arena op lines (Nat.lt_trans hij hj)] at hx
        exact h.synthetic i x hx hchild

/-- A whole expansion leaves the costs as they are declared. -/
theorem Regular.steps {table : FunctionTable} {inputs : List Variable} {stage stage' : Stage}
    (h : Regular stage.arena) (hvalid : stage.Valid table inputs)
    (hsteps : Relation.ReflTransGen (Unfolds table) stage stage') : Regular stage'.arena := by
  induction hsteps with
  | refl => exact h
  | tail hsteps hstep ih => exact ih.step (hvalid.steps hsteps) hstep

/-- Entries that stay keep their costs, and get no children. -/
theorem Regular.giveWay {p : Program} {stand : Nat → Nat} (h : Regular p.arena)
    (hf : Forest p.arena p.order) : Regular (p.giveWay stand).arena := by
  obtain ⟨f, hr, _⟩ := Program.giveWay_renumbers hf stand
  refine ⟨fun j x hx => ?_, fun j x hx hchild => ?_⟩
  · obtain ⟨i, op, _, _, hop, rfl⟩ := hr.exists_of_getElem? hx
    exact h.cycles_eq i op hop
  · -- A child that stays was a child before, and its parent has stayed, too.
    obtain ⟨i, op, hi, rfl, hop, rfl⟩ := hr.exists_of_getElem? hx
    obtain ⟨c', hc'⟩ := List.exists_mem_of_ne_nil _ hchild
    have hc' := mem_childIds.mp hc'
    obtain ⟨c, hc, rfl⟩ := hr.surj c' (lt_size_of_parentOf hc')
    rw [hr.parentOf_eq hc, Option.map_eq_some_iff] at hc'
    obtain ⟨k, hk, hki⟩ := hc'
    rw [hr.inj (hc.of_mem_lineage hf.descending (parent_mem_lineage hf.descending hk)) hi hki] at hk
    exact h.synthetic i op hop (List.ne_nil_of_mem (mem_childIds.mpr hk))

namespace Program

section

variable {source p q : Program} {n levels : Nat}

/-- What has grown from a source can be expanded further, with the supply that its names leave. -/
theorem Grown.valid (h : Grown source p) :
    Stage.Valid source.callable source.inputs ⟨p.arena, p.order, Supply.ofProgram p⟩ :=
  ⟨h.forest, h.derived, h.inputs_eq ▸ h.forest.covers_ofProgram (h.inputs_eq.symm ▸ h.derived)⟩

/-- The entries of a reachable program have their declared costs, and those with children are not
basic. -/
theorem Reachable.regular (h : Reachable source p) (hs : Grown source source)
    (hsource : Regular source.arena) : Regular p.arena := by
  induction h with
  | refl => exact hsource
  | expand hp h ih =>
    have hg := hp.grown hs
    obtain ⟨s, _, hsteps⟩ := expand_unfolds _ _ _ h
    exact ih.steps hg.valid (hg.callable_eq ▸ hsteps)
  | expandSingle hp h ih =>
    have hg := hp.grown hs
    obtain ⟨s, _, hsteps⟩ := expandSingle_unfolds _ _ _ _ h
    exact ih.steps hg.valid (hg.callable_eq ▸ hsteps)
  | collapse hp h ih =>
    obtain ⟨_, rfl⟩ := collapse_eq_ok h
    exact ih.giveWay (hp.grown hs).forest
  | collapseSingle hp h ih =>
    obtain ⟨ancestor, rfl⟩ := collapseSingle_eq_ok h
    exact ih.giveWay (hp.grown hs).forest

/-! ### Levels -/

/-- Whole-program expansions and collapses that succeed lead from a source to a program. -/
inductive Levelled (source : Program) : Program → Prop
  | refl : Levelled source source
  | expand {p q : Program} {levels : Nat} (hp : Levelled source p)
      (h : p.expand levels = .ok q) : Levelled source q
  | collapse {p q : Program} (hp : Levelled source p) (h : p.collapse = .ok q) :
      Levelled source q

/-- Expanding and collapsing as a whole is a special case of what leads to a reachable program. -/
theorem Levelled.reachable (h : Levelled source p) : Reachable source p := by
  induction h with
  | refl => exact .refl
  | expand _ h ih => exact .expand ih h
  | collapse _ h ih => exact .collapse ih h

end

end Program

/-- An operation is on a level, or above it and basic. -/
structure Leaf.ExpandedTo (n : Nat) (leaf : Leaf) : Prop where
  layer_le : leaf.layer ≤ n
  basic_or : leaf.line.instruction.isBasic = true ∨ leaf.layer = n

/-- What an expansion leaves is expanded further by the number of its levels. -/
theorem Sprouts.expandedTo {table : FunctionTable} {levels n : Nat} {leaves out : List Leaf}
    {s s' : Supply} (h : Sprouts table levels leaves s out s')
    (hleaves : ∀ leaf ∈ leaves, leaf.ExpandedTo n) :
    ∀ leaf ∈ out, leaf.ExpandedTo (n + levels) := by
  induction h generalizing n with
  | nil => exact nofun
  | keep hstay _ ih =>
    obtain ⟨hleaf, hrest⟩ := List.forall_mem_cons.mp hleaves
    refine List.forall_mem_cons.mpr ⟨?_, ih hrest⟩
    rcases hstay with rfl | hbasic
    · exact hleaf
    · exact ⟨Nat.le_add_right_of_le hleaf.layer_le, .inl hbasic⟩
  | @lower levels leaf leaves below out lines s s₁ s₂ s' hsyn _ _ _ ihbelow ihrest =>
    obtain ⟨hleaf, hrest⟩ := List.forall_mem_cons.mp hleaves
    -- What is lowered is not basic, so it is on the level, and its lines are on the next one.
    have hlayer : leaf.layer = n := hleaf.basic_or.resolve_left (Bool.eq_false_iff.mp hsyn)
    refine List.forall_mem_append.mpr ⟨?_, ihrest hrest⟩
    have hbelow : ∀ x ∈ lines.map (Leaf.mk (leaf.layer + 1)), x.ExpandedTo (n + 1) := by
      refine List.forall_mem_map.mpr fun line _ => ⟨?_, .inr ?_⟩ <;> rw [hlayer]
    rw [Nat.add_comm levels 1, ← Nat.add_assoc]
    exact ihbelow hbelow

namespace Program

section

variable {source p q : Program} {n levels : Nat}

/-- Nothing visible is deeper than a level, and what is not as deep is basic. -/
def ExpandedTo (p : Program) (n : Nat) : Prop := ∀ leaf ∈ p.leaves, leaf.ExpandedTo n

/-- A program that is expanded to some level is expanded to its own. -/
theorem ExpandedTo.level (h : p.ExpandedTo n) : p.ExpandedTo p.level := by
  intro leaf hleaf
  have hle := level_le_iff_leaves.mp (Nat.le_refl p.level) leaf hleaf
  have hlevel : p.level ≤ n := level_le_iff_leaves.mpr fun leaf hleaf => (h leaf hleaf).layer_le
  exact ⟨hle, (h leaf hleaf).basic_or.imp_right fun heq => by omega⟩

/-- If everything is basic, the program is expanded to every level from its own on. -/
theorem expandedTo_of_isBasic (hbasic : ∀ op ∈ p.operations, op.instruction.isBasic = true)
    (hlevel : p.level ≤ n) : p.ExpandedTo n :=
  List.forall_mem_map.mpr fun op hop =>
    ⟨(p.level_spec.1 op hop).trans hlevel, .inl (hbasic op hop)⟩

/-- An expansion goes as many levels further as the degree allows. -/
theorem ExpandedTo.expand (hp : ∀ i ∈ p.order, i < p.arena.size) (hn : p.ExpandedTo n)
    (h : p.expand levels = .ok q) : q.ExpandedTo (n + min levels p.degree) := by
  obtain ⟨s, hsprouts⟩ := expand_sprouts hp h
  exact hsprouts.expandedTo hn

/-- What is visible after operations have given way. -/
theorem exists_leaf_of_giveWay {stand : Nat → Nat} (hf : Forest p.arena p.order)
    (hs : Stands p.arena p.order stand) {leaf : Leaf} (h : leaf ∈ (p.giveWay stand).leaves) :
    ∃ o ∈ p.order, ∃ y, p.arena[stand o]? = some y ∧ y.leaf = leaf := by
  obtain ⟨f, hr, horder⟩ := giveWay_renumbers hf stand
  obtain ⟨x, hx, rfl⟩ := List.mem_map.mp h
  obtain ⟨j, hj, hjx⟩ := mem_operations.mp hx
  rw [horder, List.mem_map] at hj
  obtain ⟨i, hi, rfl⟩ := hj
  have hkept : Kept p.arena (standing p.arena p.order stand) i := .self (hs.frontier hf) hi
  obtain ⟨y, hy⟩ := hr.exists_entry hkept
  rw [hr.entry i y hkept hy] at hjx
  cases hjx
  obtain ⟨o, ho, rfl⟩ := (hs.mem_standing hf).mp hi
  exact ⟨o, ho, y, hy, rfl⟩

/-- Where the deepest layer has given way, the program is expanded to the level above. -/
theorem ExpandedTo.collapse (hf : Forest p.arena p.order) (hn : p.ExpandedTo p.level)
    (h : p.collapse = .ok q) : q.ExpandedTo (p.level - 1) := by
  obtain ⟨hlevel, rfl⟩ := collapse_eq_ok h
  intro leaf hleaf
  obtain ⟨o, ho, y, hy, rfl⟩ := exists_leaf_of_giveWay hf (stands_parentOnLayer hf) hleaf
  obtain ⟨x, hx⟩ := hf.exists_entry ho
  obtain ⟨y', hy', hlayer⟩ := layer_parentOnLayer hf hlevel hx
  rw [hy] at hy'
  cases hy'
  by_cases hdeep : x.layer = p.level
  · -- What is on the deepest layer gives way to its parent.
    rw [if_pos hdeep] at hlayer
    exact ⟨Nat.le_of_eq hlayer, .inr hlayer⟩
  · -- What is not on the deepest layer stays, and it is basic.
    rw [parentOnLayer_eq hx, if_neg hdeep, hx] at hy
    obtain rfl : x = y := Option.some.inj hy
    have hxn := hn x.leaf (List.mem_map_of_mem (mem_operations.mpr ⟨o, ho, hx⟩))
    have hle : x.layer ≤ p.level := hxn.layer_le
    exact ⟨show x.layer ≤ _ by omega, .inl (hxn.basic_or.resolve_right hdeep)⟩

/-- Expanding and collapsing a source as a whole leads to programs that are expanded to their
level. -/
theorem Levelled.expandedTo (h : Levelled source p) (hs : Grown source source)
    (hsource : source.ExpandedTo 0) : p.ExpandedTo p.level := by
  induction h with
  | refl => exact hsource.level
  | expand hp h ih =>
    exact (ih.expand (fun i hi => (hp.reachable.grown hs).forest.lt_size hi) h).level
  | collapse hp h ih => exact (ih.collapse (hp.reachable.grown hs).forest h).level

end

/-! ### Sources -/

section

variable (name : String) (displayName : Option String) (inputs : Option (List Variable))
  (functions : Option (List Program)) (lines : List Line)

/-- Source operations have their declared costs, and no children. -/
theorem ofLines_regular : Regular (ofLines name displayName inputs functions lines).arena where
  cycles_eq i op hop := by
    rw [ofLines_getElem?] at hop
    obtain ⟨line, _, rfl⟩ := Option.map_eq_some_iff.mp hop
    rfl
  synthetic i op _ hchild := by
    obtain ⟨j, hj⟩ := List.exists_mem_of_ne_nil _ hchild
    rw [mem_childIds, ofLines_parentOf] at hj
    cases hj

theorem ofLines_expandedTo : (ofLines name displayName inputs functions lines).ExpandedTo 0 := by
  intro leaf hleaf
  have hle := level_le_iff_leaves.mp (Nat.le_of_eq (ofLines_level ..)) leaf hleaf
  exact ⟨hle, .inr (Nat.le_zero.mp hle)⟩

end

end Program

end CounterMachine
