import CounterMachine.Proofs.Reachable.Cover
import CounterMachine.Proofs.Reachable.Pruning

/-!
# Programs that are reachable from a source

A program is reachable from another one if expansions and collapses, in any order and with any
arguments, lead from one to the other. What is reachable from a source, a program that is written
down as lines, has grown from it: it is the same program but for an arena and an order, the arena is
a forest with the source as its roots, and every entry was derived.

## Key results

- `Program.Grown.ofLines`: a source has grown from itself
- `Program.Reachable.grown`: so has everything that is reachable from it
-/

namespace CounterMachine

/-- New entries have parents. -/
theorem Rooted.unfolds {table : FunctionTable} {arena : Array Operation} {stage stage' : Stage}
    (h : Rooted arena stage.arena) (hsize : arena.size ≤ stage.arena.size)
    (hstep : Unfolds table stage stage') :
    Rooted arena stage'.arena ∧ arena.size ≤ stage'.arena.size := by
  cases hstep with
  | @lower old left right id op s s' lines hop hsyn hlower =>
    simp only at h hsize ⊢
    refine ⟨⟨fun i hi => ?_, fun i hi => ?_⟩, ?_⟩
    · -- The source operations stay as they are.
      rw [getElem?_withChildren_lt old op lines (by omega), h.entry i hi]
    · rw [size_withChildren] at hi
      -- An old entry keeps its parent, and a new one has got the operation for a parent.
      by_cases hlt : i < old.size
      · rw [parentOf_withChildren_lt old op lines hlt, h.root_iff i hlt]
      · rw [parentOf_withChildren_ge old op lines (by omega) hi]
        simp only [reduceCtorEq, false_iff]
        omega
    · rw [size_withChildren]
      omega

/-- So have all that come in by any number of steps. -/
theorem Rooted.steps {table : FunctionTable} {arena : Array Operation} {stage stage' : Stage}
    (h : Rooted arena stage.arena) (hsize : arena.size ≤ stage.arena.size)
    (hsteps : Relation.ReflTransGen (Unfolds table) stage stage') :
    Rooted arena stage'.arena ∧ arena.size ≤ stage'.arena.size := by
  induction hsteps with
  | refl => exact ⟨h, hsize⟩
  | tail _ hstep ih => exact ih.1.unfolds ih.2 hstep

namespace Program

/-- Expansions and collapses that succeed lead from a program to another one. With counters of 32
bits, what is reached without an overflow is among these programs (`CheckedReachable.reachable`). -/
inductive Reachable (source : Program) : Program → Prop
  | refl : Reachable source source
  | expand {p q : Program} {levels : Nat} (hp : Reachable source p)
      (h : p.expand levels = .ok q) : Reachable source q
  | expandSingle {p q : Program} {id levels : Nat} (hp : Reachable source p)
      (h : p.expandSingle id levels = .ok q) : Reachable source q
  | collapse {p q : Program} (hp : Reachable source p) (h : p.collapse = .ok q) :
      Reachable source q
  | collapseSingle {p q : Program} {id levels : Nat} (hp : Reachable source p)
      (h : p.collapseSingle id levels = .ok q) : Reachable source q

/-- A program has grown from a source: only its arena and its order differ, the source operations
are the roots of the arena, and everything else was derived from them. -/
structure Grown (source p : Program) : Prop where
  frame : p = { source with arena := p.arena, order := p.order }
  forest : Forest p.arena p.order
  derived : Derived source.callable source.inputs p.arena
  rooted : Rooted source.arena p.arena
  size_le : source.arena.size ≤ p.arena.size

/-! ### Sources -/

section

variable (name : String) (displayName : Option String) (inputs : Option (List Variable))
  (functions : Option (List Program)) (lines : List Line)

/-- The entries of a source are its lines, one by one. -/
theorem ofLines_getElem? (i : Nat) :
    (ofLines name displayName inputs functions lines).arena[i]? =
      lines[i]?.map (sourceOperation i) := by
  rw [ofLines, List.getElem?_toArray, List.getElem?_mapIdx]

/-- There are as many of them as there are lines. -/
theorem ofLines_size :
    (ofLines name displayName inputs functions lines).arena.size = lines.length := by
  rw [ofLines, List.size_toArray, List.length_mapIdx]

/-- A source shows all its entries. -/
theorem ofLines_order :
    (ofLines name displayName inputs functions lines).order =
      List.range (ofLines name displayName inputs functions lines).arena.size := by
  rw [ofLines_size]
  rfl

/-- Source operations have no parents. -/
theorem ofLines_parentOf (i : Nat) :
    parentOf (ofLines name displayName inputs functions lines).arena i = none := by
  rw [parentOf, ofLines_getElem?]
  cases lines[i]? <;> rfl

/-- A source is a forest of roots. -/
theorem ofLines_forest :
    Forest (ofLines name displayName inputs functions lines).arena
      (ofLines name displayName inputs functions lines).order where
  id_eq i op hop := by
    rw [ofLines_getElem?] at hop
    obtain ⟨line, _, rfl⟩ := Option.map_eq_some_iff.mp hop
    rfl
  descending i p hp := by rw [ofLines_parentOf] at hp; cases hp
  layer_eq i op hop := by
    rw [ancestors_of_root _ _ (ofLines_parentOf ..)]
    rw [ofLines_getElem?] at hop
    obtain ⟨line, _, rfl⟩ := Option.map_eq_some_iff.mp hop
    rfl
  mem_order i := by
    simp only [ofLines_parentOf, ofLines_size]
    simp [ofLines]
  sorted := by
    have horder : (ofLines name displayName inputs functions lines).order =
        List.range lines.length := rfl
    rw [horder]
    refine List.pairwise_lt_range.imp fun {a b} h => ?_
    rw [Before, path_of_root (ofLines_parentOf name displayName inputs functions lines a),
      path_of_root (ofLines_parentOf name displayName inputs functions lines b)]
    exact .rel h

/-- A source has grown from itself. -/
theorem Grown.ofLines :
    Grown (ofLines name displayName inputs functions lines)
      (ofLines name displayName inputs functions lines) where
  frame := rfl
  forest := ofLines_forest ..
  derived k op _ hchild := by
    obtain ⟨j, hj⟩ := List.exists_mem_of_ne_nil _ hchild
    rw [mem_childIds, ofLines_parentOf] at hj
    cases hj
  rooted := ⟨fun _ _ => rfl, fun i hi => by simp [ofLines_parentOf, hi]⟩
  size_le := Nat.le_refl _

end

/-! ### Operations -/

section

variable {source p q : Program}

/-- What has grown from a source calls the same functions. -/
theorem Grown.callable_eq (h : Grown source p) : p.callable = source.callable := by
  rw [h.frame]
  rfl

/-- And it has got the same inputs. -/
theorem Grown.inputs_eq (h : Grown source p) : p.inputs = source.inputs := by
  rw [h.frame]

/-- A program that differs from another one in its arena and its order only. -/
private theorem frame_trans (hq : q = { p with arena := q.arena, order := q.order })
    (hp : p = { source with arena := p.arena, order := p.order }) :
    q = { source with arena := q.arena, order := q.order } := by
  rw [hq, hp]

/-- Whatever single steps an expansion consists of, it keeps what has grown. -/
theorem Grown.unfolds (h : Grown source p) {s : Supply}
    (hframe : q = { p with arena := q.arena, order := q.order })
    (hsteps : Relation.ReflTransGen (Unfolds p.callable) ⟨p.arena, p.order, Supply.ofProgram p⟩
      ⟨q.arena, q.order, s⟩) : Grown source q := by
  -- The forest, the derivations and the supply are kept together, step by step.
  have hvalid : Stage.Valid source.callable source.inputs
      ⟨p.arena, p.order, Supply.ofProgram p⟩ :=
    ⟨h.forest, h.derived, h.inputs_eq ▸ h.forest.covers_ofProgram (h.inputs_eq.symm ▸ h.derived)⟩
  rw [h.callable_eq] at hsteps
  have hvalid' := hvalid.steps hsteps
  have hrooted := Rooted.steps h.rooted h.size_le hsteps
  exact ⟨frame_trans hframe h.frame, hvalid'.forest, hvalid'.derived, hrooted.1, hrooted.2⟩

/-- Visible operations that give way keep what has grown. -/
theorem Grown.giveWay (h : Grown source p) {stand : Nat → Nat}
    (hs : Stands p.arena p.order stand) : Grown source (p.giveWay stand) := by
  obtain ⟨hrooted, hsize⟩ := h.rooted.giveWay h.forest hs h.size_le
  exact ⟨frame_trans (p := p) rfl h.frame, h.forest.giveWay hs, h.derived.giveWay h.forest hs,
    hrooted, hsize⟩

/-- The level is the largest layer of a visible operation. -/
theorem level_spec (p : Program) : (∀ op ∈ p.operations, op.layer ≤ p.level) ∧
    (p.level = 0 ∨ ∃ op ∈ p.operations, op.layer = p.level) := by
  have hbound := level_le_iff.mp (Nat.le_refl p.level)
  refine ⟨hbound, Classical.byContradiction fun hnone => ?_⟩
  -- If no operation were on that layer, a smaller layer would bound them all.
  rw [not_or, not_exists] at hnone
  have hsmaller : p.level ≤ p.level - 1 := level_le_iff.mpr fun op hop => by
    have := hbound op hop
    have hne : op.layer ≠ p.level := fun heq => hnone.2 op ⟨hop, heq⟩
    omega
  have := hnone.1
  omega

/-! ### Collapses -/

/-- An operation on the layer is replaced by its parent, if it has got one. -/
theorem parentOnLayer_eq {id : Nat} {op : Operation} (hop : p.arena[id]? = some op)
    (layer : Nat) :
    p.parentOnLayer layer id = if op.layer = layer then op.parent.getD id else id := by
  rw [parentOnLayer, operation?, hop]

/-- Below the parent of an operation that nothing is deeper than, only its children are visible. -/
theorem parentOf_of_deepest (hf : Forest p.arena p.order) {a b k : Nat} (hb : b ∈ p.order)
    (hdeep : (ancestors p.arena b).length ≤ (ancestors p.arena a).length)
    (ha : parentOf p.arena a = some k) (h : k ∈ lineage p.arena b) :
    parentOf p.arena b = some k := by
  have hd := hf.descending
  -- The parent has a child, so it is not visible itself.
  have hkb : k ≠ b := fun heq => ((hf.mem_order b).mp hb).2 a (heq ▸ ha)
  have hdepth : (ancestors p.arena a).length = (ancestors p.arena k).length + 1 := by
    rw [ancestors_of_parent _ _ _ ha (hd a k ha), List.length_cons]
  have hlt := length_ancestors_lt hd h hkb
  -- The other operation is below the same parent and no deeper, so nothing stands in between.
  cases hr : parentOf p.arena b with
  | none =>
    rw [ancestors_of_root _ _ hr] at hlt
    cases hlt
  | some r =>
    have hdepth' : (ancestors p.arena b).length = (ancestors p.arena r).length + 1 := by
      rw [ancestors_of_parent _ _ _ hr (hd b r hr), List.length_cons]
    have hkr := mem_lineage_parent hd hr h hkb
    by_contra hne
    have hlt' := length_ancestors_lt hd hkr fun heq => hne (by rw [heq])
    omega

/-- The deepest layer can give way: its operations have siblings of the same layer only. -/
theorem stands_parentOnLayer (hf : Forest p.arena p.order) :
    Stands p.arena p.order (p.parentOnLayer p.level) := by
  refine ⟨fun o ho => ?_, fun a ha b hb h => ?_⟩
  · -- What takes the place of an operation is the operation itself or its parent.
    obtain ⟨op, hop⟩ := hf.exists_entry ho
    rw [parentOnLayer_eq hop]
    split
    · cases hp : op.parent with
      | none => exact self_mem_lineage p.arena o
      | some k => exact parent_mem_lineage hf.descending ((parentOf_of_getElem? hop).trans hp)
    · exact self_mem_lineage p.arena o
  · -- Whatever is below the parent of an operation gives way to the same parent.
    obtain ⟨x, hx⟩ := hf.exists_entry ha
    obtain ⟨y, hy⟩ := hf.exists_entry hb
    have hself : a ∈ lineage p.arena b → p.parentOnLayer p.level b = p.parentOnLayer p.level a :=
      fun h => by rw [hf.eq_of_mem_lineage ha h]
    rw [parentOnLayer_eq hx] at h
    split at h
    · rename_i hlayer
      cases hk : x.parent with
      | none => exact hself (by rwa [hk] at h)
      | some k =>
        rw [hk, Option.getD_some] at h
        have hka := (parentOf_of_getElem? hx).trans hk
        have hxl := hf.layer_eq a x hx
        have hyl := hf.layer_eq b y hy
        have hle := p.level_spec.1 y (mem_operations.mpr ⟨b, hb, hy⟩)
        have hkb := parentOf_of_deepest hf hb (by omega) hka h
        -- Children of one entry are on one layer.
        have hdepth : (ancestors p.arena b).length = (ancestors p.arena a).length := by
          rw [ancestors_of_parent _ _ _ hka (hf.descending a k hka),
            ancestors_of_parent _ _ _ hkb (hf.descending b k hkb)]
        rw [parentOnLayer_eq hx, parentOnLayer_eq hy, if_pos hlayer, if_pos (by omega),
          (parentOf_of_getElem? hy).symm.trans hkb, hk, Option.getD_some, Option.getD_some]
    · exact hself h

/-- An ancestor can take the place of everything visible below it. -/
theorem stands_ancestor (hf : Forest p.arena p.order) (ancestor : Nat) :
    Stands p.arena p.order
      (fun candidate => if p.descends ancestor candidate then ancestor else candidate) := by
  refine ⟨fun o _ => ?_, fun a ha b _ h => ?_⟩
  · simp only [descends, List.contains_iff_mem]
    split
    · assumption
    · exact self_mem_lineage p.arena o
  · simp only [descends, List.contains_iff_mem] at h ⊢
    split at h
    · rename_i haa
      rw [if_pos h, if_pos haa]
    · rw [hf.eq_of_mem_lineage ha h]

/-- A collapse that succeeds lets the deepest layer give way. -/
theorem collapse_eq_ok (h : p.collapse = .ok q) :
    p.level ≠ 0 ∧ q = p.giveWay (p.parentOnLayer p.level) := by
  rw [collapse] at h
  split at h
  · cases h
  · rename_i hlevel
    exact ⟨hlevel, (Except.ok.inj h).symm⟩

/-- A collapse to an ancestor lets everything below that ancestor give way to it. -/
theorem collapseSingle_eq_ok {id levels : Nat} (h : p.collapseSingle id levels = .ok q) :
    ∃ ancestor, q = p.giveWay
      fun candidate => if p.descends ancestor candidate then ancestor else candidate := by
  rw [collapseSingle] at h
  split at h
  · cases h
  · simp only at h
    split at h
    · cases h
    · rename_i ancestor _
      exact ⟨ancestor, (Except.ok.inj h).symm⟩

/-- Everything that is reachable from a source has grown from it. -/
theorem Reachable.grown (h : Reachable source p) (hs : Grown source source) :
    Grown source p := by
  induction h with
  | refl => exact hs
  | expand _ h ih =>
    obtain ⟨s, hframe, hsteps⟩ := expand_unfolds _ _ _ h
    exact ih.unfolds hframe hsteps
  | expandSingle _ h ih =>
    obtain ⟨s, hframe, hsteps⟩ := expandSingle_unfolds _ _ _ _ h
    exact ih.unfolds hframe hsteps
  | collapse _ h ih =>
    obtain ⟨_, rfl⟩ := collapse_eq_ok h
    exact ih.giveWay (stands_parentOnLayer ih.forest)
  | collapseSingle _ h ih =>
    obtain ⟨ancestor, rfl⟩ := collapseSingle_eq_ok h
    exact ih.giveWay (stands_ancestor ih.forest ancestor)

end

end Program

end CounterMachine
