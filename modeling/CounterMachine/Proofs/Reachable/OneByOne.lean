import CounterMachine.Proofs.Reachable.Alike
import CounterMachine.Proofs.Reachable.Single

/-!
# Expanding operations one by one

A source can be expanded as a whole or one operation after the other, in any order, each as far as
its own degree goes. If no function calls itself, both come to the same. An operation whose degree
allows the levels gets as deep as the whole program does, and one whose degree is smaller gets
basic, so that there is nothing left to expand in it. Which of them fail does not depend on the
order either, since faults can be told without expanding anything.

## Key results

- `Program.Underway.step`, `Program.Underway.run`: what has been expanded is as deep as can be
- `Program.Underway.exists_run`: no operation fails if none has a fault
- `Program.expandEach_alike`: one by one or all at once
-/

namespace CounterMachine

namespace Program

/-- Expands operations of a source one after the other, each by a number of levels, or by its degree
if that is smaller. -/
def expandEach (source : Program) (levels : Nat) (ids : List Nat) : Except ExpansionError Program :=
  ids.foldlM (fun p id => p.expandSingle id (min levels (source.operationDegree id))) source

/-- On the way some operations of the source are still waiting, and everything else is expanded as
deep as the source as a whole. -/
structure Underway (source : Program) (levels : Nat) (waiting : List Nat) (p : Program) : Prop where
  reachable : Reachable source p
  untouched : ∀ i ∈ waiting, i ∈ source.order ∧ i ∈ p.order
  expanded : ∀ i ∈ p.order, i ∉ waiting → ∀ op, p.arena[i]? = some op →
    op.leaf.ExpandedTo (min levels source.degree)

section

variable {source p q : Program} {levels id : Nat} {ids waiting : List Nat}

/-- No visible operation has a higher degree than the program. -/
theorem operationDegree_le (p : Program) (id : Nat) (hid : id ∈ p.order) :
    p.operationDegree id ≤ p.degree := by
  unfold operationDegree
  split
  · rename_i op hop
    exact degree_le_degreeUnder (mem_operations.mpr ⟨id, hid, hop⟩)
  · exact Nat.zero_le _

/-- What an operation of a source is expanded to by itself is as deep as if the source was expanded
as a whole. -/
theorem expandedTo_of_sprouts (hsource : source.ExpandedTo 0) (hacyclic : source.callable.Acyclic)
    (hid : id ∈ source.order) {op : Operation} (hop : source.arena[id]? = some op)
    {out : List Leaf} {s s' : Supply}
    (h : Sprouts source.callable (min levels (source.operationDegree id)) [op.leaf] s out s') :
    ∀ leaf ∈ out, leaf.ExpandedTo (min levels source.degree) := by
  have hle := source.operationDegree_le id hid
  have hleaf : op.leaf.ExpandedTo 0 :=
    hsource op.leaf (List.mem_map_of_mem (mem_operations.mpr ⟨id, hid, hop⟩))
  have hto := h.expandedTo (n := 0) (by simpa using hleaf)
  rw [Nat.zero_add] at hto
  -- Either all the levels are there, as for the whole program, or the degree is used up.
  by_cases hlevels : levels ≤ source.operationDegree id
  · have heq : min levels (source.operationDegree id) = min levels source.degree := by omega
    rwa [heq] at hto
  · -- The degree is used up, so everything is basic.
    have hbasic := h.degree_le (n := 0)
      (fun _ _ hfind => Nat.le_of_eq (hacyclic.degrees_of hfind).symm) (by
        rw [List.forall_mem_singleton, Nat.zero_add, operationDegree_eq hop]
        show op.instruction.degree _ ≤ _
        rw [operationDegree_eq hop] at hlevels
        omega)
    intro leaf hleaf
    refine ⟨(hto leaf hleaf).layer_le.trans (by omega), .inl ?_⟩
    rw [Instruction.isBasic_iff_degree_eq_zero source.callable.degrees.of]
    exact Nat.le_zero.mp (hbasic leaf hleaf)

namespace Underway

variable (hs : Grown source source)
include hs

/-- What is waiting is as it is in the source. -/
theorem entry_eq (h : Underway source levels waiting p) (hid : id ∈ waiting) :
    p.arena[id]? = source.arena[id]? :=
  (h.reachable.grown hs).rooted.entry id (hs.forest.lt_size (h.untouched id hid).1)

/-- So it has the degree that it has in the source. -/
theorem operationDegree_eq (h : Underway source levels waiting p) (hid : id ∈ waiting) :
    p.operationDegree id = source.operationDegree id := by
  rw [operationDegree, operationDegree, operation?, operation?, h.entry_eq hs hid,
    (h.reachable.grown hs).callable_eq]

/-- One operation after the other. -/
theorem step (h : Underway source levels (id :: waiting) p) (hsource : source.ExpandedTo 0)
    (hacyclic : source.callable.Acyclic) (hid : id ∉ waiting)
    (hq : p.expandSingle id (min levels (source.operationDegree id)) = .ok q) :
    Underway source levels waiting q := by
  have hgrown := h.reachable.grown hs
  have hf := hgrown.forest
  obtain ⟨op, left, block, right, hexpanded⟩ :=
    expandSingle_expandedAt (fun i hi => hf.lt_size hi) hq
  refine ⟨.expandSingle h.reachable hq, fun i hi => ?_, fun i hi hnot x hx => ?_⟩
  · -- What is still waiting is another operation, which stays visible.
    obtain ⟨hisource, hip⟩ := h.untouched i (List.mem_cons_of_mem id hi)
    have hother := (hexpanded.mem_others hf).mpr ⟨hip, fun heq => hid (heq ▸ hi)⟩
    exact ⟨hisource, hexpanded.mem_order_after.mpr (.inr hother)⟩
  · rcases hexpanded.mem_order_after.mp hi with hi | hi
    · obtain ⟨s, hsprouts⟩ := hexpanded.sprouts
      rw [hgrown.callable_eq] at hsprouts
      have hop : source.arena[id]? = some op :=
        (h.entry_eq hs List.mem_cons_self).symm.trans hexpanded.entry
      refine expandedTo_of_sprouts hsource hacyclic (h.untouched id List.mem_cons_self).1 hop
        hsprouts x.leaf (List.mem_filterMap.mpr ⟨i, hi, ?_⟩)
      rw [hx]
      rfl
    · -- The others are as they were.
      obtain ⟨hip, hne⟩ := (hexpanded.mem_others hf).mp hi
      rw [hexpanded.kept i (hf.lt_size hip)] at hx
      exact h.expanded i hip (fun hmem => (List.mem_cons.mp hmem).elim hne hnot) x hx

/-- Until none is waiting. -/
theorem run (h : Underway source levels ids p) (hsource : source.ExpandedTo 0)
    (hacyclic : source.callable.Acyclic) (hnodup : ids.Nodup)
    (hq : ids.foldlM (fun p id => p.expandSingle id (min levels (source.operationDegree id))) p =
      .ok q) : Underway source levels [] q := by
  induction ids generalizing p with
  | nil =>
    cases hq
    exact h
  | cons id ids ih =>
    obtain ⟨hid, hnodup⟩ := List.nodup_cons.mp hnodup
    rw [List.foldlM_cons] at hq
    cases hr : p.expandSingle id (min levels (source.operationDegree id)) with
    | error e => rw [hr] at hq; cases hq
    | ok r =>
      rw [hr] at hq
      exact ih (h.step hs hsource hacyclic hid hr) hnodup hq

/-- No operation fails if none of what they come to has a fault. -/
theorem exists_run (h : Underway source levels ids p) (hsource : source.ExpandedTo 0)
    (hacyclic : source.callable.Acyclic) (hnodup : ids.Nodup)
    (hfault : ∀ id ∈ ids, ∀ op, source.arena[id]? = some op →
      firstFault source.callable (min levels (source.operationDegree id)) [op.instruction] = none) :
    ∃ q, ids.foldlM (fun p id => p.expandSingle id (min levels (source.operationDegree id))) p =
      .ok q := by
  induction ids generalizing p with
  | nil => exact ⟨p, rfl⟩
  | cons id ids ih =>
    obtain ⟨hid, hnodup⟩ := List.nodup_cons.mp hnodup
    obtain ⟨hfirst, hrest⟩ := List.forall_mem_cons.mp hfault
    have hgrown := h.reachable.grown hs
    have hf := hgrown.forest
    have hvisible : id ∈ p.order := (h.untouched id List.mem_cons_self).2
    obtain ⟨op, hop⟩ := hf.exists_entry hvisible
    have hle : min levels (source.operationDegree id) ≤ p.operationDegree id := by
      rw [h.operationDegree_eq hs List.mem_cons_self]
      exact Nat.min_le_right _ _
    -- It is not asked for more levels than the entry has, so only a fault of the entry stops it.
    have hnone := faultOf_expandSingle (fun i hi => hf.lt_size hi) hvisible hop hle
    rw [hgrown.callable_eq,
      hfirst op ((h.entry_eq hs List.mem_cons_self).symm.trans hop)] at hnone
    obtain ⟨r, hr⟩ := faultOf_eq_none.mp hnone
    obtain ⟨q, hq⟩ := ih (h.step hs hsource hacyclic hid hr) hnodup hrest
    rw [List.foldlM_cons, hr]
    exact ⟨q, hq⟩

end Underway

/-- Before the first operation is expanded, all are waiting. -/
theorem underway_refl (levels : Nat) (hids : ids.Perm source.order) :
    Underway source levels ids source where
  reachable := .refl
  untouched _ hi := ⟨hids.subset hi, hids.subset hi⟩
  expanded _ hi hnot := absurd (hids.symm.subset hi) hnot

/-- Where a source can be expanded as a whole, no operation has a fault on its own levels. -/
theorem firstFault_eq_none_of_expand (hp : ∀ i ∈ source.order, i < source.arena.size)
    (h : source.expand levels = .ok q) (hid : id ∈ source.order) {op : Operation}
    (hop : source.arena[id]? = some op) :
    firstFault source.callable (min levels (source.operationDegree id)) [op.instruction] =
      none := by
  have hnone := (source.faultOf_expand hp levels).symm.trans (faultOf_eq_none.mpr ⟨q, h⟩)
  have hle := source.operationDegree_le id hid
  -- The whole program is searched on more levels, and the operation is a part of it.
  refine firstFault_mono (by omega) (firstFault_of_subset (fun i hi => ?_) hnone)
  rw [List.mem_singleton.mp hi]
  exact List.mem_map_of_mem (mem_operations.mpr ⟨id, hid, hop⟩)

end

/-- If no function calls itself, the operations of a source can be expanded one after the other, in
any order, if and only if the source can be expanded as a whole by as many levels, and then the
visible operations differ in names that were handed out on the way and in nothing else. With
counters of 32 bits this is said of expansions that do not overflow (`expandChecked_cases`,
`expandSingleChecked_cases`). -/
theorem expandEach_alike (name : String) (displayName : Option String)
    (inputs : Option (List Variable)) (functions : Option (List Program)) (lines : List Line)
    (levels : Nat) (ids : List Nat) :
    let source := ofLines name displayName inputs functions lines
    source.callable.Acyclic → ids.Perm source.order →
    ((∃ p, source.expandEach levels ids = .ok p) ↔ ∃ q, source.expand levels = .ok q) ∧
    ∀ p q, source.expandEach levels ids = .ok p → source.expand levels = .ok q →
      Alike source p q := by
  intro source hacyclic hids
  have hw : WrittenDown source := ofLines_writtenDown ..
  have hs : Grown source source := hw.grown
  have hsource : source.ExpandedTo 0 := hw.expandedTo
  have hnodup : ids.Nodup := hids.nodup_iff.mpr hs.forest.nodup
  have hstart := underway_refl levels hids
  -- When none is waiting, everything is as deep as if the source was expanded as a whole.
  have halike : ∀ p, source.expandEach levels ids = .ok p →
      ∃ q, source.expand levels = .ok q ∧ Alike source p q := by
    intro p hp
    have hdone := hstart.run hs hsource hacyclic hnodup hp
    have hto : p.ExpandedTo (min levels source.degree) := by
      intro leaf hleaf
      obtain ⟨op, hop, rfl⟩ := List.mem_map.mp hleaf
      obtain ⟨i, hi, hentry⟩ := mem_operations.mp hop
      exact hdone.expanded i hi List.not_mem_nil op hentry
    obtain ⟨q, hq, hqp⟩ := (hdone.reachable.grown hs).exists_expand_alike
      (hdone.reachable.regular hs hw.regular) hto hw (Nat.min_le_right _ _)
    exact ⟨q, (expand_min levels).symm.trans hq, hqp⟩
  refine ⟨⟨fun ⟨p, hp⟩ => ?_, fun ⟨q, hq⟩ => ?_⟩, fun p q hp hq => ?_⟩
  · obtain ⟨q, hq, _⟩ := halike p hp
    exact ⟨q, hq⟩
  · exact hstart.exists_run hs hsource hacyclic hnodup fun id hid op hop =>
      firstFault_eq_none_of_expand hw.lt_size hq (hids.subset hid) hop
  · obtain ⟨q', hq', hqp⟩ := halike p hp
    obtain rfl : q = q' := Except.ok.inj (hq.symm.trans hq')
    exact hqp

/-- A call and a jump, of which the jump is expanded first. Its degree is less than the levels, and
it gets the labels that the call gets when all is expanded at once. -/
theorem expandEach_alike_call : ∃ p q,
    let source := ofLines "main" none none
      (some [ofLines "id" none none none [.plain (.assign .result (.input 1))]])
      [.plain (.quote .result ⟨"id", [.var (.input 1)]⟩), .plain (.jumpZero (.input 1) .exit)]
    source.callable.Acyclic ∧ [1, 0].Perm source.order ∧
    source.expandEach 3 [1, 0] = .ok p ∧ source.expand 3 = .ok q ∧
    p.operations.map (·.label) ≠ q.operations.map (·.label) ∧ Alike source p q := by
  obtain ⟨p, q, hp, hq, hlabels⟩ : ∃ p q,
      (ofLines "main" none none
        (some [ofLines "id" none none none [.plain (.assign .result (.input 1))]])
        [.plain (.quote .result ⟨"id", [.var (.input 1)]⟩),
          .plain (.jumpZero (.input 1) .exit)]).expandEach 3 [1, 0] = .ok p ∧
      (ofLines "main" none none
        (some [ofLines "id" none none none [.plain (.assign .result (.input 1))]])
        [.plain (.quote .result ⟨"id", [.var (.input 1)]⟩),
          .plain (.jumpZero (.input 1) .exit)]).expand 3 = .ok q ∧
      p.operations.map (·.label) ≠ q.operations.map (·.label) :=
    ⟨_, _, rfl, rfl, by decide +kernel⟩
  refine ⟨p, q, ?_⟩
  intro source
  have hacyclic : source.callable.Acyclic := by
    -- The function calls none, so it does not call itself.
    intro f hf
    obtain ⟨g, ⟨function, hfind, hg⟩, _⟩ := Relation.TransGen.head'_iff.mp hf
    rw [List.mem_singleton.mp (List.mem_of_find?_eq_some hfind)] at hg
    cases hg
  have hids : [1, 0].Perm source.order := by decide
  obtain ⟨_, halike⟩ := expandEach_alike "main" none none _ _ 3 [1, 0] hacyclic hids
  exact ⟨hacyclic, hids, hp, hq, hlabels, halike p q hp hq⟩

end Program

end CounterMachine
