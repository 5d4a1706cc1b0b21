import CounterMachine.Proofs.Reachable.Shape

/-!
# Fronts

A front is a list of entries of an arena below which everything visible stands, each operation below
one of them, and in the order of the list. The roots make up a front, a front in which an entry has
given way to its children is a front, and the front that consists of visible operations is the order
itself. Unlike the cuts, which are passed in the order of places, a front may give way anywhere.

## Key results

- `Forest.front_roots`, `Front.giveWay`, `Front.eq_order`: from the roots to what is visible
- `Front.notMem_lineage`: the entries of a front stand apart
-/

namespace CounterMachine

/-- What is visible below the entries of a list is what is visible, each operation once and from
left to right. -/
structure Front (p : Program) (ids : List Nat) : Prop where
  lt_size : ∀ i ∈ ids, i < p.arena.size
  visible : ids.flatMap p.visibleBelow = p.order

section

variable {p : Program} {ids left right : List Nat} {k : Nat}

/-- What is visible below an entry: the visible operations that have it above them or are it. -/
theorem mem_visibleBelow {o a : Nat} :
    o ∈ p.visibleBelow a ↔ o ∈ p.order ∧ a ∈ lineage p.arena o := by
  rw [Program.visibleBelow, List.mem_filter, Program.descends, List.contains_iff_mem]

variable (hf : Forest p.arena p.order)
include hf

/-- It is read from left to right. -/
theorem Forest.sorted_visibleBelow (a : Nat) : (p.visibleBelow a).Pairwise (Before p.arena) :=
  hf.sorted.filter _

/-- Below a visible operation only itself is visible. -/
theorem Forest.visibleBelow_of_mem_order (hk : k ∈ p.order) : p.visibleBelow k = [k] := by
  refine eq_of_sorted (hf.sorted_visibleBelow k) (List.pairwise_singleton _ _) fun o => ?_
  rw [mem_visibleBelow, List.mem_singleton]
  -- A visible operation is above itself only.
  constructor
  · exact fun ⟨_, h⟩ => (hf.eq_of_mem_lineage hk h).symm
  · rintro rfl
    exact ⟨hk, self_mem_lineage _ _⟩

/-- Below entries with one parent, what is visible is read in the order of their places. -/
theorem Forest.sorted_flatMap_siblings {parent : Option Nat} (hids : ids.Pairwise (· < ·))
    (hparent : ∀ i ∈ ids, parentOf p.arena i = parent) :
    (ids.flatMap p.visibleBelow).Pairwise (Before p.arena) := by
  have hd := hf.descending
  rw [List.pairwise_flatMap]
  refine ⟨fun i _ => hf.sorted_visibleBelow i, hids.imp_of_mem fun {a b} ha hb hlt u hu v hv => ?_⟩
  have hsame : parentOf p.arena a = parentOf p.arena b := (hparent a ha).trans (hparent b hb).symm
  exact before_of_lineage hd (before_of_siblings hd hsame hlt)
    (notMem_lineage_of_siblings hd hsame hlt) (mem_visibleBelow.mp hu).2 (mem_visibleBelow.mp hv).2

/-- What is visible below an entry with children is visible below the children. -/
theorem Forest.visibleBelow_eq_flatMap (hchild : childIds p.arena k ≠ []) :
    p.visibleBelow k = (childIds p.arena k).flatMap p.visibleBelow := by
  have hd := hf.descending
  refine eq_of_sorted (hf.sorted_visibleBelow k)
    (hf.sorted_flatMap_siblings (childIds_pairwise p.arena k) fun i hi => mem_childIds.mp hi)
    fun o => ?_
  simp only [List.mem_flatMap, mem_visibleBelow, mem_childIds]
  constructor
  · rintro ⟨ho, hk⟩
    -- An entry with children is not visible, so something stands between.
    have hne : k ≠ o := by
      rintro rfl
      exact hchild (hf.childIds_eq_nil ho)
    obtain ⟨c, hc, hco⟩ := exists_child_of_mem_lineage hd hk hne
    exact ⟨c, hc, ho, hco⟩
  · rintro ⟨c, hc, ho, hco⟩
    exact ⟨ho, mem_lineage_trans hd (parent_mem_lineage hd hc) hco⟩

/-- The roots are a front. -/
theorem Forest.front_roots :
    Front p ((List.range p.arena.size).filter fun i => parentOf p.arena i = none) where
  lt_size i hi := List.mem_range.mp (List.mem_filter.mp hi).1
  visible := by
    refine eq_of_sorted (hf.sorted_flatMap_siblings (List.pairwise_lt_range.filter _)
      fun i hi => of_decide_eq_true (List.mem_filter.mp hi).2) hf.sorted fun o => ?_
    simp only [List.mem_flatMap, mem_visibleBelow, List.mem_filter, List.mem_range,
      decide_eq_true_eq]
    constructor
    · exact fun ⟨_, _, ho, _⟩ => ho
    · intro ho
      obtain ⟨root, hroot, hmem⟩ := exists_root_mem_lineage hf.descending o
      exact ⟨root, ⟨Forest.lt_size_of_mem_lineage (hf.lt_size ho) hmem, hroot⟩, ho, hmem⟩

/-- In a front an entry with children gives way to them. -/
theorem Front.giveWay (h : Front p (left ++ k :: right)) (hchild : childIds p.arena k ≠ []) :
    Front p (left ++ childIds p.arena k ++ right) where
  lt_size i hi := by
    simp only [List.mem_append] at hi
    rcases hi with (hi | hi) | hi
    · exact h.lt_size i (by simp [hi])
    · exact lt_size_of_mem_childIds hi
    · exact h.lt_size i (by simp [hi])
  visible := by
    -- The same is visible below the children as was below the entry.
    rw [← h.visible]
    simp only [List.flatMap_append, List.flatMap_cons, hf.visibleBelow_eq_flatMap hchild,
      List.append_assoc]

/-- Nothing else in a front stands below an entry of it. -/
theorem Front.notMem_lineage (h : Front p (left ++ k :: right)) {j : Nat}
    (hj : j ∈ left ++ right) : k ∉ lineage p.arena j := by
  intro hk
  -- What is visible below both would be visible twice.
  obtain ⟨o, ho, hjo⟩ := hf.exists_visible (h.lt_size j (by simp at hj ⊢; tauto))
  have hok : o ∈ p.visibleBelow k := mem_visibleBelow.mpr
    ⟨ho, mem_lineage_trans hf.descending hk hjo⟩
  have hoj : o ∈ p.visibleBelow j := mem_visibleBelow.mpr ⟨ho, hjo⟩
  have hnodup := hf.nodup
  rw [← h.visible, List.flatMap_append, List.flatMap_cons, List.nodup_append,
    List.nodup_append] at hnodup
  obtain ⟨_, ⟨_, _, hkr⟩, hlk⟩ := hnodup
  rcases List.mem_append.mp hj with hj | hj
  · exact hlk o (List.mem_flatMap.mpr ⟨j, hj, hoj⟩) o (List.mem_append_left _ hok) rfl
  · exact hkr o hok o (List.mem_flatMap.mpr ⟨j, hj, hoj⟩) rfl

/-- The front of visible operations is the order. -/
theorem Front.eq_order (h : Front p ids) (hids : ∀ i ∈ ids, i ∈ p.order) : ids = p.order := by
  have hself : ids.flatMap p.visibleBelow = ids.flatMap fun i => [i] :=
    List.flatMap_congr fun i hi => hf.visibleBelow_of_mem_order (hids i hi)
  rw [← h.visible, hself, List.flatMap_singleton']

end

end CounterMachine
