import CounterMachine.Proofs.Forest.Path
import Mathlib.Data.List.Sort

/-!
# Forests

The arena of a program is a forest: its source operations are the roots, and what was written for
an operation are the children of that operation. The visible operations are the leaves, read from
left to right. `Forest arena order` says so, and everything about the shape of a program follows
from it.

## Key results

- `Forest.exists_visible`: below every entry something is visible
- `Forest.eq_of_mem_lineage`: nothing stands below a visible operation
- `Forest.order_unique`: the arena determines the order
- `Forest.block`, `Forest.sibling_blocks`: what is visible below an entry stands together, and
  siblings stand in the order of their places
-/

namespace CounterMachine

/-- The entries of an arena form a forest whose leaves, from left to right, are `order`. -/
structure Forest (arena : Array Operation) (order : List Nat) : Prop where
  id_eq : ∀ (i : Nat) (op : Operation), arena[i]? = some op → op.id = i
  descending : Descending arena
  layer_eq : ∀ (i : Nat) (op : Operation), arena[i]? = some op →
    op.layer = (ancestors arena i).length
  mem_order : ∀ i, i ∈ order ↔ i < arena.size ∧ ∀ j, parentOf arena j ≠ some i
  sorted : order.Pairwise (Before arena)

/-- Only an entry has a parent. -/
theorem lt_size_of_parentOf {arena : Array Operation} {j p : Nat}
    (h : parentOf arena j = some p) : j < arena.size := by
  obtain ⟨op, hop, _⟩ := Option.bind_eq_some_iff.mp h
  exact (Array.getElem?_eq_some_iff.mp hop).1

/-- The parent of an entry is the one that it names. -/
theorem parentOf_of_getElem? {arena : Array Operation} {i : Nat} {op : Operation}
    (h : arena[i]? = some op) : parentOf arena i = op.parent := by
  simp [parentOf, h]

/-- Lists of places that are read from left to right are equal if they have the same places. -/
theorem eq_of_sorted {arena : Array Operation} {xs ys : List Nat}
    (hxs : xs.Pairwise (Before arena)) (hys : ys.Pairwise (Before arena))
    (h : ∀ o, o ∈ xs ↔ o ∈ ys) : xs = ys := by
  have : Std.Irrefl (Before arena) := ⟨before_irrefl⟩
  have : Std.Antisymm (Before arena) := ⟨fun _ _ h h' => absurd h' h.asymm⟩
  exact hxs.eq_of_mem_iff hys fun {o} => h o

namespace Forest

variable {arena : Array Operation} {order : List Nat}

/-- What is visible is an entry. -/
theorem lt_size (hf : Forest arena order) {i : Nat} (h : i ∈ order) : i < arena.size :=
  ((hf.mem_order i).mp h).1

/-- The order leads to entries. -/
theorem exists_entry (hf : Forest arena order) {i : Nat} (h : i ∈ order) :
    ∃ op, arena[i]? = some op :=
  ⟨_, Array.getElem?_eq_getElem (hf.lt_size h)⟩

/-- Nothing is visible twice. -/
theorem nodup (hf : Forest arena order) : order.Nodup :=
  hf.sorted.imp fun {a b} (hab : Before arena a b) (hne : a = b) => before_irrefl b (hne ▸ hab)

/-- An entry is one layer below its parent. -/
theorem layer_of_parent (hf : Forest arena order) {i k : Nat} {op : Operation}
    (hop : arena[i]? = some op) (hk : op.parent = some k) :
    k < i ∧ ∃ parent, arena[k]? = some parent ∧ op.layer = parent.layer + 1 := by
  have hp := (parentOf_of_getElem? hop).trans hk
  have hlt := hf.descending i k hp
  have hsize := (Array.getElem?_eq_some_iff.mp hop).1
  have hparent : arena[k]? = some arena[k] := Array.getElem?_eq_getElem (by omega)
  refine ⟨hlt, arena[k], hparent, ?_⟩
  rw [hf.layer_eq i op hop, hf.layer_eq k _ hparent, ancestors_of_parent _ _ _ hp hlt,
    List.length_cons]

/-- A visible operation has no parent link to it. -/
theorem eq_of_mem_lineage (hf : Forest arena order) {o x : Nat} (ho : o ∈ order)
    (h : o ∈ lineage arena x) : o = x := by
  by_contra hne
  obtain ⟨k, hk, _⟩ := exists_child_of_mem_lineage hf.descending h hne
  exact ((hf.mem_order o).mp ho).2 k hk

/-- An entry that is not visible has a child. -/
theorem exists_child (hf : Forest arena order) {i : Nat} (hi : i < arena.size) (h : i ∉ order) :
    ∃ j, parentOf arena j = some i := by
  by_contra hno
  exact h ((hf.mem_order i).mpr ⟨hi, fun j hj => hno ⟨j, hj⟩⟩)

/-- Below every entry something is visible. -/
theorem exists_visible (hf : Forest arena order) {i : Nat} (hi : i < arena.size) :
    ∃ o ∈ order, i ∈ lineage arena o := by
  -- The places below an entry are larger, and there are only `arena.size` of them.
  induction hn : arena.size - i using Nat.strongRecOn generalizing i with
  | ind n ih =>
    by_cases h : i ∈ order
    · exact ⟨i, h, self_mem_lineage arena i⟩
    · obtain ⟨j, hj⟩ := hf.exists_child hi h
      have hlt := hf.descending j i hj
      have hj' := lt_size_of_parentOf hj
      obtain ⟨o, ho, hjo⟩ := ih (arena.size - j) (by omega) hj' rfl
      exact ⟨o, ho, mem_lineage_trans hf.descending (parent_mem_lineage hf.descending hj) hjo⟩

/-- The ancestors of an entry are entries. -/
theorem lt_size_of_mem_lineage {a i : Nat} (hi : i < arena.size) (h : a ∈ lineage arena i) :
    a < arena.size :=
  Nat.lt_of_le_of_lt (le_of_mem_lineage h) hi

/-- The arena determines which operations are visible, and their order. -/
theorem order_unique {order' : List Nat} (hf : Forest arena order) (hf' : Forest arena order') :
    order = order' :=
  eq_of_sorted hf.sorted hf'.sorted fun i => (hf.mem_order i).trans (hf'.mem_order i).symm

end Forest

/-! ### Blocks of a sorted list -/

section

variable {α : Type} {r : α → α → Prop} {q : α → Bool}

/-- What satisfies a convex predicate follows an element that does without a gap. -/
private theorem exists_eq_filter_append {x : α} {xs : List α} (hs : (x :: xs).Pairwise r)
    (hx : q x) (hq : ∀ u v w, q u → q w → r u v → r v w → q v) :
    ∃ rest, xs = xs.filter q ++ rest := by
  induction xs generalizing x with
  | nil => exact ⟨[], rfl⟩
  | cons y ys ih =>
    obtain ⟨hxy, hys⟩ := List.pairwise_cons.mp hs
    by_cases hy : q y
    · obtain ⟨rest, hrest⟩ := ih hys hy
      refine ⟨rest, ?_⟩
      rw [List.filter_cons_of_pos hy, List.cons_append, ← hrest]
    · -- Nothing after `y` satisfies `q`, or `y` would stand between two elements that do.
      have hnone : ys.filter q = [] := by
        rw [List.filter_eq_nil_iff]
        intro w hw hqw
        exact hy (hq x y w hx hqw (hxy y List.mem_cons_self) ((List.pairwise_cons.mp hys).1 w hw))
      exact ⟨y :: ys, by rw [List.filter_cons_of_neg hy, hnone, List.nil_append]⟩

/-- The elements of a sorted list that satisfy a convex predicate stand together. -/
theorem exists_block {xs : List α} (hs : xs.Pairwise r)
    (hq : ∀ u v w, q u → q w → r u v → r v w → q v) :
    ∃ left right, xs = left ++ xs.filter q ++ right := by
  induction xs with
  | nil => exact ⟨[], [], rfl⟩
  | cons x xs ih =>
    by_cases hx : q x
    · obtain ⟨rest, hrest⟩ := exists_eq_filter_append hs hx hq
      refine ⟨[], rest, ?_⟩
      rw [List.filter_cons_of_pos hx, List.nil_append, List.cons_append, ← hrest]
    · obtain ⟨left, right, hxs⟩ := ih (List.pairwise_cons.mp hs).2
      refine ⟨x :: left, right, ?_⟩
      rw [List.filter_cons_of_neg hx, List.cons_append, List.cons_append, ← hxs]

/-- Two such blocks, of which one stands before the other. -/
theorem exists_two_blocks {q' : α → Bool} {xs : List α} (hs : xs.Pairwise r)
    (hr : ∀ u v, r u v → ¬ r v u)
    (hq : ∀ u v w, q u → q w → r u v → r v w → q v)
    (hq' : ∀ u v w, q' u → q' w → r u v → r v w → q' v)
    (hne : xs.filter q ≠ []) (hlt : ∀ u v, q u → q' v → r u v) :
    ∃ left middle right, xs = left ++ xs.filter q ++ middle ++ xs.filter q' ++ right := by
  obtain ⟨left, rest, hxs⟩ := exists_block hs hq
  obtain ⟨u, us, hu⟩ := List.exists_cons_of_ne_nil hne
  have hqu : q u := (List.mem_filter.mp (hu ▸ List.mem_cons_self : u ∈ xs.filter q)).2
  have hirr : ∀ u, ¬ r u u := fun u h => hr u u h h
  -- The elements of the second block are neither left of the first block nor in it.
  have hfilter : xs.filter q' = rest.filter q' := by
    conv => lhs; rw [hxs]
    rw [List.filter_append, List.filter_append]
    have hl : left.filter q' = [] := by
      rw [List.filter_eq_nil_iff]
      intro v hv hqv
      rw [hxs, hu, List.append_assoc] at hs
      exact hr v u ((List.pairwise_append.mp hs).2.2 v hv u (by simp)) (hlt u v hqu hqv)
    have hm : (xs.filter q).filter q' = [] := by
      rw [List.filter_eq_nil_iff]
      intro v hv hqv
      exact hirr v (hlt v v (List.mem_filter.mp hv).2 hqv)
    rw [hl, hm, List.nil_append, List.nil_append]
  have hsr : rest.Pairwise r := by
    rw [hxs] at hs
    exact (List.pairwise_append.mp hs).2.1
  -- So the second block is found in what follows the first one.
  obtain ⟨middle, right, hrest⟩ := exists_block hsr hq'
  refine ⟨left, middle, right, ?_⟩
  calc xs = left ++ xs.filter q ++ rest := hxs
    _ = left ++ xs.filter q ++ (middle ++ rest.filter q' ++ right) := by rw [← hrest]
    _ = left ++ xs.filter q ++ middle ++ xs.filter q' ++ right := by
      rw [hfilter]; simp only [List.append_assoc]

end

namespace Forest

variable {arena : Array Operation} {order : List Nat}

/-- The entries below `a` are read without a gap. -/
private theorem convex_lineage (hf : Forest arena order) (a : Nat) (u v w : Nat)
    (hu : (lineage arena u).contains a) (hw : (lineage arena w).contains a)
    (huv : Before arena u v) (hvw : Before arena v w) : (lineage arena v).contains a := by
  rw [List.contains_iff_mem] at hu hw ⊢
  exact mem_lineage_of_between hf.descending hu hw huv hvw

/-- Something is visible below every entry. -/
theorem filter_lineage_ne_nil (hf : Forest arena order) {a : Nat} (ha : a < arena.size) :
    order.filter (fun o => (lineage arena o).contains a) ≠ [] := by
  obtain ⟨o, ho, hao⟩ := hf.exists_visible ha
  exact List.ne_nil_of_mem (List.mem_filter.mpr ⟨ho, List.contains_iff_mem.mpr hao⟩)

/-- What is visible below an entry stands together. -/
theorem block (hf : Forest arena order) (a : Nat) :
    ∃ left right, order =
      left ++ order.filter (fun o => (lineage arena o).contains a) ++ right :=
  exists_block hf.sorted (hf.convex_lineage a)

/-- What is visible below siblings stands in the order of the siblings' places. -/
theorem sibling_blocks (hf : Forest arena order) {a b : Nat} (ha : a < arena.size)
    (h : parentOf arena a = parentOf arena b) (hlt : a < b) :
    ∃ left middle right, order =
      left ++ order.filter (fun o => (lineage arena o).contains a) ++ middle ++
        order.filter (fun o => (lineage arena o).contains b) ++ right := by
  refine exists_two_blocks hf.sorted (fun _ _ h => h.asymm) (hf.convex_lineage a)
    (hf.convex_lineage b) (hf.filter_lineage_ne_nil ha) ?_
  intro u v hu hv
  rw [List.contains_iff_mem] at hu hv
  -- Siblings are read in the order of their places, and so is what stands below them.
  exact before_of_lineage hf.descending (before_of_siblings hf.descending h hlt)
    (notMem_lineage_of_siblings hf.descending h hlt) hu hv

end Forest

end CounterMachine
