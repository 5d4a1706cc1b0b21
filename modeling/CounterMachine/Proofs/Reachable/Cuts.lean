import CounterMachine.Proofs.Reachable.Derivation
import CounterMachine.Proofs.Reachable.Pruning

/-!
# Cuts through an arena

Between the source operations and the visible ones lie the cuts through the arena: the entries
below some place have given way to their children, and the others have not. The first cut is the
source, the last one is what is visible, and from each cut to the next one at most one entry is
replaced, by the lines that it was lowered to.

## Key results

- `Cut.roots`, `Cut.eq_order`: the first cut and the last one
- `Cut.stay`, `Cut.giveWay`: from one cut to the next one
-/

namespace CounterMachine

/-- The entries that are read, from left to right, when those below the place `k` have given way to
their children. -/
structure Cut (arena : Array Operation) (k : Nat) (ids : List Nat) : Prop where
  mem_iff : ∀ i, i ∈ ids ↔ i < arena.size ∧ (∀ p, parentOf arena i = some p → p < k) ∧
    (k ≤ i ∨ childIds arena i = [])
  sorted : ids.Pairwise (Before arena)

namespace Cut

variable {arena : Array Operation} {order ids left right : List Nat} {k : Nat}

/-- The first cut consists of the roots. -/
theorem roots (arena : Array Operation) :
    Cut arena 0 ((List.range arena.size).filter fun i => parentOf arena i = none) where
  mem_iff i := by
    simp only [List.mem_filter, List.mem_range, decide_eq_true_eq, Nat.zero_le, true_or, and_true,
      Nat.not_lt_zero, imp_false, and_congr_right_iff]
    exact fun _ => Option.eq_none_iff_forall_ne_some
  sorted := by
    rw [List.pairwise_filter]
    refine List.pairwise_lt_range.imp fun {a b} hlt ha hb => ?_
    simp only [decide_eq_true_eq] at ha hb
    rw [Before, path_of_root ha, path_of_root hb]
    exact .rel hlt

/-- The last cut is what is visible. -/
theorem eq_order (h : Cut arena arena.size ids) (hf : Forest arena order) : ids = order := by
  have hmem : ∀ i, i ∈ ids ↔ i < arena.size ∧ ∀ j, parentOf arena j ≠ some i := by
    intro i
    rw [h.mem_iff]
    refine and_congr_right fun hi => ?_
    have hparent : ∀ p, parentOf arena i = some p → p < arena.size := fun p hp =>
      Nat.lt_trans (hf.descending i p hp) hi
    simp only [Nat.not_le_of_lt hi, false_or, List.eq_nil_iff_forall_not_mem, mem_childIds, ne_eq]
    exact and_iff_right hparent
  -- No entry is left whose turn is still to come, so the cut consists of the leaves.
  have hf' : Forest arena ids := { hf with sorted := h.sorted, mem_order := hmem }
  exact hf'.order_unique hf

variable (hd : Descending arena)
include hd

/-- The entry whose turn it is belongs to the cut. -/
theorem mem_self (h : Cut arena k ids) (hk : k < arena.size) : k ∈ ids :=
  (h.mem_iff k).mpr ⟨hk, fun p hp => hd k p hp, .inl (Nat.le_refl k)⟩

/-- Nothing else in the cut stands below that entry. -/
theorem notMem_ancestors (h : Cut arena k ids) {j : Nat} (hj : j ∈ ids) :
    k ∉ ancestors arena j := by
  intro hk
  cases hp : parentOf arena j with
  | none => rw [ancestors_of_root _ _ hp] at hk; cases hk
  | some p =>
    rw [ancestors_of_parent _ _ _ hp (hd j p hp)] at hk
    have hle : k ≤ p := le_of_mem_lineage hk
    have hlt := ((h.mem_iff j).mp hj).2.1 p hp
    omega

/-- Nor does it stand below anything else in the cut. -/
theorem notMem_lineage (h : Cut arena k ids) {i : Nat} (hi : i ∈ ids) (hne : i ≠ k) :
    i ∉ lineage arena k := by
  intro hmem
  -- An entry above it has a smaller place and a child, so its turn has come.
  obtain ⟨c, hc, _⟩ := exists_child_of_mem_lineage hd hmem hne
  have hle := le_of_mem_lineage hmem
  rcases ((h.mem_iff i).mp hi).2.2 with hge | hleaf
  · omega
  · exact List.not_mem_nil (hleaf ▸ mem_childIds.mpr hc)

omit hd in
/-- An entry without children stays. -/
theorem stay (h : Cut arena k ids) (hleaf : childIds arena k = []) : Cut arena (k + 1) ids where
  mem_iff i := by
    rw [h.mem_iff]
    -- Nobody has the entry as its parent, so nobody else comes in.
    refine and_congr_right fun _ => and_congr ⟨fun hp p hpi => ?_, fun hp p hpi => ?_⟩ ⟨?_, ?_⟩
    · have := hp p hpi
      omega
    · have hne : p ≠ k := by
        rintro rfl
        exact List.not_mem_nil (hleaf ▸ mem_childIds.mpr hpi)
      have := hp p hpi
      omega
    · rintro (hk | hi)
      · rcases Nat.lt_or_eq_of_le hk with hlt | rfl
        · exact .inl hlt
        · exact .inr hleaf
      · exact .inr hi
    · exact Or.imp_left Nat.le_of_succ_le
  sorted := h.sorted

omit hd in
/-- The rest of a cut, without the entry whose turn it is. -/
theorem mem_of_mem_rest (h : Cut arena k (left ++ k :: right)) {i : Nat}
    (hi : i ∈ left ++ right) : i ∈ left ++ k :: right ∧ i ≠ k := by
  obtain ⟨_, hright, hlr⟩ := List.pairwise_append.mp h.sorted
  constructor
  · simp only [List.mem_append, List.mem_cons] at hi ⊢
    exact hi.imp_right .inr
  · rintro rfl
    rcases List.mem_append.mp hi with hi | hi
    · exact before_irrefl i (hlr i hi i List.mem_cons_self)
    · exact before_irrefl i ((List.pairwise_cons.mp hright).1 i hi)

/-- What a cut consists of when an entry has given way to its children. -/
theorem mem_giveWay (h : Cut arena k (left ++ k :: right)) (hchild : childIds arena k ≠ [])
    (i : Nat) : i ∈ left ++ childIds arena k ++ right ↔ i < arena.size ∧
      (∀ p, parentOf arena i = some p → p < k + 1) ∧ (k + 1 ≤ i ∨ childIds arena i = []) := by
  rw [List.append_assoc, List.mem_append, List.mem_append]
  constructor
  · intro hi
    -- What was in the cut besides the entry stays in it.
    have hrest : i ∈ left ++ right → i < arena.size ∧
        (∀ p, parentOf arena i = some p → p < k + 1) ∧ (k + 1 ≤ i ∨ childIds arena i = []) := by
      intro hi
      obtain ⟨hmem, hik⟩ := h.mem_of_mem_rest hi
      obtain ⟨hsize, hparent, hrest⟩ := (h.mem_iff i).mp hmem
      exact ⟨hsize, fun p hp => Nat.lt_succ_of_lt (hparent p hp),
        hrest.imp_left fun hle => by omega⟩
    rcases hi with hi | hi | hi
    · exact hrest (List.mem_append_left _ hi)
    · have hp := mem_childIds.mp hi
      refine ⟨lt_size_of_parentOf hp, fun p hp' => ?_, .inl (hd i k hp)⟩
      rw [hp] at hp'
      cases hp'
      exact Nat.lt_succ_self k
    · exact hrest (List.mem_append_right _ hi)
  · rintro ⟨hsize, hparent, hi⟩
    by_cases hp : parentOf arena i = some k
    · exact .inr (.inl (mem_childIds.mpr hp))
    · -- Everything else was in the cut before.
      have hik : i ≠ k := by
        rintro rfl
        exact hi.elim (Nat.not_succ_le_self i) hchild
      have hold : i ∈ left ++ k :: right := by
        refine (h.mem_iff i).mpr ⟨hsize, fun p hp' => ?_, hi.imp_left Nat.le_of_succ_le⟩
        have hlt := hparent p hp'
        have hpk : p ≠ k := fun heq => hp (heq ▸ hp')
        omega
      rcases List.mem_append.mp hold with hi | hi
      · exact .inl hi
      · exact .inr (.inr ((List.mem_cons.mp hi).resolve_left hik))

/-- The children are read where their parent was read. -/
theorem sorted_giveWay (h : Cut arena k (left ++ k :: right)) :
    (left ++ childIds arena k ++ right).Pairwise (Before arena) := by
  -- The others are neither above the entry nor below it.
  refine sorted_replace hd h.sorted ?_ (fun c hc => ?_) (fun i hi => ?_) fun j hj hk => ?_
  · exact (childIds_pairwise arena k).imp_of_mem fun ha hb hlt =>
      before_of_siblings hd ((mem_childIds.mp ha).trans (mem_childIds.mp hb).symm) hlt
  · exact parent_mem_lineage hd (mem_childIds.mp hc)
  · obtain ⟨hmem, hik⟩ := h.mem_of_mem_rest (List.mem_append_left right hi)
    exact h.notMem_lineage hd hmem hik
  · obtain ⟨hmem, hjk⟩ := h.mem_of_mem_rest (List.mem_append_right left hj)
    exact (List.mem_cons.mp hk).elim (fun heq => hjk heq.symm) (h.notMem_ancestors hd hmem)

/-- An entry with children gives way to them. -/
theorem giveWay (h : Cut arena k (left ++ k :: right)) (hchild : childIds arena k ≠ []) :
    Cut arena (k + 1) (left ++ childIds arena k ++ right) :=
  ⟨h.mem_giveWay hd hchild, h.sorted_giveWay hd⟩

end Cut

end CounterMachine
