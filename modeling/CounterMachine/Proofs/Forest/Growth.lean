import CounterMachine.Expansion.Expand
import CounterMachine.Proofs.Forest.Basic
import CounterMachine.Proofs.Lowering.Uses

/-!
# Growing a forest

An expansion puts new entries at the end of the arena, as children of one visible operation, which
they replace in the order. `Forest.grow` says that a forest stays a forest.
-/

namespace CounterMachine

/-- The arena with lines added as children of an operation. -/
def withChildren (arena : Array Operation) (op : Operation) (lines : List Line) :
    Array Operation :=
  lines.foldl (Growth.addChild op) arena

/-- The entry that a line becomes as a child of an operation. -/
def childOf (op : Operation) (id : Nat) (line : Line) : Operation :=
  { id, label := line.label, instruction := line.instruction,
    cycles := line.instruction.cycles, parent := some op.id, layer := op.layer + 1 }

section

variable (arena : Array Operation) (op : Operation) (lines : List Line)

/-- The children stand behind the entries that were there, each with the place that it gets. -/
theorem toList_withChildren :
    (withChildren arena op lines).toList =
      arena.toList ++ lines.mapIdx fun i line => childOf op (arena.size + i) line := by
  induction lines generalizing arena with
  | nil => simp [withChildren]
  | cons line lines ih =>
    -- The first line is added to the arena, and the others to what it is then.
    have hstep : withChildren arena op (line :: lines) =
        withChildren (Growth.addChild op arena line) op lines := rfl
    rw [hstep, ih, List.mapIdx_cons]
    simp only [Growth.addChild, Array.toList_push, List.append_assoc, Array.size_push,
      List.cons_append, List.nil_append]
    congr 2
    exact congrArg (List.mapIdx · lines) (funext fun i => by rw [Nat.add_assoc, Nat.add_comm 1 i])

/-- There is one more entry for each line. -/
@[simp] theorem size_withChildren :
    (withChildren arena op lines).size = arena.size + lines.length := by
  rw [← Array.length_toList, toList_withChildren, List.length_append, List.length_mapIdx,
    Array.length_toList]

/-- Entries stay where they are. -/
theorem getElem?_withChildren_lt {i : Nat} (h : i < arena.size) :
    (withChildren arena op lines)[i]? = arena[i]? := by
  rw [← Array.getElem?_toList, toList_withChildren,
    List.getElem?_append_left (by rwa [Array.length_toList]), Array.getElem?_toList]

/-- The children follow in the order of the lines. -/
theorem getElem?_withChildren_add (k : Nat) :
    (withChildren arena op lines)[arena.size + k]? =
      lines[k]?.map (childOf op (arena.size + k)) := by
  rw [← Array.getElem?_toList, toList_withChildren,
    List.getElem?_append_right (by rw [Array.length_toList]; omega), List.getElem?_mapIdx,
    Array.length_toList, Nat.add_sub_cancel_left]

/-- The children know their places, if the entries do. -/
theorem id_eq_withChildren (hid : ∀ (i : Nat) (x : Operation), arena[i]? = some x → x.id = i)
    {i : Nat} {x : Operation} (hx : (withChildren arena op lines)[i]? = some x) : x.id = i := by
  by_cases hi : i < arena.size
  · rw [getElem?_withChildren_lt arena op lines hi] at hx
    exact hid i x hx
  · obtain ⟨k, rfl⟩ := Nat.exists_eq_add_of_le (Nat.le_of_not_lt hi)
    rw [getElem?_withChildren_add] at hx
    obtain ⟨line, _, rfl⟩ := Option.map_eq_some_iff.mp hx
    rfl

/-- The entries that were there keep their parents. -/
theorem parentOf_withChildren_lt {i : Nat} (h : i < arena.size) :
    parentOf (withChildren arena op lines) i = parentOf arena i := by
  rw [parentOf, getElem?_withChildren_lt arena op lines h, parentOf]

/-- The operation is the parent of its children. -/
theorem parentOf_withChildren_ge {i : Nat} (h : arena.size ≤ i)
    (hlt : i < arena.size + lines.length) :
    parentOf (withChildren arena op lines) i = some op.id := by
  obtain ⟨k, rfl⟩ := Nat.exists_eq_add_of_le h
  rw [parentOf, getElem?_withChildren_add, List.getElem?_eq_getElem (by omega)]
  rfl

/-- What is above an entry that was there stays the same. -/
theorem lineage_withChildren_lt {i : Nat} (h : i < arena.size) :
    lineage (withChildren arena op lines) i = lineage arena i := by
  rw [lineage, lineage, ancestors_congr arena _ i fun j hj =>
    parentOf_withChildren_lt arena op lines (by omega)]

/-- A child is below its parent and all that is above it. -/
theorem lineage_withChildren_ge {i : Nat} (hop : op.id < arena.size) (h : arena.size ≤ i)
    (hlt : i < arena.size + lines.length) :
    lineage (withChildren arena op lines) i = i :: lineage arena op.id := by
  rw [lineage_of_parent _ _ _ (parentOf_withChildren_ge arena op lines h hlt) (by omega),
    lineage_withChildren_lt arena op lines hop]

/-- The entries that were there are read in the same order. -/
theorem before_withChildren_lt {a b : Nat} (ha : a < arena.size) (hb : b < arena.size)
    (h : Before arena a b) : Before (withChildren arena op lines) a b := by
  rw [Before, path, path, lineage_withChildren_lt arena op lines ha,
    lineage_withChildren_lt arena op lines hb]
  exact h

end

namespace Forest

variable {arena : Array Operation} {left right : List Nat} {id : Nat} {op : Operation}
  {lines : List Line}

/-- A visible operation stands in the order once. -/
theorem not_mem_of_split (hf : Forest arena (left ++ id :: right)) :
    id ∉ left ∧ id ∉ right := by
  have hn := List.nodup_append.mp hf.nodup
  refine ⟨fun h => hn.2.2 id h id List.mem_cons_self rfl, ?_⟩
  exact (List.nodup_cons.mp hn.2.1).1

/-- A parent link of the new arena is one of the old, or it leads to the operation. -/
theorem parentOf_withChildren_cases (hid : op.id = id) {j p : Nat}
    (hj : parentOf (withChildren arena op lines) j = some p) :
    (j < arena.size ∧ parentOf arena j = some p) ∨
      (arena.size ≤ j ∧ j < arena.size + lines.length ∧ p = id) := by
  have hsize := lt_size_of_parentOf hj
  rw [size_withChildren] at hsize
  by_cases hja : j < arena.size
  · exact .inl ⟨hja, by rwa [parentOf_withChildren_lt arena op lines hja] at hj⟩
  · rw [parentOf_withChildren_ge arena op lines (by omega) hsize] at hj
    exact .inr ⟨by omega, hsize, by rw [← hid]; exact (Option.some.inj hj).symm⟩

/-- Parents still stand before their children. -/
theorem descending_withChildren {order : List Nat} (hf : Forest arena order)
    (hop : arena[id]? = some op) : Descending (withChildren arena op lines) := by
  intro j p hj
  have hlt : id < arena.size := (Array.getElem?_eq_some_iff.mp hop).1
  rcases parentOf_withChildren_cases (hf.id_eq id op hop) hj with ⟨_, hj⟩ | ⟨hge, _, rfl⟩
  · exact hf.descending j p hj
  · omega

/-- The new entries are one layer below the operation. -/
theorem layer_withChildren {order : List Nat} (hf : Forest arena order)
    (hop : arena[id]? = some op) {i : Nat} {x : Operation}
    (hx : (withChildren arena op lines)[i]? = some x) :
    x.layer = (ancestors (withChildren arena op lines) i).length := by
  have hid : op.id = id := hf.id_eq id op hop
  have hlt : id < arena.size := (Array.getElem?_eq_some_iff.mp hop).1
  -- An entry that was there keeps its ancestors, a child has those of its parent and the parent.
  by_cases hi : i < arena.size
  · rw [getElem?_withChildren_lt arena op lines hi] at hx
    rw [ancestors_congr arena _ i fun j hj => parentOf_withChildren_lt arena op lines (by omega)]
    exact hf.layer_eq i x hx
  · obtain ⟨k, rfl⟩ := Nat.exists_eq_add_of_le (Nat.le_of_not_lt hi)
    have hk : arena.size + k < arena.size + lines.length := by
      rw [← size_withChildren arena op lines]
      exact (Array.getElem?_eq_some_iff.mp hx).1
    rw [getElem?_withChildren_add] at hx
    obtain ⟨line, _, rfl⟩ := Option.map_eq_some_iff.mp hx
    have hanc : ancestors (withChildren arena op lines) (arena.size + k) =
        id :: ancestors arena id := by
      have := lineage_withChildren_ge arena op lines (by omega) (Nat.le_add_right _ k) hk
      rw [hid, lineage, lineage] at this
      exact (List.cons.inj this).2
    rw [hanc, List.length_cons, ← hf.layer_eq id op hop]
    rfl

/-- The leaves of the new arena: the operation has become inner, the new entries are leaves. -/
theorem mem_order_withChildren (hf : Forest arena (left ++ id :: right))
    (hop : arena[id]? = some op) (hne : lines ≠ []) (i : Nat) :
    i ∈ left ++ List.range' arena.size lines.length ++ right ↔
      i < (withChildren arena op lines).size ∧
        ∀ j, parentOf (withChildren arena op lines) j ≠ some i := by
  have hid : op.id = id := hf.id_eq id op hop
  have hlt : id < arena.size := (Array.getElem?_eq_some_iff.mp hop).1
  have hpos : 0 < lines.length := List.length_pos_iff.mpr hne
  obtain ⟨hnl, hnr⟩ := hf.not_mem_of_split
  have hmem := hf.mem_order i
  -- A leaf of the old arena other than the operation is a leaf still.
  have hold : i < arena.size ∧ (∀ j, parentOf arena j ≠ some i) → i ≠ id →
      i < arena.size + lines.length ∧
        ∀ j, parentOf (withChildren arena op lines) j ≠ some i := by
    rintro ⟨hi, hleaf⟩ hne'
    refine ⟨by omega, fun j hj => ?_⟩
    rcases parentOf_withChildren_cases hid hj with ⟨_, hj⟩ | ⟨_, _, heq⟩
    · exact hleaf j hj
    · exact hne' heq
  -- The three parts of the new order: old leaves on both sides and the new entries between.
  simp only [List.mem_append, List.mem_cons, List.mem_range'_1, size_withChildren] at hmem ⊢
  constructor
  · rintro ((hi | hi) | hi)
    · exact hold (hmem.mp (.inl hi)) fun heq => hnl (heq ▸ hi)
    · refine ⟨by omega, fun j hj => ?_⟩
      rcases parentOf_withChildren_cases hid hj with ⟨hja, hj⟩ | ⟨_, _, rfl⟩
      · have := hf.descending j i hj
        omega
      · omega
    · exact hold (hmem.mp (.inr (.inr hi))) fun heq => hnr (heq ▸ hi)
  · rintro ⟨hi₁, hi₂⟩
    by_cases hi : i < arena.size
    · -- The operation is no leaf any more, since its first child names it.
      have hne' : i ≠ id := by
        rintro rfl
        exact hi₂ arena.size (by
          rw [parentOf_withChildren_ge arena op lines (Nat.le_refl _) (by omega), hid])
      have := hmem.mpr ⟨hi, fun j hj => hi₂ j (by
        rwa [parentOf_withChildren_lt arena op lines (lt_size_of_parentOf hj)])⟩
      rcases this with h | h | h
      · exact .inl (.inl h)
      · exact absurd h hne'
      · exact .inr h
    · exact .inl (.inr ⟨by omega, hi₁⟩)

/-- The new entries are read in the place of the operation. -/
theorem sorted_withChildren (hf : Forest arena (left ++ id :: right))
    (hop : arena[id]? = some op) :
    (left ++ List.range' arena.size lines.length ++ right).Pairwise
      (Before (withChildren arena op lines)) := by
  have hid : op.id = id := hf.id_eq id op hop
  have hlt : id < arena.size := (Array.getElem?_eq_some_iff.mp hop).1
  have hdesc : Descending (withChildren arena op lines) := hf.descending_withChildren hop
  obtain ⟨hnl, hnr⟩ := hf.not_mem_of_split
  have hl : ∀ a ∈ left, a ∈ left ++ id :: right := fun a ha => List.mem_append_left _ ha
  have hr : ∀ a ∈ right, a ∈ left ++ id :: right :=
    fun a ha => List.mem_append_right _ (List.mem_cons_of_mem _ ha)
  refine sorted_replace hdesc (hf.sorted.imp_of_mem fun {a b} ha hb h => ?_) ?_ (fun j hj => ?_)
    (fun a ha => ?_) fun b hb => ?_
  · exact before_withChildren_lt arena op lines (hf.lt_size ha) (hf.lt_size hb) h
  · refine (List.pairwise_lt_range' (s := arena.size)).imp_of_mem fun {a b} ha hb h => ?_
    rw [List.mem_range'_1] at ha hb
    refine before_of_siblings hdesc ?_ h
    rw [parentOf_withChildren_ge arena op lines ha.1 ha.2,
      parentOf_withChildren_ge arena op lines hb.1 hb.2]
  · rw [List.mem_range'_1] at hj
    rw [lineage_withChildren_ge arena op lines (by omega) hj.1 hj.2, hid]
    exact List.mem_cons_of_mem _ (self_mem_lineage arena id)
  -- Nothing stands below a leaf of the old arena.
  · rw [lineage_withChildren_lt arena op lines hlt]
    exact fun h => hnl (hf.eq_of_mem_lineage (hl a ha) h ▸ ha)
  · rw [lineage_withChildren_lt arena op lines (hf.lt_size (hr b hb))]
    exact fun h => hnr (hf.eq_of_mem_lineage (List.mem_append_right _ List.mem_cons_self) h ▸ hb)

/-- Children in the place of their parent make a forest again. -/
theorem grow (hf : Forest arena (left ++ id :: right)) (hop : arena[id]? = some op)
    (hne : lines ≠ []) :
    Forest (withChildren arena op lines)
      (left ++ List.range' arena.size lines.length ++ right) where
  id_eq _ _ := id_eq_withChildren arena op lines hf.id_eq
  descending := hf.descending_withChildren hop
  layer_eq _ _ := hf.layer_withChildren hop
  mem_order := hf.mem_order_withChildren hop hne
  sorted := hf.sorted_withChildren hop

end Forest

end CounterMachine
