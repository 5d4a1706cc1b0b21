import CounterMachine.Proofs.Reachable.Invariant
import CounterMachine.Proofs.Reachable.Single

/-!
# Taking back the expansion of one operation

What has become of an operation that was expanded can be taken back from each operation that it has
left, however deep that one is: the operation is among its ancestors, as many layers up as lie
between them. When it takes its place again, the entries that are still needed are those that were
there before, and these are the first ones of the arena, so they stay where they are.

## Key results

- `Program.map_id_children`: the visible operations that were written for an operation
- `Program.giveWay_eq`: collapsing to what was visible before
- `Program.Reachable.expandSingle_collapseSingle`: an expansion of one operation is taken back
-/

namespace CounterMachine

namespace Program

section

variable {p q : Program} {id levels : Nat}

/-- The places of the visible operations that were written for an operation. -/
theorem map_id_children (hf : Forest p.arena p.order) (id : Nat) :
    (p.children id).map (·.id) = p.order.filter fun i => i != id && p.descends id i := by
  have hentry : ∀ i ∈ p.order, ∃ op, p.operation? i = some op ∧ op.id = i := by
    intro i hi
    obtain ⟨op, hop⟩ := hf.exists_entry hi
    exact ⟨op, hop, hf.id_eq i op hop⟩
  rw [children, operations]
  generalize p.order = order at hentry
  -- Position by position, the entry is read and tested.
  induction order with
  | nil => rfl
  | cons i order ih =>
    obtain ⟨⟨op, hop, hid⟩, hrest⟩ := List.forall_mem_cons.mp hentry
    have ih := ih hrest
    rw [List.filterMap_cons_some hop, List.filter_cons, List.filter_cons, hid]
    split
    · rw [List.map_cons, ih, hid]
    · exact ih

/-- What was visible, and what is above it, are the entries that there were. -/
theorem kept_iff_lt_size {i : Nat} (hp : Forest p.arena p.order)
    (hkept : ∀ i < p.arena.size, q.arena[i]? = p.arena[i]?)
    (hsize : p.arena.size ≤ q.arena.size) : Kept q.arena p.order i ↔ i < p.arena.size := by
  constructor
  · rintro ⟨_, o, ho, hio⟩
    exact Nat.lt_of_le_of_lt (le_of_mem_lineage hio) (hp.lt_size ho)
  · intro hi
    obtain ⟨o, ho, hio⟩ := hp.exists_visible hi
    rw [← lineage_of_kept hkept (hp.lt_size ho)] at hio
    exact ⟨hi.trans_le hsize, o, ho, hio⟩

/-- Operations that give way to those that were visible at some time leave what there was then, if
nothing has been taken away since. -/
theorem giveWay_eq {stand : Nat → Nat} (hq : Forest q.arena q.order) (hp : Forest p.arena p.order)
    (hframe : q = { p with arena := q.arena, order := q.order })
    (hkept : ∀ i < p.arena.size, q.arena[i]? = p.arena[i]?)
    (hsize : p.arena.size ≤ q.arena.size)
    (hstanding : standing q.arena q.order stand = p.order) : q.giveWay stand = p := by
  obtain ⟨f, hr, horder⟩ := giveWay_renumbers hq stand
  rw [hstanding] at hr horder
  have hkeep := fun i => kept_iff_lt_size (i := i) hp hkept hsize
  -- What is kept is what there was before, and it keeps its places as the first part of the arena.
  have harena : (q.giveWay stand).arena = p.arena :=
    hr.arena_eq hq.descending hq.id_eq hkeep hkept
  have horder : (q.giveWay stand).order = p.order := by
    rw [horder]
    calc p.order.map f = p.order.map id := List.map_congr_left fun i hi =>
          hr.eq_of_lt (fun i hi => (hkeep i).mpr hi) (hp.lt_size hi)
      _ = p.order := List.map_id p.order
  calc q.giveWay stand
      = { q with arena := (q.giveWay stand).arena, order := (q.giveWay stand).order } := rfl
    _ = p := by
      rw [harena, horder, hframe]
      cases p
      rfl

namespace ExpandedAt

variable {op : Operation} {left block right : List Nat}

/-- What is visible of an operation that is expanded is what stands in its place. -/
theorem map_id_children (h : ExpandedAt p id levels q op left block right)
    (hp : Forest p.arena p.order) (hq : Forest q.arena q.order) (hlevels : 0 < levels) :
    (q.children id).map (·.id) = block := by
  -- The others are not below the operation, and everything in its place is.
  have hout : ∀ i ∈ left ++ right, ¬ (i != id && q.descends id i) = true := by
    intro i hi hchild
    rw [Bool.and_eq_true, descends, List.contains_iff_mem] at hchild
    exact h.notMem_lineage hp hi hchild.2
  have hin : ∀ i ∈ block, (i != id && q.descends id i) = true := by
    intro i hi
    have hne : i ≠ id := fun heq => h.notMem_block hlevels (heq ▸ hi)
    rw [Bool.and_eq_true, descends, List.contains_iff_mem, bne_iff_ne]
    exact ⟨hne, h.mem_lineage hp hi⟩
  rw [Program.map_id_children hq, h.order_after, List.filter_append, List.filter_append,
    List.filter_eq_nil_iff.mpr fun i hi => hout i (List.mem_append_left _ hi),
    List.filter_eq_self.mpr hin,
    List.filter_eq_nil_iff.mpr fun i hi => hout i (List.mem_append_right _ hi),
    List.nil_append, List.append_nil]

/-- When an operation takes its place again, what is visible is what was visible before. -/
theorem standing_eq (h : ExpandedAt p id levels q op left block right)
    (hp : Forest p.arena p.order) (hq : Forest q.arena q.order) :
    standing q.arena q.order (fun i => if q.descends id i then id else i) = p.order := by
  have hs := stands_ancestor hq id
  have hsorted : p.order.Pairwise (Before q.arena) := by
    refine hp.sorted.imp_of_mem fun {a b} ha hb hab => ?_
    rw [Before, path, path, lineage_of_kept h.kept (hp.lt_size ha),
      lineage_of_kept h.kept (hp.lt_size hb)]
    exact hab
  -- Both orders are sorted by reading, so it is enough that they show the same entries.
  refine eq_of_sorted (hs.frontier hq).sorted hsorted fun i => ?_
  rw [hs.mem_standing hq, h.mem_order]
  simp only [descends, List.contains_iff_mem]
  constructor
  · rintro ⟨o, ho, rfl⟩
    split
    · exact .inl rfl
    · rename_i hbelow
      -- What does not stand below the operation is not in its place.
      exact .inr ((h.mem_order_after.mp ho).resolve_left fun ho => hbelow (h.mem_lineage hp ho))
  · rintro (rfl | hi)
    · have hlt : i < p.arena.size := (Array.getElem?_eq_some_iff.mp h.entry).1
      obtain ⟨o, ho, hio⟩ := hq.exists_visible (hlt.trans_le h.size_le)
      exact ⟨o, ho, if_pos hio⟩
    · exact ⟨i, h.mem_order_after.mpr (.inr hi), if_neg (h.notMem_lineage hp hi)⟩

/-- Something has become of the operation. -/
theorem block_ne_nil (h : ExpandedAt p id levels q op left block right)
    (hp : Forest p.arena p.order) (hq : Forest q.arena q.order) : block ≠ [] := by
  have hid : id < p.arena.size := (Array.getElem?_eq_some_iff.mp h.entry).1
  obtain ⟨o, ho, hio⟩ := hq.exists_visible (hid.trans_le h.size_le)
  intro hnil
  have hother := (h.mem_order_after.mp ho).resolve_left (hnil ▸ List.not_mem_nil)
  exact h.notMem_lineage hp hother hio

/-- What has become of an operation is taken back from any of it. -/
theorem collapseSingle_eq (h : ExpandedAt p id levels q op left block right)
    (hp : Forest p.arena p.order) (hq : Forest q.arena q.order) {o : Nat} {x : Operation}
    (ho : o ∈ block) (hx : q.arena[o]? = some x) :
    q.collapseSingle o (x.layer - op.layer) = .ok p := by
  obtain ⟨position, hpos⟩ := exists_positionOf? (h.mem_order_after.mpr (.inl ho))
  have hentry : q.arena[id]? = some op :=
    (h.kept id (Array.getElem?_eq_some_iff.mp h.entry).1).trans h.entry
  -- As many steps up as the layers differ by stands the operation itself.
  have hancestor : (lineage q.arena o)[x.layer - op.layer]? = some id := by
    rw [hq.layer_eq o x hx, hq.layer_eq id op hentry]
    exact getElem?_lineage hq.descending (h.mem_lineage hp ho)
  have hframe : q = { p with arena := q.arena, order := q.order } := by
    rw [h.order_after]
    exact h.frame
  rw [collapseSingle, hpos]
  simp only [hancestor]
  rw [giveWay_eq hq hp hframe h.kept h.size_le (h.standing_eq hp hq)]

end ExpandedAt

end

/-! ### Reachable programs -/

variable {name : String} {displayName : Option String} {inputs : Option (List Variable)}
  {functions : Option (List Program)} {lines : List Line} {p q : Program} {id levels : Nat}

/-- When one visible operation of a program that is reachable from a source is expanded, all entries
stay as they are, and in its place there is what is visible of it, or itself if there was no level
to go. From each operation that is visible of it, the expansion can be taken back, which leads to
the program that was expanded. -/
theorem Reachable.expandSingle_collapseSingle
    (hp : Reachable (ofLines name displayName inputs functions lines) p)
    (h : p.expandSingle id levels = .ok q) :
    (∀ i < p.arena.size, q.arena[i]? = p.arena[i]?) ∧
    ∃ op left right, p.operation? id = some op ∧ p.order = left ++ id :: right ∧
      q.order = left ++ (if levels = 0 then [id] else (q.children id).map (·.id)) ++ right ∧
      (0 < levels → q.children id ≠ [] ∧
        ∀ o ∈ q.children id, q.collapseSingle o.id (o.layer - op.layer) = .ok p) := by
  have hs := Grown.ofLines name displayName inputs functions lines
  have hfp : Forest p.arena p.order := (hp.grown hs).forest
  have hfq : Forest q.arena q.order := (hp.expandSingle h |>.grown hs).forest
  obtain ⟨op, left, block, right, hexpanded⟩ :=
    expandSingle_expandedAt (fun i hi => hfp.lt_size hi) h
  refine ⟨hexpanded.kept, op, left, right, hexpanded.entry, hexpanded.order_eq, ?_, ?_⟩
  · rw [hexpanded.order_after]
    split
    · rename_i hzero
      subst hzero
      -- By no level nothing is done, so the operation is still in its place.
      rw [← hexpanded.order_after, eq_of_expandSingle_zero h, hexpanded.order_eq,
        List.append_assoc, List.singleton_append]
    · rename_i hne
      rw [hexpanded.map_id_children hfp hfq (Nat.pos_of_ne_zero hne)]
  · intro hlevels
    have hblock := hexpanded.map_id_children hfp hfq hlevels
    refine ⟨fun hnil => ?_, fun o ho => ?_⟩
    · rw [hnil] at hblock
      exact hexpanded.block_ne_nil hfp hfq hblock.symm
    · obtain ⟨ho', _⟩ := List.mem_filter.mp ho
      obtain ⟨i, _, hi⟩ := mem_operations.mp ho'
      have hid : o.id = i := hfq.id_eq i o hi
      have hmem : o.id ∈ block := hblock ▸ List.mem_map_of_mem (f := (·.id)) ho
      exact hexpanded.collapseSingle_eq hfp hfq hmem (hid ▸ hi)

/-- A jump is expanded by one level, and then an assignment by two. What the assignment has left is
on both layers below it, and from either of them it is taken back. -/
theorem expandSingle_collapseSingle_assign : ∃ p q,
    (ofLines "main" none none none
      [.plain (.assign .result (.input 1)), .plain (.goto .exit)]).expandSingle 1 1 = .ok p ∧
    p.expandSingle 0 2 = .ok q ∧
    (∃ o ∈ q.children 0, o.layer = 1) ∧ (∃ o ∈ q.children 0, o.layer = 2) ∧
    ∃ op, p.operation? 0 = some op ∧
      ∀ o ∈ q.children 0, q.collapseSingle o.id (o.layer - op.layer) = .ok p := by
  obtain ⟨p, q, hp, hq, hone, htwo⟩ : ∃ p q,
      (ofLines "main" none none none
        [.plain (.assign .result (.input 1)), .plain (.goto .exit)]).expandSingle 1 1 = .ok p ∧
      p.expandSingle 0 2 = .ok q ∧
      (∃ o ∈ q.children 0, o.layer = 1) ∧ ∃ o ∈ q.children 0, o.layer = 2 :=
    ⟨_, _, rfl, rfl, by decide +kernel, by decide +kernel⟩
  obtain ⟨_, op, _, _, hop, _, _, hundo⟩ :=
    Reachable.expandSingle_collapseSingle (.expandSingle .refl hp) hq
  exact ⟨p, q, hp, hq, hone, htwo, op, hop, (hundo Nat.two_pos).2⟩

end Program

end CounterMachine
