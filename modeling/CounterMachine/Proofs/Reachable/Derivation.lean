import CounterMachine.Proofs.Lowering.Names
import CounterMachine.Proofs.Reachable.Unfolding

/-!
# What the entries of an arena were written for

Every entry with children was lowered to them: the children hold, in the order of their places,
the lines that its own line stands for, under names of some supply. The names that came in then are
used nowhere else but below the entry. `Derived` collects this for all entries, and every step of
an expansion keeps it, as long as its supply covers the names in the whole arena.

## Key results

- `Stage.Valid.step`: one step of an expansion keeps the shape, the origin of every entry and the
  cover
-/

namespace CounterMachine

/-- The places of the children of an entry. -/
def childIds (arena : Array Operation) (k : Nat) : List Nat :=
  (List.range arena.size).filter fun j => parentOf arena j = some k

/-- The lines at places of an arena. -/
def linesAt (arena : Array Operation) (ids : List Nat) : List Line :=
  ids.filterMap fun i => arena[i]?.map Operation.line

/-- An entry was lowered to its children, from one supply to another, and the names that are fresh
between them are used by nothing that is not below the entry. -/
structure LoweredAt (table : FunctionTable) (inputs : List Variable) (arena : Array Operation)
    (k : Nat) (op : Operation) (s s' : Supply) : Prop where
  lower_eq : op.line.lower table s = .ok (linesAt arena (childIds arena k), s')
  covered : ∀ ν ∈ op.line.names, ν.Covered s
  fresh_inputs : ∀ v ∈ inputs, FreshVar s s' v → ¬ UsesVar (linesAt arena (childIds arena k)) v
  fresh_below : ∀ ν, Name.Fresh s s' ν → Uses (linesAt arena (childIds arena k)) ν →
    ∀ (j : Nat) (x : Operation), arena[j]? = some x → ν ∈ x.line.names → k ∈ ancestors arena j

/-- Every entry with children was lowered to them. -/
def Derived (table : FunctionTable) (inputs : List Variable) (arena : Array Operation) : Prop :=
  ∀ (k : Nat) (op : Operation), arena[k]? = some op → childIds arena k ≠ [] →
    ∃ s s', LoweredAt table inputs arena k op s s'

/-- A supply covers the names of a list of inputs and of all entries. -/
def Covers (s : Supply) (inputs : List Variable) (arena : Array Operation) : Prop :=
  (∀ v ∈ inputs, Name.Covered s (.var v)) ∧
    ∀ (j : Nat) (x : Operation), arena[j]? = some x → ∀ ν ∈ x.line.names, ν.Covered s

/-- An expansion under way: a forest, whose entries were derived, with a supply of new names. -/
structure Stage.Valid (table : FunctionTable) (inputs : List Variable) (stage : Stage) : Prop where
  forest : Forest stage.arena stage.order
  derived : Derived table inputs stage.arena
  covers : Covers stage.supply inputs stage.arena

section

variable {arena : Array Operation}

/-- The children of an entry are the entries whose parent it is. -/
theorem mem_childIds {j k : Nat} : j ∈ childIds arena k ↔ parentOf arena j = some k := by
  simp only [childIds, List.mem_filter, List.mem_range, decide_eq_true_eq, and_iff_right_iff_imp]
  exact lt_size_of_parentOf

/-- A line is at one of several places if an entry there holds it. -/
theorem mem_linesAt {ids : List Nat} {line : Line} :
    line ∈ linesAt arena ids ↔ ∃ i ∈ ids, ∃ x, arena[i]? = some x ∧ x.line = line := by
  simp [linesAt]

/-- The lines at places in a row are those at the first places and those at the others. -/
theorem linesAt_append (ids ids' : List Nat) :
    linesAt arena (ids ++ ids') = linesAt arena ids ++ linesAt arena ids' :=
  List.filterMap_append

/-- Places where two arenas hold the same lines hold the same lines together. -/
theorem linesAt_congr {arena' : Array Operation} {ids : List Nat}
    (h : ∀ i ∈ ids, (arena'[i]?.map Operation.line) = arena[i]?.map Operation.line) :
    linesAt arena' ids = linesAt arena ids :=
  List.filterMap_congr h

/-! ### The children of a grown arena -/

variable (op : Operation) (lines : List Line)

/-- What the new entries hold, for anything that is read off the line of an entry. -/
theorem filterMap_withChildren {β : Type} {f : Operation → β} {g : Line → β}
    (hf : ∀ id line, f (childOf op id line) = g line) :
    (List.range' arena.size lines.length).filterMap
      (fun i => (withChildren arena op lines)[i]?.map f) = lines.map g := by
  -- Place by place, what is read there is what is read off the line.
  have hmap : (List.range' arena.size lines.length).map (fun i =>
      (withChildren arena op lines)[i]?.map f) = (lines.map g).map some := by
    apply List.ext_getElem?
    intro k
    rw [List.getElem?_map, List.getElem?_map, List.getElem?_map]
    by_cases hk : k < lines.length
    · rw [List.getElem?_range' hk, Nat.one_mul, Option.map_some, getElem?_withChildren_add,
        List.getElem?_eq_getElem hk]
      simp [hf]
    · rw [List.getElem?_eq_none (by simpa using hk), List.getElem?_eq_none (by simpa using hk)]
      rfl
  -- Both sides list what is read as options, none of which is missing.
  have hid := congrArg (List.filterMap id) hmap
  rw [List.filterMap_map, List.filterMap_map] at hid
  exact hid.trans List.filterMap_some

/-- The new entries hold the lines that were added. -/
theorem linesAt_range'_withChildren :
    linesAt (withChildren arena op lines) (List.range' arena.size lines.length) = lines :=
  (filterMap_withChildren op lines fun _ _ => rfl).trans (List.map_id lines)

/-- The old entries keep their children, and the operation gets the new entries as its own. -/
theorem childIds_withChildren (k : Nat) :
    childIds (withChildren arena op lines) k =
      childIds arena k ++ if op.id = k then List.range' arena.size lines.length else [] := by
  rw [childIds, size_withChildren, List.range_add, List.filter_append, childIds]
  -- An old entry has the parent that it had, and a new one has the operation.
  congr 1
  · refine List.filter_congr fun j hj => ?_
    rw [parentOf_withChildren_lt arena op lines (List.mem_range.mp hj)]
  · rw [← List.range'_eq_map_range]
    have hparent : ∀ j ∈ List.range' arena.size lines.length,
        parentOf (withChildren arena op lines) j = some op.id := by
      intro j hj
      rw [List.mem_range'_1] at hj
      exact parentOf_withChildren_ge arena op lines hj.1 hj.2
    split
    · rename_i hk
      exact List.filter_eq_self.mpr fun j hj => by simp [hparent j hj, hk]
    · rename_i hk
      exact List.filter_eq_nil_iff.mpr fun j hj => by simp [hparent j hj, hk]

/-- An entry of the old arena holds what it held. -/
theorem linesAt_withChildren_old {ids : List Nat} (h : ∀ i ∈ ids, i < arena.size) :
    linesAt (withChildren arena op lines) ids = linesAt arena ids :=
  linesAt_congr fun i hi => by rw [getElem?_withChildren_lt arena op lines (h i hi)]

/-- A child is an entry. -/
theorem lt_size_of_mem_childIds {j k : Nat} (h : j ∈ childIds arena k) : j < arena.size :=
  lt_size_of_parentOf (mem_childIds.mp h)

/-- An entry of the new arena is one of the old, or it holds one of the lines. -/
theorem entry_withChildren {j : Nat} {x : Operation}
    (h : (withChildren arena op lines)[j]? = some x) :
    arena[j]? = some x ∨
      (arena.size ≤ j ∧ j < arena.size + lines.length ∧ x.line ∈ lines) := by
  -- A place behind the old entries is that of a line.
  by_cases hj : j < arena.size
  · exact .inl ((getElem?_withChildren_lt arena op lines hj).symm.trans h)
  · have hsize := (Array.getElem?_eq_some_iff.mp h).1
    rw [size_withChildren] at hsize
    obtain ⟨k, rfl⟩ := Nat.exists_eq_add_of_le (Nat.le_of_not_lt hj)
    rw [getElem?_withChildren_add] at h
    obtain ⟨line, hline, rfl⟩ := Option.map_eq_some_iff.mp h
    exact .inr ⟨by omega, hsize, List.mem_of_getElem? hline⟩

end

/-! ### One step -/

section

variable {table : FunctionTable} {inputs : List Variable} {arena : Array Operation} {k : Nat}
  {op x : Operation} {s s' : Supply}

/-- The children of an entry are entries, so a supply that covers the arena covers their names. -/
theorem Covers.of_uses (h : Covers s inputs arena) {ids : List Nat} {ν : Name}
    (hν : Uses (linesAt arena ids) ν) : ν.Covered s := by
  obtain ⟨line, hline, hν⟩ := hν
  obtain ⟨i, _, x, hx, rfl⟩ := mem_linesAt.mp hline
  exact h.2 i x hx ν hν

/-- The names of the entries of a grown arena are covered by the supply after the step. -/
theorem Covers.withChildren {lines : List Line} (h : Covers s inputs arena)
    (hop : arena[k]? = some op) (hn : LineNames op.line s lines s') :
    Covers s' inputs (withChildren arena op lines) := by
  refine ⟨fun v hv => (h.1 v hv).mono hn.label_le hn.work_le, fun j x hx ν hν => ?_⟩
  rcases entry_withChildren op lines hx with hx | ⟨_, _, hx⟩
  · exact (h.2 j x hx ν hν).mono hn.label_le hn.work_le
  · exact hn.covered (h.2 k op hop) ν ⟨x.line, hx, hν⟩

/-- An operation that is expanded was lowered to the new entries. -/
theorem LoweredAt.of_step {lines : List Line} (h : Covers s inputs arena)
    (hlt : k < arena.size) (hop : arena[k]? = some op) (hid : op.id = k)
    (hleaf : childIds arena k = []) (hlower : op.line.lower table s = .ok (lines, s')) :
    LoweredAt table inputs (withChildren arena op lines) k op s s' := by
  have hlines : linesAt (withChildren arena op lines) (childIds (withChildren arena op lines) k) =
      lines := by
    rw [childIds_withChildren, hleaf, if_pos hid, List.nil_append, linesAt_range'_withChildren]
  refine ⟨by rw [hlines, hlower], h.2 k op hop, ?_, ?_⟩
  · intro v hv hfresh
    exact absurd hfresh (h.1 v hv).not_fresh
  · intro ν hfresh _ j x hx hν
    rcases entry_withChildren op lines hx with hx | ⟨hge, hsize, _⟩
    · exact absurd hfresh (h.2 j x hx ν hν).not_fresh
    · -- A fresh name is used by the new entries only, and these are below the operation.
      have := lineage_withChildren_ge arena op lines (hid.symm ▸ hlt) hge hsize
      rw [lineage, hid] at this
      exact (List.cons.inj this).2 ▸ self_mem_lineage arena k

/-- An entry that was expanded before is still lowered to its children. -/
theorem LoweredAt.withChildren {id : Nat} {lines : List Line} {t t' : Supply}
    (h : LoweredAt table inputs arena k op t t') (hc : Covers s inputs arena)
    (hlt : id < arena.size) (hx : arena[id]? = some x) (hid : x.id = id) (hne : id ≠ k)
    (hn : LineNames x.line s lines s') :
    LoweredAt table inputs (withChildren arena x lines) k op t t' := by
  have hlines : linesAt (CounterMachine.withChildren arena x lines)
      (childIds (CounterMachine.withChildren arena x lines) k) =
        linesAt arena (childIds arena k) := by
    rw [childIds_withChildren, if_neg (hid.symm ▸ hne), List.append_nil]
    exact linesAt_withChildren_old x lines fun i => lt_size_of_mem_childIds
  refine ⟨by rw [hlines]; exact h.lower_eq, h.covered, by rw [hlines]; exact h.fresh_inputs, ?_⟩
  rw [hlines]
  intro ν hfresh huses j z hz hν
  rcases entry_withChildren x lines hz with hz | ⟨hge, hsize, hline⟩
  · have hj := (Array.getElem?_eq_some_iff.mp hz).1
    have hlin := lineage_withChildren_lt arena x lines hj
    rw [lineage, lineage] at hlin
    rw [(List.cons.inj hlin).2]
    exact h.fresh_below ν hfresh huses j z hz hν
  · have hlin := lineage_withChildren_ge arena x lines (hid.symm ▸ hlt) hge hsize
    rw [lineage, hid] at hlin
    rw [(List.cons.inj hlin).2]
    refine List.mem_cons_of_mem _ ?_
    -- The name was there before, so it is not new, and it comes from the expanded operation.
    rcases hn.name_from ν ⟨z.line, hline, hν⟩ with hν | hν | hν
    · exact h.fresh_below ν hfresh huses id x hx hν
    · exact absurd hfresh (hν.covered t).not_fresh
    · exact absurd hν (hc.of_uses huses).not_fresh

end

section

variable {table : FunctionTable} {inputs : List Variable} {stage stage' : Stage}

/-- A visible operation has no children. -/
theorem Forest.childIds_eq_nil {arena : Array Operation} {order : List Nat}
    (hf : Forest arena order) {id : Nat} (h : id ∈ order) : childIds arena id = [] :=
  List.eq_nil_iff_forall_not_mem.mpr fun j hj =>
    ((hf.mem_order id).mp h).2 j (mem_childIds.mp hj)

/-- One step of an expansion keeps the shape of the arena, the origin of its entries and the
cover. -/
theorem Stage.Valid.step (h : stage.Valid table inputs) (hstep : Unfolds table stage stage') :
    stage'.Valid table inputs := by
  cases hstep with
  | @lower arena left right id op s s' lines hop hsyn hlower =>
    obtain ⟨hf, hd, hc⟩ := h
    have hn := lower_names hlower
    have hid : op.id = id := hf.id_eq id op hop
    have hlt : id < arena.size := (Array.getElem?_eq_some_iff.mp hop).1
    have hleaf : childIds arena id = [] :=
      hf.childIds_eq_nil (List.mem_append_right _ List.mem_cons_self)
    refine ⟨hf.grow hop hn.ne_nil, fun k opk hopk hchild => ?_, hc.withChildren hop hn⟩
    -- Only the leaf that is lowered gets children, all the others have the ones that they had.
    by_cases hk : id = k
    · subst hk
      rw [getElem?_withChildren_lt arena op lines hlt, hop] at hopk
      cases hopk
      exact ⟨s, s', .of_step hc hlt hop hid hleaf hlower⟩
    · rw [childIds_withChildren, if_neg (hid.symm ▸ hk), List.append_nil] at hchild
      obtain ⟨j, hj⟩ := List.exists_mem_of_ne_nil _ hchild
      have hklt : k < arena.size :=
        Nat.lt_trans (hf.descending j k (mem_childIds.mp hj)) (lt_size_of_mem_childIds hj)
      rw [getElem?_withChildren_lt arena op lines hklt] at hopk
      obtain ⟨t, t', ht⟩ := hd k opk hopk hchild
      exact ⟨t, t', ht.withChildren hc hlt hop hid hk hn⟩

/-- An expansion keeps them. -/
theorem Stage.Valid.steps (h : stage.Valid table inputs)
    (hsteps : Relation.ReflTransGen (Unfolds table) stage stage') : stage'.Valid table inputs := by
  induction hsteps with
  | refl => exact h
  | tail _ hstep ih => exact ih.step hstep

end

end CounterMachine
