import CounterMachine.Proofs.Lowering.Extension
import CounterMachine.Proofs.Reachable.Fronts
import CounterMachine.Proofs.Reachable.Levelled
import CounterMachine.Proofs.Reachable.Lines

/-!
# Growing a program again

A program that is expanded to a level has come about on some way: names were handed out and dropped
on it, and its entries were lowered in some order. Under new names its visible operations are what
the source sprouts to when it is expanded to that level at once. The way leads from front to front,
always on with the leftmost entry that can be lowered, and each time an entry gives way to its
children the new names of these are chosen to be the next ones.

## Key results

- `Regrowth`: what entries of a front sprout to, under a renaming that grows on the way
- `Program.Grown.exists_sprouts`: a program under new names is what its source sprouts to
-/

namespace CounterMachine

/-- The operation under new names. -/
def Renaming.leaf (ρ : Renaming) (leaf : Leaf) : Leaf := ⟨leaf.layer, ρ.line leaf.line⟩

theorem Renaming.leaf_identity (leaf : Leaf) : identity.leaf leaf = leaf := by
  rw [Renaming.leaf, line_identity]

section

variable {arena : Array Operation} {ids : List Nat} {ρ ρ' : Renaming}

/-- The lines at places are those of the leaves there. -/
theorem linesAt_eq_map_leavesAt : linesAt arena ids = (leavesAt arena ids).map Leaf.line := by
  rw [linesAt, leavesAt, List.map_filterMap]
  exact List.filterMap_congr fun i _ => by cases arena[i]? <;> rfl

/-- Operations on one layer are told by their lines. -/
theorem leavesAt_eq_map_linesAt {n : Nat}
    (h : ∀ i ∈ ids, ∀ op, arena[i]? = some op → op.layer = n) :
    leavesAt arena ids = (linesAt arena ids).map (Leaf.mk n) := by
  rw [linesAt, leavesAt, List.map_filterMap]
  refine List.filterMap_congr fun i hi => ?_
  cases hop : arena[i]? with
  | none => rfl
  | some op =>
    show some op.leaf = some ⟨n, op.line⟩
    rw [← h i hi op hop]
    rfl

/-- Two renamings of some lines rename the operations in the same way. -/
theorem map_leaf_congr (h : ∀ l ∈ linesAt arena ids, ρ.line l = ρ'.line l) :
    (leavesAt arena ids).map ρ.leaf = (leavesAt arena ids).map ρ'.leaf := by
  refine List.map_congr_left fun leaf hleaf => ?_
  rw [Renaming.leaf, Renaming.leaf, h leaf.line]
  rw [linesAt_eq_map_leavesAt]
  exact List.mem_map_of_mem hleaf

end

/-- Entries of a front sprout to visible operations under a renaming, which becomes another one on
the way. The other entries of the front keep their place and their new names. -/
structure Regrowth (source p : Program) (levels : Nat) (left ids right : List Nat) (ρ : Renaming)
    (t : Supply) (ids' : List Nat) (ρ' : Renaming) (t' : Supply) : Prop where
  sprouts : Sprouts source.callable levels ((leavesAt p.arena ids).map ρ.leaf) t
    ((leavesAt p.arena ids').map ρ'.leaf) t'
  front : Front p (left ++ ids' ++ right)
  faithful : ρ'.Faithful source.Names (linesAt p.arena (left ++ ids' ++ right)) t'
  visible : ∀ i ∈ ids', i ∈ p.order
  kept : ∀ l ∈ linesAt p.arena (left ++ right), ρ'.line l = ρ.line l

namespace Regrowth

variable {source p : Program} {levels : Nat} {left right ids ids₁ ids₂ ids' ids₁' ids₂' : List Nat}
  {ρ ρ' ρ₁ ρ₂ : Renaming} {t t' t₁ t₂ : Supply}

theorem nil (hfront : Front p (left ++ [] ++ right))
    (h : ρ.Faithful source.Names (linesAt p.arena (left ++ [] ++ right)) t) :
    Regrowth source p levels left [] right ρ t [] ρ t :=
  ⟨.nil, hfront, h, nofun, fun _ _ => rfl⟩

/-- One entry after the other. -/
theorem append (h₁ : Regrowth source p levels left ids₁ (ids₂ ++ right) ρ t ids₁' ρ₁ t₁)
    (h₂ : Regrowth source p levels (left ++ ids₁') ids₂ right ρ₁ t₁ ids₂' ρ₂ t₂) :
    Regrowth source p levels left (ids₁ ++ ids₂) right ρ t (ids₁' ++ ids₂') ρ₂ t₂ where
  sprouts := by
    -- The entries to the right are untouched while the first ones sprout, and what these have
    -- become is untouched afterwards.
    have hids₂ : (leavesAt p.arena ids₂).map ρ.leaf = (leavesAt p.arena ids₂).map ρ₁.leaf :=
      map_leaf_congr fun l hl => (h₁.kept l (by simp [linesAt_append, hl])).symm
    have hids₁' : (leavesAt p.arena ids₁').map ρ₁.leaf = (leavesAt p.arena ids₁').map ρ₂.leaf :=
      map_leaf_congr fun l hl => (h₂.kept l (by simp [linesAt_append, hl])).symm
    rw [leavesAt_append, leavesAt_append, List.map_append, List.map_append, hids₂, ← hids₁']
    exact h₁.sprouts.append h₂.sprouts
  front := by simpa only [List.append_assoc] using h₂.front
  faithful := by simpa only [List.append_assoc] using h₂.faithful
  visible := List.forall_mem_append.mpr ⟨h₁.visible, h₂.visible⟩
  kept l hl := by
    simp only [linesAt_append, List.mem_append] at hl
    rw [h₂.kept l (by simp only [linesAt_append, List.mem_append]; tauto),
      h₁.kept l (by simp only [linesAt_append, List.mem_append]; tauto)]

/-- An operation that stays. -/
theorem stay {i : Nat} {op : Operation} (hop : p.arena[i]? = some op)
    (hstay : levels = 0 ∨ op.instruction.isBasic = true) (hi : i ∈ p.order)
    (hfront : Front p (left ++ [i] ++ right))
    (h : ρ.Faithful source.Names (linesAt p.arena (left ++ [i] ++ right)) t) :
    Regrowth source p levels left [i] right ρ t [i] ρ t where
  sprouts := by
    have hleaf : leavesAt p.arena [i] = [op.leaf] := by rw [leavesAt_cons hop]; rfl
    rw [hleaf]
    refine .keep (hstay.imp_right fun hbasic => ?_) .nil
    exact (Instruction.isBasic_rename _).trans hbasic
  front := hfront
  faithful := h
  visible := by simpa using hi
  kept _ _ := rfl

/-- Entries that sprout one by one. -/
theorem exists_of_forall (h : ∀ i ∈ ids, ∀ (left right : List Nat) (ρ : Renaming) (t : Supply),
      Front p (left ++ [i] ++ right) →
      ρ.Faithful source.Names (linesAt p.arena (left ++ [i] ++ right)) t →
      ∃ ids' ρ' t', Regrowth source p levels left [i] right ρ t ids' ρ' t')
    (hfront : Front p (left ++ ids ++ right))
    (hρ : ρ.Faithful source.Names (linesAt p.arena (left ++ ids ++ right)) t) :
    ∃ ids' ρ' t', Regrowth source p levels left ids right ρ t ids' ρ' t' := by
  induction ids generalizing left ρ t with
  | nil => exact ⟨[], ρ, t, .nil hfront hρ⟩
  | cons i ids ih =>
    obtain ⟨hi, hids⟩ := List.forall_mem_cons.mp h
    -- The entries that have not had their turn stand to the right, those that have to the left.
    have hsplit : left ++ (i :: ids) ++ right = left ++ [i] ++ (ids ++ right) := by simp
    rw [hsplit] at hfront hρ
    obtain ⟨ids₁, ρ₁, t₁, h₁⟩ := hi _ _ _ _ hfront hρ
    have hfront₁ := h₁.front
    have hρ₁ := h₁.faithful
    rw [← List.append_assoc] at hfront₁ hρ₁
    obtain ⟨ids₂, ρ₂, t₂, h₂⟩ := ih hids hfront₁ hρ₁
    exact ⟨ids₁ ++ ids₂, ρ₂, t₂, h₁.append h₂⟩

end Regrowth

/-- The reserved names are names of every program. -/
theorem Program.names_of_reserved (p : Program) {ν : Name} (h : ν.Reserved) : p.Names ν := by
  cases h with
  | result => exact p.result_mem_vars
  | empty => exact .inl rfl

namespace Program.Grown

variable {source p : Program} {n : Nat}

/-- An entry without children is visible. -/
theorem mem_order_of_childIds (h : Grown source p) {i : Nat} (hi : i < p.arena.size)
    (hchild : childIds p.arena i = []) : i ∈ p.order :=
  (h.forest.mem_order i).mpr ⟨hi, fun _ hj => List.not_mem_nil (hchild ▸ mem_childIds.mpr hj)⟩

/-- So is a basic one, since only what is lowered has children. -/
theorem mem_order_of_isBasic (h : Grown source p) (hreg : Regular p.arena) {i : Nat}
    {op : Operation} (hop : p.arena[i]? = some op) (hbasic : op.instruction.isBasic = true) :
    i ∈ p.order := by
  refine h.mem_order_of_childIds (Array.getElem?_eq_some_iff.mp hop).1 ?_
  by_contra hchild
  exact absurd hbasic (Bool.eq_false_iff.mp (hreg.synthetic i op hop hchild))

/-- Nothing stands below an entry that is on the level to which the program is expanded. -/
theorem mem_order_of_layer (h : Grown source p) (hto : p.ExpandedTo n) {i : Nat} {op : Operation}
    (hop : p.arena[i]? = some op) (hlayer : op.layer = n) : i ∈ p.order := by
  have hf := h.forest
  have hi : i < p.arena.size := (Array.getElem?_eq_some_iff.mp hop).1
  obtain ⟨o, ho, hio⟩ := hf.exists_visible hi
  obtain ⟨x, hx⟩ := hf.exists_entry ho
  by_cases heq : i = o
  · exact heq ▸ ho
  · have hlt := length_ancestors_lt hf.descending hio heq
    rw [← hf.layer_eq i op hop, ← hf.layer_eq o x hx] at hlt
    have hle : x.layer ≤ n :=
      (hto x.leaf (List.mem_map_of_mem (mem_operations.mpr ⟨o, ho, hx⟩))).layer_le
    omega

/-- An entry that is not basic has children, unless it is on that level. -/
theorem childIds_ne_nil (h : Grown source p) (hto : p.ExpandedTo n) {i : Nat} {op : Operation}
    (hop : p.arena[i]? = some op) (hsyn : op.instruction.isBasic = false)
    (hlayer : op.layer ≠ n) : childIds p.arena i ≠ [] := by
  intro hchild
  have hi := h.mem_order_of_childIds (Array.getElem?_eq_some_iff.mp hop).1 hchild
  have hleaf := hto op.leaf (List.mem_map_of_mem (mem_operations.mpr ⟨i, hi, hop⟩))
  exact hleaf.basic_or.elim (Bool.eq_false_iff.mp hsyn) hlayer

/-- The children of an entry are one layer below it. -/
theorem layer_of_mem_childIds (h : Grown source p) {k i : Nat} {op x : Operation}
    (hop : p.arena[k]? = some op) (hi : i ∈ childIds p.arena k) (hx : p.arena[i]? = some x) :
    x.layer = op.layer + 1 := by
  have hparent := (parentOf_of_getElem? hx).symm.trans (mem_childIds.mp hi)
  obtain ⟨_, parent, hparent, hlayer⟩ := h.forest.layer_of_parent hx hparent
  rw [hop] at hparent
  cases hparent
  exact hlayer

/-- Children are leaves one layer below their parent. -/
theorem leavesAt_childIds (h : Grown source p) {k : Nat} {op : Operation}
    (hop : p.arena[k]? = some op) : leavesAt p.arena (childIds p.arena k) =
      (linesAt p.arena (childIds p.arena k)).map (Leaf.mk (op.layer + 1)) :=
  leavesAt_eq_map_linesAt fun _ hi _ hx => h.layer_of_mem_childIds hop hi hx

/-- An entry with children is lowered, and these sprout with one level less. -/
theorem regrowth_lower (h : Grown source p) {k : Nat} {op : Operation}
    (hop : p.arena[k]? = some op) (hsyn : op.instruction.isBasic = false)
    (hchild : childIds p.arena k ≠ []) {levels : Nat} {left right : List Nat} {ρ : Renaming}
    {t : Supply} (hfront : Front p (left ++ [k] ++ right))
    (hρ : ρ.Faithful source.Names (linesAt p.arena (left ++ [k] ++ right)) t)
    (hbelow : ∀ (ρ₁ : Renaming) (t₁ : Supply), Front p (left ++ childIds p.arena k ++ right) →
      ρ₁.Faithful source.Names (linesAt p.arena (left ++ childIds p.arena k ++ right)) t₁ →
      ∃ ids' ρ' t', Regrowth source p levels left (childIds p.arena k) right ρ₁ t₁ ids' ρ' t') :
    ∃ ids' ρ' t', Regrowth source p (levels + 1) left [k] right ρ t ids' ρ' t' := by
  obtain ⟨s, s', hlow⟩ := h.derived k op hop hchild
  have hleaf : leavesAt p.arena [k] = [op.leaf] := by rw [leavesAt_cons hop]; rfl
  have hline : linesAt p.arena [k] = [op.line] := by rw [linesAt_eq_map_leavesAt, hleaf]; rfl
  simp only [List.append_assoc, List.singleton_append] at hfront
  -- The entry was lowered with some supply at some time, when the names were fresh among the
  -- entries that stand beside it. Now it is lowered again, with the names that come next.
  have hamong := hlow.among fun j hj => fun hk =>
    hfront.notMem_lineage h.forest hj (List.mem_cons_of_mem _ hk)
  have hρ : ρ.Faithful source.Names
      (linesAt p.arena left ++ op.line :: linesAt p.arena right) t := by
    rwa [linesAt_append, linesAt_append, hline, List.append_assoc, List.singleton_append] at hρ
  obtain ⟨ρ₁, t₁, hlower, hρ₁, hkept⟩ := hρ.lower (fun ν => source.names_of_reserved) hamong
    fun ν hν hfresh => h.not_uses_of_fresh hlow hν hfresh
  obtain ⟨ids', ρ', t', hgrown⟩ := hbelow ρ₁ t₁ (hfront.giveWay h.forest hchild)
    (by simpa only [linesAt_append] using hρ₁)
  refine ⟨ids', ρ', t', ?_, hgrown.front, hgrown.faithful, hgrown.visible, fun l hl => ?_⟩
  · rw [hleaf, ← List.append_nil (List.map ρ'.leaf _)]
    refine .lower ((Instruction.isBasic_rename _).trans hsyn) hlower ?_ .nil
    have hsprouts := hgrown.sprouts
    rw [h.leavesAt_childIds hop, List.map_map] at hsprouts
    rw [List.map_map]
    exact hsprouts
  · rw [hgrown.kept l hl, hkept l (linesAt_append left right ▸ hl)]

/-- Entries of a front that are basic, or that have as many levels to go as are missing, sprout to
visible operations. -/
theorem exists_regrowth (h : Grown source p) (hreg : Regular p.arena) (hto : p.ExpandedTo n)
    (levels : Nat) {left ids right : List Nat} {ρ : Renaming} {t : Supply}
    (hids : ∀ i ∈ ids, ∃ op, p.arena[i]? = some op ∧
      (op.instruction.isBasic = true ∨ op.layer + levels = n))
    (hfront : Front p (left ++ ids ++ right))
    (hρ : ρ.Faithful source.Names (linesAt p.arena (left ++ ids ++ right)) t) :
    ∃ ids' ρ' t', Regrowth source p levels left ids right ρ t ids' ρ' t' := by
  -- The children of an entry have one level less to go, on one layer more.
  induction levels generalizing left ids right ρ t with
  | zero =>
    refine Regrowth.exists_of_forall (fun i hi left right ρ t hfront hρ => ?_) hfront hρ
    obtain ⟨op, hop, hlayer⟩ := hids i hi
    refine ⟨[i], ρ, t, .stay hop (.inl rfl) ?_ hfront hρ⟩
    rcases hlayer with hbasic | hlayer
    · exact h.mem_order_of_isBasic hreg hop hbasic
    · exact h.mem_order_of_layer hto hop hlayer
  | succ levels ih =>
    refine Regrowth.exists_of_forall (fun i hi left right ρ t hfront hρ => ?_) hfront hρ
    obtain ⟨op, hop, hlayer⟩ := hids i hi
    cases hkind : op.instruction.isBasic with
    | true =>
      have hi := h.mem_order_of_isBasic hreg hop hkind
      exact ⟨[i], ρ, t, .stay hop (.inr hkind) hi hfront hρ⟩
    | false =>
      have hlayer := hlayer.resolve_left (Bool.eq_false_iff.mp hkind)
      have hchild := h.childIds_ne_nil hto hop hkind (by omega)
      refine h.regrowth_lower hop hkind hchild hfront hρ fun ρ₁ t₁ => ih fun c hc => ?_
      have hx := Array.getElem?_eq_getElem (lt_size_of_mem_childIds hc)
      have hbelow := h.layer_of_mem_childIds hop hc hx
      exact ⟨_, hx, .inr (by omega)⟩

/-- The names of a source are covered by its supply, so they can all stay. -/
theorem faithful_identity (source : Program) :
    Renaming.identity.Faithful source.Names source.lines (Supply.ofProgram source) where
  fixes ν _ := Renaming.name_identity ν
  injective ν ν' _ _ heq := by simpa using heq
  covered ν hν := by
    rw [Renaming.name_identity]
    rcases hν with hν | ⟨l, hl, hν⟩
    · cases ν with
      | var v => exact Supply.covered_of_mem_usedVars (mem_vars.mp hν)
      | label x =>
        rcases hν with rfl | hx
        · exact Name.Reserved.empty.covered _
        · exact Supply.covered_of_mem_usedLabels (mem_labels.mp hx)
    · obtain ⟨op, hop, rfl⟩ := List.mem_map.mp hl
      exact Supply.covered_of_mem_operations hop ν hν

/-- The visible operations of a program that is expanded to a level are, under new names, what its
source sprouts to with as many levels. The names of the source stay. -/
theorem exists_sprouts (h : Grown source p) (hreg : Regular p.arena) (hto : p.ExpandedTo n)
    (horder : source.order = List.range source.arena.size) :
    ∃ (ρ : Renaming) (t : Supply), Sprouts source.callable n source.leaves (Supply.ofProgram source)
      (p.leaves.map ρ.leaf) t ∧ ρ.Faithful source.Names p.lines t := by
  have hleaves : leavesAt p.arena (List.range source.arena.size) = source.leaves := by
    rw [leaves_eq, horder]
    exact leavesAt_congr fun i hi => h.rooted.entry i (List.mem_range.mp hi)
  have hlines := h.lines_roots horder
  have hfront := h.forest.front_roots
  rw [h.roots_eq] at hlines hfront
  have hroots : ∀ i ∈ List.range source.arena.size, ∃ op, p.arena[i]? = some op ∧
      (op.instruction.isBasic = true ∨ op.layer + n = n) := by
    intro i hi
    have hlt := List.mem_range.mp hi
    have hop := Array.getElem?_eq_getElem (Nat.lt_of_lt_of_le hlt h.size_le)
    have hroot := (h.rooted.root_iff i (Nat.lt_of_lt_of_le hlt h.size_le)).mpr hlt
    -- A root is on layer zero, and has all the levels to go.
    refine ⟨_, hop, .inr ?_⟩
    rw [h.forest.layer_eq i _ hop, ancestors_of_root _ _ hroot, List.length_nil, Nat.zero_add]
  have hfront : Front p ([] ++ List.range source.arena.size ++ []) := by simpa using hfront
  have hidentity : Renaming.identity.Faithful source.Names
      (linesAt p.arena ([] ++ List.range source.arena.size ++ [])) (Supply.ofProgram source) := by
    simpa [hlines] using faithful_identity source
  obtain ⟨ids', ρ, t, hgrown⟩ := h.exists_regrowth hreg hto n hroots hfront hidentity
  -- The front that everything has sprouted to is what the program shows.
  have hids' : ids' = p.order :=
    Front.eq_order h.forest (by simpa using hgrown.front) hgrown.visible
  have hleaf : Renaming.identity.leaf = id := funext Renaming.leaf_identity
  refine ⟨ρ, t, ?_, ?_⟩
  · have hsprouts := hgrown.sprouts
    rwa [hids', ← leaves_eq, hleaves, hleaf, List.map_id] at hsprouts
  · have hfaithful := hgrown.faithful
    rwa [List.nil_append, List.append_nil, hids', ← lines_eq_linesAt] at hfaithful

end Program.Grown

end CounterMachine
