import CounterMachine.Proofs.Reachable.Fronts
import CounterMachine.Proofs.Reachable.Single

/-!
# The collapse of one operation

When an ancestor of a visible operation takes the place of what was written for it, it stands where
that stood, and nothing else changes: the other operations keep their order, the entries that stay
keep their lines, their layers and all that is above them, and only their places move together.
What leaves the arena was written for the ancestor, and stands behind it, so the entries before the
first one that leaves do not even change their places.

## Key definitions

- `Program.Stays`: an entry was not written for the ancestor
- `Program.CollapsedAt`: what the collapse of one operation has done

## Key results

- `Forest.kept_iff_stays`: what is left of the arena
- `Forest.collapsedAt`: an ancestor that takes the place of what was written for it
- `Program.Reachable.collapseSingle_iff`: when the collapse of one operation succeeds, and what it
  does then
-/

namespace CounterMachine

/-- An operation that has been moved, with its parent. -/
def Operation.moved (f : Nat → Nat) (op : Operation) : Operation :=
  { op with id := f op.id, parent := op.parent.map f }

namespace Program

/-- An entry of the arena that was not written for `a`. -/
def Stays (p : Program) (a i : Nat) : Prop :=
  i < p.arena.size ∧ (i = a ∨ p.descends a i = false)

/-- What has been done when the entry `a` has taken the place of what was written for it. Visible
are `a` and, on both sides, what was visible there before, and `f` says where the entries have been
moved. -/
structure CollapsedAt (p : Program) (a : Nat) (q : Program) (f : Nat → Nat)
    (left right : List Nat) : Prop where
  frame : q = { p with arena := q.arena, order := q.order }
  /-- What was visible of `a` stood together. -/
  order_eq : p.order = left ++ p.visibleBelow a ++ right
  others : ∀ i ∈ left ++ right, p.descends a i = false
  order_after : q.order = (left ++ a :: right).map f
  /-- The entries that stay keep their order. -/
  mono : ∀ i j, p.Stays a i → p.Stays a j → i < j → f i < f j
  /-- Those before the first one that leaves keep their places. -/
  fixed : ∀ i, (∀ j ≤ i, p.Stays a j) → f i = i
  entry : ∀ (i : Nat) (op : Operation), p.Stays a i → p.arena[i]? = some op →
    q.arena[f i]? = some (op.moved f)
  surj : ∀ j < q.arena.size, ∃ i, p.Stays a i ∧ f i = j
  provenance : ∀ i, p.Stays a i → q.provenance (f i) = (p.provenance i).map (·.moved f)
  children : q.children (f a) = []
  childless : ∀ (j : Nat) (op : Operation), q.arena[j]? = some op → op.parent ≠ some (f a)

end Program

section

variable {p q : Program} {keep : Nat → Prop} {f : Nat → Nat} {i : Nat}

/-- The entries of a walk stand at the places of the walk. -/
theorem Forest.map_id_provenance (hf : Forest p.arena p.order) (hi : i < p.arena.size) :
    (p.provenance i).map Operation.id = lineage p.arena i := by
  obtain ⟨ops, heq, hids, _⟩ := hf.walk hi
  have hprovenance : p.provenance i = ops := by
    rw [Program.provenance, Program.operation?, Array.getElem?_eq_getElem hi]
    exact heq
  rw [hprovenance, hids]

/-- The operations above an entry that is moved are moved with it. -/
theorem Renumbers.provenance_eq (hr : Renumbers p.arena q.arena keep f)
    (hid : ∀ (i : Nat) (op : Operation), p.arena[i]? = some op → op.id = i)
    (hd : Descending p.arena) (hclosed : ∀ i a, keep i → a ∈ lineage p.arena i → keep a)
    (hi : keep i) : q.provenance (f i) = (p.provenance i).map (·.moved f) := by
  -- Entry by entry, what is kept is moved.
  have hentry : ∀ j, keep j → q.operation? (f j) = (p.operation? j).map (·.moved f) := by
    intro j hj
    obtain ⟨op, hop⟩ := hr.exists_entry hj
    rw [Program.operation?, Program.operation?, hop, hr.entry j op hj hop, Option.map_some,
      Operation.moved, hid j op hop]
  obtain ⟨op, hop⟩ : ∃ op, p.operation? i = some op := hr.exists_entry hi
  rw [Program.provenance, Program.provenance, hentry i hi, hop, Option.map_some,
    hr.lineage_eq hd hclosed hi]
  simp only
  rw [List.filterMap_map, List.map_filterMap]
  exact List.filterMap_congr fun j hj => hentry j (hclosed i j hi hj)

end

/-! ### Taking the place of what was written for an entry -/

namespace Forest

variable {p : Program} {a : Nat} {left right : List Nat}

/-- The order with an entry in the place of what is visible below it. -/
theorem sorted_collapsed (hf : Forest p.arena p.order) (ha : a < p.arena.size)
    (horder : p.order = left ++ p.visibleBelow a ++ right)
    (hothers : ∀ i ∈ left ++ right, a ∉ lineage p.arena i) :
    (left ++ a :: right).Pairwise (Before p.arena) := by
  have hd := hf.descending
  obtain ⟨o, ho, hao⟩ := hf.exists_visible ha
  have hbelow : o ∈ p.visibleBelow a := mem_visibleBelow.mpr ⟨ho, hao⟩
  -- The others are neither above the entry nor below it.
  have hmem : ∀ i ∈ left ++ right, i ∈ p.order := by
    intro i hi
    rw [horder]
    simp only [List.mem_append] at hi ⊢
    tauto
  have habove : ∀ i ∈ left ++ right, i ∉ lineage p.arena a := by
    intro i hi hia
    have hio := hf.eq_of_mem_lineage (hmem i hi) (mem_lineage_trans hd hia hao)
    exact hothers i hi (hio ▸ hao)
  have hsorted := hf.sorted
  rw [horder, List.append_assoc, List.pairwise_append, List.pairwise_append] at hsorted
  obtain ⟨hleft, ⟨_, hright, hor⟩, hlor⟩ := hsorted
  have hlo : ∀ i ∈ left, Before p.arena i o := fun i hi =>
    hlor i hi o (List.mem_append_left _ hbelow)
  -- So they are read before or after it like what is visible below it.
  refine List.pairwise_append.mpr ⟨hleft, List.pairwise_cons.mpr ⟨fun j hj => ?_, hright⟩,
    fun i hi j hj => ?_⟩
  · have hj' := List.mem_append_right left hj
    exact before_of_descendants hd (hor o hbelow j hj) (hothers j hj') (habove j hj') hao
      (self_mem_lineage _ j)
  · rcases List.mem_cons.mp hj with rfl | hj
    · have hi' := List.mem_append_left right hi
      exact before_of_descendants hd (hlo i hi) (habove i hi') (hothers i hi')
        (self_mem_lineage _ i) hao
    · exact hlor i hi j (List.mem_append_right _ hj)

/-- What stays visible when an entry takes the place of what was written for it. -/
theorem standing_collapsed (hf : Forest p.arena p.order) (ha : a < p.arena.size)
    (horder : p.order = left ++ p.visibleBelow a ++ right)
    (hothers : ∀ i ∈ left ++ right, a ∉ lineage p.arena i) :
    standing p.arena p.order (fun i => if p.descends a i then a else i) = left ++ a :: right := by
  have hs := Program.stands_ancestor hf a
  -- Both are sorted, so it is enough that they have the same entries.
  refine eq_of_sorted (hs.frontier hf).sorted (hf.sorted_collapsed ha horder hothers) fun i => ?_
  rw [hs.mem_standing hf]
  simp only [Program.descends, List.contains_iff_mem]
  constructor
  · rintro ⟨o, ho, rfl⟩
    split
    · simp
    · rename_i hbelow
      rw [horder] at ho
      simp only [List.mem_append, mem_visibleBelow, List.mem_cons] at ho ⊢
      tauto
  · intro hi
    simp only [List.mem_append, List.mem_cons] at hi
    have other : i ∈ left ++ right → ∃ o ∈ p.order, (if a ∈ lineage p.arena o then a else o) = i :=
      fun hi => ⟨i, horder ▸ by simp at hi ⊢; tauto, if_neg (hothers i hi)⟩
    rcases hi with hi | rfl | hi
    · exact other (List.mem_append_left _ hi)
    · obtain ⟨o, ho, hio⟩ := hf.exists_visible ha
      exact ⟨o, ho, if_pos hio⟩
    · exact other (List.mem_append_right _ hi)

/-- What leaves the arena when an entry takes the place of what was written for it is what was
written for it. -/
theorem kept_iff_stays (hf : Forest p.arena p.order)
    (horder : p.order = left ++ p.visibleBelow a ++ right)
    (hothers : ∀ i ∈ left ++ right, a ∉ lineage p.arena i) (i : Nat) :
    Kept p.arena (left ++ a :: right) i ↔ p.Stays a i := by
  have hd := hf.descending
  have hdescends : p.descends a i = false ↔ a ∉ lineage p.arena i := by
    rw [Program.descends, ← Bool.not_eq_true, List.contains_iff_mem]
  rw [Kept, Program.Stays, hdescends]
  refine and_congr_right fun hi => ⟨?_, ?_⟩
  · rintro ⟨o, ho, hio⟩
    by_cases hai : a ∈ lineage p.arena i
    · -- An entry below `a` is above `a` only, and so it is `a`.
      have hoa : o = a := by
        by_contra hne
        refine hothers o ?_ (mem_lineage_trans hd hai hio)
        simp only [List.mem_append, List.mem_cons] at ho ⊢
        tauto
      exact .inl (Nat.le_antisymm (le_of_mem_lineage (hoa ▸ hio)) (le_of_mem_lineage hai))
    · exact .inr hai
  · intro hstays
    by_cases hia : i = a
    · exact ⟨a, by simp, hia ▸ self_mem_lineage _ i⟩
    · have hai := hstays.resolve_left hia
      obtain ⟨o, ho, hio⟩ := hf.exists_visible hi
      -- The entry is above a visible one. If that is below `a`, then the entry is above `a`, too.
      by_cases hao : a ∈ lineage p.arena o
      · exact ⟨a, by simp, (mem_lineage_total hd hio hao).resolve_right hai⟩
      · refine ⟨o, ?_, hio⟩
        rw [horder] at ho
        simp only [List.mem_append, mem_visibleBelow, List.mem_cons] at ho ⊢
        tauto

/-- An entry has taken the place of what was written for it. -/
theorem collapsedAt (hf : Forest p.arena p.order) (ha : a < p.arena.size) :
    ∃ f left right, p.CollapsedAt a
      (p.giveWay fun i => if p.descends a i then a else i) f left right := by
  have hd := hf.descending
  obtain ⟨left, right, horder⟩ : ∃ left right, p.order = left ++ p.visibleBelow a ++ right :=
    hf.block a
  have hothers : ∀ i ∈ left ++ right, a ∉ lineage p.arena i := by
    -- What is visible below `a` is listed between the two sides, and nothing is listed twice.
    intro i hi hai
    have hbelow : i ∈ p.visibleBelow a := by
      refine mem_visibleBelow.mpr ⟨?_, hai⟩
      rw [horder]
      simp only [List.mem_append] at hi ⊢
      tauto
    have hnodup := hf.nodup
    rw [horder, List.nodup_append, List.nodup_append] at hnodup
    obtain ⟨⟨_, _, hlb⟩, _, hbr⟩ := hnodup
    rcases List.mem_append.mp hi with hi | hi
    · exact hlb i hi i hbelow rfl
    · exact hbr i (List.mem_append_right _ hbelow) i hi rfl
  have hkept := hf.kept_iff_stays horder hothers
  have hq := hf.giveWay (Program.stands_ancestor hf a)
  obtain ⟨f, hr, horder'⟩ :=
    Program.giveWay_renumbers hf fun i => if p.descends a i then a else i
  rw [hf.standing_collapsed ha horder hothers] at hr horder'
  have hclosed : ∀ i b, Kept p.arena (left ++ a :: right) i → b ∈ lineage p.arena i →
      Kept p.arena (left ++ a :: right) b := fun i b hi hb => hi.of_mem_lineage hd hb
  have hvisible : f a ∈ (p.giveWay fun i => if p.descends a i then a else i).order := by
    rw [horder']
    exact List.mem_map_of_mem (by simp)
  refine ⟨f, left, right, ?_⟩
  exact {
    frame := rfl
    order_eq := horder
    others := fun i hi => by
      rw [Program.descends, ← Bool.not_eq_true, List.contains_iff_mem]
      exact hothers i hi
    order_after := horder'
    mono := fun i j hi hj => hr.mono i j ((hkept i).mpr hi) ((hkept j).mpr hj)
    fixed := fun i hi => hr.eq_of_lt (n := i + 1)
      (fun j hj => (hkept j).mpr (hi j (Nat.le_of_lt_succ hj))) (Nat.lt_succ_self i)
    entry := fun i op hi hop => by
      rw [hr.entry i op ((hkept i).mpr hi) hop, Operation.moved, hf.id_eq i op hop]
    surj := fun j hj => by
      obtain ⟨i, hi, hfi⟩ := hr.surj j hj
      exact ⟨i, (hkept i).mp hi, hfi⟩
    provenance := fun i hi => hr.provenance_eq hf.id_eq hd hclosed ((hkept i).mpr hi)
    children := by
      -- Nothing stands below a visible operation.
      refine List.filter_eq_nil_iff.mpr fun op hop hchild => ?_
      rw [Bool.and_eq_true, bne_iff_ne, Program.descends, List.contains_iff_mem] at hchild
      exact hchild.1 (hq.eq_of_mem_lineage hvisible hchild.2).symm
    childless := fun j op hop hparent =>
      ((hq.mem_order (f a)).mp hvisible).2 j ((parentOf_of_getElem? hop).trans hparent) }

end Forest

namespace Program

variable {p q : Program} {id levels : Nat} {op : Operation}

/-- A visible operation is collapsed by as many levels as there are ancestors. -/
theorem collapseSingle_eq (hid : id ∈ p.order) (levels : Nat) :
    p.collapseSingle id levels =
      match (lineage p.arena id)[levels]? with
      | none => .error (.invalidDegree levels ((lineage p.arena id).length - 1))
      | some a => .ok (p.giveWay fun i => if p.descends a i then a else i) := by
  obtain ⟨position, hpos⟩ := exists_positionOf? hid
  rewrite [collapseSingle, hpos]
  rfl

variable {name : String} {displayName : Option String} {inputs : Option (List Variable)}
  {functions : Option (List Program)} {lines : List Line}

/-- A visible operation of a program that is reachable from a source can be collapsed by as many
levels as its layer says. Then its ancestor, that many steps up, takes the place of all that is
visible of it, and nothing else changes. -/
theorem Reachable.collapseSingle_iff
    (h : Reachable (ofLines name displayName inputs functions lines) p) (hid : id ∈ p.order)
    (hop : p.operation? id = some op) :
    ((∃ q, p.collapseSingle id levels = .ok q) ↔ levels ≤ op.layer) ∧
    ∀ q, p.collapseSingle id levels = .ok q →
      ∃ ancestor f left right, (p.provenance id)[levels]? = some ancestor ∧
        id ∈ p.visibleBelow ancestor.id ∧ p.CollapsedAt ancestor.id q f left right := by
  have hf := (h.grown (Grown.ofLines ..)).forest
  -- The walk from an operation leads through as many ancestors as its layer says.
  have hlength : (lineage p.arena id).length = op.layer + 1 := by
    rw [lineage, List.length_cons, hf.layer_eq id op hop]
  rw [collapseSingle_eq hid]
  constructor
  · cases hancestor : (lineage p.arena id)[levels]? with
    | none =>
      have hlt := List.getElem?_eq_none_iff.mp hancestor
      simp only [reduceCtorEq, exists_false, false_iff]
      omega
    | some a =>
      obtain ⟨hlt, _⟩ := List.getElem?_eq_some_iff.mp hancestor
      simp only [Except.ok.injEq, exists_eq', true_iff]
      omega
  · intro q hq
    cases hancestor : (lineage p.arena id)[levels]? with
    | none => rw [hancestor] at hq; cases hq
    | some a =>
      rw [hancestor] at hq
      obtain rfl := Except.ok.inj hq
      have hmem := List.mem_of_getElem? hancestor
      have hsize := Forest.lt_size_of_mem_lineage (hf.lt_size hid) hmem
      rw [← hf.map_id_provenance (hf.lt_size hid), List.getElem?_map,
        Option.map_eq_some_iff] at hancestor
      obtain ⟨ancestor, hprovenance, rfl⟩ := hancestor
      obtain ⟨f, left, right, hcollapsed⟩ := hf.collapsedAt hsize
      exact ⟨ancestor, f, left, right, hprovenance, mem_visibleBelow.mpr ⟨hid, hmem⟩, hcollapsed⟩

/-- An assignment has been expanded by two levels, and then the operation behind it by one. When the
last of the operations that are two layers below the assignment gives way to the one above it, what
was written behind the two that leave the arena moves up. -/
theorem collapseSingle_assign : ∃ p₁ p q op,
    (ofLines "main" none none none
      [.plain (.assign .result (.input 1)), .plain (.goto .exit)]).expandSingle 0 2 = .ok p₁ ∧
    p₁.expandSingle 1 1 = .ok p ∧ 14 ∈ p.order ∧ p.operation? 14 = some op ∧ op.layer = 2 ∧
    p.collapseSingle 14 1 = .ok q ∧
    (∃ ancestor f left right, (p.provenance 14)[1]? = some ancestor ∧
      14 ∈ p.visibleBelow ancestor.id ∧ p.CollapsedAt ancestor.id q f left right) ∧
    p.order = [13, 14, 3, 15, 16, 5, 6, 7, 8, 9, 10, 11, 12, 17, 18] := by
  obtain ⟨p₁, p, op, hp₁, hp, horder, hop, hlayer⟩ : ∃ p₁ p op,
      (ofLines "main" none none none
        [.plain (.assign .result (.input 1)), .plain (.goto .exit)]).expandSingle 0 2 = .ok p₁ ∧
      p₁.expandSingle 1 1 = .ok p ∧
      p.order = [13, 14, 3, 15, 16, 5, 6, 7, 8, 9, 10, 11, 12, 17, 18] ∧
      p.operation? 14 = some op ∧ op.layer = 2 :=
    ⟨_, _, _, rfl, rfl, rfl, rfl, rfl⟩
  have hid : 14 ∈ p.order := by rw [horder]; decide
  have hreachable := Reachable.expandSingle (.expandSingle .refl hp₁) hp
  obtain ⟨q, hq⟩ : ∃ q, p.collapseSingle 14 1 = .ok q :=
    (Reachable.collapseSingle_iff hreachable hid hop).1.mpr (by omega)
  have hcollapsed := (Reachable.collapseSingle_iff hreachable hid hop).2 q hq
  exact ⟨p₁, p, q, op, hp₁, hp, hid, hop, hlayer, hq, hcollapsed, horder⟩

end Program

end CounterMachine
