import CounterMachine.Proofs.Reachable.CollapseSingle

/-!
# Compaction by mark and sweep

What compaction keeps can be marked by walks up from the visible operations, and a walk may end at
the first entry that is marked already: what is above that one was marked when the one was. Then one
sweep over the arena moves the marked entries together. A parent stands before its children, so it
has got its new place by the time they ask for it, and no parent link is lost. That comes to the
same as compaction, in any arena whose entries stand at their own places and behind their parents,
and whatever is visible.

## Key definitions

- `Program.WellPlaced`: what compaction needs
- `Program.markAndSweep`: compaction with walks that end early and a single sweep

## Key results

- `markUp_eq`: a walk that ends early marks the same as one that goes on to the root
- `Program.WellPlaced.sweptTo`: what a sweep has done
- `Program.WellPlaced.operations_compact`: compaction moves visible operations, and changes no name
- `Program.WellPlaced.compact_of_kept`: where everything is kept, compaction changes nothing
- `Program.WellPlaced.compact_lossless`: what compaction does to a program
-/

namespace CounterMachine

/-- The entries of a program stand at their own places and behind their parents, and what is
visible are entries. -/
structure Program.WellPlaced (p : Program) : Prop where
  id_eq : ∀ (i : Nat) (op : Operation), p.arena[i]? = some op → op.id = i
  descending : Descending p.arena
  lt_size : ∀ i ∈ p.order, i < p.arena.size

/-- Whether the entries are well placed can be found out by looking at each of them. -/
theorem Program.wellPlaced_iff (p : Program) :
    p.WellPlaced ↔ (∀ i < p.arena.size, ∀ op ∈ p.arena[i]?, op.id = i ∧ ∀ k ∈ op.parent, k < i) ∧
      ∀ i ∈ p.order, i < p.arena.size := by
  constructor
  · intro hp
    refine ⟨fun i _ op hop => ⟨hp.id_eq i op hop, fun k hk => ?_⟩, hp.lt_size⟩
    exact hp.descending i k ((parentOf_of_getElem? hop).trans hk)
  · rintro ⟨hentries, horder⟩
    have hentry : ∀ (i : Nat) (op : Operation), p.arena[i]? = some op →
        op.id = i ∧ ∀ k ∈ op.parent, k < i := fun i op hop =>
      hentries i (Array.getElem?_eq_some_iff.mp hop).1 op hop
    refine ⟨fun i op hop => (hentry i op hop).1, fun i k hk => ?_, horder⟩
    obtain ⟨op, hop, hparent⟩ := Option.bind_eq_some_iff.mp hk
    exact (hentry i op hop).2 k hparent

instance (p : Program) : Decidable p.WellPlaced := decidable_of_iff _ p.wellPlaced_iff.symm

/-! ### Walks that end early -/

/-- Marks an entry and what is above it, up to the first entry that is marked already. -/
def markUp (arena : Array Operation) (marks : Array Bool) (id : Nat) : Array Bool :=
  if marks[id]?.getD false then
    marks
  else
    let marks := marks.setIfInBounds id true
    match arena[id]?.bind Operation.parent with
    | none => marks
    | some parent => if _down : parent < id then markUp arena marks parent else marks
termination_by id

/-- What is above a marked entry is marked. Nothing is asked of the entries behind place `n`: a walk
that has come up to `n` has marked some of them, and not yet all that is above them. -/
def ClosedUpTo (arena : Array Operation) (n : Nat) (marks : Array Bool) : Prop :=
  ∀ i ≤ n, marks[i]?.getD false = true → ∀ a ∈ lineage arena i, marks[a]?.getD false = true

/-- Marks that are set already stay as they are. -/
theorem foldl_set_of_marked {ids : List Nat} {marks : Array Bool}
    (h : ∀ a ∈ ids, marks[a]?.getD false = true) :
    ids.foldl (·.setIfInBounds · true) marks = marks := by
  induction ids with
  | nil => rfl
  | cons id ids ih =>
    have hid := h id List.mem_cons_self
    -- Setting a mark that is set changes no entry of the array.
    have hset : marks.setIfInBounds id true = marks := by
      apply Array.ext_getElem?
      intro j
      rw [Array.getElem?_setIfInBounds]
      split
      · rename_i heq
        subst heq
        cases hj : marks[id]? with
        | none => simp [hj] at hid
        | some marked =>
          obtain ⟨hlt, _⟩ := Array.getElem?_eq_some_iff.mp hj
          rw [hj, Option.getD_some] at hid
          rw [if_pos hlt, hid]
      · rfl
    rw [List.foldl_cons, hset]
    exact ih fun a ha => h a (List.mem_cons_of_mem id ha)

section

variable {arena : Array Operation} (hd : Descending arena)
include hd

/-- A walk that ends at a marked entry marks the same as one that goes on up to the root. -/
theorem markUp_eq {marks : Array Bool} {id : Nat} (h : ClosedUpTo arena id marks) :
    markUp arena marks id = (lineage arena id).foldl (·.setIfInBounds · true) marks := by
  fun_induction markUp arena marks id with
  | case1 marks id hmarked => exact (foldl_set_of_marked (h id (Nat.le_refl id) hmarked)).symm
  | case2 marks id _ marks' hparent =>
    rw [lineage_of_root arena id hparent, List.foldl_cons, List.foldl_nil]
  | case3 marks id _ marks' parent hparent hdown ih =>
    rw [lineage_of_parent arena id parent hparent hdown, List.foldl_cons]
    refine ih fun i hi hmarked a ha => ?_
    -- The entry that has just been marked stands behind its parent, and nothing else changed.
    have hother : ∀ j ≤ parent, marks'[j]? = marks[j]? := fun j hj => by
      rw [Array.getElem?_setIfInBounds_ne (by omega)]
    rw [hother i hi] at hmarked
    rw [hother a (Nat.le_trans (le_of_mem_lineage ha) hi)]
    exact h i (by omega) hmarked a ha
  | case4 marks id _ marks' parent hparent hdown => exact absurd (hd id parent hparent) hdown

/-- The walks up from all visible operations mark what is kept. -/
theorem foldl_markUp (order : List Nat) :
    order.foldl (markUp arena) (Array.replicate arena.size false) = marks arena order := by
  -- The marks are generalised to any that are closed, as each walk leaves them so.
  have general : ∀ (order : List Nat) (ms : Array Bool), (∀ n, ClosedUpTo arena n ms) →
      order.foldl (markUp arena) ms =
        order.foldl (fun ms id => (lineage arena id).foldl (·.setIfInBounds · true) ms) ms := by
    intro order
    induction order with
    | nil => exact fun _ _ => rfl
    | cons o order ih =>
      intro ms hclosed
      rw [List.foldl_cons, List.foldl_cons, markUp_eq hd (hclosed o)]
      refine ih _ fun n i hi hmarked a ha => ?_
      rw [getD_foldl_set] at hmarked ⊢
      rcases hmarked with hmarked | ⟨hsize, hio⟩
      · exact .inl (hclosed n i hi hmarked a ha)
      · exact .inr ⟨Nat.lt_of_le_of_lt (le_of_mem_lineage ha) hsize, mem_lineage_trans hd ha hio⟩
  refine general order _ fun n i _ hmarked => ?_
  rw [Array.getElem?_replicate] at hmarked
  split at hmarked <;> cases hmarked

end

/-! ### The sweep -/

/-- The entries that have been moved together so far, and the places they have gone to. -/
structure Swept where
  arena : Array Operation
  places : Array (Option Nat)

/-- Moves one more entry. The place of its parent is looked up among the places so far. -/
def Swept.take (swept : Swept) (op : Operation) : Swept :=
  let places := swept.places.setIfInBounds op.id (some swept.arena.size)
  { arena := swept.arena.push
      { op with id := swept.arena.size, parent := op.parent.bind fun k => places[k]?.join }
    places }

/-- Moves the marked entries of an arena together. -/
def sweep (arena : Array Operation) (marks : Array Bool) : Swept :=
  arena.foldl (fun swept op => if marks[op.id]?.getD false then swept.take op else swept)
    ⟨#[], Array.replicate arena.size none⟩

namespace Program

/-- Compaction with walks that end early and a single sweep. Where everything is marked, nothing is
done. -/
def markAndSweep (p : Program) : Program :=
  let marks := p.order.foldl (markUp p.arena) (Array.replicate p.arena.size false)
  if marks.all (·) then
    p
  else
    let swept := sweep p.arena marks
    { p with arena := swept.arena, order := p.order.filterMap fun id => swept.places[id]?.join }

/-- What a sweep has done when it has come to place `n`. -/
structure SweptTo (p : Program) (n : Nat) (swept : Swept) : Prop where
  arena_eq : swept.arena.toList = (p.arena.toList.take n).filterMap p.kept?
  size_eq : swept.places.size = p.arena.size
  place_eq : ∀ i < n, Kept p.arena p.order i → swept.places[i]?.join = some (p.place i)

section

variable {p : Program}

/-- Before the first entry nothing has been moved. -/
theorem SweptTo.start (p : Program) : p.SweptTo 0 ⟨#[], Array.replicate p.arena.size none⟩ :=
  ⟨rfl, Array.size_replicate, fun _ h => absurd h (Nat.not_lt_zero _)⟩

/-- What is above a kept entry is kept. -/
theorem WellPlaced.kept_of_mem_lineage (hp : p.WellPlaced) (i a : Nat)
    (hi : Kept p.arena p.order i) (ha : a ∈ lineage p.arena i) : Kept p.arena p.order a :=
  hi.of_mem_lineage hp.descending ha

/-- A kept entry is moved to where compaction moves it. -/
theorem SweptTo.take (hp : p.WellPlaced) {n : Nat} {op : Operation} {swept : Swept}
    (h : p.SweptTo n swept) (hop : p.arena[n]? = some op) (hk : Kept p.arena p.order n) :
    p.SweptTo (n + 1) (swept.take op) := by
  have hid := hp.id_eq n op hop
  -- So many entries have been moved as are kept before this one.
  have hsize : swept.arena.size = p.place n := by
    rw [Program.place_eq hp.id_eq hk.1, ← h.arena_eq, Array.length_toList]
  have hplaces : (swept.take op).places = swept.places.setIfInBounds n (some (p.place n)) := by
    rw [Swept.take, hsize, hid]
  have hplace : ∀ i < n + 1, Kept p.arena p.order i →
      (swept.take op).places[i]?.join = some (p.place i) := by
    intro i hi hki
    rw [hplaces]
    rcases Nat.lt_succ_iff_lt_or_eq.mp hi with hlt | rfl
    · rw [Array.getElem?_setIfInBounds_ne (by omega), h.place_eq i hlt hki]
    · rw [Array.getElem?_setIfInBounds_self_of_lt (h.size_eq ▸ hki.1), Option.join_some]
  refine ⟨?_, by rw [hplaces, Array.size_setIfInBounds, h.size_eq], hplace⟩
  -- The parent stands before the entry, so the sweep has come across it.
  have hparent : (op.parent.bind fun k => (swept.take op).places[k]?.join) =
      op.parent.map p.place := by
    cases hk' : op.parent with
    | none => rfl
    | some k =>
      have hparent := (parentOf_of_getElem? hop).trans hk'
      have hlt := hp.descending n k hparent
      rw [Option.bind_some, Option.map_some]
      exact hplace k (by omega)
        (hp.kept_of_mem_lineage n k hk (parent_mem_lineage hp.descending hparent))
  have hentry : p.kept? op = some { op with id := p.place n, parent := op.parent.map p.place } := by
    rw [kept?, hid, if_pos ((marks_getD _ _).mpr hk)]
  rw [List.take_add_one, List.filterMap_append, Array.getElem?_toList, hop, Option.toList_some,
    List.filterMap_cons_some hentry, List.filterMap_nil, ← h.arena_eq, ← hparent, ← hsize]
  exact Array.toList_push

/-- An entry that is not kept is passed over. -/
theorem SweptTo.skip (hp : p.WellPlaced) {n : Nat} {op : Operation} {swept : Swept}
    (h : p.SweptTo n swept) (hop : p.arena[n]? = some op) (hk : ¬ Kept p.arena p.order n) :
    p.SweptTo (n + 1) swept := by
  -- Compaction drops the entry as well.
  have hentry : p.kept? op = none :=
    Option.not_isSome_iff_eq_none.mp fun hsome => hk ((isSome_kept? hp.id_eq hop).mp hsome)
  refine ⟨?_, h.size_eq, fun i hi hki => ?_⟩
  · rw [List.take_add_one, List.filterMap_append, Array.getElem?_toList, hop, Option.toList_some,
      List.filterMap_cons_none hentry, List.filterMap_nil, List.append_nil, h.arena_eq]
  · rcases Nat.lt_succ_iff_lt_or_eq.mp hi with hlt | rfl
    · exact h.place_eq i hlt hki
    · exact absurd hki hk

/-- A sweep moves the kept entries to where compaction moves them. -/
theorem WellPlaced.sweptTo (hp : p.WellPlaced) :
    p.SweptTo p.arena.size (sweep p.arena (marks p.arena p.order)) := by
  refine Array.foldl_induction (fun n swept => p.SweptTo n swept) (SweptTo.start p)
    fun n swept h => ?_
  have hop : p.arena[n.1]? = some p.arena[n.1] := Array.getElem?_eq_getElem n.2
  have hid := hp.id_eq n.1 _ hop
  rw [Fin.getElem_fin, hid]
  -- A marked entry is taken, and any other one is skipped.
  by_cases hk : Kept p.arena p.order n.1
  · rw [if_pos ((marks_getD _ _).mpr hk)]
    exact h.take hp hop hk
  · rw [if_neg fun hmarked => hk ((marks_getD _ _).mp hmarked)]
    exact h.skip hp hop hk

/-! ### Compaction -/

/-- Where everything is kept, compaction changes nothing. -/
theorem WellPlaced.compact_of_kept (hp : p.WellPlaced)
    (h : ∀ i < p.arena.size, Kept p.arena p.order i) : p.compact = p := by
  have hr := compact_renumbers hp.id_eq
  have harena : p.compact.arena = p.arena :=
    hr.arena_eq hp.descending hp.id_eq (fun i => ⟨fun hi => hi.1, h i⟩) fun _ _ => rfl
  have horder : p.compact.order = p.order := by
    calc p.order.map p.place = p.order.map id :=
          List.map_congr_left fun o ho => hr.eq_of_lt h (hp.lt_size o ho)
      _ = p.order := List.map_id p.order
  have hframe : p.compact = { p with arena := p.compact.arena, order := p.compact.order } := rfl
  rw [hframe, harena, horder]
  cases p
  rfl

/-- What is visible is kept. -/
theorem WellPlaced.kept_of_mem_order (hp : p.WellPlaced) {o : Nat} (ho : o ∈ p.order) :
    Kept p.arena p.order o :=
  ⟨hp.lt_size o ho, o, ho, self_mem_lineage p.arena o⟩

/-- What compaction leaves is fit for compaction. -/
theorem WellPlaced.wellPlaced_compact (hp : p.WellPlaced) : p.compact.WellPlaced where
  id_eq j x hx := by
    obtain ⟨i, op, _, rfl, _, rfl⟩ := (compact_renumbers hp.id_eq).exists_of_getElem? hx
    rfl
  descending := (compact_renumbers hp.id_eq).descending hp.descending hp.kept_of_mem_lineage
  lt_size j hj := by
    obtain ⟨o, ho, rfl⟩ := List.mem_map.mp hj
    exact (compact_renumbers hp.id_eq).place_lt_size (hp.kept_of_mem_order ho)

/-- After compaction everything is kept. -/
theorem WellPlaced.kept_compact (hp : p.WellPlaced) {j : Nat} (hj : j < p.compact.arena.size) :
    Kept p.compact.arena p.compact.order j := by
  have hr := compact_renumbers hp.id_eq
  -- An entry comes from one that was kept for something visible, which has been moved along.
  obtain ⟨i, ⟨hi, o, ho, hio⟩, rfl⟩ := hr.surj j hj
  refine ⟨hj, p.place o, List.mem_map_of_mem ho, ?_⟩
  exact (hr.mem_lineage_iff hp.descending hp.kept_of_mem_lineage ⟨hi, o, ho, hio⟩
    (hp.kept_of_mem_order ho)).mpr hio

/-- Compaction moves the visible operations and leaves them as they are otherwise. -/
theorem WellPlaced.operations_compact (hp : p.WellPlaced) :
    p.compact.operations = p.operations.map (·.moved p.place) := by
  -- At its new place an operation is the old one.
  have hmoved : ∀ o ∈ p.order,
      p.compact.operation? (p.place o) = (p.operation? o).map (·.moved p.place) := by
    intro o ho
    have hop := Array.getElem?_eq_getElem (hp.lt_size o ho)
    rw [operation?, operation?, hop, Option.map_some, Operation.moved, hp.id_eq o _ hop]
    exact (compact_renumbers hp.id_eq).entry o _ (hp.kept_of_mem_order ho) hop
  calc p.compact.operations = p.order.filterMap fun o => p.compact.operation? (p.place o) :=
        List.filterMap_map
    _ = p.order.filterMap fun o => (p.operation? o).map (·.moved p.place) :=
        List.filterMap_congr hmoved
    _ = p.operations.map (·.moved p.place) := List.map_filterMap.symm

/-- So a program uses the same counters after it. -/
theorem WellPlaced.vars_compact (hp : p.WellPlaced) : p.compact.vars = p.vars := by
  have hused : p.compact.usedVars = p.usedVars := by
    rw [usedVars, usedVars, hp.operations_compact, List.flatMap_map]
    rfl
  rw [vars, vars, hused]

/-- And the same labels. -/
theorem WellPlaced.labels_compact (hp : p.WellPlaced) : p.compact.labels = p.labels := by
  have hused : p.compact.usedLabels = p.usedLabels := by
    rw [usedLabels, usedLabels, hp.operations_compact, List.flatMap_map]
    rfl
  rw [labels, labels, hused]

/-- Compaction by mark and sweep is compaction. -/
theorem WellPlaced.markAndSweep_eq (hp : p.WellPlaced) : p.markAndSweep = p.compact := by
  simp only [markAndSweep, foldl_markUp hp.descending]
  split
  · rename_i hall
    -- If all is marked, then there is nothing to be moved.
    refine (hp.compact_of_kept fun i hi => (marks_getD _ _).mp ?_).symm
    have hlt : i < (marks p.arena p.order).size := by rwa [size_marks]
    rw [Array.getElem?_eq_getElem hlt, Option.getD_some]
    exact Array.all_eq_true.mp hall i hlt
  · have hswept := hp.sweptTo
    have harena : (sweep p.arena (marks p.arena p.order)).arena = p.compact.arena := by
      rw [← Array.toList_inj, hswept.arena_eq, ← Array.length_toList, List.take_length]
      exact Array.toList_filterMap.symm
    have horder : p.order.filterMap (fun id =>
        (sweep p.arena (marks p.arena p.order)).places[id]?.join) = p.compact.order := by
      calc _ = p.order.filterMap (some ∘ p.place) :=
            List.filterMap_congr fun o ho =>
              hswept.place_eq o (hp.lt_size o ho) (hp.kept_of_mem_order ho)
        _ = p.order.map p.place := by rw [List.filterMap_eq_map]
    rw [harena, horder]
    rfl

end

end Program

/-- What an operation holds besides its place and the place of its parent. -/
def Operation.content (op : Operation) : Label × Instruction × Value × Nat :=
  (op.label, op.instruction, op.cycles, op.layer)

namespace Program

/-- A program has been compacted, and `f` says where the entries have been moved. -/
structure CompactedTo (p q : Program) (f : Nat → Nat) : Prop where
  frame : q = { p with arena := q.arena, order := q.order }
  /-- Exactly what is visible and what is above it is kept, in the same order, and nothing but the
  places of the kept entries changes. -/
  renumbers : Renumbers p.arena q.arena (Kept p.arena p.order) f
  /-- No kept entry loses its parent. -/
  parent : ∀ i k, Kept p.arena p.order i → parentOf p.arena i = some k →
    Kept p.arena p.order k ∧ parentOf q.arena (f i) = some (f k)
  /-- The entries before the first one that is dropped keep their places. -/
  fixed : ∀ i, (∀ j ≤ i, Kept p.arena p.order j) → f i = i
  order_eq : q.order = p.order.map f
  provenance : ∀ i, Kept p.arena p.order i →
    q.provenance (f i) = (p.provenance i).map (·.moved f)
  /-- At every position the same operations are found on the way up. -/
  contents : q.order.map (fun o => (q.provenance o).map Operation.content) =
    p.order.map fun o => (p.provenance o).map Operation.content

section

variable {p : Program}

/-- Compaction keeps exactly what the walks have marked, and moves it together. -/
theorem WellPlaced.compactedTo (hp : p.WellPlaced) : p.CompactedTo p.compact p.place := by
  have hr := compact_renumbers hp.id_eq
  have hprovenance : ∀ i, Kept p.arena p.order i →
      p.compact.provenance (p.place i) = (p.provenance i).map (·.moved p.place) :=
    fun i hi => hr.provenance_eq hp.id_eq hp.descending hp.kept_of_mem_lineage hi
  exact {
    frame := rfl
    renumbers := hr
    parent := fun i k hi hk => by
      refine ⟨hp.kept_of_mem_lineage i k hi (parent_mem_lineage hp.descending hk), ?_⟩
      rw [hr.parentOf_eq hi, hk, Option.map_some]
    fixed := fun i hi =>
      hr.eq_of_lt (n := i + 1) (fun j hj => hi j (Nat.le_of_lt_succ hj)) (Nat.lt_succ_self i)
    order_eq := rfl
    provenance := hprovenance
    contents := by
      calc (p.order.map p.place).map (fun o => (p.compact.provenance o).map Operation.content)
          = p.order.map (fun o => (p.compact.provenance (p.place o)).map Operation.content) :=
            List.map_map
        _ = p.order.map (fun o => (p.provenance o).map Operation.content) :=
            List.map_congr_left fun o ho => by
              rw [hprovenance o (hp.kept_of_mem_order ho), List.map_map]
              rfl }

/-- Compaction keeps what is visible and what is above it, with all that is found on the way up from
a visible operation. What it leaves can be compacted again, to no effect, and marking with walks
that end early and moving in a single sweep come to the same. -/
theorem WellPlaced.compact_lossless (hp : p.WellPlaced) :
    p.CompactedTo p.compact p.place ∧ p.compact.WellPlaced ∧ p.compact.compact = p.compact ∧
      p.markAndSweep = p.compact :=
  have hq := hp.wellPlaced_compact
  ⟨hp.compactedTo, hq, hq.compact_of_kept fun _ hj => hp.kept_compact hj, hp.markAndSweep_eq⟩

/-- Two entries are dropped between others that stay, and what stays behind them moves up. -/
theorem compact_lossless_gap :
    let entry : Nat → Option Nat → Nat → Operation := fun id parent layer =>
      { id, label := .empty, instruction := .neutral .result, cycles := 0, parent, layer }
    let p : Program :=
      { name := "gap", displayName := none, inputs := [], functions := none
        arena := #[entry 0 none 0, entry 1 none 0, entry 2 (some 0) 1, entry 3 (some 1) 1,
          entry 4 (some 0) 1, entry 5 (some 3) 2]
        order := [5, 0] }
    let q : Program :=
      { p with
        arena := #[entry 0 none 0, entry 1 none 0, entry 2 (some 1) 1, entry 3 (some 2) 2]
        order := [3, 0] }
    p.WellPlaced ∧ p.CompactedTo q p.place ∧ q.WellPlaced ∧ q.compact = q ∧ p.markAndSweep = q := by
  intro entry p q
  have hp : p.WellPlaced := by decide
  have harena : p.compact.arena = q.arena := by decide +kernel
  have horder : p.compact.order = q.order := by decide +kernel
  have hq : p.compact = q := by
    have hframe : p.compact = { p with arena := p.compact.arena, order := p.compact.order } := rfl
    rw [hframe, harena, horder]
  have hlossless := hp.compact_lossless
  rw [hq] at hlossless
  exact ⟨hp, hlossless⟩

end

end Program

end CounterMachine
