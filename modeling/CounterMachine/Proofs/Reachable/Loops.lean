import CounterMachine.Proofs.Reachable.Sweep

/-!
# The loops of the two collapses

Both collapses let visible operations give way, and list what stands for them where it is wanted
first. They can do so in one pass each, without looking for what is listed already: a collapse of
the deepest layer remembers the parents that it has restored, and a collapse to one ancestor
remembers whether the ancestor has been placed. Operations that stay are listed without a look. That
is enough where the order has no duplicates and shows no parent of a visible operation.

## Key definitions

- `Program.restoreParents`: the pass that restores parents
- `Program.placeOnce`: the pass that places one ancestor

## Key results

- `replaceOnce_eq_keepFirst`: what is remembered is enough
- `Program.WellPlaced.restoreParents_eq`, `Program.WellPlaced.placeOnce_eq`: the passes list first
  occurrences
- `Program.Grown.collapse_eq`, `Program.Grown.collapseSingle_eq`: collapses by these passes
-/

namespace CounterMachine

/-! ### First occurrences, one after the other -/

/-- A list without what has been seen before and what is repeated. -/
def keepFirst (seen : List Nat) : List Nat → List Nat
  | [] => []
  | id :: ids => if id ∈ seen then keepFirst seen ids else id :: keepFirst (id :: seen) ids

/-- Marks of an array and a list of what was seen are two ways to remember places. -/
private theorem foldl_eq_keepFirst (ids : List Nat) (marks : Array Bool) (acc : Array Nat)
    (seen : List Nat) (hlt : ∀ i ∈ ids, i < marks.size)
    (hseen : ∀ i < marks.size, marks[i]?.getD false = true ↔ i ∈ seen) :
    (ids.foldl (fun (seen : Array Bool × Array Nat) id =>
      if seen.1[id]?.getD false then seen
      else (seen.1.setIfInBounds id true, seen.2.push id)) (marks, acc)).2.toList =
        acc.toList ++ keepFirst seen ids := by
  induction ids generalizing marks acc seen with
  | nil => exact (List.append_nil _).symm
  | cons id ids ih =>
    obtain ⟨hid, hids⟩ := List.forall_mem_cons.mp hlt
    rw [List.foldl_cons, keepFirst]
    by_cases hmem : id ∈ seen
    · rw [if_pos ((hseen id hid).mpr hmem), if_pos hmem]
      exact ih marks acc seen hids hseen
    · -- Something new is marked on one side and remembered on the other.
      rw [if_neg ((hseen id hid).not.mpr hmem), if_neg hmem]
      rw [ih (marks.setIfInBounds id true) (acc.push id) (id :: seen) (by simpa using hids) ?_]
      · rw [Array.toList_push, List.append_assoc, List.singleton_append]
      · intro i hi
        rw [Array.size_setIfInBounds] at hi
        rw [Array.getElem?_setIfInBounds, List.mem_cons]
        by_cases heq : id = i
        · simp [heq, hi]
        · rw [if_neg heq, hseen i hi]
          simp [Ne.symm heq]

/-- First occurrences are found by remembering what was seen. -/
theorem firstOccurrences_eq_keepFirst {bound : Nat} {ids : List Nat} (h : ∀ i ∈ ids, i < bound) :
    firstOccurrences bound ids = keepFirst [] ids := by
  refine (foldl_eq_keepFirst ids (Array.replicate bound false) #[] [] (by simpa using h) ?_).trans
    (List.nil_append _)
  intro i hi
  rw [Array.size_replicate] at hi
  simp [hi]

/-! ### Passes that remember less -/

section

variable {α : Type}

/-- Lists what stands for the members of a list: `up` where it says something, which is listed once,
and otherwise the member's own place. Only what was found by `up` is remembered. -/
def replaceOnce (up : α → Option Nat) (own : α → Nat) (seen : List Nat) : List α → List Nat
  | [] => []
  | x :: xs =>
    match up x with
    | some id =>
      if id ∈ seen then replaceOnce up own seen xs else id :: replaceOnce up own (id :: seen) xs
    | none => own x :: replaceOnce up own seen xs

/-- That is enough to list nothing twice, if the own places are different ones and no member that
stays is what stands for another one. -/
theorem replaceOnce_eq_keepFirst {up : α → Option Nat} {own : α → Nat} {xs : List α}
    (hnodup : (xs.map own).Nodup) (hapart : ∀ x ∈ xs, up x = none → ∀ y ∈ xs, up y ≠ some (own x))
    {seen seen' : List Nat} (hseen : ∀ x ∈ xs, ∀ id, up x = some id → (id ∈ seen' ↔ id ∈ seen))
    (hown : ∀ x ∈ xs, up x = none → own x ∉ seen') :
    replaceOnce up own seen xs = keepFirst seen' (xs.map fun x => (up x).getD (own x)) := by
  -- The right side remembers more. What it remembers besides is never asked for.
  induction xs generalizing seen seen' with
  | nil => rfl
  | cons x xs ih =>
    rw [List.map_cons, List.nodup_cons] at hnodup
    obtain ⟨hnew, hnodup⟩ := hnodup
    have hapart' : ∀ y ∈ xs, up y = none → ∀ z ∈ xs, up z ≠ some (own y) :=
      fun y hy hnone z hz =>
        hapart y (List.mem_cons_of_mem x hy) hnone z (List.mem_cons_of_mem x hz)
    have hseen' := fun y hy => hseen y (List.mem_cons_of_mem x hy)
    have hown' := fun y hy => hown y (List.mem_cons_of_mem x hy)
    rw [List.map_cons, replaceOnce, keepFirst]
    cases hup : up x with
    | some id =>
      simp only [Option.getD_some, hseen x List.mem_cons_self id hup]
      split
      · exact ih hnodup hapart' hseen' hown'
      · -- What stands for `x` is remembered on both sides, and it is no member that stays.
        refine congrArg (id :: ·) (ih hnodup hapart' ?_ ?_)
        · exact fun y hy k hk => by rw [List.mem_cons, List.mem_cons, hseen' y hy k hk]
        · intro y hy hnone hmem
          rcases List.mem_cons.mp hmem with heq | hmem
          · exact hapart y (List.mem_cons_of_mem x hy) hnone x List.mem_cons_self (heq ▸ hup)
          · exact hown' y hy hnone hmem
    | none =>
      simp only [Option.getD_none, if_neg (hown x List.mem_cons_self hup)]
      -- The right side remembers `x`, too, but nobody asks for it again.
      refine congrArg (own x :: ·) (ih hnodup hapart' ?_ ?_)
      · intro y hy k hk
        have hne : k ≠ own x := fun heq =>
          hapart x List.mem_cons_self hup y (List.mem_cons_of_mem x hy) (heq ▸ hk)
        rw [List.mem_cons, or_iff_right hne, hseen' y hy k hk]
      · intro y hy hnone hmem
        rcases List.mem_cons.mp hmem with heq | hmem
        · exact hnew (heq ▸ List.mem_map_of_mem hy)
        · exact hown' y hy hnone hmem

end

namespace Program

/-! ### The two passes -/

/-- The order after a collapse of a layer: an operation on the layer is replaced by its parent,
unless that has been restored already, and the others stay. -/
def restoreParents (level : Nat) (restored : List Nat) : List Operation → List Nat
  | [] => []
  | op :: ops =>
    match if op.layer = level then op.parent else none with
    | some parent =>
      if parent ∈ restored then
        restoreParents level restored ops
      else
        parent :: restoreParents level (parent :: restored) ops
    | none => op.id :: restoreParents level restored ops

/-- The order after a collapse to an ancestor: what descends from the ancestor is replaced by it,
unless it has been placed already, and the others stay. -/
def placeOnce (p : Program) (ancestor : Nat) (placed : Bool) : List Nat → List Nat
  | [] => []
  | id :: ids =>
    if p.descends ancestor id then
      if placed then
        p.placeOnce ancestor true ids
      else
        ancestor :: p.placeOnce ancestor true ids
    else
      id :: p.placeOnce ancestor placed ids

/-- Restoring parents remembers the parents only. -/
theorem restoreParents_eq_replaceOnce (level : Nat) (restored : List Nat) (ops : List Operation) :
    restoreParents level restored ops =
      replaceOnce (fun op => if op.layer = level then op.parent else none) Operation.id restored
        ops := by
  induction ops generalizing restored with
  | nil => rfl
  | cons op ops ih => simp only [restoreParents, replaceOnce, ih]

/-- Placing an ancestor remembers the ancestor only, for which a flag will do. -/
theorem placeOnce_eq_replaceOnce (p : Program) (ancestor : Nat) (placed : Bool) (ids : List Nat) :
    p.placeOnce ancestor placed ids =
      replaceOnce (fun id => if p.descends ancestor id then some ancestor else none) id
        (if placed then [ancestor] else []) ids := by
  induction ids generalizing placed with
  | nil => rfl
  | cons first ids ih =>
    rw [placeOnce, replaceOnce]
    by_cases hbelow : p.descends ancestor first = true
    · cases placed <;> simp [hbelow, ih]
    · simp [hbelow, ih]

section

variable {p source : Program}

/-- The visible operations stand at the places that the order lists. -/
theorem WellPlaced.map_id_operations (hp : p.WellPlaced) :
    p.operations.map Operation.id = p.order := by
  have hentry : ∀ i ∈ p.order, (p.operation? i).map Operation.id = some i := fun i hi => by
    rw [operation?, Array.getElem?_eq_getElem (hp.lt_size i hi), Option.map_some,
      hp.id_eq i _ (Array.getElem?_eq_getElem (hp.lt_size i hi))]
  rw [operations, List.map_filterMap, List.filterMap_congr hentry, List.filterMap_some]

/-- The pass that restores parents lists first occurrences, if the order has no duplicates and shows
no parent. -/
theorem WellPlaced.restoreParents_eq (hp : p.WellPlaced) (hnodup : p.order.Nodup)
    (hshows : ∀ i ∈ p.order, ∀ j ∈ p.order, parentOf p.arena j ≠ some i) (level : Nat) :
    restoreParents level [] p.operations =
      firstOccurrences p.arena.size (p.order.map (p.parentOnLayer level)) := by
  have hparent : ∀ op ∈ p.operations, op.id ∈ p.order ∧ p.arena[op.id]? = some op := by
    intro op hop
    obtain ⟨i, hi, hentry⟩ := mem_operations.mp hop
    obtain rfl := hp.id_eq i op hentry
    exact ⟨hi, hentry⟩
  have hstand : p.order.map (p.parentOnLayer level) =
      p.operations.map fun op => (if op.layer = level then op.parent else none).getD op.id := by
    rw [← hp.map_id_operations, List.map_map]
    refine List.map_congr_left fun op hop => ?_
    rw [Function.comp_apply, parentOnLayer_eq (hparent op hop).2]
    split <;> rfl
  -- Parents stand before their children, so all that is listed is in the arena.
  have hbound : ∀ i ∈ p.order.map (p.parentOnLayer level), i < p.arena.size := by
    rw [hstand]
    refine List.forall_mem_map.mpr fun op hop => ?_
    obtain ⟨hvisible, hentry⟩ := hparent op hop
    have hlt := hp.lt_size _ hvisible
    split
    · cases hk : op.parent with
      | none => exact hlt
      | some k => exact (hp.descending _ k ((parentOf_of_getElem? hentry).trans hk)).trans hlt
    · exact hlt
  rw [firstOccurrences_eq_keepFirst hbound, hstand, restoreParents_eq_replaceOnce]
  refine replaceOnce_eq_keepFirst (hp.map_id_operations ▸ hnodup) ?_ (fun _ _ _ _ => Iff.rfl)
    fun _ _ _ => List.not_mem_nil
  -- What stands for an operation is its parent, and no parent is visible.
  intro x hx _ y hy hup
  obtain ⟨hvisible, hentry⟩ := hparent y hy
  refine hshows x.id (hparent x hx).1 y.id hvisible ?_
  rw [parentOf_of_getElem? hentry]
  split at hup
  · exact hup
  · cases hup

/-- So does the pass that places one ancestor. An operation that stays does not descend from it, so
it is not the ancestor itself. -/
theorem WellPlaced.placeOnce_eq (hp : p.WellPlaced) (hnodup : p.order.Nodup) {ancestor : Nat}
    (hancestor : ancestor < p.arena.size) :
    p.placeOnce ancestor false p.order =
      firstOccurrences p.arena.size
        (p.order.map fun id => if p.descends ancestor id then ancestor else id) := by
  have hbound : ∀ i ∈ p.order.map fun id => if p.descends ancestor id then ancestor else id,
      i < p.arena.size := by
    refine List.forall_mem_map.mpr fun i hi => ?_
    split
    · exact hancestor
    · exact hp.lt_size i hi
  have hstand : (p.order.map fun id => if p.descends ancestor id then ancestor else id) =
      p.order.map fun i => (if p.descends ancestor i then some ancestor else none).getD (id i) :=
    List.map_congr_left fun i _ => by split <;> rfl
  rw [firstOccurrences_eq_keepFirst hbound, hstand, placeOnce_eq_replaceOnce]
  refine replaceOnce_eq_keepFirst (by rwa [List.map_id]) ?_ (fun _ _ _ _ => Iff.rfl)
    fun _ _ _ => List.not_mem_nil
  intro x _ hstays y _ hup
  have hself : p.descends ancestor ancestor = true := by simp [descends, lineage]
  split at hup
  · -- The ancestor descends from itself, so it would not stay.
    have hx : ancestor = x := Option.some.inj hup
    rw [← hx, if_pos hself] at hstays
    cases hstays
  · cases hup

/-- What has grown from a source is fit for both passes. -/
theorem Grown.wellPlaced (h : Grown source p) : p.WellPlaced :=
  ⟨h.forest.id_eq, h.forest.descending, fun _ hi => h.forest.lt_size hi⟩

/-- Collapsing is restoring the parents of the deepest layer in one pass. -/
theorem Grown.collapse_eq (h : Grown source p) :
    p.collapse = if p.level = 0 then .error (.invalidDegree (-1) p.degree)
      else .ok { p with order := restoreParents p.level [] p.operations }.compact := by
  rw [collapse, h.wellPlaced.restoreParents_eq h.forest.nodup fun i hi j _ =>
    ((h.forest.mem_order i).mp hi).2 j]
  rfl

/-- Collapsing to an ancestor is placing it in one pass. -/
theorem Grown.collapseSingle_eq (h : Grown source p) {id levels ancestor : Nat}
    (hid : id ∈ p.order) (hancestor : (lineage p.arena id)[levels]? = some ancestor) :
    p.collapseSingle id levels =
      .ok { p with order := p.placeOnce ancestor false p.order }.compact := by
  obtain ⟨position, hpos⟩ := exists_positionOf? hid
  have hlt : ancestor < p.arena.size :=
    Forest.lt_size_of_mem_lineage (h.forest.lt_size hid) (List.mem_of_getElem? hancestor)
  rw [h.wellPlaced.placeOnce_eq h.forest.nodup hlt]
  simp only [collapseSingle, hpos, hancestor]
  rfl

end

end Program

end CounterMachine
