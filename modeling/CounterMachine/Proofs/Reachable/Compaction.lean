import CounterMachine.Expansion.Collapse
import CounterMachine.Proofs.Forest.Renumbering

/-!
# What compaction does to an arena

Compaction keeps the entries that are visible or above something visible, and moves them together:
it renumbers the kept entries.

## Key results

- `Program.compact_renumbers`: compaction is such a renumbering
- `firstOccurrences_sublist`, `mem_firstOccurrences`, `nodup_firstOccurrences`: the places that
  stay visible
-/

namespace CounterMachine

/-! ### Lists -/

section

variable {α β : Type}

/-- A result of `filterMap` stands behind the results for the elements before it. -/
theorem getElem?_filterMap_take (f : α → Option β) (xs : List α) {i : Nat} (hi : i < xs.length)
    {b : β} (hb : f xs[i] = some b) :
    (xs.filterMap f)[((xs.take i).filterMap f).length]? = some b := by
  -- The list is split at the element.
  have hsplit : xs.filterMap f =
      (xs.take i).filterMap f ++ b :: (xs.drop (i + 1)).filterMap f := by
    conv => lhs; rw [← List.take_append_drop i xs, List.drop_eq_getElem_cons hi]
    rw [List.filterMap_append, List.filterMap_cons_some hb]
  rw [hsplit, List.getElem?_append_right (Nat.le_refl _), Nat.sub_self, List.getElem?_cons_zero]

/-- Every result of `filterMap` comes from an element. -/
theorem exists_of_lt_length_filterMap (f : α → Option β) (xs : List α) {j : Nat}
    (h : j < (xs.filterMap f).length) :
    ∃ i, ∃ hi : i < xs.length, (f xs[i]).isSome ∧ ((xs.take i).filterMap f).length = j := by
  -- An element with no result is passed over, and its place is counted all the same.
  induction xs generalizing j with
  | nil => exact absurd h (Nat.not_lt_zero j)
  | cons x xs ih =>
    cases hx : f x with
    | none =>
      rw [List.filterMap_cons_none hx] at h
      obtain ⟨i, hi, hsome, hlen⟩ := ih h
      refine ⟨i + 1, Nat.succ_lt_succ hi, hsome, ?_⟩
      rw [List.take_succ_cons, List.filterMap_cons_none hx, hlen]
    | some b =>
      rw [List.filterMap_cons_some hx] at h
      cases j with
      | zero => exact ⟨0, Nat.succ_pos _, by simp [hx], rfl⟩
      | succ j =>
        obtain ⟨i, hi, hsome, hlen⟩ := ih (Nat.lt_of_succ_lt_succ h)
        refine ⟨i + 1, Nat.succ_lt_succ hi, hsome, ?_⟩
        rw [List.take_succ_cons, List.filterMap_cons_some hx, List.length_cons, hlen]

end

/-! ### Marks -/

section

variable {i : Nat}

private theorem size_foldl_set (ids : List Nat) (marks : Array Bool) :
    (ids.foldl (·.setIfInBounds · true) marks).size = marks.size := by
  induction ids generalizing marks with
  | nil => rfl
  | cons id ids ih => rw [List.foldl_cons, ih, Array.size_setIfInBounds]

/-- Marked is then what was marked before, and what is listed. -/
theorem getD_foldl_set (ids : List Nat) (marks : Array Bool) :
    (ids.foldl (·.setIfInBounds · true) marks)[i]?.getD false = true ↔
      marks[i]?.getD false = true ∨ (i < marks.size ∧ i ∈ ids) := by
  induction ids generalizing marks with
  | nil => simp
  | cons id ids ih =>
    rw [List.foldl_cons, ih, Array.size_setIfInBounds, Array.getElem?_setIfInBounds]
    by_cases h : id = i
    · subst h
      by_cases hlt : id < marks.size <;> simp [hlt]
    · simp [h, Ne.symm h]

/-- Marked is what is listed or above something listed. -/
theorem marks_getD (arena : Array Operation) (order : List Nat) :
    (marks arena order)[i]?.getD false = true ↔ Kept arena order i := by
  -- The marks that have been set so far are a parameter.
  have general : ∀ (order : List Nat) (ms : Array Bool), ms.size = arena.size →
      ((order.foldl (fun ms id => (lineage arena id).foldl (·.setIfInBounds · true) ms)
        ms)[i]?.getD false = true ↔
          ms[i]?.getD false = true ∨ (i < arena.size ∧ ∃ o ∈ order, i ∈ lineage arena o)) := by
    intro order
    induction order with
    | nil => simp
    | cons id order ih =>
      intro ms hms
      rw [List.foldl_cons, ih _ (by rw [size_foldl_set, hms]), getD_foldl_set, hms]
      simp only [List.mem_cons, exists_eq_or_imp]
      rw [and_or_left, or_assoc]
  have hstart : (Array.replicate arena.size false)[i]?.getD false = false := by
    rw [Array.getElem?_replicate]
    split <;> rfl
  rw [marks, general order _ Array.size_replicate, hstart, Kept]
  simp

/-- There is one mark for each entry. -/
theorem size_marks (arena : Array Operation) (order : List Nat) :
    (marks arena order).size = arena.size := by
  have general : ∀ (order : List Nat) (ms : Array Bool),
      (order.foldl (fun ms id => (lineage arena id).foldl (·.setIfInBounds · true) ms)
        ms).size = ms.size := by
    intro order
    induction order with
    | nil => exact fun _ => rfl
    | cons id order ih => exact fun ms => by rw [List.foldl_cons, ih, size_foldl_set]
  rw [marks, general, Array.size_replicate]

end

/-! ### Places -/

private theorem toList_places_foldl (ms : List Bool) (acc : Array Nat) (n : Nat) :
    (ms.foldl (fun (before : Array Nat × Nat) marked =>
      (before.1.push before.2, if marked then before.2 + 1 else before.2)) (acc, n)).1.toList =
        acc.toList ++ (List.range ms.length).map fun i => n + (ms.take i).count true := by
  induction ms generalizing acc n with
  | nil => simp
  | cons m ms ih =>
    rw [List.foldl_cons, ih, Array.toList_push, List.append_assoc, List.length_cons,
      List.range_succ_eq_map, List.map_cons, List.map_map]
    congr 1
    rw [List.singleton_append]
    congr 1
    refine List.map_congr_left fun i _ => ?_
    cases m <;> simp
    omega

/-- The place of an entry is the number of marked entries before it. -/
theorem places_getElem? (ms : Array Bool) {i : Nat} (h : i < ms.size) :
    (places ms)[i]? = some ((ms.toList.take i).count true) := by
  rw [places, ← Array.foldl_toList, ← Array.getElem?_toList, toList_places_foldl]
  simp [h]

namespace Program

/-- Where compaction moves an entry. -/
def place (p : Program) (id : Nat) : Nat := (places (marks p.arena p.order))[id]?.getD id

/-- What compaction does to a single entry. -/
def kept? (p : Program) (op : Operation) : Option Operation :=
  if (marks p.arena p.order)[op.id]?.getD false then
    some { op with id := p.place op.id, parent := op.parent.map p.place }
  else
    none

section

variable {p : Program} (hid : ∀ (i : Nat) (op : Operation), p.arena[i]? = some op → op.id = i)
include hid

/-- Compaction keeps the entries that are visible or above something visible. -/
theorem isSome_kept? {i : Nat} {op : Operation} (hop : p.arena[i]? = some op) :
    (p.kept? op).isSome ↔ Kept p.arena p.order i := by
  rw [kept?, hid i op hop, ← marks_getD]
  split <;> simp_all

/-- The place of an entry is the number of kept entries before it. -/
theorem place_eq {i : Nat} (h : i < p.arena.size) :
    p.place i = ((p.arena.toList.take i).filterMap p.kept?).length := by
  -- An entry is marked just if it is kept, so counting marks is counting what the filter keeps.
  have hmarks : (marks p.arena p.order).toList =
      p.arena.toList.map fun op => (p.kept? op).isSome := by
    apply List.ext_getElem?
    intro k
    rw [Array.getElem?_toList, List.getElem?_map, Array.getElem?_toList]
    cases hk : p.arena[k]? with
    | none =>
      rw [Array.getElem?_eq_none_iff] at hk
      rw [Array.getElem?_eq_none (by rwa [size_marks]), Option.map_none]
    | some op =>
      have hlt : k < (marks p.arena p.order).size := by
        rw [size_marks]
        exact (Array.getElem?_eq_some_iff.mp hk).1
      have hiff := (isSome_kept? hid hk).trans (marks_getD p.arena p.order).symm
      rw [Array.getElem?_eq_getElem hlt, Option.getD_some] at hiff
      rw [Array.getElem?_eq_getElem hlt, Option.map_some, Bool.eq_iff_iff.mpr hiff]
  rw [place, places_getElem? _ (by rwa [size_marks]), Option.getD_some, hmarks, ← List.map_take,
    List.count, List.countP_map, List.length_filterMap_eq_countP]
  exact List.countP_congr fun op _ => by simp

/-- Of two kept entries, the earlier one keeps the smaller place. -/
theorem place_lt_place {i j : Nat} (hi : Kept p.arena p.order i) (hj : Kept p.arena p.order j)
    (hij : i < j) : p.place i < p.place j := by
  obtain ⟨op, hop⟩ : ∃ op, p.arena[i]? = some op := ⟨_, Array.getElem?_eq_getElem hi.1⟩
  have hget : (p.arena.toList.take j)[i]? = some op := by
    rw [List.getElem?_take_of_lt hij, Array.getElem?_toList, hop]
  -- The entry itself is one of the kept entries before the later one.
  have hsplit : p.arena.toList.take j =
      p.arena.toList.take i ++ op :: (p.arena.toList.take j).drop (i + 1) := by
    obtain ⟨hlt, hop'⟩ := List.getElem?_eq_some_iff.mp hget
    conv => lhs; rw [← List.take_append_drop i (p.arena.toList.take j),
      List.drop_eq_getElem_cons hlt, hop', List.take_take, Nat.min_eq_left (Nat.le_of_lt hij)]
  obtain ⟨b, hb⟩ := Option.isSome_iff_exists.mp ((isSome_kept? hid hop).mpr hi)
  rw [place_eq hid hi.1, place_eq hid hj.1, hsplit, List.filterMap_append, List.length_append,
    List.filterMap_cons_some hb, List.length_cons]
  omega

/-- Compaction renumbers the entries that are visible or above something visible. -/
theorem compact_renumbers :
    Renumbers p.arena p.compact.arena (Kept p.arena p.order) p.place := by
  have harena : p.compact.arena.toList = p.arena.toList.filterMap p.kept? :=
    Array.toList_filterMap
  refine ⟨fun i hi => hi.1, fun i j => place_lt_place hid, ?_, ?_⟩
  · -- A kept entry stands behind the kept ones before it.
    intro i op hk hop
    have hlt : i < p.arena.toList.length := hk.1
    have hget : p.arena.toList[i] = op := by
      rw [Array.getElem_toList]
      exact (Array.getElem?_eq_some_iff.mp hop).2
    rw [← Array.getElem?_toList, harena, place_eq hid hk.1]
    refine getElem?_filterMap_take p.kept? _ hlt ?_
    rw [hget, kept?, hid i op hop, if_pos ((marks_getD _ _).mpr hk), place_eq hid hk.1]
  · -- Every entry of the smaller arena was a kept one.
    intro j hj
    rw [← Array.length_toList, harena] at hj
    obtain ⟨i, hi, hsome, hlen⟩ := exists_of_lt_length_filterMap _ _ hj
    have hi' : i < p.arena.size := hi
    have hop : p.arena[i]? = some p.arena.toList[i] := by
      rw [Array.getElem_toList, Array.getElem?_eq_getElem hi']
    exact ⟨i, (isSome_kept? hid hop).mp hsome, by rw [place_eq hid hi', hlen]⟩

end

end Program

/-! ### First occurrences -/

section

/-- What is kept of a list of places, given the places that were seen before. -/
private theorem firstOccurrences_foldl (ids : List Nat) (seen : Array Bool) (acc : Array Nat)
    (hlt : ∀ i ∈ ids, i < seen.size) :
    ∃ found : List Nat,
      (ids.foldl (fun (seen : Array Bool × Array Nat) id =>
        if seen.1[id]?.getD false then seen
        else (seen.1.setIfInBounds id true, seen.2.push id)) (seen, acc)).2.toList =
          acc.toList ++ found ∧
      found.Sublist ids ∧ found.Nodup ∧
      ∀ i, i ∈ found ↔ i ∈ ids ∧ seen[i]?.getD false = false := by
  induction ids generalizing seen acc with
  | nil => exact ⟨[], by simp, .slnil, List.nodup_nil, by simp⟩
  | cons id ids ih =>
    have hid : id < seen.size := hlt id List.mem_cons_self
    have hids : ∀ i ∈ ids, i < seen.size := fun i hi => hlt i (List.mem_cons_of_mem _ hi)
    rw [List.foldl_cons]
    by_cases hseen : seen[id]?.getD false = true
    · rw [if_pos hseen]
      obtain ⟨found, heq, hsub, hnodup, hmem⟩ := ih seen acc hids
      refine ⟨found, heq, hsub.cons id, hnodup, fun i => ?_⟩
      rw [hmem, List.mem_cons]
      grind
    · rw [if_neg hseen]
      obtain ⟨found, heq, hsub, hnodup, hmem⟩ :=
        ih (seen.setIfInBounds id true) (acc.push id) (by simpa using hids)
      -- From now on the place counts as seen.
      have hset : ∀ i, (seen.setIfInBounds id true)[i]?.getD false = false ↔
          i ≠ id ∧ seen[i]?.getD false = false := by
        intro i
        rw [Array.getElem?_setIfInBounds]
        by_cases h : id = i
        · subst h; simp [hid]
        · simp [h, Ne.symm h]
      refine ⟨id :: found, ?_, hsub.cons_cons id, ?_, fun i => ?_⟩
      · rw [heq, Array.toList_push, List.append_assoc, List.singleton_append]
      · refine List.nodup_cons.mpr ⟨fun h => ?_, hnodup⟩
        exact ((hset id).mp ((hmem id).mp h).2).1 rfl
      · rw [List.mem_cons, hmem, hset, List.mem_cons]
        grind

variable {bound : Nat} {ids : List Nat} (hlt : ∀ i ∈ ids, i < bound)
include hlt

private theorem firstOccurrences_spec :
    (firstOccurrences bound ids).Sublist ids ∧ (firstOccurrences bound ids).Nodup ∧
      ∀ i, i ∈ firstOccurrences bound ids ↔ i ∈ ids := by
  obtain ⟨found, heq, hsub, hnodup, hmem⟩ :=
    firstOccurrences_foldl ids (Array.replicate bound false) #[] (by simpa using hlt)
  have hfound : firstOccurrences bound ids = found := by
    rw [firstOccurrences, heq, List.nil_append]
  rw [hfound]
  -- Before the first place, nothing counts as seen.
  refine ⟨hsub, hnodup, fun i => (hmem i).trans (and_iff_left ?_)⟩
  rw [Array.getElem?_replicate]
  split <;> rfl

/-- The order of the places stays. -/
theorem firstOccurrences_sublist : (firstOccurrences bound ids).Sublist ids :=
  (firstOccurrences_spec hlt).1

/-- No place is listed twice. -/
theorem nodup_firstOccurrences : (firstOccurrences bound ids).Nodup :=
  (firstOccurrences_spec hlt).2.1

/-- Every place is still listed. -/
theorem mem_firstOccurrences {i : Nat} : i ∈ firstOccurrences bound ids ↔ i ∈ ids :=
  (firstOccurrences_spec hlt).2.2 i

end

end CounterMachine
