import CounterMachine.Proofs.Reachable.Compaction
import CounterMachine.Proofs.Reachable.Derivation

/-!
# Visible operations that give way to their ancestors

Both ways of collapsing let visible operations give way to ancestors of theirs, and such an
ancestor takes the place of everything visible below it. Then whole families leave the arena: a
child never leaves without its siblings. So what is left is still a forest whose entries were
derived.

## Key results

- `Stands.frontier`: the operations that stay visible
- `Stands.sibling_kept`: children of one entry stay or leave together
- `Forest.giveWay`, `Derived.giveWay`, `Rooted.giveWay`: what is kept
-/

namespace CounterMachine

/-- Every visible operation has one above it (or itself) to give way to, and so does everything
visible below that one. -/
structure Stands (arena : Array Operation) (order : List Nat) (stand : Nat → Nat) : Prop where
  up : ∀ o ∈ order, stand o ∈ lineage arena o
  whole : ∀ a ∈ order, ∀ b ∈ order, stand a ∈ lineage arena b → stand b = stand a

/-- The first entries of an arena are those of a source, and they are its roots. -/
structure Rooted (source arena : Array Operation) : Prop where
  entry : ∀ i < source.size, arena[i]? = source[i]?
  root_iff : ∀ i < arena.size, (parentOf arena i = none ↔ i < source.size)

/-- The places that stay visible. -/
def standing (arena : Array Operation) (order : List Nat) (stand : Nat → Nat) : List Nat :=
  firstOccurrences arena.size (order.map stand)

section

variable {arena : Array Operation} {order : List Nat} {stand : Nat → Nat}

namespace Stands

private theorem lt_size (hs : Stands arena order stand) (hf : Forest arena order) :
    ∀ i ∈ order.map stand, i < arena.size := by
  intro i hi
  obtain ⟨o, ho, rfl⟩ := List.mem_map.mp hi
  exact Forest.lt_size_of_mem_lineage (hf.lt_size ho) (hs.up o ho)

/-- What is visible afterwards is what stands for something visible before. -/
theorem mem_standing (hs : Stands arena order stand) (hf : Forest arena order) {i : Nat} :
    i ∈ standing arena order stand ↔ ∃ o ∈ order, stand o = i := by
  rw [standing, mem_firstOccurrences (hs.lt_size hf), List.mem_map]

/-- None of the operations that stay visible is above another one. -/
theorem apart (hs : Stands arena order stand) {a b : Nat} (ha : a ∈ order) (hb : b ∈ order)
    (hd : Descending arena) (h : stand a ∈ lineage arena (stand b)) : stand a = stand b :=
  (hs.whole a ha b hb (mem_lineage_trans hd h (hs.up b hb))).symm

/-- The operations that stay visible keep their order. -/
theorem frontier (hs : Stands arena order stand) (hf : Forest arena order) :
    Frontier arena (standing arena order stand) := by
  have hd := hf.descending
  refine ⟨fun o ho => ?_, ?_, fun a ha b hb h => ?_⟩
  · obtain ⟨o, ho', rfl⟩ := (hs.mem_standing hf).mp ho
    exact Forest.lt_size_of_mem_lineage (hf.lt_size ho') (hs.up o ho')
  · have hsorted : (order.map stand).Pairwise fun a b => a = b ∨ Before arena a b := by
      rw [List.pairwise_map]
      refine hf.sorted.imp_of_mem fun {a b} ha hb h => ?_
      by_cases heq : stand a = stand b
      · exact .inl heq
      · refine .inr (before_of_descendants hd h ?_ ?_ (hs.up a ha) (hs.up b hb))
        · exact fun h => heq (hs.apart ha hb hd h)
        · exact fun h => heq (hs.apart hb ha hd h).symm
    -- The first occurrences are all different, so what is left of the order is strict.
    have hsub := hsorted.sublist (firstOccurrences_sublist (hs.lt_size hf))
    exact hsub.imp₂ (fun a b h hne => h.resolve_left hne)
      (nodup_firstOccurrences (hs.lt_size hf))
  · obtain ⟨a, ha', rfl⟩ := (hs.mem_standing hf).mp ha
    obtain ⟨b, hb', rfl⟩ := (hs.mem_standing hf).mp hb
    exact hs.apart ha' hb' hd h

/-- Above or below every entry something stays visible. -/
theorem exists_standing (hs : Stands arena order stand) (hf : Forest arena order) {i : Nat}
    (hi : i < arena.size) : ∃ o ∈ order, i ∈ lineage arena o ∧
      (i ∈ lineage arena (stand o) ∨ stand o ∈ lineage arena i) := by
  obtain ⟨o, ho, hio⟩ := hf.exists_visible hi
  exact ⟨o, ho, hio, mem_lineage_total hf.descending hio (hs.up o ho)⟩

/-- The siblings of an entry that stays, stay. -/
theorem sibling_kept (hs : Stands arena order stand) (hf : Forest arena order) {i j k : Nat}
    (hi : parentOf arena i = some k) (hj : parentOf arena j = some k)
    (hkept : Kept arena (standing arena order stand) i) :
    Kept arena (standing arena order stand) j := by
  have hd := hf.descending
  have hjlt := lt_size_of_parentOf hj
  obtain ⟨_, o, ho, hio⟩ := hkept
  obtain ⟨a, ha, rfl⟩ := (hs.mem_standing hf).mp ho
  obtain ⟨b, hb, hjb, habove | hbelow⟩ := hs.exists_standing hf hjlt
  · exact ⟨hjlt, stand b, (hs.mem_standing hf).mpr ⟨b, hb, rfl⟩, habove⟩
  by_cases heq : stand b = j
  · exact ⟨hjlt, stand b, (hs.mem_standing hf).mpr ⟨b, hb, rfl⟩, heq ▸ self_mem_lineage arena _⟩
  · -- Otherwise the whole family would give way, the kept entry included.
    have hbk := mem_lineage_parent hd hj hbelow heq
    have hbi := mem_lineage_trans hd hbk (parent_mem_lineage hd hi)
    have hab := hs.whole b hb a ha
      (mem_lineage_trans hd hbi (mem_lineage_trans hd hio (hs.up a ha)))
    rw [hab] at hio
    have := le_of_mem_lineage hio
    have := le_of_mem_lineage hbk
    have := hd i k hi
    omega

/-- Source operations stay. -/
theorem root_kept (hs : Stands arena order stand) (hf : Forest arena order) {i : Nat}
    (hi : i < arena.size) (hroot : parentOf arena i = none) :
    Kept arena (standing arena order stand) i := by
  obtain ⟨o, ho, _, habove | hbelow⟩ := hs.exists_standing hf hi
  · exact ⟨hi, stand o, (hs.mem_standing hf).mpr ⟨o, ho, rfl⟩, habove⟩
  · rw [lineage_of_root _ _ hroot, List.mem_singleton] at hbelow
    exact ⟨hi, stand o, (hs.mem_standing hf).mpr ⟨o, ho, rfl⟩, hbelow ▸ self_mem_lineage arena _⟩

end Stands

/-! ### Entries that are renumbered -/

variable {arena' : Array Operation} {keep : Nat → Prop} {f : Nat → Nat} {k : Nat}

/-- Children are listed in the order of their places. -/
theorem childIds_pairwise (arena : Array Operation) (k : Nat) :
    (childIds arena k).Pairwise (· < ·) :=
  List.pairwise_lt_range.sublist List.filter_sublist

/-- A whole family moves. -/
theorem Renumbers.childIds_eq (hr : Renumbers arena arena' keep f)
    (hclosed : ∀ i p, keep i → parentOf arena i = some p → keep p) (hk : keep k)
    (hall : ∀ j, parentOf arena j = some k → keep j) :
    childIds arena' (f k) = (childIds arena k).map f := by
  have hmono : ((childIds arena k).map f).Pairwise (· < ·) := by
    rw [List.pairwise_map]
    refine (childIds_pairwise arena k).imp_of_mem fun {a b} ha hb h => ?_
    exact hr.mono a b (hall a (mem_childIds.mp ha)) (hall b (mem_childIds.mp hb)) h
  -- Both are sorted, so it is enough that they have the same children.
  refine (childIds_pairwise arena' (f k)).eq_of_mem_iff hmono fun {j} => ?_
  rw [mem_childIds, List.mem_map]
  constructor
  · intro hj
    obtain ⟨i, hi, rfl⟩ := hr.surj j (lt_size_of_parentOf hj)
    rw [hr.parentOf_eq hi, Option.map_eq_some_iff] at hj
    obtain ⟨p, hp, hpk⟩ := hj
    rw [hr.inj (hclosed i p hi hp) hk hpk] at hp
    exact ⟨i, mem_childIds.mpr hp, rfl⟩
  · rintro ⟨i, hi, rfl⟩
    have hi := mem_childIds.mp hi
    rw [hr.parentOf_eq (hall i hi), hi, Option.map_some]

/-- Entries keep their lines. -/
theorem Renumbers.linesAt_map (hr : Renumbers arena arena' keep f) {ids : List Nat}
    (hids : ∀ i ∈ ids, keep i) : linesAt arena' (ids.map f) = linesAt arena ids := by
  rw [linesAt, linesAt, List.filterMap_map]
  refine List.filterMap_congr fun i hi => ?_
  obtain ⟨op, hop⟩ := hr.exists_entry (hids i hi)
  rw [Function.comp_apply, hr.entry i op (hids i hi) hop, hop]
  rfl

/-- An entry that was lowered to its children still was. -/
theorem LoweredAt.renumber {table : FunctionTable} {inputs : List Variable} {op : Operation}
    {s s' : Supply} (h : LoweredAt table inputs arena k op s s')
    (hr : Renumbers arena arena' keep f) (hd : Descending arena)
    (hclosed : ∀ i a, keep i → a ∈ lineage arena i → keep a) (hk : keep k)
    (hall : ∀ j, parentOf arena j = some k → keep j) :
    LoweredAt table inputs arena' (f k) { op with id := f k, parent := op.parent.map f } s s' := by
  have hlines : linesAt arena' (childIds arena' (f k)) = linesAt arena (childIds arena k) := by
    rw [hr.childIds_eq (fun i p hi hp => hclosed i p hi (parent_mem_lineage hd hp)) hk hall,
      hr.linesAt_map fun i hi => hall i (mem_childIds.mp hi)]
  refine ⟨by rw [hlines]; exact h.lower_eq, h.covered, by rw [hlines]; exact h.fresh_inputs, ?_⟩
  rw [hlines]
  intro ν hfresh huses j x hx hν
  obtain ⟨i, y, hi, rfl, hy, rfl⟩ := hr.exists_of_getElem? hx
  have hlin := hr.lineage_eq hd hclosed hi
  rw [lineage, lineage, List.map_cons] at hlin
  rw [(List.cons.inj hlin).2]
  exact List.mem_map_of_mem (h.fresh_below ν hfresh huses i y hy hν)

end

/-! ### Programs -/

section

variable {p : Program} {stand : Nat → Nat}

/-- Giving way renumbers the entries that are above something that stays visible. -/
theorem Program.giveWay_renumbers (hf : Forest p.arena p.order) (stand : Nat → Nat) :
    ∃ f, Renumbers p.arena (p.giveWay stand).arena
        (Kept p.arena (standing p.arena p.order stand)) f ∧
      (p.giveWay stand).order = (standing p.arena p.order stand).map f :=
  ⟨_, Program.compact_renumbers (p := { p with order := standing p.arena p.order stand }) hf.id_eq,
    rfl⟩

variable (hf : Forest p.arena p.order) (hs : Stands p.arena p.order stand)
include hf hs

/-- What is left is a forest. -/
theorem Forest.giveWay : Forest (p.giveWay stand).arena (p.giveWay stand).order := by
  obtain ⟨f, hr, horder⟩ := Program.giveWay_renumbers hf stand
  rw [horder]
  exact hf.prune (hs.frontier hf) hr

/-- What is left was derived. -/
theorem Derived.giveWay {table : FunctionTable} {inputs : List Variable}
    (hd : Derived table inputs p.arena) : Derived table inputs (p.giveWay stand).arena := by
  obtain ⟨f, hr, _⟩ := Program.giveWay_renumbers hf stand
  have hclosed : ∀ i a, Kept p.arena (standing p.arena p.order stand) i →
      a ∈ lineage p.arena i → Kept p.arena (standing p.arena p.order stand) a :=
    fun i a hi ha => hi.of_mem_lineage hf.descending ha
  intro k' op' hop' hchild
  obtain ⟨k, op, hk, rfl, hop, rfl⟩ := hr.exists_of_getElem? hop'
  -- One child is kept, so all are.
  obtain ⟨j', hj'⟩ := List.exists_mem_of_ne_nil _ hchild
  have hj' := mem_childIds.mp hj'
  obtain ⟨j, hj, rfl⟩ := hr.surj j' (lt_size_of_parentOf hj')
  rw [hr.parentOf_eq hj, Option.map_eq_some_iff] at hj'
  obtain ⟨q, hq, hqk⟩ := hj'
  have hkj := hr.inj (hclosed j q hj (parent_mem_lineage hf.descending hq)) hk hqk
  rw [hkj] at hq
  have hall : ∀ i, parentOf p.arena i = some k → Kept p.arena _ i :=
    fun i hi => hs.sibling_kept hf hq hi hj
  obtain ⟨s, s', hlow⟩ := hd k op hop (List.ne_nil_of_mem (mem_childIds.mpr hq))
  exact ⟨s, s', hlow.renumber hr hf.descending hclosed hk hall⟩

/-- The source stays where it is. -/
theorem Rooted.giveWay {source : Array Operation} (hr : Rooted source p.arena)
    (hsize : source.size ≤ p.arena.size) :
    Rooted source (p.giveWay stand).arena ∧ source.size ≤ (p.giveWay stand).arena.size := by
  obtain ⟨f, hn, _⟩ := Program.giveWay_renumbers hf stand
  have hroot : ∀ i < source.size, Kept p.arena (standing p.arena p.order stand) i := fun i hi =>
    hs.root_kept hf (by omega) ((hr.root_iff i (by omega)).mpr hi)
  -- The places of the source are the smallest, and all of them are kept.
  have hfix : ∀ i < source.size, f i = i := fun i hi => hn.eq_of_lt hroot hi
  refine ⟨⟨fun i hi => ?_, fun j hj => ?_⟩, ?_⟩
  · rw [hn.getElem?_of_lt hf.descending hf.id_eq hroot hi, hr.entry i hi]
  · obtain ⟨i, hi, rfl⟩ := hn.surj j hj
    rw [hn.parentOf_eq hi, Option.map_eq_none_iff, hr.root_iff i hi.1, hn.lt_iff hroot hi]
  · by_cases h : source.size = 0
    · omega
    · have hlast := hroot (source.size - 1) (by omega)
      have := hn.place_lt_size hlast
      rw [hfix _ (by omega)] at this
      omega

end

end CounterMachine
