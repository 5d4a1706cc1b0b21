import CounterMachine.Proofs.Forest.Basic

/-!
# Renumbering a forest

When entries of an arena are dropped, the others get new places. If nothing is dropped that stands
above a kept entry, and the kept entries keep their order, what is left is a forest again.

## Key results

- `Renumbers.lineage_eq`: lineages are carried along
- `Renumbers.before`: the order of reading stays
- `Forest.prune`: a forest that is cut off at a frontier is a forest
-/

namespace CounterMachine

/-- An entry is listed or above something listed. -/
def Kept (arena : Array Operation) (order : List Nat) (i : Nat) : Prop :=
  i < arena.size ∧ ∃ o ∈ order, i ∈ lineage arena o

/-- The kept entries of an arena make up another arena: their order stays, `f` says where each of
them goes, and parent links follow. -/
structure Renumbers (arena arena' : Array Operation) (keep : Nat → Prop) (f : Nat → Nat) :
    Prop where
  lt_size : ∀ i, keep i → i < arena.size
  mono : ∀ i j, keep i → keep j → i < j → f i < f j
  entry : ∀ (i : Nat) (op : Operation), keep i → arena[i]? = some op →
    arena'[f i]? = some { op with id := f i, parent := op.parent.map f }
  surj : ∀ j < arena'.size, ∃ i, keep i ∧ f i = j

/-- Entries, read from left to right, of which none is above another one. -/
structure Frontier (arena : Array Operation) (order : List Nat) : Prop where
  lt_size : ∀ o ∈ order, o < arena.size
  sorted : order.Pairwise (Before arena)
  apart : ∀ a ∈ order, ∀ b ∈ order, a ∈ lineage arena b → a = b

section

variable {arena arena' : Array Operation} {order : List Nat} {keep : Nat → Prop} {f : Nat → Nat}

/-- What is visible is kept. -/
theorem Kept.self (hfr : Frontier arena order) {o : Nat} (h : o ∈ order) : Kept arena order o :=
  ⟨hfr.lt_size o h, o, h, self_mem_lineage arena o⟩

/-- What is above a kept entry is kept. -/
theorem Kept.of_mem_lineage (hd : Descending arena) {a i : Nat} (hi : Kept arena order i)
    (ha : a ∈ lineage arena i) : Kept arena order a := by
  obtain ⟨hlt, o, ho, hio⟩ := hi
  exact ⟨Nat.lt_of_le_of_lt (le_of_mem_lineage ha) hlt, o, ho, mem_lineage_trans hd ha hio⟩

namespace Renumbers

/-- Different entries get different places. -/
theorem inj (hr : Renumbers arena arena' keep f) {i j : Nat} (hi : keep i) (hj : keep j)
    (h : f i = f j) : i = j := by
  rcases Nat.lt_trichotomy i j with hlt | heq | hlt
  · have := hr.mono i j hi hj hlt; omega
  · exact heq
  · have := hr.mono j i hj hi hlt; omega

/-- What is kept is an entry. -/
theorem exists_entry (hr : Renumbers arena arena' keep f) {i : Nat} (hi : keep i) :
    ∃ op, arena[i]? = some op :=
  ⟨_, Array.getElem?_eq_getElem (hr.lt_size i hi)⟩

/-- It gets a place in the smaller arena. -/
theorem place_lt_size (hr : Renumbers arena arena' keep f) {i : Nat} (hi : keep i) :
    f i < arena'.size := by
  obtain ⟨op, hop⟩ := hr.exists_entry hi
  exact (Array.getElem?_eq_some_iff.mp (hr.entry i op hi hop)).1

/-- Every new entry is a kept one. -/
theorem exists_of_getElem? (hr : Renumbers arena arena' keep f) {j : Nat} {x : Operation}
    (hx : arena'[j]? = some x) : ∃ i op, keep i ∧ f i = j ∧ arena[i]? = some op ∧
      x = { op with id := f i, parent := op.parent.map f } := by
  obtain ⟨i, hi, rfl⟩ := hr.surj j (Array.getElem?_eq_some_iff.mp hx).1
  obtain ⟨op, hop⟩ := hr.exists_entry hi
  rw [hr.entry i op hi hop] at hx
  exact ⟨i, op, hi, rfl, hop, (Option.some.inj hx).symm⟩

/-- If the first entries are kept, they stay where they are. -/
theorem eq_of_lt (hr : Renumbers arena arena' keep f) {n : Nat} (hfirst : ∀ i < n, keep i)
    {i : Nat} (hi : i < n) : f i = i := by
  induction i using Nat.strongRecOn with
  | ind i ih =>
    rcases Nat.lt_trichotomy (f i) i with hlt | heq | hlt
    · -- Then the place of `i` is taken.
      have hinj := hr.inj (hfirst (f i) (by omega)) (hfirst i hi) (ih (f i) hlt (by omega))
      omega
    · exact heq
    · -- Then place `i` would be left to another entry, before `i` or behind it.
      obtain ⟨j, hj, hji⟩ := hr.surj i (Nat.lt_trans hlt (hr.place_lt_size (hfirst i hi)))
      rcases Nat.lt_trichotomy j i with h | h | h
      · have hfix := ih j h (by omega)
        omega
      · subst h
        omega
      · have hmono := hr.mono i j (hfirst i hi) hj h
        omega

/-- And they stay as they are. -/
theorem getElem?_of_lt (hr : Renumbers arena arena' keep f) (hd : Descending arena)
    (hid : ∀ (i : Nat) (op : Operation), arena[i]? = some op → op.id = i) {n : Nat}
    (hfirst : ∀ i < n, keep i) {i : Nat} (hi : i < n) : arena'[i]? = arena[i]? := by
  obtain ⟨op, hop⟩ := hr.exists_entry (hfirst i hi)
  have hentry := hr.entry i op (hfirst i hi) hop
  have hparent : op.parent.map f = op.parent := by
    cases hp : op.parent with
    | none => rfl
    | some k =>
      have hlt := hd i k ((parentOf_of_getElem? hop).trans hp)
      rw [Option.map_some, hr.eq_of_lt hfirst (Nat.lt_trans hlt hi)]
  rw [hr.eq_of_lt hfirst hi, hparent, ← hid i op hop] at hentry
  rw [hop, ← hid i op hop, hentry]

/-- If only the first entries are kept, what is left is what they were. -/
theorem arena_eq (hr : Renumbers arena arena' keep f) (hd : Descending arena)
    (hid : ∀ (i : Nat) (op : Operation), arena[i]? = some op → op.id = i)
    {first : Array Operation} (hkeep : ∀ i, keep i ↔ i < first.size)
    (hsame : ∀ i < first.size, arena[i]? = first[i]?) : arena' = first := by
  have hfirst : ∀ i < first.size, keep i := fun i hi => (hkeep i).mpr hi
  apply Array.ext_getElem?
  intro i
  by_cases hi : i < first.size
  · rw [hr.getElem?_of_lt hd hid hfirst hi, hsame i hi]
  · have hsize : arena'.size ≤ i := by
      by_contra hlt
      obtain ⟨j, hj, rfl⟩ := hr.surj i (Nat.lt_of_not_le hlt)
      rw [hr.eq_of_lt hfirst ((hkeep j).mp hj)] at hi
      exact hi ((hkeep j).mp hj)
    rw [Array.getElem?_eq_none hsize, Array.getElem?_eq_none (Nat.le_of_not_lt hi)]

/-- If the first entries are all kept, then what comes after them stays after them. -/
theorem lt_iff (hr : Renumbers arena arena' keep f) {n : Nat} (hfirst : ∀ i < n, keep i) {i : Nat}
    (hi : keep i) : f i < n ↔ i < n := by
  constructor
  · intro h
    have hinj := hr.inj (hfirst (f i) h) hi (hr.eq_of_lt hfirst h)
    omega
  · intro h
    rwa [hr.eq_of_lt hfirst h]

/-- Parent links follow. -/
theorem parentOf_eq (hr : Renumbers arena arena' keep f) {i : Nat} (hi : keep i) :
    parentOf arena' (f i) = (parentOf arena i).map f := by
  obtain ⟨op, hop⟩ := hr.exists_entry hi
  rw [parentOf_of_getElem? hop, parentOf_of_getElem? (hr.entry i op hi hop)]

variable (hd : Descending arena)
  (hclosed : ∀ i a, keep i → a ∈ lineage arena i → keep a)
include hd hclosed

/-- Lineages are carried along. -/
theorem lineage_eq (hr : Renumbers arena arena' keep f) {i : Nat} (hi : keep i) :
    lineage arena' (f i) = (lineage arena i).map f := by
  induction i using Nat.strongRecOn with
  | ind i ih =>
    have hparent := hr.parentOf_eq hi
    cases hp : parentOf arena i with
    | none =>
      rw [hp] at hparent
      rw [lineage_of_root _ _ hp, lineage_of_root _ _ hparent, List.map_singleton]
    | some p =>
      have hpi := hd i p hp
      have hkp := hclosed i p hi (parent_mem_lineage hd hp)
      rw [hp] at hparent
      rw [lineage_of_parent _ _ _ hp hpi, List.map_cons, ← ih p hpi hkp]
      exact lineage_of_parent _ _ _ hparent (hr.mono p i hkp hi hpi)

/-- The new parent links go down too. -/
theorem descending (hr : Renumbers arena arena' keep f) : Descending arena' := by
  intro j q hj
  obtain ⟨i, hi, rfl⟩ := hr.surj j (lt_size_of_parentOf hj)
  rw [hr.parentOf_eq hi, Option.map_eq_some_iff] at hj
  obtain ⟨p, hp, rfl⟩ := hj
  exact hr.mono p i (hclosed i p hi (parent_mem_lineage hd hp)) hi (hd i p hp)

/-- An entry is above another one where it was so before. -/
theorem mem_lineage_iff (hr : Renumbers arena arena' keep f) {a i : Nat} (ha : keep a)
    (hi : keep i) : f a ∈ lineage arena' (f i) ↔ a ∈ lineage arena i := by
  rw [hr.lineage_eq hd hclosed hi, List.mem_map]
  refine ⟨fun ⟨b, hb, hab⟩ => ?_, fun h => ⟨a, h, rfl⟩⟩
  rwa [← hr.inj (hclosed i b hi hb) ha hab]

/-- The order of reading stays. -/
theorem before (hr : Renumbers arena arena' keep f) {a b : Nat} (ha : keep a) (hb : keep b)
    (h : Before arena a b) : Before arena' (f a) (f b) := by
  rw [Before, path, path, hr.lineage_eq hd hclosed ha, hr.lineage_eq hd hclosed hb,
    ← List.map_reverse, ← List.map_reverse]
  refine lex_map (fun u hu v hv huv => ?_) h
  exact hr.mono u v (hclosed a u ha (mem_path.mp hu)) (hclosed b v hb (mem_path.mp hv)) huv

end Renumbers

/-- After renumbering, the entries of the frontier are the leaves. -/
theorem Frontier.mem_map_iff {order' : List Nat} (hd : Descending arena)
    (hfr : Frontier arena order') (hr : Renumbers arena arena' (Kept arena order') f) (j : Nat) :
    j ∈ order'.map f ↔ j < arena'.size ∧ ∀ k, parentOf arena' k ≠ some j := by
  have hclosed : ∀ i a, Kept arena order' i → a ∈ lineage arena i → Kept arena order' a :=
    fun i a hi ha => hi.of_mem_lineage hd ha
  have hself : ∀ o ∈ order', Kept arena order' o := fun o ho => .self hfr ho
  rw [List.mem_map]
  constructor
  · rintro ⟨o, ho, rfl⟩
    refine ⟨hr.place_lt_size (hself o ho), fun j hj => ?_⟩
    obtain ⟨i, hi, rfl⟩ := hr.surj j (lt_size_of_parentOf hj)
    have hmem := (hr.mem_lineage_iff hd hclosed (hself o ho) hi).mp
      (parent_mem_lineage (hr.descending hd hclosed) hj)
    obtain ⟨_, o', ho', hio'⟩ := hi
    -- The child would stand between two places of the frontier.
    have hoo' := hfr.apart o ho o' ho' (mem_lineage_trans hd hmem hio')
    subst hoo'
    have hoi : o = i := Nat.le_antisymm (le_of_mem_lineage hmem) (le_of_mem_lineage hio')
    subst hoi
    exact Nat.lt_irrefl _ (hr.descending hd hclosed _ _ hj)
  · rintro ⟨hj, hleaf⟩
    obtain ⟨i, hi, rfl⟩ := hr.surj j hj
    obtain ⟨_, o, ho, hio⟩ := hi
    by_cases h : i = o
    · exact ⟨o, ho, by rw [h]⟩
    · -- Otherwise something stands between the entry and the frontier.
      obtain ⟨k, hk, hko⟩ := exists_child_of_mem_lineage hd hio h
      have hkept := (hself o ho).of_mem_lineage hd hko
      exact absurd (by rw [hr.parentOf_eq hkept, hk, Option.map_some]) (hleaf (f k))

/-- A forest that is cut off at a frontier, and renumbered, is a forest with the frontier as its
leaves. -/
theorem Forest.prune {order' : List Nat} (hf : Forest arena order) (hfr : Frontier arena order')
    (hr : Renumbers arena arena' (Kept arena order') f) : Forest arena' (order'.map f) := by
  have hd := hf.descending
  have hclosed : ∀ i a, Kept arena order' i → a ∈ lineage arena i → Kept arena order' a :=
    fun i a hi ha => hi.of_mem_lineage hd ha
  refine ⟨?_, hr.descending hd hclosed, ?_, hfr.mem_map_iff hd hr, ?_⟩
  · -- Places
    intro j x hx
    obtain ⟨i, op, hi, rfl, hop, rfl⟩ := hr.exists_of_getElem? hx
    rfl
  · -- Layers
    intro j x hx
    obtain ⟨i, op, hi, rfl, hop, rfl⟩ := hr.exists_of_getElem? hx
    have hlin := congrArg List.length (hr.lineage_eq hd hclosed hi)
    rw [List.length_map, lineage, lineage, List.length_cons, List.length_cons] at hlin
    have hlayer := hf.layer_eq i op hop
    simp only
    omega
  · -- Order
    rw [List.pairwise_map]
    exact hfr.sorted.imp_of_mem fun {a b} ha hb h =>
      hr.before hd hclosed (.self hfr ha) (.self hfr hb) h

end

end CounterMachine
