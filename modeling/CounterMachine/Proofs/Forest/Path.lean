import CounterMachine.Program.Provenance

/-!
# Lineages and paths

The parent links of an arena lead from every entry to a source operation. A *path* is the way back
down: it starts at the source operation and ends at the entry. Paths are compared
lexicographically, and this is the order in which a forest is read from left to right.

## Key results

- `lineage_of_parent`: a lineage is followed link by link, up to an entry without a parent
- `mem_lineage_iff_prefix_path`: an ancestor's path is the beginning of a descendant's path
- `before_of_lineage`: what stands left of a subtree stands left of everything below it
- `mem_lineage_of_between`: what is read between two descendants is a descendant
-/

namespace CounterMachine

/-- The parent that the entry at a place of an arena names. -/
def parentOf (arena : Array Operation) (id : Nat) : Option Nat :=
  arena[id]?.bind Operation.parent

/-- Parents stand before their children. -/
def Descending (arena : Array Operation) : Prop :=
  ∀ id p, parentOf arena id = some p → p < id

/-- The way from a source operation down to an entry. -/
def path (arena : Array Operation) (id : Nat) : List Nat := (lineage arena id).reverse

/-- An entry is read before another one: its path is the smaller one. -/
def Before (arena : Array Operation) (a b : Nat) : Prop :=
  List.Lex (· < ·) (path arena a) (path arena b)

/-! ### Lineages -/

/-- A root has got no ancestors. -/
theorem ancestors_of_root (arena : Array Operation) (id : Nat) (h : parentOf arena id = none) :
    ancestors arena id = [] := by
  unfold ancestors
  rw [parentOf] at h
  rw [h]

/-- A parent link that goes down is followed. -/
theorem ancestors_of_parent (arena : Array Operation) (id p : Nat)
    (h : parentOf arena id = some p) (hlt : p < id) :
    ancestors arena id = p :: ancestors arena p := by
  rw [ancestors]
  rw [parentOf] at h
  simp only [h, dif_pos hlt]

/-- The lineage of a root is the root alone. -/
theorem lineage_of_root (arena : Array Operation) (id : Nat) (h : parentOf arena id = none) :
    lineage arena id = [id] := by
  rw [lineage, ancestors_of_root arena id h]

/-- The lineage of a child goes on with that of its parent. -/
theorem lineage_of_parent (arena : Array Operation) (id p : Nat)
    (h : parentOf arena id = some p) (hlt : p < id) :
    lineage arena id = id :: lineage arena p := by
  rw [lineage, ancestors_of_parent arena id p h hlt, lineage]

/-- A lineage starts with the entry itself. -/
theorem self_mem_lineage (arena : Array Operation) (id : Nat) : id ∈ lineage arena id :=
  List.mem_cons_self

/-- The way up only leads to smaller places. -/
theorem le_of_mem_lineage {arena : Array Operation} {a id : Nat} (h : a ∈ lineage arena id) :
    a ≤ id := by
  rcases List.mem_cons.mp h with rfl | h
  · exact Nat.le_refl _
  · exact Nat.le_of_lt (lt_of_mem_ancestors h)

/-- A lineage depends on the parent links only. -/
theorem ancestors_congr (arena arena' : Array Operation) (id : Nat)
    (h : ∀ j ≤ id, parentOf arena' j = parentOf arena j) :
    ancestors arena' id = ancestors arena id := by
  induction id using Nat.strongRecOn with
  | ind id ih =>
    -- The walk goes on from a smaller place, if it goes on at all.
    cases hp : parentOf arena id with
    | none => rw [ancestors_of_root _ _ hp, ancestors_of_root _ _ ((h id (by omega)).trans hp)]
    | some p =>
      have hp' := (h id (by omega)).trans hp
      by_cases hlt : p < id
      · rw [ancestors_of_parent _ _ _ hp hlt, ancestors_of_parent _ _ _ hp' hlt,
          ih p hlt fun j hj => h j (by omega)]
      · -- A link that does not go down ends the walk in both arenas.
        rw [ancestors, ancestors]
        rw [parentOf] at hp hp'
        simp only [hp, hp', dif_neg hlt]

section

variable {arena : Array Operation} (hd : Descending arena)
include hd

/-- Whoever is above an entry's ancestor is above the entry. -/
theorem mem_lineage_trans {a b c : Nat} (hab : a ∈ lineage arena b) (hbc : b ∈ lineage arena c) :
    a ∈ lineage arena c := by
  -- By strong induction on the lowest entry: its parent is smaller.
  induction c using Nat.strongRecOn with
  | ind c ih =>
    cases hp : parentOf arena c with
    | none =>
      rw [lineage_of_root _ _ hp, List.mem_singleton] at hbc
      exact hbc ▸ hab
    | some p =>
      have hlt := hd c p hp
      rw [lineage_of_parent _ _ _ hp hlt, List.mem_cons] at hbc ⊢
      rcases hbc with rfl | hbc
      · rwa [lineage_of_parent _ _ _ hp hlt, List.mem_cons] at hab
      · exact .inr (ih p hlt hbc)

/-- Two ancestors of one entry are in one line. -/
theorem mem_lineage_total {a b c : Nat} (ha : a ∈ lineage arena c) (hb : b ∈ lineage arena c) :
    a ∈ lineage arena b ∨ b ∈ lineage arena a := by
  -- Both are met on the one walk up from `c`; the one that is met first descends from the other.
  induction c using Nat.strongRecOn with
  | ind c ih =>
    cases hp : parentOf arena c with
    | none =>
      rw [lineage_of_root _ _ hp, List.mem_singleton] at ha hb
      exact .inl (ha ▸ hb ▸ self_mem_lineage arena _)
    | some p =>
      have hlt := hd c p hp
      have ha' := ha
      have hb' := hb
      rw [lineage_of_parent _ _ _ hp hlt, List.mem_cons] at ha' hb'
      rcases ha' with rfl | ha'
      · exact .inr hb
      · rcases hb' with rfl | hb'
        · exact .inl ha
        · exact ih p hlt ha' hb'

/-- A strict ancestor is an ancestor of the parent. -/
theorem mem_lineage_parent {a c p : Nat} (hp : parentOf arena c = some p)
    (ha : a ∈ lineage arena c) (hne : a ≠ c) : a ∈ lineage arena p := by
  rw [lineage_of_parent _ _ _ hp (hd c p hp)] at ha
  exact (List.mem_cons.mp ha).resolve_left hne

/-- The parent is in the lineage. -/
theorem parent_mem_lineage {c p : Nat} (hp : parentOf arena c = some p) :
    p ∈ lineage arena c := by
  rw [lineage_of_parent _ _ _ hp (hd c p hp)]
  exact List.mem_cons_of_mem _ (self_mem_lineage arena p)

/-- Between an entry and a strict ancestor of it stands a child of the ancestor. -/
theorem exists_child_of_mem_lineage {a c : Nat} (ha : a ∈ lineage arena c) (hne : a ≠ c) :
    ∃ k, parentOf arena k = some a ∧ k ∈ lineage arena c := by
  induction c using Nat.strongRecOn with
  | ind c ih =>
    cases hp : parentOf arena c with
    | none =>
      rw [lineage_of_root _ _ hp, List.mem_singleton] at ha
      exact absurd ha hne
    | some p =>
      have ha' := mem_lineage_parent hd hp ha hne
      -- Either the ancestor is the parent, or the search goes on above the parent.
      by_cases hap : a = p
      · exact ⟨c, hap ▸ hp, self_mem_lineage arena c⟩
      · obtain ⟨k, hk, hkp⟩ := ih p (hd c p hp) ha' hap
        exact ⟨k, hk, mem_lineage_trans hd hkp (parent_mem_lineage hd hp)⟩

/-- Above every entry stands a root. -/
theorem exists_root_mem_lineage (i : Nat) :
    ∃ root, parentOf arena root = none ∧ root ∈ lineage arena i := by
  induction i using Nat.strongRecOn with
  | ind i ih =>
    cases hp : parentOf arena i with
    | none => exact ⟨i, hp, self_mem_lineage arena i⟩
    | some p =>
      obtain ⟨root, hroot, hmem⟩ := ih p (hd i p hp)
      exact ⟨root, hroot, mem_lineage_trans hd hmem (parent_mem_lineage hd hp)⟩

/-- A sibling is no ancestor: it would be above the common parent and above itself. -/
theorem notMem_lineage_of_siblings {a b : Nat} (h : parentOf arena a = parentOf arena b)
    (hlt : a < b) : a ∉ lineage arena b := by
  intro hab
  cases hp : parentOf arena b with
  | none =>
    rw [lineage_of_root _ _ hp, List.mem_singleton] at hab
    omega
  | some p =>
    have hap := le_of_mem_lineage (mem_lineage_parent hd hp hab (by omega))
    have hpa := hd a p (h.trans hp)
    omega

/-! ### Paths -/

/-- The path of a child is that of its parent with the child behind it. -/
theorem path_of_parent {c p : Nat} (hp : parentOf arena c = some p) :
    path arena c = path arena p ++ [c] := by
  rw [path, lineage_of_parent _ _ _ hp (hd c p hp), List.reverse_cons, path]

omit hd in
/-- The path of a root is the root alone. -/
theorem path_of_root {c : Nat} (hp : parentOf arena c = none) : path arena c = [c] := by
  rw [path, lineage_of_root _ _ hp, List.reverse_singleton]

omit hd in
/-- A path and a lineage pass the same entries. -/
theorem mem_path {a c : Nat} : a ∈ path arena c ↔ a ∈ lineage arena c := List.mem_reverse

/-- The path of an entry begins with those of its ancestors. -/
theorem path_prefix_of_mem_lineage {a c : Nat} (h : a ∈ lineage arena c) :
    path arena a <+: path arena c := by
  -- By strong induction on the lower entry, since its parent has got a smaller place.
  induction c using Nat.strongRecOn with
  | ind c ih =>
    cases hp : parentOf arena c with
    | none =>
      rw [lineage_of_root _ _ hp, List.mem_singleton] at h
      exact h ▸ List.prefix_rfl
    | some p =>
      by_cases hac : a = c
      · exact hac ▸ List.prefix_rfl
      · rw [path_of_parent hd hp]
        exact (ih p (hd c p hp) (mem_lineage_parent hd hp h hac)).trans (List.prefix_append _ _)

/-- An entry has fewer ancestors than what is below it. -/
theorem length_ancestors_lt {a c : Nat} (h : a ∈ lineage arena c) (hne : a ≠ c) :
    (ancestors arena a).length < (ancestors arena c).length := by
  have hprefix := path_prefix_of_mem_lineage hd h
  have hle := hprefix.length_le
  -- The paths are as long as the lineages, so a proper prefix has fewer ancestors.
  have hlen : ∀ i, (path arena i).length = (ancestors arena i).length + 1 := fun i => by
    rw [path, List.length_reverse, lineage, List.length_cons]
  rw [hlen, hlen] at hle
  refine Nat.lt_of_le_of_ne (by omega) fun heq => hne ?_
  have hpath := hprefix.eq_of_length (by rw [hlen, hlen, heq])
  exact (List.cons.inj (List.reverse_inj.mp hpath)).1

/-- An ancestor is found in a lineage as far up as there are fewer ancestors of its own. -/
theorem getElem?_lineage {a c : Nat} (h : a ∈ lineage arena c) :
    (lineage arena c)[(ancestors arena c).length - (ancestors arena a).length]? = some a := by
  obtain ⟨us, hus⟩ := path_prefix_of_mem_lineage hd h
  -- Read backwards, the beginning of the path is the end of the lineage.
  have hlineage : lineage arena c = us.reverse ++ lineage arena a := by
    have hreverse := congrArg List.reverse hus
    rw [List.reverse_append, path, path, List.reverse_reverse, List.reverse_reverse] at hreverse
    exact hreverse.symm
  have hlength := congrArg List.length hlineage
  rw [List.length_append, List.length_reverse, lineage, lineage, List.length_cons,
    List.length_cons] at hlength
  have hplace : (ancestors arena c).length - (ancestors arena a).length = us.reverse.length := by
    rw [List.length_reverse]
    omega
  rw [hlineage, hplace, List.getElem?_append_right (Nat.le_refl _), Nat.sub_self]
  rfl

/-- The ancestors of an entry are those whose path its own path begins with. -/
theorem mem_lineage_iff_prefix_path {a c : Nat} :
    a ∈ lineage arena c ↔ path arena a <+: path arena c := by
  refine ⟨path_prefix_of_mem_lineage hd, fun h => ?_⟩
  exact mem_path.mp (h.subset (mem_path.mpr (self_mem_lineage arena a)))

end

/-! ### Lexicographic order -/

section

variable {xs ys us vs : List Nat}

/-- Lists that differ before one of them ends are compared at that place. -/
theorem lex_append_of_not_prefix (h : List.Lex (· < ·) xs ys) (hne : ¬ xs <+: ys) :
    List.Lex (· < ·) (xs ++ us) (ys ++ vs) := by
  induction h with
  | nil => exact absurd (List.nil_prefix) hne
  | rel hlt => exact .rel hlt
  | cons _ ih => exact .cons (ih fun hp => hne (List.cons_prefix_cons.mpr ⟨rfl, hp⟩))

/-- If neither list begins with the other one, then what follows them does not decide. -/
theorem lex_of_lex_append (hxy : ¬ xs <+: ys) (hyx : ¬ ys <+: xs)
    (h : List.Lex (· < ·) (xs ++ us) (ys ++ vs)) : List.Lex (· < ·) xs ys := by
  induction xs generalizing ys with
  | nil => exact absurd List.nil_prefix hxy
  | cons x xs ih =>
    -- Neither list can be empty, since the empty list begins every list.
    cases ys with
    | nil => exact absurd List.nil_prefix hyx
    | cons y ys =>
      rw [List.cons_append, List.cons_append, List.cons_lex_cons_iff] at h
      rcases h with hlt | ⟨rfl, h⟩
      · exact .rel hlt
      · refine .cons (ih ?_ ?_ h)
        · exact fun hp => hxy (List.cons_prefix_cons.mpr ⟨rfl, hp⟩)
        · exact fun hp => hyx (List.cons_prefix_cons.mpr ⟨rfl, hp⟩)

/-- A map that keeps the order of the members keeps the order of the lists. -/
theorem lex_map {f : Nat → Nat} (hf : ∀ a ∈ xs, ∀ b ∈ ys, a < b → f a < f b)
    (h : List.Lex (· < ·) xs ys) : List.Lex (· < ·) (xs.map f) (ys.map f) := by
  induction h with
  | nil => exact .nil
  | rel hlt => exact .rel (hf _ List.mem_cons_self _ List.mem_cons_self hlt)
  | cons _ ih =>
    exact .cons (ih fun a ha b hb => hf a (List.mem_cons_of_mem _ ha) b (List.mem_cons_of_mem _ hb))

/-- The lists with a common beginning stand together. -/
theorem prefix_of_lex_between {ps ws : List Nat} (hu : ps <+: us) (hw : ps <+: ws)
    (huv : List.Lex (· < ·) us vs) (hvw : List.Lex (· < ·) vs ws) : ps <+: vs := by
  induction ps generalizing us vs ws with
  | nil => exact List.nil_prefix
  | cons p ps ih =>
    obtain ⟨us, rfl⟩ := hu
    obtain ⟨ws, rfl⟩ := hw
    cases vs with
    | nil => exact absurd huv (List.not_lex_nil)
    | cons v vs =>
      rw [List.cons_append, List.cons_lex_cons_iff] at huv hvw
      -- The head stands between two equal numbers.
      have hv : v = p := by
        rcases huv with h | ⟨h, _⟩ <;> rcases hvw with h' | ⟨h', _⟩ <;> omega
      subst hv
      refine List.cons_prefix_cons.mpr ⟨rfl, ?_⟩
      refine ih (List.prefix_append ps us) (List.prefix_append ps ws) ?_ ?_
      · exact (huv.resolve_left (Nat.lt_irrefl _)).2
      · exact (hvw.resolve_left (Nat.lt_irrefl _)).2

end

/-! ### The order of reading -/

section

variable {arena : Array Operation}

/-- No entry is read before itself. -/
theorem before_irrefl (a : Nat) : ¬ Before arena a a :=
  List.lex_irrefl (fun x => Nat.lt_irrefl x) _

/-- Reading has an order. -/
theorem Before.trans {a b c : Nat} (hab : Before arena a b) (hbc : Before arena b c) :
    Before arena a c :=
  List.lt_trans (show path arena a < path arena b from hab) hbc

/-- Of two entries only one can be read before the other. -/
theorem Before.asymm {a b : Nat} (hab : Before arena a b) : ¬ Before arena b a :=
  fun hba => before_irrefl a (hab.trans hba)

variable (hd : Descending arena)
include hd

/-- What stands left of a subtree stands left of everything below it, and so on the other side. -/
theorem before_of_lineage {a b a' b' : Nat} (h : Before arena a b) (hab : a ∉ lineage arena b)
    (ha : a ∈ lineage arena a') (hb : b ∈ lineage arena b') : Before arena a' b' := by
  obtain ⟨us, hus⟩ := path_prefix_of_mem_lineage hd ha
  obtain ⟨vs, hvs⟩ := path_prefix_of_mem_lineage hd hb
  rw [Before, ← hus, ← hvs]
  exact lex_append_of_not_prefix h fun hp => hab ((mem_lineage_iff_prefix_path hd).mpr hp)

/-- Where neither of two entries is above the other, they are read like what is below them. -/
theorem before_of_descendants {a b a' b' : Nat} (h : Before arena a' b')
    (hab : a ∉ lineage arena b) (hba : b ∉ lineage arena a)
    (ha : a ∈ lineage arena a') (hb : b ∈ lineage arena b') : Before arena a b := by
  obtain ⟨us, hus⟩ := path_prefix_of_mem_lineage hd ha
  obtain ⟨vs, hvs⟩ := path_prefix_of_mem_lineage hd hb
  rw [Before, ← hus, ← hvs] at h
  rw [mem_lineage_iff_prefix_path hd] at hab hba
  exact lex_of_lex_append hab hba h

/-- What is read between two descendants of an entry is a descendant of it. -/
theorem mem_lineage_of_between {a u v w : Nat} (hu : a ∈ lineage arena u)
    (hw : a ∈ lineage arena w) (huv : Before arena u v) (hvw : Before arena v w) :
    a ∈ lineage arena v := by
  rw [mem_lineage_iff_prefix_path hd] at hu hw ⊢
  exact prefix_of_lex_between hu hw huv hvw

/-- Children of one parent are read in the order of their places. -/
theorem before_of_siblings {a b : Nat} (h : parentOf arena a = parentOf arena b) (hlt : a < b) :
    Before arena a b := by
  rw [Before]
  cases hp : parentOf arena a with
  | none =>
    rw [path_of_root hp, path_of_root (h.symm.trans hp)]
    exact .rel hlt
  | some p =>
    rw [path_of_parent hd hp, path_of_parent hd (h.symm.trans hp)]
    -- Both paths go on from that of the parent.
    generalize path arena p = ps
    induction ps with
    | nil => exact .rel hlt
    | cons _ ps ih => exact .cons ih

/-- What stands below an entry can be read in its place, if nothing else that is read stands above
or below the entry. -/
theorem sorted_replace {left right below : List Nat} {k : Nat}
    (hs : (left ++ k :: right).Pairwise (Before arena)) (hb : below.Pairwise (Before arena))
    (hbelow : ∀ c ∈ below, k ∈ lineage arena c) (hleft : ∀ i ∈ left, i ∉ lineage arena k)
    (hright : ∀ j ∈ right, k ∉ lineage arena j) :
    (left ++ below ++ right).Pairwise (Before arena) := by
  obtain ⟨hsl, hsr, hslr⟩ := List.pairwise_append.mp hs
  obtain ⟨hsk, hsr⟩ := List.pairwise_cons.mp hsr
  rw [List.append_assoc, List.pairwise_append, List.pairwise_append]
  refine ⟨hsl, ⟨hb, hsr, fun c hc j hj => ?_⟩, fun i hi j hj => ?_⟩
  · -- What was right of the entry is right of all that stands below it.
    exact before_of_lineage hd (hsk j hj) (hright j hj) (hbelow c hc) (self_mem_lineage arena j)
  · rcases List.mem_append.mp hj with hj | hj
    · exact before_of_lineage hd (hslr i hi k List.mem_cons_self) (hleft i hi)
        (self_mem_lineage arena i) (hbelow j hj)
    · exact hslr i hi j (List.mem_cons_of_mem _ hj)

end

end CounterMachine
