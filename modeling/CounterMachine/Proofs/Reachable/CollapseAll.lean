import CounterMachine.Proofs.Reachable.Invariant

/-!
# Collapsing back to the source

Every collapse takes one layer back. So a program that is reachable from a source can be collapsed
as often as its level says, and then it is the source again.

## Key results

- `Program.Grown.level_collapse`: a collapse lowers the level by one
- `Program.Grown.eq_of_level`: at level zero there is only the source
- `Program.Grown.collapseTimes_iff`: a program can be collapsed as often as its level says
- `Program.Reachable.collapseTimes_level`: collapsing back to the source
-/

namespace CounterMachine

namespace Program

/-- Collapses a program a number of times. -/
def collapseTimes (p : Program) : Nat → Except ExpansionError Program
  | 0 => .ok p
  | n + 1 => p.collapse.bind (collapseTimes · n)

variable {source p : Program}

/-- At level zero nothing is left but the source. -/
theorem Grown.eq_of_level (h : Grown source p) (hs : Grown source source) (hlevel : p.level = 0) :
    p = source := by
  have hf := h.forest
  -- Every entry is above something visible, which is a source operation.
  have hroot : ∀ i < p.arena.size, parentOf p.arena i = none := by
    intro i hi
    obtain ⟨o, ho, hio⟩ := hf.exists_visible hi
    obtain ⟨op, hop⟩ := hf.exists_entry ho
    have hlayer : op.layer = 0 := by
      have := p.level_spec.1 _ (mem_operations.mpr ⟨o, ho, hop⟩)
      omega
    have hnone : parentOf p.arena o = none := by
      cases hp : parentOf p.arena o with
      | none => rfl
      | some q =>
        rw [hf.layer_eq o _ hop, ancestors_of_parent _ _ _ hp (hf.descending o q hp)] at hlayer
        cases hlayer
    rw [lineage_of_root _ _ hnone, List.mem_singleton] at hio
    rwa [hio]
  -- So all entries are roots, and the roots are those of the source.
  have hsize : p.arena.size = source.arena.size := by
    refine Nat.le_antisymm (Nat.le_of_not_lt fun hlt => ?_) h.size_le
    have := (h.rooted.root_iff _ hlt).mp (hroot _ hlt)
    omega
  have harena : p.arena = source.arena := by
    refine Array.ext_getElem? fun i => ?_
    by_cases hi : i < source.arena.size
    · exact h.rooted.entry i hi
    · rw [Array.getElem?_eq_none (by omega), Array.getElem?_eq_none (by omega)]
  have horder : p.order = source.order := (harena ▸ hf).order_unique hs.forest
  rw [h.frame, harena, horder]
  cases source
  rfl

/-- The layers of what is visible after operations have given way. -/
theorem layer_giveWay {stand : Nat → Nat} (hf : Forest p.arena p.order)
    (hs : Stands p.arena p.order stand) (l : Nat) :
    (∃ x ∈ (p.giveWay stand).operations, x.layer = l) ↔
      ∃ o ∈ p.order, ∃ y, p.arena[stand o]? = some y ∧ y.layer = l := by
  obtain ⟨f, hr, horder⟩ := giveWay_renumbers hf stand
  have hself : ∀ o ∈ standing p.arena p.order stand,
      Kept p.arena (standing p.arena p.order stand) o :=
    fun o ho => .self (hs.frontier hf) ho
  -- What is visible after is what stands for something visible before, renumbered.
  constructor
  · rintro ⟨x, hx, rfl⟩
    obtain ⟨j, hj, hjx⟩ := mem_operations.mp hx
    rw [horder, List.mem_map] at hj
    obtain ⟨i, hi, rfl⟩ := hj
    obtain ⟨y, hy⟩ := hr.exists_entry (hself i hi)
    rw [hr.entry i y (hself i hi) hy] at hjx
    cases hjx
    obtain ⟨o, ho, rfl⟩ := (hs.mem_standing hf).mp hi
    exact ⟨o, ho, y, hy, rfl⟩
  · rintro ⟨o, ho, y, hy, rfl⟩
    have hmem := (hs.mem_standing hf).mpr ⟨o, ho, rfl⟩
    exact ⟨_, mem_operations.mpr ⟨_, horder ▸ List.mem_map_of_mem hmem,
      hr.entry _ y (hself _ hmem) hy⟩, rfl⟩

/-- An operation of the deepest layer gives way to its parent, one layer above, and the others
stay. -/
theorem layer_parentOnLayer (hf : Forest p.arena p.order) (hlevel : p.level ≠ 0) {o : Nat}
    {x : Operation} (hx : p.arena[o]? = some x) :
    ∃ y, p.arena[p.parentOnLayer p.level o]? = some y ∧
      y.layer = if x.layer = p.level then p.level - 1 else x.layer := by
  rw [parentOnLayer_eq hx]
  by_cases heq : x.layer = p.level
  · rw [if_pos heq, if_pos heq]
    cases hp : x.parent with
    | none =>
      have hlayer := hf.layer_eq o x hx
      rw [ancestors_of_root _ _ ((parentOf_of_getElem? hx).trans hp), heq] at hlayer
      exact absurd hlayer hlevel
    | some q =>
      obtain ⟨_, y, hy, hlay⟩ := hf.layer_of_parent hx hp
      exact ⟨y, hy, by omega⟩
  · rw [if_neg heq, if_neg heq]
    exact ⟨x, hx, rfl⟩

/-- Where the deepest layer has given way, the level is one less. -/
theorem Grown.level_collapse (h : Grown source p) (hlevel : p.level ≠ 0) :
    (p.giveWay (p.parentOnLayer p.level)).level + 1 = p.level := by
  have hf := h.forest
  have hlayers := layer_giveWay hf (stands_parentOnLayer hf)
  obtain ⟨hupper, hattained⟩ := (p.giveWay (p.parentOnLayer p.level)).level_spec
  -- No operation stays on the deepest layer.
  have hle : (p.giveWay (p.parentOnLayer p.level)).level + 1 ≤ p.level := by
    rcases hattained with hzero | ⟨x, hx, hxl⟩
    · omega
    · obtain ⟨o, ho, y, hy, hyl⟩ := (hlayers _).mp ⟨x, hx, rfl⟩
      obtain ⟨z, hz⟩ := hf.exists_entry ho
      obtain ⟨y', hy', hyl'⟩ := layer_parentOnLayer hf hlevel hz
      rw [hy] at hy'
      cases hy'
      have := p.level_spec.1 z (mem_operations.mpr ⟨o, ho, hz⟩)
      split at hyl' <;> omega
  -- There was one on it, whose parent is visible now.
  have hge : p.level ≤ (p.giveWay (p.parentOnLayer p.level)).level + 1 := by
    obtain ⟨x, hx, hxl⟩ := p.level_spec.2.resolve_left hlevel
    obtain ⟨o, ho, hox⟩ := mem_operations.mp hx
    obtain ⟨y, hy, hyl⟩ := layer_parentOnLayer hf hlevel hox
    rw [if_pos hxl] at hyl
    obtain ⟨z, hz, hzl⟩ := (hlayers y.layer).mpr ⟨o, ho, y, hy, rfl⟩
    have := hupper z hz
    omega
  omega

/-- Collapsing takes one layer back at a time, down to the source. -/
theorem Grown.exists_collapseTimes (h : Grown source p) (n : Nat) (hn : n ≤ p.level) :
    ∃ q, p.collapseTimes n = .ok q ∧ Grown source q ∧ q.level + n = p.level := by
  induction n generalizing p with
  | zero => exact ⟨p, rfl, h, rfl⟩
  | succ n ih =>
    have hlevel : p.level ≠ 0 := by omega
    have hstep : p.collapse = .ok (p.giveWay (p.parentOnLayer p.level)) := by
      rw [collapse]
      exact if_neg hlevel
    have hlower := h.level_collapse hlevel
    obtain ⟨q, hq, hgrown, hql⟩ := ih (h.giveWay (stands_parentOnLayer h.forest)) (by omega)
    refine ⟨q, ?_, hgrown, by omega⟩
    rw [collapseTimes, hstep]
    exact hq

/-- That leads back to the source. -/
theorem Grown.collapseTimes_source (h : Grown source p) (hs : Grown source source) :
    p.collapseTimes p.level = .ok source := by
  obtain ⟨q, hq, hgrown, hql⟩ := h.exists_collapseTimes p.level (Nat.le_refl _)
  rw [hq, hgrown.eq_of_level hs (by omega)]

/-- Collapses can be made in two lots. -/
theorem collapseTimes_add (p : Program) (m n : Nat) :
    p.collapseTimes (m + n) = (p.collapseTimes m).bind (collapseTimes · n) := by
  induction m generalizing p with
  | zero => rw [Nat.zero_add]; rfl
  | succ m ih =>
    rw [Nat.add_right_comm, collapseTimes, collapseTimes]
    cases p.collapse with
    | error e => rfl
    | ok q => exact ih q

/-- At level zero there is nothing to collapse. -/
theorem collapse_of_level_eq_zero (hlevel : p.level = 0) :
    p.collapse = .error (.invalidDegree (-1) p.degree) := by
  rw [collapse]
  exact if_pos hlevel

/-- A program can be collapsed as often as its level says, and not once more. -/
theorem Grown.collapseTimes_iff (h : Grown source p) (hs : Grown source source)
    (hlevel : source.level = 0) (n : Nat) :
    (∃ q, p.collapseTimes n = .ok q) ↔ n ≤ p.level := by
  constructor
  · rintro ⟨q, hq⟩
    by_contra hlt
    -- Once more leads beyond the source, which cannot be collapsed.
    obtain ⟨k, rfl⟩ : ∃ k, n = p.level + (k + 1) := ⟨n - p.level - 1, by omega⟩
    rw [collapseTimes_add, h.collapseTimes_source hs] at hq
    have herror : source.collapseTimes (k + 1) = .error (.invalidDegree (-1) source.degree) := by
      rw [collapseTimes, collapse_of_level_eq_zero hlevel]
      rfl
    rw [Except.bind, herror] at hq
    cases hq
  · intro hn
    obtain ⟨q, hq, _⟩ := h.exists_collapseTimes n hn
    exact ⟨q, hq⟩

variable {name : String} {displayName : Option String} {inputs : Option (List Variable)}
  {functions : Option (List Program)} {lines : List Line}

/-- A source is at level zero. -/
theorem ofLines_level (name : String) (displayName : Option String)
    (inputs : Option (List Variable)) (functions : Option (List Program)) (lines : List Line) :
    (ofLines name displayName inputs functions lines).level = 0 := by
  refine Nat.le_zero.mp (level_le_iff.mpr fun op hop => ?_)
  obtain ⟨i, _, hi⟩ := mem_operations.mp hop
  rw [(ofLines_forest ..).layer_eq i op hi, ancestors_of_root _ _ (ofLines_parentOf ..)]
  exact Nat.le_refl 0

/-- A program that is reachable from a source can be collapsed as often as its level says, each
time to a level that is one lower. That leads back to the source, which cannot be collapsed. -/
theorem Reachable.collapseTimes_level
    (h : Reachable (ofLines name displayName inputs functions lines) p) :
    (∀ n ≤ p.level, ∃ q, p.collapseTimes n = .ok q ∧ q.level + n = p.level) ∧
    p.collapseTimes p.level = .ok (ofLines name displayName inputs functions lines) ∧
    (ofLines name displayName inputs functions lines).collapse =
      .error (.invalidDegree (-1) (ofLines name displayName inputs functions lines).degree) := by
  have hs := Grown.ofLines name displayName inputs functions lines
  have hg := h.grown hs
  refine ⟨fun n hn => ?_, hg.collapseTimes_source hs, collapse_of_level_eq_zero (ofLines_level ..)⟩
  obtain ⟨q, hq, _, hql⟩ := hg.exists_collapseTimes n hn
  exact ⟨q, hq, hql⟩

/-- An assignment that was expanded twice is back after two collapses. -/
theorem collapseTimes_assign : ∃ p,
    (ofLines "copy" none none none [.plain (.assign .result (.input 1))]).expand 2 = .ok p ∧
      p.level = 2 ∧
      p.collapseTimes 2 =
        .ok (ofLines "copy" none none none [.plain (.assign .result (.input 1))]) := by
  have hp : (ofLines "copy" none none none [.plain (.assign .result (.input 1))]).expand 2 =
    .ok _ := rfl
  exact ⟨_, hp, rfl, (Reachable.collapseTimes_level (.expand .refl hp)).2.1⟩

end Program

end CounterMachine
