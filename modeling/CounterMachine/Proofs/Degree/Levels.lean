import CounterMachine.Proofs.Degree.Lowering
import CounterMachine.Proofs.Degree.Table
import CounterMachine.Proofs.Reachable.CollapseAll
import CounterMachine.Proofs.Reachable.Leaves

/-!
# Degrees and levels of expanded programs

Every level that a program is expanded by takes one from its degree. What is left has no larger
degree, since lowering takes one from the degree of each line. It has no smaller one either, since
each line has a descendant that has lost no more than one on each level, and that was lowered on all
levels if the degree of the line allows it.

## Key results

- `Sprouts.degree_le`: no operation that is left has a larger degree
- `Sprouts.exists_degree_le`: some operation has no smaller one, and is as deep as can be
- `Program.Reachable.expandToDegree_degree`: the degree is the number of levels that are left
- `Program.expandToDegree_collapseTimes`: collapsing takes the levels back that were reached
-/

namespace CounterMachine

section

variable {table : FunctionTable} {d : String → Nat} {levels n : Nat} {leaves out : List Leaf}
  {s s' : Supply}

/-- Each level takes one from the degree. -/
theorem Sprouts.degree_le (hfunctions : ∀ function callee, table.find? function = some callee →
      callee.degreeUnder d ≤ d function) (h : Sprouts table levels leaves s out s')
    (hleaves : ∀ leaf ∈ leaves, leaf.line.instruction.degree d ≤ n + levels) :
    ∀ leaf ∈ out, leaf.line.instruction.degree d ≤ n := by
  -- The lines below an operation have one level less to go, and one less of its degree.
  induction h with
  | nil => exact nofun
  | keep hstay _ ih =>
    obtain ⟨hleaf, hrest⟩ := List.forall_mem_cons.mp hleaves
    refine List.forall_mem_cons.mpr ⟨?_, ih hrest⟩
    rcases hstay with rfl | hbasic
    · exact hleaf
    · rw [(Instruction.isBasic_iff_degree_eq_zero d _).mp hbasic]
      exact Nat.zero_le n
  | lower _ hlower _ _ ihbelow ihrest =>
    obtain ⟨hleaf, hrest⟩ := List.forall_mem_cons.mp hleaves
    have hlines := lower_degree_le hfunctions hlower hleaf
    exact List.forall_mem_append.mpr ⟨ihbelow (List.forall_mem_map.mpr hlines), ihrest hrest⟩

/-- Each level goes one layer down at most. -/
theorem Sprouts.layer_le (h : Sprouts table levels leaves s out s')
    (hleaves : ∀ leaf ∈ leaves, leaf.layer + levels ≤ n) : ∀ leaf ∈ out, leaf.layer ≤ n := by
  -- One level less is to go where a layer more has been gone.
  induction h with
  | nil => exact nofun
  | keep _ _ ih =>
    obtain ⟨hleaf, hrest⟩ := List.forall_mem_cons.mp hleaves
    exact List.forall_mem_cons.mpr ⟨Nat.le_of_add_right_le hleaf, ih hrest⟩
  | lower _ _ _ _ ihbelow ihrest =>
    obtain ⟨hleaf, hrest⟩ := List.forall_mem_cons.mp hleaves
    refine List.forall_mem_append.mpr
      ⟨ihbelow (List.forall_mem_map.mpr fun line _ => ?_), ihrest hrest⟩
    show _ + 1 + _ ≤ n
    omega

/-- The calls that an operation passes reach inputs, and a supply covers its names. -/
structure Leaf.Lowerable (table : FunctionTable) (s : Supply) (leaf : Leaf) : Prop where
  covered : ∀ ν ∈ leaf.line.names, ν.Covered s
  received : leaf.line.instruction.EachCall table.Receives

/-- A supply that has handed out more still covers the names. -/
theorem Leaf.Lowerable.mono {leaf : Leaf} (h : leaf.Lowerable table s)
    (hgrows : s.label ≤ s'.label ∧ s.work ≤ s'.work) : leaf.Lowerable table s' :=
  ⟨fun ν hν => (h.covered ν hν).mono hgrows.1 hgrows.2, h.received⟩

variable (hfunctions : ∀ function callee, table.find? function = some callee →
    d function ≤ callee.degreeUnder d)
  (htable : table.Each fun callee => ∀ line ∈ callee.lines,
    line.instruction.EachCall table.Receives)
include htable

/-- The lines that an operation is lowered to can be lowered in turn. -/
theorem Leaf.Lowerable.below {leaf : Leaf} {lines : List Line} (h : leaf.Lowerable table s)
    (hlower : leaf.line.lower table s = .ok (lines, s')) :
    ∀ below ∈ lines.map (Leaf.mk (leaf.layer + 1)), below.Lowerable table s' := by
  refine List.forall_mem_map.mpr fun line hline => ⟨fun ν hν => ?_, ?_⟩
  · exact (lower_names hlower).covered h.covered ν ⟨line, hline, hν⟩
  · exact lower_eachCall (fun f _ _ h => h.rename f) htable h.received hlower line hline

include hfunctions

/-- Every operation leaves one that has lost no more of its degree than there are levels. Unless the
degree is smaller than that, it has been lowered on each level. -/
theorem Sprouts.exists_degree_le (h : Sprouts table levels leaves s out s')
    (hleaves : ∀ leaf ∈ leaves, leaf.Lowerable table s) :
    ∀ leaf ∈ leaves, ∃ x ∈ out,
      leaf.line.instruction.degree d ≤ x.line.instruction.degree d + levels ∧
        (levels ≤ leaf.line.instruction.degree d → x.layer = leaf.layer + levels) := by
  induction h with
  | nil => exact nofun
  | @keep levels leaf leaves out s s' hstay _ ih =>
    obtain ⟨_, hrest⟩ := List.forall_mem_cons.mp hleaves
    refine List.forall_mem_cons.mpr ⟨⟨leaf, List.mem_cons_self, Nat.le_add_right _ _, ?_⟩, ?_⟩
    · -- A basic operation has degree zero, so there is no level to go in either case.
      intro hle
      rcases hstay with rfl | hbasic
      · rfl
      · rw [(Instruction.isBasic_iff_degree_eq_zero d _).mp hbasic] at hle
        rw [Nat.le_zero.mp hle]
        rfl
    · intro other hother
      obtain ⟨x, hx, hdegree⟩ := ih hrest other hother
      exact ⟨x, List.mem_cons_of_mem _ hx, hdegree⟩
  | @lower levels leaf leaves below out lines s s₁ s₂ s' hsyn hlower hbelow _ ihbelow ihrest =>
    obtain ⟨hleaf, hrest⟩ := List.forall_mem_cons.mp hleaves
    have hnames := lower_names hlower
    refine List.forall_mem_cons.mpr ⟨?_, ?_⟩
    · -- One of its lines has a degree that is one less at most.
      obtain ⟨l, hl, hle⟩ :=
        exists_degree_le_of_lower hfunctions hsyn hlower hleaf.covered hleaf.received
      obtain ⟨x, hx, hdegree, hlayer⟩ := ihbelow (hleaf.below htable hlower) ⟨leaf.layer + 1, l⟩
        (List.mem_map_of_mem hl)
      simp only at hdegree hlayer
      refine ⟨x, List.mem_append_left _ hx, by omega, fun hlevels => ?_⟩
      have := hlayer (by omega)
      omega
    · intro other hother
      have hgrows := hbelow.supply_le
      obtain ⟨x, hx, hdegree⟩ := ihrest
        (fun leaf hleaf => (hrest leaf hleaf).mono
          ⟨hnames.label_le.trans hgrows.1, hnames.work_le.trans hgrows.2⟩) other hother
      exact ⟨x, List.mem_append_right _ hx, hdegree⟩

end

namespace Program

/-! ### Programs -/

variable {p q : Program} {levels n : Nat}

/-- The degree of a program is read off what is visible. -/
theorem degreeUnder_le_iff_leaves {f : String → Nat} :
    p.degreeUnder f ≤ n ↔ ∀ leaf ∈ p.leaves, leaf.line.instruction.degree f ≤ n := by
  rw [leaves, List.forall_mem_map]
  exact degreeUnder_le_iff

/-- So is its level. -/
theorem level_le_iff_leaves : p.level ≤ n ↔ ∀ leaf ∈ p.leaves, leaf.layer ≤ n := by
  rw [leaves, List.forall_mem_map]
  exact level_le_iff

/-- The calls that are passed by the calls of a program and of its functions reach an input. -/
structure Received (p : Program) : Prop where
  own : ∀ line ∈ p.lines, line.instruction.EachCall p.callable.Receives
  functions : p.callable.Each fun callee => ∀ line ∈ callee.lines,
    line.instruction.EachCall p.callable.Receives

/-- Without recursion, each level that a program is expanded by takes one from its degree. -/
theorem degree_expand_le (hp : ∀ i ∈ p.order, i < p.arena.size) (hacyclic : p.callable.Acyclic)
    (h : p.expand levels = .ok q) : q.degree ≤ p.degree - levels := by
  obtain ⟨s, hsprouts⟩ := expand_sprouts hp h
  obtain ⟨g, _, hq⟩ := expand_eq_ok p q levels h
  have hcallable : q.callable = p.callable := by
    rw [hq]
    rfl
  rw [degree, degreeIn, hcallable]
  refine degreeUnder_le_iff_leaves.mpr (hsprouts.degree_le
    (fun _ _ hfind => Nat.le_of_eq (hacyclic.degrees_of hfind).symm) fun leaf hleaf => ?_)
  -- An expansion goes no further than the degree.
  have hle : leaf.line.instruction.degree p.callable.degrees.of ≤ p.degree :=
    degreeUnder_le_iff_leaves.mp (Nat.le_refl p.degree) leaf hleaf
  omega

/-- What has no degree is basic. -/
theorem isBasic_of_degree (h : p.degree = 0) : ∀ op ∈ p.operations, op.instruction.isBasic = true :=
  fun op hop => (Instruction.isBasic_iff_degree_eq_zero _ _).mpr
    (Nat.le_zero.mp (degreeUnder_le_iff.mp (Nat.le_of_eq h) op hop))

/-- An expansion that the degree allows is an ordinary one. -/
theorem expandToDegree_of_le (h : levels ≤ p.degree) :
    p.expandToDegree levels = p.expand levels :=
  if_neg (Nat.not_lt.mpr h)

/-- An expansion that the degree allows goes as far as it is asked to. -/
theorem expandToDegree_eq_ok (h : p.expandToDegree levels = .ok q) :
    levels ≤ p.degree ∧ p.expand levels = .ok q := by
  rw [expandToDegree] at h
  split at h
  · cases h
  · rename_i hle
    exact ⟨Nat.le_of_not_lt hle, h⟩

section

variable (hp : ∀ i ∈ p.order, i < p.arena.size) (h : p.expandToDegree levels = .ok q)
include hp h

/-- What is visible then has sprouted from what was visible before, by all the levels. -/
theorem expandToDegree_sprouts : q.callable = p.callable ∧
    ∃ s, Sprouts p.callable levels p.leaves (Supply.ofProgram p) q.leaves s := by
  obtain ⟨hle, hexpand⟩ := expandToDegree_eq_ok h
  obtain ⟨s, hsprouts⟩ := expand_sprouts hp hexpand
  rw [Nat.min_eq_left hle] at hsprouts
  obtain ⟨g, _, rfl⟩ := expand_eq_ok p q levels hexpand
  exact ⟨rfl, s, hsprouts⟩

/-- Without recursion, the degree that is left is at most the number of levels that are left. -/
theorem expandToDegree_degree_le (hacyclic : p.callable.Acyclic) :
    q.degree ≤ p.degree - levels :=
  degree_expand_le hp hacyclic (expandToDegree_eq_ok h).2

/-- A source is expanded to the number of levels at most. -/
theorem expandToDegree_level_le (hlevel : p.level = 0) : q.level ≤ levels := by
  obtain ⟨_, s, hsprouts⟩ := expandToDegree_sprouts hp h
  -- Nothing was expanded before, so every leaf of the source is on layer zero.
  refine level_le_iff_leaves.mpr (hsprouts.layer_le fun leaf hleaf => ?_)
  have := level_le_iff_leaves.mp (Nat.le_of_eq hlevel) leaf hleaf
  omega

variable (hreceived : p.Received)
include hreceived

/-- Every visible operation leaves one that has lost no more of its degree than there are levels,
and that is on the last level if the degree allows it. -/
theorem Received.exists_leaf : ∀ leaf ∈ p.leaves, ∃ x ∈ q.leaves,
    leaf.line.instruction.degree p.callable.degrees.of ≤
        x.line.instruction.degree p.callable.degrees.of + levels ∧
      (levels ≤ leaf.line.instruction.degree p.callable.degrees.of →
        x.layer = leaf.layer + levels) := by
  obtain ⟨_, s, hsprouts⟩ := expandToDegree_sprouts hp h
  refine hsprouts.exists_degree_le (fun _ _ hfind => p.callable.degrees_of_le hfind)
    hreceived.functions fun leaf hleaf => ⟨p.covered_leaves leaf hleaf, ?_⟩
  exact hreceived.own _ (p.lines_eq_map_leaves ▸ List.mem_map_of_mem hleaf)

/-- It is no less, if calls that are passed reach inputs. -/
theorem Received.le_expandToDegree_degree : p.degree - levels ≤ q.degree := by
  obtain ⟨hcallable, _⟩ := expandToDegree_sprouts hp h
  have hdegree : p.degree ≤ q.degree + levels :=
    degreeUnder_le_iff_leaves.mpr fun leaf hleaf => by
      obtain ⟨x, hx, hle, _⟩ := hreceived.exists_leaf hp h leaf hleaf
      have hxq : x.line.instruction.degree q.callable.degrees.of ≤ q.degree :=
        degreeUnder_le_iff_leaves.mp (Nat.le_refl q.degree) x hx
      rw [hcallable] at hxq
      omega
  omega

/-- A source is expanded to the number of levels. -/
theorem Received.le_expandToDegree_level : levels ≤ q.level := by
  obtain ⟨hle, _⟩ := expandToDegree_eq_ok h
  by_contra hlevel
  -- Some operation is of the degree of the program, so it is lowered on each level.
  have hsmaller : p.degree ≤ levels - 1 := degreeUnder_le_iff_leaves.mpr fun leaf hleaf => by
    obtain ⟨x, hx, _, hlayer⟩ := hreceived.exists_leaf hp h leaf hleaf
    have hxq := level_le_iff_leaves.mp (Nat.le_refl q.level) x hx
    by_contra hdegree
    have := hlayer (by omega)
    omega
  omega

end

/-! ### The degree is the number of levels left -/

variable {name : String} {displayName : Option String} {inputs : Option (List Variable)}
  {functions : Option (List Program)} {lines : List Line}

/-- Without recursion, and if no call passes more than its function takes, a program that is
reachable from a source loses one of its degree with each level that it is expanded by. With all of
them gone, everything is basic. The source itself is expanded to the level that is asked for. With
counters of 32 bits this is said of an expansion that does not overflow, since one that overflows
has no result (`expandChecked_cases`). -/
theorem Reachable.expandToDegree_degree
    (hp : Reachable (ofLines name displayName inputs functions lines) p)
    (hacyclic : p.callable.Acyclic)
    (hfits : ∀ line ∈ p.lines, line.instruction.Fits p.callable)
    (htable : p.callable.Each fun callee => ∀ line ∈ callee.lines,
      line.instruction.Fits p.callable)
    (h : p.expandToDegree levels = .ok q) :
    q.degree = p.degree - levels ∧
    (levels = p.degree → ∀ op ∈ q.operations, op.instruction.isBasic = true) ∧
    (p = ofLines name displayName inputs functions lines → q.level = levels) := by
  have horder : ∀ i ∈ p.order, i < p.arena.size :=
    fun i hi => (hp.grown (Grown.ofLines ..)).forest.lt_size hi
  have hreceived : p.Received :=
    ⟨fun line hline => (hfits line hline).received,
      htable.imp fun _ hcallee line hline => (hcallee line hline).received⟩
  have hdegree : q.degree = p.degree - levels := Nat.le_antisymm
    (expandToDegree_degree_le horder h hacyclic) (hreceived.le_expandToDegree_degree horder h)
  -- What is left of the degree is known on both sides.
  refine ⟨hdegree, fun hall op hop => ?_, fun hsource => ?_⟩
  · have hzero : q.degree ≤ 0 := by omega
    exact (Instruction.isBasic_iff_degree_eq_zero _ _).mpr
      (Nat.le_zero.mp (degreeUnder_le_iff.mp hzero op hop))
  · exact Nat.le_antisymm (expandToDegree_level_le horder h (hsource ▸ ofLines_level ..))
      (hreceived.le_expandToDegree_level horder h)

/-- A call in a call is expanded on four levels. -/
theorem expandToDegree_degree_nested : ∃ q,
    (ofLines "twice" none none
      (some [ofLines "id" none none none [.plain (.assign .result (.input 1))]])
      [.plain (.quote .result ⟨"id", [.nested "id" [.var (.input 1)]]⟩)]).expandToDegree 4 =
        .ok q ∧
    q.degree = 0 ∧ (∀ op ∈ q.operations, op.instruction.isBasic = true) ∧ q.level = 4 := by
  have hq : (ofLines "twice" none none
      (some [ofLines "id" none none none [.plain (.assign .result (.input 1))]])
      [.plain (.quote .result ⟨"id", [.nested "id" [.var (.input 1)]]⟩)]).expandToDegree 4 =
        .ok _ := rfl
  have hlevels := Reachable.expandToDegree_degree .refl ?_ ?_ ?_ hq
  · exact ⟨_, hq, hlevels.1, hlevels.2.1 rfl, hlevels.2.2 rfl⟩
  · -- The function calls none, so it does not call itself.
    intro f hf
    obtain ⟨g, ⟨function, hfind, hg⟩, _⟩ := Relation.TransGen.head'_iff.mp hf
    rw [List.mem_singleton.mp (List.mem_of_find?_eq_some hfind)] at hg
    cases hg
  · intro line hline
    rw [List.mem_singleton.mp hline]
    refine ⟨fun callee hfind => ?_, ⟨fun callee hfind => ?_, trivial, trivial⟩, trivial⟩
    · exact List.mem_singleton.mp (List.mem_of_find?_eq_some hfind) ▸ Nat.le_refl 1
    · exact List.mem_singleton.mp (List.mem_of_find?_eq_some hfind) ▸ Nat.le_refl 1
  · intro function callee hfind line hline
    rw [List.mem_singleton.mp (List.mem_of_find?_eq_some hfind)] at hline
    rw [List.mem_singleton.mp hline]
    trivial

/-! ### Collapsing what was expanded -/

/-- A source that was expanded is at most on the level that was asked for, and can be collapsed as
often as its level says, back to the source. If calls that are passed reach inputs, then that is the
level that was asked for. It is presupposed that the expansion has a result; with counters of 32
bits it has one where it does not overflow (`expandChecked_cases`). -/
theorem expandToDegree_collapseTimes
    (h : (ofLines name displayName inputs functions lines).expandToDegree levels = .ok q) :
    q.level ≤ levels ∧
    (∀ n, (∃ r, q.collapseTimes n = .ok r) ↔ n ≤ q.level) ∧
    q.collapseTimes q.level = .ok (ofLines name displayName inputs functions lines) ∧
    ((ofLines name displayName inputs functions lines).Received →
      q.collapseTimes levels = .ok (ofLines name displayName inputs functions lines)) := by
  have hs := Grown.ofLines name displayName inputs functions lines
  have hg := (Reachable.expand .refl (expandToDegree_eq_ok h).2).grown hs
  have horder : ∀ i ∈ (ofLines name displayName inputs functions lines).order,
      i < (ofLines name displayName inputs functions lines).arena.size :=
    fun i hi => hs.forest.lt_size hi
  have hzero := ofLines_level name displayName inputs functions lines
  have hlevel := expandToDegree_level_le horder h hzero
  refine ⟨hlevel, hg.collapseTimes_iff hs hzero, hg.collapseTimes_source hs, fun hreceived => ?_⟩
  rw [← Nat.le_antisymm hlevel (hreceived.le_expandToDegree_level horder h)]
  exact hg.collapseTimes_source hs

/-- Two levels of a function that calls itself, and two collapses. -/
theorem collapseTimes_of_recursion : ∃ q,
    (ofLines "main" none none
      (some [ofLines "f" none none none [.plain (.quote .result ⟨"f", [.var (.input 1)]⟩)]])
      [.plain (.quote .result ⟨"f", [.var (.input 1)]⟩)]).expandToDegree 2 = .ok q ∧
    q.collapseTimes 2 = .ok (ofLines "main" none none
      (some [ofLines "f" none none none [.plain (.quote .result ⟨"f", [.var (.input 1)]⟩)]])
      [.plain (.quote .result ⟨"f", [.var (.input 1)]⟩)]) := by
  have hq : (ofLines "main" none none
      (some [ofLines "f" none none none [.plain (.quote .result ⟨"f", [.var (.input 1)]⟩)]])
      [.plain (.quote .result ⟨"f", [.var (.input 1)]⟩)]).expandToDegree 2 = .ok _ := rfl
  -- The calls pass counters only.
  have hcall : ∀ table : FunctionTable,
      (Instruction.quote .result ⟨"f", [.var (.input 1)]⟩).EachCall table.Receives := by
    intro table call hcall
    cases hcall
    refine ⟨fun callee _ k inner innerArgs hk => ?_, trivial, trivial⟩
    cases List.mem_singleton.mp (List.mem_of_getElem? hk)
  refine ⟨_, hq, (expandToDegree_collapseTimes hq).2.2.2 ⟨fun line hline => ?_, ?_⟩⟩
  · rw [List.mem_singleton.mp hline]
    exact hcall _
  · intro function callee hfind line hline
    rw [List.mem_singleton.mp (List.mem_of_find?_eq_some hfind)] at hline
    rw [List.mem_singleton.mp hline]
    exact hcall _

/-- A call that is passed to a function without inputs counts in the degree, but is nothing that the
outer call is lowered to. So the level that was asked for is not reached, and the last collapse
fails. -/
theorem collapseTimes_of_surplus : ∃ q,
    (ofLines "main" none none (some [ofLines "f" none none none [.plain (.neutral .result)]])
      [.plain (.quote .result ⟨"f", [.nested "f" []]⟩)]).expandToDegree 4 = .ok q ∧
    q.level = 3 ∧ ¬ ∃ r, q.collapseTimes 4 = .ok r := by
  have hq : (ofLines "main" none none
      (some [ofLines "f" none none none [.plain (.neutral .result)]])
      [.plain (.quote .result ⟨"f", [.nested "f" []]⟩)]).expandToDegree 4 = .ok _ := rfl
  have hs := Grown.ofLines "main" none none
    (some [ofLines "f" none none none [.plain (.neutral .result)]])
    [.plain (.quote .result ⟨"f", [.nested "f" []]⟩)]
  have hg := (Reachable.expand .refl (expandToDegree_eq_ok hq).2).grown hs
  refine ⟨_, hq, rfl, fun hr => ?_⟩
  have hle := (hg.collapseTimes_iff hs (ofLines_level ..) 4).mp hr
  exact absurd hle (by decide)

end Program

end CounterMachine
