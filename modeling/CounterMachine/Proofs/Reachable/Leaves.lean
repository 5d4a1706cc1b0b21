import CounterMachine.Proofs.Reachable.Cover

/-!
# What an expansion makes of visible operations

An expansion makes of each visible operation a list of visible operations, which depends on its
line, its layer and the supply of names only, and not on the arena around it. `Sprouts` says what it
makes of it: an operation that stays is one that is basic or has no level left to go, and any other
one gives way to what the lines of its body become, one level less and one layer below.

## Key results

- `Program.expand_sprouts`: what an expansion of a program makes of its visible operations
- `Program.expand_of_sprouts`: an expansion that can be made of them succeeds
- `Program.expandSingle_sprouts`: what the expansion of one operation makes of it
- `Program.expandSingle_loweredAmong`: by one level, it is lowered among the others
-/

namespace CounterMachine

/-- A visible operation without its place in the arena. -/
structure Leaf where
  layer : Nat
  line : Line

/-- The operation without its place in the arena. -/
def Operation.leaf (op : Operation) : Leaf := ⟨op.layer, op.line⟩

/-- The visible operations without their places. -/
def Program.leaves (p : Program) : List Leaf := p.operations.map Operation.leaf

/-- The operations at places of an arena. -/
def leavesAt (arena : Array Operation) (ids : List Nat) : List Leaf :=
  ids.filterMap fun i => arena[i]?.map Operation.leaf

/-- What visible operations become when each is expanded by a number of levels, from left to
right, and the supply after that. -/
inductive Sprouts (table : FunctionTable) :
    (levels : Nat) → List Leaf → Supply → List Leaf → Supply → Prop
  | nil {levels : Nat} {s : Supply} : Sprouts table levels [] s [] s
  | keep {levels : Nat} {leaf : Leaf} {leaves out : List Leaf} {s s' : Supply}
      (hstay : levels = 0 ∨ leaf.line.instruction.isBasic = true)
      (hrest : Sprouts table levels leaves s out s') :
      Sprouts table levels (leaf :: leaves) s (leaf :: out) s'
  | lower {levels : Nat} {leaf : Leaf} {leaves below out : List Leaf} {lines : List Line}
      {s s₁ s₂ s' : Supply} (hsyn : leaf.line.instruction.isBasic = false)
      (hlower : leaf.line.lower table s = .ok (lines, s₁))
      (hbelow : Sprouts table levels (lines.map (Leaf.mk (leaf.layer + 1))) s₁ below s₂)
      (hrest : Sprouts table (levels + 1) leaves s₂ out s') :
      Sprouts table (levels + 1) (leaf :: leaves) s (below ++ out) s'

section

variable {table : FunctionTable} {levels : Nat} {leaves leaves' out out' : List Leaf}
  {s s' s'' : Supply}

/-- What operations become is put together from left to right. -/
theorem Sprouts.append (h : Sprouts table levels leaves s out s')
    (h' : Sprouts table levels leaves' s' out' s'') :
    Sprouts table levels (leaves ++ leaves') s (out ++ out') s'' := by
  -- By induction on how the first operations are expanded.
  induction h with
  | nil => exact h'
  | keep hstay _ ih => exact .keep hstay (ih h')
  | lower hsyn hlower hbelow _ _ ih =>
    rw [List.append_assoc]
    exact .lower hsyn hlower hbelow (ih h')

/-- The supply only grows. -/
theorem Sprouts.supply_le (h : Sprouts table levels leaves s out s') :
    s.label ≤ s'.label ∧ s.work ≤ s'.work := by
  induction h with
  | nil => exact ⟨Nat.le_refl _, Nat.le_refl _⟩
  | keep _ _ ih => exact ih
  | lower _ hlower _ _ ihbelow ihrest =>
    have hnames := lower_names hlower
    exact ⟨hnames.label_le.trans (ihbelow.1.trans ihrest.1),
      hnames.work_le.trans (ihbelow.2.trans ihrest.2)⟩

/-- Without levels everything stays. -/
theorem Sprouts.eq_of_zero (h : Sprouts table 0 leaves s out s') : out = leaves ∧ s' = s := by
  generalize hlevels : 0 = levels at h
  induction h with
  | nil => exact ⟨rfl, rfl⟩
  | keep _ _ ih =>
    obtain ⟨rfl, rfl⟩ := ih hlevels
    exact ⟨rfl, rfl⟩
  | lower => cases hlevels

/-- What operations become is determined by the operations, the levels and the supply. -/
theorem Sprouts.unique (h : Sprouts table levels leaves s out s')
    (h' : Sprouts table levels leaves s out' s'') : out = out' ∧ s' = s'' := by
  -- Both derivations make the same choice, since an operation is basic or not.
  induction h generalizing out' s'' with
  | nil => cases h'; exact ⟨rfl, rfl⟩
  | keep hstay _ ih =>
    cases h' with
    | keep _ hrest' =>
      obtain ⟨rfl, rfl⟩ := ih hrest'
      exact ⟨rfl, rfl⟩
    | lower hsyn => exact absurd (hstay.resolve_left (Nat.succ_ne_zero _)) (by simp [hsyn])
  | lower hsyn hlower _ _ ihbelow ihrest =>
    cases h' with
    | keep hstay => exact absurd (hstay.resolve_left (Nat.succ_ne_zero _)) (by simp [hsyn])
    | lower _ hlower' hbelow' hrest' =>
      rw [hlower] at hlower'
      cases hlower'
      obtain ⟨rfl, rfl⟩ := ihbelow hbelow'
      obtain ⟨rfl, rfl⟩ := ihrest hrest'
      exact ⟨rfl, rfl⟩

end

/-! ### Expansions -/

section

variable {arena arena' : Array Operation} {ids ids' : List Nat}

/-- Places are read from left to right. -/
theorem leavesAt_append :
    leavesAt arena (ids ++ ids') = leavesAt arena ids ++ leavesAt arena ids' :=
  List.filterMap_append

/-- The operation at the first place comes first. -/
theorem leavesAt_cons {id : Nat} {op : Operation} (hop : arena[id]? = some op) :
    leavesAt arena (id :: ids) = op.leaf :: leavesAt arena ids := by
  rw [leavesAt, List.filterMap_cons, hop]
  rfl

/-- Only where there are no places there are no operations. -/
theorem eq_nil_of_leavesAt (hids : ∀ i ∈ ids, i < arena.size) (h : leavesAt arena ids = []) :
    ids = [] := by
  cases ids with
  | nil => rfl
  | cons id ids =>
    have hid := hids id List.mem_cons_self
    rw [leavesAt_cons (Array.getElem?_eq_getElem hid)] at h
    cases h

/-- The first operation stands at the first place. -/
theorem exists_cons_of_leavesAt {leaf : Leaf} {rest : List Leaf}
    (hids : ∀ i ∈ ids, i < arena.size) (h : leavesAt arena ids = leaf :: rest) :
    ∃ id ids' op, ids = id :: ids' ∧ arena[id]? = some op ∧ op.leaf = leaf ∧
      leavesAt arena ids' = rest := by
  cases ids with
  | nil => cases h
  | cons id ids =>
    have hid := hids id List.mem_cons_self
    have hop : arena[id]? = some arena[id] := Array.getElem?_eq_getElem hid
    rw [leavesAt_cons hop] at h
    exact ⟨id, ids, _, rfl, hop, (List.cons.inj h).1, (List.cons.inj h).2⟩

/-- Where the entries are the same, the operations are. -/
theorem leavesAt_congr (h : ∀ i ∈ ids, arena'[i]? = arena[i]?) :
    leavesAt arena' ids = leavesAt arena ids :=
  List.filterMap_congr fun i hi => by rw [h i hi]

/-- The visible operations are those at the places of the order. -/
theorem Program.leaves_eq (p : Program) : p.leaves = leavesAt p.arena p.order := by
  rw [leaves, operations, List.map_filterMap]
  rfl

/-- The lines of a program are those of its visible operations. -/
theorem Program.lines_eq_map_leaves (p : Program) : p.lines = p.leaves.map Leaf.line := by
  rw [lines, leaves, List.map_map]
  rfl

/-- The new entries are one layer below the operation that they were written for. -/
theorem leavesAt_withChildren (op : Operation) (lines : List Line) :
    leavesAt (withChildren arena op lines) (List.range' arena.size lines.length) =
      lines.map (Leaf.mk (op.layer + 1)) :=
  filterMap_withChildren op lines fun _ _ => rfl

end

namespace Growth

/-- An expansion leaves the entries of a growth alone, and makes of the operations at some of its
places those at others, which it shows behind what is shown. -/
structure Sprouted (table : FunctionTable) (levels : Nat) (g : Growth) (ids : List Nat)
    (g' : Growth) (ids' : List Nat) : Prop where
  order_eq : g'.order.toList = g.order.toList ++ ids'
  lt_size : ∀ i ∈ ids', i < g'.arena.size
  size_le : g.arena.size ≤ g'.arena.size
  kept : ∀ i < g.arena.size, g'.arena[i]? = g.arena[i]?
  sprouts : CounterMachine.Sprouts table levels (leavesAt g.arena ids) g.supply
    (leavesAt g'.arena ids') g'.supply

variable {table : FunctionTable} {levels : Nat} {g g' : Growth} {id : Nat} {ids : List Nat}

/-- An operation that stays. -/
theorem sprouted_keep {op : Operation} (hop : g.arena[id]? = some op)
    (hstay : levels = 0 ∨ op.instruction.isBasic = true) :
    Sprouted table levels g [id] (g.keep id) [id] where
  order_eq := Array.toList_push
  lt_size := by
    intro i hi
    rw [List.mem_singleton.mp hi]
    exact (Array.getElem?_eq_some_iff.mp hop).1
  size_le := Nat.le_refl _
  kept := fun _ _ => rfl
  sprouts := by
    have hleaf : leavesAt g.arena [id] = [op.leaf] := by simp [leavesAt, hop]
    rw [keep, hleaf]
    exact .keep hstay .nil

/-- Entries that are expanded from left to right. -/
theorem foldlM_sprouted {step : Growth → Nat → Except ExpansionError Growth}
    (hstep : ∀ g id g', id < g.arena.size → step g id = .ok g' →
      ∃ ids', Sprouted table levels g [id] g' ids')
    (hids : ∀ i ∈ ids, i < g.arena.size) (h : ids.foldlM step g = .ok g') :
    ∃ ids', Sprouted table levels g ids g' ids' := by
  induction ids generalizing g with
  | nil =>
    cases h
    exact ⟨[], (List.append_nil _).symm, by simp, Nat.le_refl _, fun _ _ => rfl, .nil⟩
  | cons id ids ih =>
    rw [List.foldlM_cons] at h
    cases hg : step g id with
    | error e => rw [hg] at h; cases h
    | ok g₁ =>
      rw [hg] at h
      obtain ⟨hid, hids⟩ := List.forall_mem_cons.mp hids
      obtain ⟨ids₁, first⟩ := hstep g id g₁ hid hg
      obtain ⟨ids₂, others⟩ := ih (fun i hi => (hids i hi).trans_le first.size_le) h
      refine ⟨ids₁ ++ ids₂, ?_, ?_, first.size_le.trans others.size_le, ?_, ?_⟩
      · rw [others.order_eq, first.order_eq, List.append_assoc]
      · exact List.forall_mem_append.mpr
          ⟨fun i hi => (first.lt_size i hi).trans_le others.size_le, others.lt_size⟩
      · exact fun i hi => (others.kept i (hi.trans_le first.size_le)).trans (first.kept i hi)
      · -- What the first entry becomes stays while the others are expanded, and these are as
        -- they were before it was.
        have hout := leavesAt_congr fun i hi => others.kept i (first.lt_size i hi)
        have hin := leavesAt_congr fun i hi => first.kept i (hids i hi)
        have hothers := others.sprouts
        rw [hin] at hothers
        rw [leavesAt_append, hout, ← List.singleton_append, leavesAt_append]
        exact first.sprouts.append hothers

/-- What the expansion of one entry makes of it. -/
theorem expand_sprouted (levels : Nat) (g : Growth) (id : Nat) (g' : Growth)
    (hid : id < g.arena.size) (h : expand table levels g id = .ok g') :
    ∃ ids', Sprouted table levels g [id] g' ids' := by
  -- The recursion is on the levels, and goes over the new entries of an operation from left to
  -- right with one level less.
  induction levels generalizing g id g' with
  | zero =>
    cases h
    exact ⟨[id], sprouted_keep (Array.getElem?_eq_getElem hid) (.inl rfl)⟩
  | succ levels ih =>
    obtain ⟨op, hop⟩ : ∃ op, g.arena[id]? = some op := ⟨_, Array.getElem?_eq_getElem hid⟩
    simp only [expand, hop] at h
    split at h
    · rename_i hbasic
      cases h
      exact ⟨[id], sprouted_keep hop (.inr hbasic)⟩
    · rename_i hsyn
      cases hl : Line.lower table ⟨op.label, op.instruction⟩ g.supply with
      | error e => rw [hl] at h; cases h
      | ok lowered =>
        obtain ⟨lines, s₁⟩ := lowered
        rw [hl] at h
        obtain ⟨ids', below⟩ := foldlM_sprouted (g := ⟨withChildren g.arena op lines, s₁, g.order⟩)
          ih (fun i hi => by simpa using (List.mem_range'_1.mp hi).2) h
        have hsize : g.arena.size ≤ (withChildren g.arena op lines).size := by simp
        refine ⟨ids', below.order_eq, below.lt_size, hsize.trans below.size_le, ?_, ?_⟩
        · intro i hi
          rw [below.kept i (hi.trans_le hsize), getElem?_withChildren_lt _ op lines hi]
        · have hbelow := below.sprouts
          rw [leavesAt_withChildren] at hbelow
          have hleaf : leavesAt g.arena [id] = [op.leaf] := by simp [leavesAt, hop]
          rw [hleaf, ← List.append_nil (leavesAt g'.arena ids')]
          exact .lower (Bool.eq_false_iff.mpr hsyn) hl hbelow .nil

/-- What can be made of entries is made of them. -/
theorem foldlM_of_sprouts {leaves out : List Leaf} {s s' : Supply}
    (h : CounterMachine.Sprouts table levels leaves s out s') (hs : g.supply = s)
    (hids : ∀ i ∈ ids, i < g.arena.size) (hleaves : leavesAt g.arena ids = leaves) :
    ∃ g', ids.foldlM (expand table levels) g = .ok g' ∧ g'.supply = s' := by
  -- By induction on the derivation, whose steps are those of the expansion.
  induction h generalizing g ids with
  | nil =>
    obtain rfl := eq_nil_of_leavesAt hids hleaves
    exact ⟨g, rfl, hs⟩
  | @keep levels leaf leaves out s s' hstay _ ih =>
    obtain ⟨id, rest, op, rfl, hop, rfl, hrest⟩ := exists_cons_of_leavesAt hids hleaves
    -- The leaf stays, because no level is left or because its line is basic.
    have hkeep : expand table levels g id = .ok (g.keep id) := by
      cases levels with
      | zero => rfl
      | succ levels =>
        have hbasic : op.instruction.isBasic = true := hstay.resolve_left (Nat.succ_ne_zero _)
        simp only [expand, hop, hbasic, if_true]
    rw [List.foldlM_cons, hkeep]
    exact ih (g := g.keep id) hs (List.forall_mem_cons.mp hids).2 hrest
  | @lower levels leaf leaves below out lines s s₁ s₂ s' hsyn hlower hbelow _ ihbelow ihrest =>
    obtain ⟨id, rest, op, rfl, hop, rfl, hrest⟩ := exists_cons_of_leavesAt hids hleaves
    obtain ⟨hid, hids⟩ := List.forall_mem_cons.mp hids
    subst hs
    have hchildren : ∀ i ∈ List.range' g.arena.size lines.length,
        i < (withChildren g.arena op lines).size :=
      fun i hi => by simpa using (List.mem_range'_1.mp hi).2
    obtain ⟨g₁, hg₁, hs₁⟩ := ihbelow (g := ⟨withChildren g.arena op lines, s₁, g.order⟩) rfl
      hchildren (leavesAt_withChildren op lines)
    have hexpand : expand table (levels + 1) g id = .ok g₁ := by
      have hsyn : op.instruction.isBasic = false := hsyn
      have hlower : Line.lower table ⟨op.label, op.instruction⟩ g.supply = .ok (lines, s₁) := hlower
      simp only [expand, hop, hsyn, hlower]
      exact hg₁
    obtain ⟨_, grown⟩ := expand_sprouted _ g id g₁ hid hexpand
    rw [List.foldlM_cons, hexpand]
    exact ihrest (g := g₁) hs₁ (fun i hi => (hids i hi).trans_le grown.size_le)
      ((leavesAt_congr fun i hi => grown.kept i (hids i hi)).trans hrest)

end Growth

namespace Program

variable {p q : Program} {levels id : Nat}

/-- The supply of a program covers the names of what is visible. -/
theorem covered_leaves (p : Program) :
    ∀ leaf ∈ p.leaves, ∀ ν ∈ leaf.line.names, ν.Covered (Supply.ofProgram p) :=
  List.forall_mem_map.mpr fun _ hop => Supply.covered_of_mem_operations hop

/-- What an expansion of a program makes of its visible operations. -/
theorem expand_sprouts (hp : ∀ i ∈ p.order, i < p.arena.size) (h : p.expand levels = .ok q) :
    ∃ s, Sprouts p.callable (min levels p.degree) p.leaves (Supply.ofProgram p) q.leaves s := by
  obtain ⟨g, hg, rfl⟩ := expand_eq_ok p q levels h
  obtain ⟨ids', grown⟩ := Growth.foldlM_sprouted (Growth.expand_sprouted _) hp hg
  have hsprouts := grown.sprouts
  have horder : g.order.toList = ids' := grown.order_eq
  rw [← horder] at hsprouts
  exact ⟨g.supply, by rw [leaves_eq, leaves_eq]; exact hsprouts⟩

/-- An expansion that can be made of the visible operations succeeds, and shows what becomes of
them. -/
theorem expand_of_sprouts (hp : ∀ i ∈ p.order, i < p.arena.size) {out : List Leaf} {s : Supply}
    (h : Sprouts p.callable (min levels p.degree) p.leaves (Supply.ofProgram p) out s) :
    ∃ q, p.expand levels = .ok q ∧ q.leaves = out := by
  obtain ⟨g, hg, _⟩ := Growth.foldlM_of_sprouts (g := p.seed) h rfl hp p.leaves_eq.symm
  have hq : p.expand levels = .ok { p with arena := g.arena, order := g.order.toList } := by
    have hg : p.order.foldlM (Growth.expand p.callable (min levels (p.degreeIn p.callable)))
      p.seed = .ok g := hg
    simp only [expand, hg, bind, Except.bind, pure, Except.pure]
  obtain ⟨s', hsprouts⟩ := expand_sprouts hp hq
  exact ⟨_, hq, (hsprouts.unique h).1⟩

/-- What the expansion of one operation makes of it. -/
theorem expandSingle_sprouts {op : Operation} (hp : ∀ i ∈ p.order, i < p.arena.size)
    (hop : p.operation? id = some op) (h : p.expandSingle id levels = .ok q) :
    ∃ before after out s, p.leaves = before ++ op.leaf :: after ∧
      q.leaves = before ++ out ++ after ∧
        Sprouts p.callable levels [op.leaf] (Supply.ofProgram p) out s := by
  obtain ⟨position, g, hpos, hg, rfl⟩ := expandSingle_eq_ok p q id levels h
  have horder := order_of_positionOf? p id position hpos
  have hid : id < p.arena.size := (Array.getElem?_eq_some_iff.mp hop).1
  obtain ⟨ids', grown⟩ := Growth.expand_sprouted levels p.seed id g hid hg
  have hids' : g.order.toList = ids' := grown.order_eq
  have hleaf : leavesAt p.arena [id] = [op.leaf] := by
    rw [operation?] at hop
    simp [leavesAt, hop]
  -- The operations around it are old entries, which the expansion leaves alone.
  have hkept : ∀ ids, ids ⊆ p.order → leavesAt g.arena ids = leavesAt p.arena ids :=
    fun ids hids => leavesAt_congr fun i hi => grown.kept i (hp i (hids hi))
  refine ⟨leavesAt p.arena (p.order.take position), leavesAt p.arena (p.order.drop (position + 1)),
    leavesAt g.arena ids', g.supply, ?_, ?_, ?_⟩
  · rw [leaves_eq]
    nth_rewrite 1 [horder]
    rw [← List.singleton_append, leavesAt_append, leavesAt_append, hleaf, List.singleton_append]
  · rw [leaves_eq]
    simp only [leavesAt_append, hids', hkept _ (List.take_subset _ _),
      hkept _ (List.drop_subset _ _)]
  · have hsprouts := grown.sprouts
    rw [show leavesAt p.seed.arena [id] = [op.leaf] from hleaf] at hsprouts
    exact hsprouts

/-- An operation that is not basic gives way to its lines when it is expanded by one level. -/
theorem expandSingle_loweredAmong {op : Operation} (hp : ∀ i ∈ p.order, i < p.arena.size)
    (hop : p.operation? id = some op) (hsyn : op.instruction.isBasic = false)
    (h : p.expandSingle id 1 = .ok q) :
    ∃ before after lines s, p.lines = before ++ op.line :: after ∧
      q.lines = before ++ lines ++ after ∧
        LoweredAmong p.callable before after op.line (Supply.ofProgram p) s lines := by
  obtain ⟨before, after, out, s, hleaves, hleaves', hsprouts⟩ := expandSingle_sprouts hp hop h
  have hcovered := p.covered_leaves
  rw [hleaves] at hcovered
  cases hsprouts with
  | keep hstay _ =>
    -- The line is synthetic and there is one level to go, so it does not stay.
    rcases hstay with hzero | hbasic
    · cases hzero
    · exact absurd hbasic (Bool.eq_false_iff.mp hsyn)
  | @lower _ _ _ _ _ lines _ _ _ _ _ hlower hbelow hrest =>
    cases hrest
    -- No level is left for what the line was lowered to.
    obtain ⟨rfl, rfl⟩ := hbelow.eq_of_zero
    refine ⟨before.map Leaf.line, after.map Leaf.line, lines, _, ?_, ?_, hlower, ?_, ?_⟩
    · rw [lines_eq_map_leaves, hleaves, List.map_append, List.map_cons]
      rfl
    · rw [lines_eq_map_leaves, hleaves', List.append_nil, List.map_append, List.map_append,
        List.map_map]
      exact congrArg (_ ++ · ++ _) (List.map_id lines)
    · exact hcovered _ (List.mem_append_right _ List.mem_cons_self)
    · intro ν hfresh _ other hother hν
      rw [← List.map_append] at hother
      obtain ⟨leaf, hleaf, rfl⟩ := List.mem_map.mp hother
      refine (hcovered leaf ?_ ν hν).not_fresh hfresh
      exact (List.mem_append.mp hleaf).elim (List.mem_append_left _)
        fun hleaf => List.mem_append_right _ (List.mem_cons_of_mem _ hleaf)

end Program

end CounterMachine
