import CounterMachine.Proofs.Reachable.Regrowth
import Mathlib.SetTheory.Cardinal.Arithmetic

/-!
# The level determines the program

However a program has come about by expanding and collapsing a source as a whole, its visible
operations are determined by its level, up to the names that were handed out on the way. They are
those of the source expanded to that level at once.

## Key results

- `Program.Alike`: the visible operations of two programs differ in generated names only
- `Program.WrittenDown`: what is known of a program that was written down
- `Program.Grown.alike`: programs that are expanded to one level are alike
- `Program.Grown.exists_expand_alike`: they are what the source is expanded to at once
-/

namespace CounterMachine

/-! ### Renamings that can be undone -/

/-- A function that is injective on finitely many numbers is a permutation on them. -/
theorem exists_perm_of_injOn {A : Set Nat} (hA : A.Finite) {f : Nat → Nat} (hf : Set.InjOn f A) :
    ∃ π : Equiv.Perm Nat, ∀ n ∈ A, π n = f n := by
  have hlt : Cardinal.mk A < Cardinal.mk Nat := by
    rw [Cardinal.mk_nat]
    exact Cardinal.lt_aleph0_iff_finite.mpr hA
  -- As many numbers are left over on either side.
  obtain ⟨π, hπ⟩ := Cardinal.extend_function_of_lt ⟨A.domRestrict f, hf.injective⟩ hlt ⟨.refl Nat⟩
  exact ⟨π, fun n hn => hπ ⟨n, hn⟩⟩

namespace Renaming

/-- One renaming after another one. -/
def comp (ρ' ρ : Renaming) : Renaming := ⟨ρ'.work ∘ ρ.work, ρ'.number ∘ ρ.number⟩

/-- A renaming by permutations. -/
def ofPerms (works numbers : Equiv.Perm Nat) : Renaming := ⟨works, numbers⟩

variable {ρ ρ' : Renaming}

theorem var_comp (v : Variable) : (ρ'.comp ρ).var v = ρ'.var (ρ.var v) := by
  cases v <;> rfl

theorem label_comp (x : Label) : (ρ'.comp ρ).label x = ρ'.label (ρ.label x) := by
  cases x <;> rfl

/-- A name is replaced twice. -/
theorem name_comp (ν : Name) : (ρ'.comp ρ).name ν = ρ'.name (ρ.name ν) := by
  cases ν <;> simp [name, var_comp, label_comp]

/-- So are all names in a line. -/
theorem line_comp (l : Line) : (ρ'.comp ρ).line l = ρ'.line (ρ.line l) := by
  have hvar : (ρ'.comp ρ).var = ρ'.var ∘ ρ.var := funext var_comp
  have hlabel : (ρ'.comp ρ).label = ρ'.label ∘ ρ.label := funext label_comp
  rw [line, line, line, Instruction.rename_rename, hvar, hlabel]
  rfl

theorem leaf_comp (leaf : Leaf) : (ρ'.comp ρ).leaf leaf = ρ'.leaf (ρ.leaf leaf) := by
  rw [Renaming.leaf, Renaming.leaf, line_comp]
  rfl

/-- A renaming by permutations can be undone. -/
theorem ofPerms_symm_comp (works numbers : Equiv.Perm Nat) :
    (ofPerms works.symm numbers.symm).comp (ofPerms works numbers) = identity := by
  simp only [comp, ofPerms, identity, Equiv.symm_comp_self]

/-- Programs and lines have finitely many names. -/
theorem finite_works (source : Program) (lines : List Line) :
    {n | source.Names (.var (.work n)) ∨ Uses lines (.var (.work n))}.Finite := by
  refine ((source.vars ++ lines.flatMap (·.instruction.vars)).finite_toSet.preimage
    (f := Variable.work) fun _ _ _ _ => Variable.work.inj).subset fun n hn => ?_
  simpa [Program.Names, UsesVar] using hn

/-- The numbers of their labels are finitely many, too. -/
theorem finite_numbers (source : Program) (lines : List Line) :
    {n | source.Names (.label (.numbered n)) ∨ Uses lines (.label (.numbered n))}.Finite := by
  refine ((source.labels ++ lines.flatMap Line.labels).finite_toSet.preimage
    (f := Label.numbered) fun _ _ _ _ => Label.numbered.inj).subset fun n hn => ?_
  simpa [Program.Names, UsesLabel] using hn

/-- A faithful renaming does with the names that it is faithful on what permutations do. -/
theorem Faithful.exists_perms {source : Program} {lines : List Line} {t : Supply}
    (h : ρ.Faithful source.Names lines t) : ∃ works numbers : Equiv.Perm Nat,
      ∀ ν, source.Names ν ∨ Uses lines ν → (ofPerms works numbers).name ν = ρ.name ν := by
  -- Counters and numbers are renamed apart, each one to one.
  have hwork : Set.InjOn ρ.work
      {n | source.Names (.var (.work n)) ∨ Uses lines (.var (.work n))} := by
    intro m hm n hn heq
    have hname := h.injective _ _ hm hn (congrArg (fun n => Name.var (.work n)) heq)
    simpa using hname
  have hnumber : Set.InjOn ρ.number
      {n | source.Names (.label (.numbered n)) ∨ Uses lines (.label (.numbered n))} := by
    intro m hm n hn heq
    have hname := h.injective _ _ hm hn (congrArg (fun n => Name.label (.numbered n)) heq)
    simpa using hname
  obtain ⟨works, hworks⟩ := exists_perm_of_injOn (finite_works source lines) hwork
  obtain ⟨numbers, hnumbers⟩ := exists_perm_of_injOn (finite_numbers source lines) hnumber
  refine ⟨works, numbers, fun ν hν => ?_⟩
  cases ν with
  | var v =>
    cases v with
    | work n => exact congrArg (fun n => Name.var (.work n)) (hworks n hν)
    | result => rfl
    | input n => rfl
  | label x =>
    cases x with
    | numbered n => exact congrArg (fun n => Name.label (.numbered n)) (hnumbers n hν)
    | empty => rfl
    | exit => rfl

end Renaming

namespace Program

/-! ### Programs that differ in generated names -/

/-- The visible operations of one program are, position by position, those of another one under new
names, which replace the work counters and numbered labels by others one to one and leave the names
of a source alone. -/
structure AlikeUnder (source p q : Program) (ρ : Renaming) : Prop where
  works : Function.Bijective ρ.work
  numbers : Function.Bijective ρ.number
  vars_fixed : ∀ v ∈ source.vars, ρ.var v = v
  labels_fixed : ∀ x ∈ source.labels, ρ.label x = x
  operations : List.Forall₂ (fun x y => y.layer = x.layer ∧ y.cycles = x.cycles ∧
    y.label = ρ.label x.label ∧ y.instruction = x.instruction.rename ρ.var ρ.label)
    p.operations q.operations

/-- The visible operations of two programs differ in names that are not those of a source. -/
def Alike (source p q : Program) : Prop := ∃ ρ, AlikeUnder source p q ρ

section

variable {source p q : Program} {n : Nat}

/-- Operations that are alike but for their costs have like costs, if they have those that their
instructions declare. -/
theorem forall₂_operations {ρ : Renaming} (hp : Regular p.arena) (hq : Regular q.arena)
    (h : q.leaves = p.leaves.map ρ.leaf) :
    List.Forall₂ (fun x y => y.layer = x.layer ∧ y.cycles = x.cycles ∧
      y.label = ρ.label x.label ∧ y.instruction = x.instruction.rename ρ.var ρ.label)
      p.operations q.operations := by
  -- The costs are those that the instructions declare.
  have hcycles : ∀ {r : Program}, Regular r.arena →
      ∀ x ∈ r.operations, x.cycles = x.instruction.cycles := by
    intro r hr x hx
    obtain ⟨i, _, hi⟩ := mem_operations.mp hx
    exact hr.cycles_eq i x hi
  have hleaves : List.Forall₂ (fun x y => y.leaf = ρ.leaf x.leaf) p.operations q.operations := by
    have hrefl : List.Forall₂ (fun a b => b = a) (p.leaves.map ρ.leaf) q.leaves := by
      rw [h]
      exact List.forall₂_refl _
    rwa [leaves, leaves, List.forall₂_map_left_iff, List.forall₂_map_left_iff,
      List.forall₂_map_right_iff] at hrefl
  -- Renaming does not change what an instruction declares, so the costs agree on both sides.
  have hboth := (List.forall₂_and_left _ _).mpr ⟨hcycles hp, hleaves⟩
  have hboth := (List.forall₂_and_left _ _).mpr ⟨hcycles hq, hboth.flip⟩
  refine hboth.flip.imp fun x y h => ?_
  obtain ⟨hy, hx, heq⟩ := h
  have hline : y.line = ρ.line x.line := congrArg Leaf.line heq
  have hlabel : y.label = ρ.label x.label := congrArg Line.label hline
  have hinstruction : y.instruction = x.instruction.rename ρ.var ρ.label :=
    congrArg Line.instruction hline
  refine ⟨congrArg Leaf.layer heq, ?_, hlabel, hinstruction⟩
  rw [hy, hx, hinstruction, Instruction.cycles_rename]

/-- Two renamings of the names in a program rename its visible operations in the same way. -/
theorem map_leaves_congr {ρ ρ' : Renaming} (h : ∀ ν, Uses p.lines ν → ρ.name ν = ρ'.name ν) :
    p.leaves.map ρ.leaf = p.leaves.map ρ'.leaf := by
  rw [leaves_eq]
  refine map_leaf_congr fun l hl => Renaming.line_congr fun ν hν => h ν ⟨l, ?_, hν⟩
  rwa [lines_eq_linesAt]

/-- The new names under which a program is what its source sprouts to can be taken back. -/
theorem Grown.exists_sprouts_ofPerms (hp : Grown source p) (hreg : Regular p.arena)
    (hto : p.ExpandedTo n) (horder : source.order = List.range source.arena.size) :
    ∃ (works numbers : Equiv.Perm Nat) (t : Supply),
      Sprouts source.callable n source.leaves (Supply.ofProgram source)
        (p.leaves.map (Renaming.ofPerms works numbers).leaf) t ∧
      ∀ ν, source.Names ν → (Renaming.ofPerms works numbers).name ν = ν := by
  obtain ⟨ρ, t, hsprouts, hρ⟩ := hp.exists_sprouts hreg hto horder
  obtain ⟨works, numbers, hperms⟩ := hρ.exists_perms
  refine ⟨works, numbers, t, ?_, fun ν hν => (hperms ν (.inl hν)).trans (hρ.fixes ν hν)⟩
  rwa [map_leaves_congr fun ν hν => hperms ν (.inr hν)]

/-- Programs that have grown from one source and are expanded to one level are alike. -/
theorem Grown.alike (hp : Grown source p) (hq : Grown source q) (hregp : Regular p.arena)
    (hregq : Regular q.arena) (htop : p.ExpandedTo n) (htoq : q.ExpandedTo n)
    (horder : source.order = List.range source.arena.size) : Alike source p q := by
  -- Under new names both show what the source sprouts to. The names of the first program become
  -- these, and then those of the second one.
  obtain ⟨works, numbers, t, hsprouts, hfixes⟩ := hp.exists_sprouts_ofPerms hregp htop horder
  obtain ⟨works', numbers', t', hsprouts', hfixes'⟩ := hq.exists_sprouts_ofPerms hregq htoq horder
  let back := Renaming.ofPerms works'.symm numbers'.symm
  let σ := back.comp (Renaming.ofPerms works numbers)
  have hundo : back.comp (Renaming.ofPerms works' numbers') = Renaming.identity :=
    Renaming.ofPerms_symm_comp works' numbers'
  have hfixed : ∀ ν, source.Names ν → σ.name ν = ν := by
    intro ν hν
    calc σ.name ν = back.name ν := by rw [Renaming.name_comp, hfixes ν hν]
      _ = back.name ((Renaming.ofPerms works' numbers').name ν) := by rw [hfixes' ν hν]
      _ = ν := by rw [← Renaming.name_comp, hundo, Renaming.name_identity]
  have hleaves : q.leaves = p.leaves.map σ.leaf := by
    have hback := congrArg (List.map back.leaf) (hsprouts.unique hsprouts').1
    rw [List.map_map, List.map_map] at hback
    calc q.leaves = q.leaves.map Renaming.identity.leaf := by
          rw [List.map_congr_left fun leaf _ => Renaming.leaf_identity leaf, List.map_id']
      _ = q.leaves.map (back.leaf ∘ (Renaming.ofPerms works' numbers').leaf) := by
          rw [← hundo, List.map_congr_left fun leaf _ => Renaming.leaf_comp leaf]
          rfl
      _ = p.leaves.map (back.leaf ∘ (Renaming.ofPerms works numbers).leaf) := hback.symm
      _ = p.leaves.map σ.leaf := List.map_congr_left fun leaf _ => (Renaming.leaf_comp leaf).symm
  exact ⟨σ, works'.symm.bijective.comp works.bijective,
    numbers'.symm.bijective.comp numbers.bijective,
    fun v hv => Name.var.inj (hfixed (.var v) hv),
    fun x hx => Name.label.inj (hfixed (.label x) (.inr hx)),
    forall₂_operations hregp hregq hleaves⟩

/-! ### Sources -/

/-- What is known of a program that was written down: it has grown from itself, its entries have
their declared costs, nothing in it is expanded, and all of its entries are visible in their
order. -/
structure WrittenDown (source : Program) : Prop where
  grown : Grown source source
  regular : Regular source.arena
  expandedTo : source.ExpandedTo 0
  order_eq : source.order = List.range source.arena.size

/-- A program that was written down as lines. -/
theorem ofLines_writtenDown (name : String) (displayName : Option String)
    (inputs : Option (List Variable)) (functions : Option (List Program)) (lines : List Line) :
    WrittenDown (ofLines name displayName inputs functions lines) where
  grown := Grown.ofLines name displayName inputs functions lines
  regular := ofLines_regular name displayName inputs functions lines
  expandedTo := ofLines_expandedTo name displayName inputs functions lines
  order_eq := ofLines_order name displayName inputs functions lines

/-- The visible operations of a source are in its arena. -/
theorem WrittenDown.lt_size (hs : WrittenDown source) : ∀ i ∈ source.order, i < source.arena.size :=
  fun _ hi => hs.grown.forest.lt_size hi

/-- An expansion goes no further than the degree. -/
theorem expand_min (levels : Nat) : p.expand (min levels p.degree) = p.expand levels := by
  rw [expand, expand, degree, Nat.min_assoc, Nat.min_self]

/-- What a source is expanded to at once is alike to what has grown from it and is expanded to the
same level, if the degree of the source allows as many levels. -/
theorem Grown.exists_expand_alike (hp : Grown source p) (hregp : Regular p.arena)
    (htop : p.ExpandedTo n) (hs : WrittenDown source) (hn : n ≤ source.degree) :
    ∃ q, source.expand n = .ok q ∧ Alike source p q := by
  have hmin : min n source.degree = n := Nat.min_eq_left hn
  -- Under new names the program is what the source sprouts to, so the source can be expanded.
  obtain ⟨ρ, t, hsprouts, _⟩ := hp.exists_sprouts hregp htop hs.order_eq
  rw [← hmin] at hsprouts
  obtain ⟨q, hq, _⟩ := expand_of_sprouts hs.lt_size hsprouts
  have hreachable : Reachable source q := .expand .refl hq
  have htoq := hs.expandedTo.expand hs.lt_size hq
  rw [hmin, Nat.zero_add] at htoq
  exact ⟨q, hq, hp.alike (hreachable.grown hs.grown) hregp (hreachable.regular hs.grown hs.regular)
    htop htoq hs.order_eq⟩

end

end Program

end CounterMachine
