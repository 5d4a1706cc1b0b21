import CounterMachine.Proofs.Degree.Basic
import Mathlib.Data.List.Perm.Subperm
import Mathlib.Logic.Relation

/-!
# Degrees of functions

The degrees of the functions of a table are written down while the calls are followed depth first.
What is written down stays. At the time it is written, a degree is the largest one of the body under
the degrees that are known by then, so later on it is at most that. Without recursion the degrees of
all callees are known by then, so the degree is right.

## Key results

- `FunctionTable.degrees_of_le`: in any table the degree of a function is at most that of its body
- `FunctionTable.Acyclic.degrees_of`: without recursion it is that of its body
-/

namespace CounterMachine

namespace FunctionTable

open Relation (TransGen)

/-- A function of the table calls another one. -/
def Calls (table : FunctionTable) (f g : String) : Prop :=
  ∃ function, table.find? f = some function ∧ g ∈ function.callees

/-- No function calls itself, directly or through others. -/
def Acyclic (table : FunctionTable) : Prop := ∀ f, ¬ TransGen table.Calls f f

/-- Degrees that are written down stay, and the functions on a path get none. -/
structure Grows (path : List String) (degrees degrees' : Degrees) : Prop where
  kept : ∀ name degree, degrees.lookup name = some degree → degrees'.lookup name = some degree
  path_eq : ∀ name ∈ path, degrees'.lookup name = degrees.lookup name

/-- A degree that is written down is at most the degree of the body. -/
def Bounded (table : FunctionTable) (degrees : Degrees) : Prop :=
  ∀ name degree, degrees.lookup name = some degree →
    ∃ function, table.find? name = some function ∧ degree ≤ function.degreeUnder degrees.of

/-- A degree that is written down is the degree of the body, and so are those of all functions that
the body calls. -/
def Settled (table : FunctionTable) (degrees : Degrees) : Prop :=
  ∀ name degree, degrees.lookup name = some degree →
    ∃ function, table.find? name = some function ∧ degree = function.degreeUnder degrees.of ∧
      ∀ callee ∈ function.callees, table.contains callee → (degrees.lookup callee).isSome

section

variable {table : FunctionTable} {path : List String} {degrees degrees' degrees'' : Degrees}
  {name : String} {function : Program}

/-- Where nothing is written down nothing is lost. -/
theorem Grows.refl (path : List String) (degrees : Degrees) : Grows path degrees degrees :=
  ⟨fun _ _ h => h, fun _ _ => rfl⟩

/-- What is kept twice is kept. -/
theorem Grows.trans (h : Grows path degrees degrees') (h' : Grows path degrees' degrees'') :
    Grows path degrees degrees'' :=
  ⟨fun name degree hname => h'.kept name degree (h.kept name degree hname),
    fun name hname => (h'.path_eq name hname).trans (h.path_eq name hname)⟩

/-- A function that has got its degree still has it later. -/
theorem Grows.isSome (h : Grows path degrees degrees') (hname : (degrees.lookup name).isSome) :
    (degrees'.lookup name).isSome := by
  obtain ⟨degree, hdegree⟩ := Option.isSome_iff_exists.mp hname
  rw [h.kept name degree hdegree]
  rfl

/-- The degree of a function that has none yet is written down. -/
theorem Grows.cons (hpath : name ∉ path) (hnone : degrees.lookup name = none) (degree : Nat) :
    Grows path degrees ((name, degree) :: degrees) := by
  have hother : ∀ other, other ≠ name →
      List.lookup other ((name, degree) :: degrees) = degrees.lookup other := fun other hne => by
    rw [List.lookup_cons, beq_false_of_ne hne]
  refine ⟨fun other d hd => ?_, fun other hmem => hother other fun heq => hpath (heq ▸ hmem)⟩
  rw [hother other fun heq => ?_, hd]
  rw [heq, hnone] at hd
  cases hd

/-- Degrees only become larger, since a function without one counts as zero. -/
theorem Grows.of_le (h : Grows path degrees degrees') (name : String) :
    degrees.of name ≤ degrees'.of name := by
  rw [Degrees.of, Degrees.of]
  -- A degree that is written down stays, and without one it counts as zero before.
  cases hname : degrees.lookup name with
  | none => exact Nat.zero_le _
  | some degree => exact Nat.le_of_eq (by rw [h.kept name degree hname])

/-- Degrees that are written down one after the other. -/
theorem Grows.foldl {step : Degrees → String → Degrees}
    (h : ∀ degrees name, Grows path degrees (step degrees name)) (names : List String)
    (degrees : Degrees) : Grows path degrees (names.foldl step degrees) := by
  induction names generalizing degrees with
  | nil => exact .refl path degrees
  | cons name names ih => exact (h degrees name).trans (ih (step degrees name))

/-- A function that is found is in the table. -/
theorem contains_of_find? (h : table.find? name = some function) : table.contains name := by
  rw [contains, h]
  rfl

/-- A function in the table has got its name among the names. -/
theorem mem_names_of_contains (h : table.contains name) : name ∈ table.names := by
  obtain ⟨function, hfind⟩ := Option.isSome_iff_exists.mp h
  have hmem := List.mem_reverse.mp (List.mem_of_find?_eq_some hfind)
  have hname : function.name = name := by simpa using List.find?_some hfind
  exact mem_sortedSet.mpr (hname ▸ List.mem_map_of_mem hmem)

/-! ### One function -/

/-- What settling a function comes to: nothing, or its callees are settled first and its degree is
written down then. -/
theorem settle_cases (table : FunctionTable) (depth : Nat) (path : List String)
    (degrees : Degrees) (name : String) :
    table.settle (depth + 1) path degrees name = degrees ∧
        (table.contains name → name ∉ path → (degrees.lookup name).isSome) ∨
      ∃ function, table.find? name = some function ∧ degrees.lookup name = none ∧ name ∉ path ∧
        table.settle (depth + 1) path degrees name =
          (name, function.degreeUnder
            (function.callees.foldl (table.settle depth (name :: path)) degrees).of) ::
            function.callees.foldl (table.settle depth (name :: path)) degrees := by
  rw [settle]
  split
  · rename_i hdone
    refine .inl ⟨rfl, fun _ hpath => ?_⟩
    simpa [hpath] using hdone
  · rename_i hnew
    simp only [Bool.or_eq_true, List.contains_iff_mem, not_or, Bool.not_eq_true,
      Option.isSome_eq_false_iff, Option.isNone_iff_eq_none] at hnew
    cases hfind : table.find? name with
    | none =>
      refine .inl ⟨rfl, fun hcontains => ?_⟩
      rw [contains, hfind] at hcontains
      cases hcontains
    | some function => exact .inr ⟨function, rfl, hnew.1, hnew.2, rfl⟩

/-- Settling a function keeps what is written down, and the functions on the path get no degree. -/
theorem settle_grows (depth : Nat) (path : List String) (degrees : Degrees) (name : String) :
    Grows path degrees (table.settle depth path degrees name) := by
  -- By induction on the depth: the callees are settled with one less, on the longer path.
  induction depth generalizing path degrees name with
  | zero => exact .refl path degrees
  | succ depth ih =>
    rcases table.settle_cases depth path degrees name
      with ⟨heq, _⟩ | ⟨function, _, hnone, hpath, heq⟩
    · rw [heq]
      exact .refl path degrees
    · have hcallees := Grows.foldl (ih (name :: path)) function.callees degrees
      have hname := hcallees.path_eq name List.mem_cons_self
      rw [heq]
      refine .trans ⟨hcallees.kept, fun other hother => ?_⟩ (.cons hpath (hname.trans hnone) _)
      exact hcallees.path_eq other (List.mem_cons_of_mem name hother)

/-! ### Any table -/

/-- Degrees only grow, so a degree that is written down stays a lower bound. -/
theorem Bounded.cons (h : table.Bounded degrees) (hfind : table.find? name = some function)
    (hnone : degrees.lookup name = none) :
    table.Bounded ((name, function.degreeUnder degrees.of) :: degrees) := by
  have hgrows : Grows [] degrees ((name, function.degreeUnder degrees.of) :: degrees) :=
    .cons List.not_mem_nil hnone _
  intro other degree hother
  rw [List.lookup_cons] at hother
  -- The new entry is the degree under the old ones; the old entries are bounded by larger degrees
  -- now.
  split at hother
  · rename_i heq
    cases hother
    rw [beq_iff_eq.mp heq]
    exact ⟨function, hfind, function.degreeUnder_mono hgrows.of_le⟩
  · obtain ⟨callee, hcallee, hle⟩ := h other degree hother
    exact ⟨callee, hcallee, Nat.le_trans hle (callee.degreeUnder_mono hgrows.of_le)⟩

/-- Settling a function keeps what is written down bounded. -/
theorem settle_bounded (depth : Nat) (path : List String) (degrees : Degrees) (name : String)
    (h : table.Bounded degrees) : table.Bounded (table.settle depth path degrees name) := by
  -- The callees come first, and then the degree of the body is written down.
  induction depth generalizing path degrees name with
  | zero => exact h
  | succ depth ih =>
    rcases table.settle_cases depth path degrees name
      with ⟨heq, _⟩ | ⟨function, hfind, hnone, _, heq⟩
    · rw [heq]
      exact h
    · have hcallees : table.Bounded
          (function.callees.foldl (table.settle depth (name :: path)) degrees) :=
        List.foldlRecOn _ _ h fun degrees h callee _ => ih (name :: path) degrees callee h
      have hgrows := Grows.foldl (table.settle_grows depth (name :: path)) function.callees degrees
      rw [heq]
      exact hcallees.cons hfind ((hgrows.path_eq name List.mem_cons_self).trans hnone)

/-- The degree of a function is at most that of its body, also where functions call themselves. -/
theorem degrees_of_le (hfind : table.find? name = some function) :
    table.degrees.of name ≤ function.degreeUnder table.degrees.of := by
  have hbounded : table.Bounded table.degrees :=
    List.foldlRecOn _ _ nofun fun degrees h name _ => table.settle_bounded _ [] degrees name h
  rw [Degrees.of]
  cases hname : table.degrees.lookup name with
  | none => exact Nat.zero_le _
  | some degree =>
    obtain ⟨function', hfind', hle⟩ := hbounded name degree hname
    rw [hfind] at hfind'
    cases hfind'
    exact hle

/-! ### Tables without recursion -/

/-- A function that has got its degree, or that is missing, keeps it. -/
theorem Grows.of_eq (h : Grows path degrees degrees')
    (hdone : table.contains name → (degrees.lookup name).isSome)
    (hfound : (degrees'.lookup name).isSome → table.contains name) :
    degrees'.of name = degrees.of name := by
  rw [Degrees.of, Degrees.of]
  cases hname : degrees.lookup name with
  | some degree => rw [h.kept name degree hname]
  | none =>
    cases hname' : degrees'.lookup name with
    | none => rfl
    | some degree =>
      rw [hname] at hdone
      rw [hname'] at hfound
      exact absurd (hdone (hfound rfl)) Bool.false_ne_true

/-- Only functions of the table have got degrees. -/
theorem Settled.contains (h : table.Settled degrees) (hname : (degrees.lookup name).isSome) :
    table.contains name := by
  obtain ⟨degree, hdegree⟩ := Option.isSome_iff_exists.mp hname
  obtain ⟨function, hfind, _⟩ := h name degree hdegree
  exact contains_of_find? hfind

/-- When all callees have got their degrees, the degree of the body is right and stays right. -/
theorem Settled.cons (h : table.Settled degrees) (hfind : table.find? name = some function)
    (hnone : degrees.lookup name = none)
    (hcallees : ∀ callee ∈ function.callees, table.contains callee →
      (degrees.lookup callee).isSome) :
    table.Settled ((name, function.degreeUnder degrees.of) :: degrees) := by
  have hgrows : Grows [] degrees ((name, function.degreeUnder degrees.of) :: degrees) :=
    .cons List.not_mem_nil hnone _
  have hfound : ∀ other,
      (List.lookup other ((name, function.degreeUnder degrees.of) :: degrees)).isSome →
        table.contains other := by
    intro other hother
    rw [List.lookup_cons] at hother
    split at hother
    · rename_i heq
      rw [beq_iff_eq.mp heq]
      exact contains_of_find? hfind
    · exact h.contains hother
  -- The new entry changes the degree of no callee of a function that is written down.
  have hbody : ∀ body : Program, (∀ callee ∈ body.callees, table.contains callee →
      (degrees.lookup callee).isSome) → body.degreeUnder degrees.of =
        body.degreeUnder (Degrees.of ((name, function.degreeUnder degrees.of) :: degrees)) :=
    fun body hdone => Program.degreeUnder_congr fun callee hcallee =>
      (hgrows.of_eq (hdone callee hcallee) (hfound callee)).symm
  intro other degree hother
  rw [List.lookup_cons] at hother
  split at hother
  · rename_i heq
    cases hother
    rw [beq_iff_eq.mp heq]
    exact ⟨function, hfind, hbody function hcallees, fun callee hcallee hcontains =>
      hgrows.isSome (hcallees callee hcallee hcontains)⟩
  · obtain ⟨body, hbodyfind, rfl, hdone⟩ := h other degree hother
    exact ⟨body, hbodyfind, hbody body hdone, fun callee hcallee hcontains =>
      hgrows.isSome (hdone callee hcallee hcontains)⟩

/-- Functions that are settled one after the other have all got their degrees in the end. -/
theorem foldl_settled {step : Degrees → String → Degrees} (names : List String)
    (hgrows : ∀ degrees name, Grows path degrees (step degrees name))
    (hstep : ∀ degrees, table.Settled degrees → ∀ name ∈ names, table.Settled (step degrees name) ∧
      (table.contains name → ((step degrees name).lookup name).isSome))
    (h : table.Settled degrees) :
    table.Settled (names.foldl step degrees) ∧
      ∀ name ∈ names, table.contains name → ((names.foldl step degrees).lookup name).isSome := by
  induction names generalizing degrees with
  | nil => exact ⟨h, nofun⟩
  | cons first names ih =>
    obtain ⟨hfirst, hdone⟩ := hstep degrees h first List.mem_cons_self
    obtain ⟨hrest, hall⟩ := ih
      (fun degrees h name hname => hstep degrees h name (List.mem_cons_of_mem first hname)) hfirst
    refine ⟨hrest, fun name hname hcontains => ?_⟩
    -- The first one keeps its degree while the others are settled.
    rcases List.mem_cons.mp hname with rfl | hname
    · exact (Grows.foldl hgrows names _).isSome (hdone hcontains)
    · exact hall name hname hcontains

/-- Functions on a path without repetitions are at most as many as there are functions. -/
theorem length_lt_size_of_notMem (hnodup : path.Nodup) (hpath : ∀ t ∈ path, table.contains t)
    (hname : table.contains name) (hnew : name ∉ path) : path.length < table.size := by
  have hsub : name :: path ⊆ table.names := by
    intro t ht
    rcases List.mem_cons.mp ht with rfl | ht
    · exact mem_names_of_contains hname
    · exact mem_names_of_contains (hpath t ht)
  exact (List.subperm_of_subset (List.nodup_cons.mpr ⟨hnew, hnodup⟩) hsub).length_le

/-- Without recursion a function has got its degree when it has been settled. Every function on the
path calls it, so it is not on the path itself, and the depth suffices since no function stands on
the path twice. -/
theorem settle_settled (hacyclic : table.Acyclic) (depth : Nat) (path : List String)
    (degrees : Degrees) (name : String) (h : table.Settled degrees)
    (hdepth : table.size ≤ depth + path.length) (hnodup : path.Nodup)
    (hpath : ∀ t ∈ path, table.contains t) (hcalls : ∀ t ∈ path, TransGen table.Calls t name) :
    table.Settled (table.settle depth path degrees name) ∧
      (table.contains name → ((table.settle depth path degrees name).lookup name).isSome) := by
  have hnew : name ∉ path := fun hmem => hacyclic name (hcalls name hmem)
  -- By induction on the depth, which is used up by functions that are all different.
  induction depth generalizing path degrees name with
  | zero =>
    refine ⟨h, fun hname => ?_⟩
    have := table.length_lt_size_of_notMem hnodup hpath hname hnew
    omega
  | succ depth ih =>
    rcases table.settle_cases depth path degrees name
      with ⟨heq, hdone⟩ | ⟨function, hfind, hnone, _, heq⟩
    · rw [heq]
      exact ⟨h, fun hname => hdone hname hnew⟩
    · have hgrows := table.settle_grows depth (name :: path)
      have hpath' : ∀ t ∈ name :: path, table.contains t :=
        List.forall_mem_cons.mpr ⟨contains_of_find? hfind, hpath⟩
      obtain ⟨hsettled, hcallees⟩ := foldl_settled function.callees hgrows
        (fun degrees h callee hcallee => by
          have hcall : table.Calls name callee := ⟨function, hfind, hcallee⟩
          -- All of the path calls the callee, so a callee that is on the path would call itself.
          have hcalls' : ∀ t ∈ name :: path, TransGen table.Calls t callee :=
            List.forall_mem_cons.mpr ⟨.single hcall, fun t ht => (hcalls t ht).tail hcall⟩
          exact ih (name :: path) degrees callee h (by rw [List.length_cons]; omega)
            (List.nodup_cons.mpr ⟨hnew, hnodup⟩) hpath' hcalls'
            fun hmem => hacyclic callee (hcalls' callee hmem)) h
      have hnone' := ((Grows.foldl hgrows function.callees degrees).path_eq name
        List.mem_cons_self).trans hnone
      rw [heq]
      refine ⟨hsettled.cons hfind hnone' hcallees, fun _ => ?_⟩
      rw [List.lookup_cons_self]
      rfl

/-- Without recursion the degree of a function is that of its body. -/
theorem Acyclic.degrees_of (hacyclic : table.Acyclic) (hfind : table.find? name = some function) :
    table.degrees.of name = function.degreeUnder table.degrees.of := by
  have hname := contains_of_find? hfind
  have hnil : table.Settled [] := nofun
  obtain ⟨hsettled, hall⟩ := foldl_settled table.names
    (table.settle_grows table.size [])
    (fun degrees h name _ => table.settle_settled hacyclic table.size [] degrees name h
      (Nat.le_refl _) List.nodup_nil nofun nofun) hnil
  obtain ⟨degree, hdegree⟩ := Option.isSome_iff_exists.mp
    (hall name (mem_names_of_contains hname) hname)
  obtain ⟨function', hfind', heq, _⟩ := hsettled name degree hdegree
  rw [hfind] at hfind'
  cases hfind'
  rw [Degrees.of, degrees, hdegree, heq]
  rfl

end

end FunctionTable

end CounterMachine
