import CounterMachine.Proofs.Degree.Table

/-!
# Degrees along paths of calls

A degree can be told without writing degrees down. On a path of calls a function counts as zero
where the path comes back to it, and the degree of a function is the one on the path that starts at
it. When degrees are written down, a function may be met while its caller is on the path, and gets
the degree that it has on that path for good. So where functions call each other mutually it can get
less than the degree that is told by paths, and how much depends on which of them is visited first.
Where functions call none but themselves and functions that do not call them back, no path that
leads to a function matters to it, and both degrees agree.

## Key results

- `FunctionTable.History.of_le_pathDegree`: what is written down is at most the degree along paths
- `FunctionTable.settle_exact`: without mutual calls it is that degree
- `FunctionTable.degree?_pathDegree`: both, for every order in which functions are visited
- `FunctionTable.degree?_of_mutual`: two functions that call each other
-/

namespace CounterMachine

namespace FunctionTable

open Relation (ReflTransGen TransGen)

/-- A path takes up one more function of the table. -/
theorem length_filter_notMem_lt {names path : List String} {name : String} (h : name ∈ names)
    (hnew : name ∉ path) :
    (names.filter (· ∉ name :: path)).length < (names.filter (· ∉ path)).length := by
  -- Filtering by the longer path is filtering once more, which drops the new function.
  have hfilter : names.filter (· ∉ name :: path) =
      (names.filter (· ∉ path)).filter (· ≠ name) := by
    rw [List.filter_filter]
    exact List.filter_congr fun t _ => by simp
  rw [hfilter, List.length_filter_lt_length_iff_exists]
  exact ⟨name, List.mem_filter.mpr ⟨h, by simpa using hnew⟩, by simp⟩

/-- The degree of a function on a path of calls. A function that the path has come through counts as
zero, and so does one that is not in the table. -/
def pathDegree (table : FunctionTable) (path : List String) (name : String) : Nat :=
  if _new : name ∈ path then 0
  else
    match _found : table.find? name with
    | none => 0
    | some function => function.degreeUnder fun callee => pathDegree table (name :: path) callee
termination_by (table.names.filter (· ∉ path)).length
decreasing_by exact length_filter_notMem_lt (mem_names_of_contains (contains_of_find? _found)) _new

section

variable {table : FunctionTable} {path path' : List String} {degrees : Degrees} {name : String}
  {function : Program}

/-- A function that the path has come through counts as zero. -/
theorem pathDegree_of_mem (h : name ∈ path) : table.pathDegree path name = 0 := by
  rw [pathDegree, dif_pos h]

/-- So does a function that is missing. -/
theorem pathDegree_of_not_contains (h : ¬ table.contains name) :
    table.pathDegree path name = 0 := by
  rw [pathDegree]
  split
  · rfl
  · split
    · rfl
    · rename_i hfind
      exact absurd (contains_of_find? hfind) h

/-- Any other function has got the degree of its body on the longer path. -/
theorem pathDegree_of_find? (hfind : table.find? name = some function) (hnew : name ∉ path) :
    table.pathDegree path name = function.degreeUnder (table.pathDegree (name :: path)) := by
  rw [pathDegree, dif_neg hnew]
  split
  · rename_i hnone
    rw [hfind] at hnone
    cases hnone
  · rename_i callee hsome
    rw [hfind] at hsome
    cases hsome
    rfl

/-- Two paths tell the same degree if they have come through the same of the functions that are
reached. -/
theorem pathDegree_congr
    (h : ∀ t, ReflTransGen table.Calls name t → (t ∈ path ↔ t ∈ path')) :
    table.pathDegree path name = table.pathDegree path' name := by
  -- By induction along the calls, with the recursion of the degree itself.
  induction path, name using pathDegree.induct table generalizing path' with
  | case1 path name hmem =>
    rw [pathDegree_of_mem hmem, pathDegree_of_mem ((h name .refl).mp hmem)]
  | case2 path name hnew hnone =>
    have hmissing : ¬ table.contains name := by simp [contains, hnone]
    rw [pathDegree_of_not_contains hmissing, pathDegree_of_not_contains hmissing]
  | case3 path name hnew function hfind ih =>
    have hnew' : name ∉ path' := fun hmem => hnew ((h name .refl).mpr hmem)
    rw [pathDegree_of_find? hfind hnew, pathDegree_of_find? hfind hnew']
    refine Program.degreeUnder_congr fun callee hcallee => ih callee fun t ht => ?_
    rw [List.mem_cons, List.mem_cons, h t (.head ⟨function, hfind, hcallee⟩ ht)]

/-! ### What is written down -/

/-- Degrees that have been written down one after the other, each for a function that had none and
as the degree of the body under those before. -/
inductive History (table : FunctionTable) : Degrees → Prop
  | nil : History table []
  | cons {name : String} {function : Program} {degrees : Degrees} (h : History table degrees)
      (hfind : table.find? name = some function) (hnone : degrees.lookup name = none) :
      History table ((name, function.degreeUnder degrees.of) :: degrees)

/-- Settling a function writes down degrees, one after the other. -/
theorem settle_history (depth : Nat) (path : List String) (degrees : Degrees) (name : String)
    (h : table.History degrees) : table.History (table.settle depth path degrees name) := by
  -- By induction on the depth: the callees are settled before their caller is written down.
  induction depth generalizing path degrees name with
  | zero => exact h
  | succ depth ih =>
    rcases table.settle_cases depth path degrees name
      with ⟨heq, _⟩ | ⟨function, hfind, hnone, _, heq⟩
    · rw [heq]
      exact h
    · have hcallees : table.History
          (function.callees.foldl (table.settle depth (name :: path)) degrees) :=
        List.foldlRecOn _ _ h fun degrees h callee _ => ih (name :: path) degrees callee h
      have hgrows := Grows.foldl (table.settle_grows depth (name :: path)) function.callees degrees
      rw [heq]
      exact .cons hcallees hfind ((hgrows.path_eq name List.mem_cons_self).trans hnone)

/-- What is written down is at most the degree on any path that has not come through a function with
a degree. For the degrees of callees were written down before, so a function does not come back in
what its own degree was made of. -/
theorem History.of_le_pathDegree (h : table.History degrees)
    (hpath : ∀ t ∈ path, degrees.lookup t = none) (name : String) :
    degrees.of name ≤ table.pathDegree path name := by
  -- On the entries in the order they were written down: a later one only looks at earlier ones.
  induction h generalizing path name with
  | nil => exact Nat.zero_le _
  | @cons first function degrees h hfind hnone ih =>
    have hfirst : first ∉ path := fun hmem => by
      have hlookup := hpath first hmem
      rw [List.lookup_cons_self] at hlookup
      cases hlookup
    have hother : ∀ t, t ≠ first →
        List.lookup t ((first, function.degreeUnder degrees.of) :: degrees) = degrees.lookup t :=
      fun t hne => by rw [List.lookup_cons, beq_false_of_ne hne]
    have hpath' : ∀ t ∈ path, degrees.lookup t = none :=
      fun t ht => (hother t fun heq => hfirst (heq ▸ ht)).symm.trans (hpath t ht)
    by_cases heq : name = first
    · -- Its callees are met on the longer path, where the function itself is not written down yet.
      subst heq
      rw [Degrees.of, List.lookup_cons_self, pathDegree_of_find? hfind hfirst]
      exact function.degreeUnder_mono
        (ih (List.forall_mem_cons.mpr ⟨hnone, hpath'⟩))
    · rw [Degrees.of, hother name heq]
      exact ih hpath' name

/-! ### Functions without mutual calls -/

/-- No two different functions that a function reaches reach each other. Each of them may call
itself. -/
def NoMutualCalls (table : FunctionTable) (f : String) : Prop :=
  ∀ g h, ReflTransGen table.Calls f g → TransGen table.Calls g h → TransGen table.Calls h g → g = h

/-- What a function without mutual calls calls is without them as well. -/
theorem NoMutualCalls.of_calls {g : String} (h : table.NoMutualCalls name)
    (hcall : table.Calls name g) : table.NoMutualCalls g :=
  fun a b ha => h a b (.head hcall ha)

/-- A callee that does not call back has the degree that it has on no path. -/
theorem NoMutualCalls.pathDegree_callee {callee : String} (h : table.NoMutualCalls name)
    (hcall : table.Calls name callee) (hne : callee ≠ name) :
    table.pathDegree [name] callee = table.pathDegree [] callee := by
  refine pathDegree_congr fun t ht => ?_
  simp only [List.mem_singleton, List.not_mem_nil, iff_false]
  rintro rfl
  rcases Relation.reflTransGen_iff_eq_or_transGen.mp ht with heq | hback
  · exact hne heq.symm
  · exact hne (h t callee .refl (.single hcall) hback).symm

/-- Where functions do not call each other mutually, what is written down is the degree along
paths. -/
def Exact (table : FunctionTable) (degrees : Degrees) : Prop :=
  ∀ name degree, degrees.lookup name = some degree → table.NoMutualCalls name →
    degree = table.pathDegree [] name

/-- A function that can still be visited has got its degree when it has been settled. -/
theorem isSome_lookup_settle (depth : Nat) (hdepth : table.size ≤ depth + path.length)
    (hnodup : path.Nodup) (hpath : ∀ t ∈ path, table.contains t) (hname : table.contains name)
    (hnew : name ∉ path) : ((table.settle depth path degrees name).lookup name).isSome := by
  have hlt := table.length_lt_size_of_notMem hnodup hpath hname hnew
  cases depth with
  | zero => omega
  | succ depth =>
    rcases table.settle_cases depth path degrees name with ⟨heq, hdone⟩ | ⟨_, _, _, _, heq⟩
    · rw [heq]
      exact hdone hname hnew
    · rw [heq, List.lookup_cons_self]
      rfl

/-- Functions that are settled one after the other have got their degrees then. -/
theorem isSome_lookup_foldl_settle (depth : Nat) (hdepth : table.size ≤ depth + path.length)
    (hnodup : path.Nodup) (hpath : ∀ t ∈ path, table.contains t) {names : List String}
    (hmem : name ∈ names) (hname : table.contains name) (hnew : name ∉ path) :
    ((names.foldl (table.settle depth path) degrees).lookup name).isSome := by
  have hgrows := table.settle_grows depth path
  -- The function is met somewhere in the list, and keeps its degree from then on.
  induction names generalizing degrees with
  | nil => cases hmem
  | cons first names ih =>
    rcases List.mem_cons.mp hmem with rfl | hmem
    · exact (Grows.foldl hgrows names _).isSome
        (isSome_lookup_settle depth hdepth hnodup hpath hname hnew)
    · exact ih hmem

/-- When the callees have been settled, the body of a function without mutual calls has the degree
along paths. Of what it calls only the function itself is on the path. -/
theorem Exact.degreeUnder_of (hexact : table.Exact degrees)
    (hfind : table.find? name = some function) (hmutual : table.NoMutualCalls name)
    (hself : degrees.lookup name = none)
    (hcallees : ∀ callee ∈ function.callees, callee ≠ name → table.contains callee →
      (degrees.lookup callee).isSome) :
    function.degreeUnder degrees.of = table.pathDegree [] name := by
  rw [pathDegree_of_find? hfind List.not_mem_nil]
  refine Program.degreeUnder_congr fun callee hcallee => ?_
  have hcall : table.Calls name callee := ⟨function, hfind, hcallee⟩
  by_cases heq : callee = name
  · -- A call of itself counts as zero on both sides.
    subst heq
    rw [pathDegree_of_mem List.mem_cons_self, Degrees.of, hself]
    rfl
  -- Any other callee does not call back, so it has its degree off the path, too.
  rw [hmutual.pathDegree_callee hcall heq, Degrees.of]
  cases hlookup : degrees.lookup callee with
  | some degree => exact hexact callee degree hlookup (hmutual.of_calls hcall)
  | none =>
    have hmissing : ¬ table.contains callee := fun hcontains => by
      have hsome := hcallees callee hcallee heq hcontains
      rw [hlookup] at hsome
      cases hsome
    rw [pathDegree_of_not_contains hmissing]
    rfl

/-- Settling a function keeps the degrees of functions without mutual calls exact. The functions on
the path all call the function, so it calls none of them. -/
theorem settle_exact (depth : Nat) (path : List String) (degrees : Degrees) (name : String)
    (h : table.Exact degrees) (hdepth : table.size ≤ depth + path.length)
    (hnodup : path.Nodup) (hpath : ∀ t ∈ path, table.contains t)
    (hcalls : ∀ t ∈ path, TransGen table.Calls t name) :
    table.Exact (table.settle depth path degrees name) := by
  induction depth generalizing path degrees name with
  | zero => exact h
  | succ depth ih =>
    rcases table.settle_cases depth path degrees name
      with ⟨heq, _⟩ | ⟨function, hfind, hnone, hnew, heq⟩
    · rw [heq]
      exact h
    have hdepth' : table.size ≤ depth + (name :: path).length := by
      rw [List.length_cons]
      omega
    have hnodup' : (name :: path).Nodup := List.nodup_cons.mpr ⟨hnew, hnodup⟩
    have hpath' : ∀ t ∈ name :: path, table.contains t :=
      List.forall_mem_cons.mpr ⟨contains_of_find? hfind, hpath⟩
    have hgrows := Grows.foldl (table.settle_grows depth (name :: path)) function.callees degrees
    have hself := (hgrows.path_eq name List.mem_cons_self).trans hnone
    -- The callees are settled one by one, on a path that is longer by one function.
    have hexact : table.Exact
        (function.callees.foldl (table.settle depth (name :: path)) degrees) := by
      refine List.foldlRecOn _ _ h fun degrees h callee hcallee => ?_
      have hcall : table.Calls name callee := ⟨function, hfind, hcallee⟩
      exact ih (name :: path) degrees callee h hdepth' hnodup' hpath'
        (List.forall_mem_cons.mpr ⟨.single hcall, fun t ht => (hcalls t ht).tail hcall⟩)
    rw [heq]
    intro other degree hother hmutual
    rw [List.lookup_cons] at hother
    split at hother
    · rename_i hname
      cases hother
      rw [beq_iff_eq.mp hname] at hmutual ⊢
      refine hexact.degreeUnder_of hfind hmutual hself fun callee hcallee hne hcontains => ?_
      have hcall : table.Calls name callee := ⟨function, hfind, hcallee⟩
      refine isSome_lookup_foldl_settle depth hdepth' hnodup' hpath' hcallee hcontains
        fun hmem => ?_
      -- A callee on the path would be called back.
      refine hne (hmutual name callee .refl (.single hcall) ?_).symm
      exact hcalls callee ((List.mem_cons.mp hmem).resolve_left hne)
    · exact hexact other degree hother hmutual

/-! ### All functions of a table -/

/-- The degrees of functions that are visited in some order. -/
def degreesBy (table : FunctionTable) (order : List String) : Degrees :=
  order.foldl (table.settle table.size []) []

/-- A function that has been visited has got its degree. -/
theorem isSome_lookup_degreesBy {order : List String} (horder : name ∈ order)
    (hname : table.contains name) : ((table.degreesBy order).lookup name).isSome :=
  isSome_lookup_foldl_settle table.size (Nat.le_refl _) List.nodup_nil nofun horder hname
    List.not_mem_nil

/-- Whatever the order, no degree is larger than the one along paths. -/
theorem degreesBy_of_le (order : List String) (name : String) :
    (table.degreesBy order).of name ≤ table.pathDegree [] name := by
  have hhistory : table.History (table.degreesBy order) :=
    List.foldlRecOn _ _ .nil fun degrees h name _ => table.settle_history _ [] degrees name h
  exact hhistory.of_le_pathDegree (by simp) name

/-- Whatever the order, degrees of functions without mutual calls are exact. -/
theorem exact_degreesBy (order : List String) : table.Exact (table.degreesBy order) :=
  List.foldlRecOn _ _ nofun fun degrees h name _ =>
    table.settle_exact table.size [] degrees name h (Nat.le_refl _) List.nodup_nil nofun nofun

/-! ### Functions that do not matter -/

section

variable {other : FunctionTable}
  (hagree : ∀ g, ReflTransGen table.Calls name g → other.find? g = table.find? g)
include hagree

/-- Tables that agree on what a function reaches tell the same degrees of it. -/
theorem pathDegree_of_agree : other.pathDegree path name = table.pathDegree path name := by
  induction path, name using pathDegree.induct table with
  | case1 path name hmem => rw [pathDegree_of_mem hmem, pathDegree_of_mem hmem]
  | case2 path name hnew hnone =>
    have hmissing : ¬ table.contains name := by simp [contains, hnone]
    have hmissing' : ¬ other.contains name := by simp [contains, hagree name .refl, hnone]
    rw [pathDegree_of_not_contains hmissing, pathDegree_of_not_contains hmissing']
  | case3 path name hnew function hfind ih =>
    rw [pathDegree_of_find? hfind hnew,
      pathDegree_of_find? ((hagree name .refl).trans hfind) hnew]
    exact Program.degreeUnder_congr fun callee hcallee =>
      ih callee fun g hg => hagree g (.head ⟨function, hfind, hcallee⟩ hg)

/-- A call that is made in one of two such tables is made in the other one. -/
theorem calls_of_agree {g h : String} (hg : ReflTransGen table.Calls name g)
    (hcall : other.Calls g h) : table.Calls g h := by
  obtain ⟨function, hfind, hcallee⟩ := hcall
  exact ⟨function, (hagree g hg).symm.trans hfind, hcallee⟩

/-- So is a row of calls. -/
theorem transGen_of_agree {g h : String} (hg : ReflTransGen table.Calls name g)
    (hcalls : TransGen other.Calls g h) : TransGen table.Calls g h := by
  induction hcalls with
  | single hcall => exact .single (calls_of_agree hagree hg hcall)
  | tail _ hcall ih => exact ih.tail (calls_of_agree hagree (hg.trans ih.to_reflTransGen) hcall)

/-- So mutual calls in the one are mutual calls in the other one. -/
theorem NoMutualCalls.of_agree (h : table.NoMutualCalls name) : other.NoMutualCalls name := by
  intro a b ha hab hba
  have ha : ReflTransGen table.Calls name a := by
    rcases Relation.reflTransGen_iff_eq_or_transGen.mp ha with rfl | ha
    · exact .refl
    · exact (transGen_of_agree hagree .refl ha).to_reflTransGen
  -- Both rows of calls are carried over from the one table to the other.
  have hab := transGen_of_agree hagree ha hab
  exact h a b ha hab (transGen_of_agree hagree (ha.trans hab.to_reflTransGen) hba)

end

/-- A function of a table has got a degree, which is at most its degree along paths of calls. If no
two different functions that it reaches call each other mutually, it is that degree, in whatever
order the functions are visited and whatever else is in the table. -/
theorem degree?_pathDegree (table : FunctionTable) {name : String} (hname : table.contains name) :
    (∃ degree, table.degree? name = some degree ∧ degree ≤ table.pathDegree [] name) ∧
    (table.NoMutualCalls name →
      table.degree? name = some (table.pathDegree [] name) ∧
      (∀ order, name ∈ order →
        (table.degreesBy order).lookup name = some (table.pathDegree [] name)) ∧
      ∀ other : FunctionTable,
        (∀ g, ReflTransGen table.Calls name g → other.find? g = table.find? g) →
          other.degree? name = table.degree? name) := by
  have hexact : ∀ (t : FunctionTable) (order : List String), name ∈ order → t.contains name →
      t.NoMutualCalls name → (t.degreesBy order).lookup name = some (t.pathDegree [] name) := by
    intro t order horder hname hmutual
    obtain ⟨degree, hdegree⟩ := Option.isSome_iff_exists.mp (isSome_lookup_degreesBy horder hname)
    rw [hdegree, t.exact_degreesBy order name degree hdegree hmutual]
  refine ⟨?_, fun hmutual => ⟨?_, fun order horder => hexact table order horder hname hmutual,
    fun other hagree => ?_⟩⟩
  · obtain ⟨degree, hdegree⟩ := Option.isSome_iff_exists.mp
      (isSome_lookup_degreesBy (mem_names_of_contains hname) hname)
    have hle := table.degreesBy_of_le table.names name
    rw [Degrees.of, hdegree] at hle
    exact ⟨degree, hdegree, hle⟩
  · exact hexact table table.names (mem_names_of_contains hname) hname hmutual
  · have hname' : other.contains name := by rwa [contains, hagree name .refl]
    calc other.degree? name = some (other.pathDegree [] name) :=
          hexact other other.names (mem_names_of_contains hname') hname' (hmutual.of_agree hagree)
      _ = some (table.pathDegree [] name) := by rw [pathDegree_of_agree hagree]
      _ = table.degree? name :=
          (hexact table table.names (mem_names_of_contains hname) hname hmutual).symm

/-- A function that calls one that calls itself. -/
theorem degree?_of_selfCall :
    let table : FunctionTable :=
      ⟨[Program.ofLines "loop" none none none [⟨.empty, .quote .result ⟨"loop", []⟩⟩],
        Program.ofLines "main" none none none [⟨.empty, .quote .result ⟨"loop", []⟩⟩]]⟩
    table.contains "main" ∧ table.NoMutualCalls "main" ∧ table.pathDegree [] "main" = 4 ∧
      table.degree? "main" = some 4 := by
  intro table
  have hname : table.contains "main" := by decide
  -- All calls are of one function, so whoever is called back is that one.
  have hcalls : ∀ f g, table.Calls f g → g = "loop" := by
    rintro f g ⟨function, hfind, hg⟩
    rcases List.mem_pair.mp (List.mem_reverse.mp (List.mem_of_find?_eq_some hfind)) with rfl | rfl
    · exact List.mem_singleton.mp hg
    · exact List.mem_singleton.mp hg
  have hreached : ∀ f g, TransGen table.Calls f g → g = "loop" := by
    intro f g h
    obtain ⟨h, _, hcall⟩ := Relation.TransGen.tail'_iff.mp h
    exact hcalls h g hcall
  have hmutual : table.NoMutualCalls "main" :=
    fun g h _ hgh hhg => (hreached h g hhg).trans (hreached g h hgh).symm
  obtain ⟨_, hexact⟩ := table.degree?_pathDegree hname
  have hdegree : table.degree? "main" = some 4 := by decide +kernel
  have hpath := (hexact hmutual).1
  rw [hdegree] at hpath
  exact ⟨hname, hmutual, (Option.some.inj hpath).symm, hdegree⟩

/-- Of two functions that call each other, the one that is visited while the other one is on the
path gets less than its degree along paths, and which one that is depends on the order. -/
theorem degree?_of_mutual :
    let table : FunctionTable :=
      ⟨[Program.ofLines "a" none none none [⟨.empty, .quote .result ⟨"b", []⟩⟩],
        Program.ofLines "b" none none none [⟨.empty, .quote .result ⟨"a", []⟩⟩]]⟩
    table.contains "b" ∧ table.degree? "b" = some 3 ∧ table.pathDegree [] "b" = 4 ∧
      (table.degreesBy ["b", "a"]).lookup "b" = some 4 := by
  intro table
  have hb : table.find? "b" =
    some (Program.ofLines "b" none none none [⟨.empty, .quote .result ⟨"a", []⟩⟩]) := rfl
  have ha : table.find? "a" =
    some (Program.ofLines "a" none none none [⟨.empty, .quote .result ⟨"b", []⟩⟩]) := rfl
  have hback : table.pathDegree ["a", "b"] "b" = 0 := pathDegree_of_mem (by decide)
  have hcallee : table.pathDegree ["b"] "a" = 3 := by
    rw [pathDegree_of_find? ha (show "a" ∉ ["b"] by decide)]
    show max 0 (1 + max (max (table.pathDegree ["a", "b"] "b") 0) 2) = 3
    rw [hback]
    rfl
  have hdegree : table.pathDegree [] "b" = 4 := by
    rw [pathDegree_of_find? hb List.not_mem_nil]
    show max 0 (1 + max (max (table.pathDegree ["b"] "a") 0) 2) = 4
    rw [hcallee]
    rfl
  exact ⟨by decide, by decide +kernel, hdegree, by decide +kernel⟩

end

end FunctionTable

end CounterMachine
