import Std.Data.TreeSet

/-! # Sorted sets

A program reports its counters, its labels and the names of its functions as sorted lists
without repetitions.  `sortedSet` makes such a list of any list.

* `mem_sortedSet`        it has the members of the list
* `sortedSet_pairwise`   they stand in strictly increasing order -/

namespace CounterMachine

/-- The members of a list in increasing order, each of them once. -/
def sortedSet {α : Type} [Ord α] (items : List α) : List α :=
  (items.foldl (fun set item => set.insert item) (∅ : Std.TreeSet α)).toList

section

variable {α : Type} [Ord α] [Std.TransOrd α] [Std.LawfulEqOrd α]

private theorem mem_foldl_insert (items : List α) (set : Std.TreeSet α) (x : α) :
    x ∈ items.foldl (fun set item => set.insert item) set ↔ x ∈ set ∨ x ∈ items := by
  induction items generalizing set with
  | nil => simp
  | cons item rest ih =>
    rw [List.foldl_cons, ih, Std.TreeSet.mem_insert, Std.LawfulEqCmp.compare_eq_iff_eq,
      List.mem_cons, eq_comm (a := item)]
    grind

/-- A sorted set has the members of the list it is made of. -/
@[simp] theorem mem_sortedSet {items : List α} {x : α} : x ∈ sortedSet items ↔ x ∈ items := by
  rw [sortedSet, Std.TreeSet.mem_toList, mem_foldl_insert]
  simp

omit [Std.LawfulEqOrd α] in
/-- A sorted set stands in strictly increasing order. -/
theorem sortedSet_pairwise (items : List α) :
    (sortedSet items).Pairwise fun a b => compare a b = .lt :=
  Std.TreeSet.ordered_toList

/-- A sorted set has no repetitions. -/
theorem nodup_sortedSet (items : List α) : (sortedSet items).Nodup :=
  (sortedSet_pairwise items).imp fun {a b} h eq => by
    have self : compare b b = .eq := Std.ReflCmp.compare_self
    rw [eq, self] at h
    cases h

end

end CounterMachine
