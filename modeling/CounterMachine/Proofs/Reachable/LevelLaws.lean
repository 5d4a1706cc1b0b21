import CounterMachine.Proofs.Reachable.Alike

/-!
# Laws of levels

Expanding and collapsing a source as a whole leads from level to level, and the level determines the
visible operations up to generated names. So two expansions are one expansion by the sum of their
levels, and a collapse leads to what a smaller expansion leads to, wherever the levels come out
alike. They need not: an expansion goes no further than the degree, which counts a recursive call as
nothing.

## Key results

- `Program.Levelled.alike_iff`: programs on one level are alike, and no others
- `Program.Levelled.exists_expand_alike`: they are what the source is expanded to at once
- `Program.expand_expand_alike`: two expansions in a row
- `Program.expand_collapseTimes_alike`: an expansion of which levels are taken back
- `Program.expand_level_alike`: the level determines the program
-/

namespace CounterMachine

namespace Program

section

variable {source p q : Program} {n a b j k : Nat}

/-! ### Levels -/

/-- Programs that are alike are on one level. -/
theorem Alike.level_eq (h : Alike source p q) : p.level = q.level := by
  obtain ⟨ρ, h⟩ := h
  have hlayers : List.Forall₂ (· = ·) (p.operations.map (·.layer)) (q.operations.map (·.layer)) :=
    List.forall₂_map_left_iff.mpr (List.forall₂_map_right_iff.mpr
      (h.operations.imp fun _ _ h => h.1.symm))
  -- The level is read off the layers.
  have hlevel : ∀ r : Program, r.level = (r.operations.map (·.layer)).foldl max 0 :=
    fun r => List.foldl_map.symm
  rw [hlevel, hlevel, (congrFun₂ List.forall₂_eq_eq_eq _ _).mp hlayers]

/-- Collapses lead from a level to a level. -/
theorem Levelled.collapseTimes (h : Levelled source p) {times : Nat}
    (hq : p.collapseTimes times = .ok q) : Levelled source q := by
  induction times generalizing p with
  | zero =>
    cases hq
    exact h
  | succ times ih =>
    rw [Program.collapseTimes] at hq
    cases hcollapse : p.collapse with
    | error e => rw [hcollapse] at hq; cases hq
    | ok r =>
      rw [hcollapse] at hq
      exact ih (.collapse h hcollapse) hq

/-- An expansion of a source reaches no level beyond the one that is asked for, and none beyond the
degree. -/
theorem WrittenDown.level_expand_le (hs : WrittenDown source) (hp : source.expand k = .ok p) :
    p.level ≤ min k source.degree := by
  have hto := hs.expandedTo.expand hs.lt_size hp
  rw [Nat.zero_add] at hto
  exact level_le_iff_leaves.mpr fun leaf hleaf => (hto leaf hleaf).layer_le

/-- It reaches the one that is asked for, if calls that are passed reach inputs and the degree
allows it. -/
theorem WrittenDown.level_expand_of_received (hs : WrittenDown source)
    (hreceived : source.Received) (hk : k ≤ source.degree) (hp : source.expand k = .ok p) :
    p.level = k := by
  have hle := hs.level_expand_le hp
  have hge : k ≤ p.level :=
    hreceived.le_expandToDegree_level hs.lt_size (by rwa [expandToDegree_of_le hk])
  omega

/-- The levels of two expansions are those of the sum, if they add up. -/
theorem WrittenDown.expandedTo_add (hs : WrittenDown source) (hp : source.expand a = .ok p)
    (hq : p.expand b = .ok q)
    (hsum : min a source.degree + min b p.degree = min (a + b) source.degree) :
    q.ExpandedTo (min (a + b) source.degree) := by
  have hplaces : ∀ i ∈ p.order, i < p.arena.size :=
    fun i hi => ((Reachable.expand .refl hp).grown hs.grown).forest.lt_size hi
  have hto := (hs.expandedTo.expand hs.lt_size hp).expand hplaces hq
  rwa [Nat.zero_add, hsum] at hto

/-- They add up if no function calls itself, or else nothing is left to expand. -/
theorem WrittenDown.expandedTo_add_of_acyclic (hs : WrittenDown source)
    (hacyclic : source.callable.Acyclic) (hp : source.expand a = .ok p)
    (hq : p.expand b = .ok q) : q.ExpandedTo (min (a + b) source.degree) := by
  have hplaces : ∀ i ∈ p.order, i < p.arena.size :=
    fun i hi => ((Reachable.expand .refl hp).grown hs.grown).forest.lt_size hi
  have hcallable : p.callable = source.callable := by
    obtain ⟨g, _, rfl⟩ := expand_eq_ok source p a hp
    rfl
  -- Without recursion, no more is left of the degree than an expansion leaves.
  have hleft : p.degree ≤ source.degree - a := degree_expand_le hs.lt_size hacyclic hp
  have hnone : q.degree ≤ p.degree - b := degree_expand_le hplaces (hcallable ▸ hacyclic) hq
  by_cases hlt : b < p.degree
  · exact hs.expandedTo_add hp hq (by omega)
  · -- The second expansion has used up the degree, so everything is basic.
    have hto := (hs.expandedTo.expand hs.lt_size hp).expand hplaces hq
    refine expandedTo_of_isBasic (isBasic_of_degree (by omega)) ?_
    refine level_le_iff_leaves.mpr fun leaf hleaf => (hto leaf hleaf).layer_le.trans ?_
    omega

/-- They add up if calls that are passed reach inputs and the degree allows the sum, since the first
expansion leaves enough of the degree for the second one. -/
theorem WrittenDown.expandedTo_add_of_received (hs : WrittenDown source)
    (hreceived : source.Received) (hle : a + b ≤ source.degree) (hp : source.expand a = .ok p)
    (hq : p.expand b = .ok q) : q.ExpandedTo (min (a + b) source.degree) := by
  have hleft : source.degree - a ≤ p.degree :=
    hreceived.le_expandToDegree_degree hs.lt_size (by rwa [expandToDegree_of_le (by omega)])
  exact hs.expandedTo_add hp hq (by omega)

/-! ### Laws -/

/-- A program that has come about from a source by expanding and collapsing as a whole is alike to
what the source is expanded to at once, if the degree of the source allows as many levels. -/
theorem Levelled.exists_expand_alike (hp : Levelled source p) (hs : WrittenDown source)
    (hto : p.ExpandedTo n) (hn : n ≤ source.degree) :
    ∃ q, source.expand n = .ok q ∧ Alike source p q :=
  (hp.reachable.grown hs.grown).exists_expand_alike (hp.reachable.regular hs.grown hs.regular)
    hto hs hn

/-- Two programs that have come about in this way are alike if and only if they are on one
level. -/
theorem Levelled.alike_iff (hp : Levelled source p) (hq : Levelled source q)
    (hs : WrittenDown source) : Alike source p q ↔ p.level = q.level := by
  -- Each of them is the source, expanded to its own level.
  refine ⟨Alike.level_eq, fun hlevel => ?_⟩
  exact (hp.reachable.grown hs.grown).alike (hq.reachable.grown hs.grown)
    (hp.reachable.regular hs.grown hs.regular) (hq.reachable.regular hs.grown hs.regular)
    (hp.expandedTo hs.grown hs.expandedTo) (hlevel ▸ hq.expandedTo hs.grown hs.expandedTo)
    hs.order_eq

/-- Expanding twice is expanding once by the sum, if no function calls itself, if calls that are
passed reach inputs and the degree allows the sum, or wherever the levels add up. -/
theorem expand_expand_alike (hs : WrittenDown source) (hp : source.expand a = .ok p)
    (hq : p.expand b = .ok q)
    (h : source.callable.Acyclic ∨ source.Received ∧ a + b ≤ source.degree ∨
      min a source.degree + min b p.degree = min (a + b) source.degree) :
    ∃ r, source.expand (a + b) = .ok r ∧ Alike source q r := by
  have hto : q.ExpandedTo (min (a + b) source.degree) := by
    obtain hacyclic | ⟨hreceived, hle⟩ | hsum := h
    · exact hs.expandedTo_add_of_acyclic hacyclic hp hq
    · exact hs.expandedTo_add_of_received hreceived hle hp hq
    · exact hs.expandedTo_add hp hq hsum
  have hlevelled : Levelled source q := .expand (.expand .refl hp) hq
  obtain ⟨r, hr, halike⟩ := hlevelled.exists_expand_alike hs hto (Nat.min_le_right _ _)
  exact ⟨r, (expand_min _).symm.trans hr, halike⟩

/-- An expansion that has reached the level it was asked for can be taken back to what a smaller one
leads to. -/
theorem expand_collapseTimes_alike (hs : WrittenDown source) (hp : source.expand k = .ok p)
    (hlevel : p.level = k) (hj : j ≤ k) :
    ∃ q r, p.collapseTimes (k - j) = .ok q ∧ source.expand j = .ok r ∧ Alike source q r := by
  have hlevelled : Levelled source p := .expand .refl hp
  have hle := hs.level_expand_le hp
  -- Each collapse takes one level, so `j` levels are left.
  obtain ⟨q, hq, _, hql⟩ :=
    (hlevelled.reachable.grown hs.grown).exists_collapseTimes (k - j) (by omega)
  have hqj : q.level = j := by omega
  have hlevelledq : Levelled source q := hlevelled.collapseTimes hq
  obtain ⟨r, hr, halike⟩ := hlevelledq.exists_expand_alike hs
    (hqj ▸ hlevelledq.expandedTo hs.grown hs.expandedTo) (by omega)
  exact ⟨q, r, hq, hr, halike⟩

end

/-- The level of a program that has come about from a source by expanding and collapsing it as a
whole determines its visible operations, up to the names that were handed out on the way: they are
those of the source, expanded to this level at once, if its degree allows as many levels, and those
of every other such program on the level, and of no other. So expanding twice is expanding once by
the sum, wherever the levels of both expansions add up, and collapsing takes back levels that an
expansion has reached. The expansions are those that have a result; with counters of 32 bits these
are the ones without an overflow (`expandChecked_cases`). -/
theorem expand_level_alike (name : String) (displayName : Option String)
    (inputs : Option (List Variable)) (functions : Option (List Program)) (lines : List Line) :
    let source := ofLines name displayName inputs functions lines
    (∀ p, Levelled source p → p.level ≤ source.degree →
      ∃ q, source.expand p.level = .ok q ∧ Alike source p q) ∧
    (∀ p q, Levelled source p → Levelled source q → (Alike source p q ↔ p.level = q.level)) ∧
    (∀ a b p q, source.expand a = .ok p → p.expand b = .ok q →
      (source.callable.Acyclic ∨ source.Received ∧ a + b ≤ source.degree ∨
        min a source.degree + min b p.degree = min (a + b) source.degree) →
      ∃ r, source.expand (a + b) = .ok r ∧ Alike source q r) ∧
    (∀ j k p, source.expand k = .ok p → (source.Received ∧ k ≤ source.degree ∨ p.level = k) →
      j ≤ k → ∃ q r, p.collapseTimes (k - j) = .ok q ∧ source.expand j = .ok r ∧
        Alike source q r) := by
  intro source
  have hs : WrittenDown source := ofLines_writtenDown ..
  refine ⟨fun p hp hle => ?_, fun p q hp hq => hp.alike_iff hq hs,
    fun a b p q => expand_expand_alike hs, fun j k p hp hlevel hj => ?_⟩
  · exact hp.exists_expand_alike hs (hp.expandedTo hs.grown hs.expandedTo) hle
  · have hreached : p.level = k := hlevel.elim
      (fun ⟨hreceived, hk⟩ => hs.level_expand_of_received hreceived hk hp) id
    exact expand_collapseTimes_alike hs hp hreached hj

/-- Two assignments are expanded by one level after the other, which hands out other labels than two
levels at once. These can be collapsed to what one level leads to. -/
theorem expand_level_alike_assignments :
    ∃ source p q r c, source = ofLines "copies" none none none
        [.plain (.assign .result (.input 1)), .plain (.assign (.input 2) (.input 1))] ∧
      source.expand 1 = .ok p ∧ p.expand 1 = .ok q ∧ source.expand 2 = .ok r ∧
      q.operations.map (·.label) ≠ r.operations.map (·.label) ∧ Alike source q r ∧
      r.collapseTimes 1 = .ok c ∧ Alike source c p := by
  obtain ⟨source, p, q, r, rfl, hp, hq, hr, hlabels, hdegree, hlevel⟩ :
      ∃ source p q r, source = ofLines "copies" none none none
          [.plain (.assign .result (.input 1)), .plain (.assign (.input 2) (.input 1))] ∧
        source.expand 1 = .ok p ∧ p.expand 1 = .ok q ∧ source.expand 2 = .ok r ∧
        q.operations.map (·.label) ≠ r.operations.map (·.label) ∧
        min 1 source.degree + min 1 p.degree = min (1 + 1) source.degree ∧ r.level = 2 :=
    ⟨_, _, _, _, rfl, rfl, rfl, rfl, by decide +kernel, by decide, by decide +kernel⟩
  obtain ⟨_, _, hsum, hback⟩ := expand_level_alike "copies" none none none
    [.plain (.assign .result (.input 1)), .plain (.assign (.input 2) (.input 1))]
  obtain ⟨r', hr', halike⟩ := hsum 1 1 p q hp hq (.inr (.inr hdegree))
  -- Both expansions by two levels are one, and so are both by one level.
  obtain rfl : r = r' := Except.ok.inj (hr.symm.trans hr')
  obtain ⟨c, p', hc, hp', halike'⟩ := hback 1 2 r hr (.inr hlevel) (by decide)
  obtain rfl : p = p' := Except.ok.inj (hp.symm.trans hp')
  exact ⟨_, p, q, r, c, rfl, hp, hq, hr, hlabels, halike, hc, halike'⟩

/-- Two steps in a row and a third one come to programs that are not alike, if their levels
differ. -/
theorem exists_not_alike {x y : Except ExpansionError Program}
    {f : Program → Except ExpansionError Program} {source : Program} (m n : Nat)
    (hxy : (x.bind f).map level = .ok m ∧ y.map level = .ok n) (hne : m ≠ n) :
    ∃ p q r, x = .ok p ∧ f p = .ok q ∧ y = .ok r ∧ ¬ Alike source q r := by
  obtain ⟨hx, hy⟩ := hxy
  cases x with
  | error e => cases hx
  | ok p =>
    cases y with
    | error e => cases hy
    | ok r =>
      cases hf : f p with
      | error e => rw [Except.bind, hf] at hx; cases hx
      | ok q =>
        rw [Except.bind, hf] at hx
        -- If they were alike, they would be on one level.
        refine ⟨p, q, r, rfl, hf, rfl, fun halike => hne ?_⟩
        rw [← Except.ok.inj hx, ← Except.ok.inj hy, halike.level_eq]

/-- Neither law holds of all levels. A function that calls itself has degree four, since the call
counts as nothing, so an expansion is cut down to four levels, which leave the function there to be
expanded again. What is basic cannot be expanded, so there is no level to take back. A call that is
passed to a function without inputs counts in the degree of four, but is nothing that the outer call
is lowered to, so that two collapses lead from the third level to the first one. -/
theorem expand_level_not_alike :
    (∃ source, source = ofLines "main" none none
        (some [ofLines "f" none none none [.plain (.quote .result ⟨"f", []⟩)]])
        [.plain (.quote .result ⟨"f", []⟩)] ∧
      ∃ p q r, source.expand 1 = .ok p ∧ p.expand 4 = .ok q ∧ source.expand (1 + 4) = .ok r ∧
        ¬ Alike source q r) ∧
    (∃ source, source = ofLines "main" none none none [.plain (.neutral .result)] ∧
      ∃ p, source.expand 1 = .ok p ∧ ¬ ∃ q, p.collapseTimes (1 - 0) = .ok q) ∧
    (∃ source, source = ofLines "main" none none
        (some [ofLines "f" none none none [.plain (.neutral .result)]])
        [.plain (.quote .result ⟨"f", [.nested "f" []]⟩)] ∧
      4 ≤ source.degree ∧
      ∃ p q r, source.expand 4 = .ok p ∧ p.collapseTimes (4 - 2) = .ok q ∧
        source.expand 2 = .ok r ∧ ¬ Alike source q r) := by
  refine ⟨⟨_, rfl, ?_⟩, ⟨_, rfl, _, rfl, fun ⟨q, hq⟩ => ?_⟩, ⟨_, rfl, by decide, ?_⟩⟩
  · -- Expanding twice leads to the fifth level, expanding once to the fourth one.
    exact exists_not_alike 5 4 (by decide +kernel) (by decide)
  · cases hq
  · -- The collapses lead to the first level, the expansion to the second one.
    exact exists_not_alike 1 2 (by decide +kernel) (by decide)

end Program

end CounterMachine
