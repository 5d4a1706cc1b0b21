import CounterMachine.Proofs.Lowering.Calls
import Mathlib.Data.List.Nodup

/-!
# The labels in a lowered line

The labels of a program are in order if no two lines carry one label and none carries `EXIT`. When a
line is lowered, its lines carry the label of the line and fresh ones, each of them once, so labels
stay in order.

## Key results

- `lower_carried`: the lines of a lowered line carry its label and fresh ones
- `Labelled.lower`: labels stay in order
-/

namespace CounterMachine

/-- No two lines carry one label. -/
def DistinctLabels (lines : List Line) : Prop :=
  ∀ (i j : Nat) (a b : Line), lines[i]? = some a → lines[j]? = some b → a.label = b.label →
    a.label ≠ .empty → i = j

/-- No two lines carry one label, and none carries `EXIT`. -/
structure Labelled (lines : List Line) : Prop where
  distinct : DistinctLabels lines
  no_exit : ∀ line ∈ lines, line.label ≠ .exit

section

variable {table : FunctionTable} {label : Label} {s s' : Supply} {lines : List Line}

/-! ### Labels that lines carry -/

/-- A label, unless it is empty. -/
def own (x : Label) : List Label := [x].filter (· ≠ .empty)

/-- The labels that lines carry. -/
def carried (lines : List Line) : List Label := (lines.map Line.label).filter (· ≠ .empty)

/-- The first line carries its own label, and then come those of the others. -/
theorem carried_cons (line : Line) (rest : List Line) :
    carried (line :: rest) = own line.label ++ carried rest := by
  rw [carried, carried, own, ← List.filter_append]
  rfl

/-- Labels are carried in the order of the lines. -/
theorem carried_append (first rest : List Line) :
    carried (first ++ rest) = carried first ++ carried rest := by
  rw [carried, carried, carried, List.map_append, List.filter_append]

/-- A label is carried by lines if one of them has it and it is not the empty one. -/
theorem mem_carried {x : Label} :
    x ∈ carried lines ↔ x ≠ .empty ∧ ∃ line ∈ lines, line.label = x := by
  simp [carried, and_comm]

/-- Lines use the labels that they carry. -/
theorem usesLabel_of_mem_carried {x : Label} (h : x ∈ carried lines) : UsesLabel lines x := by
  obtain ⟨hne, line, hline, hx⟩ := mem_carried.mp h
  exact ⟨line, hline, mem_line_labels.mpr (.inl ⟨hx.symm, hne⟩)⟩

/-- Labels are distinct if no label is carried twice. -/
theorem distinctLabels_iff : DistinctLabels lines ↔ (carried lines).Nodup := by
  rw [carried, List.Nodup, List.pairwise_filter, List.pairwise_map, List.pairwise_iff_getElem]
  constructor
  · intro h j k hj hk hlt hne _ heq
    have := h j k _ _ (List.getElem?_eq_getElem hj) (List.getElem?_eq_getElem hk) heq
      (by simpa using hne)
    omega
  · intro h j k a b ha hb heq hne
    obtain ⟨hj, rfl⟩ := List.getElem?_eq_some_iff.mp ha
    obtain ⟨hk, rfl⟩ := List.getElem?_eq_some_iff.mp hb
    have hne' : lines[k].label ≠ .empty := heq ▸ hne
    rcases Nat.lt_trichotomy j k with hlt | heq' | hlt
    · exact absurd heq (h j k hj hk hlt (by simpa using hne) (by simpa using hne'))
    · exact heq'
    · exact absurd heq.symm (h k j hk hj hlt (by simpa using hne') (by simpa using hne))

/-- The lines carry the label, and besides it fresh labels only. -/
def CarriesFresh (label : Label) (s s' : Supply) (lines : List Line) : Prop :=
  ∃ fresh, carried lines = own label ++ fresh ∧ fresh.Nodup ∧ ∀ x ∈ fresh, FreshLabel s s' x

/-- A body without a label on its first line takes the label of the line. -/
theorem carriesFresh_attachLabel {first : Line} (hfirst : first.label = .empty)
    (hd : (carried (first :: lines)).Nodup)
    (hfresh : ∀ x ∈ carried (first :: lines), FreshLabel s s' x) :
    CarriesFresh label s s' (attachLabel label (first :: lines)) := by
  refine ⟨carried (first :: lines), ?_, hd, hfresh⟩
  rw [attachLabel, hfirst, carried_cons, carried_cons, hfirst]
  rfl

/-- Lines without labels carry none. -/
theorem carried_replicate (n : Nat) (line : Line) (h : line.label = .empty) :
    carried (List.replicate n line) = [] := by
  simp [carried, h]

/-- Nor do blocks of such lines. -/
theorem carried_flatten_replicate (n : Nat) (h : carried lines = []) :
    carried (List.replicate n lines).flatten = [] := by
  induction n with
  | zero => rfl
  | succ n ih => rw [List.replicate_succ, List.flatten_cons, carried_append, h, ih]; rfl

/-- A body that carries some of the labels that the supply hands out. -/
theorem carriesFresh_of_labelAt {first : Line} (hfirst : first.label = .empty) (ns : List Nat)
    (hcarried : carried (first :: lines) = ns.map s.labelAt) (hnodup : ns.Nodup)
    {labels works : Nat} (hns : ∀ n ∈ ns, 0 < n ∧ n ≤ labels) :
    CarriesFresh label s (s.take labels works) (attachLabel label (first :: lines)) := by
  refine carriesFresh_attachLabel hfirst ?_ fun x hx => ?_
  · rw [hcarried]
    refine hnodup.map fun m n h => ?_
    simp only [Supply.labelAt, Label.numbered.injEq] at h
    omega
  · rw [hcarried] at hx
    obtain ⟨n, hn, rfl⟩ := List.mem_map.mp hx
    exact s.freshLabel_labelAt n labels works (hns n hn).1 (hns n hn).2

/-- An inlined call carries the labels of its function under new names, and the label behind it. -/
theorem carried_inlineCall {callee : Program} {args : List Argument}
    {final : Variable → Instruction}
    (hexit : ∀ line ∈ callee.lines, line.label ≠ .exit) :
    carried (inlineCall callee args final s).1 =
      (carried callee.lines).map (calleeLabel callee s) ++
        [returnLabel s callee.numberedLabels] := by
  -- The lines before the function's own carry no labels.
  have hprologue : carried (bindingLines callee args s ++ clearingLines callee args s) = [] := by
    refine List.eq_nil_iff_forall_not_mem.mpr fun x hx => ?_
    obtain ⟨hne, line, hline, rfl⟩ := mem_carried.mp hx
    rcases List.mem_append.mp hline with hline | hline
    · obtain ⟨_, _, arg, _, _, rfl⟩ := mem_bindingLines.mp hline
      cases arg <;> exact hne rfl
    · obtain ⟨v, _, rfl⟩ := List.mem_map.mp hline
      exact hne rfl
  have hcallee : carried (calleeLines callee s) =
      (carried callee.lines).map (calleeLabel callee s) := by
    rw [carried, carried, calleeLines_eq, List.map_map, List.filter_map, List.filter_map,
      List.map_map]
    refine congrArg _ (List.filter_congr fun line hline => ?_)
    -- The empty label stays empty, and a numbered one stays numbered.
    rcases label_cases hline (hexit line hline) with hl | ⟨n, hl, hn⟩
    · simp [hl, calleeLabel_empty]
    · obtain ⟨m, hm⟩ := calleeLabel_numbered (s := s) hn
      simp [hl, hm]
  rw [inlineCall_eq, carried_append, carried_append, hprologue, hcallee]
  rfl

/-- The labels that an inlined call carries are fresh and distinct. -/
theorem carriesFresh_inlineCall {callee : Program} {args : List Argument}
    {final : Variable → Instruction} (hcallee : Labelled callee.lines) :
    CarriesFresh label s (inlineCall callee args final s).2
      (attachLabel label (inlineCall callee args final s).1) := by
  obtain ⟨first, rest, hbody, hfirst⟩ : ∃ first rest,
      (inlineCall callee args final s).1 = first :: rest ∧ first.label = .empty :=
    inlineCall_head final
  have hcarried : carried (inlineCall callee args final s).1 = _ :=
    carried_inlineCall hcallee.no_exit
  have hnumbered : ∀ x ∈ carried callee.lines,
      ∃ n, x = .numbered n ∧ .numbered n ∈ callee.numberedLabels := by
    intro x hx
    obtain ⟨hne, line, hline, rfl⟩ := mem_carried.mp hx
    exact (label_cases hline (hcallee.no_exit line hline)).resolve_left hne
  rw [hbody] at hcarried ⊢
  refine carriesFresh_attachLabel hfirst ?_ fun x hx => ?_
  · -- New names of different labels differ, and the label behind the function has a larger number.
    rw [hcarried, List.nodup_append]
    refine ⟨(distinctLabels_iff.mp hcallee.distinct).map_on fun x hx y hy h => ?_,
      List.nodup_singleton _, fun x hx y hy heq => ?_⟩
    · obtain ⟨m, rfl, hm⟩ := hnumbered x hx
      obtain ⟨n, rfl, hn⟩ := hnumbered y hy
      rw [freshLabel_numbered_inj hm hn h]
    · obtain ⟨z, hz, rfl⟩ := List.mem_map.mp hx
      obtain ⟨n, rfl, hn⟩ := hnumbered z hz
      obtain ⟨i, hi, hlabel⟩ := freshLabel_numbered (s := s) hn
      rw [List.mem_singleton.mp hy, calleeLabel, hlabel] at heq
      simp only [returnLabel, Supply.labelAt, Label.numbered.injEq] at heq
      omega
  · -- Each of them has been handed out between the two supplies.
    rw [hcarried] at hx
    rcases List.mem_append.mp hx with hx | hx
    · obtain ⟨y, hy, rfl⟩ := List.mem_map.mp hx
      obtain ⟨n, rfl, hn⟩ := hnumbered y hy
      obtain ⟨i, hi, hlabel⟩ := freshLabel_numbered (s := s) hn
      rw [calleeLabel, hlabel, inlineCall_eq]
      exact s.freshLabel_labelAt _ _ _ (Nat.succ_pos i) (by omega)
    · rw [List.mem_singleton.mp hx]
      exact freshLabel_returnLabel _

/-- The lines of a lowered line carry its label and fresh ones. -/
theorem lower_carried {line : Line} (htable : table.Each fun callee => Labelled callee.lines)
    (hexit : line.label ≠ .exit) (h : line.lower table s = .ok (lines, s')) :
    CarriesFresh line.label s s' lines := by
  obtain ⟨body, hb, rfl⟩ := lower_eq_ok h
  generalize line.instruction = i at hb
  generalize line.label = label at hb hexit
  cases body_cases hb with
  | basic hbasic => exact carriesFresh_attachLabel rfl List.nodup_nil nofun
  -- The loop is headed by the label of the line, so no label comes in.
  | zeroOwn v n hn =>
    subst hn
    exact ⟨[], rfl, List.nodup_nil, nofun⟩
  | zeroFresh v hn =>
    cases label with
    | empty =>
      refine ⟨[s.labelAt 1], rfl, List.nodup_singleton _, fun x hx => ?_⟩
      rw [List.mem_singleton.mp hx]
      exact s.freshLabel_labelAt 1 1 0 (by omega) (by omega)
    | exit => exact absurd rfl hexit
    | numbered n => cases hn
  | goto target => exact carriesFresh_attachLabel rfl List.nodup_nil nofun
  | assignSelf v => exact carriesFresh_attachLabel rfl List.nodup_nil nofun
  | assign dst src hne =>
    exact carriesFresh_of_labelAt rfl [1, 2, 3] rfl (by decide) (by decide)
  | assignConstant v value =>
    have hnil : carried (assignConstantBody value.toNat v) = [] := by
      rw [assignConstantBody, carried_cons, carried_replicate _ _ rfl]
      rfl
    exact carriesFresh_attachLabel rfl (hnil ▸ List.nodup_nil) (hnil ▸ nofun)
  | jumpZero v target => exact carriesFresh_of_labelAt rfl [1] rfl (by decide) (by decide)
  | jumpEqualConstant v value target =>
    have hcarried :
        carried (jumpEqualConstantBody (s.workAt 1) (s.labelAt 1) value.toNat v target) =
        [1].map s.labelAt := by
      rw [jumpEqualConstantBody, carried_append, carried_cons, carried_flatten_replicate _ rfl]
      rfl
    exact carriesFresh_of_labelAt rfl [1] hcarried (by decide) (by decide)
  | jumpEqualVariable v w target =>
    exact carriesFresh_of_labelAt rfl [2, 3, 1] rfl (by decide) (by decide)
  | quote dst call callee hfind => exact carriesFresh_inlineCall (htable _ _ hfind)
  | jumpEqualCall v call target callee hfind =>
    exact carriesFresh_inlineCall (htable _ _ hfind)

/-! ### A lowering among other lines -/

variable {before after : List Line} {line : Line}

/-- It does not matter in which order labels are carried: what a line is lowered to carries fresh
labels besides those that were carried before. -/
theorem carried_lowered (before after : List Line) {fresh : List Label}
    (h : carried lines = own line.label ++ fresh) :
    (carried (before ++ lines ++ after)).Perm (carried (before ++ line :: after) ++ fresh) := by
  rw [carried_append, carried_append, h, carried_append, carried_cons]
  simp only [List.append_assoc, List.perm_append_left_iff]
  exact List.perm_append_comm

/-- Labels stay in order when a line is lowered. -/
theorem Labelled.lower (htable : table.Each fun callee => Labelled callee.lines)
    (h : Labelled (before ++ line :: after))
    (hlow : LoweredAmong table before after line s s' lines) :
    Labelled (before ++ lines ++ after) := by
  have hline : line ∈ before ++ line :: after := List.mem_append_right _ List.mem_cons_self
  obtain ⟨fresh, hcarried, hnodup, hfresh⟩ :=
    lower_carried htable (h.no_exit line hline) hlow.lower_eq
  have hperm := carried_lowered before after hcarried
  refine ⟨?_, fun other hother hl => ?_⟩
  · rw [distinctLabels_iff, hperm.nodup_iff, List.nodup_append]
    refine ⟨distinctLabels_iff.mp h.distinct, hnodup, fun x hx y hy heq => ?_⟩
    -- What comes in is carried by none of the lines that were there.
    subst heq
    obtain ⟨other, hother, hxo⟩ := usesLabel_of_mem_carried hx
    refine hlow.notMem_names (ν := .label x) (hfresh x hy) ?_ hother (label_mem_names.mpr hxo)
    rw [uses_label]
    exact usesLabel_of_mem_carried (hcarried ▸ List.mem_append_right _ hy)
  · -- A label that is carried was carried before, or it is fresh, and so it is not `EXIT`.
    have hmem : .exit ∈ carried (before ++ lines ++ after) :=
      mem_carried.mpr ⟨nofun, other, hother, hl⟩
    rcases List.mem_append.mp (hperm.mem_iff.mp hmem) with hmem | hmem
    · obtain ⟨_, old, hold, hexit⟩ := mem_carried.mp hmem
      exact h.no_exit old hold hexit
    · obtain ⟨n, _, _, hn⟩ := hfresh _ hmem
      cases hn

end

end CounterMachine
