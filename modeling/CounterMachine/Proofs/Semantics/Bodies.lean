import CounterMachine.Proofs.Semantics.Placement

/-!
# What the bodies of instructions do

Each body that counts does what its instruction does, and gets to the line behind it, or to the
target of a jump. Its loops are followed round by round, each with an invariant of its own.

## Key results

- `move_leads`: moving a counter to others, the loop of assignments and of setting to zero
- `compare_leads`: counting two counters down together
- `zeroBody_leads`, `assignBody_leads`, `assignConstantBody_leads`: setting a counter
- `gotoBody_leads`, `jumpZeroBody_leads`, `jumpEqualConstantBody_leads`,
  `jumpEqualVariableBody_leads`: jumping
-/

namespace CounterMachine

/-! ### Counting -/

namespace Value

theorem toNat_ne_zero {a : Value} (h : a ≠ 0) : a.toNat ≠ 0 := fun hz =>
  h (UInt64.toNat_inj.mp hz)

theorem succ_ne_zero (a : Value) : succ a ≠ 0 := by
  intro h
  have hsucc := toNat_succ a
  rw [h, toNat_max] at hsucc
  have : (0 : Value).toNat = 0 := rfl
  omega

/-- Below another value there is room for one more. -/
theorem toNat_succ_of_lt {a b : Value} (h : a.toNat < b.toNat) : (succ a).toNat = a.toNat + 1 := by
  rw [toNat_succ]
  exact Nat.min_eq_left (Nat.lt_of_lt_of_le h b.toNat_le_max)

end Value

section

variable {ask : Oracle} {lines : List Line} {k : Nat}

/-! ### Straight lines -/

/-- What is counted up by a row of lines. -/
theorem increases_lead (vars : List Variable) {k : Nat} {c : RunState} {σ τ : Store}
    (hc : Leads ask lines c (.goto lines k τ))
    (h : Placed lines k (vars.map fun v => .plain (.increase v)))
    (hσ : ∀ v, (σ v).toNat = (τ v).toNat + vars.count v) :
    Leads ask lines c (.goto lines (k + vars.length) σ) := by
  induction vars generalizing k τ with
  | nil =>
    have heq : σ = τ := funext fun v => UInt64.toNat_inj.mp (hσ v)
    rw [heq]
    exact hc
  | cons x vars ih =>
    have hlt : k < lines.length := h.lt_length (j := 0) (by simp)
    rw [RunState.goto_of_lt hlt] at hc
    have hstep : Leads ask lines (.running k τ)
        (.goto lines (k + 1) (τ.set x (Value.succ (τ x)))) :=
      h.leave (j := 0) rfl rfl
    -- The counter may stand in the rest of the row again.
    have hrest := ih (hc.trans hstep) h.of_cons fun v => by
      have hv := hσ v
      rw [List.count_cons] at hv
      rw [Store.set_apply]
      by_cases hvx : v = x
      · subst hvx
        rw [beq_self_eq_true, if_pos rfl] at hv
        rw [if_pos rfl, Value.toNat_succ_of_lt (b := σ v) (by omega)]
        omega
      · rw [beq_eq_false_iff_ne.mpr fun heq => hvx heq.symm] at hv
        rw [if_neg hvx]
        exact hv
    rwa [List.length_cons, Nat.add_comm vars.length, ← Nat.add_assoc]

/-- Setting a counter to a constant. -/
theorem assignConstantBody_leads {v : Variable} {value : Value}
    (h : Placed lines k (assignConstantBody value.toNat v)) (τ : Store) :
    Leads ask lines (.running k τ) (.goto lines (k + (value.toNat + 1)) (τ.set v value)) := by
  have hzero : Leads ask lines (.running k τ) (.goto lines (k + 1) (τ.set v 0)) :=
    h.leave (j := 0) rfl rfl
  have hrow : Placed lines (k + 1)
      ((List.replicate value.toNat v).map fun v => .plain (.increase v)) := by
    rw [List.map_replicate]
    exact h.of_cons
  have hcount := increases_lead _ hzero hrow (σ := τ.set v value) fun w => by
    rw [List.count_replicate, Store.set_apply, Store.set_apply]
    by_cases hw : w = v
    · simp [hw]
    · simp [hw, Ne.symm hw]
  rwa [List.length_replicate, Nat.add_right_comm, Nat.add_assoc] at hcount

/-- Jumping: a counter that is one more than it was is not zero. -/
theorem gotoBody_leads {one : Variable} {target : Label}
    (h : Placed lines k (gotoBody one target)) (τ : Store) :
    Leads ask lines (.running k τ)
      (.follow lines (k + 1) (τ.set one (Value.succ (τ one))) (.jump target)) := by
  have hinc : Leads ask lines (.running k τ)
      (.running (k + 1) (τ.set one (Value.succ (τ one)))) :=
    h.fall (j := 0) rfl rfl (by simp [gotoBody])
  refine hinc.trans (h.step (j := 1) rfl ?_)
  simp [Line.plain, Instruction.effect, Flow.jumpIf, Value.succ_ne_zero]

/-! ### Moving -/

/-- A loop that moves a counter to others: one is counted down and the others are counted up. -/
def moveBody (head : Label) (src : Variable) (dsts : List Variable) : List Line :=
  ⟨head, .decrease src⟩ :: dsts.map (fun d => .plain (.increase d)) ++
    [.plain (.jumpNotZero src head)]

/-- The contents after a round of such a loop. -/
def Store.moveOne (τ : Store) (src : Variable) (dsts : List Variable) : Store := fun v =>
  if v ∈ dsts then Value.succ (τ v) else τ.set src (Value.pred (τ src)) v

/-- Between two rounds of such a loop, which comes to the contents `σ` in the end. -/
structure Moving (src : Variable) (dsts : List Variable) (σ τ : Store) : Prop where
  src_eq : σ src = 0
  sum : ∀ d ∈ dsts, (σ d).toNat = (τ d).toNat + (τ src).toNat
  other : ∀ w, w ≠ src → w ∉ dsts → σ w = τ w

variable {src : Variable} {dsts : List Variable} {σ τ : Store}

/-- The counters that are moved to go up by one. -/
theorem Store.moveOne_of_mem {v : Variable} (h : v ∈ dsts) :
    τ.moveOne src dsts v = Value.succ (τ v) :=
  if_pos h

/-- No other counter changes, except for the one that is moved from. -/
theorem Store.moveOne_of_notMem {v : Variable} (h : v ∉ dsts) :
    τ.moveOne src dsts v = τ.set src (Value.pred (τ src)) v :=
  if_neg h

/-- What is left when nothing has to be moved any more. -/
theorem Moving.eq_of_src_eq (h : Moving src dsts σ τ) (hsrc : τ src = 0) : τ = σ := by
  funext w
  by_cases hw : w = src
  · rw [hw, hsrc, h.src_eq]
  · by_cases hmem : w ∈ dsts
    · have hsum := h.sum w hmem
      rw [hsrc] at hsum
      exact UInt64.toNat_inj.mp hsum.symm
    · exact (h.other w hw hmem).symm

section

-- A counter that is zero at the start stays zero when it is counted down, but the others would be
-- counted up once: such a loop is only entered where there are no others.
variable {head : Label} (hplaced : Placed lines k (moveBody head src dsts)) (hsrc : src ∉ dsts)
  (hn : dsts.Nodup) (hready : τ src = 0 → dsts = [])
include hplaced hsrc hn hready

omit hplaced hn in
/-- What remains to be moved after a round. -/
theorem Moving.moveOne (h : Moving src dsts σ τ) : Moving src dsts σ (τ.moveOne src dsts) := by
  refine ⟨h.src_eq, fun d hmem => ?_, fun w hw hmem => ?_⟩
  · have hsum := h.sum d hmem
    have hpred := Value.toNat_pred (τ src)
    have hpos : (τ src).toNat ≠ 0 :=
      Value.toNat_ne_zero fun hz => List.ne_nil_of_mem hmem (hready hz)
    rw [Store.moveOne_of_mem hmem, Store.moveOne_of_notMem hsrc, Store.set_self,
      Value.toNat_succ_of_lt (b := σ d) (by omega)]
    omega
  · rw [Store.moveOne_of_notMem hmem, Store.set_of_ne _ _ hw, h.other w hw hmem]

/-- A round of moving, up to the jump at its end. -/
theorem move_round (h : Moving src dsts σ τ) :
    Leads ask lines (.running k τ)
      (.running (k + (dsts.length + 1)) (τ.moveOne src dsts)) := by
  have hdec : Leads ask lines (.running k τ)
      (.goto lines (k + 1) (τ.set src (Value.pred (τ src)))) :=
    hplaced.leave (j := 0) rfl rfl
  have hrow : Placed lines (k + 1) (dsts.map fun d => .plain (.increase d)) :=
    hplaced.of_cons.append_left
  have hlead := increases_lead dsts hdec hrow (σ := τ.moveOne src dsts) fun w => by
    -- Each of the counters is counted up once, as it is listed once.
    rw [hn.count]
    by_cases hmem : w ∈ dsts
    · have hne : w ≠ src := fun heq => hsrc (heq ▸ hmem)
      have hsum := h.sum w hmem
      have hpos : (τ src).toNat ≠ 0 :=
        Value.toNat_ne_zero fun hz => List.ne_nil_of_mem hmem (hready hz)
      rw [Store.moveOne_of_mem hmem, Store.set_of_ne _ _ hne, if_pos hmem,
        Value.toNat_succ_of_lt (b := σ w) (by omega)]
    · rw [Store.moveOne_of_notMem hmem, if_neg hmem, Nat.add_zero]
  have hlt : k + (dsts.length + 1) < lines.length := hplaced.lt_length (by simp [moveBody])
  rwa [Nat.add_assoc, Nat.add_comm 1, RunState.goto_of_lt hlt] at hlead

/-- Moving a counter to others. -/
theorem move_leads (hd : DistinctLabels lines) {m : Nat} (hhead : head = .numbered m)
    (h : Moving src dsts σ τ) :
    Leads ask lines (.running k τ) (.goto lines (k + (dsts.length + 2)) σ) := by
  have hjump : (moveBody head src dsts)[dsts.length + 1]? =
      some (.plain (.jumpNotZero src head)) := by
    rw [moveBody, List.cons_append, List.getElem?_cons_succ]
    exact List.getElem?_append_right (by simp) |>.trans (by simp)
  suffices hloop : ∃ c, Leads ask lines (.running k τ) c ∧
      c = .goto lines (k + (dsts.length + 2)) σ by
    obtain ⟨_, hlead, rfl⟩ := hloop
    exact hlead
  -- Each round takes one from `src`, so there are as many rounds as `src` holds.
  refine leads_loop (I := fun τ => (τ src = 0 → dsts = []) ∧ Moving src dsts σ τ)
    (fun τ => (τ src).toNat) (fun τ ⟨hready, h⟩ => ?_) ⟨hready, h⟩
  have hround : Leads ask lines _ _ := move_round hplaced hsrc hn hready h
  have hmoving := h.moveOne hsrc hready
  have hleft : τ.moveOne src dsts src = Value.pred (τ src) := by
    rw [Store.moveOne_of_notMem hsrc, Store.set_self]
  by_cases hz : τ.moveOne src dsts src = 0
  · -- The last round.
    have hleave : Leads ask lines (.running (k + (dsts.length + 1)) (τ.moveOne src dsts))
        (.goto lines (k + (dsts.length + 2)) (τ.moveOne src dsts)) := by
      refine hplaced.leave hjump ?_
      simp [Line.plain, Instruction.effect, Flow.jumpIf, hz]
    rw [← hmoving.eq_of_src_eq hz]
    exact .inr ⟨_, hround.trans hleave, rfl⟩
  · -- There is more to move, so the loop goes round again.
    have hback : Leads ask lines (.running (k + (dsts.length + 1)) (τ.moveOne src dsts))
        (.running k (τ.moveOne src dsts)) := by
      refine hplaced.jump hd hjump (n := m) ?_ (t := 0) rfl hhead
      simp [Line.plain, Instruction.effect, Flow.jumpIf, hz, hhead]
    refine .inl ⟨_, hround.trans hback, ⟨fun hz' => absurd hz' hz, hmoving⟩, ?_⟩
    have hpos := Value.toNat_ne_zero hz
    have hpred := Value.toNat_pred (τ src)
    rw [hleft] at hpos ⊢
    omega

end

/-! ### Setting -/

variable (hd : DistinctLabels lines)
include hd

/-- Counting a counter down to zero moves it nowhere. -/
theorem zeroBody_leads {head : Label} {m : Nat} (hhead : head = .numbered m) {v : Variable}
    (h : Placed lines k (zeroBody head v)) (τ : Store) :
    Leads ask lines (.running k τ) (.goto lines (k + 2) (τ.set v 0)) := by
  have hplaced : Placed lines k (moveBody head v []) := h
  have hmoving : Moving v [] (τ.set v 0) τ :=
    ⟨Store.set_self .., by simp, fun w hw _ => Store.set_of_ne _ _ hw⟩
  exact move_leads hplaced List.not_mem_nil List.nodup_nil (fun _ => rfl) hd hhead hmoving

section

variable {spare dst src : Variable} (hdst : spare ≠ dst) (hsrc : spare ≠ src) (hne : dst ≠ src)
  {drain restore done : Label} {l m n : Nat}
  (h : Placed lines k (assignBody spare drain restore done dst src))
include hdst hsrc hne h

/-- The two loops of an assignment, when there is something to move: to the spare counter and back
to both counters. -/
theorem assign_loops_lead (hdrain : drain = .numbered l) (hrestore : restore = .numbered m)
    (τ : Store) (hspare : τ spare = 0) (hz : τ src ≠ 0) :
    Leads ask lines (.running (k + 3) (τ.set dst 0)) (.running (k + 10) (τ.set dst (τ src))) := by
  have hzero : (0 : Value).toNat = 0 := rfl
  have hloops : Placed lines (k + 3) (moveBody drain src [spare] ++
      (moveBody restore spare [dst, src] ++ [⟨done, .neutral dst⟩])) :=
    h.of_cons.of_cons.of_cons
  have hfirst : Placed lines (k + 3) (moveBody drain src [spare]) := hloops.append_left
  have hsecond : Placed lines (k + 6) (moveBody restore spare [dst, src]) :=
    hloops.append_right.append_left
  -- The first loop leaves the source at zero and its contents in the spare counter.
  have hdrained : Moving src [spare] (((τ.set dst 0).set spare (τ src)).set src 0)
      (τ.set dst 0) := by
    refine ⟨Store.set_self .., fun d hmem => ?_, fun w hw hmem => ?_⟩
    · rw [List.mem_singleton.mp hmem, Store.set_of_ne _ _ hsrc, Store.set_self,
        Store.set_of_ne _ _ hdst, hspare, Store.set_of_ne _ _ hne.symm, hzero, Nat.zero_add]
    · rw [Store.set_of_ne _ _ hw, Store.set_of_ne _ _ fun heq => hmem (List.mem_singleton.mpr heq)]
  -- The second loop starts from there and counts both up.
  have hrestored : Moving spare [dst, src] (τ.set dst (τ src))
      (((τ.set dst 0).set spare (τ src)).set src 0) := by
    refine ⟨(Store.set_of_ne _ _ hdst).trans hspare, fun d hmem => ?_, fun w hw hmem => ?_⟩
    · rw [Store.set_of_ne _ _ hsrc, Store.set_self]
      simp only [List.mem_cons, List.not_mem_nil, or_false] at hmem
      rcases hmem with rfl | rfl
      · rw [Store.set_self, Store.set_of_ne _ _ hne, Store.set_of_ne _ _ hdst.symm, Store.set_self,
          hzero, Nat.zero_add]
      · rw [Store.set_of_ne _ _ hne.symm, Store.set_self, hzero, Nat.zero_add]
    · simp only [List.mem_cons, List.not_mem_nil, or_false, not_or] at hmem
      rw [Store.set_of_ne _ _ hmem.1, Store.set_of_ne _ _ hmem.2, Store.set_of_ne _ _ hw,
        Store.set_of_ne _ _ hmem.1]
  have hlead : Leads ask lines (.running (k + 3) (τ.set dst 0)) (.goto lines (k + 6) _) :=
    move_leads hfirst (by simpa using hsrc.symm) (by simp)
      (fun heq => absurd heq (by rwa [Store.set_of_ne _ _ hne.symm])) hd hdrain hdrained
  rw [RunState.goto_of_lt (h.lt_length (j := 6) (by simp [assignBody]))] at hlead
  have hlead' : Leads ask lines (.running (k + 6) _) (.goto lines (k + 10) (τ.set dst (τ src))) :=
    move_leads hsecond (by simp [hdst, hsrc]) (by simp [hne])
      (fun heq => absurd heq (by rwa [Store.set_of_ne _ _ hsrc, Store.set_self])) hd hrestore
      hrestored
  rw [RunState.goto_of_lt (h.lt_length (j := 10) (by simp [assignBody]))] at hlead'
  exact hlead.trans hlead'

/-- Copying a counter, if the spare counter is zero. -/
theorem assignBody_leads (hdrain : drain = .numbered l) (hrestore : restore = .numbered m)
    (hdone : done = .numbered n) (τ : Store) (hspare : τ spare = 0) :
    Leads ask lines (.running k τ) (.goto lines (k + 11) (τ.set dst (τ src))) := by
  have hzero : Leads ask lines (.running k τ) (.running (k + 1) (τ.set dst 0)) :=
    h.fall (j := 0) rfl rfl (by simp [assignBody])
  have hsrc₀ : (τ.set dst 0) src = τ src := Store.set_of_ne _ _ hne.symm
  have hend : ∀ τ', Leads ask lines (.running (k + 10) τ') (.goto lines (k + 11) τ') := fun τ' =>
    h.leave (j := 10) rfl rfl
  by_cases hz : τ src = 0
  · -- Nothing is moved.
    have hskip : Leads ask lines (.running (k + 1) (τ.set dst 0))
        (.running (k + 2) (τ.set dst 0)) := by
      refine h.fall (j := 1) rfl ?_ (by simp [assignBody])
      simp [Line.plain, Instruction.effect, Flow.jumpIf, hsrc₀, hz]
    have hgoto : Leads ask lines (.running (k + 2) (τ.set dst 0))
        (.running (k + 10) (τ.set dst 0)) :=
      h.jump hd (j := 2) rfl (by rw [hdone]; rfl) (t := 10) rfl hdone
    rw [hz]
    exact ((hzero.trans hskip).trans hgoto).trans (hend _)
  · -- The two loops move the contents away and back.
    have hjump : Leads ask lines (.running (k + 1) (τ.set dst 0))
        (.running (k + 3) (τ.set dst 0)) := by
      refine h.jump hd (j := 1) rfl ?_ (t := 3) rfl hdrain
      simp [Line.plain, Instruction.effect, Flow.jumpIf, hsrc₀, hz, hdrain]
    have hloops : Leads ask lines _ _ :=
      assign_loops_lead hd hdst hsrc hne h hdrain hrestore τ hspare hz
    exact ((hzero.trans hjump).trans hloops).trans (hend _)

end

/-! ### Jumps -/

/-- Jumping where a counter is zero. -/
theorem jumpZeroBody_leads {skip target : Label} {n : Nat} (hskip : skip = .numbered n)
    {v : Variable} (h : Placed lines k (jumpZeroBody skip v target)) (τ : Store) :
    Leads ask lines (.running k τ) (.follow lines (k + 2) τ (.jumpIf (τ v == 0) target)) := by
  by_cases hz : τ v = 0
  · -- The first line falls through to the jump.
    have hfall : Leads ask lines (.running k τ) (.running (k + 1) τ) := by
      refine h.fall (j := 0) rfl ?_ (by simp [jumpZeroBody])
      simp [Line.plain, Instruction.effect, Flow.jumpIf, hz]
    have hgoto : Leads ask lines (.running (k + 1) τ) (.follow lines (k + 1) τ (.jump target)) :=
      h.step (j := 1) rfl rfl
    rw [RunState.follow_jump (k + 1) (k + 2)] at hgoto
    simp only [hz, beq_self_eq_true, Flow.jumpIf, if_true]
    exact hfall.trans hgoto
  · -- It skips the jump, to the last line, which does nothing.
    have hjump : Leads ask lines (.running k τ) (.running (k + 2) τ) := by
      refine h.jump hd (j := 0) rfl ?_ (t := 2) rfl hskip
      simp [Line.plain, Instruction.effect, Flow.jumpIf, hz, hskip]
    have hend : Leads ask lines (.running (k + 2) τ) (.follow lines (k + 2) τ .fallThrough) :=
      h.step (j := 2) rfl rfl
    simp only [beq_eq_false_iff_ne.mpr hz, Flow.jumpIf]
    exact hjump.trans hend

/-- Rounds of counting a copy down, which jump where the copy is used up too early. -/
def countdownRounds (copy : Variable) (differ : Label) (n : Nat) : List Line :=
  (List.replicate n [Line.plain (.jumpZero copy differ), Line.plain (.decrease copy)]).flatten

omit hd in
/-- Each round takes two lines. -/
theorem countdownRounds_length (copy : Variable) (differ : Label) (n : Nat) :
    (countdownRounds copy differ n).length = 2 * n := by
  simp [countdownRounds, Nat.mul_comm]

omit hd in
/-- The last line of a countdown. -/
private theorem countdown_last {copy : Variable} {differ target : Label} (n : Nat) :
    (countdownRounds copy differ n ++ jumpZeroBody differ copy target)[2 * n + 2]? =
      some ⟨differ, .neutral .result⟩ := by
  rw [List.getElem?_append_right (by rw [countdownRounds_length]; omega), countdownRounds_length,
    Nat.add_sub_cancel_left]
  rfl

/-- Counting a copy down against a constant. -/
theorem countdown_leads {copy : Variable} {differ target : Label} {m : Nat}
    (hdiffer : differ = .numbered m) (n : Nat) {k : Nat}
    (h : Placed lines k (countdownRounds copy differ n ++ jumpZeroBody differ copy target))
    (τ : Store) :
    ∃ τ', Leads ask lines (.running k τ)
        (.follow lines (k + (2 * n + 2)) τ' (.jumpIf ((τ copy).toNat == n) target)) ∧
      ∀ w, w ≠ copy → τ' w = τ w := by
  induction n generalizing k τ with
  | zero =>
    -- No round is left: the copy has to be zero here.
    have hlead : Leads ask lines _ _ := jumpZeroBody_leads hd hdiffer h τ
    have hcond : (τ copy == 0) = ((τ copy).toNat == 0) := by
      rw [Bool.eq_iff_iff, beq_iff_eq, beq_iff_eq, ← UInt64.toNat_inj]
      rfl
    rw [hcond] at hlead
    exact ⟨τ, hlead, fun _ _ => rfl⟩
  | succ n ih =>
    have hround : Placed lines k ([.plain (.jumpZero copy differ), .plain (.decrease copy)] ++
        (countdownRounds copy differ n ++ jumpZeroBody differ copy target)) := by
      rw [countdownRounds, List.replicate_succ, List.flatten_cons, List.append_assoc] at h
      exact h
    by_cases hz : τ copy = 0
    · -- The copy is used up too early.
      have hjump : Leads ask lines (.running k τ) (.running (k + (2 * (n + 1) + 2)) τ) := by
        refine h.jump hd (j := 0) (n := m) rfl ?_ (countdown_last (n + 1)) hdiffer
        simp [Line.plain, Instruction.effect, Flow.jumpIf, hz, hdiffer]
      have hend : Leads ask lines (.running (k + (2 * (n + 1) + 2)) τ)
          (.follow lines (k + (2 * (n + 1) + 2)) τ .fallThrough) :=
        h.step (countdown_last (n + 1)) rfl
      have hne : ((τ copy).toNat == n + 1) = false := by simp [hz]
      rw [hne]
      exact ⟨τ, hjump.trans hend, fun _ _ => rfl⟩
    · have hfall : Leads ask lines (.running k τ) (.running (k + 1) τ) := by
        refine hround.fall (j := 0) rfl ?_ (by simp)
        simp [Line.plain, Instruction.effect, Flow.jumpIf, hz]
      have hdec : Leads ask lines (.running (k + 1) τ)
          (.running (k + 2) (τ.set copy (Value.pred (τ copy)))) :=
        hround.fall (j := 1) rfl rfl (by simp [jumpZeroBody])
      obtain ⟨τ', hlead, hother⟩ := ih hround.append_right (τ.set copy (Value.pred (τ copy)))
      -- One unit less, compared with one round less.
      have hcond : (((τ.set copy (Value.pred (τ copy))) copy).toNat == n) =
          ((τ copy).toNat == n + 1) := by
        have hpred := Value.toNat_pred (τ copy)
        have hpos := Value.toNat_ne_zero hz
        rw [Store.set_self, Bool.eq_iff_iff, beq_iff_eq, beq_iff_eq]
        omega
      have hpos : k + 2 + (2 * n + 2) = k + (2 * (n + 1) + 2) := by omega
      rw [hcond] at hlead
      refine ⟨τ', (hfall.trans hdec).trans (hpos ▸ hlead), fun w hw => ?_⟩
      rw [hother w hw, Store.set_of_ne _ _ hw]

/-- Jumping where a counter equals a constant. -/
theorem jumpEqualConstantBody_leads {copy : Variable} {differ target : Label} {m : Nat}
    (hdiffer : differ = .numbered m) {v : Variable} {value : Value}
    (h : Placed lines k (jumpEqualConstantBody copy differ value.toNat v target)) (τ : Store) :
    ∃ τ', Leads ask lines (.running k τ)
        (.follow lines (k + (2 * value.toNat + 3)) τ' (.jumpIf (τ v == value) target)) ∧
      ∀ w, w ≠ copy → τ' w = τ w := by
  have hcopy : Leads ask lines (.running k τ) (.running (k + 1) (τ.set copy (τ v))) :=
    h.fall (j := 0) rfl rfl (by simp [jumpEqualConstantBody])
  obtain ⟨τ', hlead, hother⟩ := countdown_leads hd hdiffer value.toNat h.of_cons (τ.set copy (τ v))
  -- The copy holds what is compared with the constant.
  have hcond : (((τ.set copy (τ v)) copy).toNat == value.toNat) = (τ v == value) := by
    rw [Store.set_self, Bool.eq_iff_iff, beq_iff_eq, beq_iff_eq, UInt64.toNat_inj]
  rw [hcond, show k + 1 + (2 * value.toNat + 2) = k + (2 * value.toNat + 3) by omega] at hlead
  exact ⟨τ', hcopy.trans hlead, fun w hw => by rw [hother w hw, Store.set_of_ne _ _ hw]⟩

/-- Between two rounds of counting copies down together: what is left of them is equal where they
were equal at first. -/
structure Comparing (left right : Variable) (σ τ : Store) : Prop where
  eq_iff : τ left = τ right ↔ σ left = σ right
  other : ∀ u, u ≠ left → u ≠ right → τ u = σ u

omit hd in
/-- A round takes one unit of each copy away. -/
theorem Comparing.round {left right : Variable} {σ τ : Store} (h : Comparing left right σ τ)
    (hne : left ≠ right) (hl : τ left ≠ 0) (hr : τ right ≠ 0) :
    Comparing left right σ
      ((τ.set left (Value.pred (τ left))).set right (Value.pred (τ right))) := by
  refine ⟨?_, fun u hleft hright => ?_⟩
  · have hpred := Value.toNat_pred (τ left)
    have hpred' := Value.toNat_pred (τ right)
    have hpos := Value.toNat_ne_zero hl
    have hpos' := Value.toNat_ne_zero hr
    rw [Store.set_of_ne _ _ hne, Store.set_self, Store.set_self, ← h.eq_iff, ← UInt64.toNat_inj,
      ← UInt64.toNat_inj]
    omega
  · rw [Store.set_of_ne _ _ hright, Store.set_of_ne _ _ hleft, h.other u hleft hright]

section

variable {left right : Variable} {differ step leftDone target : Label} {l m n : Nat}
  (hdiffer : differ = .numbered l) (hstep : step = .numbered m) (hdone : leftDone = .numbered n)
  {v w : Variable}
  (h : Placed lines k (jumpEqualVariableBody left right differ step leftDone v w target))
include h

include hdiffer hdone in
/-- Where a copy is used up, the comparison comes out. -/
theorem compare_leads_out {τ : Store} (hused : τ left = 0 ∨ τ right = 0) :
    Leads ask lines (.running (k + 2) τ)
      (.follow lines (k + 8) τ (.jumpIf (τ left == τ right) target)) := by
  have hend : Leads ask lines (.running (k + 8) τ) (.follow lines (k + 8) τ .fallThrough) :=
    h.step (j := 8) rfl rfl
  by_cases hl : τ left = 0
  · have hjump : Leads ask lines (.running (k + 2) τ) (.running (k + 7) τ) := by
      refine h.jump hd (j := 2) rfl ?_ (t := 7) rfl hdone
      simp [Instruction.effect, Flow.jumpIf, hl, hdone]
    refine hjump.trans ?_
    by_cases hr : τ right = 0
    · -- Both copies are used up.
      have hgoto : Leads ask lines (.running (k + 7) τ)
          (.follow lines (k + 7) τ (.jump target)) := by
        refine h.step (j := 7) rfl ?_
        simp [Instruction.effect, Flow.jumpIf, hr]
      rw [RunState.follow_jump (k + 7) (k + 8)] at hgoto
      simpa [hl, hr, Flow.jumpIf] using hgoto
    · -- Only the left copy is used up.
      have hfall : Leads ask lines (.running (k + 7) τ) (.running (k + 8) τ) := by
        refine h.fall (j := 7) rfl ?_ (by simp [jumpEqualVariableBody])
        simp [Instruction.effect, Flow.jumpIf, hr]
      have hcond : (τ left == τ right) = false := by
        rw [hl]
        exact beq_eq_false_iff_ne.mpr fun heq => hr heq.symm
      simp only [hcond, Flow.jumpIf]
      exact hfall.trans hend
  · -- Only the right copy is used up.
    have hr : τ right = 0 := hused.resolve_left hl
    have hfall : Leads ask lines (.running (k + 2) τ) (.running (k + 3) τ) := by
      refine h.fall (j := 2) rfl ?_ (by simp [jumpEqualVariableBody])
      simp [Instruction.effect, Flow.jumpIf, hl]
    have hjump : Leads ask lines (.running (k + 3) τ) (.running (k + 8) τ) := by
      refine h.jump hd (j := 3) rfl ?_ (t := 8) rfl hdiffer
      simp [Line.plain, Instruction.effect, Flow.jumpIf, hr, hdiffer]
    have hcond : (τ left == τ right) = false := by
      rw [hr]
      exact beq_eq_false_iff_ne.mpr hl
    simp only [hcond, Flow.jumpIf]
    exact (hfall.trans hjump).trans hend

include hstep in
/-- As long as no copy is used up, a round comes back to its start. -/
theorem compare_round (hne : left ≠ right) {τ : Store} (hl : τ left ≠ 0) (hr : τ right ≠ 0) :
    Leads ask lines (.running (k + 2) τ) (.running (k + 2)
      ((τ.set left (Value.pred (τ left))).set right (Value.pred (τ right)))) := by
  have hfall : Leads ask lines (.running (k + 2) τ) (.running (k + 3) τ) := by
    refine h.fall (j := 2) rfl ?_ (by simp [jumpEqualVariableBody])
    simp [Instruction.effect, Flow.jumpIf, hl]
  have hfall' : Leads ask lines (.running (k + 3) τ) (.running (k + 4) τ) := by
    refine h.fall (j := 3) rfl ?_ (by simp [jumpEqualVariableBody])
    simp [Line.plain, Instruction.effect, Flow.jumpIf, hr]
  have hdec : Leads ask lines (.running (k + 4) τ)
      (.running (k + 5) (τ.set left (Value.pred (τ left)))) :=
    h.fall (j := 4) rfl rfl (by simp [jumpEqualVariableBody])
  have hdec' : Leads ask lines (.running (k + 5) (τ.set left (Value.pred (τ left))))
      (.running (k + 6)
        ((τ.set left (Value.pred (τ left))).set right (Value.pred (τ right)))) := by
    refine h.fall (j := 5) rfl ?_ (by simp [jumpEqualVariableBody])
    simp [Line.plain, Instruction.effect, Store.set_of_ne _ _ hne.symm]
  have hback : Leads ask lines
      (.running (k + 6) ((τ.set left (Value.pred (τ left))).set right (Value.pred (τ right))))
      (.running (k + 2) ((τ.set left (Value.pred (τ left))).set right (Value.pred (τ right)))) :=
    h.jump hd (j := 6) rfl (by rw [hstep]; rfl) (t := 2) rfl hstep
  exact (((hfall.trans hfall').trans hdec).trans hdec').trans hback

include hdiffer hstep hdone in
/-- Counting two copies down together. -/
theorem compare_leads (hne : left ≠ right) (σ : Store) :
    ∃ τ, Leads ask lines (.running (k + 2) σ)
        (.follow lines (k + 8) τ (.jumpIf (σ left == σ right) target)) ∧
      ∀ u, u ≠ left → u ≠ right → τ u = σ u := by
  suffices hloop : ∃ c, Leads ask lines (.running (k + 2) σ) c ∧ ∃ τ,
      c = .follow lines (k + 8) τ (.jumpIf (σ left == σ right) target) ∧
      ∀ u, u ≠ left → u ≠ right → τ u = σ u by
    obtain ⟨_, hlead, τ, rfl, hother⟩ := hloop
    exact ⟨τ, hlead, hother⟩
  -- Each round makes the left copy smaller.
  refine leads_loop (I := Comparing left right σ) (fun τ => (τ left).toNat) (fun τ hτ => ?_)
    ⟨.rfl, fun _ _ _ => rfl⟩
  by_cases hused : τ left = 0 ∨ τ right = 0
  · have hcond : (τ left == τ right) = (σ left == σ right) := by
      rw [Bool.eq_iff_iff, beq_iff_eq, beq_iff_eq, hτ.eq_iff]
    have hout : Leads ask lines _ _ := compare_leads_out hd hdiffer hdone h hused
    exact .inr ⟨_, hout, τ, by rw [hcond], hτ.other⟩
  · obtain ⟨hl, hr⟩ := not_or.mp hused
    refine .inl ⟨_, compare_round hd hstep h hne hl hr, hτ.round hne hl hr, ?_⟩
    have hpred := Value.toNat_pred (τ left)
    have hpos := Value.toNat_ne_zero hl
    rw [Store.set_of_ne _ _ hne, Store.set_self]
    omega

include hdiffer hstep hdone in
/-- Jumping where two counters are equal. -/
theorem jumpEqualVariableBody_leads (hne : left ≠ right) (hw : left ≠ w) (τ : Store) :
    ∃ τ', Leads ask lines (.running k τ)
        (.follow lines (k + 8) τ' (.jumpIf (τ v == τ w) target)) ∧
      ∀ u, u ≠ left → u ≠ right → τ' u = τ u := by
  have hcopy : Leads ask lines (.running k τ) (.running (k + 1) (τ.set left (τ v))) :=
    h.fall (j := 0) rfl rfl (by simp [jumpEqualVariableBody])
  have hcopy' : Leads ask lines (.running (k + 1) (τ.set left (τ v)))
      (.running (k + 2) ((τ.set left (τ v)).set right (τ w))) := by
    refine h.fall (j := 1) rfl ?_ (by simp [jumpEqualVariableBody])
    simp [Line.plain, Instruction.effect, Store.set_of_ne _ _ hw.symm]
  obtain ⟨τ', hlead, hother⟩ := compare_leads hd hdiffer hstep hdone h hne
    ((τ.set left (τ v)).set right (τ w))
  rw [Store.set_of_ne _ _ hne, Store.set_self, Store.set_self] at hlead
  exact ⟨τ', (hcopy.trans hcopy').trans hlead, fun u h₁ h₂ => by
    rw [hother u h₁ h₂, Store.set_of_ne _ _ h₂, Store.set_of_ne _ _ h₁]⟩

end

end

end CounterMachine
