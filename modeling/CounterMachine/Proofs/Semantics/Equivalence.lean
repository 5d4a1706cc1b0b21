import CounterMachine.Proofs.Reachable.Lines
import CounterMachine.Proofs.Semantics.Admissible
import CounterMachine.Proofs.Semantics.Lowered

/-!
# Expanded programs compute the same

Whatever has been expanded and collapsed on the way from a source to a program, both come to the
same results: the visible lines come from those of the source when one line after the other is
lowered, and runs before and after a lowering end alike.

## Key results

- `Program.Grown.runsAlike`: runs of the source and of what has grown from it end alike
- `Program.Reachable.run_equivalent`: the same for runs of the machine
-/

namespace CounterMachine

namespace Program

section

variable {source p : Program}

/-- Runs of a source and of what has grown from it end alike. -/
theorem Grown.runsAlike (h : Grown source p)
    (horder : source.order = List.range source.arena.size)
    (hsource : Admissible source.callable source.lines) (htable : source.callable.Sound)
    (values : List Value) :
    RunsAlike source.callable.oracle (· ∈ source.vars) (.initial source.inputs values)
      source.lines p.lines := by
  -- Along the lowerings the lines stay admissible, which the next lowering needs.
  have hkept : Admissible source.callable p.lines ∧
      RunsAlike source.callable.oracle (· ∈ source.vars) (.initial source.inputs values)
        source.lines p.lines := by
    refine h.lines_induction horder (fun lines => Admissible source.callable lines ∧
      RunsAlike source.callable.oracle (· ∈ source.vars) (.initial source.inputs values)
        source.lines lines) ⟨hsource, .refl _⟩ ?_
    rintro before after lines line s s' hlow hadded ⟨hadm, halike⟩
    refine ⟨hadm.lower htable hlow, ?_⟩
    have hfits := hadm.fits line (List.mem_append_right _ List.mem_cons_self)
    -- Added counters start at zero, as they are no inputs.
    refine halike.trans (lowered_runsAlike htable.inlinable hadm.labelled hfits.takes hlow hadded
      fun v hv => Store.initial_of_notMem values fun hmem => ?_)
    exact hadded v (mem_vars_of_mem_inputs hmem) hv
  exact hkept.2

end

/-! ### Runs of the machine -/

/-- Two programs halt on the same inputs, with the same result and with the same values in the
counters of the first one, and they fail on the same inputs. -/
structure RunsEqually (source p : Program) (values : List Value) : Prop where
  halts_iff : (∃ fuel o, source.run fuel values = some (.ok o)) ↔
    ∃ fuel o, p.run fuel values = some (.ok o)
  outcome_eq : ∀ fuel fuel' o o', source.run fuel values = some (.ok o) →
    p.run fuel' values = some (.ok o') →
      o'.result = o.result ∧ ∀ v ∈ source.vars, o'.bindings.read v = o.bindings.read v
  fails_iff : (∃ fuel error, source.run fuel values = some (.error error)) ↔
    ∃ fuel error, p.run fuel values = some (.error error)

/-- Programs whose runs over stores end alike run equally. -/
theorem RunsEqually.of_runsAlike {source p : Program} {values : List Value}
    (hcallable : p.callable = source.callable) (hinputs : p.inputs = source.inputs)
    (h : RunsAlike source.callable.oracle (· ∈ source.vars) (.initial source.inputs values)
      source.lines p.lines) : RunsEqually source p values := by
  -- Both programs ask the same oracle and start in the same store.
  have hruns : ∀ e, p.RunsTo values e ↔
      Ends source.callable.oracle p.lines (.running 0 (.initial source.inputs values)) e := by
    intro e
    rw [RunsTo, hcallable, hinputs]
  -- Each end of a run of the machine is an end of a run over stores, and the other way round.
  refine ⟨⟨?_, ?_⟩, ?_, ⟨?_, ?_⟩⟩
  · rintro ⟨fuel, o, hrun⟩
    obtain ⟨σ, hσ, _⟩ := run_ok hrun
    obtain ⟨e, he, hends⟩ := h.ends _ hσ
    cases hends with
    | halted _ => exact exists_run_ok ((hruns _).mpr he)
  · rintro ⟨fuel, o, hrun⟩
    obtain ⟨τ, hτ, _⟩ := run_ok hrun
    obtain ⟨e, he, hends⟩ := h.ends' ((hruns _).mp hτ)
    cases hends with
    | halted _ => exact exists_run_ok he
  · intro fuel fuel' o o' hrun hrun'
    obtain ⟨σ, hσ, hresult, hread⟩ := run_ok hrun
    obtain ⟨τ, hτ, hresult', hread'⟩ := run_ok hrun'
    obtain ⟨e, he, hends⟩ := h.ends _ hσ
    rw [← ((hruns _).mp hτ).unique he] at hends
    cases hends with
    | halted hsame =>
      exact ⟨by rw [hresult', hresult, hsame _ (result_mem_vars source)],
        fun v hv => by rw [hread', hread, hsame v hv]⟩
  · rintro ⟨fuel, error, hrun⟩
    obtain ⟨e, he, hends⟩ := h.ends _ (run_error hrun)
    cases hends with
    | faulted => exact exists_run_error ((hruns _).mpr he)
  · rintro ⟨fuel, error, hrun⟩
    obtain ⟨e, he, hends⟩ := h.ends' ((hruns _).mp (run_error hrun))
    cases hends with
    | faulted => exact exists_run_error he

section

variable {name : String} {displayName : Option String} {inputs : Option (List Variable)}
  {functions : Option (List Program)} {lines : List Line} {p : Program}

/-- Let a source carry no label twice and `EXIT` nowhere, let it pass no function more than that
takes, and let the functions that it can call be so too and list no input twice. Then every program
that is reachable from it halts on the same inputs as the source, with the same result and with the
same values in all counters of the source, and fails on the same inputs as the source. -/
theorem Reachable.run_equivalent
    (hsource : Admissible (ofLines name displayName inputs functions lines).callable
      (ofLines name displayName inputs functions lines).lines)
    (htable : (ofLines name displayName inputs functions lines).callable.Sound)
    (h : Reachable (ofLines name displayName inputs functions lines) p) (values : List Value) :
    RunsEqually (ofLines name displayName inputs functions lines) p values := by
  have hg := h.grown (Grown.ofLines ..)
  have horder : (ofLines name displayName inputs functions lines).order =
      List.range (ofLines name displayName inputs functions lines).arena.size := by
    rw [ofLines_size]
    rfl
  exact .of_runsAlike hg.callable_eq hg.inputs_eq (hg.runsAlike horder hsource htable values)

/-- A call that has been inlined, with its argument and its result copied by loops, gives the same
result. -/
theorem run_equivalent_identity : ∃ p,
    (ofLines "copy" none none
      (some [ofLines "id" none none none [.plain (.assign .result (.input 1))]])
      [.plain (.quote .result ⟨"id", [.var (.input 1)]⟩)]).expand 2 = .ok p ∧
    RunsEqually (ofLines "copy" none none
      (some [ofLines "id" none none none [.plain (.assign .result (.input 1))]])
      [.plain (.quote .result ⟨"id", [.var (.input 1)]⟩)]) p [7] := by
  have hp : (ofLines "copy" none none
    (some [ofLines "id" none none none [.plain (.assign .result (.input 1))]])
    [.plain (.quote .result ⟨"id", [.var (.input 1)]⟩)]).expand 2 = .ok _ := rfl
  have hid : ∀ function callee, (ofLines "copy" none none
      (some [ofLines "id" none none none [.plain (.assign .result (.input 1))]])
      [.plain (.quote .result ⟨"id", [.var (.input 1)]⟩)]).callable.find? function = some callee →
        callee = ofLines "id" none none none [.plain (.assign .result (.input 1))] :=
    fun _ _ h => List.mem_singleton.mp (List.mem_of_find?_eq_some h)
  refine ⟨_, hp, Reachable.run_equivalent ⟨?_, ?_, ?_⟩ ⟨?_, ?_⟩ (.expand .refl hp) [7]⟩
  · exact distinctLabels_iff.mpr (by decide)
  · decide
  · intro line hline
    rw [List.mem_singleton.mp hline]
    refine ⟨fun callee hfind => ?_, trivial, trivial⟩
    rw [hid _ callee hfind]
    decide
  · intro function callee hfind
    rw [hid function callee hfind]
    exact ⟨distinctLabels_iff.mpr (by decide), by decide, fun line hline => by
      rw [List.mem_singleton.mp hline]
      trivial⟩
  · intro function callee hfind
    rw [hid function callee hfind]
    decide

end

end Program

end CounterMachine
