import CounterMachine.Proofs.Semantics.Placement
import CounterMachine.Proofs.Semantics.Renaming

/-!
# Simulation

Two runs simulate each other when related configurations stay related: a step of the first run is
matched by one or more steps of the second one. The second run then comes to a related end, and if
the first run is endless, so is the second. An endless part of the second run that matches a
single step, which waits for an answer for ever, is allowed too.

## Key results

- `matched_of_meets`: a step is matched where related effects are met
- `Simulates.reaches`: ends are matched by related ends
- `Simulates.endless`: endless runs are matched by endless runs
- `RunsAlike.trans`, `RunsAlike.ends'`: programs whose runs end alike
-/

namespace CounterMachine

/-- Steps from related configurations are matched. -/
structure Simulates (ask : Oracle) (lines lines' : List Line) (R : RunState → RunState → Prop) :
    Prop where
  step : ∀ c d, R c d → ¬ c.Ended →
    (∃ d', Leads ask lines' d d' ∧ R (c.next ask lines) d') ∨
      Endless ask lines c ∧ Endless ask lines' d
  live : ∀ c d, R c d → ¬ c.Ended → ¬ d.Ended

/-- A step is matched where the second run meets an effect that is related to that of the step. -/
theorem matched_of_meets {ask : Oracle} {lines lines' : List Line}
    {R : RunState → RunState → Prop} {rel : Flow × Store → Flow × Store → Prop}
    {P : Flow × Store → RunState → Prop} {p : Nat} {σ : Store} {line : Line} {d : RunState}
    {r : Reply (Flow × Store)} (hline : lines[p]? = some line)
    (hrel : Reply.Related rel (line.instruction.effect ask σ) r)
    (hmeets : Meets ask lines' d P r) (hfaulted : R .faulted .faulted)
    (hvalue : ∀ effect effect' c, line.instruction.effect ask σ = .value effect →
      rel effect effect' → P effect' c → R (.follow lines p effect.2 effect.1) c) :
    (∃ d', Leads ask lines' d d' ∧ R ((RunState.running p σ).next ask lines) d') ∨
      Endless ask lines (.running p σ) ∧ Endless ask lines' d := by
  cases he : line.instruction.effect ask σ with
  | fault =>
    rw [he] at hrel
    rw [hrel.fault] at hmeets
    rw [RunState.next_of_fault hline he]
    exact .inl ⟨.faulted, hmeets, hfaulted⟩
  | never =>
    rw [he] at hrel
    rw [hrel.never] at hmeets
    exact .inr ⟨RunState.endless_of_never hline he, hmeets⟩
  | value effect =>
    rw [he] at hrel
    obtain ⟨effect', he', hrel'⟩ := hrel.value
    rw [he'] at hmeets
    obtain ⟨c, hlead, hP⟩ := hmeets
    rw [RunState.next_of_value hline he]
    exact .inl ⟨c, hlead, hvalue effect effect' c he hrel' hP⟩

namespace Simulates

variable {ask : Oracle} {lines lines' : List Line} {R : RunState → RunState → Prop}

/-- Where the first run ends, the second run gets to a related configuration. -/
theorem reaches (h : Simulates ask lines lines' R) {c d e : RunState} (hR : R c d)
    (he : Ends ask lines c e) : ∃ d', Reaches ask lines' d d' ∧ R e d' := by
  obtain ⟨hended, n, rfl⟩ := he
  -- By induction on the steps that the first run takes to its end.
  induction n generalizing c d with
  | zero => exact ⟨d, .refl d, hR⟩
  | succ n ih =>
    by_cases hc : c.Ended
    · rw [RunState.iterate_next_of_ended hc]
      exact ⟨d, .refl d, hR⟩
    · rw [Function.iterate_succ_apply] at hended ⊢
      rcases h.step c d hR hc with ⟨d', hlead, hR'⟩ | ⟨hendless, _⟩
      · obtain ⟨d'', hreach, hR''⟩ := ih hR' hended
        exact ⟨d'', hlead.reaches.trans hreach, hR''⟩
      · exact absurd hended (hendless (n + 1))

/-- Where the first run is endless, the second one is. -/
theorem endless (h : Simulates ask lines lines' R) {c d : RunState} (hR : R c d)
    (hc : Endless ask lines c) : Endless ask lines' d := by
  -- If the second run ended after some steps, so it would from a later pair of configurations,
  -- after fewer steps.
  intro n
  induction n using Nat.strongRecOn generalizing c d with
  | ind n ih =>
    intro hn
    rcases h.step c d hR (hc 0) with ⟨d', ⟨m, hm, hd'⟩, hR'⟩ | ⟨_, hd⟩
    · have hc' : Endless ask lines (c.next ask lines) := fun k => by
        rw [← Function.iterate_succ_apply]
        exact hc (k + 1)
      by_cases hle : m ≤ n
      · -- The matched step lies behind, so fewer steps are left.
        refine ih (n - m) (by omega) hR' hc' ?_
        rw [← hd', ← Function.iterate_add_apply, Nat.sub_add_cancel hle]
        exact hn
      · refine h.live _ d' hR' (hc' 0) ?_
        rw [← hd', RunState.iterate_next_of_le hn (by omega)]
        exact hn
    · exact hd n hn

end Simulates

/-! ### Runs that end alike -/

/-- Both runs have halted, with the same contents of some counters, or both have faulted. -/
inductive EndsAlike (V : Variable → Prop) : RunState → RunState → Prop
  | halted {σ τ : Store} (h : ∀ v, V v → τ v = σ v) : EndsAlike V (.halted σ) (.halted τ)
  | faulted : EndsAlike V .faulted .faulted

/-- From the first line on, and from one store, the runs of two programs end alike, or neither
ends. -/
structure RunsAlike (ask : Oracle) (V : Variable → Prop) (σ : Store) (lines lines' : List Line) :
    Prop where
  ends : ∀ e, Ends ask lines (.running 0 σ) e →
    ∃ e', Ends ask lines' (.running 0 σ) e' ∧ EndsAlike V e e'
  endless : Endless ask lines (.running 0 σ) → Endless ask lines' (.running 0 σ)

section

variable {ask : Oracle} {V : Variable → Prop} {σ : Store} {lines lines' lines'' : List Line}

theorem EndsAlike.refl {e : RunState} (h : e.Ended) : EndsAlike V e e := by
  cases e with
  | running position σ => exact absurd h id
  | halted σ => exact .halted fun _ _ => rfl
  | faulted => exact .faulted

/-- If an end is like a second one and that is like a third one, then so is the first one. -/
theorem EndsAlike.trans {e e' e'' : RunState} (h : EndsAlike V e e') (h' : EndsAlike V e' e'') :
    EndsAlike V e e'' := by
  cases h with
  | halted h =>
    cases h' with
    | halted h' => exact .halted fun v hv => (h' v hv).trans (h v hv)
  | faulted => exact h'

/-- Lines run like themselves. -/
theorem RunsAlike.refl (lines : List Line) : RunsAlike ask V σ lines lines :=
  ⟨fun e he => ⟨e, he, .refl he.1⟩, id⟩

/-- Running alike passes on to third lines. -/
theorem RunsAlike.trans (h : RunsAlike ask V σ lines lines')
    (h' : RunsAlike ask V σ lines' lines'') : RunsAlike ask V σ lines lines'' := by
  refine ⟨fun e he => ?_, h'.endless ∘ h.endless⟩
  obtain ⟨e', he', halike⟩ := h.ends e he
  obtain ⟨e'', he'', halike'⟩ := h'.ends e' he'
  exact ⟨e'', he'', halike.trans halike'⟩

/-- Ends of the second program come from ends of the first one. -/
theorem RunsAlike.ends' (h : RunsAlike ask V σ lines lines') {e' : RunState}
    (he' : Ends ask lines' (.running 0 σ) e') :
    ∃ e, Ends ask lines (.running 0 σ) e ∧ EndsAlike V e e' := by
  rcases ends_or_endless ask lines (.running 0 σ) with ⟨e, he⟩ | hendless
  · obtain ⟨e'', he'', halike⟩ := h.ends e he
    exact ⟨e, he, he'.unique he'' ▸ halike⟩
  · exact absurd (h.endless hendless) he'.not_endless

end

end CounterMachine
