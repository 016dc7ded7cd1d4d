import Lifecycle.Proofs.Injection.Ends

/-!
# What a routine starts and ends with

The rules start on a body with what the routine was given, the flow graph and no open scope. What
they end with is what injection gives back.
-/

namespace Lifecycle

/-- The state in which the rules begin. -/
structure InjectState.Starts (st : InjectState) (sh : Shared) (g : Graph) : Prop where
  ops : st.ops = sh.ops
  sites : st.sites = sh.sites
  oracle : st.oracle = { graph := g }
  scopes : st.scopes = []
  loops : st.loops = 0
  conditions : st.conditions = 0
  declared : st.declared = {}
  failed : st.failed = false
  otherRead : st.otherRead = none
  reports : st.reports = []

namespace Routine

variable {r : Routine} {env : InjectEnv} {sh : Shared} {res : Injected} {g : Graph}

/-- What injection gives back when the rules end so: a result and the operators. -/
def outcome (r : Routine) (g : Graph) : EStateM.Result InjectFailure InjectState Node →
    Except Fault Injected × OpState
  | .ok out st => (.ok { body := some out, globals := st.globals, failed := st.failed
                         temps := st.temps, graph := some g, reports := st.reports }, st.ops)
  | .error f st => (r.failure f (some g) st.reports st.toShared, st.ops)

theorem of_failure {graph : Option Graph} (h : r.failure f graph reports sh = .ok res) :
    ∃ d, d.notes = [] ∧ res = { failed := true, graph, reports := reports ++ [d]
                                error := some (.inside (r.name sh.ops.symbols) f) } := by
  obtain ⟨d, hd, h⟩ := bind_eq_ok.1 h
  obtain ⟨s, -, hd⟩ := bind_eq_ok.1 hd
  refine ⟨d, ?_, (pure_eq_ok.1 h).symm⟩
  rw [← pure_eq_ok.1 hd]

/-- How injection ends: a routine without a body and one that was made up are left alone, and else
the rules work on the body, if there is a flow graph for them. -/
theorem inject_cases (r : Routine) (env : InjectEnv) (sh : Shared) :
    (r.body.isHole = true ∧ r.inject env sh = (.ok { error := some .noBody }, sh)) ∨
    (sh.ops.symbols.has r.sym .generated = true ∧
      r.inject env sh = (.ok { body := some r.body }, sh)) ∨
    (∃ e sh', r.graph sh.ops.symbols env.types = .error e ∧
      (r.inject env sh).1 = r.failure (.fault e) none [] sh' ∧ (r.inject env sh).2.ops = sh.ops) ∨
    ∃ g c st, r.body.isHole = false ∧ r.graph sh.ops.symbols env.types = .ok g ∧
      c.types = env.types ∧ c.routine = r ∧ st.Starts sh g ∧
      ((r.inject env sh).1, (r.inject env sh).2.ops) = r.outcome g (InjectM.body c st) := by
  by_cases hb : r.body.isHole = true
  · exact .inl ⟨hb, by rw [inject, if_pos hb]⟩
  by_cases hs : sh.ops.symbols.has r.sym .generated = true
  · exact .inr (.inl ⟨hs, by rw [inject, if_neg hb, if_pos hs]⟩)
  rw [inject, if_neg hb, if_neg hs]
  rcases sh.trace.begin .pass "destructors" env.parent with ⟨span, trace⟩
  rcases hg : r.graph sh.ops.symbols env.types with e | g
  · simp only [work, hg]
    exact .inr (.inr (.inl ⟨e, _, rfl, rfl, trivial⟩))
  · simp only [work, hg]
    refine .inr (.inr (.inr ?_))
    split
    all_goals
      rename_i st' heq
      refine ⟨g, _, _, by simpa using hb, rfl, ?_, ?_, ?_, (congrArg (r.outcome g) heq).symm⟩
      · rfl
      · rfl
      · exact ⟨rfl, rfl, rfl, rfl, rfl, rfl, rfl, rfl, rfl, rfl⟩

end Routine

end Lifecycle
