import Lifecycle.Proofs.Injection.Run
import Lifecycle.Proofs.Injection.Statements

/-!
# What comes of a routine

Working on a routine only adds to the operators and symbols, also when it fails. A new body is what
the rules may make of the old one, and their notes are true afterwards.
-/

namespace Lifecycle

structure Ground.Logged (k : Ground) (s : OpState) (l : Log) : Prop where
  later : k.ops.Later k.types s
  holds : ∀ e ∈ l, e.Holds k.types s
  fresh : l.fresh.Pairwise (· < ·)
  new : ∀ r ∈ l.fresh, k.size ≤ r ∧ r < s.symbols.all.size
  scopes : ∀ e ∈ l, e.scope? = none

/-- A routine that does not fail to give a body for lack of one, with what it is worked through
with. -/
structure Routine.Grounded (r : Routine) (env : InjectEnv) (sh : Shared) (k : Ground) : Prop where
  types : k.types = env.types
  routine : k.routine = r
  ops : k.ops = sh.ops
  sound : r.body = .hole ∨ k.Sound r.body

namespace Routine

variable {r : Routine} {env : InjectEnv} {sh : Shared} {k : Ground}

/-- A failure is reported, so that there is a result, too. -/
theorem inject_isOk (hs : r.sym ≠ none) : ∃ res, (r.inject env sh).1 = .ok res := by
  obtain ⟨s, hs⟩ := Option.ne_none_iff_exists'.1 hs
  have hfail : ∀ f graph reports (sh : Shared), ∃ res, r.failure f graph reports sh = .ok res := by
    intro f graph reports sh
    rw [failure, failureReport, hs]
    exact ⟨_, rfl⟩
  rcases r.inject_cases env sh with ⟨-, h⟩ | ⟨-, h⟩ | ⟨e, sh', -, h, -⟩
    | ⟨g, c, st, -, -, -, -, -, h⟩
  · exact ⟨_, by rw [h]⟩
  · exact ⟨_, by rw [h]⟩
  · rw [h]
    exact hfail _ _ _ _
  · rw [(Prod.mk.inj h).1]
    cases InjectM.body c st with
    | ok out st' => exact ⟨_, rfl⟩
    | error f st' => exact hfail _ _ _ _

/-- Work on a routine adds to the operators and symbols, and a new body is what may come of the old
one. -/
theorem inject_grounded (hk : r.Grounded env sh k) :
    sh.ops.Later env.types (r.inject env sh).2.ops ∧ ∀ res out, (r.inject env sh).1 = .ok res →
      res.body = some out → sh.ops.symbols.has r.sym .generated = true ∧ out = r.body ∨
        k.Sound r.body ∧ ∃ l, k.Works out l ∧ k.Logged (r.inject env sh).2.ops l := by
  rcases r.inject_cases env sh with ⟨-, h⟩ | ⟨hs, h⟩ | ⟨e, sh', -, h, ho⟩ |
    ⟨g, c, st, hb, -, ht, hr, hst, h⟩
  · rw [h]
    refine ⟨.refl _, fun res out hres hout => ?_⟩
    cases hres
    cases hout
  · rw [h]
    refine ⟨.refl _, fun res out hres hout => ?_⟩
    cases hres
    exact .inl ⟨hs, (Option.some.inj hout).symm⟩
  · rw [h, ho]
    refine ⟨.refl _, fun res out hres hout => ?_⟩
    obtain ⟨d, -, rfl⟩ := of_failure hres
    cases hout
  obtain ⟨hres, ho⟩ := Prod.mk.inj h
  have hsound : k.Sound k.routine.body := by
    rw [hk.routine]
    refine hk.sound.resolve_left fun h => ?_
    rw [h] at hb
    cases hb
  have hops : st.ops = sh.ops := hst.ops
  have hholds : k.Holds c st :=
    ⟨ht.trans hk.types.symm, hr.trans hk.routine.symm, by rw [hk.ops, hops]; exact .refl _⟩
  have hbody := InjectM.logs_body (T := fun _ => False) hsound st hholds (fun _ h => h.elim)
    (by rw [hst.scopes]; rfl)
  rw [hres, ho]
  cases hout : InjectM.body c st with
  | ok out st' =>
    rw [hout] at hbody
    obtain ⟨l, hafter, hworks⟩ := hbody
    refine ⟨hops ▸ hk.types ▸ hafter.ops, fun res out' h hout' => .inr ⟨hk.routine ▸ hsound, l,
      ?_, ?_⟩⟩
    · cases h
      cases hout'
      exact hworks
    · refine ⟨?_, hafter.holds, hafter.fresh, fun v hv => ?_, fun e he => ?_⟩
      · rw [hk.ops, ← hops]
        exact hafter.ops
      · rw [Ground.size, hk.ops, ← hops]
        exact hafter.new v hv
      · rcases hi : e.scope? with _ | i
        · rfl
        · have := hafter.within e he i hi
          rw [hst.scopes] at this
          exact absurd this (Nat.not_lt_zero i)
  | error f st' =>
    rw [hout] at hbody
    refine ⟨hops ▸ hk.types ▸ show st.ops.Later k.types st'.ops from hbody, fun res out' h hout' =>
      ?_⟩
    obtain ⟨d, -, rfl⟩ := of_failure h
    cases hout'

end Routine

end Lifecycle
