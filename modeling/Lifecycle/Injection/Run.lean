import Lifecycle.Injection.Statement

/-!
# Whole routines

`inject` works through the body of a routine in an outermost scope, in which also the sink
parameters are destroyed. `Routine.inject` brackets this with trace spans, builds the flow graph,
and keeps a failure inside the routine: it becomes a report.
-/

namespace Lifecycle

inductive InjectError where
  | noBody
  | inside (routine : Text) (failure : InjectFailure)

def InjectError.text : InjectError → Text
  | .noBody => "destructors: routine without body"
  | .inside r f => "routine " ++ r ++ ": " ++ f.text

structure Injected where
  body : Option Node := none
  globals : List Node := []
  /-- An error was reported; the body is then the best that could be done. -/
  failed : Bool := false
  temps : Nat := 0
  graph : Option Graph := none
  reports : List Diagnostic := []
  error : Option InjectError := none

namespace InjectM

def sinkParams (top : ScopeId) : List (Option SymRef) → InjectM Unit
  | [] => return
  | p :: ps => do
    if let some r := p then
      let s := (← symbols).get r
      if s.has .sink then
        if ← isOwning s.type then
          let d ← destroy (← symNode r s.span)
          modifyScope top fun sc => { sc with finals := sc.finals ++ [d] }
    sinkParams top ps

def body : InjectM Node := do
  let r := (← read).routine
  let top ← openScope none
  let out ← (rules (ruleDepth r.body)).eval r.body top .normal
  sinkParams top r.params
  closeAround top out

end InjectM

structure InjectEnv where
  types : TypeTable
  options : InjectOptions := {}
  parent : UInt64 := 0

namespace Routine

def failureReport (r : Routine) (ss : Symbols) (f : InjectFailure) : Except Fault Diagnostic := do
  let own := (ss.get (← orAbsent r.sym)).span
  return {
    severity := .error
    code := .internal
    message := f.message ++ "; routine: " ++ r.name ss
    primary := f.span.orElse own }

def failure (r : Routine) (f : InjectFailure) (graph : Option Graph) (reports : List Diagnostic)
    (sh : Shared) : Except Fault Injected := do
  let d ← r.failureReport sh.ops.symbols f
  return {
    failed := true
    graph
    reports := reports ++ [d]
    error := some (.inside (r.name sh.ops.symbols) f) }

def work (r : Routine) (env : InjectEnv) (span : UInt64) (sh : Shared) :
    Except Fault Injected × Shared :=
  let (cfg, trace) := sh.trace.begin .routine "cfg" span
  let sh := { sh with trace }
  match r.graph sh.ops.symbols env.types with
  | .error e => (r.failure (.fault e) none [] sh, sh)
  | .ok g =>
    let sh := { sh with
      trace := sh.trace.finish (cfg.note "instrs" (Text.ofNat g.size)) "" }
    let (changing, trace) := sh.trace.begin .routine "rewrite" span
    let sh := { sh with trace }
    let ctx : InjectContext := { types := env.types, routine := r, options := env.options
                                 span := changing.id }
    match (InjectM.body.run ctx).run { sh with oracle := { graph := g } } with
    | .error f st => (r.failure f (some g) st.reports st.toShared, st.toShared)
    | .ok body st =>
      (.ok { body := some body, globals := st.globals, failed := st.failed, temps := st.temps
             graph := some g, reports := st.reports },
        { st.toShared with trace := st.trace.finish changing "" })

/-- Puts lifecycle operations into a routine. What was made up is in its final form already. -/
def inject (r : Routine) (env : InjectEnv) (sh : Shared) : Except Fault Injected × Shared :=
  if r.body.isHole then (.ok { error := some .noBody }, sh)
  else if sh.ops.symbols.has r.sym .generated then (.ok { body := some r.body }, sh)
  else
    let (span, trace) := sh.trace.begin .pass "destructors" env.parent
    let span := span.note "routine" (r.name sh.ops.symbols)
    let (res, sh) := r.work env span.id { sh with trace }
    let (temps, failed) := match res with
      | .ok i => (i.temps, i.failed)
      | .error _ => (0, false)
    let span := span.note "temps" (Text.ofNat temps)
    (res, { sh with trace := sh.trace.finish span (if failed then "failed" else "") })

def dumpParts (r : Routine) (i : Injected) (p : Printer) : Except Fault (List Text) := do
  let title (what : Text) : Text := "-- " ++ r.name p.symbols ++ ": " ++ what ++ "\n"
  let before := [title "before", ← p.printed r.body]
  let graph ← match i.graph with
    | some g => do pure [title "cfg", ← g.dump p]
    | none => pure []
  match i.body with
  | none => return before ++ graph ++ [title "after", "<failed>\n"]
  | some body => do
    let after := [title "after", ← p.printed body]
    let globals ← if i.globals.isEmpty then pure []
      else do pure (title "global destructors" :: (← i.globals.mapM p.printed))
    return before ++ graph ++ after ++ globals

end Routine

end Lifecycle
