import Lifecycle.CompUnit.Basic
import Lifecycle.Injection.Run

/-!
# Working through a unit

The routines of a unit are worked through one after another. They share the operators, the symbols
and the trace; reports are kept for each routine and then put together.
-/

namespace Lifecycle

structure RunOptions where
  maxDiagnostics : Int := 0
  inject : InjectOptions := {}
  expand : Text → Bool := fun _ => false
  cancelled : Bool := false

inductive Stage where
  | inject
  | expand
deriving DecidableEq

def Stage.text : Stage → Text
  | .inject => "rewrite"
  | .expand => "expand"

inductive Status where
  | queued
  | working
  | done
  | error
deriving DecidableEq

def Status.text : Status → Text
  | .queued => "queued"
  | .working => "working"
  | .done => "done"
  | .error => "error"

structure ProgressEvent where
  routine : Text := Text.empty
  stage : Stage := .inject
  status : Status
  error : Option Text := none
deriving DecidableEq

structure RoutineResult where
  routine : Routine
  injected : Injected
  bag : Bag
  dump : Option Text := none

namespace RoutineResult

def failed (r : RoutineResult) : Bool := r.injected.failed || r.injected.error.isSome

end RoutineResult

structure UnitResult where
  unit : CompUnit
  routines : List RoutineResult
  bag : Bag
  trace : TraceLog
  events : List ProgressEvent
  stopped : Option Text := none

namespace UnitResult

def failed (r : UnitResult) : Nat := (r.routines.filter (·.failed)).length

def errors (r : UnitResult) : List InjectError := r.routines.filterMap (·.injected.error)

def globals (r : UnitResult) : List Node := r.routines.flatMap (·.injected.globals)

/-- The unit with the new bodies; a routine without one keeps what it had. -/
def finished (r : UnitResult) : CompUnit :=
  { r.unit with
    routines := r.routines.map fun rr =>
      match rr.injected.body with
      | some body => { rr.routine with body }
      | none => rr.routine }

end UnitResult

namespace CompUnit

def runRoutine (opts : RunOptions) (limit : Int) (env : InjectEnv) (r : Routine) (sh : Shared) :
    Except Fault (RoutineResult × List ProgressEvent × Shared) := do
  let (injected, sh) := r.inject env sh
  let injected ← injected
  let ss := sh.ops.symbols
  let name := r.name ss
  let bag := (Bag.new limit).addAll (withoutRepeats injected.reports)
  let expand := opts.expand name
  let dump ← if expand then do
      pure (some (Text.concat (← r.dumpParts injected { symbols := ss, types := env.types })))
    else pure none
  let result : RoutineResult := { routine := r, injected, bag, dump }
  let final : ProgressEvent :=
    if result.failed then
      { routine := name, status := .error, error := injected.error.map (·.text) }
    else { routine := name, status := .done }
  let expanding : List ProgressEvent :=
    if expand then [{ routine := name, stage := .expand, status := .working }] else []
  return (result, { routine := name, status := .working } :: expanding ++ [final], sh)

end CompUnit

structure UnitRun where
  unit : CompUnit
  options : RunOptions
  span : TraceSpan
  shared : Shared
  routines : List RoutineResult := []
  events : List ProgressEvent := []

namespace UnitRun

def start (u : CompUnit) (options : RunOptions) (trace : TraceLog) : UnitRun :=
  let (span, trace) := trace.begin .driver "unit" 0
  { unit := u
    options
    span := (span.note "unit" u.name).note "routines" (Text.ofNat u.routines.length)
    shared := { ops := u.ops, trace, sites := u.sites }
    events := u.routines.map fun r => { routine := r.name u.symbols, status := .queued } }

def limit (run : UnitRun) : Int :=
  if 0 < run.options.maxDiagnostics then run.options.maxDiagnostics else 100

def step (run : UnitRun) (r : Routine) : Except Fault UnitRun := do
  let env : InjectEnv :=
    { types := run.unit.types, options := run.options.inject, parent := run.span.id }
  let (result, events, shared) ← CompUnit.runRoutine run.options run.limit env r run.shared
  return { run with
    shared
    routines := run.routines ++ [result]
    events := run.events ++ events }

def finish (run : UnitRun) : UnitResult :=
  let sh := run.shared
  let failed := (run.routines.filter (·.failed)).length
  let status : Status := if 0 < failed then .error else .done
  { unit := { run.unit with ops := sh.ops, sites := sh.sites }
    routines := run.routines
    bag := run.routines.foldl (fun b r => b.merge r.bag) (Bag.new run.limit)
    trace := sh.trace.finish (run.span.note "failed" (Text.ofNat failed)) ""
    events := run.events ++ [{ status }] }

def callOff (run : UnitRun) : UnitResult :=
  let cause : Text := "context canceled"
  { unit := run.unit
    routines := []
    bag := .new run.limit
    trace := run.shared.trace.finish run.span "cancelled"
    events := run.events ++ [{ status := .error, error := some cause }]
    stopped := some ("unit " ++ run.unit.name ++ ": " ++ cause) }

def isCalledOff (run : UnitRun) : Bool := run.options.cancelled && !run.unit.routines.isEmpty

end UnitRun

namespace CompUnit

def run (u : CompUnit) (options : RunOptions) (trace : TraceLog) : Except Fault UnitResult := do
  let run := UnitRun.start u options trace
  if run.isCalledOff then return run.callOff
  return (← u.routines.foldlM UnitRun.step run).finish

end CompUnit

end Lifecycle
