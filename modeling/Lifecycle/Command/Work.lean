import Lifecycle.Command.Effective
import Lifecycle.Diagnostic.Report
import Lifecycle.Timing.Timer

/-!
# Working on unit files

`CommandLine.workThrough` loads a unit, puts lifecycle operations into its routines, hands the
result to one of the commands and reports what was found.
-/

namespace Lifecycle

namespace CompUnit

variable {m : Type → Type} [Monad m] [World m]

def load (path : Text) : CommandM m CompUnit := do
  match ← World.read path with
  | .error e => CommandM.fail (if e.action = "open" then .unopened e else .unread e)
  | .ok t => CommandM.orFail (.undecoded path) (← CommandM.orFault (CompUnit.decode t))

/-- Saves a unit under a name of its own first, so that the file is never half written. -/
def save (u : CompUnit) (path : Text) : CommandM m Unit := do
  let dir := Path.parent path
  let slash : Text := if dir.endsWith "/" then "" else "/"
  let draft := dir ++ slash ++ ".unit-" ++ (← World.freshMark)
  CommandM.create draft fun e => .unsaved path (.file e)
  let giveUp (e : SaveError) : CommandM m Unit := do
    World.erase draft
    CommandM.fail (.unsaved path e)
  match u.encode with
  | .error e => giveUp (.encode e)
  | .ok t =>
    match ← World.save draft t with
    | .error fault => giveUp (.file ⟨"write", draft, fault⟩)
    | .ok _ =>
      match ← World.move draft path with
      | .error fault => giveUp (.move draft path fault)
      | .ok _ => return

end CompUnit

structure Worked where
  effective : Effective
  expanded : List Text
  result : UnitResult

namespace Worked

def printer (w : Worked) : Printer :=
  { symbols := w.result.unit.symbols, types := w.result.unit.types }

variable {m : Type → Type} [Monad m] [World m]

def printRoutines (w : Worked) : CommandM m Unit := do
  for r in w.result.routines do
    CommandM.say .out ("-- " ++ r.routine.name w.printer.symbols ++ "\n")
    CommandM.say .out
      (← CommandM.orFault (w.printer.printed (r.injected.body.getD r.routine.body)))
  let globals := w.result.globals
  if !globals.isEmpty then
    CommandM.say .out "-- global destructors\n"
    for n in globals.reverse do
      CommandM.say .out (← CommandM.orFault (w.printer.printed n))

def diagnosticParts (w : Worked) (format : Text) : List Text :=
  let bag := w.result.bag
  let files := w.result.unit.files
  if bag.items.isEmpty then []
  else if format = "json" then [bag.json {} true 0 files]
  else
    let bag := bag.sort
    let colored := w.effective.colored
    bag.lines { colored, notes := true, short := format = "short" } files ++
      (bag.summary? colored).toList

end Worked

namespace CommandLine

variable {m : Type → Type} [Monad m] [World m]

def startTrace (setup : TraceSetup) : CommandM m Unit := do
  if setup.writes && !setup.path.isEmpty && setup.path ≠ "-" then
    CommandM.create setup.path .trace
  if setup.keeps then
    let _ ← CommandM.orFault (Ring.new setup.capacity setup.level)

def writeTrace (setup : TraceSetup) (events : List TraceEvent) : CommandM m Unit := do
  if setup.writes then
    let kept := events.filter setup.level.keeps
    let text := Text.concat (kept.map (·.text setup.formatUsed))
    if setup.path.isEmpty || setup.path = "-" then CommandM.mention .log text
    else
      match ← World.save setup.path text with
      | .ok _ => return
      | .error fault =>
        CommandM.mention .err ("trace: flush error: " ++
          (FileError.mk "write" setup.path fault).text ++ "\n")

def dumpRing (setup : TraceSetup) (events : List TraceEvent) : CommandM m Unit := do
  if setup.keeps then
    let ring := (← CommandM.orFault (Ring.new setup.capacity setup.level)).emitAll events
    CommandM.mention .err "-- trace ring (most recent events last)\n"
    if !(← CommandM.tryAll .err (ring.snapshot.map (·.text .text))) then
      CommandM.mention .err ("trace: dump error: " ++ Output.refusal ++ "\n")

def startProfiles (c : CommandLine) : CommandM m Unit := do
  for name in [("cpu-profile" : Text), "runtime-trace"] do
    let path := c.text name
    if !path.isEmpty then CommandM.create path .profile

def stopProfiles (c : CommandLine) : CommandM m Unit := do
  let path := c.text "mem-profile"
  if !path.isEmpty then
    match ← World.save path Text.empty with
    | .ok _ => return
    | .error fault =>
      CommandM.mention .err ("profiling: " ++ (FileError.mk "open" path fault).text ++ "\n")

def timed {α : Type} (work : CommandM m α) : CommandM m (α × Nat × Nat) := do
  let start ← World.now
  let a ← work
  let stop ← World.now
  return (a, start, stop - start)

def phase (name : Text) (start length : Nat) (note : Text) : Phase :=
  { name, start, duration := clampNanos length, note }

def steps : List Routine → UnitRun → Timer → CommandM m (UnitRun × Timer)
  | [], run, timer => return (run, timer)
  | r :: rs, run, timer => do
    let (run, start, length) ← timed (CommandM.orFault (run.step r))
    let failed := (run.routines.getLast?.map (·.failed)).getD false
    steps rs run (timer.record
      (phase ("rewrite " ++ r.name run.unit.symbols) start length
        (if failed then "failed" else "")))

def workOn (c : CommandLine) (effective : Effective) (path : Text) (names : List Text)
    (emit : Worked → CommandM m Unit) : CommandM m Unit := do
  let settings := effective.settings
  let (u, start, length) ← timed (CompUnit.load path)
  let timer : Timer := ({} : Timer).record (phase "load" start length "")
  let expanded := if names.isEmpty then settings.pass.expand else names
  let options : RunOptions := {
    maxDiagnostics := settings.run.maxDiagnostics.toInt
    inject := settings.inject
    expand := fun name => expanded.any (·.sameName name)
    cancelled := ← World.isCalledOff }
  let setup := settings.traceSetup
  let run := UnitRun.start u options { level := setup.level }
  if run.isCalledOff then
    let result := run.callOff
    writeTrace setup result.trace.events
    CommandM.fail (.stopped (result.stopped.getD Text.empty))
  let (run, timer) ← steps u.routines run timer
  let w : Worked := { effective, expanded, result := run.finish }
  writeTrace setup w.result.trace.events
  if !w.result.errors.isEmpty then dumpRing setup w.result.trace.events
  emit w
  for part in w.diagnosticParts (if c.verb = some .run then c.text "format" else "pretty") do
    CommandM.say .err part
  if effective.timings then CommandM.mention .err timer.summary
  let failed := w.result.failed
  if 0 < failed then CommandM.fail (.failed failed w.result.routines.length)

def workThrough (c : CommandLine) (path : Text) (names : List Text)
    (emit : Worked → CommandM m Unit) : CommandM m Unit := do
  let effective ← c.effective
  startTrace effective.settings.traceSetup
  c.startProfiles
  CommandM.finally_ (c.workOn effective path names emit) c.stopProfiles

/-! ## The commands -/

/-- Puts lifecycle operations into all routines of a unit, saves it if that is asked for, and prints
the routines. A unit with a routine that failed is not saved. -/
def run (c : CommandLine) (path : Text) : CommandM m Unit := do
  let known : List Text := ["pretty", "short", "json"]
  let format := c.text "format"
  if !known.contains format then CommandM.fail (.format format "pretty, short or json")
  c.workThrough path [] fun w => do
    let out := c.text "out"
    let failed := w.result.failed
    if !out.isEmpty then
      if 0 < failed then
        CommandM.mention .err
          ("not writing " ++ out ++ ": " ++ Text.ofNat failed ++ " routines failed\n")
      else w.result.finished.save out
    if !c.truth "quiet" then w.printRoutines

def expand (c : CommandLine) (path : Text) (names : List Text) : CommandM m Unit :=
  c.workThrough path names fun w => do
    let dumps := (w.result.routines.filterMap (·.dump)).filter (!·.isEmpty)
    for d in dumps do
      CommandM.say .out d
    if dumps.isEmpty then CommandM.fail (.noMatch w.expanded)

def graph (path name : Text) : CommandM m Unit := do
  let u ← CompUnit.load path
  match u.routine? name with
  | none => CommandM.fail (.noRoutine path name)
  | some r =>
    let g ← CommandM.orFault (r.graph u.symbols u.types)
    CommandM.say .out (← CommandM.orFault (g.dump { symbols := u.symbols, types := u.types }))

def version (c : CommandLine) (release : Release) : CommandM m Unit := do
  let format := c.text "format"
  if format.lower = "json" then CommandM.say .out release.json
  else if format.lower = "pretty" then
    let colored ← c.colored .out
    CommandM.say .out (release.line colored ++ "\nunit schema: " ++
      Text.ofNat schemaVersion.toNat ++ "\n")
  else CommandM.fail (.format format "pretty or json")

end CommandLine

end Lifecycle
