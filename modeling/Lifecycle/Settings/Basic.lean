import Lifecycle.Injection.Basic
import Lifecycle.Trace.Tracer

/-!
# Settings

What a settings file can choose, with the values that hold without one. `Settings.problems` names
what is out of range.
-/

namespace Lifecycle

structure PassSettings where
  perfHints : Bool := true
  cycleWarnings : Bool := true
  expand : List Text := []

structure RunSettings where
  workers : Int64 := 0
  maxDiagnostics : Int64 := 100

structure TraceSettings where
  level : Text := "off"
  mode : Text := "ring"
  format : Text := "auto"
  output : Text := "-"
  ringSize : Int64 := 4096

structure Settings where
  pass : PassSettings := {}
  run : RunSettings := {}
  trace : TraceSettings := {}
  path : Text := Text.empty

inductive SettingProblem where
  | workers (n : Int64)
  | maxDiagnostics (n : Int64)
  | ringSize (n : Int64)
  | level (why : Text)
  | mode (why : Text)
  | format (why : Text)
  | emptyName

def SettingProblem.message : SettingProblem → Text
  | .workers n => "[driver].workers must be >= 0, got " ++ Text.ofInt n.toInt
  | .maxDiagnostics n => "[driver].max_diagnostics must be > 0, got " ++ Text.ofInt n.toInt
  | .ringSize n => "[trace].ring_size must be >= 0, got " ++ Text.ofInt n.toInt
  | .level why => "[trace].level: " ++ why
  | .mode why => "[trace].mode: " ++ why
  | .format why => "[trace].format: " ++ why
  | .emptyName => "[pass].expand contains an empty routine name"

namespace Settings

def problems (s : Settings) : List SettingProblem :=
  let check (ok : Bool) (p : SettingProblem) : List SettingProblem := if ok then [] else [p]
  let parsed {α : Type} (r : Except Text α) (p : Text → SettingProblem) : List SettingProblem :=
    match r with
    | .ok _ => []
    | .error why => [p why]
  check (0 ≤ s.run.workers) (.workers s.run.workers) ++
  check (0 < s.run.maxDiagnostics) (.maxDiagnostics s.run.maxDiagnostics) ++
  check (0 ≤ s.trace.ringSize) (.ringSize s.trace.ringSize) ++
  parsed (TraceLevel.parse s.trace.level) .level ++
  parsed (StorageMode.parse s.trace.mode) .mode ++
  parsed (TraceFormat.parse s.trace.format) .format ++
  check (s.pass.expand.all (!·.trim.isEmpty)) .emptyName

def inject (s : Settings) : InjectOptions :=
  { perfHints := s.pass.perfHints, cycleWarnings := s.pass.cycleWarnings }

def traceSetup (s : Settings) : TraceSetup where
  level := (TraceLevel.parse s.trace.level).toOption.getD .off
  mode := (StorageMode.parse s.trace.mode).toOption.getD .ring
  format := (TraceFormat.parse s.trace.format).toOption.getD .auto
  path := s.trace.output
  capacity := s.trace.ringSize.toInt

end Settings

end Lifecycle
