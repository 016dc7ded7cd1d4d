import Lifecycle.Command.Basic

/-!
# What holds for a command

The settings of the file, with the flags that were given in their place, and what is said about
colours, timings and the display of progress.
-/

namespace Lifecycle

structure Effective where
  settings : Settings := {}
  colored : Bool := false
  timings : Bool := false

namespace CommandLine

/-- Puts the flags that were given into the settings. A file for the trace alone turns on the
phases, as a stream. -/
def override (c : CommandLine) (s : Settings) : Settings :=
  let text (name : Text) (usual : Text) : Text := if c.isGiven name then c.text name else usual
  let truth (name : Text) (usual : Bool) : Bool := if c.isGiven name then c.truth name else usual
  let number (name : Text) (usual : Int64) : Int64 :=
    if c.isGiven name then c.number name else usual
  let trace : TraceSettings := {
    level := text "trace-level" s.trace.level
    mode := text "trace-mode" s.trace.mode
    format := text "trace-format" s.trace.format
    output := text "trace" s.trace.output
    ringSize := number "trace-ring-size" s.trace.ringSize }
  let trace :=
    if c.isGiven "trace" && !c.isGiven "trace-level" && trace.level = "off" then
      { trace with
        level := "phase"
        mode := if c.isGiven "trace-mode" then trace.mode else "stream" }
    else trace
  { s with
    pass := { s.pass with
      perfHints := truth "perf-hints" s.pass.perfHints
      cycleWarnings := truth "cycle-warnings" s.pass.cycleWarnings }
    run := {
      workers := number "workers" s.run.workers
      maxDiagnostics := number "max-diagnostics" s.run.maxDiagnostics }
    trace }

variable {m : Type → Type} [Monad m] [World m]

def colored (c : CommandLine) (channel : Channel) : CommandM m Bool := do
  let found := c.text "color"
  let w := found.lower
  if w = "on" || w = "always" then return true
  else if w = "off" || w = "never" then return false
  else if w = "auto" || w.isEmpty then
    return !(← World.isPlain) && (← World.isScreen channel)
  else CommandM.fail (.color found)

def checkDisplay (c : CommandLine) : CommandM m Unit := do
  let found := c.text "ui"
  let known : List Text := ["", "auto", "on", "off"]
  if !known.contains found.lower.trim then CommandM.fail (.display found)

def effective (c : CommandLine) : CommandM m Effective := do
  let path := c.text "config"
  let loaded ← if path.isEmpty then Settings.discover "." else Settings.load path
  let settings := c.override (← CommandM.orFail .settings loaded)
  if !settings.problems.isEmpty then
    CommandM.fail (.settings (.invalid none settings.problems))
  let colored ← c.colored .err
  c.checkDisplay
  return { settings, colored, timings := c.truth "timings" }

end CommandLine

end Lifecycle
