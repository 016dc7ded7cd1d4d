import Lifecycle.Command.Flag
import Lifecycle.Command.Shell

/-!
# The command line

The program has commands, each with flags of its own beside those that all of them share.
`CommandLine.parse` is the whole way from arguments to a command with values.
-/

namespace Lifecycle

inductive Verb where
  | run
  | expand
  | graph
  | version
  | completion
  | script (shell : Shell)
  | help
  | suggest (described : Bool)
deriving DecidableEq

namespace Verb

def name : Verb → Text
  | .run => "run"
  | .expand => "expand"
  | .graph => "cfg"
  | .version => "version"
  | .completion => "completion"
  | .script shell => shell.name
  | .help => "help"
  | .suggest described => if described then "__complete" else "__completeNoDesc"

def offered : List Verb := [.run, .expand, .graph, .version, .completion]

def all : List Verb := offered ++ [.help, .suggest true, .suggest false]

def ofText? (t : Text) : Option Verb := all.find? (·.name = t)

def ownFlags : Verb → List Flag
  | .run => [
      { name := "out", letter := some 'o', usual := .text ""
        about := "write the rewritten unit to this file" },
      { name := "format", usual := .text "pretty"
        about := "diagnostics format (pretty|short|json)" },
      { name := "quiet", letter := some 'q', usual := .truth false
        about := "do not print rewritten routines" }]
  | .version => [
      { name := "format", usual := .text "pretty", about := "output format (pretty|json)" }]
  | .script _ => [
      { name := "no-descriptions", usual := .truth false
        about := "disable completion descriptions" }]
  | _ => []

end Verb

namespace CommandLine

def sharedFlags : List Flag := [
  { name := "color", usual := .text "auto", about := "colorize output (auto|on|off)" },
  { name := "config", usual := .text ""
    about := "path to dtorpass.toml (default: searched upward from the working directory)" },
  { name := "timings", usual := .truth false, about := "show timing information" },
  { name := "ui", usual := .text "auto", about := "progress display on stderr (auto|on|off)" },
  { name := "max-diagnostics", usual := .number 100
    about := "maximum number of diagnostics per routine" },
  { name := "workers", usual := .number 0
    about := "routines rewritten in parallel (0 = GOMAXPROCS)" },
  { name := "perf-hints", usual := .truth true
    about := "report implicit copies into sink parameters" },
  { name := "cycle-warnings", usual := .truth true
    about := "report assignments that create reference cycles" },
  { name := "trace", usual := .text "", about := "trace output file (- for stderr)" },
  { name := "trace-level", usual := .text "off"
    about := "trace level (off|error|phase|detail|debug)" },
  { name := "trace-mode", usual := .text "ring", about := "trace storage (stream|ring|both)" },
  { name := "trace-format", usual := .text "auto", about := "trace format (auto|text|ndjson)" },
  { name := "trace-ring-size", usual := .number 4096, about := "ring buffer capacity in events" },
  { name := "trace-heartbeat", usual := .duration 0
    about := "emit heartbeat events at this interval (0 = off)" },
  { name := "cpu-profile", usual := .text "", about := "write a CPU profile to this file" },
  { name := "mem-profile", usual := .text ""
    about := "write a heap profile to this file on exit" },
  { name := "runtime-trace", usual := .text ""
    about := "write a Go runtime execution trace to this file" }]

def title : Option Verb → Text
  | none => Release.tool
  | some v => v.name

def localFlags (verb : Option Verb) : List Flag :=
  let help : Flag :=
    { name := "help", letter := some 'h', usual := .truth false,
      about := "help for " ++ title verb }
  let version : Flag :=
    { name := "version", letter := some 'v', usual := .truth false
      about := "version for " ++ Release.tool }
  match verb with
  | none => [help, version]
  | some v => v.ownFlags ++ [help]

/-! ## The command among the arguments -/

/-- Whether an argument is a flag whose value is the next one. Before the command is known only the
shared flags are; of any other flag a value is expected. -/
def takesNext (argument : Text) : Bool :=
  let bs := argument.toList
  let switch (p : Flag → Bool) : Bool := sharedFlags.any fun f => p f && f.isSwitch
  !bs.contains 61 &&
    match bs with
    | 45 :: 45 :: name => !switch (·.name = Text.ofList name)
    | [45, b] => !switch (·.letter = some (Char.ofNat b.toNat))
    | _ => false

def isDashed (argument : Text) : Bool := argument.toList.head? = some 45

def firstPlain? : List Text → Option Text
  | [] => none
  | a :: rest =>
    if a = "--" then none
    else if takesNext a then
      match rest with
      | _ :: next :: more => firstPlain? (next :: more)
      | _ => none
    else if a.isEmpty || isDashed a then firstPlain? rest
    else some a

def without (name : Text) : List Text → List Text
  | [] => []
  | a :: rest =>
    if a = "--" then a :: rest
    else if takesNext a then
      match rest with
      | [] => [a]
      | value :: more => a :: value :: without name more
    else if a = name && !isDashed a then rest
    else a :: without name rest

/-! ## Commands that may be meant -/

def distance (a b : List UInt8) : Nat :=
  ((a.foldl (fun row x => next row x) (List.range (b.length + 1))).getLast?).getD 0
where
  next (row : List Nat) (x : UInt8) : List Nat :=
    let cells := (b.zip (row.zip (row.drop 1))).foldl (fun done (y, above, right) =>
      let left := done.head?.getD 0
      let best := if x = y then above else 1 + min above (min left right)
      best :: done) [row.head?.getD 0 + 1]
    cells.reverse

def close (word : Text) : List Text :=
  (Verb.offered.map (·.name)).filter fun name =>
    distance word.lower.toList name.toList ≤ 2 || name.startsWith word.lower

end CommandLine

structure CommandLine where
  verb : Option Verb := none
  given : List (Text × FlagValue) := []
  args : List Text := []

namespace CommandLine

def flags (verb : Option Verb) : List Flag := localFlags verb ++ sharedFlags

def chooseBelow (verb : Verb) (arguments : List Text) : Option Verb × List Text :=
  match verb, firstPlain? arguments with
  | .completion, some name =>
    match Shell.ofText? name with
    | some shell => (some (.script shell), without name arguments)
    | none => (some verb, arguments)
  | _, _ => (some verb, arguments)

def choose (arguments : List Text) : Except UsageError (Option Verb × List Text) :=
  match firstPlain? arguments with
  | none => .ok (none, arguments)
  | some name =>
    match Verb.ofText? name with
    | some v => .ok (chooseBelow v (without name arguments))
    | none => .error (.unknownCommand name (close name))

def read (verb : Option Verb) (arguments : List Text) : Except UsageError CommandLine := do
  let r ← FlagReading.readAll (flags verb) arguments
  return ⟨verb, r.given, r.args⟩

def isGiven (c : CommandLine) (name : Text) : Bool := (c.given.lookup name).isSome

def value (c : CommandLine) (name : Text) : Option FlagValue :=
  c.given.lookup name <|> ((flags c.verb).find? (·.name = name)).map (·.usual)

def text (c : CommandLine) (name : Text) : Text :=
  match c.value name with
  | some (.text t) => t
  | _ => Text.empty

def truth (c : CommandLine) (name : Text) : Bool :=
  match c.value name with
  | some (.truth b) => b
  | _ => false

def number (c : CommandLine) (name : Text) : Int64 :=
  match c.value name with
  | some (.number n) => n
  | _ => 0

def calledAs : Option Verb → Text
  | none => Release.tool
  | some (.script shell) => shell.call
  | some v => Release.tool ++ " " ++ v.name

def checkCount (c : CommandLine) : Except UsageError Unit :=
  let n := c.args.length
  let exactly (wanted : Nat) : Except UsageError Unit :=
    if n = wanted then .ok () else .error (.wrongCount wanted n)
  match c.verb with
  | some .run => exactly 1
  | some .expand => if 1 ≤ n then .ok () else .error (.tooFew 1 n)
  | some .graph => exactly 2
  | some (.script _) =>
    match c.args with
    | [] => .ok ()
    | word :: _ => .error (.strayWord word (calledAs c.verb))
  | _ => .ok ()

end CommandLine

end Lifecycle
