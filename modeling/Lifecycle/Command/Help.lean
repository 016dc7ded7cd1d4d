import Lifecycle.Command.Basic

/-!
# Help

The help on a command: what it does, how it is called, the commands below it and its flags, in the
order of their names.
-/

namespace Lifecycle

namespace Verb

def arguments : Verb → Text
  | .run => " <unit> [flags]"
  | .expand => " <unit> [routine...] [flags]"
  | .graph => " <unit> <routine> [flags]"
  | .help => " [command] [flags]"
  | .suggest _ => " [command-line]"
  | .script .bash => ""
  | .script _ | .version | .completion => " [flags]"

def about : Verb → Text
  | .run => "Rewrite every routine of a unit"
  | .expand => "Show routines before and after the pass, with their flow graphs"
  | .graph => "Dump the control-flow graph the pass reads for a routine"
  | .version => "Show dtorpass build information"
  | .completion => "Generate the autocompletion script for the specified shell"
  | .script shell => shell.about
  | .help => "Help about any command"
  | .suggest _ => "Request shell completion choices for the specified command-line"

def introduction : Verb → Text
  | .expand =>
    "expand dumps the input tree, the control-flow graph and the rewritten tree\n" ++
      "of the named routines. Without names, [pass].expand from dtorpass.toml is used."
  | .completion =>
    "Generate the autocompletion script for " ++ Release.tool ++ " for the specified shell.\n" ++
      "See each sub-command's help for details on how to use the generated script."
  | .script shell => shell.introduction
  | .help =>
    "Help provides help for any command in the application.\n" ++
      "Simply type " ++ Release.tool ++ " help [path to command] for full details."
  | v => v.about

end Verb

namespace Flag

def signature (f : Flag) : Text :=
  let kind : Text := match f.usual with
    | .text _ => " string"
    | .truth _ => ""
    | .number _ => " int"
    | .duration _ => " duration"
  let letter : Text := match f.letter with
    | some c => "  -" ++ Text.ofChar c ++ ", "
    | none => "      "
  letter ++ "--" ++ f.name ++ kind

def description (f : Flag) : Text :=
  let usual : Text := match f.usual with
    | .text t => if t.isEmpty then "" else " (default " ++ t.quoted ++ ")"
    | .truth b => if b then " (default true)" else ""
    | .number n => if n = 0 then "" else " (default " ++ Text.ofInt n.toInt ++ ")"
    | .duration _ => ""
  f.about ++ usual

def sorted (flags : List Flag) : List Flag := flags.mergeSort fun a b => !Text.lt b.name a.name

def table (flags : List Flag) : Text :=
  let sorted := sorted flags
  let width := (sorted.map (·.signature.size)).foldl max 0
  Text.join "\n" (sorted.map fun f => f.signature.padRight (width + 3) ++ f.description)

end Flag

namespace CommandLine

def below : Option Verb → List (Text × Text)
  | none => [Verb.graph, .completion, .expand, .help, .run, .version].map fun v => (v.name, v.about)
  | some .completion => Shell.all.map fun shell => (shell.name, shell.about)
  | _ => []

def usage (verb : Option Verb) : Text :=
  let commands := below verb
  let line := match verb with
    | some v => if commands.isEmpty then ["\n  " ++ calledAs verb ++ v.arguments] else []
    | none => []
  let more : List Text := if commands.isEmpty then []
    else ["\n  " ++ calledAs verb ++ " [command]", "\n\nAvailable Commands:"] ++
      commands.map fun (name, about) => "\n  " ++ name.padRight 11 ++ " " ++ about
  let flags : List Text := match verb with
    | none => ["\n\nFlags:\n", Flag.table (flags none)]
    | some _ => ["\n\nFlags:\n", Flag.table (localFlags verb), "\n\nGlobal Flags:\n",
        Flag.table sharedFlags]
  let hint : List Text := if commands.isEmpty then []
    else ["\n\nUse \"" ++ calledAs verb ++
      " [command] --help\" for more information about a command."]
  "Usage:" ++ Text.concat (line ++ more ++ flags ++ hint) ++ "\n"

def purpose : Text :=
  Release.tool ++ " reads a type-checked unit and rewrites every routine so that\n" ++
    "owning values are moved, copied or destroyed exactly once on each path."

variable {m : Type → Type} [Monad m] [World m]

def printHelp (verb : Option Verb) : CommandM m Unit := do
  CommandM.mention .out ((verb.map (·.introduction)).getD purpose ++ "\n")
  CommandM.mention .out "\n"
  CommandM.mention .out (usage verb)

def topicText (t : Text) : Text :=
  let odd : Text.Glyph → Bool
    | .char c => c = Char.ofNat 96 || c.toNat < 32 && c ≠ '\t' || c.toNat = 127
    | .stray _ => true
  if t.glyphs.any odd then t.quoted else "\x60" ++ t ++ "\x60"

def helpOn (words : List Text) : CommandM m Unit := do
  match choose words with
  | .ok (none, _) => printHelp none
  | .ok (some v, _) => if isTopic v then printHelp (some v) else unknown
  | .error _ => unknown
where
  isTopic : Verb → Bool
    | .suggest _ => false
    | _ => true
  unknown : CommandM m Unit := do
    CommandM.mention .out
      ("Unknown help topic [" ++ Text.join " " (words.map topicText) ++ "]\n")
    CommandM.mention .out (usage none)

end CommandLine

end Lifecycle
