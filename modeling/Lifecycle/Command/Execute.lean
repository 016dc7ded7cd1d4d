import Lifecycle.Command.Suggest
import Lifecycle.Command.Work

/-!
# The program

`Program.execute` runs the program on arguments. Errors are told on the error channel and returned.
-/

namespace Lifecycle

namespace Program

variable {m : Type → Type} [Monad m] [World m]

/-- Does what a command line asks for. No scripts for shells are kept, so none is written. -/
def perform (release : Release) (c : CommandLine) : CommandM m Unit := do
  if c.truth "help" then CommandLine.printHelp c.verb
  else if c.verb.isNone && c.truth "version" then
    CommandM.say .out (Release.tool ++ " version " ++ release.version ++ "\n")
  else
    CommandM.orFail .usage c.checkCount
    match c.verb, c.args with
    | some .run, [path] => c.run path
    | some .expand, path :: names => c.expand path names
    | some .graph, [path, name] => CommandLine.graph path name
    | some .version, _ => c.version release
    | some .help, args => CommandLine.helpOn args
    | some (.script _), _ => return
    | verb, _ => CommandLine.printHelp verb

def execute (release : Release) (arguments : List Text) : m (Except Halt Unit) := do
  let work : CommandM m Unit := do
    match CommandLine.choose arguments with
    | .error e => CommandM.fail (.usage e)
    | .ok (some (.suggest described), rest) => CommandLine.suggest described rest
    | .ok (verb, rest) => perform release (← CommandM.orFail .usage (CommandLine.read verb rest))
  let r ← work.run
  if let .error (.error e) := r then
    let _ ← World.write .err ("Error: " ++ e.message ++ "\n")
    if let .usage (.unknownCommand _ _) := e then
      let _ ← World.write .err ("Run '" ++ Release.tool ++ " --help' for usage.\n")
  return r

end Program

end Lifecycle
