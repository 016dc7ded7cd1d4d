import Lifecycle.Command.Line
import Lifecycle.CompUnit.Run
import Lifecycle.Settings.Load

/-!
# Commands

A command works in a `World`. It ends well, or with a `CommandError`, which the user is told, or
with a fault, which is none of the user's making.
-/

namespace Lifecycle

inductive SaveError where
  | file (e : FileError)
  | encode (e : EncodeError)
  | move (source target : Text) (fault : FileFault)

def SaveError.text : SaveError → Text
  | .file e => e.text
  | .encode e => e.message
  | .move source target fault => "rename " ++ source ++ " " ++ target ++ ": " ++ fault.text

inductive CommandError where
  | usage (e : UsageError)
  | settings (e : SettingsError)
  | format (found allowed : Text)
  | color (found : Text)
  | display (found : Text)
  | trace (e : FileError)
  | profile (e : FileError)
  | unopened (e : FileError)
  | unread (e : FileError)
  | undecoded (path : Text) (e : DecodeError)
  | unsaved (path : Text) (e : SaveError)
  | noRoutine (path name : Text)
  | noMatch (names : List Text)
  | stopped (why : Text)
  | refused
  | failed (count all : Nat)

def CommandError.message : CommandError → Text
  | .usage e => e.message Release.tool
  | .settings e => e.message
  | .format found allowed => "unsupported format " ++ found.quoted ++ " (must be " ++ allowed ++ ")"
  | .color found => "invalid --color value " ++ found.quoted ++ " (expected auto|on|off)"
  | .display found => "invalid --ui value " ++ found.quoted ++ " (expected auto|on|off)"
  | .trace e => "failed to create tracer: failed to open trace output: " ++ e.text
  | .profile e => "failed to start profiling: " ++ e.text
  | .unopened e => e.text
  | .unread e => e.path ++ ": unit: decode: " ++ e.text
  | .undecoded path e => path ++ ": " ++ e.message
  | .unsaved path e => "failed to write " ++ path ++ ": " ++ e.text
  | .noRoutine path name => path ++ ": no routine " ++ name.quoted
  | .noMatch names => "no routine matched " ++ Text.join ", " names
  | .stopped why => why
  | .refused => Output.refusal
  | .failed count all => Text.ofNat count ++ " of " ++ Text.ofNat all ++ " routines failed"

inductive Halt where
  | error (e : CommandError)
  | fault (f : Fault)

abbrev CommandM (m : Type → Type) := ExceptT Halt m

namespace CommandM

variable {m : Type → Type} [Monad m] [World m]

def fail {α : Type} (e : CommandError) : CommandM m α := throw (.error e)

def orFail {ε α : Type} (cause : ε → CommandError) : Except ε α → CommandM m α
  | .ok a => return a
  | .error e => fail (cause e)

def orFault {α : Type} : Except Fault α → CommandM m α
  | .ok a => return a
  | .error f => throw (.fault f)

def say (c : Channel) (t : Text) : CommandM m Unit := do
  if !(← World.write c t) then fail .refused

def mention (c : Channel) (t : Text) : CommandM m Unit := do
  let _ ← World.write c t

def tryAll (c : Channel) : List Text → CommandM m Bool
  | [] => return true
  | t :: ts => do
    if ← World.write c t then tryAll c ts else return false

def create (path : Text) (cause : FileError → CommandError) : CommandM m Unit := do
  match ← World.save path Text.empty with
  | .ok _ => return
  | .error fault => fail (cause ⟨"open", path, fault⟩)

def finally_ {α : Type} (work : CommandM m α) (after : CommandM m Unit) : CommandM m α := do
  let r ← (ExceptT.lift work.run : CommandM m (Except Halt α))
  after
  match r with
  | .ok a => return a
  | .error h => throw h

end CommandM

end Lifecycle
