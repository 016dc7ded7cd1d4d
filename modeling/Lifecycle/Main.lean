import Lifecycle.Command.Execute

/-!
# The program on its machine

The world of a running program is its own channels, files and clock. Progress is not displayed, and
no beat falls into a run.
-/

namespace Lifecycle

namespace FileFault

def ofError (e : IO.Error) : FileFault :=
  match e with
  | .noFileOrDirectory _ _ _ => .missing
  | .alreadyExists _ _ _ => .taken
  | .inappropriateType _ code _ =>
    if code = 20 then .notDirectory else if code = 21 then .isDirectory else .other (toString e)
  | .invalidArgument _ code _ => if code = 36 then .tooLong else .invalid
  | _ => .other (toString e)

end FileFault

namespace Program

def attempt {α : Type} (act : IO α) : IO (Except FileFault α) := do
  try
    return .ok (← act)
  catch e => return .error (.ofError e)

def stream : Channel → IO IO.FS.Stream
  | .out => IO.getStdout
  | .err | .log => IO.getStderr

def write (c : Channel) (t : Text) : IO Bool := do
  let r ← attempt do
    let s ← stream c
    s.write t.bytes
    s.flush
  return r.toBool

def read (path : Text) : IO (Except FileError Text) := do
  match ← attempt (IO.FS.readBinFile path.toStringLossy) with
  | .ok bytes => return .ok ⟨bytes⟩
  | .error .isDirectory => return .error ⟨"read", path, .isDirectory⟩
  | .error fault => return .error ⟨"open", path, fault⟩

def move (source target : Text) : IO (Except FileFault Unit) := do
  match ← attempt (IO.FS.rename source.toStringLossy target.toStringLossy) with
  | .error .isDirectory => return .error .taken
  | r => return r

instance : World IO where
  write := write
  isScreen c := do (← stream c).isTty
  isPlain := do return ((← IO.getEnv "NO_COLOR").getD "") ≠ ""
  now := IO.monoNanosNow
  isCalledOff := return false
  workDir := do return .ofString (← IO.currentDir).toString
  freshMark := do return .ofNat (← IO.rand 0 4294967295)
  look path := attempt do
    let _ ← IO.FS.Handle.mk path.toStringLossy .read
  read := read
  save path contents := attempt (IO.FS.writeBinFile path.toStringLossy contents.bytes)
  move := move
  erase path := do
    let _ ← attempt (IO.FS.removeFile path.toStringLossy)

end Program

end Lifecycle

def main (arguments : List String) : IO UInt32 := do
  let r ← Lifecycle.Program.execute {} (arguments.map Lifecycle.Text.ofString)
  match (r : Except Lifecycle.Halt Unit) with
  | .ok _ => return 0
  | .error (.error _) => return 1
  | .error (.fault f) =>
    let _ ← Lifecycle.Program.write .err ("fault: " ++ f.message ++ "\n")
    return 2
