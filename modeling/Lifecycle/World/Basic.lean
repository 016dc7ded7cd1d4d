import Lifecycle.Text

/-!
# The world around the program

A program reads and writes files, writes to its channels and asks for the time. `World m` says what
a monad `m` has to offer for that.
-/

namespace Lifecycle

inductive FileFault where
  | missing
  | notDirectory
  | isDirectory
  | taken
  | invalid
  | tooLong
  | other (why : Text)
deriving DecidableEq

def FileFault.text : FileFault → Text
  | .missing => "no such file or directory"
  | .notDirectory => "not a directory"
  | .isDirectory => "is a directory"
  | .taken => "file exists"
  | .invalid => "invalid argument"
  | .tooLong => "file name too long"
  | .other why => why

structure FileError where
  action : Text
  path : Text
  fault : FileFault
deriving DecidableEq

def FileError.text (e : FileError) : Text := e.action ++ " " ++ e.path ++ ": " ++ e.fault.text

/-- Where a program writes. The log stays with the program when the other two are led elsewhere. -/
inductive Channel where
  | out
  | err
  | log
deriving DecidableEq

class World (m : Type → Type) where
  write : Channel → Text → m Bool
  isScreen : Channel → m Bool
  isPlain : m Bool
  now : m Nat
  isCalledOff : m Bool
  workDir : m Text
  freshMark : m Text
  look : Text → m (Except FileFault Unit)
  read : Text → m (Except FileError Text)
  save : Text → Text → m (Except FileFault Unit)
  move : Text → Text → m (Except FileFault Unit)
  erase : Text → m Unit

instance {ε : Type} {m : Type → Type} [Monad m] [World m] : World (ExceptT ε m) where
  write c t := ExceptT.lift (World.write c t)
  isScreen c := ExceptT.lift (World.isScreen c)
  isPlain := ExceptT.lift World.isPlain
  now := ExceptT.lift World.now
  isCalledOff := ExceptT.lift World.isCalledOff
  workDir := ExceptT.lift World.workDir
  freshMark := ExceptT.lift World.freshMark
  look path := ExceptT.lift (World.look path)
  read path := ExceptT.lift (World.read path)
  save path contents := ExceptT.lift (World.save path contents)
  move source target := ExceptT.lift (World.move source target)
  erase path := ExceptT.lift (World.erase path)

end Lifecycle
