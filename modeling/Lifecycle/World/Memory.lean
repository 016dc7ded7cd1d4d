import Lifecycle.Dict
import Lifecycle.Output
import Lifecycle.Source.Path
import Lifecycle.World.Basic

/-!
# A world in memory

A `Disk` holds files and directories by their places. A `Machine` has a disk, a working directory
and two channels, and its clock stands still.
-/

namespace Lifecycle

inductive DiskEntry where
  | file (contents : Text)
  | directory

abbrev Place := List (List UInt8)

structure Disk where
  entries : Dict Place DiskEntry := {}

namespace Disk

def entry? (d : Disk) (p : Place) : Option DiskEntry :=
  match d.entries.get? p with
  | some e => some e
  | none => if p.isEmpty || d.entries.keys.any (p.isPrefixOf ·) then some .directory else none

def nameLimit : Nat := 255
def pathLimit : Nat := 4095

/-- Follows names from a place. Every name but the last has to lead to a directory; what the last
one leads to need not exist. -/
def walk (d : Disk) (here : Place) : List (List UInt8) → Except FileFault Place
  | [] => .ok here
  | s :: rest =>
    match d.entry? here with
    | none => .error .missing
    | some (.file _) => .error .notDirectory
    | some .directory =>
      if nameLimit < s.length then .error .tooLong
      else if s.isEmpty || s = Path.dot then d.walk here rest
      else if s = Path.dotdot then d.walk here.dropLast rest
      else d.walk (here ++ [s]) rest

def locate (d : Disk) (dir path : Text) : Except FileFault Place :=
  if path.isEmpty then .error .missing
  else if path.toList.contains 0 then .error .invalid
  else if pathLimit < path.size then .error .tooLong
  else
    d.walk (if Path.isAbsolute path then [] else Path.cleanSegments dir)
      (Text.pieces Path.slash path.toList)

def find (d : Disk) (dir path : Text) : Except FileFault DiskEntry := do
  match d.entry? (← d.locate dir path) with
  | some e => return e
  | none => throw .missing

def read (d : Disk) (dir path : Text) : Except FileError Text :=
  match d.find dir path with
  | .ok (.file t) => .ok t
  | .ok .directory => .error ⟨"read", path, .isDirectory⟩
  | .error fault => .error ⟨"open", path, fault⟩

def save (d : Disk) (dir path contents : Text) : Except FileFault Disk := do
  let slash : Bool := path.endsWith "/"
  let names := (path.toList.reverse.dropWhile (· = Path.slash)).reverse
  let place ← d.locate dir (if slash && !names.isEmpty then .ofList names else path)
  match d.entry? place with
  | some .directory => throw .isDirectory
  | _ => if slash then throw .isDirectory else return ⟨d.entries.insert place (.file contents)⟩

def erase (d : Disk) (dir path : Text) : Disk :=
  match d.locate dir path with
  | .ok place => ⟨⟨d.entries.entries.filter (·.1 ≠ place)⟩⟩
  | .error _ => d

def move (d : Disk) (dir source target : Text) : Except FileFault Disk := do
  match d.find dir source, d.find dir target with
  | .error fault, _ => throw fault
  | _, .ok .directory => throw .taken
  | .ok .directory, _ => throw .notDirectory
  | .ok (.file t), _ => (d.erase dir source).save dir target t

end Disk

structure Machine where
  disk : Disk := {}
  workDir : Text := "/"
  out : Output := {}
  err : Output := {}
  isPlain : Bool := false
  isCalledOff : Bool := false

namespace Machine

abbrev Run := StateM Machine

def write (c : Channel) (t : Text) : Run Bool := do
  let s ← get
  match c with
  | .out =>
    let (ok, out) := s.out.write t
    set { s with out }
    return ok
  | .err =>
    let (ok, err) := s.err.write t
    set { s with err }
    return ok
  | .log => return true

def change (f : Disk → Text → Except FileFault Disk) : Run (Except FileFault Unit) := do
  let s ← get
  match f s.disk s.workDir with
  | .ok disk =>
    set { s with disk }
    return .ok ()
  | .error fault => return .error fault

instance : World Run where
  write := write
  isScreen _ := return false
  isPlain := return (← get).isPlain
  now := return 0
  isCalledOff := return (← get).isCalledOff
  workDir := return (← get).workDir
  freshMark := return "N"
  look path := return ((← get).disk.find (← get).workDir path).map fun _ => ()
  read path := return (← get).disk.read (← get).workDir path
  save path contents := change fun d dir => d.save dir path contents
  move source target := change fun d dir => d.move dir source target
  erase path := modify fun s => { s with disk := s.disk.erase s.workDir path }

end Machine

end Lifecycle
