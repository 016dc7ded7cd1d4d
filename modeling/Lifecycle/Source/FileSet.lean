import Lifecycle.Source.Path
import Lifecycle.Source.Span

/-!
# File sets

Spans name files by number. A `FileSet` gives each cleaned path one number, in the order in which
the paths first came.
-/

namespace Lifecycle

structure FileSet where
  paths : List Text := []
deriving DecidableEq

namespace FileSet

def add (fs : FileSet) (path : Text) : UInt32 × FileSet :=
  let p := Path.clean path
  match fs.paths.findIdx? (· = p) with
  | some i => (.ofNat i, fs)
  | none => (.ofNat fs.paths.length, ⟨fs.paths ++ [p]⟩)

def ofList (paths : List Text) : FileSet := paths.foldl (fun fs p => (fs.add p).2) {}

def size (fs : FileSet) : Nat := fs.paths.length

def path (fs : FileSet) (id : UInt32) : Text := (fs.paths[id.toNat]?).getD "<unknown>"

def format (fs : FileSet) (s : Span) : Text :=
  if s.isUnknown then fs.path s.file
  else fs.path s.file ++ ":" ++ Text.ofNat s.line.toNat ++ ":" ++ Text.ofNat s.col.toNat

end FileSet

end Lifecycle
