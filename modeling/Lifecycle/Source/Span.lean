import Lifecycle.Text

/-!
# Positions

A `Span` is a file, a line and a column. Lines count from one; line zero means that the position
is not known.
-/

namespace Lifecycle

structure Span where
  file : UInt32 := 0
  line : UInt32 := 0
  col : UInt32 := 0
deriving DecidableEq

namespace Span

def isUnknown (s : Span) : Bool := s.line == 0

def before (s t : Span) : Bool :=
  if s.file ≠ t.file then s.file < t.file
  else if s.line ≠ t.line then s.line < t.line
  else s.col < t.col

def orElse (s fallback : Span) : Span := if s.isUnknown then fallback else s

def text (s : Span) : Text :=
  if s.isUnknown then "?"
  else Text.ofNat s.file.toNat ++ ":" ++ Text.ofNat s.line.toNat ++ ":" ++ Text.ofNat s.col.toNat

end Span

end Lifecycle
