import Lifecycle.Source.Span

/-!
# Diagnostics

A diagnostic has a severity, a code, a message, a position and notes. A `Bag` collects them up to a
limit.
-/

namespace Lifecycle

inductive Severity where
  | hint
  | warning
  | error
  | other (code : UInt8) (beyond : 2 < code)
deriving DecidableEq

namespace Severity

def named : List Severity := [.hint, .warning, .error]

def code : Severity → UInt8
  | .hint => 0
  | .warning => 1
  | .error => 2
  | .other c _ => c

def ofCode (c : UInt8) : Severity :=
  if h : 2 < c then .other c h else (named[c.toNat]?).getD .hint

def text : Severity → Text
  | .hint => "HINT"
  | .warning => "WARNING"
  | .error => "ERROR"
  | .other _ _ => "UNKNOWN"

end Severity

structure DiagCode where
  num : UInt16 := 0
deriving DecidableEq

namespace DiagCode

def opUnavailable : DiagCode := ⟨5001⟩

def opMissing : DiagCode := ⟨5002⟩

def opGeneric : DiagCode := ⟨5003⟩

def discriminantDestructor : DiagCode := ⟨5004⟩

def openArraySinkCopy : DiagCode := ⟨5005⟩

def implicitCopy : DiagCode := ⟨5100⟩

def cycleCreated : DiagCode := ⟨5101⟩

def internal : DiagCode := ⟨5900⟩

def title? (c : DiagCode) : Option Text :=
  match c.num with
  | 5000 => some "destructor pass information"
  | 5001 => some "lifecycle operator is not available"
  | 5002 => some "lifecycle operator not found"
  | 5003 => some "lifecycle operator is still generic"
  | 5004 => some "discriminant assignment with user destructor"
  | 5005 => some "implicit openArray copy into sink parameter"
  | 5100 => some "implicit copy into sink parameter"
  | 5101 => some "assignment creates a reference cycle"
  | 5900 => some "internal destructor pass error"
  | _ => none

def title (c : DiagCode) : Text := c.title?.getD "unknown error"

def id (c : DiagCode) : Text :=
  if c.title?.isSome then "DTR" ++ Text.ofNat c.num.toNat else "E0000"

def text (c : DiagCode) : Text := "[" ++ c.id ++ "]: " ++ c.title

end DiagCode

structure DiagNote where
  span : Span
  message : Text
deriving DecidableEq

structure Diagnostic where
  severity : Severity := .hint
  code : DiagCode := {}
  message : Text := Text.empty
  primary : Span := {}
  notes : List DiagNote := []
deriving DecidableEq

namespace Diagnostic

def addNote (d : Diagnostic) (span : Span) (message : Text) : Diagnostic :=
  { d with notes := d.notes ++ [⟨span, message⟩] }

def sameReport (a b : Diagnostic) : Bool :=
  a.code = b.code && a.severity = b.severity && a.primary = b.primary && a.message = b.message

def before (a b : Diagnostic) : Bool :=
  if a.primary ≠ b.primary then a.primary.before b.primary
  else if a.severity ≠ b.severity then b.severity.code < a.severity.code
  else a.code.num < b.code.num

end Diagnostic

def withoutRepeats (ds : List Diagnostic) : List Diagnostic :=
  go [] ds
where
  go (seen : List Diagnostic) : List Diagnostic → List Diagnostic
    | [] => []
    | d :: ds => if seen.any (·.sameReport d) then go seen ds else d :: go (d :: seen) ds

structure Bag where
  items : List Diagnostic := []
  limit : UInt16
deriving DecidableEq

namespace Bag

def new (limit : Int) : Bag :=
  ⟨[], if 0 ≤ limit ∧ limit < 65536 then .ofNat limit.toNat else 65535⟩

def size (b : Bag) : Nat := b.items.length

def add (b : Bag) (d : Diagnostic) : Bool × Bag :=
  if b.limit.toNat ≤ b.size then (false, b) else (true, { b with items := b.items ++ [d] })

def addAll (b : Bag) (ds : List Diagnostic) : Bag := ds.foldl (fun b d => (b.add d).2) b

def merge (b other : Bag) : Bag := b.addAll other.items

def hasErrors (b : Bag) : Bool := b.items.any (2 ≤ ·.severity.code)

def hasWarnings (b : Bag) : Bool := b.items.any (1 ≤ ·.severity.code)

def sort (b : Bag) : Bag := { b with items := b.items.mergeSort fun x y => !y.before x }

/-- What `dedup` compares: the identity of the code, the position and the message as one text. -/
def dedupKey (d : Diagnostic) : Text := d.code.id ++ ":" ++ d.primary.text ++ ":" ++ d.message

def dedup (b : Bag) : Bag := { b with items := go [] b.items }
where
  go (seen : List Text) : List Diagnostic → List Diagnostic
    | [] => []
    | d :: ds =>
      if seen.contains (dedupKey d) then go seen ds else d :: go (dedupKey d :: seen) ds

end Bag

end Lifecycle
