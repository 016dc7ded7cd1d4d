import Lifecycle.Text

/-!
# Output

An `Output` holds the text that was written to it. It may take only a number of writes; all later
ones are refused. A `BufferedOutput` gathers what is written and passes it on in larger pieces.
-/

namespace Lifecycle

structure Output where
  text : Text := Text.empty
  room : Option Nat := none

namespace Output

def refusal : Text := "write refused"

def write (o : Output) (t : Text) : Bool × Output :=
  match o.room with
  | none => (true, { o with text := o.text ++ t })
  | some 0 => (false, o)
  | some (n + 1) => (true, { text := o.text ++ t, room := some n })

def writeAll (o : Output) : List Text → Bool × Output
  | [] => (true, o)
  | t :: ts =>
    match o.write t with
    | (true, o) => o.writeAll ts
    | (false, o) => (false, o)

end Output

structure BufferedOutput where
  dest : Output := {}
  held : List UInt8 := []
  refused : Bool := false

namespace BufferedOutput

def capacity : Nat := 4096

def flush (b : BufferedOutput) : Bool × BufferedOutput :=
  if b.refused then (false, b)
  else if b.held.isEmpty then (true, b)
  else
    match b.dest.write (.ofList b.held) with
    | (true, dest) => (true, { b with dest, held := [] })
    | (false, dest) => (false, { b with dest, refused := true })

def hold (b : BufferedOutput) (bytes : List UInt8) : BufferedOutput :=
  { b with held := b.held ++ bytes }

/-- Fills the buffer to the brim before it is passed on. What is larger than an empty buffer goes
past it, and at most one piece of a write can be left over for that. -/
def write (b : BufferedOutput) (t : Text) : Bool × BufferedOutput :=
  let bytes := t.toList
  let direct (b : BufferedOutput) (bytes : List UInt8) : Bool × BufferedOutput :=
    if bytes.length ≤ capacity then (true, b.hold bytes)
    else
      match b.dest.write (.ofList bytes) with
      | (true, dest) => (true, { b with dest })
      | (false, dest) => (false, { b with dest, refused := true })
  if b.refused then (false, b)
  else if b.held.isEmpty then direct b bytes
  else if bytes.length ≤ capacity - b.held.length then (true, b.hold bytes)
  else
    let n := capacity - b.held.length
    match (b.hold (bytes.take n)).flush with
    | (true, b) => direct b (bytes.drop n)
    | (false, b) => (false, b)

end BufferedOutput

end Lifecycle
