import Lifecycle.Fault
import Lifecycle.Timing.Binary

/-!
# Timings

A `Timer` holds the phases of a run with their starts and durations in nanoseconds. Its report lists
them in the order of their starts, in milliseconds.
-/

namespace Lifecycle

structure Millis where
  negative : Bool := false
  size : Binary := {}
deriving DecidableEq

namespace Millis

def ofNanos (n : Int64) : Millis :=
  let count := Binary.ofQuotient n.toInt.natAbs 1
  ⟨n < 0, Binary.ofQuotient count.num (count.den * 1000000)⟩

def text (places : Nat) (m : Millis) : Text :=
  (if m.negative then "-" else "" : Text) ++ m.size.fixed places

def lt (a b : Millis) : Bool :=
  match a.negative, b.negative with
  | false, false => a.size.lt b.size
  | true, true => b.size.lt a.size
  | true, false => true
  | false, true => false

end Millis

structure Phase where
  name : Text
  start : Int
  duration : Int64
  note : Text := Text.empty

def Phase.millis (p : Phase) : Millis := .ofNanos p.duration

structure TimingReport where
  total : Millis := {}
  wall : Millis := {}
  phases : List Phase := []

def clampNanos (n : Int) : Int64 :=
  .ofInt (max Int64.minValue.toInt (min Int64.maxValue.toInt n))

structure Timer where
  phases : List Phase := []

namespace Timer

def record (t : Timer) (p : Phase) : Timer := ⟨t.phases ++ [p]⟩

def report (t : Timer) : TimingReport :=
  match t.phases.mergeSort fun a b => a.start ≤ b.start with
  | [] => {}
  | first :: rest =>
    let phases := first :: rest
    let last := phases.foldl (fun e p => max e (p.start + p.duration.toInt)) first.start
    { total := .ofNanos (phases.foldl (fun s p => s + p.duration) 0)
      wall := .ofNanos (clampNanos (last - first.start)), phases }

def row (name : Text) (m : Millis) (note : Text) : Text :=
  let note : Text := if note.isEmpty then "" else "  // " ++ note
  "  " ++ name.padRight 24 ++ " " ++ (m.text 2).padLeft 8 ++ " ms" ++ note ++ "\n"

def summary (t : Timer) : Text :=
  let r := t.report
  "timings:\n" ++ Text.concat (r.phases.map fun p => row p.name p.millis p.note) ++
    row "wall" r.wall Text.empty

def slowest (t : Timer) (n : Int) : Except Fault (List Phase) :=
  let phases := t.report.phases.mergeSort fun a b => !a.millis.lt b.millis
  if n < 0 then .error .absent else .ok (phases.take n.toNat)

end Timer

end Lifecycle
