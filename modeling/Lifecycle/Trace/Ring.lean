import Lifecycle.Fault
import Lifecycle.Trace.Event

/-!
# Rings of events

A `Ring` has a fixed number of slots. Once they are full, an event takes the slot of the oldest one.
Slots that were never written are left out: `slots` and `oldest` stand for slots that are all there
from the start, a head where the next event goes, and a mark that they are full. They are full when
`slots` has as many as the capacity; the head is `slots.size` before that and `oldest` from then on.
-/

namespace Lifecycle

def TraceLevel.keeps (l : TraceLevel) (e : TraceEvent) : Bool :=
  l.admits e.scope || e.kind = .heartbeat

structure Ring where
  level : TraceLevel := .off
  capacity : Nat := 4096
  slots : Array TraceEvent := #[]
  oldest : Nat := 0

namespace Ring

def usualCapacity : Nat := 4096

def slotBytes : Nat := 104

def allBytes : Nat := 281474976710656

def new (capacity : Int) (level : TraceLevel) : Except Fault Ring :=
  let capacity := if 0 < capacity then capacity.toNat else usualCapacity
  if allBytes < slotBytes * capacity then .error .noRoom else .ok { level, capacity }

def store (r : Ring) (e : TraceEvent) : Ring :=
  if r.slots.size < r.capacity then { r with slots := r.slots.push e }
  else
    { r with slots := r.slots.setIfInBounds r.oldest e, oldest := (r.oldest + 1) % r.capacity }

def emit (r : Ring) (e : TraceEvent) : Ring := if r.level.keeps e then r.store e else r

def emitAll (r : Ring) (es : List TraceEvent) : Ring := es.foldl emit r

def snapshot (r : Ring) : List TraceEvent :=
  r.slots.toList.drop r.oldest ++ r.slots.toList.take r.oldest

end Ring

end Lifecycle
