import Lifecycle.Fault
import Lifecycle.Output
import Lifecycle.Trace.Log
import Lifecycle.Trace.Ring

/-!
# Tracers

A tracer hands events to recorders: rings, which keep the newest events, and streams, which write
them at once. A `TraceHub` holds the recorders, so that several tracers can share one, and numbers
events and spans across all of them.
-/

namespace Lifecycle

inductive StorageMode where
  | stream
  | ring
  | both
  | other (code : UInt8) (beyond : code = 0 ∨ 4 ≤ code)
deriving DecidableEq

namespace StorageMode

def ofCode (c : UInt8) : StorageMode :=
  if h : c = 0 ∨ 4 ≤ c then .other c h
  else if c = 1 then .stream
  else if c = 2 then .ring
  else .both

def text : StorageMode → Text
  | .stream => "stream"
  | .ring => "ring"
  | .both => "both"
  | .other _ _ => "unknown"

def parse (t : Text) : Except Text StorageMode :=
  let w := t.lower
  if w = "stream" then .ok .stream
  else if w = "ring" then .ok .ring
  else if w = "both" then .ok .both
  else .error ("invalid storage mode: " ++ t.quoted ++ " (expected: stream|ring|both)")

end StorageMode

inductive TraceSink where
  | direct (o : Output)
  | buffered (b : BufferedOutput)

namespace TraceSink

def write (s : TraceSink) (t : Text) : Bool × TraceSink :=
  match s with
  | .direct o => let (ok, o) := o.write t; (ok, .direct o)
  | .buffered b => let (ok, b) := b.write t; (ok, .buffered b)

def flush : TraceSink → Bool × TraceSink
  | .direct o => (true, .direct o)
  | .buffered b => let (ok, b) := b.flush; (ok, .buffered b)

def text : TraceSink → Text
  | .direct o => o.text
  | .buffered b => b.dest.text

end TraceSink

structure TraceStream where
  level : TraceLevel
  format : TraceFormat
  sink : TraceSink := .direct {}
  refused : Bool := false

namespace TraceStream

def emit (s : TraceStream) (e : TraceEvent) : TraceStream :=
  if !s.level.keeps e || s.refused then s
  else
    let (ok, sink) := s.sink.write (e.text s.format)
    { s with sink, refused := !ok }

def flush (s : TraceStream) : Bool × TraceStream :=
  if s.refused then (false, s)
  else
    let (ok, sink) := s.sink.flush
    (ok, { s with sink })

end TraceStream

inductive Recorder where
  | ring (r : Ring)
  | stream (s : TraceStream)

namespace Recorder

def emit (e : TraceEvent) : Recorder → Recorder
  | .ring r => .ring (r.emit e)
  | .stream s => .stream (s.emit e)

def flush : Recorder → Bool × Recorder
  | .ring r => (true, .ring r)
  | .stream s => let (ok, s) := s.flush; (ok, .stream s)

def ring? : Recorder → Option Ring
  | .ring r => some r
  | .stream _ => none

def written : Recorder → Text
  | .ring _ => Text.empty
  | .stream s => s.sink.text

/-- Events that are kept show what was noted on their span later, if anything was noted before. -/
def renote (span : UInt64) (extra : Dict Text Text) : Recorder → Recorder
  | .ring r =>
    .ring { r with slots := r.slots.map fun e =>
      if e.span = span && e.kind = .spanEnd && !e.extra.entries.isEmpty then { e with extra }
      else e }
  | .stream s => .stream s

end Recorder

inductive TracerShape where
  | nop
  | ring
  | stream
  | multi
deriving DecidableEq

namespace TracerShape

def text : TracerShape → Text
  | .nop => "trace.nopTracer"
  | .ring => "RingTracer"
  | .stream => "StreamTracer"
  | .multi => "MultiTracer"

end TracerShape

/-- A level and the numbers of recorders; a number that is missing stands for no recorder at all,
which is a fault as soon as it is used. -/
structure Tracer where
  shape : TracerShape := .nop
  level : TraceLevel := .off
  recorders : List (Option Nat) := []

namespace Tracer

def nop : Tracer := {}

def multi (level : TraceLevel) (parts : List (Option Tracer)) : Tracer :=
  ⟨.multi, level, parts.flatMap fun
    | some t => t.recorders
    | none => [none]⟩

end Tracer

structure TraceHub where
  recorders : Array Recorder := #[]
  seq : UInt64 := 0
  spans : UInt64 := 0

abbrev TraceM := EStateM Fault TraceHub

structure TraceSetup where
  level : TraceLevel := .off
  mode : StorageMode := .ring
  format : TraceFormat := .auto
  path : Text := Text.empty
  capacity : Int := 0

namespace TraceSetup

def formatUsed (s : TraceSetup) : TraceFormat :=
  if s.format ≠ .auto then s.format
  else if s.path.endsWith ".ndjson" || s.path.endsWith ".jsonl" then .ndjson
  else .text

def modeUsed (s : TraceSetup) : StorageMode := if s.level = .error then .ring else s.mode

def keeps (s : TraceSetup) : Bool :=
  s.level.isOn && (s.modeUsed = .ring || s.modeUsed = .both)

def writes (s : TraceSetup) : Bool :=
  s.level.isOn && (s.modeUsed = .stream || s.modeUsed = .both)

end TraceSetup

namespace TraceHub

def add (h : TraceHub) (r : Recorder) : Nat × TraceHub :=
  (h.recorders.size, { h with recorders := h.recorders.push r })

def addRing (h : TraceHub) (capacity : Int) (level : TraceLevel) :
    Except Fault (Tracer × TraceHub) := do
  let (i, h) := h.add (.ring (← Ring.new capacity level))
  return (⟨.ring, level, [some i]⟩, h)

def addStream (h : TraceHub) (s : TraceStream) : Tracer × TraceHub :=
  let (i, h) := h.add (.stream s)
  (⟨.stream, s.level, [some i]⟩, h)

def setUp (h : TraceHub) (s : TraceSetup) : Except Fault (Except Text (Tracer × TraceHub)) := do
  let stream : TraceStream := { level := s.level, format := s.formatUsed }
  if !s.level.isOn then return .ok (.nop, h)
  else
    match s.modeUsed with
    | .stream => return .ok (h.addStream stream)
    | .ring => return .ok (← h.addRing s.capacity s.level)
    | .both =>
      let (a, h) := h.addStream stream
      let (b, h) ← h.addRing s.capacity s.level
      return .ok (.multi s.level [some a, some b], h)
    | .other _ _ => return .error ("unknown storage mode: " ++ s.mode.text)

def recordersOf (h : TraceHub) (t : Tracer) : List Recorder :=
  t.recorders.filterMap fun i => i.bind (h.recorders[·]?)

def ring? (h : TraceHub) (t : Tracer) : Option Ring := (h.recordersOf t).findSome? (·.ring?)

def written (h : TraceHub) (t : Tracer) : Text := Text.concat ((h.recordersOf t).map (·.written))

def renote (h : TraceHub) (s : TraceSpan) : TraceHub :=
  { h with recorders := h.recorders.map (·.renote s.id s.extra) }

end TraceHub

namespace TraceM

def each (t : Tracer) (f : Recorder → Bool × Recorder) : TraceM (List Bool) :=
  t.recorders.mapM fun i => do
    let some i := i | throw .absent
    let h ← get
    let some r := h.recorders[i]? | throw .absent
    let (ok, r) := f r
    set { h with recorders := h.recorders.setIfInBounds i r }
    return ok

def emit (t : Tracer) (e : TraceEvent) : TraceM Unit := do
  let _ ← each t fun r => (true, r.emit e)

def flush (t : Tracer) : TraceM Nat := do
  return ((← each t Recorder.flush).filter (!·)).length

def logged {α : Type} (t : Tracer) (work : TraceLog → α × TraceLog) : TraceM α := do
  let h ← get
  let (a, log) := work { level := t.level, seq := h.seq, spans := h.spans }
  set { h with seq := log.seq, spans := log.spans }
  log.events.forM (emit t)
  return a

def beat (t : Tracer) (n : Nat) : TraceM Unit :=
  logged t fun log => ((), log.emit
    { kind := .heartbeat, scope := .driver, name := "heartbeat", detail := "#" ++ Text.ofNat n })

end TraceM

end Lifecycle
