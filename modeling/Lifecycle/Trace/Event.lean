import Lifecycle.Dict
import Lifecycle.Json.Value
import Lifecycle.Text.Quoted
import Lifecycle.Trace.Calendar

/-!
# Trace events

What is done to a unit can be followed as a sequence of events: spans that begin and end, and
points. A level says how fine the events are that get through.
-/

namespace Lifecycle

inductive TraceLevel where
  | off
  | error
  | phase
  | detail
  | debug
  | other (code : UInt8) (beyond : 5 ≤ code)
deriving DecidableEq

namespace TraceLevel

def named : List TraceLevel := [.off, .error, .phase, .detail, .debug]

def code : TraceLevel → UInt8
  | .off => 0
  | .error => 1
  | .phase => 2
  | .detail => 3
  | .debug => 4
  | .other c _ => c

def ofCode (c : UInt8) : TraceLevel :=
  if h : 5 ≤ c then .other c h else (named[c.toNat]?).getD .off

def text : TraceLevel → Text
  | .off => "off"
  | .error => "error"
  | .phase => "phase"
  | .detail => "detail"
  | .debug => "debug"
  | .other _ _ => "unknown"

def parse (t : Text) : Except Text TraceLevel :=
  let w := t.lower
  if w.isEmpty then .ok .off
  else
    match named.find? (·.text = w) with
    | some l => .ok l
    | none =>
      .error ("invalid trace level: " ++ t.quoted ++ " (expected: off|error|phase|detail|debug)")

def isOn (l : TraceLevel) : Bool := l ≠ .off

end TraceLevel

structure TraceScope where
  code : UInt8 := 0
deriving DecidableEq

namespace TraceScope

def driver : TraceScope := ⟨1⟩

def pass : TraceScope := ⟨2⟩

def routine : TraceScope := ⟨3⟩

def node : TraceScope := ⟨4⟩

def text (s : TraceScope) : Text :=
  match s.code with
  | 1 => "driver"
  | 2 => "pass"
  | 3 => "routine"
  | 4 => "node"
  | _ => "unknown"

end TraceScope

def TraceLevel.admits (l : TraceLevel) (s : TraceScope) : Bool :=
  match l with
  | .off | .other _ _ => false
  | .error | .debug => true
  | .phase => s.code ≤ TraceScope.pass.code
  | .detail => s.code ≤ TraceScope.routine.code

structure EventKind where
  code : UInt8 := 0
deriving DecidableEq

namespace EventKind

def spanBegin : EventKind := ⟨1⟩

def spanEnd : EventKind := ⟨2⟩

def point : EventKind := ⟨3⟩

def heartbeat : EventKind := ⟨4⟩

def text (k : EventKind) : Text :=
  match k.code with
  | 1 => "begin"
  | 2 => "end"
  | 3 => "point"
  | 4 => "heartbeat"
  | _ => "unknown"

def mark (k : EventKind) : Text :=
  match k.code with
  | 1 => "→ "
  | 2 => "← "
  | 3 => "• "
  | 4 => "♡ "
  | _ => ""

end EventKind

structure TraceEvent where
  time : Instant := {}
  seq : UInt64 := 0
  kind : EventKind := {}
  scope : TraceScope := {}
  span : UInt64 := 0
  parent : UInt64 := 0
  thread : UInt64 := 0
  name : Text := Text.empty
  detail : Text := Text.empty
  extra : Dict Text Text := {}

inductive TraceFormat where
  | auto
  | text
  | ndjson
deriving DecidableEq

namespace TraceFormat

def code : TraceFormat → Nat
  | .auto => 0
  | .text => 1
  | .ndjson => 2

def parse (t : Text) : Except Text TraceFormat :=
  let w := t.lower
  if w.isEmpty || w = "auto" then .ok .auto
  else if w = "text" then .ok .text
  else if w = "ndjson" || w = "json" then .ok .ndjson
  else .error ("invalid trace format: " ++ t.quoted ++ " (expected: auto|text|ndjson)")

end TraceFormat

namespace TraceEvent

def facts (e : TraceEvent) : List (Text × Text) :=
  e.extra.entries.mergeSort fun a b => !Text.lt b.1 a.1

def line (e : TraceEvent) : Text :=
  let head := "[" ++ (Text.ofNat e.seq.toNat).padLeft 6 ++ "] " ++ e.scope.text.padRight 7 ++ " "
  let nesting : Text := if e.parent = 0 then "" else "  "
  let detail : Text := if e.detail.isEmpty then "" else " (" ++ e.detail ++ ")"
  let extra : Text := if e.extra.entries.isEmpty then ""
    else " \x7b" ++ Text.join ", " (e.facts.map fun (k, v) => k ++ "=" ++ v) ++ "\x7d"
  head ++ nesting ++ e.kind.mark ++ e.name ++ detail ++ extra ++ "\n"

def json (e : TraceEvent) : Text :=
  let number (k : Text) (n : UInt64) : List (Text × JsonValue) :=
    if n = 0 then [] else [(k, .num n.toNat)]
  let detail : List (Text × JsonValue) :=
    if e.detail.isEmpty then [] else [("detail", .str e.detail)]
  let extra : List (Text × JsonValue) := if e.extra.entries.isEmpty then []
    else [("extra", .obj (e.facts.map fun (k, v) => (k, .str v)))]
  let start : List (Text × JsonValue) := [("time", .str e.time.text), ("seq", .num e.seq.toNat),
    ("kind", .str e.kind.text), ("scope", .str e.scope.text)]
  let name : List (Text × JsonValue) := [("name", .str e.name)]
  let fields := start ++ number "span_id" e.span ++ number "parent_id" e.parent ++
    number "gid" e.thread ++ name ++ detail ++ extra
  (JsonValue.obj fields).compact ++ "\n"

def text (f : TraceFormat) (e : TraceEvent) : Text :=
  if f = .ndjson then e.json else e.line

end TraceEvent

end Lifecycle
