import Lifecycle.Trace.Event

/-!
# Keeping a log

A `TraceLog` numbers the events and the spans of one run from one and keeps the events that its
level admits, in order.
-/

namespace Lifecycle

structure TraceLog where
  level : TraceLevel := .off
  events : List TraceEvent := []
  seq : UInt64 := 0
  spans : UInt64 := 0

/-- A span that was begun; one that the level does not admit has number 0 and leaves no trace. -/
structure TraceSpan where
  id : UInt64 := 0
  parent : UInt64 := 0
  scope : TraceScope := {}
  name : Text := Text.empty
  extra : Dict Text Text := {}

def TraceSpan.note (s : TraceSpan) (key value : Text) : TraceSpan :=
  if s.id = 0 then s else { s with extra := s.extra.insert key value }

namespace TraceLog

def emit (l : TraceLog) (e : TraceEvent) : TraceLog :=
  let seq := l.seq + 1
  { l with seq, events := l.events ++ [{ e with seq }] }

def begin (l : TraceLog) (scope : TraceScope) (name : Text) (parent : UInt64) :
    TraceSpan × TraceLog :=
  if l.level.admits scope then
    let id := l.spans + 1
    ({ id, parent, scope, name },
      { l with spans := id }.emit { kind := .spanBegin, scope, span := id, parent, name })
  else ({}, l)

def finish (l : TraceLog) (s : TraceSpan) (detail : Text) : TraceLog :=
  if s.id = 0 then l
  else
    l.emit { kind := .spanEnd, scope := s.scope, span := s.id, parent := s.parent, name := s.name
             detail, extra := s.extra }

def point (l : TraceLog) (scope : TraceScope) (name : Text) (parent : UInt64) (detail : Text) :
    TraceLog :=
  if l.level.admits scope then l.emit { kind := .point, scope, parent, name, detail } else l

def newest (l : TraceLog) (capacity : Nat) : List TraceEvent :=
  l.events.drop (l.events.length - capacity)

end TraceLog

end Lifecycle
