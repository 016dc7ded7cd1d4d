import Lifecycle.Tree.Location

/-!
# Access paths and aliasing

A location expression is a root symbol and a list of steps from it. `Node.aliases obj field` says
whether the storage of `field` lies within that of `obj`; an index that is no literal may be any.
-/

namespace Lifecycle

inductive Access where
  | field (sym : Option SymRef)
  | index (value : Int64)
  | anyIndex
  | deref
deriving DecidableEq

structure AccessPath where
  root : Option SymRef
  steps : List Access
deriving DecidableEq

inductive Alias where
  | no
  | yes
  | maybe
deriving DecidableEq

def Alias.text : Alias → Text
  | .no => "no"
  | .yes => "yes"
  | .maybe => "maybe"

namespace Access

def isIndex : Access → Bool
  | .index _ | .anyIndex => true
  | .field _ | .deref => false

end Access

namespace AccessPath

def hasDeref (p : AccessPath) : Bool := p.steps.contains .deref

/-- Compares steps from one root. `sure` says that all steps so far agree for certain. -/
def compare (sure : Bool) : List Access → List Access → Alias
  | [], _ => if sure then .yes else .maybe
  | _ :: _, [] => .maybe
  | .field f :: as, .field g :: bs => if f = g then compare sure as bs else .no
  | .index i :: as, .index j :: bs => if i = j then compare sure as bs else .no
  | .deref :: as, .deref :: bs => compare sure as bs
  | a :: as, b :: bs => if a.isIndex && b.isIndex then compare false as bs else .maybe

def relation (a b : AccessPath) : Alias :=
  if a.root = b.root then compare true a.steps b.steps else .no

end AccessPath

namespace Node

def addsNoStep : NodeKind → Bool
  | .conv | .upConv | .downConv | .cast | .addr => true
  | _ => false

/-- The steps to a location, innermost first, put in front of `inner`; none for an expression that
is not rooted at a symbol. -/
def pathFrom (inner : List Access) : Node → Except Fault (Option AccessPath)
  | .hole => .ok none
  | .node h [] =>
    if h.kind = .sym then .ok (some ⟨h.sym, inner⟩)
    else if stepsInto h.kind then .error .absent
    else .ok none
  | .node h (k :: ks) =>
    match h.kind with
    | .sym => .ok (some ⟨h.sym, inner⟩)
    | .dot => do
      let f ← (← orAbsent ks.head?).info
      k.pathFrom (.field f.sym :: inner)
    | .index => do
      let i ← (← orAbsent ks.head?).info
      k.pathFrom ((if i.kind = .intLit then .index i.int else .anyIndex) :: inner)
    | .deref => k.pathFrom (.deref :: inner)
    | kind => if addsNoStep kind then k.pathFrom inner else .ok none

def path? (n : Node) : Except Fault (Option AccessPath) := n.pathFrom []

/-- Whether the storage of `field` lies within `obj`: `yes` when `obj` is surely a part of the way
to `field`, `maybe` when they can share storage, `no` when they cannot. -/
def aliases (obj field : Node) : Except Fault Alias := do
  let some po ← obj.path? | return .no
  let some pf ← field.path? | return .no
  return po.relation pf

def overlaps (a b : Node) : Except Fault Bool := do
  if (← a.aliases b) ≠ .no then return true
  return (← b.aliases a) ≠ .no

def place? (n : Node) : Option AccessPath :=
  match n.path? with
  | .ok p => p
  | .error _ => none

def within (obj field : Node) : Alias :=
  match obj.place?, field.place? with
  | some a, some b => a.relation b
  | _, _ => .no

def touches (a b : Node) : Bool := a.within b ≠ .no || b.within a ≠ .no

end Node

end Lifecycle
