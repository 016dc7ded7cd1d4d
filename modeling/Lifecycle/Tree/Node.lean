import Lifecycle.Fault
import Lifecycle.Tree.Kind
import Lifecycle.Tree.Symbol

/-!
# The typed tree

A node has a kind, the type its value was given, a position, and children. Which of the further
fields mean something depends on the kind; all are kept. A child can be missing: then a `hole`
stands in its place.

Each node has a `site`, the point of the program it stands for. Two nodes with one site are one
and the same evaluation, also when the tree holds the node twice.
-/

namespace Lifecycle

structure Head where
  kind : NodeKind := .empty
  type : TypeId := 0
  span : Span := {}
  sym : Option SymRef := none
  int : Int64 := 0
  str : Text := Text.empty
  site : Nat := 0
deriving DecidableEq

inductive Node where
  | hole
  | node (head : Head) (kids : List Node)
deriving Inhabited

namespace Node

def isHole : Node → Bool
  | .hole => true
  | .node _ _ => false

def head? : Node → Option Head
  | .hole => none
  | .node h _ => some h

def info : Node → Except Fault Head
  | .hole => .error .absent
  | .node h _ => .ok h

def kids : Node → List Node
  | .hole => []
  | .node _ ks => ks

def kid (n : Node) (i : Nat) : Except Fault Node := orAbsent n.kids[i]?

def lastKid (n : Node) : Except Fault Node := orAbsent n.kids.getLast?

def kidsAfterFirst (n : Node) : Except Fault (List Node) :=
  match n.kids with
  | [] => .error .absent
  | _ :: ks => .ok ks

def kidsBeforeLast (n : Node) : Except Fault (List Node) :=
  match n.kids with
  | [] => .error .absent
  | ks => .ok ks.dropLast

def site (n : Node) : Option Nat := n.head?.map (·.site)

def span (n : Node) : Span := (n.head?.map (·.span)).getD {}

def isKind (n : Node) (k : NodeKind) : Bool := n.head?.map (·.kind) = some k

def isSym (n : Node) (s : Option SymRef) : Bool :=
  match n.head? with
  | some h => h.kind = .sym && h.sym = s
  | none => false

section Head

variable {h : Head} {ks : List Node} {k : NodeKind} {s : Option SymRef}

@[simp] theorem head?_hole : hole.head? = none := rfl

@[simp] theorem head?_node : (node h ks).head? = some h := rfl

@[simp] theorem isKind_hole : hole.isKind k = false := rfl

@[simp] theorem isKind_node : (node h ks).isKind k = decide (h.kind = k) := by simp [isKind]

@[simp] theorem isSym_hole : hole.isSym s = false := rfl

@[simp] theorem isSym_node :
    (node h ks).isSym s = (decide (h.kind = .sym) && decide (h.sym = s)) := rfl

end Head

def spanOf : List Node → Span
  | [] => {}
  | k :: ks => if k.span.isUnknown then spanOf ks else k.span

mutual

def size : Node → Nat
  | .hole => 1
  | .node _ ks => 1 + sizes ks

def sizes : List Node → Nat
  | [] => 0
  | k :: ks => k.size + sizes ks

end

mutual

def depth : Node → Nat
  | .hole => 1
  | .node _ ks => 1 + depths ks

def depths : List Node → Nat
  | [] => 0
  | k :: ks => max k.depth (depths ks)

end

mutual

def relabel : Node → Nat → Node × Nat
  | .hole, next => (.hole, next)
  | .node h ks, next =>
    let (ks, after) := relabelAll ks (next + 1)
    (.node { h with site := next } ks, after)

def relabelAll : List Node → Nat → List Node × Nat
  | [], next => ([], next)
  | k :: ks, next =>
    let (k, next) := k.relabel next
    let (ks, next) := relabelAll ks next
    (k :: ks, next)

end

mutual

def preorder : Node → List Node
  | .hole => []
  | .node h ks => .node h ks :: preorderAll ks

def preorderAll : List Node → List Node
  | [] => []
  | k :: ks => k.preorder ++ preorderAll ks

end

theorem mem_preorderAll {m : Node} {ks : List Node} :
    m ∈ preorderAll ks ↔ ∃ k ∈ ks, m ∈ k.preorder := by
  induction ks with
  | nil => simp [preorderAll]
  | cons k ks ih => simp [preorderAll, ih]

mutual

/-- Equal shape, symbols and literals; types, positions and sites do not count. -/
def structEq : Node → Node → Bool
  | .hole, .hole => true
  | .node a as, .node b bs =>
    a.kind = b.kind &&
      match a.kind with
      | .sym => a.sym = b.sym
      | .intLit | .boolLit => a.int = b.int
      | .strLit => a.str = b.str
      | .nilLit | .empty => true
      | _ => structEqAll as bs
  | _, _ => false

def structEqAll : List Node → List Node → Bool
  | [], [] => true
  | a :: as, b :: bs => a.structEq b && structEqAll as bs
  | _, _ => false

end

def hollow : Node → Node
  | .hole => .hole
  | .node h ks => .node h (ks.map fun _ => .hole)

end Node

/-- A routine: its symbol, its parameters, the variable of its result, and its body, which is a
`hole` when there is none. -/
structure Routine where
  sym : Option SymRef := none
  params : List (Option SymRef) := []
  result : Option SymRef := none
  body : Node := .hole

def Routine.name (r : Routine) (ss : Symbols) : Text :=
  match r.sym with
  | some s => (ss.get s).name
  | none => ""

end Lifecycle
