import Lifecycle.Tree.Location
import Lifecycle.Tree.WellFormed

/-!
# Checking a finished body

What must hold of a body when lifecycle operations have been put in: it is well formed, each
temporary that it uses is declared in it, and nothing is declared twice.
-/

namespace Lifecycle

inductive BodyDefect where
  | malformed (d : TreeDefect)
  | undeclared (name : Text)
  | redeclared (name : Text) (count : Nat)
deriving DecidableEq

def BodyDefect.message : BodyDefect → Text
  | .malformed d => d.message
  | .undeclared name => "temporary " ++ name ++ " used but never declared"
  | .redeclared name count => name ++ " declared " ++ Text.ofNat count ++ " times"

namespace Node

def symbolsDeclared (n : Node) : Except Fault (List (Option SymRef)) :=
  (n.preorder.filter (·.isKind .identDefs)).mapM fun d => do return (← (← d.kid 0).info).sym

def symbolsUsed (n : Node) : List (Option SymRef) :=
  n.preorder.filterMap fun m =>
    match m.head? with
    | some h => if h.kind = .sym then some h.sym else none
    | none => none

def bodyDefects (ss : Symbols) (n : Node) : Except Fault (List BodyDefect) := do
  let malformed ← n.defects ss
  let declared ← n.symbolsDeclared
  let used ← n.symbolsUsed.eraseDups.mapM orAbsent
  let undeclared := used.filter fun r =>
    ((ss.get r).kind = .temp || (ss.get r).kind = .letLocal) && !declared.contains (some r)
  let repeated ← (declared.eraseDups.filter fun r => 1 < declared.count r).mapM orAbsent
  return malformed.map .malformed ++ undeclared.map (fun r => .undeclared (ss.get r).name) ++
    repeated.map fun r => .redeclared (ss.get r).name (declared.count (some r))

def callsOf (ss : Symbols) (name : Text) (n : Node) : Except Fault (List Node) :=
  (n.preorder.filter (·.isKind .call)).filterM fun c => do
    let h ← (← c.kid 0).info
    if h.kind ≠ .sym then return false
    return (ss.get (← orAbsent h.sym)).name = name

def countCalls (ss : Symbols) (name : Text) (target : SymRef) (n : Node) : Except Fault Nat := do
  let hits ← (← n.callsOf ss name).filterM fun c => do
    match c.kids[1]? with
    | some a => return (← a.root?) = some target
    | none => return false
  return hits.length

end Node

end Lifecycle
