import Lifecycle.Flow.Access
import Lifecycle.Tree.Printer

/-!
# Flow graphs

The control flow of a routine as a list of four instructions: a write or a read of a location, a
jump, and a fork that goes on in two places. Jumps are relative and lead forward only; a loop is
written out three times instead of jumping back.
-/

namespace Lifecycle

def exitTarget : Nat := 2147483647

/-- Where a jump leads. Within a graph only `by` and `exit` occur; the others are open ends of a
part of a graph, which the construct around it closes. -/
inductive Jump where
  | by (dist : Nat)
  | exit
  /-- Behind the block that is `level` blocks further out. -/
  | leave (level : Nat)
  | unwind
deriving DecidableEq

def Jump.dist (pc : Nat) : Jump → Nat
  | .by d => d
  | .exit => exitTarget - pc
  | .leave _ | .unwind => 0

inductive Instr where
  | goto (origin : Node) (jump : Jump)
  | fork (origin : Node) (dist : Nat)
  | define (loc : Node)
  | use (loc : Node)

namespace Instr

def access? : Instr → Option Node
  | .define n | .use n => some n
  | .goto _ _ | .fork _ _ => none

def dist (pc : Nat) : Instr → Nat
  | .goto _ j => j.dist pc
  | .fork _ d => d
  | .define _ | .use _ => 1

def isAt (n : Node) (i : Instr) : Bool :=
  match i.access? with
  | some m => m.site.isSome && m.site = n.site
  | none => false

end Instr

structure Graph where
  code : Array Instr := #[]
deriving Inhabited

namespace Graph

def size (g : Graph) : Nat := g.code.size

def find? (g : Graph) (n : Node) : Option Nat := g.code.toList.findIdx? (Instr.isAt n)

def findLast? (g : Graph) (n : Node) : Option Nat :=
  (g.code.toList.reverse.findIdx? (Instr.isAt n)).map (g.size - 1 - ·)

def jumpText (word : Text) (target : Nat) : Text :=
  if exitTarget ≤ target then word ++ " exit" else word ++ " L" ++ Text.ofNat target

def instrText (p : Printer) (pc : Nat) : Instr → Except Fault Text
  | .goto _ j => .ok (jumpText "goto" (pc + j.dist pc))
  | .fork _ d => .ok (jumpText "fork" (pc + d))
  | .define n => return "def " ++ (← p.expr n)
  | .use n => return "use " ++ (← p.expr n)

def codeText (p : Printer) : List Instr → Nat → Except Fault Text
  | [], _ => .ok ""
  | i :: is, pc => do
    let first ← instrText p pc i
    return (Text.ofNat pc).padLeft 3 ++ ": " ++ first ++ "\n" ++ (← codeText p is (pc + 1))

def dump (g : Graph) (p : Printer) : Except Fault Text := codeText p g.code.toList 0

end Graph

end Lifecycle
