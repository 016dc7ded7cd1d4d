import Lifecycle.Builder.Basic

/-!
# Sketches

A `Sketch` describes a tree by what it means. Building it makes the parts from left to right, then
the node around them.
-/

namespace Lifecycle

inductive Sketch where
  | nothing
  | kept (key : Text)
  | sym (s : Option SymRef)
  | int (v : Int64)
  | str (v : Text)
  | bool (v : Bool)
  | nil (type : TypeId)
  | call (fn : Option SymRef) (args : List Sketch)
  | magic (m : Magic) (type : TypeId) (args : List Sketch)
  | dot (x : Sketch) (field : Text)
  | index (x i : Sketch)
  | deref (x : Sketch)
  | conv (type : TypeId) (x : Sketch)
  | asgn (dest src : Sketch)
  | varDecl (s : Option SymRef) (init : Sketch)
  | stmts (ns : List Sketch)
  | expr (ns : List Sketch)
  | ifStmt (cond then_ else_ : Sketch)
  | ifExpr (cond then_ else_ : Sketch)
  | caseStmt (sel : Sketch) (arms : List (Sketch × Sketch)) (else_ : Sketch)
  | whileStmt (cond : Sketch) (body : List Sketch)
  | block (label : Option SymRef) (body : List Sketch)
  | tryStmt (body handler last : Sketch)
  | raise (x : Sketch)
  | leave (x : Sketch)
  | break_ (label : Option SymRef)
  | discard (x : Sketch)
  | object (type : TypeId) (names : List Text) (values : List Sketch)
  | array (type : TypeId) (xs : List Sketch)
  | tuple (type : TypeId) (xs : List Sketch)
  | closure (type : TypeId) (fn : Option SymRef) (env : Sketch)
deriving Inhabited

namespace Sketch

mutual

def build : Sketch → BuildM Node
  | .nothing => return .hole
  | .kept key => return (← get).kept.getD key .hole
  | .sym s => BuildM.sym s
  | .int v => BuildM.int v
  | .str v => BuildM.str v
  | .bool v => BuildM.bool v
  | .nil type => BuildM.leaf .nilLit type
  | .call fn args => do BuildM.call fn (← buildAll args)
  | .magic m type args => do BuildM.magic m type (← buildAll args)
  | .dot x field => do BuildM.dot (← x.build) field
  | .index x i => do
    let x ← x.build
    BuildM.index x (← i.build)
  | .deref x => do BuildM.deref (← x.build)
  | .conv type x => do BuildM.tree .conv type [← x.build]
  | .asgn dest src => do
    let dest ← dest.build
    BuildM.tree .asgn 0 [dest, ← src.build]
  | .varDecl s init => do BuildM.varDecl s (← init.build)
  | .stmts ns => do BuildM.stmts (← buildAll ns)
  | .expr ns => do BuildM.expr (← buildAll ns)
  | .ifStmt c t e => do
    let c ← c.build
    let t ← t.build
    BuildM.ifStmt c t (← e.build)
  | .ifExpr c t e => do
    let c ← c.build
    let t ← t.build
    BuildM.ifExpr c t (← e.build)
  | .caseStmt sel arms e => do
    let sel ← sel.build
    let arms ← buildArms arms
    BuildM.caseStmt sel arms (← e.build)
  | .whileStmt cond body => do
    let cond ← cond.build
    BuildM.whileStmt cond (← buildAll body)
  | .block label body => do BuildM.block label (← buildAll body)
  | .tryStmt body handler last => do
    let body ← body.build
    let handler ← handler.build
    BuildM.tryStmt body handler (← last.build)
  | .raise x => do BuildM.raise (← x.build)
  | .leave x => do BuildM.leave (← x.build)
  | .break_ label => BuildM.break_ label
  | .discard x => do BuildM.tree .discardStmt 0 [← x.build]
  | .object type names values => do BuildM.object type names (← buildAll values)
  | .array type xs => do BuildM.tree .arrayConstr type (← buildAll xs)
  | .tuple type xs => do BuildM.tree .tupleConstr type (← buildAll xs)
  | .closure type fn env => do BuildM.closure type fn (← env.build)

def buildAll : List Sketch → BuildM (List Node)
  | [] => return []
  | s :: ss => do
    let n ← s.build
    return n :: (← buildAll ss)

def buildArms : List (Sketch × Sketch) → BuildM (List (Node × Node))
  | [] => return []
  | (l, body) :: arms => do
    let l ← l.build
    let body ← body.build
    return (l, body) :: (← buildArms arms)

end

end Sketch

end Lifecycle
