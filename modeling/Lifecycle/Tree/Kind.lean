import Lifecycle.Text

/-!
# Kinds of nodes

The closed vocabulary of the typed tree. The comment beside a kind says what its children are. As
with types, a file can hold a number past the list; such a kind is `other`.
-/

namespace Lifecycle

inductive NodeKind where
  | empty
  | sym
  | intLit
  | strLit
  | boolLit
  | nilLit
  /-- The callee, then the arguments. -/
  | call
  /-- An object and the symbol of its field. -/
  | dot
  /-- A container and an index. -/
  | index
  | deref
  | addr
  | conv
  | upConv
  | downConv
  | cast
  /-- Some `fieldInit` nodes. -/
  | objConstr
  /-- The symbol of a field and its value. -/
  | fieldInit
  | arrayConstr
  | tupleConstr
  /-- The symbol of a routine and its environment, or a nil literal. -/
  | closure
  | stmtList
  /-- Statements, then the value. -/
  | stmtListExpr
  /-- A label or an empty node, and the body. -/
  | block
  /-- Some `elifBranch` nodes, then perhaps an `elseBranch`. -/
  | ifStmt
  /-- A condition and a body. -/
  | elifBranch
  | elseBranch
  /-- A selector, `ofBranch` nodes, then perhaps an `elseBranch`. -/
  | caseStmt
  /-- Labels and a body. -/
  | ofBranch
  /-- A condition and a body. -/
  | whileStmt
  /-- A body, `exceptBranch` nodes, then perhaps a `finallyBranch`. -/
  | tryStmt
  | exceptBranch
  | finallyBranch
  /-- A value, or an empty node to raise again. -/
  | raiseStmt
  /-- A value or an empty node. -/
  | returnStmt
  /-- A label or an empty node. -/
  | breakStmt
  /-- A destination and a source. -/
  | asgn
  /-- A destination and a source that is relocated bit by bit; no operator runs. -/
  | fastAsgn
  /-- Some `identDefs` nodes. -/
  | varSection
  /-- A symbol and an initializer or an empty node. -/
  | identDefs
  | discardStmt
  | other (code : UInt8) (beyond : 40 ≤ code)
deriving DecidableEq

namespace NodeKind

def named : List NodeKind :=
  [.empty, .sym, .intLit, .strLit, .boolLit, .nilLit, .call, .dot, .index, .deref, .addr, .conv,
    .upConv, .downConv, .cast, .objConstr, .fieldInit, .arrayConstr, .tupleConstr, .closure,
    .stmtList, .stmtListExpr, .block, .ifStmt, .elifBranch, .elseBranch, .caseStmt, .ofBranch,
    .whileStmt, .tryStmt, .exceptBranch, .finallyBranch, .raiseStmt, .returnStmt, .breakStmt,
    .asgn, .fastAsgn, .varSection, .identDefs, .discardStmt]

def code : NodeKind → UInt8
  | .empty => 0
  | .sym => 1
  | .intLit => 2
  | .strLit => 3
  | .boolLit => 4
  | .nilLit => 5
  | .call => 6
  | .dot => 7
  | .index => 8
  | .deref => 9
  | .addr => 10
  | .conv => 11
  | .upConv => 12
  | .downConv => 13
  | .cast => 14
  | .objConstr => 15
  | .fieldInit => 16
  | .arrayConstr => 17
  | .tupleConstr => 18
  | .closure => 19
  | .stmtList => 20
  | .stmtListExpr => 21
  | .block => 22
  | .ifStmt => 23
  | .elifBranch => 24
  | .elseBranch => 25
  | .caseStmt => 26
  | .ofBranch => 27
  | .whileStmt => 28
  | .tryStmt => 29
  | .exceptBranch => 30
  | .finallyBranch => 31
  | .raiseStmt => 32
  | .returnStmt => 33
  | .breakStmt => 34
  | .asgn => 35
  | .fastAsgn => 36
  | .varSection => 37
  | .identDefs => 38
  | .discardStmt => 39
  | .other c _ => c

def ofCode (c : UInt8) : NodeKind :=
  if h : 40 ≤ c then .other c h else (named[c.toNat]?).getD .empty

def text : NodeKind → Text
  | .empty => "Empty"
  | .sym => "Sym"
  | .intLit => "IntLit"
  | .strLit => "StrLit"
  | .boolLit => "BoolLit"
  | .nilLit => "NilLit"
  | .call => "Call"
  | .dot => "Dot"
  | .index => "Index"
  | .deref => "Deref"
  | .addr => "Addr"
  | .conv => "Conv"
  | .upConv => "UpConv"
  | .downConv => "DownConv"
  | .cast => "Cast"
  | .objConstr => "ObjConstr"
  | .fieldInit => "FieldInit"
  | .arrayConstr => "ArrayConstr"
  | .tupleConstr => "TupleConstr"
  | .closure => "Closure"
  | .stmtList => "StmtList"
  | .stmtListExpr => "StmtListExpr"
  | .block => "Block"
  | .ifStmt => "If"
  | .elifBranch => "ElifBranch"
  | .elseBranch => "Else"
  | .caseStmt => "Case"
  | .ofBranch => "OfBranch"
  | .whileStmt => "While"
  | .tryStmt => "Try"
  | .exceptBranch => "Except"
  | .finallyBranch => "Finally"
  | .raiseStmt => "Raise"
  | .returnStmt => "Return"
  | .breakStmt => "Break"
  | .asgn => "Asgn"
  | .fastAsgn => "FastAsgn"
  | .varSection => "VarSection"
  | .identDefs => "IdentDefs"
  | .discardStmt => "Discard"
  | .other _ _ => "Unknown"

def isLiteral : NodeKind → Bool
  | .intLit | .strLit | .boolLit | .nilLit => true
  | _ => false

def isConv : NodeKind → Bool
  | .conv | .upConv | .downConv | .cast => true
  | _ => false

def keepsLocation : NodeKind → Bool
  | .conv | .upConv | .downConv => true
  | _ => false

def isConstructor : NodeKind → Bool
  | .arrayConstr | .objConstr | .tupleConstr | .closure => true
  | _ => false

def isNested : NodeKind → Bool
  | .stmtList | .stmtListExpr | .block | .ifStmt | .caseStmt | .whileStmt | .tryStmt => true
  | _ => false

end NodeKind

end Lifecycle
