import Lifecycle.Text.Quoted
import Lifecycle.Tree.Node
import Lifecycle.Types.Naming

/-!
# Printing trees

`Printer.render` writes a tree as indented statements, one to a line; `Printer.expr` writes it on
one line.
-/

namespace Lifecycle

/-- How to print. Without types, conversions and constructors get a general word in the place of a
type. -/
structure Printer where
  symbols : Symbols
  types : Option TypeTable := none

namespace Printer

structure Texts where
  expr : Node → Except Fault Text
  stmt : Nat → Node → Except Fault Text

def line (indent : Nat) (t : Text) : Text := Text.blanks (2 * indent) ++ t ++ "\n"

def keyword (word arg : Text) : Text := if arg.isEmpty then word else word ++ " " ++ arg

def typeName (p : Printer) (id : TypeId) (general : Text) : Except Fault Text :=
  match p.types with
  | none => .ok general
  | some t => do
    let s ← t.text id
    return if s.isEmpty || s = "<no type>" then general else s

def symbolOf (p : Printer) (h : Head) : Except Fault Symbol :=
  return p.symbols.get (← orAbsent h.sym)

def identDefs (r : Texts) (n : Node) : Except Fault Text := do
  let name ← r.expr (← n.kid 0)
  let init ← n.kid 1
  if (← init.info).kind = .empty then return name
  else return name ++ " = " ++ (← r.expr init)

def body (r : Texts) (indent : Nat) (n : Node) : Except Fault Text := do
  let t ← r.stmt indent n
  return if t.isEmpty then line indent "discard" else t

def arms (r : Texts) (indent : Nat) (ns : List Node) (title : Node → Except Fault Text) :
    Except Fault Text := do
  let ts ← ns.mapM fun n => do
    let t ← title n
    return line indent t ++ (← body r (indent + 1) (← n.lastKid))
  return Text.concat ts

def ifTitle (r : Texts) (first : Bool) (n : Node) : Except Fault Text := do
  if (← n.info).kind = .elseBranch then return "else:"
  let cond ← r.expr (← n.kid 0)
  return (if first then "if " else "elif ") ++ cond ++ ":"

def ofTitle (r : Texts) (n : Node) : Except Fault Text := do
  if (← n.info).kind = .elseBranch then return "else:"
  return "of " ++ Text.join ", " (← (← n.kidsBeforeLast).mapM r.expr) ++ ":"

def handlerTitle (n : Node) : Except Fault Text := do
  return if (← n.info).kind = .finallyBranch then "finally:" else "except:"

def nested (p : Printer) (r : Texts) (indent : Nat) (n : Node) : Except Fault (Option Text) := do
  match (← n.info).kind with
  | .empty => return some ""
  | .stmtList | .stmtListExpr => return Text.concat (← n.kids.mapM (r.stmt indent))
  | .varSection =>
    let defs ← n.kids.mapM (identDefs r)
    return line indent "var" ++ Text.concat (defs.map (line (indent + 1)))
  | .ifStmt =>
    return (← arms r indent (n.kids.take 1) (ifTitle r true)) ++
      (← arms r indent (n.kids.drop 1) (ifTitle r false))
  | .caseStmt =>
    let sel ← r.expr (← n.kid 0)
    return line indent ("case " ++ sel) ++ (← arms r indent (n.kids.drop 1) (ofTitle r))
  | .whileStmt =>
    let cond ← r.expr (← n.kid 0)
    return line indent ("while " ++ cond ++ ":") ++ (← body r (indent + 1) (← n.kid 1))
  | .block =>
    let label ← (← n.kid 0).info
    let mut title : Text := "block:"
    if label.kind = .sym then title := "block " ++ (← p.symbolOf label).name ++ ":"
    return line indent title ++ (← body r (indent + 1) (← n.kid 1))
  | .tryStmt =>
    let first ← body r (indent + 1) (← n.kid 0)
    return line indent "try:" ++ first ++ (← arms r indent (n.kids.drop 1) handlerTitle)
  | _ => return none

def flatten (t : Text) : Text :=
  Text.join "; " ((Text.split Text.newline t.trimNewlines).map Text.trim)

def inline (r : Texts) (n : Node) : Except Fault Text := do
  let k := (← n.info).kind
  if k = .varSection then return "var " ++ Text.join ", " (← n.kids.mapM (identDefs r))
  else if k.isNested then return flatten (← r.stmt 0 n)
  else r.expr n

def exprList (r : Texts) (ns : List Node) : Except Fault Text :=
  return Text.join ", " (← ns.mapM r.expr)

def plainCall (r : Texts) (callee : Node) (args : List Node) : Except Fault Text :=
  return (← r.expr callee) ++ "(" ++ (← exprList r args) ++ ")"

def call (p : Printer) (r : Texts) (n : Node) : Except Fault Text := do
  let callee ← n.kid 0
  let h ← callee.info
  let args ← n.kidsAfterFirst
  if h.kind ≠ .sym then plainCall r callee args
  else
    let magic := (← p.symbolOf h).magic
    match magic, args with
    | .eq, [a, b] | .and, [a, b] | .or, [a, b] =>
      return "(" ++ (← r.expr a) ++ " " ++ magic.text ++ " " ++ (← r.expr b) ++ ")"
    | .not, [a] => return "not " ++ (← r.expr a)
    | _, _ => plainCall r callee args

def exprStep (p : Printer) (r : Texts) (n : Node) : Except Fault Text := do
  let some h := n.head? | return "<nil>"
  let kid (i : Nat) : Except Fault Text := do r.expr (← n.kid i)
  match h.kind with
  | .empty => return ""
  | .sym => return (← p.symbolOf h).name
  | .intLit => return Text.ofInt h.int.toInt
  | .strLit => return h.str.quoted
  | .boolLit => return if h.int ≠ 0 then "true" else "false"
  | .nilLit => return "nil"
  | .call => p.call r n
  | .dot => return (← kid 0) ++ "." ++ (← kid 1)
  | .index => return (← kid 0) ++ "[" ++ (← kid 1) ++ "]"
  | .deref => return (← kid 0) ++ "[]"
  | .addr => return "addr " ++ (← kid 0)
  | .conv => return (← p.typeName h.type "conv") ++ "(" ++ (← kid 0) ++ ")"
  | .upConv => return "upconv(" ++ (← kid 0) ++ ")"
  | .downConv => return "downconv(" ++ (← kid 0) ++ ")"
  | .cast => return "cast[" ++ (← p.typeName h.type "T") ++ "](" ++ (← kid 0) ++ ")"
  | .objConstr => return (← p.typeName h.type "obj") ++ "(" ++ (← exprList r n.kids) ++ ")"
  | .fieldInit => return (← kid 0) ++ ": " ++ (← kid 1)
  | .arrayConstr => return "[" ++ (← exprList r n.kids) ++ "]"
  | .tupleConstr =>
    match n.kids with
    | [k] => return "(" ++ (← r.expr k) ++ ",)"
    | _ => return "(" ++ (← exprList r n.kids) ++ ")"
  | .closure => return "closure(" ++ (← exprList r n.kids) ++ ")"
  | .asgn => return (← kid 0) ++ " = " ++ (← kid 1)
  | .fastAsgn => return (← kid 0) ++ " := " ++ (← kid 1)
  | .returnStmt => return keyword "return" (← kid 0)
  | .raiseStmt => return keyword "raise" (← kid 0)
  | .breakStmt => return keyword "break" (← kid 0)
  | .discardStmt => return keyword "discard" (← kid 0)
  | .stmtList | .stmtListExpr =>
    let parts ← n.kids.mapM (inline r)
    return "(" ++ Text.join "; " (parts.filter (!·.isEmpty)) ++ ")"
  | .varSection => return "var " ++ Text.join ", " (← n.kids.mapM (identDefs r))
  | .ifStmt | .caseStmt | .whileStmt | .block | .tryStmt =>
    return flatten ((← p.nested r 0 n).getD "")
  | .elifBranch | .elseBranch | .ofBranch | .exceptBranch | .finallyBranch | .identDefs
  | .other _ _ => .error .endless

def stmtStep (p : Printer) (r : Texts) (indent : Nat) (n : Node) : Except Fault Text := do
  if n.isHole then return ""
  match ← p.nested r indent n with
  | some t => return t
  | none => return line indent (← p.exprStep r n)

def texts (p : Printer) : Nat → Texts
  | 0 => ⟨fun _ => .error .endless, fun _ _ => .error .endless⟩
  | d + 1 => ⟨p.exprStep (p.texts d), p.stmtStep (p.texts d)⟩

def expr (p : Printer) (n : Node) : Except Fault Text := (p.texts n.depth).expr n

def render (p : Printer) (n : Node) : Except Fault Text := do
  return ((← (p.texts n.depth).stmt 0 n)).trimNewlines

def printed (p : Printer) (n : Node) : Except Fault Text := return (← p.render n) ++ "\n"

end Printer

end Lifecycle
