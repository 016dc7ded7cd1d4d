import Lifecycle.Tree.Node

/-!
# Well-formed trees

`Node.defects` lists what is wrong with the layout of a tree: the number and kinds of the children
of each node, and where branches may stand.
-/

namespace Lifecycle

inductive LayoutFault where
  | missingKid (index : Nat)
  | kidCount (expected got : Nat)
  | missingSymbol
  | noCallee
  | notAField
  | notASymbol
  | noLabels
  | strayBranch (kind : NodeKind)
  | elseNotLast
  | noSelector
  | noHandler
  | strayHandler (kind : NodeKind)
  | finallyNotLast
  | notADefinition (kind : NodeKind)
  | notAFieldInit (kind : NodeKind)
  | noValue
  | unknownKind
deriving DecidableEq

def LayoutFault.message : LayoutFault → Text
  | .missingKid i => "kid " ++ Text.ofNat i ++ " is nil"
  | .kidCount expected got =>
    "expected " ++ Text.ofNat expected ++ " kids, got " ++ Text.ofNat got
  | .missingSymbol => "missing symbol"
  | .noCallee => "call without callee"
  | .notAField => "field position must be a field symbol"
  | .notASymbol => "first kid must be a symbol"
  | .noLabels => "of-branch needs labels and a body"
  | .strayBranch k => "unexpected " ++ k.text ++ " branch"
  | .elseNotLast => "else must be the last branch"
  | .noSelector => "case without selector"
  | .noHandler => "try needs at least one handler"
  | .strayHandler k => "unexpected " ++ k.text ++ " handler"
  | .finallyNotLast => "finally must be the last handler"
  | .notADefinition k => "unexpected " ++ k.text ++ " in var section"
  | .notAFieldInit k => "unexpected " ++ k.text ++ " in object constructor"
  | .noValue => "expression list without value"
  | .unknownKind => "unknown kind"

inductive TreeDefect where
  | missing
  | layout (kind : NodeKind) (span : Span) (fault : LayoutFault)
deriving DecidableEq

def TreeDefect.message : TreeDefect → Text
  | .missing => "nil node"
  | .layout kind span fault => kind.text ++ " at " ++ span.text ++ ": " ++ fault.message

namespace Node

def kindOr (n : Node) : NodeKind := (n.head?.map (·.kind)).getD .empty

def wantKids (count : Nat) (kids : List Node) : List LayoutFault :=
  if kids.length = count then [] else [.kidCount count kids.length]

def isFieldRef (ss : Symbols) (n : Node) : Bool :=
  match n.head? with
  | some h =>
    h.kind = .sym &&
      match h.sym with
      | some s => (ss.get s).kind = .field
      | none => false
  | none => false

def branchFaults (plain final : NodeKind) (stray : NodeKind → LayoutFault) (early : LayoutFault) :
    List Node → List LayoutFault
  | [] => []
  | k :: ks =>
    (if k.kindOr ≠ plain ∧ k.kindOr ≠ final then [stray k.kindOr] else []) ++
      (if k.kindOr = final ∧ ¬ks.isEmpty then [early] else []) ++
      branchFaults plain final stray early ks

def onlyKind (kind : NodeKind) (stray : NodeKind → LayoutFault) (ks : List Node) :
    List LayoutFault :=
  ks.flatMap fun k => if k.kindOr = kind then [] else [stray k.kindOr]

def layoutFaults (ss : Symbols) (h : Head) (kids : List Node) : Except Fault (List LayoutFault) :=
  match h.kind with
  | .empty | .intLit | .strLit | .boolLit | .nilLit => .ok (wantKids 0 kids)
  | .sym => .ok (if h.sym.isNone then [.missingSymbol] else [])
  | .call => .ok (if kids.isEmpty then [.noCallee] else [])
  | .dot =>
    match kids with
    | [_, f] => .ok (if isFieldRef ss f then [] else [.notAField])
    | _ => .ok (wantKids 2 kids)
  | .index | .closure | .whileStmt | .asgn | .fastAsgn | .block | .elifBranch =>
    .ok (wantKids 2 kids)
  | .deref | .addr | .conv | .upConv | .downConv | .cast | .raiseStmt | .returnStmt | .breakStmt
  | .discardStmt | .elseBranch | .exceptBranch | .finallyBranch => .ok (wantKids 1 kids)
  | .fieldInit | .identDefs =>
    match kids with
    | [s, _] => .ok (if s.kindOr = .sym then [] else [.notASymbol])
    | _ => .ok (wantKids 2 kids)
  | .ofBranch => .ok (if kids.length < 2 then [.noLabels] else [])
  | .ifStmt => .ok (branchFaults .elifBranch .elseBranch .strayBranch .elseNotLast kids)
  | .caseStmt =>
    match kids with
    | [] => .ok [.noSelector]
    | _ :: arms => .ok (branchFaults .ofBranch .elseBranch .strayBranch .elseNotLast arms)
  | .tryStmt =>
    match kids with
    | [] => .error .absent
    | _ :: handlers =>
      .ok ((if handlers.isEmpty then [.noHandler] else []) ++
        branchFaults .exceptBranch .finallyBranch .strayHandler .finallyNotLast handlers)
  | .varSection => .ok (onlyKind .identDefs .notADefinition kids)
  | .objConstr => .ok (onlyKind .fieldInit .notAFieldInit kids)
  | .stmtListExpr => .ok (if kids.isEmpty then [.noValue] else [])
  | .stmtList | .arrayConstr | .tupleConstr => .ok []
  | .other _ _ => .ok [.unknownKind]

mutual

def defects (ss : Symbols) : Node → Except Fault (List TreeDefect)
  | .hole => .ok [.missing]
  | .node h kids =>
    match kids.findIdx? isHole with
    | some i => .ok [.layout h.kind h.span (.missingKid i)]
    | none => do
      let own ← layoutFaults ss h kids
      return own.map (.layout h.kind h.span) ++ (← defectsAll ss kids)

def defectsAll (ss : Symbols) : List Node → Except Fault (List TreeDefect)
  | [] => .ok []
  | k :: ks => do return (← k.defects ss) ++ (← defectsAll ss ks)

end

def WellFormed (ss : Symbols) (n : Node) : Prop := n.defects ss = .ok []

end Node

end Lifecycle
