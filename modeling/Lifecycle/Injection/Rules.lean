import Lifecycle.Flow.Lower
import Lifecycle.Injection.Emit

/-!
# Expressions

The rules for values: what becomes of an expression whose value is looked at, taken over, or given
to a sink parameter. Rules use each other through a `Rules` record, so each is a definition of its
own; `rules` in the module for whole routines ties them together.
-/

namespace Lifecycle

structure Rules where
  eval : Node → ScopeId → Mode → InjectM Node
  store : (dest ri : Node) → ScopeId → (decl : Bool) → InjectM Node

inductive Use where
  | value (m : Mode)
  | store (dest : Node) (decl : Bool)

def Use.isStmt : Use → Bool
  | .value _ => false
  | .store _ _ => true

def Rules.yield (r : Rules) (u : Use) (n : Node) (s : ScopeId) : InjectM Node :=
  match u with
  | .value m => r.eval n s m
  | .store dest decl => r.store dest n s decl

namespace InjectM

def evalKids (r : Rules) (n : Node) (s : ScopeId) (m : Mode) : InjectM Node := do
  withKids n (← n.kids.mapM fun k => r.eval k s m)

def evalOperand (r : Rules) (n : Node) (s : ScopeId) (m : Mode) : InjectM Node := do
  withKids n [← r.eval (← n.kid 0) s m]

def copyDeservesHint (n : Node) (type : TypeId) : InjectM Bool := do
  if !(← read).options.perfHints then return false
  if !(← n.isLValue (← symbols)) then return false
  if (← symbols).has (← n.root?) .captured then return false
  return (← shapeOf type) ≠ .ref

/-- Gives a sink parameter a copy that it may own. Nobody else destroys the copy. -/
def copyToSink (r : Rules) (n : Node) (s : ScopeId) : InjectM Node := do
  let h ← n.info
  let tmp ← symNode (← newTemp s h.type h.span) h.span
  let stored ← if ← isOwning h.type then do
      let cleared ← reset tmp
      let copied ← copyInto tmp (← r.eval n s .normal) n
      if ← copyDeservesHint n h.type then
        report .hint .implicitCopy h.span ("passing '" ++ (← (← printer).expr n) ++
          "' to a sink parameter introduces an implicit copy; " ++
          "if possible, rearrange your program's control flow to prevent it") []
      pure [cleared, copied]
    else do pure [← tree .asgn 0 [tmp, ← r.eval n s .normal]]
  node { kind := .stmtListExpr, span := h.span, type := h.type } (stored ++ [← copy tmp])

def canTakeOver (n : Node) : InjectM Bool := do
  if !(← isSinkParam n) then
    if !(← isOwnPlace n) then return false
  if ← isCursor n then return false
  isLastRead n

def sinkArg (r : Rules) (n : Node) (s : ScopeId) : InjectM Node := do
  if ← n.holdsConstSeq (← read).types then return ← copyToSink r n s
  let h ← n.info
  if n.isConstructor || h.kind = .call || h.kind.isLiteral then return ← r.eval n s .consumed
  if ← isVoid h.type then return ← r.eval n s .normal
  if !(← isOwning h.type) then
    if (← shapeOf h.type) = .openArray then
      reportError .openArraySinkCopy h.span
        ("cannot create an implicit openArray copy to be passed to a sink parameter; routine: " ++
          (← routineName)) []
    return ← r.eval n s .normal
  if ← canTakeOver n then return ← moveOut n
  match h.kind with
  | .conv => do
    let operand ← (← n.kid 0).info
    let same : Bool := (← shapeOf h.type) = (← shapeOf operand.type)
    evalOperand r n s (if same then .sinkArg else .normal)
  | .upConv | .downConv => evalOperand r n s .sinkArg
  | .cast => do
    let shape ← shapeOf h.type
    if shape = .string || shape = .seq then evalOperand r n s .sinkArg else copyToSink r n s
  | _ => copyToSink r n s

/-- Array, tuple and closure constructors. An aggregate on the stack owns its elements only when
something takes it over. A sequence or the environment of a closure lives on the heap: it always
owns them, and is destroyed when nobody takes it over. -/
def construct (r : Rules) (n : Node) (s : ScopeId) (m : Mode) : InjectM Node := do
  let h ← n.info
  let const := (← read).types.isConstSeq h.type
  let onHeap : Bool ← match h.kind with
    | .arrayConstr => pure ((← shapeOf h.type) = .seq && !const)
    | .closure => pure ((← (← n.kid 1).info).kind ≠ .nilLit)
    | _ => pure false
  let elem : Mode :=
    if (m = .normal && !onHeap) || (h.kind = .arrayConstr && const) then .normal else .sinkArg
  let out ← if h.kind = .closure then do
      withKids n ((← n.kid 0) :: (← (← n.kidsAfterFirst).mapM fun k => r.eval k s elem))
    else evalKids r n s elem
  if m = .normal && onHeap then keepUntilEnd out s else return out

def fieldInit (r : Rules) (s : ScopeId) (elem : Mode) (n : Node) : InjectM Node := do
  let _ ← n.info
  let field ← n.kid 0
  let cursor := (← symbols).has (← field.info).sym .cursor
  withKids n [field, ← r.eval (← n.kid 1) s (if cursor then .normal else elem)]

def constructObject (r : Rules) (n : Node) (s : ScopeId) (m : Mode) : InjectM Node := do
  let h ← n.info
  let isRef : Bool := (← shapeOf h.type) = .ref
  let elem : Mode := if m = .normal && !isRef then .normal else .sinkArg
  let out ← withKids n (← n.kids.mapM (fieldInit r s elem))
  if m = .normal && isRef then keepUntilEnd out s else return out

def signature? (types : TypeTable) (callee : TypeId) : Except Fault (Option ProcInfo) :=
  let type := types.skipAbstract callee
  match types.lookup type with
  | some d => types.procInfo? (if d.kind = .closure then d.elem else type)
  | none => types.procInfo? type

def arguments (r : Rules) (s : ScopeId) : List Param → List Node → InjectM (List Node)
  | _, [] => return []
  | [], a :: as => do
    let a ← r.eval a s .normal
    return a :: (← arguments r s [] as)
  | p :: ps, a :: as => do
    let a ← if p.compileTime then pure a else r.eval a s (if p.sink then .sinkArg else .normal)
    return a :: (← arguments r s ps as)

def allocate (n callee : Node) (args : List Node) : InjectM Node := do
  let out ← withKids n (callee :: args)
  match (← n.kidsAfterFirst).head?, args.head? with
  | some target, some arg =>
    if ← isOwning (← target.info).type then
      let old ← destroy arg
      stmts (← n.info).span [old, out]
    else return out
  | _, _ => return out

def evalCall (r : Rules) (n : Node) (s : ScopeId) (m : Mode) : InjectM Node := do
  let callee ← n.kid 0
  let h ← callee.info
  let params := ((← signature? (← read).types h.type).map (·.params.items)).getD []
  let args ← arguments r s params (← n.kidsAfterFirst)
  let allocates : Bool ← if h.kind = .sym then do
      pure ((← Node.symbolOf (← symbols) h).magic = .new)
    else pure false
  let out ← if allocates then allocate n callee args
    else do withKids n ((← r.eval callee s .normal) :: args)
  if ← mayRaise (← symbols) (← read).types n then markLeftEarly s
  if m = .normal then keepUntilEnd out s else return out

end InjectM

end Lifecycle
