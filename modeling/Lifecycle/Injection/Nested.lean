import Lifecycle.Injection.Rules

/-!
# Statement lists and control flow

Each branch, loop body and block has a scope of its own; a statement list has none. A branch whose
value is used hands it on through a temporary of the scope around, so that what the branch declares
is destroyed before.
-/

namespace Lifecycle

namespace InjectM

/-- Closes the scope around a value. The value is stored in a temporary of the scope around, which
is then used as the whole construct is. -/
def closeAroundValue (r : Rules) (i : ScopeId) (ret : Node) (u : Use) : InjectM Node := do
  let some parent := (← scope i).parent | throw (.fault .absent)
  let h ← ret.info
  let tmpSym ← newTemp parent h.type h.span
  let tmp ← symNode tmpSym h.span
  modify fun s => { s with ops := s.ops.modifyFlags tmpSym fun f => f.union .singleUsedTemp }
  let stored ← if ← isOwning h.type then do
      addFinal parent (← destroy tmp)
      r.store tmp ret i true
    else do fastAsgn tmp (← r.eval ret i .normal)
  let sc ← closeScope i
  let result ← r.yield u tmp parent
  let decls ← if sc.vars.isEmpty then pure [] else do pure [← declarations sc.vars h.span]
  let rest ← if sc.isIdle then pure [stored, result]
    else if sc.leftEarly then do
      let body ← tree .stmtListExpr h.type [stored, result]
      pure [← tryFinally body (← cleanup sc h.span) h.type]
    else do pure [stored, ← cleanup sc h.span, result]
  node { kind := .stmtListExpr, span := h.span, type := h.type } (decls ++ rest)

def evalOrYield (r : Rules) (u : Use) (n : Node) (s : ScopeId) : InjectM Node := do
  if ← isVoid (← n.info).type then r.eval n s .normal else r.yield u n s

def arm (r : Rules) (u : Use) (s : ScopeId) (isStmt : Bool) (body : Node) : InjectM Node := do
  let inner ← openScope (some s)
  let plain ← if isStmt || u.isStmt then pure true else do isVoid (← body.info).type
  if plain then closeAround inner (← evalOrYield r u body inner)
  else closeAroundValue r inner body u

/-- The construct itself with other children. One that stores its values has no value left. -/
def rebuild (n : Node) (u : Use) (kids : List Node) : InjectM Node := do
  let h ← n.info
  if u.isStmt then
    node { h with type := 0, kind := if h.kind = .stmtListExpr then .stmtList else h.kind } kids
  else node h kids

def inOwnScope (r : Rules) (s : ScopeId) (body : Node) : InjectM Node := do
  let inner ← openScope (some s)
  closeAround inner (← r.eval body inner .normal)

/-- An arm of an `if`. What its condition needs belongs to the scope around. -/
def ifArm (r : Rules) (u : Use) (s : ScopeId) (isStmt : Bool) (n : Node) : InjectM Node := do
  let h ← n.info
  let cond ← if h.kind = .elifBranch then do pure [← r.eval (← n.kid 0) s .normal] else pure []
  node h (cond ++ [← arm r u s isStmt (← n.lastKid)])

def caseArm (r : Rules) (u : Use) (s : ScopeId) (isStmt : Bool) (n : Node) : InjectM Node := do
  let h ← n.info
  let labels ← (← n.kidsBeforeLast).mapM copy
  node h (labels ++ [← arm r u s isStmt (← n.lastKid)])

def handler (r : Rules) (u : Use) (s : ScopeId) (isStmt : Bool) (n : Node) : InjectM Node := do
  let h ← n.info
  let body ← n.kid 0
  if h.kind = .finallyBranch then node h [← inOwnScope r s body]
  else node h [← arm r u s isStmt body]

def loop (r : Rules) (s : ScopeId) (n : Node) : InjectM Node := do
  let h ← n.info
  modify fun st => { st with loops := st.loops + 1, conditions := st.conditions + 1 }
  let cond ← r.eval (← n.kid 0) s .normal
  modify fun st => { st with conditions := st.conditions - 1 }
  let inner ← openScope (some s)
  let body ← closeAround inner (← r.eval (← n.kid 1) inner .normal)
  modify fun st => { st with loops := st.loops - 1 }
  node h [cond, body]

def nested (r : Rules) (u : Use) (n : Node) (s : ScopeId) : InjectM Node := do
  let h ← n.info
  let isStmt ← isVoid h.type
  match h.kind with
  | .stmtList | .stmtListExpr =>
    match n.kids.getLast? with
    | none => rebuild n u []
    | some last => do
      let before ← n.kids.dropLast.mapM fun k => r.eval k s .normal
      rebuild n u (before ++ [← evalOrYield r u last s])
  | .ifStmt => do rebuild n u (← n.kids.mapM (ifArm r u s isStmt))
  | .caseStmt => do
    let selector ← r.eval (← n.kid 0) s .normal
    rebuild n u (selector :: (← (← n.kidsAfterFirst).mapM (caseArm r u s isStmt)))
  | .whileStmt => loop r s n
  | .block => do
    let label ← n.kid 0
    rebuild n u [label, ← arm r u s isStmt (← n.kid 1)]
  | .tryStmt => do
    let body ← arm r u s isStmt (← n.kid 0)
    rebuild n u (body :: (← (← n.kidsAfterFirst).mapM (handler r u s isStmt)))
  | _ => throw (.notNested h)

end InjectM

end Lifecycle
