import Lifecycle.Flow.Graph

/-!
# From trees to graphs

A `Plan` says what the evaluation of a tree consists of, in order: accesses, choices, loops, jumps
and guarded parts. `plan` reads it off a tree, and `Plan.code` writes it down as instructions. Only
storage of the routine is recorded.
-/

namespace Lifecycle

structure Lowering where
  symbols : Symbols
  types : TypeTable
  owner : Option SymRef

structure Surroundings where
  labels : List (Option SymRef) := []
  inTry : Bool := false

def mayRaise (ss : Symbols) (types : TypeTable) (call : Node) : Except Fault Bool := do
  if (← call.info).kind ≠ .call then return false
  let callee ← (← call.kid 0).info
  if callee.kind = .sym && ss.has callee.sym .canRaise then return true
  return ((← types.procInfo? callee.type).map (·.raises)).getD false

def closeBlock : List Instr → List Instr
  | [] => []
  | .goto n (.leave 0) :: rest => .goto n (.by (rest.length + 1)) :: closeBlock rest
  | .goto n (.leave (k + 1)) :: rest => .goto n (.leave k) :: closeBlock rest
  | i :: rest => i :: closeBlock rest

def closeTry : List Instr → List Instr
  | [] => []
  | .goto n .unwind :: rest => .goto n (.by (rest.length + 1)) :: closeTry rest
  | i :: rest => i :: closeTry rest

def armCode (origin : Node) (body rest : List Instr) : List Instr :=
  .fork origin (body.length + 2) :: body ++ .goto origin (.by (rest.length + 1)) :: rest

def roundsCode (origin : Node) (cond body : List Instr) : Nat → List Instr
  | 0 => []
  | n + 1 =>
    let rest := roundsCode origin cond body n
    cond ++ .fork origin (body.length + rest.length + 1) :: body ++ rest

def Instr.access (writes : Bool) (loc : Node) : Instr := if writes then .define loc else .use loc

inductive Plan where
  | skip
  | access (writes : Bool) (loc : Node)
  | seq (first second : Plan)
  | option (origin : Node) (body : Plan)
  | arm (origin : Node) (body rest : Plan)
  | jump (origin : Node) (target : Jump)
  | block (body : Plan)
  | loop (origin : Node) (cond body : Plan)
  | forever (body : Plan)
  | guard (body handlers final : Plan)

def Plan.code : Plan → List Instr
  | .skip => []
  | .access w n => [.access w n]
  | .seq a b => a.code ++ b.code
  | .option o body => .fork o (body.code.length + 1) :: body.code
  | .arm o body rest => armCode o body.code rest.code
  | .jump o j => [.goto o j]
  | .block body => closeBlock body.code
  | .loop o cond body => closeBlock (roundsCode o cond.code body.code 3)
  | .forever body => closeBlock (body.code ++ body.code ++ body.code)
  | .guard body handlers final => closeTry body.code ++ handlers.code ++ final.code

def isTrue (h : Head) : Bool := h.kind = .boolLit && h.int ≠ 0

namespace Lowering

def tracks (c : Lowering) (s : Option SymRef) : Bool := c.symbols.isLocal s c.owner

def tracksPath (c : Lowering) (n : Node) : Except Fault Bool := do
  match ← n.path? with
  | some p => return c.tracks p.root
  | none => return false

def isShortCircuit (c : Lowering) (callee : Node) (args : List Node) : Except Fault Bool := do
  let f ← callee.info
  if f.kind = .sym && args.length = 2 then
    let magic := (c.symbols.get (← orAbsent f.sym)).magic
    return magic = .and || magic = .or
  else return false

def unwinds (c : Lowering) (s : Surroundings) (call : Node) : Except Fault Bool :=
  if s.inTry then mayRaise c.symbols c.types call else .ok false

/-- A jump to the end of the block with this label, or of the innermost one. Without such a block
it leaves the routine. -/
def breakJump (s : Surroundings) (label : Head) : Jump :=
  let level := if label.kind = .sym then s.labels.findIdx? (· = label.sym)
    else if s.labels.isEmpty then none else some 0
  match level with
  | some k => .leave k
  | none => .exit

def planWrite (c : Lowering) (n : Node) (read operands : Unit → Except Fault Plan) :
    Except Fault Plan := do
  match ← n.path? with
  | none => read ()
  | some p =>
    if c.tracks p.root then return .seq (← operands ()) (.access (!p.hasDeref) n) else read ()

mutual

def plan (c : Lowering) (s : Surroundings) : Node → Except Fault Plan
  | .hole => .ok .skip
  | .node h kids =>
    match h.kind with
    | .sym => .ok (if c.tracks h.sym then .access false (.node h kids) else .skip)
    | .dot | .deref => do
      let tracked ← c.tracksPath (.node h kids)
      match kids with
      | [] => .error .absent
      | k :: _ =>
        if tracked then return .seq (← c.planOperands s k) (.access false (.node h kids))
        else c.plan s k
    | .index => do
      let tracked ← c.tracksPath (.node h kids)
      match kids with
      | k :: i :: _ =>
        if tracked then
          return .seq (.seq (← c.plan s i) (← c.planOperands s k)) (.access false (.node h kids))
        else return .seq (← c.plan s k) (← c.plan s i)
      | _ => .error .absent
    | .addr | .conv | .upConv | .downConv | .cast | .discardStmt =>
      match kids with
      | k :: _ => c.plan s k
      | [] => .error .absent
    | .call =>
      match kids with
      | [] => .error .absent
      | callee :: args => do
        if ← c.isShortCircuit callee args then c.planShort s (.node h kids) args
        else
          let p := Plan.seq (← c.plan s callee) (← c.planAll s args)
          if ← c.unwinds s (.node h kids) then
            return .seq p (.option (.node h kids) (.jump (.node h kids) .unwind))
          else return p
    | .fieldInit | .closure =>
      match kids with
      | _ :: v :: _ => c.plan s v
      | _ => .error .absent
    | .objConstr | .arrayConstr | .tupleConstr | .stmtList | .stmtListExpr => c.planAll s kids
    | .block =>
      match kids with
      | l :: body :: _ => do
        let l ← l.info
        let label := if l.kind = .sym then l.sym else none
        return .block (← c.plan { s with labels := label :: s.labels } body)
      | _ => .error .absent
    | .ifStmt => c.planElifs s kids
    | .caseStmt =>
      match kids with
      | sel :: arms => do return .seq (← c.plan s sel) (← c.planArms s arms)
      | [] => .error .absent
    | .whileStmt =>
      match kids with
      | cond :: body :: _ => do
        let inner := { s with labels := none :: s.labels }
        let h' ← cond.info
        let body ← c.plan inner body
        if isTrue h' then return .forever body
        else return .loop (.node h kids) (← c.plan inner cond) body
      | _ => .error .absent
    | .tryStmt =>
      match kids with
      | body :: handlers => do
        return .guard (← c.plan { s with inTry := true } body) (← c.planHandlers s handlers)
          (← c.planFinally s handlers)
      | [] => .error .absent
    | .raiseStmt | .returnStmt =>
      match kids with
      | v :: _ => do
        return .seq (← c.plan s v) (.jump (.node h kids) (if s.inTry then .unwind else .exit))
      | [] => .error .absent
    | .breakStmt =>
      match kids with
      | l :: _ => do return .jump (.node h kids) (breakJump s (← l.info))
      | [] => .error .absent
    | .asgn | .fastAsgn =>
      match kids with
      | dest :: src :: _ => do
        let value ← c.plan s src
        return .seq value
          (← c.planWrite dest (fun _ => c.plan s dest) (fun _ => c.planOperands s dest))
      | _ => .error .absent
    | .varSection => c.planDefs s kids
    | _ => .ok .skip

def planAll (c : Lowering) (s : Surroundings) : List Node → Except Fault Plan
  | [] => .ok .skip
  | k :: ks => do return .seq (← c.plan s k) (← c.planAll s ks)

def planShort (c : Lowering) (s : Surroundings) (origin : Node) : List Node → Except Fault Plan
  | [a, b] => do
    let second ← c.plan s b
    return .seq (← c.plan s a) (.option origin second)
  | _ => .ok .skip

def planOperands (c : Lowering) (s : Surroundings) : Node → Except Fault Plan
  | .hole => .ok .skip
  | .node h [] => if Node.stepsInto h.kind then .error .absent else .ok .skip
  | .node h (k :: ks) =>
    if h.kind = .index then
      match ks with
      | i :: _ => do return .seq (← c.plan s i) (← c.planOperands s k)
      | [] => .error .absent
    else if Node.stepsInto h.kind then c.planOperands s k
    else .ok .skip

def planElifs (c : Lowering) (s : Surroundings) : List Node → Except Fault Plan
  | [] => .ok .skip
  | .hole :: _ => .error .absent
  | .node h kids :: rest =>
    if h.kind = .elseBranch then
      match kids with
      | body :: _ => do return .seq (← c.plan s body) (← c.planElifs s rest)
      | [] => .error .absent
    else
      match kids with
      | cond :: body :: _ => do
        let cond ← c.plan s cond
        let body ← c.plan s body
        return .seq cond (.arm (.node h kids) body (← c.planElifs s rest))
      | _ => .error .absent

def planArms (c : Lowering) (s : Surroundings) : List Node → Except Fault Plan
  | [] => .ok .skip
  | .hole :: _ => .error .absent
  | .node h kids :: rest => do
    let body ← c.planLast s kids
    let rest ← c.planArms s rest
    if h.kind = .elseBranch then return .seq body rest else return .arm (.node h kids) body rest

def planLast (c : Lowering) (s : Surroundings) : List Node → Except Fault Plan
  | [] => .error .absent
  | [k] => c.plan s k
  | _ :: ks => c.planLast s ks

def planHandlers (c : Lowering) (s : Surroundings) : List Node → Except Fault Plan
  | [] => .ok .skip
  | .hole :: _ => .error .absent
  | .node h kids :: rest =>
    if h.kind = .finallyBranch then c.planHandlers s rest
    else
      match kids with
      | body :: _ => do
        let body ← c.plan s body
        return .arm (.node h kids) body (← c.planHandlers s rest)
      | [] => .error .absent

def planFinally (c : Lowering) (s : Surroundings) : List Node → Except Fault Plan
  | [] => .ok .skip
  | .hole :: _ => .error .absent
  | .node h kids :: rest =>
    if h.kind = .finallyBranch && !rest.any (·.isKind .finallyBranch) then
      match kids with
      | body :: _ => c.plan s body
      | [] => .error .absent
    else c.planFinally s rest

def planDefs (c : Lowering) (s : Surroundings) : List Node → Except Fault Plan
  | [] => .ok .skip
  | .hole :: _ => .error .absent
  | .node _ kids :: rest =>
    match kids with
    | v :: init :: _ => do
      if (← init.info).kind = .empty then c.planDefs s rest
      else
        let value ← c.plan s init
        let target ← c.planWrite v (fun _ => c.plan s v) (fun _ => c.planOperands s v)
        return .seq (.seq value target) (← c.planDefs s rest)
    | _ => .error .absent

end

end Lowering

def Routine.graph (r : Routine) (ss : Symbols) (types : TypeTable) : Except Fault Graph := do
  let c : Lowering := { symbols := ss, types, owner := r.sym }
  return ⟨(← c.plan {} r.body).code.toArray⟩

end Lifecycle
