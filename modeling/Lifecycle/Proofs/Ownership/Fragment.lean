import Lifecycle.Proofs.Flow.Names
import Lifecycle.Proofs.Injection.Operators
import Lifecycle.Proofs.Ownership.Machine

/-!
# Routines over strings

The routines that the ownership machine can follow: they declare strings, assign literals, results
of calls and other strings to them, call routines, branch and loop on parameters. `fits` are the
rules: names are in scope, a declared variable is an ordinary local string, callees are ordinary
routines that do not raise, and an assignment does not mention its destination unless it assigns the
variable to itself.
-/

namespace Lifecycle

/-- Kinds of which a value owns nothing and can be handed over as it is. -/
def TypeTable.isBare (types : TypeTable) (t : TypeId) : Bool :=
  (types.kindOf t).isScalar && types.kindOf t ≠ .openArray

/-- The routine and what it is compiled with. -/
structure Setting where
  types : TypeTable
  symbols : Symbols
  routine : Routine

def Symbol.isOrdinary (s : Symbol) : Bool :=
  !(s.has .cursor || s.has .threadVar || s.has .noInit || s.has .compileTime ||
    s.has .singleUsedTemp)

namespace Setting

variable (S : Setting)

def lowering : Lowering := ⟨S.symbols, S.types, S.routine.sym⟩

def isKnown (x : SymRef) : Bool := x < S.symbols.all.size

def isTextVar (x : SymRef) : Bool := S.types.isText (S.symbols.get x).type

def isLocal (x : SymRef) : Bool :=
  S.isKnown x && (S.symbols.get x).kind = .varLocal &&
    (S.symbols.get x).owner = S.routine.sym && S.isTextVar x && (S.symbols.get x).isOrdinary

/-- A string that the routine takes over. -/
def isTaken (x : SymRef) : Bool :=
  S.isKnown x && (S.symbols.get x).kind = .param && (S.symbols.get x).has .sink &&
    (S.symbols.get x).owner = S.routine.sym && S.isTextVar x && (S.symbols.get x).isOrdinary &&
    S.routine.params.contains (some x)

/-- A variable that others look after. -/
def isForeign (x : SymRef) : Bool :=
  S.isKnown x && (S.isTextVar x || S.types.isBare (S.symbols.get x).type) &&
    ((S.symbols.get x).kind = .global ||
      (S.symbols.get x).kind = .param && !((S.symbols.get x).has .sink && S.isTextVar x))

def isCondition (x : SymRef) : Bool :=
  S.isKnown x && (S.symbols.get x).kind = .param &&
    S.types.kindOf (S.symbols.get x).type = .bool

/-- A routine that does not raise and is no operator. -/
def isCallee (c : Head) (f : SymRef) : Bool :=
  S.isKnown f && (S.symbols.get f).kind = .proc && (S.symbols.get f).magic = .none &&
    !(S.symbols.get f).has .generated && !(S.symbols.get f).has .canRaise &&
    S.types.kindOf c.type = .proc &&
    match S.types.procInfo? c.type with
    | .ok (some p) => !p.raises && p.params.items.all (!·.compileTime)
    | _ => false

end Setting

namespace Fragment

def named (h : Head) (x : SymRef) : Node := .node { h with kind := .sym, sym := some x } []

mutual

/-- Expressions of the fragment. -/
inductive Expr where
  | name (h : Head) (x : SymRef)
  | text (h : Head)
  | call (h callee : Head) (f : SymRef) (args : Args)

inductive Args where
  | nil
  | cons (e : Expr) (as : Args)

end

mutual

/-- Statements of the fragment. -/
inductive Stmt where
  | seq (h : Head) (b : Block)
  | declare (h d v i : Head) (x : SymRef)
  | define (h d v : Head) (x : SymRef) (e : Expr)
  | assign (h v : Head) (x : SymRef) (e : Expr)
  | eval (e : Expr)
  | discard (h : Head) (e : Expr)
  | cond (h : Head) (a : Arms)
  | loop (h c : Head) (p : SymRef) (body : Stmt)

inductive Block where
  | nil
  | cons (t : Stmt) (b : Block)

inductive Arms where
  | nil
  | other (h : Head) (body : Stmt)
  | test (h c : Head) (p : SymRef) (body : Stmt) (rest : Arms)

end

/-! ## As trees -/

mutual

def Expr.node : Expr → Node
  | .name h x => named h x
  | .text h => .node { h with kind := .strLit } []
  | .call h c f as => .node { h with kind := .call } (named c f :: as.nodes)

def Args.nodes : Args → List Node
  | .nil => []
  | .cons e as => e.node :: as.nodes

end

mutual

def Stmt.node : Stmt → Node
  | .seq h b => .node { h with kind := .stmtList } b.nodes
  | .declare h d v i x =>
    .node { h with kind := .varSection }
      [.node { d with kind := .identDefs } [named v x, .node { i with kind := .empty } []]]
  | .define h d v x e =>
    .node { h with kind := .varSection } [.node { d with kind := .identDefs } [named v x, e.node]]
  | .assign h v x e => .node { h with kind := .asgn } [named v x, e.node]
  | .eval e => e.node
  | .discard h e => .node { h with kind := .discardStmt } [e.node]
  | .cond h a => .node { h with kind := .ifStmt } a.nodes
  | .loop h c p body => .node { h with kind := .whileStmt } [named c p, body.node]

def Block.nodes : Block → List Node
  | .nil => []
  | .cons t b => t.node :: b.nodes

def Arms.nodes : Arms → List Node
  | .nil => []
  | .other h body => [.node { h with kind := .elseBranch } [body.node]]
  | .test h c p body rest =>
    .node { h with kind := .elifBranch } [named c p, body.node] :: rest.nodes

end

/-! ## Names -/

mutual

def Expr.names : Expr → List SymRef
  | .name _ x => [x]
  | .text _ => []
  | .call _ _ _ as => as.names

def Args.names : Args → List SymRef
  | .nil => []
  | .cons e as => e.names ++ as.names

end

mutual

def Stmt.decls : Stmt → List SymRef
  | .seq _ b => b.decls
  | .declare _ _ _ _ x | .define _ _ _ x _ => [x]
  | .assign _ _ _ _ | .eval _ | .discard _ _ => []
  | .cond _ a => a.decls
  | .loop _ _ _ body => body.decls

def Block.decls : Block → List SymRef
  | .nil => []
  | .cons t b => t.decls ++ b.decls

def Arms.decls : Arms → List SymRef
  | .nil => []
  | .other _ body => body.decls
  | .test _ _ _ body rest => body.decls ++ rest.decls

end

mutual

/-- The variables that what follows the statement can use. -/
def Stmt.exports : Stmt → List SymRef
  | .seq _ b => b.exports
  | .declare _ _ _ _ x | .define _ _ _ x _ => [x]
  | _ => []

def Block.exports : Block → List SymRef
  | .nil => []
  | .cons t b => t.exports ++ b.exports

end

mutual

def Expr.sites : Expr → List Nat
  | .name h _ => [h.site]
  | .text _ => []
  | .call _ _ _ as => as.sites

def Args.sites : Args → List Nat
  | .nil => []
  | .cons e as => e.sites ++ as.sites

end

mutual

def Stmt.sites : Stmt → List Nat
  | .seq _ b => b.sites
  | .declare _ _ _ _ _ => []
  | .define _ _ v _ e | .assign _ v _ e => e.sites ++ [v.site]
  | .eval e | .discard _ e => e.sites
  | .cond _ a => a.sites
  | .loop _ c _ body => c.site :: body.sites

def Block.sites : Block → List Nat
  | .nil => []
  | .cons t b => t.sites ++ b.sites

def Arms.sites : Arms → List Nat
  | .nil => []
  | .other _ body => body.sites
  | .test _ c _ body rest => c.site :: (body.sites ++ rest.sites)

end

/-! ## Rules -/

def Expr.isCall : Expr → Bool
  | .call _ _ _ _ => true
  | _ => false

def Expr.isName (x : SymRef) : Expr → Bool
  | .name _ y => y = x
  | _ => false

def Expr.isText (S : Setting) : Expr → Bool
  | .text _ => true
  | .name h _ | .call h _ _ _ => S.types.isText h.type

mutual

/-- `Γ` are the strings of the routine that are in scope. -/
def Expr.fits (S : Setting) (Γ : List SymRef) : Expr → Bool
  | .name h x =>
    if Γ.contains x then S.types.isText h.type
    else S.isForeign x &&
      if S.isTextVar x then S.types.isText h.type else S.types.isBare h.type
  | .text _ => true
  | .call h c f as =>
    S.isCallee c f && (S.types.isText h.type || S.types.isBare h.type) && as.fits S Γ

def Args.fits (S : Setting) (Γ : List SymRef) : Args → Bool
  | .nil => true
  | .cons e as => e.fits S Γ && as.fits S Γ

end

def Expr.fitsIn (S : Setting) (Γ : List SymRef) (v : Head) (x : SymRef) (e : Expr) : Bool :=
  S.isLocal x && S.types.isText v.type && e.fits S Γ && e.isText S

mutual

/-- The statement is one of the fragment. -/
def Stmt.fits (S : Setting) (Γ : List SymRef) : Stmt → Bool
  | .seq _ b => b.fits S Γ
  | .declare _ _ v _ x => S.isLocal x && S.types.isText v.type
  | .define _ _ v x e => e.fitsIn S Γ v x
  | .assign _ v x e => Γ.contains x && e.fitsIn S Γ v x && (e.isName x || !e.names.contains x)
  | .eval e | .discard _ e => e.isCall && e.fits S Γ
  | .cond h a => S.types.isEmpty h.type && a.fits S Γ
  | .loop _ _ p body => S.isCondition p && body.fits S Γ

def Block.fits (S : Setting) (Γ : List SymRef) : Block → Bool
  | .nil => true
  | .cons t b => t.fits S Γ && b.fits S (t.exports ++ Γ)

def Arms.fits (S : Setting) (Γ : List SymRef) : Arms → Bool
  | .nil => true
  | .other _ body => body.fits S Γ
  | .test _ _ p body rest => S.isCondition p && body.fits S Γ && rest.fits S Γ

end

/-! ## Flow -/

def readCode (S : Setting) (h : Head) (x : SymRef) : List Instr :=
  if S.symbols.isLocal (some x) S.routine.sym then [.use (named h x)] else []

mutual

def Expr.code (S : Setting) : Expr → List Instr
  | .name h x => readCode S h x
  | .text _ => []
  | .call _ _ _ as => as.code S

def Args.code (S : Setting) : Args → List Instr
  | .nil => []
  | .cons e as => e.code S ++ as.code S

end

mutual

def Stmt.code (S : Setting) : Stmt → List Instr
  | .seq _ b => b.code S
  | .declare _ _ _ _ _ => []
  | .define _ _ v x e | .assign _ v x e => e.code S ++ [.define (named v x)]
  | .eval e | .discard _ e => e.code S
  | .cond _ a => a.code S
  | .loop h c p body => roundsCode (Stmt.node (.loop h c p body)) (readCode S c p) (body.code S) 3

def Block.code (S : Setting) : Block → List Instr
  | .nil => []
  | .cons t b => t.code S ++ b.code S

def Arms.code (S : Setting) : Arms → List Instr
  | .nil => []
  | .other _ body => body.code S
  | .test h c p body rest =>
    readCode S c p ++
      armCode (.node { h with kind := .elifBranch } [named c p, body.node]) (body.code S)
        (rest.code S)

end

end Fragment

end Lifecycle
