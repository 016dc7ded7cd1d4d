import Mathlib.Tactic.Common
import Lifecycle.Injection.Basic

/-!
# The ownership machine

A machine that runs a routine with its lifecycle operations and keeps account of who owns what. A
variable is a slot. A value comes into being when a routine gives a string, when a literal is stored
or taken over, and with every copy; it ends when it is destroyed or taken over by a sink parameter.
Conditions are open: a run is given the choices it makes, and any list of choices is a run.
-/

namespace Lifecycle

/-- What a variable holds. -/
inductive Slot where
  | empty
  /-- Something that owns nothing, such as a number or a default. -/
  | blank
  /-- A value that somebody else owns. -/
  | lent
  | full (value : Nat)
deriving DecidableEq

/-- What an expression comes to. A literal is no value until it is stored or taken over. -/
inductive Val where
  | literal
  | held (s : Slot)
deriving DecidableEq

/-- The state of a run: who owns which value, and which have ended. -/
structure Ledger where
  slot : SymRef → Slot
  next : Nat := 0
  released : List Nat := []
  misused : Bool := false
  /-- The outcomes of the conditions to come; when they are used up, conditions fail. -/
  choices : List Bool := []

namespace Ledger

def misuse (m : Ledger) : Ledger := { m with misused := true }

def put (m : Ledger) (x : SymRef) (a : Slot) : Ledger :=
  { m with slot := fun y => if y = x then a else m.slot y }

def release (m : Ledger) (v : Nat) : Ledger := { m with released := v :: m.released }

def drop (m : Ledger) : Slot → Ledger
  | .full v => m.release v
  | .lent => m.misuse
  | .blank | .empty => m

def isUsable (m : Ledger) : Slot → Bool
  | .empty => false
  | .full v => !m.released.contains v
  | .blank | .lent => true

def read (m : Ledger) (x : SymRef) : Val × Ledger :=
  (.held (m.slot x), if m.isUsable (m.slot x) then m else m.misuse)

def fill (m : Ledger) (x : SymRef) : Ledger := { m.put x (.full m.next) with next := m.next + 1 }

def store (m : Ledger) (x : SymRef) : Val → Ledger
  | .literal => m.fill x
  | .held a => m.put x a

/-- A sink parameter takes a value over and ends it. -/
def give (m : Ledger) : Val → Ledger
  | .literal => { m.release m.next with next := m.next + 1 }
  | .held .empty => m.misuse
  | .held a => m.drop a

/-- Ends what the variable holds. -/
def destroy (m : Ledger) (x : SymRef) : Ledger := (m.drop (m.slot x)).put x .empty

/-- Copies into the slot; what it held is destroyed first. -/
def copyTo (m : Ledger) (x : SymRef) : Ledger := (m.drop (m.slot x)).fill x

/-- The outcome of the next condition. -/
def choice (m : Ledger) : Bool × Ledger :=
  match m.choices with
  | b :: bs => (b, { m with choices := bs })
  | [] => (false, m)

/-- Rounds of a loop. Each takes a choice, so there are no more of them than choices. -/
def loop (cond body : Ledger → Ledger) : Nat → Ledger → Ledger
  | 0, m => m
  | n + 1, m =>
    let (go, m) := (cond m).choice
    if go then loop cond body n (body m) else m

def onName (m : Ledger) (args : List Node) (f : Ledger → SymRef → Ledger) : Ledger :=
  match args with
  | [.node h _] => if h.kind = .sym then (h.sym.map (f m)).getD m.misuse else m.misuse
  | _ => m.misuse

/-- Nothing was misused, and every value that came into being has ended once. -/
def Balanced (m : Ledger) : Prop :=
  m.misused = false ∧ ∀ v < m.next, m.released.count v = 1

end Ledger

/-- What a call does to the ledger. -/
inductive Role where
  | destroy
  | copy
  | reset
  | default
  | routine
deriving DecidableEq

structure Runtime where
  types : TypeTable
  symbols : Symbols

def TypeTable.isText (types : TypeTable) (t : TypeId) : Bool := types.kindOf t = .string

/-- Built-in operations are told by their magic, made-up operators by their name. -/
def Symbol.role (s : Symbol) : Role :=
  match s.magic with
  | .wasMoved => .reset
  | .default => .default
  | _ =>
    if s.has .generated && s.name = OpKind.destroy.text then .destroy
    else if s.has .generated && s.name = OpKind.copy.text then .copy
    else .routine

def TypeTable.paramsOf (types : TypeTable) (callee : TypeId) : List Param :=
  match types.procInfo? callee with
  | .ok (some p) => p.params.items
  | _ => []

def takesFirst (ps : List Param) : Bool := (ps.head?.map (·.sink)).getD false

namespace Node

def name? : Node → Option SymRef
  | .hole => none
  | .node h _ => if h.kind = .sym then h.sym else none

mutual

/-- Runs a tree on the ledger. -/
def run (w : Runtime) : Node → Ledger → Val × Ledger
  | .hole, m => (.held .blank, m.misuse)
  | .node h ks, m =>
    match h.kind with
    | .empty => (.held .blank, m)
    | .sym =>
      match h.sym with
      | some x => m.read x
      | none => (.held .blank, m.misuse)
    | .strLit => (.literal, m)
    | .stmtList | .stmtListExpr | .discardStmt => runSeq w ks (.held .blank, m)
    | .varSection => (.held .blank, runDefs w ks m)
    | .fastAsgn => (.held .blank, runStore w ks m)
    | .call => runCall w h.type ks m
    | .ifStmt => (.held .blank, runArms w ks m)
    | .whileStmt => (.held .blank, runLoop w ks m)
    | _ => (.held .blank, m.misuse)

def runSeq (w : Runtime) : List Node → Val × Ledger → Val × Ledger
  | [], r => r
  | k :: ks, r => runSeq w ks (k.run w r.2)

def runDefs (w : Runtime) : List Node → Ledger → Ledger
  | [], m => m
  | .hole :: _, m => m.misuse
  | .node _ ks :: rest, m => runDefs w rest (runDef w ks m)

def runDef (w : Runtime) : List Node → Ledger → Ledger
  | [v, init], m =>
    match v.name? with
    | some x =>
      if init.isKind .empty then m.put x .empty
      else
        let (a, m) := init.run w m
        m.store x a
    | none => m.misuse
  | _, m => m.misuse

def runStore (w : Runtime) : List Node → Ledger → Ledger
  | [dest, src], m =>
    let (a, m) := src.run w m
    match dest.name? with
    | some x => m.store x a
    | none => m.misuse
  | _, m => m.misuse

def runCopy (w : Runtime) : List Node → Ledger → Ledger
  | [dest, src], m =>
    let (_, m) := src.run w m
    match dest.name? with
    | some x => m.copyTo x
    | none => m.misuse
  | _, m => m.misuse

def runCall (w : Runtime) (result : TypeId) : List Node → Ledger → Val × Ledger
  | .node c _ :: args, m =>
    match if c.kind = .sym then c.sym else none with
    | none => (.held .blank, m.misuse)
    | some f =>
      match (w.symbols.get f).role with
      | .destroy => (.held .blank, m.onName args Ledger.destroy)
      | .reset => (.held .blank, m.onName args fun m x => m.put x .empty)
      | .default => (.held .blank, m)
      | .copy => (.held .blank, runCopy w args m)
      | .routine =>
        let m := runArgs w (w.types.paramsOf c.type) args m
        if w.types.isText result then (.held (.full m.next), { m with next := m.next + 1 })
        else (.held .blank, m)
  | _, m => (.held .blank, m.misuse)

/-- Arguments from left to right, each given away as soon as it is evaluated if its parameter takes
it over. -/
def runArgs (w : Runtime) (ps : List Param) : List Node → Ledger → Ledger
  | [], m => m
  | a :: as, m =>
    let (v, m) := a.run w m
    runArgs w ps.tail as (if takesFirst ps then m.give v else m)

def runArms (w : Runtime) : List Node → Ledger → Ledger
  | [], m => m
  | .hole :: _, m => m.misuse
  | .node h ks :: rest, m =>
    if h.kind = .elseBranch then (runSeq w ks (.held .blank, m)).2
    else
      match ks with
      | [cond, body] =>
        let (go, m) := (cond.run w m).2.choice
        if go then (body.run w m).2 else runArms w rest m
      | _ => m.misuse

def runLoop (w : Runtime) : List Node → Ledger → Ledger
  | [cond, body], m =>
    Ledger.loop (fun m => (cond.run w m).2) (fun m => (body.run w m).2) (m.choices.length + 1) m
  | _, m => m.misuse

end

theorem run_name (hk : h.kind = .sym)
    (hx : h.sym = some x) (m : Ledger) : (node h ks).run w m = m.read x := by
  rw [run, hk, hx]

end Node

def Routine.taken (r : Routine) (w : Runtime) : List SymRef :=
  (r.params.filterMap id).filter fun x =>
    (w.symbols.get x).has .sink && w.types.isText (w.symbols.get x).type

/-- What holds a value before the routine starts: the parameters it takes over hold one each, other
parameters and globals hold what the routine does not own. -/
def Ledger.start (w : Runtime) (r : Routine) (choices : List Bool) : Ledger where
  slot x :=
    match (r.taken w).idxOf? x with
    | some k => .full k
    | none =>
      let s := w.symbols.get x
      if s.kind = .param ∨ s.kind = .global then
        if w.types.isText s.type then .lent else .blank
      else .empty
  next := (r.taken w).length
  choices

end Lifecycle
