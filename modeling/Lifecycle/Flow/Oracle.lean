import Lifecycle.Flow.Graph

/-!
# The oracle

Three questions about a location of a routine: is this read the last one, is this write the first
one, and which variables may be read before they are written. Each is answered by a scan of the flow
graph. A fork is scanned along both of its ways until they meet again.
-/

namespace Lifecycle

inductive Verdict where
  | goOn
  | settled
  | clash
deriving DecidableEq

inductive ScanEnd where
  | at (pc : Nat)
  | clash (access : Node)
  | lost

/-- A question to a graph: the verdict at an access, and when two ways of a fork are given up
before they meet. -/
structure Scan where
  judge : Instr → Verdict
  apart : (a b until_ : Nat) → Bool

def scanDepth (n : Nat) : Nat := (n + 2) * (n + 2)

namespace Graph

mutual

def scan (g : Graph) (q : Scan) : (steps pc until_ : Nat) → ScanEnd
  | 0, _, _ => .lost
  | n + 1, pc, until_ =>
    if until_ ≤ pc then .at pc
    else
      match g.code[pc]? with
      | none => .at pc
      | some (.goto _ j) => g.scan q n (pc + j.dist pc) until_
      | some (.fork _ d) =>
        match g.scanFork q n (pc + 1) (pc + d) until_ with
        | .at pc => g.scan q n pc until_
        | e => e
      | some (.define loc) =>
        match q.judge (.define loc) with
        | .goOn => g.scan q n (pc + 1) until_
        | .settled => .at g.size
        | .clash => .clash loc
      | some (.use loc) =>
        match q.judge (.use loc) with
        | .goOn => g.scan q n (pc + 1) until_
        | .settled => .at g.size
        | .clash => .clash loc

def scanFork (g : Graph) (q : Scan) : (steps a b until_ : Nat) → ScanEnd
  | 0, _, _, _ => .lost
  | n + 1, a, b, until_ =>
    if a = b then .at a
    else if q.apart a b until_ then .at (min a b)
    else if a < b then
      match g.scan q n a (min b until_) with
      | .at a => g.scanFork q n a b until_
      | e => e
    else
      match g.scan q n b (min a until_) with
      | .at b => g.scanFork q n a b until_
      | e => e

end

/-- A write that covers the location ends the way; any other access to it competes. -/
def lastReadJudge (loc : Node) : Instr → Verdict
  | .define n =>
    if n.within loc = .yes then .settled
    else if n.touches loc then .clash
    else .goOn
  | .use n => if n.touches loc then .clash else .goOn
  | .goto _ _ | .fork _ _ => .goOn

def lastReadScan (g : Graph) (loc : Node) : Scan where
  judge := lastReadJudge loc
  apart a b until_ := g.size ≤ max a b || until_ ≤ min a b

def scanLastRead (g : Graph) (loc : Node) (pc : Nat) : ScanEnd :=
  g.scan (g.lastReadScan loc) (scanDepth g.size) pc g.size

def firstWriteJudge (loc : Node) : Instr → Verdict
  | .define n | .use n => if n.touches loc then .clash else .goOn
  | .goto _ _ | .fork _ _ => .goOn

def firstWriteScan (loc : Node) : Scan where
  judge := firstWriteJudge loc
  apart a b until_ := until_ < max a b

def scanFirstWrite (g : Graph) (loc : Node) (pc : Nat) : ScanEnd :=
  g.scan (firstWriteScan loc) (scanDepth g.size) 0 pc

/-! ## Reads before writes -/

structure InitState where
  pc : Nat
  written : List SymRef
  early : List SymRef

/-- The variable an access belongs to, if a routine's caller does not initialize it. -/
def ownVariable? (ss : Symbols) (n : Node) : Option SymRef :=
  match n.root? with
  | .ok (some s) => if (ss.get s).kind = .param then none else some s
  | _ => none

mutual

def scanInit (g : Graph) (ss : Symbols) : (steps : Nat) → InitState → (until_ : Nat) → InitState
  | 0, st, _ => st
  | n + 1, st, until_ =>
    if until_ ≤ st.pc then st
    else
      match g.code[st.pc]? with
      | none => st
      | some (.goto _ j) => g.scanInit ss n { st with pc := st.pc + j.dist st.pc } until_
      | some (.fork _ d) =>
        let (pc, a, b, early) := g.forkInit ss n { st with pc := st.pc + 1 }
          { st with pc := st.pc + d } until_
        let both := a.filter fun v => b.contains v && !st.written.contains v
        g.scanInit ss n ⟨pc, both ++ st.written, early⟩ until_
      | some (.use loc) =>
        let early := match ownVariable? ss loc with
          | some v => if st.written.contains v || st.early.contains v then st.early
            else v :: st.early
          | none => st.early
        g.scanInit ss n { st with pc := st.pc + 1, early } until_
      | some (.define loc) =>
        let written := match loc.head? with
          | some h =>
            match h.sym with
            | some v => if h.kind = .sym && !st.written.contains v then v :: st.written
              else st.written
            | none => st.written
          | none => st.written
        g.scanInit ss n { st with pc := st.pc + 1, written } until_

def forkInit (g : Graph) (ss : Symbols) : (steps : Nat) → (a b : InitState) → (until_ : Nat) →
    Nat × List SymRef × List SymRef × List SymRef
  | 0, a, b, _ => (min a.pc b.pc, a.written, b.written, a.early)
  | n + 1, a, b, until_ =>
    if a.pc = b.pc || until_ < max a.pc b.pc then (min a.pc b.pc, a.written, b.written, a.early)
    else if a.pc < b.pc then
      let a := g.scanInit ss n a (min b.pc until_)
      g.forkInit ss n a { b with early := a.early } until_
    else
      let b := g.scanInit ss n b (min a.pc until_)
      g.forkInit ss n { a with early := b.early } b until_

end

def uninit (g : Graph) (ss : Symbols) : List SymRef :=
  (g.scanInit ss (scanDepth g.size) ⟨0, [], []⟩ g.size).early

end Graph

structure Oracle where
  graph : Graph
  otherRead : Option Node := none

namespace Oracle

/-- Whether the read `n` is the last one: on every way from it the location is written anew, or the
routine ends, before it is read or written in part. A read that the graph does not know is not the
last one, and leaves `otherRead` as it was. -/
def isLastRead (o : Oracle) (n : Node) : Except Fault (Bool × Oracle) := do
  let m ← n.skipConv
  match o.graph.find? m with
  | none => return (false, o)
  | some pc =>
    match o.graph.scanLastRead m (pc + 1) with
    | .at _ => return (true, { o with otherRead := none })
    | .clash w => return (false, { o with otherRead := some w })
    | .lost => return (false, { o with otherRead := none })

/-- Whether no way from the start touches the location before the write `n`. -/
def isFirstWrite (o : Oracle) (n : Node) : Except Fault Bool := do
  let m ← n.skipConv
  match o.graph.findLast? m with
  | none => return false
  | some pc =>
    match o.graph.scanFirstWrite m pc with
    | .at _ => return true
    | _ => return false

def mayBeUninit (o : Oracle) (ss : Symbols) (s : SymRef) : Bool := (o.graph.uninit ss).contains s

end Oracle

end Lifecycle
