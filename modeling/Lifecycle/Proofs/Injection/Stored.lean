import Lifecycle.Proofs.Injection.Questions

/-!
# How a value gets into a location

`Stored` follows one run of a store, from the state it starts in to the state it ends in: which way
the value of the source goes, in which state it has been evaluated, and what is emitted for it
there. A construct with several values stores each of them where it arises, by the same relation.
`Sunk` and `Copied` say what is emitted for one value, down to the operator that is found in that
state.
-/

namespace Lifecycle

namespace InjectM

variable {α β : Type} {c : InjectContext} {st st' : InjectState} {r : Rules} {s : ScopeId}
  {d v src out : Node} {decl : Bool}

/-! ## Runs -/

theorem run_bind {m : InjectM α} {f : α → InjectM β} {b : β} :
    (m >>= f) c st = .ok b st' ↔ ∃ a s1, m c st = .ok a s1 ∧ f a c s1 = .ok b st' := by
  have hb : (m >>= f) c st = EStateM.bind (m c) (fun a => f a c) st := rfl
  rw [hb, EStateM.bind]
  cases m c st <;> simp

theorem run_lift {x : Except Fault α} {a : α} :
    (liftM x : InjectM α) c st = .ok a st' ↔ x = .ok a ∧ st = st' := by
  cases x with
  | error e => exact ⟨fun h => (by cases h), fun h => (by cases h.1)⟩
  | ok b => exact ⟨fun h => (by cases h; exact ⟨rfl, rfl⟩), fun h => (by cases h.1; cases h.2; rfl)⟩

theorem run_look {x : Except Fault α} {f : α → InjectM β} {b : β} :
    (liftM x >>= f) c st = .ok b st' ↔ ∃ a, x = .ok a ∧ f a c st = .ok b st' := by
  simp only [run_bind, run_lift, and_assoc, exists_and_left, exists_eq_left']

theorem run_node {h : Head} {ks : List Node} (hrun : node h ks c st = .ok out st') :
    Node.Is h ks out := by
  cases hrun
  exact ⟨_, rfl⟩

theorem run_copy {n : Node} (hrun : copy n c st = .ok out st') : n.CopyOf out := by
  cases hrun
  exact ⟨_, rfl⟩

theorem run_decision {name : Text} {n : Node} (h : decision name n c st = .ok () st') :
    st'.ops = st.ops := by
  obtain ⟨_, _, hget, h⟩ := run_bind.1 h
  cases hget
  split_ifs at h
  · simp only [printer, symbols, trace] at h
    obtain ⟨_, _, hp, h⟩ := run_bind.1 h
    cases hp
    obtain ⟨_, -, h⟩ := run_look.1 h
    cases h
    rfl
  · cases h
    rfl

/-! ## What is emitted for one value -/

/-- The search for the operator of a location, in the state `ops` of the operators, finds `op`. -/
def Finds (c : InjectContext) (d : Node) (kind : OpKind) (ops : OpState) (op : SymRef) : Prop :=
  ∃ h o, d.info = .ok h ∧ OpM.resolve c.types h.type kind ops = .ok (.ok (some op)) o

/-- `op` is called on a copy of the location. -/
def CallsOn (op : SymRef) (d : Node) (args : List Node) (out : Node) : Prop :=
  ∃ h f d', h.kind = .call ∧ f.kind = .sym ∧ f.sym = some op ∧ d.CopyOf d' ∧
    out = .node h (.node f [] :: d' :: args)

/-- The location is taken for one that holds nothing: it is declared here, unpacked from a tuple, or
first written here, outside the condition of a loop; or it has no initialization. -/
def Vacant (c : InjectContext) (st : InjectState) (decl : Bool) (d : Node) : Prop :=
  st.conditions = 0 ∧ (decl = true ∨ isUnpackedTuple d c st = .ok true st ∨
      isOwnPlace d c st = .ok true st ∧ st.oracle.isFirstWrite d = .ok true) ∨
    d.isNoInit st.ops.symbols = .ok true

/-- What is emitted when `v` is taken over by a location, in a run that starts in `st`. -/
inductive Sunk (c : InjectContext) (d v : Node) (decl : Bool) (st : InjectState) : Node → Prop
  | plain {out : Node} (hv : Vacant c st decl d) (ho : Node.Tree .fastAsgn 0 [d, v] out) :
      Sunk c d v decl st out
  /-- The declared sink operator releases what the location held. -/
  | own {dh : Head} {op : SymRef} {out : Node} (hv : ¬ Vacant c st decl d) (hd : d.info = .ok dh)
      (hu : st.ops.isUserDefined c.types dh.type .sink = true) (hf : Finds c d .sink st.ops op)
      (ho : CallsOn op d [v] out) : Sunk c d v decl st out
  | destroyed {st₁ : InjectState} {op : SymRef} {old stored out : Node}
      (hv : ¬ Vacant c st decl d) (hs : ownSink? d v c st = .ok none st₁)
      (hf : Finds c d .destroy st₁.ops op) (hd : CallsOn op d [] old)
      (ht : Node.Tree .fastAsgn 0 [d, v] stored)
      (ho : Node.Is { kind := .stmtList, span := d.span } [old, stored] out) :
        Sunk c d v decl st out
  | lacking {st₁ : InjectState} {old stored out : Node}
      (hv : ¬ Vacant c st decl d) (hs : ownSink? d v c st = .ok none st₁)
      (hf : ∀ op, ¬ Finds c d .destroy st₁.ops op)
      (hd : Node.Is { kind := .empty, span := d.span } [] old)
      (ht : Node.Tree .fastAsgn 0 [d, v] stored)
      (ho : Node.Is { kind := .stmtList, span := d.span } [old, stored] out) :
        Sunk c d v decl st out

/-- What is emitted when `v` is copied into a location, in a run that starts in `st`. -/
inductive Copied (c : InjectContext) (d v : Node) (st : InjectState) : Node → Prop
  | called {op : SymRef} {out : Node} (hf : Finds c d .copy st.ops op) (ho : CallsOn op d [v] out) :
      Copied c d v st out
  | lacking {out : Node} (hf : ∀ op, ¬ Finds c d .copy st.ops op)
      (ho : Node.Tree .asgn 0 [d, v] out) : Copied c d v st out

theorem run_isUnpackedTuple {b : Bool} (h : isUnpackedTuple d c st = .ok b st') : st = st' := by
  obtain ⟨dh, -, h⟩ := run_look.1 h
  split_ifs at h
  · cases h
    rfl
  · obtain ⟨_, _, hs, h⟩ := run_bind.1 h
    cases hs
    obtain ⟨_, -, h⟩ := run_look.1 h
    cases h
    rfl

theorem run_isOwnPlace {b : Bool} (h : isOwnPlace d c st = .ok b st') : st = st' := by
  obtain ⟨_, _, hs, h⟩ := run_bind.1 h
  cases hs
  obtain ⟨_, _, ho, h⟩ := run_bind.1 h
  cases ho
  exact (run_lift.1 h).2

theorem run_isFirstWrite {b : Bool} (h : isFirstWrite d c st = .ok b st') :
    st.oracle.isFirstWrite d = .ok b ∧ st = st' := by
  obtain ⟨_, _, hg, h⟩ := run_bind.1 h
  cases hg
  obtain ⟨hb, rfl⟩ := run_lift.1 h
  exact ⟨hb, rfl⟩

theorem run_isFresh {b : Bool} (h : isFresh d decl c st = .ok b st') : st = st' ∧
    (b = true ↔ decl = true ∨ isUnpackedTuple d c st = .ok true st ∨
      isOwnPlace d c st = .ok true st ∧ st.oracle.isFirstWrite d = .ok true) := by
  unfold isFresh at h
  split_ifs at h with hdecl
  · cases h
    exact ⟨rfl, by simp [hdecl]⟩
  obtain ⟨unpacked, _, hu, h⟩ := run_bind.1 h
  obtain rfl := run_isUnpackedTuple hu
  cases unpacked with
  | true =>
    cases h
    exact ⟨rfl, by simp [hu]⟩
  | false =>
    obtain ⟨own, _, ho, h⟩ := run_bind.1 h
    obtain rfl := run_isOwnPlace ho
    cases own with
    | true =>
      obtain ⟨hf, rfl⟩ := run_isFirstWrite h
      exact ⟨rfl, by simp [hdecl, hu, ho, hf]⟩
    | false =>
      cases h
      exact ⟨rfl, by simp [hdecl, hu, ho]⟩

theorem run_storesPlainly {b : Bool} (h : storesPlainly d decl c st = .ok b st') :
    st = st' ∧ (b = true ↔ Vacant c st decl d) := by
  obtain ⟨fresh, _, hf, h⟩ := run_bind.1 h
  obtain ⟨rfl, hfresh⟩ := run_isFresh hf
  obtain ⟨_, _, hg, h⟩ := run_bind.1 h
  cases hg
  rw [Vacant, ← hfresh]
  split_ifs at h with hp
  · cases h
    exact ⟨rfl, by simpa using Or.inl hp⟩
  · obtain ⟨_, _, hs, h⟩ := run_bind.1 h
    cases hs
    obtain ⟨hn, rfl⟩ := run_lift.1 h
    refine ⟨rfl, ?_⟩
    rw [hn, Except.ok.injEq]
    exact ⟨Or.inr, fun h => h.resolve_left fun h => hp (by simp [h.1, h.2])⟩

theorem callsOn_call {op : SymRef} {d' : Node} {span : Span} {args : List Node}
    (hc : d.CopyOf d') (h : call op 0 span (d' :: args) c st = .ok out st') :
    CallsOn op d args out := by
  obtain ⟨f, _, hf, h⟩ := run_bind.1 h
  obtain ⟨_, _, -, hf⟩ := run_bind.1 hf
  obtain ⟨i, rfl⟩ := run_node hf
  obtain ⟨j, rfl⟩ := run_node h
  exact ⟨_, _, d', rfl, rfl, rfl, hc, rfl⟩

/-- A search gives the operator that is found in the state before it, or there is none to find. -/
theorem finds_resolve {dh : Head} {kind : OpKind} {x : OpResult} (hd : d.info = .ok dh)
    (h : resolve dh.type kind c st = .ok x st') :
    (∃ op, x = .ok (some op) ∧ Finds c d kind st.ops op) ∨
      (∀ op, x ≠ .ok (some op)) ∧ ∀ op, ¬ Finds c d kind st.ops op := by
  have hends : Ends True (resolve dh.type kind c st) fun x _ =>
      ∃ o, OpM.resolve c.types dh.type kind st.ops = .ok x o := by
    rw [resolve, ends_bind, ends_read, ends_ops]
    cases OpM.resolve c.types dh.type kind st.ops with
    | ok y o => exact ⟨o, rfl⟩
    | error e o => trivial
  obtain ⟨o, hres⟩ := hends.of_eq h
  by_cases hx : ∃ op, x = .ok (some op)
  · obtain ⟨op, rfl⟩ := hx
    exact .inl ⟨op, rfl, dh, o, hd, hres⟩
  · refine .inr ⟨not_exists.1 hx, ?_⟩
    rintro op ⟨dh', o', hd', hres'⟩
    cases hd.symm.trans hd'
    cases hres.symm.trans hres'
    exact hx ⟨op, rfl⟩

theorem opCall_cases {kind : OpKind} {args : List Node} {o : Option Node}
    (h : opCall? kind d args c st = .ok o st') :
    (∃ op out, o = some out ∧ Finds c d kind st.ops op ∧ CallsOn op d args out) ∨
      o = none ∧ ∀ op, ¬ Finds c d kind st.ops op := by
  obtain ⟨dh, hinfo, h⟩ := run_look.1 h
  obtain ⟨x, s1, hx, h⟩ := run_bind.1 h
  rcases finds_resolve hinfo hx with ⟨op, rfl, hf⟩ | ⟨hne, hno⟩
  · obtain ⟨d', _, hc, h⟩ := run_bind.1 h
    obtain ⟨out, _, hout, h⟩ := run_bind.1 h
    cases h
    exact .inl ⟨op, out, rfl, hf, callsOn_call (run_copy hc) hout⟩
  · refine .inr ⟨?_, hno⟩
    rcases x with e | _ | op
    · dsimp only at h
      split_ifs at h
      · obtain ⟨_, _, -, h⟩ := run_bind.1 h
        cases h
        rfl
      · cases h
        rfl
    · cases h
      rfl
    · exact absurd rfl (hne op)

theorem run_destroy (h : destroy d c st = .ok out st') :
    (∃ op, Finds c d .destroy st.ops op ∧ CallsOn op d [] out) ∨
      (∀ op, ¬ Finds c d .destroy st.ops op) ∧
      Node.Is { kind := .empty, span := d.span } [] out := by
  obtain ⟨o, _, ho, h⟩ := run_bind.1 h
  rcases opCall_cases ho with ⟨op, n, rfl, hf, hn⟩ | ⟨rfl, hno⟩
  · cases h
    exact .inl ⟨op, hf, hn⟩
  · obtain ⟨dh, hd, h⟩ := run_look.1 h
    rw [← (Node.info_eq hd).1] at h
    exact .inr ⟨hno, run_node h⟩

theorem sunk_of_sink (h : sink d v decl c st = .ok out st') : Sunk c d v decl st out := by
  obtain ⟨plain, _, hplain, h⟩ := run_bind.1 h
  obtain ⟨rfl, hvacant⟩ := run_storesPlainly hplain
  cases plain with
  | true =>
    obtain ⟨_, _, -, h⟩ := run_bind.1 h
    exact .plain (hvacant.1 rfl) (run_node h)
  | false =>
    have hfull : ¬ Vacant c st decl d := fun hv => by cases hvacant.2 hv
    obtain ⟨own, s1, hown, h⟩ := run_bind.1 h
    cases own with
    | some n =>
      obtain ⟨_, _, -, h⟩ := run_bind.1 h
      cases h
      obtain ⟨dh, hinfo, hown⟩ := run_look.1 hown
      obtain ⟨_, _, hg, hown⟩ := run_bind.1 hown
      cases hg
      obtain ⟨_, _, hc, hown⟩ := run_bind.1 hown
      cases hc
      split_ifs at hown with hu
      · rcases opCall_cases hown with ⟨op, _, ho, hf, hn⟩ | ⟨ho, -⟩
        · cases ho
          exact .own hfull hinfo hu hf hn
        · cases ho
      · cases hown
    | none =>
      obtain ⟨_, s2, hdec, h⟩ := run_bind.1 h
      obtain ⟨old, _, hold, h⟩ := run_bind.1 h
      obtain ⟨dh, hd, h⟩ := run_look.1 h
      obtain ⟨stored, _, hstored, h⟩ := run_bind.1 h
      rw [← (Node.info_eq hd).1] at h
      have hold := run_destroy hold
      rw [run_decision hdec] at hold
      rcases hold with ⟨op, hf, hc⟩ | ⟨hno, he⟩
      · exact .destroyed hfull hown hf hc (run_node hstored) (run_node h)
      · exact .lacking hfull hown hno he (run_node hstored) (run_node h)

theorem copied_of_copyInto (h : copyInto d v src c st = .ok out st') : Copied c d v st out := by
  obtain ⟨_, s1, hdec, h⟩ := run_bind.1 h
  obtain ⟨dh, hinfo, h⟩ := run_look.1 h
  obtain ⟨x, _, hx, h⟩ := run_bind.1 h
  have hfound := finds_resolve hinfo hx
  rw [run_decision hdec] at hfound
  rcases hfound with ⟨op, rfl, hf⟩ | ⟨hne, hno⟩
  · obtain ⟨d', _, hc, h⟩ := run_bind.1 h
    exact .called hf (callsOn_call (run_copy hc) h)
  · rcases x with e | _ | op
    · dsimp only at h
      split_ifs at h
      · obtain ⟨_, _, -, h⟩ := run_bind.1 h
        exact .lacking hno (run_node h)
      · exact .lacking hno (run_node h)
    · cases h
    · exact absurd rfl (hne op)

/-! ## Which way a value goes -/

/-- A value is copied, taken over as it comes of the source, or moved out of the location that the
source is. A nested construct stores its values where they arise, and what raises gives none. -/
inductive Way where
  | copy
  | take (m : Mode)
  | move
  | nest
  | raise

/-- The way that `storeStep` chooses. -/
def wayOf (d src : Node) (s : ScopeId) : InjectM Way := do
  let h ← src.info
  let type := (← d.info).type
  match h.kind with
  | .call | .objConstr | .tupleConstr | .closure | .intLit | .strLit | .boolLit | .nilLit =>
    return .take .consumed
  | .arrayConstr =>
    if !src.kids.isEmpty && (← read).types.isConstSeq h.type then return .copy
    else return .take .consumed
  | .sym => do
    if ← isSinkParam src then
      if ← isLastRead src then return .move
    if ← canMoveName src h type then return .move else return .copy
  | .index | .dot => do
    if h.kind = .index then
      let container ← src.kid 0
      if ← isUnpackedTuple container then
        addReset (← declScope (← container.info).sym s) container
        return .take .consumed
    if ← canMovePart d src type then return .move else return .copy
  | .conv | .upConv | .downConv | .cast => return .take .sinkArg
  | .stmtListExpr | .block | .ifStmt | .caseStmt | .tryStmt => return .nest
  | .raiseStmt => return .raise
  | _ => do
    if ← isOwnPlace src then
      if ← isLastRead src then
        if ← canMove type then return .move
    return .copy

def storeBy (r : Rules) (d src : Node) (s : ScopeId) (decl : Bool) : Way → InjectM Node
  | .copy => do copyInto d (← r.eval src s .consumed) src
  | .take m => do sink d (← r.eval src s m) decl
  | .move => sinkAndReset d src decl
  | .nest => nested r (.store d decl) src s
  | .raise => raise r src s

theorem bind_ite {p : Prop} [Decidable p] {m n : InjectM α} {f : α → InjectM β} :
    (if p then m else n) >>= f = if p then m >>= f else n >>= f := by
  split_ifs <;> rfl

theorem storeStep_eq (r : Rules) (d src : Node) (s : ScopeId) (decl : Bool) :
    storeStep r d src s decl = (do
      modify fun st => { st with otherRead := none }
      if ← d.sameLocation src then
        decision "self" src
        return ← emptyAt (← src.info).span
      storeBy r d src s decl (← wayOf d src s) : InjectM Node) := by
  unfold storeStep wayOf
  refine bind_congr fun _ => bind_congr fun same => ?_
  split_ifs
  · rfl
  simp only [bind_assoc]
  refine bind_congr fun h => bind_congr fun dh => ?_
  generalize h.kind = kind
  cases kind <;>
    simp only [bind_assoc, pure_bind, bind_ite, storeBy, reduceCtorEq, if_false, if_true]

/-! ## Values that arise in a construct -/

/-- Each child is worked on in the state that the one before it leaves. -/
inductive InTurn (R : Node → InjectState → Node → InjectState → Prop) :
    List Node → InjectState → List Node → InjectState → Prop
  | nil {st : InjectState} : InTurn R [] st [] st
  | cons {k out : Node} {ks outs : List Node} {st st₁ st' : InjectState} (h : R k st out st₁)
      (hs : InTurn R ks st₁ outs st') : InTurn R (k :: ks) st (out :: outs) st'

theorem inTurn_mapM {R : Node → InjectState → Node → InjectState → Prop} {f : Node → InjectM Node}
    (hf : ∀ {k st out st'}, f k c st = .ok out st' → R k st out st') :
    ∀ {ks outs : List Node} {st st' : InjectState}, ks.mapM f c st = .ok outs st' →
      InTurn R ks st outs st'
  | [], _, _, _, h => by
    rw [List.mapM_nil] at h
    cases h
    exact .nil
  | k :: ks, _, _, _, h => by
    rw [List.mapM_cons] at h
    obtain ⟨out, _, hk, h⟩ := run_bind.1 h
    obtain ⟨outs, _, hks, h⟩ := run_bind.1 h
    cases h
    exact .cons (hf hk) (inTurn_mapM hf hks)

/-- What stands before the arm in a branch of an `if`. -/
def conditions (r : Rules) (s : ScopeId) (n : Node) : InjectM (List Node) := do
  if (← n.info).kind = .elifBranch then return [← r.eval (← n.kid 0) s .normal] else return []

def labels (n : Node) : InjectM (List Node) := do
  (← n.kidsBeforeLast).mapM copy

/-- The local that was copied to be raised is marked, for its scope would destroy it. -/
def disarm (h : Head) (v : Node) : InjectM (List Node) := do
  let source ← if h.kind = .stmtListExpr then v.lastKid else pure v
  let sh ← source.info
  if sh.kind = .sym && (← ownsStorage sh.sym) then return [← reset source] else return []

section

variable (c : InjectContext) (r : Rules)
  (S : Node → ScopeId → InjectState → Node → InjectState → Prop)

/-- The last part of a construct is a statement, or a value that is stored by `S`. -/
def Last (s : ScopeId) (n : Node) (st : InjectState) (out : Node) (st' : InjectState) : Prop :=
  ∃ h, n.info = .ok h ∧
    if c.types.isEmpty h.type then r.eval n s .normal c st = .ok out st' else S n s st out st'

/-- A part in a scope of its own, which is closed around it. -/
def Arm (s : ScopeId) (n : Node) (st : InjectState) (out : Node) (st' : InjectState) : Prop :=
  ∃ i st₁ v st₂, openScope (some s) c st = .ok i st₁ ∧ Last c r S i n st₁ v st₂ ∧
    closeAround i v c st₂ = .ok out st'

def Branch (s : ScopeId) (pre : Node → InjectM (List Node)) (n : Node) (st : InjectState)
    (out : Node) (st' : InjectState) : Prop :=
  ∃ h body ks st₁ v st₂, n.info = .ok h ∧ n.lastKid = .ok body ∧ pre n c st = .ok ks st₁ ∧
    Arm c r S s body st₁ v st₂ ∧ node h (ks ++ [v]) c st₂ = .ok out st'

def Handler (s : ScopeId) (n : Node) (st : InjectState) (out : Node) (st' : InjectState) : Prop :=
  ∃ h body v st₁, n.info = .ok h ∧ n.kid 0 = .ok body ∧ node h [v] c st₁ = .ok out st' ∧
    if h.kind = .finallyBranch then inOwnScope r s body c st = .ok v st₁
    else Arm c r S s body st v st₁

/-- What becomes of the children of a construct whose values are stored by `S`. -/
inductive Parts (src : Node) (s : ScopeId) (st : InjectState) : List Node → InjectState → Prop
  | none (hk : src.isKind .stmtListExpr = true) (hks : src.kids = []) : Parts src s st [] st
  | list {last out : Node} {outs : List Node} {st₁ st' : InjectState}
      (hk : src.isKind .stmtListExpr = true) (hl : src.kids.getLast? = some last)
      (hb : InTurn (fun k st out st' => r.eval k s .normal c st = .ok out st') src.kids.dropLast st
        outs st₁)
      (ho : Last c r S s last st₁ out st') : Parts src s st (outs ++ [out]) st'
  | branches {outs : List Node} {st' : InjectState} (hk : src.isKind .ifStmt = true)
      (hb : InTurn (Branch c r S s (conditions r s)) src.kids st outs st') : Parts src s st outs st'
  | cases {selector v : Node} {rest outs : List Node} {st₁ st' : InjectState}
      (hk : src.isKind .caseStmt = true) (hs : src.kid 0 = .ok selector)
      (hr : src.kidsAfterFirst = .ok rest) (hv : r.eval selector s .normal c st = .ok v st₁)
      (hb : InTurn (Branch c r S s labels) rest st₁ outs st') : Parts src s st (v :: outs) st'
  | block {label body out : Node} {st' : InjectState} (hk : src.isKind .block = true)
      (hl : src.kid 0 = .ok label) (hb : src.kid 1 = .ok body)
      (ho : Arm c r S s body st out st') : Parts src s st [label, out] st'
  | tried {body v : Node} {rest outs : List Node} {st₁ st' : InjectState}
      (hk : src.isKind .tryStmt = true) (hb : src.kid 0 = .ok body)
      (hr : src.kidsAfterFirst = .ok rest) (hv : Arm c r S s body st v st₁)
      (hh : InTurn (Handler c r S s) rest st₁ outs st') : Parts src s st (v :: outs) st'

variable (C : Node → Node → InjectState → Node → Prop)

/-- What raises stores nothing in the location. It raises again, raises the value that is given, or
raises a copy of it in a temporary, made as `C` says. -/
inductive Raised (src : Node) (s : ScopeId) (st : InjectState) : Node → InjectState → Prop
  | again {v : Node} {h : Head} {st' : InjectState} (hm : markLeftEarly s c st = .ok () st')
      (hv : src.kid 0 = .ok v) (hh : v.info = .ok h) (hk : h.kind = .empty) :
      Raised src s st src st'
  | given {v v' out : Node} {h : Head} {st₁ st₂ st₃ st' : InjectState}
      (hm : markLeftEarly s c st = .ok () st₁) (hv : src.kid 0 = .ok v) (hh : v.info = .ok h)
      (hg : (h.kind = .call ∨ v.isConstructor = true) ∧ st₁ = st₂ ∨
        isOwning h.type c st₁ = .ok false st₂)
      (he : r.eval v s .consumed c st₂ = .ok v' st₃) (ho : withKids src [v'] c st₃ = .ok out st') :
      Raised src s st out st'
  | copied {v tmp v' cleared copied tmp' raised out : Node} {h : Head} {t : SymRef}
      {disarmed : List Node} {st₁ st₂ st₃ st₄ st₅ st₆ st₇ st₈ st₉ st₁₀ st' : InjectState}
      (hm : markLeftEarly s c st = .ok () st₁) (hv : src.kid 0 = .ok v) (hh : v.info = .ok h)
      (hw : isOwning h.type c st₁ = .ok true st₂) (hn : newTemp s h.type h.span c st₂ = .ok t st₃)
      (ht : symNode t h.span c st₃ = .ok tmp st₄) (hr : reset tmp c st₄ = .ok cleared st₅)
      (he : r.eval v s .normal c st₅ = .ok v' st₆) (hi : copyInto tmp v' v c st₆ = .ok copied st₇)
      (hc : C tmp v' st₆ copied) (hd : disarm h v c st₇ = .ok disarmed st₈)
      (hl : copy tmp c st₈ = .ok tmp' st₉)
      (ha : node { kind := .raiseStmt, span := src.span } [tmp'] c st₉ = .ok raised st₁₀)
      (ho : stmts src.span ([cleared, copied] ++ disarmed ++ [raised]) c st₁₀ = .ok out st') :
      Raised src s st out st'

variable (K : Node → Node → Bool → InjectState → Node → Prop) (d : Node) (decl : Bool)

/-- What comes of a source whose value goes that way: `C` says what is emitted for a value that is
copied, and `K` what for one that is taken over, in the state in which it has been evaluated. -/
inductive StoredBy (src : Node) (s : ScopeId) (st : InjectState) :
    Way → Node → InjectState → Prop
  | copied {v out : Node} {st₁ st' : InjectState} (hv : r.eval src s .consumed c st = .ok v st₁)
      (hr : copyInto d v src c st₁ = .ok out st') (ho : C d v st₁ out) :
      StoredBy src s st .copy out st'
  | taken {m : Mode} {v out : Node} {st₁ st' : InjectState} (hv : r.eval src s m c st = .ok v st₁)
      (hr : sink d v decl c st₁ = .ok out st') (ho : K d v decl st₁ out) :
      StoredBy src s st (.take m) out st'
  | moved {stored marker out : Node} {st₁ st₂ st' : InjectState}
      (hr : sink d src decl c st = .ok stored st₁) (hk : K d src decl st stored)
      (hm : reset src c st₁ = .ok marker st₂)
      (ho : stmts src.span [stored, marker] c st₂ = .ok out st') : StoredBy src s st .move out st'
  | nested {outs : List Node} {out : Node} {st₁ st' : InjectState}
      (hp : Parts c r S src s st outs st₁)
      (ho : rebuild src (.store d decl) outs c st₁ = .ok out st') : StoredBy src s st .nest out st'
  | raised {out : Node} {st' : InjectState} (ho : Raised c r C src s st out st') :
      StoredBy src s st .raise out st'

/-- What comes of a source, from the state `st`. Storing a location in itself does nothing. -/
def StoredIn (src : Node) (s : ScopeId) (st : InjectState) (out : Node) (st' : InjectState) :
    Prop :=
  let st₀ := { st with otherRead := none }
  (d.sameLocation src = .ok true ∧ ∃ st₁, decision "self" src c st₀ = .ok () st₁ ∧
      emptyAt src.span c st₁ = .ok out st') ∨
    d.sameLocation src = .ok false ∧ ∃ way st₁, wayOf d src s c st₀ = .ok way st₁ ∧
      StoredBy c r S C K d decl src s st₁ way out st'

/-- `StoredIn` for the rules with so many uses of one within another. -/
def Stored : Nat → Node → ScopeId → InjectState → Node → InjectState → Prop
  | 0 => fun _ _ _ _ _ => False
  | n + 1 => StoredIn c (rules n) (Stored n) C K d decl

end

variable {S : Node → ScopeId → InjectState → Node → InjectState → Prop}
  {C : Node → Node → InjectState → Node → Prop}
  {K : Node → Node → Bool → InjectState → Node → Prop}

section

variable (hS : ∀ {n s st out st'}, r.store d n s decl c st = .ok out st' → S n s st out st')
include hS

theorem last_of_run {n : Node} (h : evalOrYield r (.store d decl) n s c st = .ok out st') :
    Last c r S s n st out st' := by
  obtain ⟨hd, hinfo, h⟩ := run_look.1 h
  obtain ⟨void, _, hv, h⟩ := run_bind.1 h
  cases hv
  refine ⟨hd, hinfo, ?_⟩
  split_ifs at h ⊢
  · exact h
  · exact hS h

theorem arm_of_run {isStmt : Bool} {n : Node}
    (h : arm r (.store d decl) s isStmt n c st = .ok out st') : Arm c r S s n st out st' := by
  obtain ⟨i, _, hi, h⟩ := run_bind.1 h
  rw [if_pos (show (isStmt || (Use.store d decl).isStmt) = true from Bool.or_true _),
    pure_bind] at h
  obtain ⟨v, _, hv, h⟩ := run_bind.1 h
  exact ⟨i, _, v, _, hi, last_of_run hS hv, h⟩

theorem branch_of_ifArm {isStmt : Bool} {n : Node}
    (h : ifArm r (.store d decl) s isStmt n c st = .ok out st') :
    Branch c r S s (conditions r s) n st out st' := by
  obtain ⟨hd, hinfo, h⟩ := run_look.1 h
  have hbranch : ∀ {ks st₁}, conditions r s n c st = .ok ks st₁ → (do
      node hd (ks ++ [← arm r (.store d decl) s isStmt (← n.lastKid)]) : InjectM Node) c st₁ =
        .ok out st' → Branch c r S s (conditions r s) n st out st' := by
    intro ks _ hks h
    obtain ⟨body, hbody, h⟩ := run_look.1 h
    obtain ⟨v, _, hv, h⟩ := run_bind.1 h
    exact ⟨hd, body, ks, _, v, _, hinfo, hbody, hks, arm_of_run hS hv, h⟩
  split_ifs at h with he
  · obtain ⟨k, _, hk, h⟩ := run_bind.1 h
    obtain ⟨v, _, hv, h⟩ := run_bind.1 h
    refine hbranch (run_look.2 ⟨hd, hinfo, ?_⟩) h
    rw [if_pos he]
    exact run_bind.2 ⟨k, _, hk, run_bind.2 ⟨v, _, hv, rfl⟩⟩
  · refine hbranch (run_look.2 ⟨hd, hinfo, ?_⟩) h
    rw [if_neg he]
    rfl

theorem branch_of_caseArm {isStmt : Bool} {n : Node}
    (h : caseArm r (.store d decl) s isStmt n c st = .ok out st') :
    Branch c r S s labels n st out st' := by
  obtain ⟨hd, hinfo, h⟩ := run_look.1 h
  obtain ⟨ks, _, hks, h⟩ := run_bind.1 h
  obtain ⟨outs, _, ho, h⟩ := run_bind.1 h
  obtain ⟨body, hbody, h⟩ := run_look.1 h
  obtain ⟨v, _, hv, h⟩ := run_bind.1 h
  exact ⟨hd, body, outs, _, v, _, hinfo, hbody, run_bind.2 ⟨ks, _, hks, ho⟩, arm_of_run hS hv, h⟩

theorem handler_of_run {isStmt : Bool} {n : Node}
    (h : handler r (.store d decl) s isStmt n c st = .ok out st') :
    Handler c r S s n st out st' := by
  obtain ⟨hd, hinfo, h⟩ := run_look.1 h
  obtain ⟨body, hbody, h⟩ := run_look.1 h
  split_ifs at h with hf
  · obtain ⟨v, _, hv, h⟩ := run_bind.1 h
    exact ⟨hd, body, v, _, hinfo, hbody, h, by rwa [if_pos hf]⟩
  · obtain ⟨v, _, hv, h⟩ := run_bind.1 h
    exact ⟨hd, body, v, _, hinfo, hbody, h, by rw [if_neg hf]; exact arm_of_run hS hv⟩

theorem parts_of_nested {h : Head} (hi : src.info = .ok h) (hk : h.kind ≠ .stmtList)
    (hw : h.kind ≠ .whileStmt) (hrun : nested r (.store d decl) src s c st = .ok out st') :
    ∃ outs st₁, Parts c r S src s st outs st₁ ∧
      rebuild src (.store d decl) outs c st₁ = .ok out st' := by
  obtain ⟨hd, hinfo, hrun⟩ := run_look.1 hrun
  cases hi.symm.trans hinfo
  obtain ⟨-, -, ks, rfl⟩ := Node.info_eq hi
  obtain ⟨isStmt, _, hv, hrun⟩ := run_bind.1 hrun
  cases hv
  generalize hkind : h.kind = kind at hrun hk hw
  have hkind : (Node.node h ks).isKind kind = true := by simp [hkind]
  cases kind with
  | stmtList => exact absurd rfl hk
  | whileStmt => exact absurd rfl hw
  | stmtListExpr =>
    cases hlast : (Node.node h ks).kids.getLast? with
    | none =>
      simp only [hlast] at hrun
      exact ⟨[], _, .none hkind (List.getLast?_eq_none_iff.1 hlast), hrun⟩
    | some last =>
      simp only [hlast] at hrun
      obtain ⟨outs, _, houts, hrun⟩ := run_bind.1 hrun
      obtain ⟨v, _, hv, hrun⟩ := run_bind.1 hrun
      exact ⟨_, _, .list hkind hlast (inTurn_mapM id houts) (last_of_run hS hv), hrun⟩
  | ifStmt =>
    obtain ⟨outs, _, houts, hrun⟩ := run_bind.1 hrun
    exact ⟨outs, _, .branches hkind (inTurn_mapM (branch_of_ifArm hS) houts), hrun⟩
  | caseStmt =>
    obtain ⟨selector, hsel, hrun⟩ := run_look.1 hrun
    obtain ⟨v, _, hv, hrun⟩ := run_bind.1 hrun
    obtain ⟨rest, hrest, hrun⟩ := run_look.1 hrun
    obtain ⟨outs, _, houts, hrun⟩ := run_bind.1 hrun
    exact ⟨_, _, .cases hkind hsel hrest hv
      (inTurn_mapM (branch_of_caseArm hS) houts), hrun⟩
  | block =>
    obtain ⟨label, hlabel, hrun⟩ := run_look.1 hrun
    obtain ⟨body, hbody, hrun⟩ := run_look.1 hrun
    obtain ⟨v, _, hv, hrun⟩ := run_bind.1 hrun
    exact ⟨_, _, .block hkind hlabel hbody (arm_of_run hS hv), hrun⟩
  | tryStmt =>
    obtain ⟨body, hbody, hrun⟩ := run_look.1 hrun
    obtain ⟨v, _, hv, hrun⟩ := run_bind.1 hrun
    obtain ⟨rest, hrest, hrun⟩ := run_look.1 hrun
    obtain ⟨outs, _, houts, hrun⟩ := run_bind.1 hrun
    exact ⟨_, _, .tried hkind hbody hrest (arm_of_run hS hv)
      (inTurn_mapM (handler_of_run hS) houts), hrun⟩
  | _ => cases hrun

end

theorem raised_of_run (hC : ∀ {d v st out}, Copied c d v st out → C d v st out)
    (h : raise r src s c st = .ok out st') : Raised c r C src s st out st' := by
  obtain ⟨_, st₁, hm, h⟩ := run_bind.1 h
  obtain ⟨v, hkid, h⟩ := run_look.1 h
  obtain ⟨hd, hinfo, h⟩ := run_look.1 h
  by_cases hempty : hd.kind = .empty
  · rw [if_pos hempty] at h
    cases h
    exact .again hm hkid hinfo hempty
  rw [if_neg hempty] at h
  by_cases hgiven : (hd.kind = .call || v.isConstructor) = true
  · simp only [if_pos hgiven, pure_bind, if_true] at h
    obtain ⟨v', _, he, h⟩ := run_bind.1 h
    exact .given hm hkid hinfo (.inl ⟨by simpa using hgiven, rfl⟩) he h
  rw [if_neg hgiven] at h
  obtain ⟨owning, st₂, hw, h⟩ := run_bind.1 h
  cases owning with
  | false =>
    rw [pure_bind] at h
    obtain ⟨v', _, he, h⟩ := run_bind.1 h
    exact .given hm hkid hinfo (.inr hw) he h
  | true =>
    rw [pure_bind] at h
    obtain ⟨sh, hsrc, h⟩ := run_look.1 h
    obtain ⟨t, _, hn, h⟩ := run_bind.1 h
    obtain ⟨tmp, _, ht, h⟩ := run_bind.1 h
    obtain ⟨cleared, _, hr, h⟩ := run_bind.1 h
    obtain ⟨v', _, he, h⟩ := run_bind.1 h
    obtain ⟨copied, st₃, hcopy, h⟩ := run_bind.1 h
    have hrest : (do
        let disarmed ← disarm hd v
        let raised ← node { kind := .raiseStmt, span := src.span } [← copy tmp]
        stmts src.span ([cleared, copied] ++ disarmed ++ [raised]) : InjectM Node) c st₃ =
          .ok out st' := by
      simpa only [disarm, bind_assoc, pure_bind, bind_ite, (Node.info_eq hsrc).1] using h
    obtain ⟨disarmed, _, hdisarm, h⟩ := run_bind.1 hrest
    obtain ⟨tmp', _, hl, h⟩ := run_bind.1 h
    obtain ⟨raised, _, ha, h⟩ := run_bind.1 h
    exact .copied hm hkid hinfo hw hn ht hr he hcopy (hC (copied_of_copyInto hcopy)) hdisarm hl ha h

theorem kind_of_nest (h : wayOf d src s c st = .ok .nest st') :
    ∃ hd, src.info = .ok hd ∧ hd.kind ≠ .stmtList ∧ hd.kind ≠ .whileStmt := by
  obtain ⟨hd, hi, h⟩ := run_look.1 h
  obtain ⟨dh, -, h⟩ := run_look.1 h
  refine ⟨hd, hi, fun hk => ?_, fun hk => ?_⟩
  all_goals
    -- A source of these kinds is moved or copied.
    simp only [hk] at h
    obtain ⟨own, _, -, h⟩ := run_bind.1 h
    cases own with
    | false => cases h
    | true =>
      obtain ⟨last, _, -, h⟩ := run_bind.1 h
      cases last with
      | false => cases h
      | true =>
        obtain ⟨can, _, -, h⟩ := run_bind.1 h
        cases can <;> cases h

theorem storedBy_of_run {way : Way} {st₀ : InjectState}
    (hS : ∀ {n s st out st'}, r.store d n s decl c st = .ok out st' → S n s st out st')
    (hC : ∀ {d v st out}, Copied c d v st out → C d v st out)
    (hK : ∀ {d v decl st out}, Sunk c d v decl st out → K d v decl st out)
    (hway : wayOf d src s c st₀ = .ok way st) (h : storeBy r d src s decl way c st = .ok out st') :
    StoredBy c r S C K d decl src s st way out st' := by
  cases way with
  | copy =>
    obtain ⟨v, _, hv, h⟩ := run_bind.1 h
    exact .copied hv h (hC (copied_of_copyInto h))
  | take m =>
    obtain ⟨v, _, hv, h⟩ := run_bind.1 h
    exact .taken hv h (hK (sunk_of_sink h))
  | move =>
    obtain ⟨stored, _, hs, h⟩ := run_bind.1 h
    obtain ⟨hd, hinfo, h⟩ := run_look.1 h
    rw [← (Node.info_eq hinfo).1] at h
    obtain ⟨marker, _, hm, h⟩ := run_bind.1 h
    exact .moved hs (hK (sunk_of_sink hs)) hm h
  | nest =>
    obtain ⟨hd, hinfo, hlist, hloop⟩ := kind_of_nest hway
    obtain ⟨outs, st₁, hp, ho⟩ := parts_of_nested hS hinfo hlist hloop h
    exact .nested hp ho
  | raise => exact .raised (raised_of_run hC h)

theorem stored_of_run (hC : ∀ {d v st out}, Copied c d v st out → C d v st out)
    (hK : ∀ {d v decl st out}, Sunk c d v decl st out → K d v decl st out) :
    ∀ {n : Nat} {src : Node} {s : ScopeId} {st : InjectState} {out : Node} {st' : InjectState},
      (rules n).store d src s decl c st = .ok out st' → Stored c C K d decl n src s st out st'
  | 0, _, _, _, _, _, h => by cases h
  | n + 1, src, s, st, out, st', h => by
    change storeStep (rules n) d src s decl c st = _ at h
    rw [storeStep_eq] at h
    obtain ⟨_, _, hm, h⟩ := run_bind.1 h
    cases hm
    obtain ⟨same, hsame, h⟩ := run_look.1 h
    cases same with
    | true =>
      obtain ⟨_, st₁, hd, h⟩ := run_bind.1 h
      obtain ⟨hh, hinfo, h⟩ := run_look.1 h
      rw [← (Node.info_eq hinfo).1] at h
      exact .inl ⟨hsame, st₁, hd, h⟩
    | false =>
      obtain ⟨way, st₁, hway, h⟩ := run_bind.1 h
      exact .inr ⟨hsame, way, st₁, hway, storedBy_of_run (stored_of_run hC hK) hC hK hway h⟩

end InjectM

end Lifecycle
