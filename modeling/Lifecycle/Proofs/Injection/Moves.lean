import Mathlib.Logic.Relation
import Lifecycle.Proofs.Injection.Logs
import Lifecycle.Proofs.Text

/-!
# Moves

Whatever tree it works on, and whether it fails or not, a computation goes from state to state by
moves of a few kinds: it traces, it forgets which access denied a move, it asks the oracle, it
reports, or it does something else (`Move`). `Moves c A m` says this of `m`, where the oracle is
asked about nodes with `A` only.
-/

namespace Lifecycle

namespace InjectState

/-- A note on another read is about the access that denied the last move. -/
def Explains (st : InjectState) (d : Diagnostic) : Prop :=
  ∀ x ∈ d.notes, x.message = "another read is done here" →
    ∃ w, st.otherRead = some w ∧ x.span = w.span

/-- What a step does to the oracle, the reports and the trace. -/
inductive Move (c : InjectContext) (A : Node → Prop) : InjectState → InjectState → Prop
  | quiet {st st' : InjectState} (oracle : st'.oracle = st.oracle)
      (otherRead : st'.otherRead = st.otherRead) (reports : st'.reports = st.reports)
      (trace : st'.trace = st.trace) : Move c A st st'
  | traced {st : InjectState} (scope : TraceScope) (name detail : Text) :
      Move c A st { st with trace := st.trace.point scope name c.span detail }
  | forgot {st : InjectState} : Move c A st { st with otherRead := none }
  | asked {st : InjectState} {n : Node} {last : Bool} {o : Oracle} (hn : A n)
      (h : st.oracle.isLastRead n = .ok (last, o)) :
      Move c A st { st with oracle := o, otherRead := if last then none else o.otherRead }
  | reported {st : InjectState} {d : Diagnostic} (h : st.Explains d) :
      Move c A st { st with reports := st.reports ++ [d] }

def Onward (c : InjectContext) (A : Node → Prop) : InjectState → InjectState → Prop :=
  Relation.ReflTransGen (Move c A)

end InjectState

namespace InjectM

-- That a computation moves is found by the instances for its parts; long ones have many parts.
set_option synthInstance.maxSize 100000

variable {α β : Type} {c : InjectContext} {A : Node → Prop} {h : Head} {n dest ri : Node}
  {ks : List Node} {t : TypeId} {span : Span} {i : ScopeId} {kind : OpKind} {decl : Bool}
  {name detail message : Text} {code : DiagCode} {st : InjectState}

class Moves (c : InjectContext) (A : Node → Prop) (m : InjectM α) : Prop where
  leads : ∀ st : InjectState, Leads (st.Onward c A) (m c st) fun _ => st.Onward c A

namespace Moves

variable {m n : InjectM α} {f : α → InjectM β}

instance pure {a : α} : Moves c A (Pure.pure a) := ⟨fun _ => .refl⟩

instance throw {e : InjectFailure} : Moves c A (MonadExcept.throw e : InjectM α) := ⟨fun _ => .refl⟩

instance bind [hm : Moves c A m] [hf : ∀ a, Moves c A (f a)] : Moves c A (m >>= f) where
  leads st := by
    rw [leads_bind]
    refine (hm.leads st).mono (fun _ h => h) fun a st' h => ?_
    exact ((hf a).leads st').mono (fun _ h' => h.trans h') fun _ _ h' => h.trans h'

theorem seq (hm : Moves c A m) (hf : ∀ a, Moves c A (f a)) : Moves c A (m >>= f) := bind

theorem step [Moves c A m] (hf : ∀ a, Moves c A (f a)) : Moves c A (m >>= f) := bind

instance lift {x : Except Fault α} : Moves c A (liftM x) := by
  cases x with
  | error e => exact throw
  | ok a => exact pure

theorem look {x : Except Fault α} (hf : ∀ a, x = .ok a → Moves c A (f a)) :
    Moves c A (liftM x >>= f) := by
  cases x with
  | error e => exact ⟨fun _ => .refl⟩
  | ok a => exact hf a rfl

instance ite {p : Prop} [Decidable p] [hm : Moves c A m] [hn : Moves c A n] :
    Moves c A (if p then m else n) := by
  split_ifs
  · exact hm
  · exact hn

instance get : Moves c A (MonadState.get : InjectM InjectState) := ⟨fun _ => .refl⟩

instance read : Moves c A (MonadReader.read : InjectM InjectContext) := ⟨fun _ => .refl⟩

theorem quiet {f : InjectState → InjectState} (hf : ∀ st, (f st).oracle = st.oracle ∧
    (f st).otherRead = st.otherRead ∧ (f st).reports = st.reports ∧ (f st).trace = st.trace) :
    Moves c A (modify f : InjectM PUnit) :=
  ⟨fun st => .single (.quiet (hf st).1 (hf st).2.1 (hf st).2.2.1 (hf st).2.2.2)⟩

instance mapM {f : α → InjectM β} [hf : ∀ a, Moves c A (f a)] : ∀ {xs : List α},
    Moves c A (xs.mapM f)
  | [] => .pure
  | x :: xs => by
    rw [List.mapM_cons]
    have : Moves c A (xs.mapM f) := mapM
    infer_instance

instance anyM {f : α → InjectM Bool} [hf : ∀ a, Moves c A (f a)] : ∀ {xs : List α},
    Moves c A (xs.anyM f)
  | [] => .pure
  | x :: xs => by
    have : Moves c A (xs.anyM f) := anyM
    unfold List.anyM
    refine step fun b => ?_
    cases b <;> infer_instance

end Moves

/-! ## States and nodes -/

instance moves_ops {m : OpM α} : Moves c A (ops m) where
  leads st := by
    rw [leads_ops]
    cases m st.ops <;> exact .single (.quiet rfl rfl rfl rfl)

instance moves_symbols : Moves c A symbols := by
  unfold symbols
  infer_instance

instance moves_owner : Moves c A owner := by
  unfold owner
  infer_instance

instance moves_printer : Moves c A printer := by
  unfold printer
  infer_instance

instance moves_routineName : Moves c A routineName := by
  unfold routineName
  infer_instance

instance moves_shapeOf : Moves c A (shapeOf t) := by
  unfold shapeOf
  infer_instance

instance moves_isVoid : Moves c A (isVoid t) := by
  unfold isVoid
  infer_instance

instance moves_isOwning : Moves c A (isOwning t) := by
  unfold isOwning
  infer_instance

instance moves_canMove : Moves c A (canMove t) := by
  unfold canMove
  infer_instance

instance moves_node : Moves c A (node h ks) := ⟨fun _ => .single (.quiet rfl rfl rfl rfl)⟩

instance moves_tree {kind : NodeKind} : Moves c A (tree kind t ks) := moves_node

instance moves_emptyAt : Moves c A (emptyAt span) := moves_node

instance moves_stmts : Moves c A (stmts span ks) := moves_node

instance moves_fastAsgn {dest src : Node} : Moves c A (fastAsgn dest src) := moves_node

instance moves_copy : Moves c A (copy n) := ⟨fun _ => .single (.quiet rfl rfl rfl rfl)⟩

instance moves_symNode {r : SymRef} : Moves c A (symNode r span) := by
  unfold symNode
  infer_instance

instance moves_call {r : SymRef} : Moves c A (call r t span ks) := by
  unfold call
  infer_instance

instance moves_magic {m : Magic} : Moves c A (magic m t span ks) := by
  unfold magic
  infer_instance

instance moves_defaultValue : Moves c A (defaultValue t span) := moves_magic

instance moves_reset : Moves c A (reset n) := by
  unfold reset
  infer_instance

instance moves_withKids : Moves c A (withKids n ks) := by
  unfold withKids
  infer_instance

instance moves_newSymbol {kind : SymKind} {name : Text} : Moves c A (newSymbol kind name t span) :=
  ⟨fun _ => .single (.quiet rfl rfl rfl rfl)⟩

instance moves_tempName {base : Text} : Moves c A (tempName base) :=
  ⟨fun _ => .single (.quiet rfl rfl rfl rfl)⟩

/-! ## Scopes -/

instance moves_openScope {parent : Option ScopeId} : Moves c A (openScope parent) :=
  ⟨fun _ => .single (.quiet rfl rfl rfl rfl)⟩

instance moves_scope : Moves c A (scope i) := ⟨fun _ => leads_scope .refl fun _ _ => .refl⟩

instance moves_modifyScope {f : Scope → Scope} : Moves c A (modifyScope i f) := by
  unfold modifyScope
  exact .step fun _ => .quiet fun _ => ⟨rfl, rfl, rfl, rfl⟩

instance moves_closeScope : Moves c A (closeScope i) :=
  ⟨fun _ => leads_closeScope (fun _ => .single (.quiet rfl rfl rfl rfl)) fun _ _ _ _ _ _ =>
    .single (.quiet rfl rfl rfl rfl)⟩

instance moves_markLeftEarly : Moves c A (markLeftEarly i) := moves_modifyScope

instance moves_addFinal : Moves c A (addFinal i n) := by
  unfold addFinal
  infer_instance

instance moves_newTemp : Moves c A (newTemp i t span) := by
  unfold newTemp
  infer_instance

instance moves_addReset : Moves c A (addReset i n) := by
  unfold addReset
  infer_instance

/-! ## Reports -/

instance moves_trace {scope : TraceScope} : Moves c A (trace scope name detail) :=
  ⟨fun _ => .single (.traced scope name detail)⟩

instance moves_decision {name : Text} : Moves c A (decision name n) := by
  unfold decision
  infer_instance

theorem leads_lift {E : InjectState → Prop} {x : Except Fault α}
    {f : α → InjectM β} {Q : β → InjectState → Prop} (he : E st)
    (hf : ∀ a, x = .ok a → Leads E (f a c st) Q) : Leads E ((liftM x >>= f) c st) Q := by
  cases x with
  | error e => exact he
  | ok a => exact hf a rfl

theorem leads_copyNotes : Leads (· = st) (copyNotes src c st) fun notes st' => st' = st ∧
      ∀ d : Diagnostic, d.notes = notes → st.Explains d := by
  rw [copyNotes, leads_bind, leads_get]
  cases hr : st.otherRead with
  | some w =>
    refine ⟨rfl, fun d hd x hx _ => ⟨w, hr, ?_⟩⟩
    rw [hd, List.mem_singleton] at hx
    rw [hx]
  | none =>
    have hnil : ∀ d : Diagnostic, d.notes = [] → st.Explains d := fun d hd x hx => by
      rw [hd] at hx
      cases hx
    refine leads_lift rfl fun h _ => leads_ite (fun _ => ⟨rfl, hnil⟩) fun _ => ?_
    refine leads_bind.2 (leads_lift rfl fun s _ => ?_)
    refine leads_ite (fun _ => ⟨rfl, ?_⟩) fun _ => ⟨rfl, hnil⟩
    intro d hd x hx ht
    rw [hd, List.mem_singleton] at hx
    rw [hx] at ht
    have hfirst := congrArg (fun t : Text => t.toList.head?) ht
    have htry : (Text.ofString "try to make ").toList =
      116 :: (Text.ofString "ry to make ").toList := rfl
    have hother : (Text.ofString "another read is done here").toList.head? = some 97 := rfl
    cases hfirst

theorem leads_report {severity : Severity}
    {notes : List DiagNote} (hn : ∀ d : Diagnostic, d.notes = notes → st.Explains d) :
    Leads (st.Onward c A) (report severity code span message notes c st)
      fun _ => st.Onward c A := by
  refine leads_bind.2 ?_
  have howner : owner c st = .ok c.routine.sym st := rfl
  rw [howner]
  cases c.routine.sym with
  | none => exact .refl
  | some owner => exact .single (.reported (hn _ rfl))

theorem leads_reportError (hn : ∀ d : Diagnostic, d.notes = notes → st.Explains d) :
    Leads (st.Onward c A) (reportError code span message notes c st) fun _ => st.Onward c A := by
  refine leads_bind.2 (leads_bind.2 ?_)
  have hq : st.Onward c A { st with failed := true } := .single (.quiet rfl rfl rfl rfl)
  refine (@leads_report c A _ _ _ { st with failed := true } _ _ hn).mono (fun _ h => hq.trans h) ?_
  exact fun _ st' h => (moves_trace.leads st').mono (fun _ h' => (hq.trans h).trans h')
    fun _ _ h' => (hq.trans h).trans h'

theorem explains_nil (d : Diagnostic) (hd : d.notes = []) : st.Explains d := by
  intro x hx
  rw [hd] at hx
  cases hx

instance moves_report {severity : Severity} :
    Moves c A (report severity code span message []) := ⟨fun _ => leads_report explains_nil⟩

instance moves_reportError :
    Moves c A (reportError code span message []) := ⟨fun _ => leads_reportError explains_nil⟩

instance moves_reportOp {e : OpError} {src : Option Node} :
    Moves c A (reportOp e t kind n src) where
  leads st := by
    unfold reportOp
    refine leads_bind.2 (leads_lift .refl fun text _ => ?_)
    dsimp only
    split
    · refine leads_bind.2 (leads_lift .refl fun text _ => leads_bind.2 (leads_copyNotes.mono ?_ ?_))
      · rintro _ rfl
        exact .refl
      · rintro notes _ ⟨rfl, hn⟩
        exact leads_lift .refl fun h _ => leads_bind.2 (leads_reportError hn)
    · exact leads_lift .refl fun h _ => leads_bind.2 (leads_reportError explains_nil)

/-! ## Questions -/

instance moves_isUnpackedTuple : Moves c A (isUnpackedTuple n) := by
  unfold isUnpackedTuple
  infer_instance

instance moves_isOwnPlace : Moves c A (isOwnPlace n) := by
  unfold isOwnPlace
  infer_instance

instance moves_isCursor : Moves c A (isCursor n) := by
  unfold isCursor
  infer_instance

instance moves_isSinkParam : Moves c A (isSinkParam n) := by
  unfold isSinkParam
  infer_instance

instance moves_ownsStorage {r : Option SymRef} : Moves c A (ownsStorage r) := by
  unfold ownsStorage
  cases r <;> infer_instance

instance moves_isInLoopBody : Moves c A isInLoopBody := by
  unfold isInLoopBody
  infer_instance

instance moves_isFirstWrite : Moves c A (isFirstWrite n) := by
  unfold isFirstWrite
  infer_instance

theorem moves_ask (hn : A n) : Moves c A (do
    let (last, oracle) ← (← MonadState.get).oracle.isLastRead n
    modify fun s => { s with oracle, otherRead := if last then none else oracle.otherRead }
    return last : InjectM Bool) :=
  ⟨fun _ => leads_bind.2 (leads_lift .refl fun _ hr => .single (.asked hn hr))⟩

theorem moves_isLastRead (hn : A n) : Moves c A (isLastRead n) := by
  have hforget : Moves c A
      (modify fun s : InjectState => { s with otherRead := none } : InjectM _) :=
    ⟨fun _ => .single .forgot⟩
  have hask := @moves_ask c A n hn
  unfold isLastRead
  infer_instance

/-! ## Operations -/

instance moves_resolve : Moves c A (resolve t kind) := by
  unfold resolve
  infer_instance

instance moves_opCall {args : List Node} : Moves c A (opCall? kind dest args) := by
  unfold opCall?
  refine .step fun h => .step fun r => ?_
  split <;> infer_instance

instance moves_destroy : Moves c A (destroy dest) := by
  unfold destroy
  refine .step fun r => ?_
  split <;> infer_instance

instance moves_isFresh : Moves c A (isFresh dest decl) := by
  unfold isFresh
  infer_instance

instance moves_storesPlainly : Moves c A (storesPlainly dest decl) := by
  unfold storesPlainly
  infer_instance

instance moves_ownSink : Moves c A (ownSink? dest ri) := by
  unfold ownSink?
  infer_instance

instance moves_sink : Moves c A (sink dest ri decl) := by
  have h : ∀ r : Option Node, Moves c A (match r with
      | some n => do
        decision "sink" dest
        return n
      | none => do
        decision "destroy+fastAsgn" dest
        let old ← destroy dest
        stmts (← dest.info).span [old, ← fastAsgn dest ri]) := by
    rintro (_ | r) <;> infer_instance
  unfold sink
  infer_instance

instance moves_copyInto {dest src ri : Node} : Moves c A (copyInto dest src ri) := by
  unfold copyInto
  refine .step fun _ => .step fun h => .step fun r => ?_
  split <;> infer_instance

instance moves_sinkAndReset : Moves c A (sinkAndReset dest ri decl) := by
  unfold sinkAndReset
  infer_instance

instance moves_keepUntilEnd {s : ScopeId} : Moves c A (keepUntilEnd n s) := by
  unfold keepUntilEnd
  infer_instance

instance moves_moveOut : Moves c A (moveOut n) := by
  unfold moveOut
  infer_instance

instance moves_declarations {vars : List SymRef} : Moves c A (declarations vars span) := by
  unfold declarations
  infer_instance

instance moves_cleanup {sc : Scope} : Moves c A (cleanup sc span) := moves_node

instance moves_tryFinally {body fin : Node} : Moves c A (tryFinally body fin t) := by
  unfold tryFinally
  infer_instance

instance moves_closeAround : Moves c A (closeAround i n) := by
  unfold closeAround
  infer_instance

end InjectM

/-- The computation moves, and the oracle may be asked about any node. -/
abbrev InjectM.Roams {α : Type} (c : InjectContext) (m : InjectM α) : Prop :=
  InjectM.Moves c (fun _ => True) m

class Rules.Moves (r : Rules) (c : InjectContext) : Prop where
  eval : ∀ n s m, InjectM.Roams c (r.eval n s m)
  store : ∀ dest ri s decl, InjectM.Roams c (r.store dest ri s decl)

namespace InjectM

variable {c : InjectContext} {r : Rules} [hr : r.Moves c] {u : Use} {s : ScopeId} {n dest : Node}
  {m : Mode} {stmt decl : Bool}

set_option synthInstance.maxSize 100000

local instance : Roams c (isLastRead n) := moves_isLastRead trivial

local instance : Roams c (r.eval n s m) := hr.eval n s m

local instance : Roams c (r.store dest n s decl) := hr.store dest n s decl

instance moves_yield : Roams c (r.yield u n s) := by
  unfold Rules.yield
  cases u <;> infer_instance

/-! ## Values -/

instance moves_copyDeservesHint {A : Node → Prop} {t : TypeId} :
    Moves c A (copyDeservesHint n t) := by
  unfold copyDeservesHint
  infer_instance

instance moves_copyToSink : Roams c (copyToSink r n s) := by
  unfold copyToSink
  infer_instance

instance moves_canTakeOver : Roams c (canTakeOver n) := by
  unfold canTakeOver
  infer_instance

instance moves_evalKids : Roams c (evalKids r n s m) := by
  unfold evalKids
  infer_instance

instance moves_evalOperand : Roams c (evalOperand r n s m) := by
  unfold evalOperand
  infer_instance

instance moves_sinkArg : Roams c (sinkArg r n s) := by
  have h : ∀ h : Head, Roams c (match h.kind with
      | .conv => do
        let operand ← (← n.kid 0).info
        let same : Bool := (← shapeOf h.type) = (← shapeOf operand.type)
        evalOperand r n s (if same then .sinkArg else .normal)
      | .upConv | .downConv => evalOperand r n s .sinkArg
      | .cast => do
        let shape ← shapeOf h.type
        if shape = .string || shape = .seq then evalOperand r n s .sinkArg else copyToSink r n s
      | _ => copyToSink r n s) := by
    intro h
    split <;> infer_instance
  unfold sinkArg
  infer_instance

instance moves_construct : Roams c (construct r n s m) := by
  unfold construct
  refine .step fun h => .step fun x => ?_
  dsimp only
  split <;> infer_instance

instance moves_fieldInit : Roams c (fieldInit r s m n) := by
  unfold fieldInit
  infer_instance

instance moves_constructObject : Roams c (constructObject r n s m) := by
  unfold constructObject
  infer_instance

instance moves_arguments : ∀ {ps : List Param} {as : List Node}, Roams c (arguments r s ps as)
  | _, [] => by
    unfold arguments
    infer_instance
  | [], a :: as => by
    have : Roams c (arguments r s [] as) := moves_arguments
    unfold arguments
    infer_instance
  | p :: ps, a :: as => by
    have : Roams c (arguments r s ps as) := moves_arguments
    unfold arguments
    infer_instance

instance moves_allocate {callee : Node} {args : List Node} : Roams c (allocate n callee args) := by
  unfold allocate
  refine .step fun out => .step fun ks => ?_
  split <;> infer_instance

instance moves_evalCall : Roams c (evalCall r n s m) := by
  unfold evalCall
  infer_instance

/-! ## Branches -/

instance moves_closeAroundValue : Roams c (closeAroundValue r s n u) := by
  unfold closeAroundValue
  refine .step fun sc => ?_
  split
  · refine .step fun h => .step fun v => .step fun tmp => @Moves.bind _ _ c _ _ _ ?_ fun _ => ?_
    · exact .quiet fun _ => ⟨rfl, rfl, rfl, rfl⟩
    · infer_instance
  · infer_instance

instance moves_evalOrYield : Roams c (evalOrYield r u n s) := by
  unfold evalOrYield
  infer_instance

instance moves_arm : Roams c (arm r u s stmt n) := by
  unfold arm
  infer_instance

instance moves_rebuild {ks : List Node} : Roams c (rebuild n u ks) := by
  unfold rebuild
  infer_instance

instance moves_inOwnScope : Roams c (inOwnScope r s n) := by
  unfold inOwnScope
  infer_instance

instance moves_ifArm : Roams c (ifArm r u s stmt n) := by
  unfold ifArm
  infer_instance

instance moves_caseArm : Roams c (caseArm r u s stmt n) := by
  unfold caseArm
  infer_instance

instance moves_handler : Roams c (handler r u s stmt n) := by
  unfold handler
  infer_instance

instance moves_loop : Roams c (loop r s n) := by
  unfold loop
  refine .step fun h => .seq (.quiet fun _ => ⟨rfl, rfl, rfl, rfl⟩) fun _ => .step fun k => ?_
  refine .step fun cond => .seq (.quiet fun _ => ⟨rfl, rfl, rfl, rfl⟩) fun _ => ?_
  refine .step fun inner => .step fun k => .step fun body => .step fun body => ?_
  exact .seq (.quiet fun _ => ⟨rfl, rfl, rfl, rfl⟩) fun _ => moves_node

instance moves_nested : Roams c (nested r u n s) := by
  unfold nested
  refine .step fun h => .step fun stmt => ?_
  split
  all_goals try split
  all_goals infer_instance

/-! ## Statements -/

instance moves_checkCycle {A : Node → Prop} : Moves c A (checkCycle n) := by
  unfold checkCycle
  refine .step fun x => @Moves.ite _ _ _ _ _ _ _ .pure ?_
  refine .step fun x => .step fun value => .step fun h => ?_
  have hvalue (value : Node) : Moves c A (do
      if (← value.info).kind = .nilLit then return
      let dest ← n.kid 0
      let type := (← dest.info).type
      if x.types.shapeOf type ≠ .ref && x.types.shapeOf type ≠ .closure then return
      if !(← x.types.isCyclic type) then return
      match ← Node.ownerOnPath (← symbols) value none dest with
      | none => return
      | some field =>
        let msg := "'" ++ (← (← printer).expr n) ++ "' creates an uncollectable ref cycle"
        let advice ← match field with
          | none => pure ("" : Text)
          | some f => do
            let s ← Node.symbolOf (← symbols) (← f.info)
            pure ("; annotate '" ++ s.name ++ "' with .cursor")
        report .warning .cycleCreated (← n.info).span (msg ++ advice) [] : InjectM Unit) := by
    refine .step fun h => @Moves.ite _ _ _ _ _ _ _ .pure (.step fun dest => .step fun h => ?_)
    refine @Moves.ite _ _ _ _ _ _ _ .pure (.step fun cyclic => @Moves.ite _ _ _ _ _ _ _ .pure ?_)
    refine .step fun ss => .step fun f => ?_
    rcases f with _ | _ | f <;> infer_instance
  infer_instance

instance moves_storeTag : Roams c (storeTag r n s) := by
  unfold storeTag
  refine .step fun dest => .step fun src => .step fun h => .step fun x => .step fun h => ?_
  refine .step fun v => .step fun tmp => .step fun e => .step fun saved => .step fun le => ?_
  refine .step fun obj => .step fun h => .step fun owning => ?_
  dsimp only
  split_ifs
  · refine .step fun st => @Moves.ite _ _ _ _ _ _ _ inferInstance (.step fun r => ?_)
    split <;> infer_instance
  · infer_instance

instance moves_assign : Roams c (assign r n s) := by
  unfold assign
  infer_instance

instance moves_declare {v : SymRef} : Roams c (declare n v s) := by
  unfold declare
  refine .step fun _ => .seq (.quiet fun _ => ⟨rfl, rfl, rfl, rfl⟩) fun _ => .step fun ss => ?_
  have (d : Node) : Roams c
      (modify fun st : InjectState => { st with globals := st.globals ++ [d] } : InjectM _) :=
    .quiet fun _ => ⟨rfl, rfl, rfl, rfl⟩
  infer_instance

instance moves_needsDefault {v : SymRef} : Roams c (needsDefault v) := by
  unfold needsDefault
  infer_instance

instance moves_declaration : Roams c (declaration r s n) := by
  unfold declaration
  infer_instance

instance moves_declareAll : Roams c (declareAll r n s) := by
  unfold declareAll
  refine .step fun h => .step fun parts => ?_
  split <;> infer_instance

instance moves_leave : Roams c (leave r n s) := by
  have (res : Option SymRef) (v : Node) (h : Head) : Roams c (match res with
      | some res => do
        let span := (← n.info).span
        let asgn ← tree .asgn 0 [← symNode res h.span, v]
        let ret ← node { kind := .returnStmt, span } [← emptyAt span]
        stmts span [← assign r asgn s, ret]
      | none => do withKids n [← r.eval v s .sinkArg]) := by
    cases res <;> infer_instance
  unfold leave
  infer_instance

instance moves_raise : Roams c (raise r n s) := by
  unfold raise
  infer_instance

omit hr in
/-- A store first forgets what denied another move. A location is then stored with questions about
itself only, if its value is found without any. -/
theorem leads_storeStep (hA : A n) (he : Moves c A (r.eval n s .consumed))
    (hrest : ∀ h, n.info = .ok h → h.kind ∈ [NodeKind.conv, .upConv, .downConv, .cast,
      .stmtListExpr, .block, .ifStmt, .caseStmt, .tryStmt, .raiseStmt] →
    Moves c A (r.eval n s .sinkArg) ∧
        Moves c A (nested r (.store dest decl) n s) ∧ Moves c A (raise r n s)) (st : InjectState) :
    Leads (InjectState.Onward c A { st with otherRead := none }) (storeStep r dest n s decl c st)
      fun _ => InjectState.Onward c A { st with otherRead := none } := by
  have hask : Moves c A (isLastRead n) := moves_isLastRead hA
  have hname (h : Head) (t : TypeId) : Moves c A (canMoveName n h t) := by
    unfold canMoveName
    infer_instance
  have hpart (t : TypeId) : Moves c A (canMovePart dest n t) := by
    unfold canMovePart
    infer_instance
  have hscope (v : Option SymRef) : Moves c A (declScope v s) := by
    refine .step fun st => ?_
    split <;> infer_instance
  refine leads_bind.2 (@Moves.leads _ c A _ (.step fun same => ?_) _)
  refine @Moves.ite _ _ _ _ _ _ _ inferInstance (.look fun h hh => .step fun x => ?_)
  split
  all_goals first
  | infer_instance
  | rename_i hk
    obtain ⟨h1, h2, h3⟩ := hrest h hh (by simp [hk])
    infer_instance

instance moves_storeStep : Roams c (storeStep r dest n s decl) where
  leads st := (leads_storeStep trivial inferInstance
    (fun _ _ _ => ⟨inferInstance, inferInstance, inferInstance⟩) st).mono
      (fun _ h => .head .forgot h) fun _ _ h => .head .forgot h

instance moves_evalStep : Roams c (evalStep r n s m) := by
  unfold evalStep
  refine .step fun h => ?_
  split
  all_goals first | infer_instance | skip
  refine @Moves.ite _ _ _ _ _ _ _ inferInstance ?_
  split <;> infer_instance

omit hr in
theorem moves_rules : ∀ k, (rules k).Moves c
  | 0 => ⟨fun _ _ _ => .throw, fun _ _ _ _ => .throw⟩
  | k + 1 => by
    have : (rules k).Moves c := moves_rules k
    exact ⟨fun _ _ _ => moves_evalStep, fun _ _ _ _ => moves_storeStep⟩

instance moves_sinkParams : ∀ {ps : List (Option SymRef)}, Roams c (sinkParams s ps)
  | [] => .pure
  | p :: ps => by
    have : Roams c (sinkParams s ps) := moves_sinkParams
    unfold sinkParams
    cases p <;> infer_instance

omit hr in
theorem moves_body : Roams c body := by
  have hr (k : Nat) : (rules k).Moves c := moves_rules k
  unfold body
  infer_instance

end InjectM

end Lifecycle
