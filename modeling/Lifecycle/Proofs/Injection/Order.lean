import Lifecycle.Proofs.Injection.Run
import Lifecycle.Proofs.Injection.Stored

/-!
# In which order an assignment destroys and reads

`acts` lists what the evaluation of straight code does to locations, in order: it reads them or
destroys what they hold. An assignment to a location whose values are destroyed evaluates its source
first, with one exception: where the source is taken over, the location already holds a value, and
no sink operator was declared for the type, the held value is destroyed before the source is
evaluated. This goes for each value of a source that has several, in the state in which the value is
stored.
-/

namespace Lifecycle

/-- What evaluation does to a location. -/
inductive Act where
  | read (loc : Node)
  | destroy (loc : Node)

namespace Node

mutual

/-- What evaluation does, in order; `ds` tells which routines destroy what their first argument
holds. Such a routine runs when its arguments have been evaluated. -/
def acts (ds : SymRef → Bool) : Node → List Act
  | .hole => []
  | .node h ks =>
    match h.kind with
    | .sym => [.read (.node h ks)]
    | .dot => firstOperand ds ks ++ [.read (.node h ks)]
    | .index => firstOperands ds ks ++ [.read (.node h ks)]
    | .deref => actsAll ds ks ++ [.read (.node h ks)]
    | .call =>
      match ks with
      | callee :: as =>
        if callee.head?.any fun f => f.kind = .sym && f.sym.any ds then
          firstOperands ds as ++ (as.head?.map Act.destroy).toList
        else actsAll ds as
      | [] => []
    | .asgn | .fastAsgn => firstOperands ds ks
    | _ => actsAll ds ks

def operands (ds : SymRef → Bool) : Node → List Act
  | .hole => []
  | .node h ks =>
    match h.kind with
    | .sym => []
    | .dot => firstOperand ds ks
    | .index | .conv | .upConv | .downConv => firstOperands ds ks
    | _ => actsAll ds ks

def firstOperand (ds : SymRef → Bool) : List Node → List Act
  | [] => []
  | k :: _ => k.operands ds

def firstOperands (ds : SymRef → Bool) : List Node → List Act
  | [] => []
  | k :: ks => k.operands ds ++ actsAll ds ks

def actsAll (ds : SymRef → Bool) : List Node → List Act
  | [] => []
  | k :: ks => k.acts ds ++ actsAll ds ks

end

end Node

open Node

namespace InjectM

variable {c : InjectContext} {st st' : InjectState} {r : Rules} {ds : SymRef → Bool} {h : Head}
  {d v src dest out : Node} {s : ScopeId} {decl : Bool}

/-- What is emitted evaluates the value `v` and then stores it in `d`, plainly or by an operator. -/
def StoresAfter (ds : SymRef → Bool) (d v out : Node) : Prop :=
  out.acts ds = d.operands ds ++ v.acts ds ∨ ∃ d', d.CopyOf d' ∧
    (out.acts ds = d'.acts ds ++ v.acts ds ∨
      out.acts ds = d'.operands ds ++ v.acts ds ++ [.destroy d'])

/-- What is emitted destroys what `d` holds before it evaluates the value `v`. -/
def DestroysFirst (ds : SymRef → Bool) (d v out : Node) : Prop :=
  ∃ d', d.CopyOf d' ∧
    out.acts ds = d'.operands ds ++ [.destroy d'] ++ (d.operands ds ++ v.acts ds)

/-- The location holds a value that is overwritten when `v` is moved into it: plain storing is not
enough, no sink operator was declared for the type, and `op` destroys its values. -/
def Overwrites (c : InjectContext) (d v : Node) (decl : Bool) (st : InjectState) (op : SymRef) :
    Prop :=
  ¬ Vacant c st decl d ∧ ∃ st₁, ownSink? d v c st = .ok none st₁ ∧ Finds c d .destroy st₁.ops op

/-- In which order the value `v`, taken over in the state `st`, is evaluated and what `d` holds is
destroyed. It depends on whether a value is overwritten in that state. -/
def TakenOver (ds : SymRef → Bool) (c : InjectContext) (d v : Node) (decl : Bool) (st : InjectState)
    (out : Node) : Prop :=
  (∃ op, Overwrites c d v decl st op ∧ (ds op = true → DestroysFirst ds d v out)) ∨
    (∀ op, ¬ Overwrites c d v decl st op) ∧ StoresAfter ds d v out

/-- The order in which a source is worked through, from the state that the store starts in. -/
def StoreOrder (ds : SymRef → Bool) (c : InjectContext) (d : Node) (decl : Bool) :
    Nat → Node → ScopeId → InjectState → Node → InjectState → Prop :=
  Stored c (fun d v _ out => StoresAfter ds d v out) (TakenOver ds c) d decl

theorem acts_fastAsgn (ho : Node.Tree .fastAsgn 0 [d, v] out) :
    out.acts ds = d.operands ds ++ v.acts ds := by
  obtain ⟨i, rfl⟩ := ho
  simp [acts, firstOperands, actsAll]

theorem acts_stmts {span : Span} {a b : Node}
    (ho : Node.Is { kind := .stmtList, span } [a, b] out) :
    out.acts ds = a.acts ds ++ b.acts ds := by
  obtain ⟨i, rfl⟩ := ho
  simp [acts, actsAll]

theorem acts_callsOn (ds : SymRef → Bool) {op : SymRef} {args : List Node}
    (h : CallsOn op d args out) : ∃ d', d.CopyOf d' ∧ out.acts ds =
      if ds op then d'.operands ds ++ actsAll ds args ++ [.destroy d']
      else d'.acts ds ++ actsAll ds args := by
  obtain ⟨h, f, d', hk, hf, hop, hd, rfl⟩ := h
  refine ⟨d', hd, ?_⟩
  rw [acts, hk]
  simp [hf, hop, firstOperands, actsAll]

theorem storesAfter_callsOn {op : SymRef} (h : CallsOn op d [v] out) : StoresAfter ds d v out := by
  obtain ⟨d', hd, hacts⟩ := acts_callsOn ds h
  refine .inr ⟨d', hd, ?_⟩
  rw [hacts]
  split
  · exact .inr (by simp [actsAll])
  · exact .inl (by simp [actsAll])

/-- A copy is made of the evaluated value. -/
theorem Copied.storesAfter (h : Copied c d v st out) : StoresAfter ds d v out := by
  cases h with
  | called _ ho => exact storesAfter_callsOn ho
  | lacking _ ho =>
    obtain ⟨i, rfl⟩ := ho
    exact .inl (by simp [acts, firstOperands, actsAll])

theorem not_finds_of_ownSink {dh : Head} (h : ownSink? d v c st = .ok none st')
    (hd : d.info = .ok dh) (hu : st.ops.isUserDefined c.types dh.type .sink = true) (op : SymRef) :
    ¬ Finds c d .sink st.ops op := by
  obtain ⟨_, hinfo, h⟩ := run_look.1 h
  cases hd.symm.trans hinfo
  obtain ⟨_, _, hg, h⟩ := run_bind.1 h
  cases hg
  obtain ⟨_, _, hc, h⟩ := run_bind.1 h
  cases hc
  rw [if_pos hu] at h
  obtain ⟨_, _, hout, -⟩ | ⟨-, hno⟩ := opCall_cases h
  · cases hout
  · exact hno op

/-- The value is evaluated before what the location holds is destroyed, unless it overwrites. -/
theorem Sunk.takenOver (h : Sunk c d v decl st out) : TakenOver ds c d v decl st out := by
  cases h with
  | plain hv ho => exact .inr ⟨fun op hop => hop.1 hv, .inl (acts_fastAsgn ho)⟩
  | own hv hd hu hf ho =>
    refine .inr ⟨?_, storesAfter_callsOn ho⟩
    rintro op ⟨-, st₁, hnone, -⟩
    exact not_finds_of_ownSink hnone hd hu _ hf
  | @destroyed st₁ op old stored _ hv hs hf hd ht ho =>
    refine .inl ⟨op, ⟨hv, st₁, hs, hf⟩, fun hop => ?_⟩
    obtain ⟨d', hd', hacts⟩ := acts_callsOn ds hd
    refine ⟨d', hd', ?_⟩
    rw [acts_stmts ho, hacts, if_pos hop, acts_fastAsgn ht]
    simp [actsAll]
  | @lacking st₁ old stored _ hv hs hf hd ht ho =>
    refine .inr ⟨?_, .inl ?_⟩
    · rintro op ⟨-, st₂, hs', hf'⟩
      cases hs.symm.trans hs'
      exact hf op hf'
    · obtain ⟨i, rfl⟩ := hd
      rw [acts_stmts ho, acts_fastAsgn ht]
      simp [acts, actsAll]

/-! ## Assignments -/

theorem assign_of_owning (hdest : dest.info = .ok dh)
    (howning : isOwning dh.type c st = .ok true st1)
    (hcursor : dest.isCursor st1.ops.symbols = .ok false) :
    assign r (.node h [dest, src]) s c st =
      (do
        if dh.kind = .dot then checkCycle (.node h [dest, src])
        r.store (← r.eval dest s .normal) src s false : InjectM Node) c st1 := by
  have hkid0 : (liftM ((Node.node h [dest, src]).kid 0) : InjectM Node) c st = .ok dest st := rfl
  have hkid1 : (liftM ((Node.node h [dest, src]).kid 1) : InjectM Node) c st = .ok src st := rfl
  have hinfo : (liftM dest.info : InjectM Head) c st = .ok dh st := by
    rw [hdest]
    rfl
  unfold assign
  rw [bind_of_eq_ok hkid0, bind_of_eq_ok hkid1, bind_of_eq_ok hinfo, bind_of_eq_ok howning,
    if_pos rfl]
  exact bind_of_eq_ok (m := isCursor dest) (lift_of_eq_ok hcursor)

/-- What an assignment does before it stores: the destination is checked where it is a field, and
then evaluated. -/
def located (r : Rules) (n dest : Node) (dh : Head) (s : ScopeId) : InjectM Node := do
  if dh.kind = .dot then checkCycle n
  r.eval dest s .normal

theorem stored_of_assign {C : Node → Node → InjectState → Node → Prop}
    {K : Node → Node → Bool → InjectState → Node → Prop} {n : Nat} {st₁ : InjectState} {dh : Head}
    (hC : ∀ {d v st out}, Copied c d v st out → C d v st out)
    (hK : ∀ {d v decl st out}, Sunk c d v decl st out → K d v decl st out)
    (hk : h.kind = .asgn) (hdest : dest.info = .ok dh)
    (howning : isOwning dh.type c st = .ok true st₁)
    (hcursor : dest.isCursor st₁.ops.symbols = .ok false)
    (hrun : (rules (n + 2)).eval (.node h [dest, src]) s .normal c st = .ok out st') :
    ∃ d st₂, located (rules (n + 1)) (.node h [dest, src]) dest dh s c st₁ = .ok d st₂ ∧
      Stored c C K d false (n + 1) src s st₂ out st' := by
  have heval : (rules (n + 2)).eval (.node h [dest, src]) s .normal c st =
      assign (rules (n + 1)) (.node h [dest, src]) s c st := by
    cases h
    cases hk
    rfl
  rw [heval, assign_of_owning hdest howning hcursor] at hrun
  have hlocated : (do
      (rules (n + 1)).store (← located (rules (n + 1)) (.node h [dest, src]) dest dh s) src s
        false :
        InjectM Node) c st₁ = .ok out st' := by
    simpa only [located, bind_assoc, bind_ite, pure_bind] using hrun
  obtain ⟨d, st₂, hd, hstore⟩ := run_bind.1 hlocated
  exact ⟨d, st₂, hd, stored_of_run hC hK hstore⟩

/-- When the held value of an assigned location is destroyed before the source is evaluated: just
where the source is taken over and overwrites, in the state in which it is stored. -/
theorem assign_storeOrder {n : Nat} {st₁ : InjectState} {dh : Head} (ds : SymRef → Bool)
    (hk : h.kind = .asgn) (hdest : dest.info = .ok dh)
    (howning : isOwning dh.type c st = .ok true st₁)
    (hcursor : dest.isCursor st₁.ops.symbols = .ok false)
    (hrun : (rules (n + 2)).eval (.node h [dest, src]) s .normal c st = .ok out st') :
    ∃ d st₂, located (rules (n + 1)) (.node h [dest, src]) dest dh s c st₁ = .ok d st₂ ∧
      StoreOrder ds c d false (n + 1) src s st₂ out st' :=
  stored_of_assign Copied.storesAfter Sunk.takenOver hk hdest howning hcursor hrun

end InjectM

/-! ## A source that reads what is destroyed -/

namespace SelfCall

open Sample

def env : InjectEnv where
  types := {
    types := #[{}, { kind := .string }, { kind := .proc, payload := 1 }]
    procs := #[{}, { params := some [{ type := 1 }], result := 1 }] }

def shared : Shared where
  ops.symbols.all := #[{ name := "f", kind := .proc }, { name := "trim", kind := .proc, type := 2 },
    { name := "x", kind := .global, type := 1 }]

/-- `trim(x)` -/
def source : Node := .node { kind := .call, type := 1, site := 3 } [sym 1 2 4, sym 2 1 5]

/-- `x = trim(x)` -/
def routine : Routine where
  sym := some 0
  body := .node { kind := .asgn, site := 1 } [sym 2 1 2, source]

def destroys (s : SymRef) : Bool :=
  (routine.inject env shared).2.ops.table.synth.get? (1, .destroy) = some s

def view : Act → Bool × Option SymRef
  | .read loc => (false, loc.head?.bind (·.sym))
  | .destroy loc => (true, loc.head?.bind (·.sym))

def context : InjectContext where
  types := env.types
  routine := routine

def state : InjectState := { shared with oracle := { graph := {} }, scopes := [{}] }

theorem isOwning_name : ∃ st, InjectM.isOwning 1 context state = .ok true st ∧
    (sym 2 1 2).isCursor st.ops.symbols = .ok false := by
  have hrun : (match InjectM.isOwning 1 context state with
      | .ok b st => b && !st.ops.symbols.has (some 2) .cursor
      | .error _ _ => false) = true := by decide +kernel
  rcases h : InjectM.isOwning 1 context state with ⟨b, st⟩ | ⟨e, st⟩
  · rw [h] at hrun
    obtain ⟨rfl, hc⟩ : b = true ∧ st.ops.symbols.has (some 2) .cursor = false := by simpa using hrun
    exact ⟨st, rfl, congrArg Except.ok hc⟩
  · rw [h] at hrun
    cases hrun

theorem eval_assignment :
    ∃ out st, (InjectM.rules (6 + 2)).eval routine.body 0 .normal context state = .ok out st := by
  have hrun : (((InjectM.rules (6 + 2)).eval routine.body 0 .normal context).run'
    state).isSome := by
    decide +kernel
  delta EStateM.run' EStateM.run at hrun
  rcases hres : (InjectM.rules (6 + 2)).eval routine.body 0 .normal context state with
    ⟨out, st⟩ | ⟨e, st⟩
  · exact ⟨out, st, rfl⟩
  · rw [hres] at hrun
    cases hrun

end SelfCall

open SelfCall Sample in
/-- The value is destroyed before it is given to the routine that trims it. -/
theorem destroyed_before_read : (source.acts destroys).map view = [(false, some 2)] ∧
    ∃ res out, (routine.inject env shared).1 = .ok res ∧ res.error.isNone = true ∧
      res.body = some out ∧ (out.acts destroys).map view = [(true, some 2), (false, some 2)] := by
  refine ⟨by decide +kernel, ?_⟩
  obtain ⟨res, hres, hrun⟩ := exists_ok (x := (routine.inject env shared).1)
    (p := fun res => res.error.isNone && res.body.map (fun out => (out.acts destroys).map view) ==
      some [(true, some 2), (false, some 2)]) (by decide +kernel)
  simp only [Bool.and_eq_true, beq_iff_eq, Option.map_eq_some_iff] at hrun
  obtain ⟨he, out, hout, hc⟩ := hrun
  exact ⟨res, out, hres, he, hout, hc⟩

open SelfCall InjectM Sample in
/-- The order in which that assignment is worked through. -/
theorem assign_storeOrder_selfCall : ∃ out st st₁ d st₂,
    (rules (6 + 2)).eval routine.body 0 .normal context state = .ok out st ∧
      isOwning 1 context state = .ok true st₁ ∧
      located (rules (6 + 1)) routine.body (sym 2 1 2)
        { kind := .sym, sym := some 2, type := 1, site := 2 } 0 context st₁ = .ok d st₂ ∧
      StoreOrder destroys context d false (6 + 1) source 0 st₂ out st := by
  obtain ⟨st₁, howning, hcursor⟩ := isOwning_name
  obtain ⟨out, st, hres⟩ := eval_assignment
  obtain ⟨d, st₂, hd, hout⟩ := assign_storeOrder (h := { kind := .asgn, site := 1 }) destroys rfl
    (show (sym 2 1 2).info = .ok _ from rfl) howning hcursor hres
  exact ⟨out, st, st₁, d, st₂, hres, howning, hd, hout⟩

end Lifecycle
