import Lifecycle.Proofs.Injection.Questions

/-!
# What lifecycle operations look like

For each operation that is emitted, the trees that can come of it and the notes that it leaves:
markers, destroys, moves, copies, temporaries, and what stands around a region when it is closed.
-/

namespace Lifecycle

namespace Ground

variable (k : Ground)

/-- A call of the operator `r`. -/
def Calls (r : SymRef) (t : TypeId) (span : Span) (args : List Node) (out : Node) : Prop :=
  ∃ x f, k.Operator r x ∧ Node.Refers r x span f ∧
    Node.Is { kind := .call, span, type := t } (f :: args) out

/-- A call of the built-in `m`, which is noted. -/
def CallsMagic (m : Magic) (t : TypeId) (span : Span) (args : List Node) (out : Node) (l : Log) :
    Prop :=
  ∃ r, k.Calls r t span args out ∧ l = [.magic m r]

/-- The marker that says that `n` was moved from. -/
def Resets (n out : Node) (l : Log) : Prop :=
  ∃ place cp, n.skipConv = .ok place ∧ place.CopyOf cp ∧ k.CallsMagic .wasMoved 0 n.span [cp] out l

/-- An operator is called on the location `dest`. -/
def Operates (dest : Node) (args : List Node) (out : Node) (l : Log) : Prop :=
  ∃ cp r, dest.CopyOf cp ∧ k.Calls r 0 dest.span (cp :: args) out ∧ l = [.op r]

/-- What is in `dest` is destroyed, if there is an operator for it. -/
def Destroys (dest out : Node) (l : Log) : Prop :=
  k.Operates dest [] out l ∨ Node.Is { kind := .empty, span := dest.span } [] out ∧ l = []

/-- `dest` takes `ri` over: plainly, by its operator, or once it is destroyed. -/
inductive Sinks (dest ri : Node) : Node → Log → Prop
  | plain {out : Node} (ho : Node.Tree .fastAsgn 0 [dest, ri] out) : Sinks dest ri out []
  | own {out : Node} {l : Log} (ho : k.Operates dest [ri] out l) : Sinks dest ri out l
  | replaced {old stored out : Node} {l : Log} (hd : k.Destroys dest old l)
      (hs : Node.Tree .fastAsgn 0 [dest, ri] stored)
      (ho : Node.Is { kind := .stmtList, span := dest.span } [old, stored] out) :
      Sinks dest ri out l

/-- The value of `src` is copied to `dest`. -/
def Copies (dest src out : Node) (l : Log) : Prop :=
  k.Operates dest [src] out l ∨ Node.Tree .asgn 0 [dest, src] out ∧ l = []

/-- `dest` takes the value of `ri` over, and `ri` is marked. -/
def SinksAndResets (dest ri out : Node) (l : Log) : Prop :=
  ∃ moved l1 marker l2, k.Sinks dest ri moved l1 ∧ k.Resets ri marker l2 ∧
    Node.Is { kind := .stmtList, span := ri.span } [moved, marker] out ∧ l = l1 ++ l2

/-- A produced value as it stands, or bound to a temporary that is destroyed with the scope. -/
inductive Keeps (arg : Node) (s : ScopeId) : Node → Log → Prop
  | asIs : Keeps arg s arg [.asked arg.type false]
  | bound {r : SymRef} {x : Symbol} {tmp stored out destroyed : Node} {l1 l2 : Log}
      (hx : k.Entered .temp arg.type arg.span r x) (ht : Node.Refers r x arg.span tmp)
      (hs : k.Sinks tmp arg stored l1)
      (ho : Node.Is { kind := .stmtListExpr, span := arg.span, type := arg.type } [stored, tmp] out)
      (hd : k.Destroys tmp destroyed l2) :
      Keeps arg s out (.asked arg.type true :: .fresh false r x :: .var s r (some x) ::
        (l1 ++ (l2 ++ InjectM.due s destroyed)))

/-- The value of `n` is handed out, and `n` is marked if it owned it. -/
inductive MovesOut (n : Node) : Node → Log → Prop
  | asIs : MovesOut n n [.asked n.type false]
  | moved {r : SymRef} {x : Symbol} {a defs sec cleared b out : Node} {l : Log}
      (hown : k.MayOwn n.type) (hx : k.Entered .letLocal n.type n.span r x)
      (ha : Node.Refers r x n.span a)
      (hd : Node.Tree .identDefs 0 [a, n] defs) (hs : Node.Tree .varSection 0 [defs] sec)
      (hc : k.Resets n cleared l) (hb : Node.Refers r x n.span b)
      (ho : Node.Is { kind := .stmtListExpr, span := n.span, type := n.type }
        [sec, cleared, b] out) :
      MovesOut n out (.asked n.type true :: .fresh true r x :: l)

/-- The scope `i` may be told to mark `n` at its end. -/
def Marks (i : ScopeId) (n : Node) (l : Log) : Prop :=
  l = [] ∨ ∃ marker l1, k.Resets n marker l1 ∧ l = l1 ++ [.reset i marker]

end Ground

/-! ## Around a region -/

def Node.DeclaresOne (span : Span) (v : SymRef × Option Symbol) (n : Node) : Prop :=
  ∃ a e, Node.Names v.1 v.2 span a ∧ Node.Is { kind := .empty, span } [] e ∧
    Node.Tree .identDefs 0 [a, e] n

inductive Node.Opening (vars : List (SymRef × Option Symbol)) (span : Span) : List Node → Prop
  | none (h : vars = []) : Opening vars span []
  | some {ds : List Node} {n : Node} (hd : List.Forall₂ (Node.DeclaresOne span) vars ds)
      (hn : Node.Is { kind := .varSection, span } ds n) : Opening vars span [n]

/-- The markers, then the destroys in reverse. -/
def Node.Cleanup (resets finals : List Node) (span : Span) (n : Node) : Prop :=
  Node.Is { kind := .stmtList, span } (resets ++ finals.reverse) n

def Node.Guarded (body fin : Node) (t : TypeId) (out : Node) : Prop :=
  ∃ f, Node.Tree .finallyBranch 0 [fin] f ∧
    Node.Is { kind := .tryStmt, type := t, span := body.span } [body, f] out

/-- `ret` and what cleans up after it, behind it or in a `finally`. -/
inductive Node.Trailing (resets finals : List Node) (span : Span) (ret : Node) : List Node → Prop
  | idle (hr : resets = []) (hf : finals = []) : Trailing resets finals span ret [ret]
  | after {fin : Node} (hf : Node.Cleanup resets finals span fin) :
      Trailing resets finals span ret [ret, fin]
  | guarded {fin out : Node} (hf : Node.Cleanup resets finals span fin)
      (ho : Node.Guarded ret fin 0 out) : Trailing resets finals span ret [out]

/-- A region with what the notes say about its scope around it. -/
inductive Node.Closes (i : ScopeId) (ret : Node) (inner : Log) : Node → Prop
  | bare (hv : inner.vars i = []) (hr : inner.resets i = []) (hf : inner.finals i = []) :
      Closes i ret inner ret
  | around {decls rest : List Node} {out : Node}
      (hd : Node.Opening (inner.vars i) ret.span decls)
      (hr : Node.Trailing (inner.resets i) (inner.finals i) ret.span ret rest)
      (ho : Node.Is { kind := .stmtList, span := ret.span } (decls ++ rest) out) :
      Closes i ret inner out

/-- A value that was stored and is used when the region has been cleaned up. -/
inductive Node.TrailingValue (resets finals : List Node) (span : Span) (t : TypeId)
    (stored result : Node) : List Node → Prop
  | idle (hr : resets = []) (hf : finals = []) :
      TrailingValue resets finals span t stored result [stored, result]
  | after {fin : Node} (hf : Node.Cleanup resets finals span fin) :
      TrailingValue resets finals span t stored result [stored, fin, result]
  | guarded {fin body out : Node} (hf : Node.Cleanup resets finals span fin)
      (hb : Node.Tree .stmtListExpr t [stored, result] body) (ho : Node.Guarded body fin t out) :
      TrailingValue resets finals span t stored result [out]

namespace InjectM

variable {dest ri n : Node}
variable {k : Ground} {T : Note → Prop} {d : Nat} {c : InjectContext} {t : TypeId} {span : Span}
  {args : List Node}

theorem asks_call
    (hr : T (.op r) ∨ ∃ m, T (.magic m r)) : Asks k T d c (call r t span args)
    (k.Calls r t span args) := by
  refine .bind (asks_opNode hr) fun f ⟨x, hx, hf⟩ => ?_
  exact asks_node.mono fun out hout => ⟨x, f, hx, hf, hout⟩

theorem logs_magic (hm : m ≠ .new) :
    Logs k T d c (magic m t span args) (k.CallsMagic m t span args) := by
  refine .bindKnown (logs_ops (fun r => [.magic m r]) (OpM.adds_magic hm) ?_ ?_) ?_
  · simp [Note.isRemark]
  · intro r s hr e he
    rw [List.mem_singleton.1 he]
    exact hr
  · rintro r l ⟨rfl, -⟩
    exact (asks_call (.inr ⟨m, .inr (by simp)⟩)).logs fun out hout => ⟨r, hout, rfl⟩

theorem logs_reset : Logs k T d c (reset n) (k.Resets n) := by
  refine .lift_bind fun h hh => .lift_bind fun place hp => .ask asks_copy fun cp hcp => ?_
  refine (logs_magic (by decide)).mono fun out l hout => ⟨place, cp, hp, hcp, ?_⟩
  rw [(Node.info_eq hh).1]
  exact hout

theorem logs_defaultValue : Logs k T d c (defaultValue t span) (k.CallsMagic .default t span []) :=
  logs_magic (by decide)

def found : OpResult → Log
  | .ok (some op) => [.op op]
  | _ => []

theorem logs_found {m : OpM OpResult}
    (hm : ∀ s : OpState, OpM.Upholds (s.Later k.types) (m s) OpM.Found) :
    Logs k T d c (ops m) fun r l => l = found r := by
  refine (logs_ops found hm ?_ ?_).mono fun _ _ h => h.1
  · rintro (e | _ | op) <;> simp [found, Note.isRemark]
  · rintro (e | _ | op) s hr e' he'
    · cases he'
    · cases he'
    · rw [List.mem_singleton.1 he']
      exact hr op rfl

theorem logs_resolve : Logs k T d c (resolve t kind) fun r l => l = found r := by
  refine .ask .read fun x hx => ?_
  rw [hx.2.1]
  exact logs_found fun s => (OpM.enduring_later s).resolve t kind (.refl s)

theorem logs_branchDestroy :
    Logs k T d c (ops (OpM.branchDestroy k.types t)) fun r l => l = found r :=
  logs_found fun s => (OpM.enduring_later s).branchDestroy t (.refl s)

theorem logs_opCall :
    Logs k T d c (opCall? kind dest args) fun o l =>
      match o with
      | some out => k.Operates dest args out l
      | none => l = [] := by
  refine .lift_bind fun h hh => .bindKnown logs_resolve ?_
  rintro (e | _ | op) l rfl
  · refine .ite (fun _ => ?_) fun _ => .pure rfl
    exact .ask asks_reportOp fun _ _ => .pure rfl
  · exact .pure rfl
  · refine .ask asks_copy fun cp hcp => ?_
    refine .ask (asks_call (.inl (.inr (by simp [found])))) fun out hout => .pure ?_
    refine ⟨cp, op, hcp, ?_, by simp [found]⟩
    rw [(Node.info_eq hh).1]
    exact hout

theorem logs_destroy : Logs k T d c (destroy dest) (k.Destroys dest) := by
  refine .bind logs_opCall fun r l hr => ?_
  rcases r with _ | n
  · obtain rfl : l = [] := hr
    refine .lift_bind fun h hh => asks_emptyAt.logs fun out hout => .inr ⟨?_, rfl⟩
    rw [(Node.info_eq hh).1]
    exact hout
  · exact .pure (.inl (by simpa using hr))

theorem logs_ownSink : Logs k T d c (ownSink? dest ri) fun o l =>
    match o with
    | some out => k.Operates dest [ri] out l
    | none => l = [] := by
  refine .lift_bind fun h hh => .ask .get fun st _ => .ask .read fun x _ => ?_
  exact .ite (fun _ => logs_opCall) fun _ => .pure rfl

theorem logs_sink : Logs k T d c (sink dest ri decl) (k.Sinks dest ri) := by
  refine .ask asks_storesPlainly fun plain _ => .ite (fun _ => ?_) fun _ => ?_
  · exact .ask asks_decision fun _ _ => asks_fastAsgn.logs fun out hout => .plain hout
  refine .bind logs_ownSink fun r l hr => ?_
  rcases r with _ | n
  · obtain rfl : l = [] := hr
    refine .ask asks_decision fun _ _ => .bind logs_destroy fun old l hold => ?_
    refine .lift_bind fun h hh => .ask asks_fastAsgn fun stored hs => ?_
    refine asks_stmts.logs fun out hout => ?_
    rw [← (Node.info_eq hh).1] at hout
    simpa using Ground.Sinks.replaced hold hs hout
  · exact .ask asks_decision fun _ _ => .pure (by simpa using Ground.Sinks.own hr)

theorem logs_copyInto : Logs k T d c (copyInto dest src ri) (k.Copies dest src) := by
  have hasgn : Logs k T d c (tree .asgn 0 [dest, src]) (k.Copies dest src) :=
    asks_tree.logs fun out hout => .inr ⟨hout, rfl⟩
  refine .ask asks_decision fun _ _ => .lift_bind fun h hh => .bindKnown logs_resolve ?_
  rintro (e | _ | op) l rfl
  · refine (Logs.ite (fun _ => ?_) fun _ => hasgn).weaken fun _ => .inl
    exact .ask asks_reportOp fun _ _ => hasgn
  · exact .throw
  · refine .ask asks_copy fun cp hcp => ?_
    refine (asks_call (.inl (.inr (by simp [found])))).logs fun out hout => ?_
    refine .inl ⟨cp, op, hcp, ?_, by simp [found]⟩
    rw [(Node.info_eq hh).1]
    exact hout

theorem logs_sinkAndReset :
    Logs k T d c (sinkAndReset dest ri decl) (k.SinksAndResets dest ri) := by
  refine .bind logs_sink fun moved l1 hm => .lift_bind fun h hh => ?_
  refine .bind logs_reset fun marker l2 hr => asks_stmts.logs fun out hout => ?_
  rw [← (Node.info_eq hh).1] at hout
  exact ⟨moved, l1, marker, l2, hm, hr, hout, by simp⟩

theorem logs_keepUntilEnd : Logs k T d c (keepUntilEnd arg s) (k.Keeps arg s) := by
  refine .lift_bind fun h hh => ?_
  obtain ⟨hspan, htype, -⟩ := Node.info_eq hh
  rw [← hspan, ← htype]
  refine .bind logs_isOwning ?_
  rintro b l ⟨rfl, -⟩
  refine .ite (fun hb => ?_) fun hb => ?_
  · obtain rfl : b = false := by simpa using hb
    exact .pure .asIs
  obtain rfl : b = true := by simpa using hb
  refine .bindKnown (logs_newTemp false) ?_
  rintro r l ⟨x, hx, rfl⟩
  refine .ask (asks_symNode false (x := x) (.inr (by simp))) fun tmp ht => ?_
  refine .bind logs_sink fun stored l1 hs => .ask asks_node fun out hout => ?_
  refine .bind logs_destroy fun destroyed l2 hd => .bind logs_addFinal ?_
  rintro _ l rfl
  exact .pure (by simpa using Ground.Keeps.bound hx ht hs hout hd)

theorem logs_moveOut : Logs k T d c (moveOut n) (k.MovesOut n) := by
  refine .lift_bind fun h hh => ?_
  obtain ⟨hspan, htype, -⟩ := Node.info_eq hh
  rw [← hspan, ← htype]
  refine .bind logs_isOwning ?_
  rintro b l ⟨rfl, hown⟩
  refine .ite (fun hb => ?_) fun hb => ?_
  · obtain rfl : b = false := by simpa using hb
    exact .pure .asIs
  obtain rfl : b = true := by simpa using hb
  refine .ask asks_decision fun _ _ => .ask asks_tempName fun name _ => ?_
  refine .bindKnown (logs_newSymbol true) ?_
  rintro r l ⟨x, hx, rfl⟩
  have hknown : (fun e => T e ∨ e ∈ [Note.fresh true r x]) (.fresh true r x) := .inr (by simp)
  refine .ask (asks_symNode _ hknown) fun a ha => .ask asks_tree fun defs hdefs => ?_
  refine .ask asks_tree fun sec hsec => .bind logs_reset fun cleared l hc => ?_
  refine .ask (asks_symNode _ hknown) fun b hb => asks_node.logs fun out hout => ?_
  simpa using Ground.MovesOut.moved (hown rfl) hx ha hdefs hsec hc hb hout

theorem logs_addReset : Logs k T d c (addReset i n) fun _ l => k.Marks i n l := by
  refine .ask asks_scope fun sc _ => .ask (.anyM fun m => ?_) fun known _ => ?_
  · exact .lift_bind fun _ _ => .lift fun _ _ => trivial
  · refine .ite (fun _ => .pure (.inl rfl)) fun _ => .bind logs_reset fun marker l hm => ?_
    refine logs_addMarker.mono ?_
    rintro _ l' rfl
    exact .inr ⟨marker, l, hm, rfl⟩

/-! ## Around a region -/

theorem asks_declarations (hv : ∀ v ∈ vars, ∃ i, T (.var i v.1 v.2)) :
    Asks k T d c (declarations (vars.map Prod.fst) span) fun out => ∃ ds,
      List.Forall₂ (Node.DeclaresOne span) vars ds ∧
      Node.Is { kind := .varSection, span } ds out := by
  unfold declarations
  rw [List.mapM_map]
  refine .bind (asks_mapM (P := Node.DeclaresOne span) fun v hmem => ?_) fun ds hds => ?_
  · obtain ⟨i, hi⟩ := hv v hmem
    refine .bind (asks_varNode hi) fun a ha => ?_
    exact .bind asks_emptyAt fun e he => asks_tree.mono fun out hout => ⟨a, e, ha, he, hout⟩
  · exact asks_node.mono fun out hout => ⟨ds, hds, hout⟩

theorem asks_tryFinally {body fin : Node} :
    Asks k T d c (tryFinally body fin t) (Node.Guarded body fin t) := by
  exact .bind asks_tree fun f hf => asks_node.mono fun out hout => ⟨f, hf, hout⟩

theorem logs_opening {α : Type} (i : ScopeId) (inner : Log) {vars : List SymRef}
    {f : List Node → InjectM α} {R : α → Log → Prop} (hv : vars = (inner.vars i).map Prod.fst)
    (hT : ∀ e ∈ inner, T e)
    (hf : ∀ decls, Node.Opening (inner.vars i) span decls → Logs k T d c (f decls) R) :
    Logs k T d c (if vars.isEmpty = true then pure [] >>= f
      else do f (← pure [← declarations vars span])) R := by
  subst hv
  refine .ite (fun h => hf [] (.none ?_)) fun _ => ?_
  · simpa using h
  · refine .ask (asks_declarations fun v hv => ⟨i, hT _ (Log.mem_vars.1 hv)⟩) fun n hn => ?_
    obtain ⟨ds, hds, hn⟩ := hn
    exact hf [n] (.some hds hn)

theorem closing_closeAround {parent : Option ScopeId} {ret : Node} {inner : Log} :
    Closing k T d c parent inner (closeAround d ret) fun out l =>
      Node.Closes d ret inner out ∧ l = inner.closed parent d := by
  refine .close fun sc hv hr hf => .ite (fun h => .pure ?_) fun _ => ?_
  · simp only [Scope.isIdle, hv, hr, hf, Bool.and_eq_true, List.isEmpty_iff, List.map_eq_nil_iff]
      at h
    exact ⟨.bare h.1 h.2.1 h.2.2, by simp⟩
  refine logs_opening _ _ hv (fun e he => .inr he) fun decls hd => ?_
  beta_reduce
  extract_lets jp
  have hjp : ∀ rest, Node.Trailing (inner.resets d) (inner.finals d) ret.span ret rest →
      Logs k (fun e => T e ∨ e ∈ inner) d c (jp rest) fun out l =>
        Node.Closes d ret inner out ∧ inner.closed parent d ++ l = inner.closed parent d :=
    fun rest hrest => asks_stmts.logs fun out hout => ⟨.around hd hrest hout, by simp⟩
  refine .ite (fun hi => hjp _ ?_) fun _ => .ite (fun _ => ?_) fun _ => ?_
  · simp only [Scope.isIdle, hr, hf, Bool.and_eq_true, List.isEmpty_iff] at hi
    exact .idle hi.1 hi.2
  · refine .ask asks_stmts fun fin hfin => .ask asks_tryFinally fun out hout => hjp _ ?_
    rw [hr, hf] at hfin
    exact .guarded hfin hout
  · refine .ask asks_stmts fun fin hfin => hjp _ ?_
    rw [hr, hf] at hfin
    exact .after hfin

end InjectM

end Lifecycle
