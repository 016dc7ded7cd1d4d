import Lifecycle.Proofs.Injection.Branches

/-!
# What becomes of statements

The trees and notes that can come of assignments, declarations, `return` and `raise`, of storing a
value, and of a whole body. `ruled n` is the behaviour of the rules with at most `n` uses of one
within another, and `follows_ruled` says that they keep to it.
-/

namespace Lifecycle

namespace Ground

variable (k : Ground)

/-- The destroy of the old arm, where the tag of a variant changes. -/
inductive GuardsArm (span : Span) (le obj tmp : Node) : List Node → Log → Prop
  | none : GuardsArm span le obj tmp [] []
  | some {le' tmp' same changed obj' destroyed test guard : Node} {op : SymRef} {l1 l2 : Log}
      (hl : le.CopyOf le') (ht : tmp.CopyOf tmp')
      (hs : k.CallsMagic .eq k.types.builtins.bool span [le', tmp'] same l1)
      (hc : k.CallsMagic .not k.types.builtins.bool span [same] changed l2)
      (ho : obj.CopyOf obj') (hd : k.Calls op 0 span [obj'] destroyed)
      (hb : Node.Tree .elifBranch 0 [changed, destroyed] test)
      (hg : Node.Tree .ifStmt 0 [test] guard) :
      GuardsArm span le obj tmp [guard] (.op op :: (l1 ++ l2))

/-- The tag of a variant is stored, and the old arm is destroyed. -/
inductive StoresTag (B : Behaviour) (d : Nat) (s : ScopeId) (span : Span) (dest src : Node) :
    Node → Log → Prop
  | mk {r : SymRef} {x : Symbol} {tmp src' saved obj tmp' last out : Node} {lh : Head}
      {rest guard : List Node} {l1 l2 l3 : Log} (hk : dest.isKind .dot = true)
      (htag : dest.isDiscriminantField k.ops.symbols = .ok true)
      (hx : k.Entered .temp src.type span r x) (ht : Node.Refers r x span tmp)
      (hs : B.eval d src s .consumed src' l1) (hsaved : Node.Tree .fastAsgn 0 [tmp, src'] saved)
      (hle : B.eval d dest s .normal (.node lh (obj :: rest)) l2)
      (hg : k.GuardsArm span (.node lh (obj :: rest)) obj tmp guard l3) (hc : tmp.CopyOf tmp')
      (hl : Node.Tree .fastAsgn 0 [.node lh (obj :: rest), tmp'] last)
      (ho : Node.Is { kind := .stmtList, span } (saved :: guard ++ [last]) out) :
      StoresTag B d s span dest src out
        (.fresh true r x :: .var s r (some x) :: (l1 ++ (l2 ++ l3)))

/-- What becomes of an assignment. -/
inductive Assigns (B : Behaviour) (d : Nat) (s : ScopeId) : Node → Node → Log → Prop
  | owned {h : Head} {dest dest' src out : Node} {l1 l2 : Log} (hown : k.MayOwn dest.type)
      (hd : B.eval d dest s .normal dest' l1) (hs : B.store d dest' src s false out l2) :
      Assigns B d s (.node h [dest, src]) out (l1 ++ l2)
  | tag {h : Head} {dest src out : Node} {l : Log} (ht : k.StoresTag B d s h.span dest src out l) :
      Assigns B d s (.node h [dest, src]) out l
  | plain {h : Head} {dest dest' src src' out : Node} {l1 l2 : Log}
      (hd : B.eval d dest s .normal dest' l1) (hs : B.eval d src s .consumed src' l2)
      (ho : Node.Is h [dest', src'] out) : Assigns B d s (.node h [dest, src]) out (l1 ++ l2)

theorem Assigns.eq_node {k : Ground} {B : Behaviour} {d : Nat} {s : ScopeId} {n out : Node}
    {l : Log} (h : k.Assigns B d s n out l) : ∃ hd dest src, n = .node hd [dest, src] := by
  cases h <;> exact ⟨_, _, _, rfl⟩

/-- The value that a variable starts with: none, the given one, or an explicit default. -/
inductive StartsWith (r : SymRef) (span : Span) (init : Node) : Node → Log → Prop
  | given : StartsWith r span init init []
  | default {t : TypeId} {v : Node} {l : Log} (he : init.isKind .empty = true)
      (ht : ∀ y ∈ k.entry r, t = y.type) (hv : k.CallsMagic .default t span [] v l) :
      StartsWith r span init v l

/-- The destroy of a declared variable: none, one at the end of the program, or one at the end of
the scope. -/
inductive Schedules (v : Node) (s : ScopeId) : Log → Prop
  | never : Schedules v s []
  | atExit {destroyed : Node} {l : Log} (hd : k.Destroys v destroyed l) : Schedules v s l
  | atEnd {destroyed : Node} {l : Log} (hd : k.Destroys v destroyed l) :
      Schedules v s (l ++ InjectM.due s destroyed)

/-- What becomes of the declaration of a variable. -/
inductive Declares (B : Behaviour) (d : Nat) (s : ScopeId) : Node → List Node → Log → Prop
  | fixed {h vh : Head} {vs : List Node} {r : SymRef} {init sec : Node} (hr : vh.sym = some r)
      (hc : ∀ y ∈ k.entry r, y.has .compileTime = true)
      (hs : Node.Tree .varSection 0 [.node h [.node vh vs, init]] sec) :
      Declares B d s (.node h [.node vh vs, init]) [sec] []
  | bare {h : Head} {v init it sec : Node} (he : init.isKind .empty = true)
      (hi : Node.Is h [v, init] it) (hs : Node.Tree .varSection 0 [it] sec) :
      Declares B d s (.node h [v, init]) [sec] []
  | plain {h vh : Head} {vs : List Node} {r : SymRef} {init start init' it sec : Node} {l1 l2 : Log}
      (hr : vh.sym = some r) (hlt : k.regular → r < k.size)
      (hst : k.StartsWith r vh.span init start l1)
      (hv : B.eval d start s .normal init' l2) (hi : Node.Is h [.node vh vs, init'] it)
      (hs : Node.Tree .varSection 0 [it] sec) :
      Declares B d s (.node h [.node vh vs, init]) [sec] (l1 ++ l2)
  | hoisted {h vh : Head} {vs : List Node} {r : SymRef} {init : Node} {l : Log}
      (he : init.isKind .empty = true) (hr : vh.sym = some r)
      (hlt : k.regular → r < k.size) (hd : k.Schedules (.node vh vs) s l) :
      Declares B d s (.node h [.node vh vs, init]) [] (.var s r (k.entry r) :: l)
  | stored {h vh : Head} {vs : List Node} {r : SymRef} {init start out : Node} {l1 l2 l3 : Log}
      (hr : vh.sym = some r) (hlt : k.regular → r < k.size)
      (hst : k.StartsWith r vh.span init start l1)
      (hd : k.Schedules (.node vh vs) s l2) (ho : B.store d (.node vh vs) start s true out l3) :
      Declares B d s (.node h [.node vh vs, init]) [out]
        (l1 ++ .var s r (k.entry r) :: (l2 ++ l3))

inductive DeclaresAll (B : Behaviour) (d : Nat) (s : ScopeId) : Node → Node → Log → Prop
  | one {h : Head} {ks : List Node} {parts : List (List Node)} {out : Node} {l : Log}
      (hp : InjectM.Each (k.Declares B d s) ks parts l) (ho : parts.flatten = [out]) :
      DeclaresAll B d s (.node h ks) out l
  | list {h : Head} {ks : List Node} {parts : List (List Node)} {out : Node} {l : Log}
      (hp : InjectM.Each (k.Declares B d s) ks parts l)
      (ho : Node.Is { kind := .stmtList, span := h.span } parts.flatten out) :
      DeclaresAll B d s (.node h ks) out l

/-- What becomes of a `return`. -/
inductive Leaves (B : Behaviour) (d : Nat) (s : ScopeId) : Node → Node → Log → Prop
  | bare {h : Head} {v : Node} (he : v.isKind .empty = true) :
      Leaves B d s (.node h [v]) (.node h [v]) [.left s]
  | result {h : Head} {r : SymRef} {v res asgn assigned e ret out : Node} {l : Log}
      (hr : k.routine.result = some r) (hres : Node.Names r (k.entry r) v.span res)
      (ha : Node.Tree .asgn 0 [res, v] asgn) (hs : k.Assigns B d s asgn assigned l)
      (he : Node.Is { kind := .empty, span := h.span } [] e)
      (ht : Node.Is { kind := .returnStmt, span := h.span } [e] ret)
      (ho : Node.Is { kind := .stmtList, span := h.span } [assigned, ret] out) :
      Leaves B d s (.node h [v]) out (.left s :: l)
  | value {h : Head} {v v' out : Node} {l : Log} (hv : B.eval d v s .sinkArg v' l)
      (ho : Node.Is h [v'] out) : Leaves B d s (.node h [v]) out (.left s :: l)

/-- The local that is raised is marked, if it is one. -/
inductive Disarms (v : Node) : List Node → Log → Prop
  | none : Disarms v [] []
  | self {marker : Node} {l : Log} (hk : v.isKind .sym = true) (hm : k.Movable v)
      (hr : k.Resets v marker l) :
      Disarms v [marker] l
  | last {h : Head} {before : List Node} {a marker : Node} {l : Log}
      (hv : v = .node h (before ++ [a])) (hl : h.kind = .stmtListExpr) (hk : a.isKind .sym = true)
      (hm : k.Movable a) (hr : k.Resets a marker l) : Disarms v [marker] l

/-- What becomes of a `raise`. -/
inductive Raises (B : Behaviour) (d : Nat) (s : ScopeId) : Node → Node → Log → Prop
  | bare {h : Head} {v : Node} (he : v.isKind .empty = true) :
      Raises B d s (.node h [v]) (.node h [v]) [.left s]
  | given {h : Head} {v v' out : Node} {l : Log} (hv : B.eval d v s .consumed v' l)
      (ho : Node.Is h [v'] out) : Raises B d s (.node h [v]) out (.left s :: l)
  | copied {h : Head} {v v' tmp cleared copied tmp' raised out : Node} {r : SymRef} {x : Symbol}
      {disarmed : List Node} {l1 l2 l3 l4 : Log} (hx : k.Entered .temp v.type v.span r x)
      (ht : Node.Refers r x v.span tmp) (hc : k.Resets tmp cleared l1)
      (hv : B.eval d v s .normal v' l2) (hs : k.Copies tmp v' copied l3)
      (hd : k.Disarms v disarmed l4) (hl : tmp.CopyOf tmp')
      (hr : Node.Is { kind := .raiseStmt, span := h.span } [tmp'] raised)
      (ho : Node.Is { kind := .stmtList, span := h.span }
        ([cleared, copied] ++ disarmed ++ [raised]) out) :
      Raises B d s (.node h [v]) out
        (.left s :: .fresh true r x :: .var s r (some x) :: (l1 ++ (l2 ++ (l3 ++ l4))))

/-- The ways in which `ri` gets into `dest`. -/
inductive Stores (B : Behaviour) (d : Nat) (dest ri : Node) (s : ScopeId) (decl : Bool) :
    Node → Log → Prop
  | self {out : Node} (hs : dest.sameLocation ri = .ok true) (hp : ri.IsPlace)
      (ho : Node.Is { kind := .empty, span := ri.span } [] out) :
      Stores B d dest ri s decl out []
  | copied {v out : Node} {l1 l2 : Log} (hv : B.eval d ri s .consumed v l1)
      (ho : k.Copies dest v out l2) : Stores B d dest ri s decl out (l1 ++ l2)
  | sunk {m : Mode} {v out : Node} {l1 l2 : Log} (hv : B.eval d ri s m v l1)
      (ho : k.Sinks dest v out l2) : Stores B d dest ri s decl out (l1 ++ l2)
  | moved {out : Node} {l : Log} (hp : k.Movable ri) (ho : k.SinksAndResets dest ri out l) :
      Stores B d dest ri s decl out l
  | unpacked {i : ScopeId} {h : Head} {container v out : Node} {rest : List Node} {l1 l2 l3 : Log}
      (hn : ri = .node h (container :: rest)) (hi : h.kind = .index) (hk : k.NamesTemp container)
      (hm : k.Marks i container l1) (hv : B.eval d ri s .consumed v l2)
      (ho : k.Sinks dest v out l3) : Stores B d dest ri s decl out (l1 ++ (l2 ++ l3))
  | nested {out : Node} {l : Log} (hk : ri.isKind .whileStmt = false)
      (ho : k.Nests B d (.store dest decl) s ri out l) : Stores B d dest ri s decl out l
  | raised {out : Node} {l : Log} (hk : ri.isKind .raiseStmt = true)
      (ho : k.Raises B d s ri out l) :
      Stores B d dest ri s decl out l

/-- What is left as it stands. -/
inductive Stays : Node → Prop
  | leaf {h : Head} {ks : List Node}
    (hk : h.kind = .empty ∨ h.kind = .sym ∨ h.kind.isLiteral = true) :
      Stays (.node h ks)
  | place {h : Head} {ks : List Node} (hk : Node.stepsInto h.kind = true)
      (hp : (Node.node h ks).isPurePlace = .ok true) : Stays (.node h ks)

theorem stays_of_empty (h : n.isKind .empty = true) : Stays n := by
  cases n with
  | hole => cases h
  | node hd ks => exact .leaf (.inl (by simpa using h))

/-- What becomes of a node that is no construct with parts. -/
inductive Handles (B : Behaviour) (d : Nat) (n : Node) (s : ScopeId) : Mode → Node → Log → Prop
  | same {m : Mode} (hn : Stays n) : Handles B d n s m n []
  | exit {m : Mode} (hk : n.isKind .breakStmt = true) : Handles B d n s m n [.left s]
  | constructs {m : Mode} {made out : Node} {l1 l2 : Log} (hm : B.Constructs d s n made l1)
      (ho : k.HandsOn m s made out l2) : Handles B d n s m out (l1 ++ l2)
  | call {m : Mode} {made out : Node} {l1 l2 l3 : Log} (hk : n.isKind .call = true)
      (hm : k.CallsWith B d s n made l1) (hr : k.Raising n s l2) (ho : k.HandsOn m s made out l3) :
      Handles B d n s m out (l1 ++ (l2 ++ l3))
  | discard {m : Mode} {h : Head} {a a' out : Node} {l : Log} (hn : n = .node h [a])
      (hk : h.kind = .discardStmt) (ha : B.eval d a s .normal a' l) (ho : Node.Is h [a'] out) :
      Handles B d n s m out l
  | declare {m : Mode} {out : Node} {l : Log} (hk : n.isKind .varSection = true)
      (ho : k.DeclaresAll B d s n out l) : Handles B d n s m out l
  | assign {m : Mode} {out : Node} {l : Log}
      (hk : n.isKind .asgn = true ∨ n.isKind .fastAsgn = true) (ho : k.Assigns B d s n out l) :
      Handles B d n s m out l
  | raise {m : Mode} {out : Node} {l : Log} (hk : n.isKind .raiseStmt = true)
      (ho : k.Raises B d s n out l) : Handles B d n s m out l
  | leave {m : Mode} {out : Node} {l : Log} (hk : n.isKind .returnStmt = true)
      (ho : k.Leaves B d s n out l) : Handles B d n s m out l
  | dot {m : Mode} {h : Head} {obj obj' f out : Node} {l : Log} (hn : n = .node h [obj, f])
      (hk : h.kind = .dot) (ha : B.eval d obj s .normal obj' l) (ho : Node.Is h [obj', f] out) :
      Handles B d n s m out l
  | kids {m : Mode} {h : Head} {ks ks' : List Node} {out : Node} {l : Log} (hn : n = .node h ks)
      (hk : Node.stepsInto h.kind = true ∧ h.kind ≠ .dot)
      (ha : InjectM.Each (fun a => B.eval d a s .normal) ks ks' l) (ho : Node.Is h ks' out) :
      Handles B d n s m out l

inductive Evals (B : Behaviour) (d : Nat) (n : Node) (s : ScopeId) : Mode → Node → Log → Prop
  | nested {m : Mode} {out : Node} {l : Log} (ho : k.Nests B d (.value m) s n out l) :
      Evals B d n s m out l
  | sinkArg {out : Node} {l : Log} (ho : k.SinkArgs B d n s out l) : Evals B d n s .sinkArg out l
  | plain {m : Mode} {out : Node} {l : Log} (hm : m ≠ .sinkArg) (ho : k.Handles B d n s m out l) :
      Evals B d n s m out l

/-- The behaviour of the rules with so many uses of one within another. -/
def ruled : Nat → Behaviour
  | 0 => ⟨fun _ _ _ _ _ _ => False, fun _ _ _ _ _ _ _ => False⟩
  | n + 1 => ⟨fun d a s m out l => k.Evals (ruled n) d a s m out l,
      fun d dest ri s decl out l => k.Stores (ruled n) d dest ri s decl out l⟩

/-- Parameters that are taken over are destroyed at the end. -/
inductive SinkParams (i : ScopeId) : List (Option SymRef) → Log → Prop
  | nil : SinkParams i [] []
  | skip {p : Option SymRef} {ps : List (Option SymRef)} {l : Log} (hp : SinkParams i ps l) :
      SinkParams i (p :: ps) l
  | due {r : SymRef} {ps : List (Option SymRef)} {span : Span} {v destroyed : Node} {l1 l2 : Log}
      (hs : ∀ y ∈ k.entry r, y.has .sink = true ∧ span = y.span)
      (hv : Node.Names r (k.entry r) span v)
      (hd : k.Destroys v destroyed l1) (hp : SinkParams i ps l2) :
      SinkParams i (some r :: ps) (l1 ++ .final i destroyed :: l2)

/-- What becomes of the body of the routine. -/
inductive Works : Node → Log → Prop
  | mk {ret out : Node} {l1 l2 : Log}
      (hb : (k.ruled (InjectM.ruleDepth k.routine.body)).eval 1 k.routine.body 0 .normal ret l1)
      (hp : k.SinkParams 0 k.routine.params l2) (ho : Node.Closes 0 ret (l1 ++ l2) out) :
      Works out (Log.outside 0 (l1 ++ l2))

theorem sound_node {k : Ground} {h : Head} {ks : List Node}
    (hl : Node.layoutFaults k.ops.symbols h ks = .ok []) (hk : h.kind ≠ .identDefs)
    (hs : ∀ a ∈ ks, k.Sound a) : k.Sound (.node h ks) := by
  refine ⟨Node.wellFormed_node hl fun a ha => (hs a ha).wellFormed, fun hr hd vh vs rest hm hd' =>
    ?_⟩
  rw [Node.preorder, List.mem_cons] at hm
  rcases hm with hm | hm
  · cases hm
    exact absurd hd' hk
  · obtain ⟨a, ha, hm⟩ := Node.mem_preorderAll.1 hm
    exact (hs a ha).declared hr hd vh vs rest hm hd'

theorem sound_calls {k : Ground} {r : SymRef} {t : TypeId} {span : Span} {out : Node}
    (h : k.Calls r t span [] out) : k.Sound out := by
  obtain ⟨x, f, -, hf, site, rfl⟩ := h
  exact sound_node rfl (by simp) (by simpa using sound_refers hf)

end Ground

namespace InjectM

variable {k : Ground} {B : Behaviour} {r : Rules} {T : Note → Prop} {d : Nat} {c : InjectContext}
  {s : ScopeId} {h : Head}

theorem logs_storeTag (hr : r.Follows k B)
    (hn : k.Sound (.node h [dest, src])) (hk : dest.isKind .dot = true)
    (htag : dest.isDiscriminantField k.ops.symbols = .ok true) :
    Logs k T d c (storeTag r (.node h [dest, src]) s) (k.StoresTag B d s h.span dest src) := by
  unfold storeTag
  refine .given rfl (.given rfl (.given rfl ?_))
  refine .ask .read fun ctx hctx => .lift_bind fun sh hsh => ?_
  rw [← (Node.info_eq hsh).2.1]
  refine .bindKnown (logs_newTemp true) ?_
  rintro v l ⟨x, hx, rfl⟩
  refine .ask (asks_symNode true (x := x) (Or.inr (by simp))) fun tmp ht => ?_
  refine .bind (hr.eval s .consumed (hn.kid (by simp))) fun src' l1 hs => ?_
  refine .ask asks_fastAsgn fun saved hsaved => ?_
  refine .bind (hr.eval s .normal (hn.kid (by simp))) fun le l2 hle => .lift_bind fun obj hobj => ?_
  obtain ⟨lh, rest, rfl⟩ : ∃ lh rest, le = .node lh (obj :: rest) := by
    cases le with
    | hole => cases hobj
    | node lh ks =>
      cases ks with
      | nil => cases hobj
      | cons a rest =>
        cases hobj
        exact ⟨lh, rest, rfl⟩
  refine .lift_bind fun oh hoh => ?_
  extract_lets type jp bool
  have hbool : bool = k.types.builtins.bool := by rw [← hctx.2.1]
  clear_value bool
  subst hbool
  have hjp : ∀ guard l3, k.GuardsArm h.span (.node lh (obj :: rest)) obj tmp guard l3 →
      Logs k (fun e => T e ∨ e ∈ [Note.fresh true v x, .var s v (some x)]) d c
      (jp guard) fun out l =>
        k.StoresTag B d s h.span dest src out
          ([.fresh true v x, .var s v (some x)] ++ (l1 ++ (l2 ++ (l3 ++ l)))) := by
    intro guard l3 hg
    refine .ask asks_copy fun tmp' hc => .ask asks_fastAsgn fun last hl => ?_
    refine asks_stmts.logs fun out hout => ?_
    simpa using Ground.StoresTag.mk hk htag hx ht hs hsaved hle hg hc hl hout
  clear_value jp
  have hnone : Logs k (fun e => T e ∨ e ∈ [Note.fresh true v x, .var s v (some x)]) d c
    (jp []) fun out l =>
      k.StoresTag B d s h.span dest src out ([.fresh true v x, .var s v (some x)] ++
        (l1 ++ (l2 ++ l))) := by
    simpa using hjp [] [] .none
  refine .ask asks_isOwning fun owning _ => .ite (fun _ => ?_) fun _ => hnone
  refine .ask .get fun st _ => .ite (fun _ => ?_) fun _ => ?_
  · refine .ask asks_printer fun p _ => .lift_bind fun text _ => .ask asks_routineName fun name _ =>
      ?_
    exact .ask asks_reportError fun _ _ => hnone
  rw [hctx.2.1]
  refine .bindKnown logs_branchDestroy ?_
  rintro (e | _ | op) l rfl
  · exact (Logs.ask asks_reportOp fun _ _ => hnone).weaken fun _ => Or.inl
  · exact .throw
  · refine .ask asks_copy fun le' hl => .ask asks_copy fun tmp' htmp => ?_
    refine .bind (logs_magic (by decide)) fun same l3 hsame => ?_
    refine .bind (logs_magic (by decide)) fun changed l4 hchanged => ?_
    refine .ask asks_copy fun obj' ho => ?_
    refine .ask (asks_call (Or.inl (Or.inr (by simp [found])))) fun destroyed hd => ?_
    refine .ask asks_tree fun test htest => .ask asks_tree fun guard hguard => ?_
    simpa [found] using (hjp [guard] _ (.some hl htmp hsame hchanged ho hd htest hguard)).weaken
      fun _ => Or.inl

theorem logs_assign (hr : r.Follows k B) (hn : k.Sound (.node h [dest, src])) :
    Logs k T d c (assign r (.node h [dest, src]) s) (k.Assigns B d s (.node h [dest, src])) := by
  unfold assign
  refine .lift_bind fun dest' hdest => .lift_bind fun src' hsrc => .lift_bind fun dh hdh => ?_
  cases hdest
  cases hsrc
  extract_lets jp' jp
  rw [← (Node.info_eq hdh).2.1]
  have howned : k.MayOwn dest.type → Logs k T d c (jp' ())
    (k.Assigns B d s (.node h [dest, src])) := by
    intro hown
    refine .bind (hr.eval s .normal (hn.kid (by simp))) fun dest' l1 hd => ?_
    exact (hr.store s false (hn.kid (by simp))).mono fun out l2 hs => .owned hown hd hs
  clear_value jp'
  have hjp : ∀ owning, (owning = true → k.MayOwn dest.type) →
      Logs k T d c (jp owning) (k.Assigns B d s (.node h [dest, src])) := by
    intro owning hown
    refine .ite (fun ho => .ite (fun _ => ?_) fun _ => howned (hown ho)) fun _ => ?_
    · exact .ask asks_checkCycle fun _ _ => howned (hown ho)
    refine .ask asks_symbols ?_
    rintro ss ⟨st, hst, -, rfl⟩
    refine .lift_bind fun isTag htag => .ite (fun ht => ?_) fun _ => ?_
    · subst ht
      obtain ⟨hdot, htag⟩ := Node.isDiscriminantField_grown hst.symbols htag
      exact (logs_storeTag hr hn hdot htag).mono fun out l ho => .tag ho
    · refine .bind (hr.eval s .normal (hn.kid (by simp))) fun dest' l1 hd => ?_
      refine .last (hr.eval s .consumed (hn.kid (by simp))) fun src' l2 hs => ?_
      exact (asks_withKids rfl).mono fun out hout => .plain hd hs hout
  clear_value jp
  refine .ask asks_isOwning fun b hb => .ite (fun h' => ?_) fun _ => hjp _ (by simp)
  exact .ask asks_isCursor fun _ _ => hjp _ fun _ => hb h'

theorem logs_declare : Logs k T d c (declare (.node vh vs) v s) fun _ l =>
      ∃ l', k.Schedules (.node vh vs) s l' ∧ l = .var s v (k.entry v) :: l' := by
  unfold declare
  refine .bind (logs_addVar (x := k.entry v) fun st hst _ => Ground.has_entry hst) ?_
  rintro _ l rfl
  refine .ask (.update fun _ => ⟨rfl, rfl⟩) fun _ _ => .ask asks_symbols fun ss _ => ?_
  refine .ite (fun _ => .pure ⟨[], .never, rfl⟩) fun _ => ?_
  have hend : Logs k T d c (do addFinal s (← destroy (.node vh vs))) fun _ l =>
      ∃ l', k.Schedules (.node vh vs) s l' ∧
        [Note.var s v (k.entry v)] ++ l = .var s v (k.entry v) :: l' := by
    refine .bind logs_destroy fun destroyed l hd => logs_addFinal.mono ?_
    rintro _ _ rfl
    exact ⟨_, .atEnd hd, rfl⟩
  refine .ask asks_scope fun sc _ => .ite (fun _ => ?_) fun _ => hend
  refine .bind logs_destroy fun destroyed l hd => ?_
  have hexit : k.Schedules (.node vh vs) s l := .atExit hd
  refine .ite (fun _ => ?_) fun _ => .pure ⟨l, hexit, by simp⟩
  exact Asks.logs (P := fun _ => True) (.update fun _ => ⟨rfl, rfl⟩) fun _ _ =>
    ⟨l, hexit, by simp⟩

theorem logs_declaration {it : Node} (hr : r.Follows k B) (hn : k.Sound it)
    (hk : it.kindOr = .identDefs) : Logs k T d c (declaration r s it) (k.Declares B d s it) := by
  cases it with
  | hole => exact absurd hn.wellFormed Node.WellFormed.ne_hole
  | node h ks =>
    obtain ⟨v, init, rfl, hv⟩ := hn.wellFormed.initialization (.inr hk)
    cases v with
    | hole => cases hv
    | node vh vs =>
      unfold declaration
      refine .lift_bind fun v' hv' => .lift_bind fun init' hinit' => .lift_bind fun vh' hvh => ?_
      cases hv'
      cases hinit'
      cases hvh
      refine .ask asks_symbols ?_
      rintro ss ⟨st, hst, -, rfl⟩
      have hsym : ∃ ref, vh.sym = some ref := by
        have hl := (hn.kid (by simp : Node.node vh vs ∈ _)).wellFormed.node.1
        have hvk : vh.kind = .sym := by simpa using hv
        simpa [Node.layoutFaults, hvk, Option.isSome_iff_exists, Option.ne_none_iff_exists']
          using hl
      obtain ⟨ref, href⟩ := hsym
      have hlt : k.regular → ref < k.size := fun hr =>
        hn.declared hr h vh vs [init] (by simp [Node.preorder]) hk ref href
      refine .ite (fun hc => ?_) fun _ => ?_
      · refine .ask asks_tree fun sec hs => .pure (.fixed href (fun y hy => ?_) hs)
        rw [← (Ground.has_entry hst y hy).2.has_eq (by decide)]
        simpa [Symbols.has, href] using hc
      refine .lift_bind fun ih hih => .lift_bind fun ref' href' => ?_
      obtain rfl : ref = ref' := Option.some.inj (href.symm.trans (Node.orAbsent_eq_ok href'))
      extract_lets symbol jp' jp
      have htype : ∀ y ∈ k.entry ref, symbol.type = y.type := fun y hy =>
        (Ground.has_entry hst y hy).2.type
      clear_value symbol
      have hjp' : ∀ init' R, (∀ it sec, Node.Is h [.node vh vs, init'] it →
          Node.Tree .varSection 0 [it] sec → R [sec] []) → Logs k T d c (jp' init') R :=
        fun init' R hR => .ask (asks_withKids rfl) fun it hi => .ask asks_tree fun sec hs =>
          .pure (hR it sec hi hs)
      clear_value jp'
      have hjp : ∀ start l1, k.StartsWith ref vh.span init start l1 → k.Sound start →
          Logs k T d c (jp start) fun outs l =>
            k.Declares B d s (.node h [.node vh vs, init]) outs (l1 ++ l) := by
        intro start l1 hstart hsound
        have hempty : start.isKind .empty = true → start = init ∧ l1 = [] := by
          rcases hstart with _ | ⟨-, -, r0, ⟨x, f, -, -, site, rfl⟩, -⟩
          · exact fun _ => ⟨rfl, rfl⟩
          · intro he
            cases he
        refine .ask asks_isOwning fun b _ => .ite (fun _ => ?_) fun _ => ?_
        · refine .ite (fun he => hjp' start _ fun it sec hi hs => ?_) fun _ => ?_
          · obtain ⟨rfl, rfl⟩ := hempty he
            exact .bare he hi hs
          · refine .bind (hr.eval s .normal hsound) fun init' l2 hv => ?_
            refine hjp' init' _ fun it sec hi hs => ?_
            rw [List.append_nil]
            exact .plain href hlt hstart hv hi hs
        · refine .bind logs_declare ?_
          rintro _ l ⟨l2, hd, rfl⟩
          refine .ite (fun he => .pure ?_) fun _ => ?_
          · obtain ⟨rfl, rfl⟩ := hempty he
            simpa using Ground.Declares.hoisted he href hlt hd
          · refine .bind (hr.store s true hsound) fun out l3 ho => .pure ?_
            simpa using Ground.Declares.stored href hlt hstart hd ho
      clear_value jp
      have hgiven : Logs k T d c (jp init) (k.Declares B d s (.node h [.node vh vs, init])) :=
        hjp init [] .given (hn.kid (by simp))
      refine .ite (fun he => .ask asks_needsDefault fun b _ => ?_) fun _ => hgiven
      refine .ite (fun _ => .bind logs_defaultValue fun v l hv => ?_) fun _ => hgiven
      have hie : init.isKind .empty = true := by
        obtain ⟨-, -, is, rfl⟩ := Node.info_eq hih
        rw [Bool.and_eq_true] at he
        simpa using he.1
      exact hjp v l (.default hie htype hv)
        (by obtain ⟨_, hv, -⟩ := hv; exact Ground.sound_calls hv)

theorem logs_declareAll (hr : r.Follows k B) (hn : k.Sound (.node h ks))
    (hk : h.kind = .varSection) :
    Logs k T d c (declareAll r (.node h ks) s) (k.DeclaresAll B d s (.node h ks)) := by
  have hkinds := hn.wellFormed.definitions hk
  unfold declareAll
  refine .given rfl ?_
  refine .bind (logs_mapM fun a ha => logs_declaration hr (hn.kid ha) (hkinds a ha))
    fun parts l hp => ?_
  split
  · rename_i one hone
    refine .pure ?_
    rw [List.append_nil]
    exact .one hp hone
  · refine asks_stmts.logs fun out hout => ?_
    rw [List.append_nil]
    exact .list hp hout

theorem logs_leave {v : Node} (hr : r.Follows k B) (hn : k.Sound (.node h [v])) :
    Logs k T d c (leave r (.node h [v]) s) (k.Leaves B d s (.node h [v])) := by
  unfold leave
  refine .bind logs_markLeftEarly ?_
  rintro _ l0 rfl
  refine .lift_bind fun v' hv => .lift_bind fun vh hvh => ?_
  cases hv
  obtain ⟨hspan, -, vs, rfl⟩ := Node.info_eq hvh
  refine .ite (fun he => .pure (.bare (by simpa using he))) fun _ => ?_
  refine .ask .read fun ctx hctx => ?_
  rw [hctx.2.2]
  rcases hres : k.routine.result with _ | res
  · refine .last (hr.eval s .sinkArg (hn.kid (by simp))) fun v' l hv => ?_
    exact (asks_withKids rfl).mono fun out hout => .value hv hout
  · refine .given rfl (.ask asks_symNode_early fun dest hdest => ?_)
    refine .ask asks_tree fun asgn hasgn => .ask asks_emptyAt fun e he =>
      .ask asks_node fun ret ht => ?_
    have hsound : k.Sound asgn := by
      obtain ⟨site, rfl⟩ := hasgn
      refine Ground.sound_node rfl (by simp) fun a ha => ?_
      rcases List.mem_cons.1 ha with rfl | ha
      · obtain ⟨y, -, hdest⟩ := hdest
        exact Ground.sound_refers hdest
      · exact hn.kid ha
    obtain ⟨site, rfl⟩ := id hasgn
    refine .last (logs_assign hr hsound) fun assigned l hs => asks_stmts.mono fun out hout => ?_
    exact .result hres hdest hasgn hs he ht hout

theorem logs_raise (hr : r.Follows k B) (hn : k.Sound (.node h [v])) :
    Logs k T d c (raise r (.node h [v]) s) (k.Raises B d s (.node h [v])) := by
  unfold raise
  refine .bind logs_markLeftEarly ?_
  rintro _ l0 rfl
  refine .lift_bind fun v' hv => .lift_bind fun vh hvh => ?_
  cases hv
  obtain ⟨hspan, htype, vs, rfl⟩ := Node.info_eq hvh
  refine .ite (fun he => .pure (.bare (by simpa using he))) fun _ => ?_
  extract_lets jp
  have hgiven : Logs k T d c (jp true) fun out l =>
      k.Raises B d s (.node h [.node vh vs]) out ([.left s] ++ l) := by
    refine .last (hr.eval s .consumed (hn.kid (by simp))) fun v' l hv => ?_
    exact (asks_withKids rfl).mono fun out hout => .given hv hout
  have hcopied : Logs k T d c (jp false) fun out l =>
      k.Raises B d s (.node h [.node vh vs]) out ([.left s] ++ l) := by
    refine .given rfl ?_
    rw [← hspan, ← htype]
    refine .bindKnown (logs_newTemp true) ?_
    rintro v l ⟨x, hx, rfl⟩
    refine .ask (asks_symNode true (x := x) (.inr (by simp))) fun tmp ht => ?_
    refine .bind logs_reset fun cleared l1 hc => ?_
    refine .bind (hr.eval s .normal (hn.kid (by simp))) fun v' l2 hv => ?_
    refine .bind logs_copyInto fun copied l3 hs => ?_
    extract_lets jp2 jp'
    have hjp2 : ∀ disarmed l4, k.Disarms (.node vh vs) disarmed l4 →
        Logs k (fun e => T e ∨ e ∈ [Note.fresh true v x, .var s v (some x)]) d c (jp2 disarmed)
          fun out l => k.Raises B d s (.node h [.node vh vs]) out
            ([.left s] ++ ([.fresh true v x, .var s v (some x)] ++
              (l1 ++ (l2 ++ (l3 ++ (l4 ++ l)))))) := by
      intro disarmed l4 hd
      refine .ask asks_copy fun tmp' hl => .ask asks_node fun raised hraised => ?_
      refine asks_stmts.logs fun out hout => ?_
      simpa using Ground.Raises.copied hx ht hc hv hs hd hl hraised hout
    clear_value jp2
    have hjp' : ∀ source, (∀ marker l, source.isKind .sym = true → k.Movable source →
        k.Resets source marker l → k.Disarms (.node vh vs) [marker] l) →
        Logs k (fun e => T e ∨ e ∈ [Note.fresh true v x, .var s v (some x)]) d c
          (jp' source) fun out l =>
          k.Raises B d s (.node h [.node vh vs]) out
            ([.left s] ++ ([.fresh true v x, .var s v (some x)] ++ (l1 ++ (l2 ++ (l3 ++ l))))) := by
      intro source hsource
      refine .lift_bind fun sh hsh => .ask asks_ownsStorage fun owns howns => ?_
      refine .ite (fun hk => .bind logs_reset fun marker l hm => ?_) fun _ => hjp2 [] [] .none
      obtain ⟨-, -, ss, rfl⟩ := Node.info_eq hsh
      rw [Bool.and_eq_true, decide_eq_true_eq] at hk
      obtain ⟨q, hq, hempty⟩ := howns hk.2
      exact hjp2 [marker] l (hsource marker l (by simp [hk.1]) (.name hk.1 hq hempty) hm)
    clear_value jp'
    refine .ite (fun hl => .lift_bind fun source hsource => hjp' source ?_) fun _ => hjp' _ ?_
    · intro marker l hs hk hm
      have hlast := Node.orAbsent_eq_ok hsource
      obtain ⟨before, hbefore⟩ := List.getLast?_eq_some_iff.1 hlast
      exact .last (by rw [← hbefore]; rfl) hl hs hk hm
    · exact fun marker l hs hk hm => .self hs hk hm
  clear_value jp
  refine .ite (fun _ => hgiven) fun _ => .ask asks_isOwning fun b _ => ?_
  cases b
  · exact hgiven
  · exact hcopied

theorem logs_storeStep (hr : r.Follows k B) (hn : k.Sound ri) :
    Logs k T d c (storeStep r dest ri s decl) (k.Stores B d dest ri s decl) := by
  unfold storeStep
  refine .ask (.update fun _ => ⟨rfl, rfl⟩) fun _ _ => ?_
  refine .lift_bind fun same hsame => ?_
  refine .ite (fun hs => ?_) fun _ => ?_
  · refine .ask asks_decision fun _ _ => .lift_bind fun h hh => asks_emptyAt.logs fun out hout => ?_
    rw [← (Node.info_eq hh).1] at hout
    exact .self (hs ▸ hsame) (Node.isPlace_of_sameWithin (hs ▸ hsame)) hout
  refine .lift_bind fun h hh => .lift_bind fun dh hdh => ?_
  obtain ⟨-, -, ks, rfl⟩ := Node.info_eq hh
  have hcopied : Logs k T d c (do copyInto dest (← r.eval (.node h ks) s .consumed) (.node h ks))
      (k.Stores B d dest (.node h ks) s decl) := by
    refine .bind (hr.eval s .consumed hn) fun v l1 hv => ?_
    exact logs_copyInto.mono fun out l2 ho => .copied hv ho
  have hsinks : ∀ m : Mode, Logs k T d c (do sink dest (← r.eval (.node h ks) s m) decl)
    fun out l =>
      ∃ v l1 l2, B.eval d (.node h ks) s m v l1 ∧ k.Sinks dest v out l2 ∧ l = l1 ++ l2 := by
    intro m
    refine .bind (hr.eval s m hn) fun v l1 hv => ?_
    exact logs_sink.mono fun out l2 ho => ⟨v, l1, l2, hv, ho, rfl⟩
  have hsunk : ∀ m : Mode, Logs k T d c (do sink dest (← r.eval (.node h ks) s m) decl)
      (k.Stores B d dest (.node h ks) s decl) := by
    refine fun m => (hsinks m).mono ?_
    rintro out _ ⟨v, l1, l2, hv, ho, rfl⟩
    exact .sunk hv ho
  have hmoved : k.Movable (.node h ks) → Logs k T d c (sinkAndReset dest (.node h ks) decl)
      (k.Stores B d dest (.node h ks) s decl) :=
    fun hp => logs_sinkAndReset.mono fun out l ho => .moved hp ho
  have hnested : h.kind ≠ .whileStmt → Logs k T d c (nested r (.store dest decl) (.node h ks) s)
      (k.Stores B d dest (.node h ks) s decl) :=
    fun hk => (logs_nested hr hn).mono fun out l ho =>
      .nested (by simpa using hk) ho
  have hpart : Logs k T d c (do
      if ← canMovePart dest (.node h ks) dh.type then sinkAndReset dest (.node h ks) decl
      else do copyInto dest (← r.eval (.node h ks) s .consumed) (.node h ks))
      (k.Stores B d dest (.node h ks) s decl) :=
    .ask asks_canMovePart fun b hb => .ite (fun h => hmoved (hb h)) fun _ => hcopied
  extract_lets type copied sunk jp1 jp2 jp3 jp4
  split
  case h_9 =>
    exact .ask .read fun _ _ => .ite (fun _ => hcopied) fun _ => hsunk _
  case h_10 hk =>
    have hname : Logs k T d c (jp1 ()) (k.Stores B d dest (.node h ks) s decl) :=
      .ask (asks_canMoveName hk) fun b hb => .ite (fun h' => hmoved (hb h')) fun _ => hcopied
    refine .ask asks_isSinkParam fun b hb => .ite (fun h' => ?_) fun _ => hname
    exact .ask asks_isLastRead fun _ _ => .ite (fun _ => hmoved (hb h')) fun _ => hname
  case h_11 hk =>
    refine .ite (fun _ => .lift_bind fun container hc => ?_) fun _ => hpart
    refine .ask asks_isUnpackedTuple fun b hb => .ite (fun h' => ?_) fun _ => hpart
    refine .lift_bind fun ch _ => .ask asks_declScope fun i _ => .bind logs_addReset fun _ l1 hm =>
      ?_
    obtain ⟨rest, rfl⟩ : ∃ rest, ks = container :: rest := by
      cases ks with
      | nil => cases hc
      | cons a rest =>
        cases hc
        exact ⟨rest, rfl⟩
    refine (hsinks .consumed).mono ?_
    rintro out _ ⟨v, l2, l3, hv, ho, rfl⟩
    exact .unpacked rfl hk (hb h') hm hv ho
  case h_12 hk =>
    exact .ite (fun hi => absurd (hk.symm.trans hi) (by simp)) fun _ => hpart
  case h_22 hk =>
    obtain ⟨v, rfl⟩ := hn.wellFormed.one (by simp [Node.layoutFaults, hk])
    exact (logs_raise hr hn).mono fun out l ho =>
      .raised (by simpa using hk) ho
  case h_23 =>
    refine .ask asks_isOwnPlace fun b hb => .ite (fun h' => ?_) fun _ => hcopied
    refine .ask asks_isLastRead fun _ _ => .ite (fun _ => ?_) fun _ => hcopied
    exact .ask asks_canMove fun _ _ => .ite (fun _ => hmoved (hb h')) fun _ => hcopied
  all_goals
    rename_i hk
    first
    | exact hsunk _
    | exact hnested (by simp [hk])

theorem logs_evalStep (hr : r.Follows k B) (hn : k.Sound n) :
    Logs k T d c (evalStep r n s m) (k.Evals B d n s m) := by
  unfold evalStep
  refine .lift_bind fun h hh => ?_
  obtain ⟨-, -, ks, rfl⟩ := Node.info_eq hh
  have hl := hn.wellFormed.node.1
  have hnested : Logs k T d c (nested r (.value m) (.node h ks) s) (k.Evals B d (.node h ks) s m) :=
    (logs_nested hr hn).mono fun out l ho => .nested ho
  split
  iterate 7 exact hnested
  refine .ite (fun hm => ?_) fun hm => ?_
  · subst hm
    exact (logs_sinkArg hr hn).mono fun out l ho => .sinkArg ho
  refine Logs.mono ?_ fun out l ho => .plain hm ho
  have hsame : Ground.Stays (.node h ks) →
      Logs k T d c (pure (.node h ks)) (k.Handles B d (.node h ks) s m) := fun hs =>
        .pure (.same hs)
  have hkind : ∀ kind, h.kind = kind → (Node.node h ks).isKind kind = true := by
    intro kind hk
    simp [hk]
  have hplace : Node.stepsInto h.kind = true → h.kind ≠ .dot → Logs k T d c (do
      if ← (Node.node h ks).isPurePlace then return .node h ks
      evalKids r (.node h ks) s .normal) (k.Handles B d (.node h ks) s m) := by
    intro hk hd
    refine .lift_bind fun b hb => .ite (fun h' => hsame (.place hk (h' ▸ hb))) fun _ => ?_
    refine (logs_evalKids hr hn).mono ?_
    rintro out l ⟨ks', ha, hout⟩
    exact .kids rfl ⟨hk, hd⟩ ha hout
  split
  case h_7 | h_8 | h_9 =>
    rename_i hk
    refine (logs_construct hr hn (by simp [hk])).mono ?_
    rintro out _ ⟨made, l1, l2, hm, ho, rfl⟩
    exact .constructs hm ho
  case h_10 hk =>
    refine (logs_constructObject hr hn hk).mono ?_
    rintro out _ ⟨made, l1, l2, hm, ho, rfl⟩
    exact .constructs hm ho
  case h_11 hk =>
    refine (logs_evalCall hr hn hk).mono ?_
    rintro out _ ⟨made, l1, l2, l3, hm, hr, ho, rfl⟩
    exact .call (hkind _ hk) hm hr ho
  case h_12 hk =>
    obtain ⟨a, rfl⟩ := hn.wellFormed.one (by simp [Node.layoutFaults, hk])
    refine (logs_evalOperand hr hn).mono ?_
    rintro out l ⟨a', ha, hout⟩
    exact .discard rfl hk ha hout
  case h_13 hk =>
    exact (logs_declareAll hr hn hk).mono fun out l ho => .declare (hkind _ hk) ho
  case h_14 hk =>
    obtain ⟨dest, src, rfl⟩ := hn.wellFormed.pair (by simp [Node.layoutFaults, hk])
    exact (logs_assign hr hn).mono fun out l ho => .assign (.inl (hkind _ hk)) ho
  case h_15 hk =>
    obtain ⟨dest, src, rfl⟩ := hn.wellFormed.pair (by simp [Node.layoutFaults, hk])
    exact (logs_assign hr hn).mono fun out l ho => .assign (.inr (hkind _ hk)) ho
  case h_16 hk =>
    obtain ⟨v, rfl⟩ := hn.wellFormed.one (by simp [Node.layoutFaults, hk])
    exact (logs_raise hr hn).mono fun out l ho => .raise (hkind _ hk) ho
  case h_17 hk =>
    refine .bind logs_markLeftEarly ?_
    rintro _ l0 rfl
    exact .pure (.exit (hkind _ hk))
  case h_18 hk =>
    obtain ⟨v, rfl⟩ := hn.wellFormed.one (by simp [Node.layoutFaults, hk])
    exact (logs_leave hr hn).mono fun out l ho => .leave (hkind _ hk) ho
  case h_19 hk =>
    obtain ⟨obj, f, rfl, -⟩ := hn.wellFormed.dot hk
    refine .lift_bind fun b hb => .ite (fun h' => hsame (.place (by rw [hk]; rfl) (h' ▸ hb)))
      fun _ => ?_
    refine .given rfl (.bind (hr.eval s .normal (hn.kid (by simp))) fun obj' l ha => .given rfl ?_)
    refine (asks_withKids rfl).logs fun out hout => ?_
    rw [List.append_nil]
    exact .dot rfl hk ha hout
  case h_27 => exact .throw
  all_goals
    rename_i hk
    first
    | exact hsame (.leaf (by simp [hk, NodeKind.isLiteral]))
    | exact hplace (by rw [hk]; rfl) (by simp [hk])

theorem follows_ruled (k : Ground) : ∀ n, (rules n).Follows k (k.ruled n)
  | 0 => ⟨fun _ _ _ => .throw, fun _ _ _ => .throw⟩
  | n + 1 => ⟨fun _ _ hn => logs_evalStep (follows_ruled k n) hn,
      fun _ _ hn => logs_storeStep (follows_ruled k n) hn⟩

theorem logs_sinkParams {ps : List (Option SymRef)} :
    Logs k T d c (sinkParams i ps) fun _ l => k.SinkParams i ps l := by
  induction ps with
  | nil => exact .pure .nil
  | cons p ps hrest =>
    have hskip : Logs k T d c (sinkParams i ps) fun _ l => k.SinkParams i (p :: ps) l :=
      hrest.mono fun _ l hl => .skip hl
    unfold sinkParams
    rcases p with _ | v
    · exact hskip
    refine .ask asks_symbols ?_
    rintro ss ⟨st, hst, -, rfl⟩
    refine .ite (fun hsink => .ask asks_isOwning fun b _ => .ite (fun _ => ?_) fun _ => hskip)
      fun _ => hskip
    refine .ask asks_symNode_early fun name hname => .bind logs_destroy fun destroyed l1 hd => ?_
    refine .bind logs_pushFinal ?_
    rintro _ _ rfl
    refine hrest.mono fun _ l2 hl => .due (fun y hy => ?_) hname hd hl
    have hm := (Ground.has_entry hst y hy).2
    exact ⟨(hm.has_eq (by decide)).symm.trans hsink, hm.span⟩

theorem logs_body (hs : k.Sound k.routine.body) : Logs k T 0 c body k.Works := by
  unfold body
  refine .ask .read fun ctx hctx => ?_
  rw [hctx.2.2]
  refine Closing.start (.bind ((follows_ruled k _).eval 0 .normal hs) fun ret l1 hb => ?_)
  refine .bind logs_sinkParams fun _ l2 hp => ?_
  refine closing_closeAround.mono ?_
  rintro out _ ⟨ho, rfl⟩
  rw [Log.closed_none]
  exact .mk hb hp ho

end InjectM

end Lifecycle
