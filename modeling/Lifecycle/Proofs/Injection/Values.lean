import Lifecycle.Proofs.Injection.Forms
import Lifecycle.Proofs.Tree.WellFormed

/-!
# What becomes of values

The trees and notes that can come of an expression, given what can come of its parts. A `Behaviour`
says this for the two rules, evaluating and storing; a rule `Follows` it when all that it gives is
allowed.
-/

namespace Lifecycle

/-- What may come of evaluating a node and of storing a value, with so many open scopes. -/
structure Behaviour where
  eval : Nat → Node → ScopeId → Mode → Node → Log → Prop
  store : Nat → Node → Node → ScopeId → Bool → Node → Log → Prop

namespace Behaviour

def InitsField (B : Behaviour) (d : Nat) (s : ScopeId) (n out : Node) (l : Log) : Prop :=
  ∃ h f v v' m, n = .node h [f, v] ∧ h.kind = .fieldInit ∧ B.eval d v s m v' l ∧
    Node.Is h [f, v'] out

/-- What becomes of a constructor. -/
inductive Constructs (B : Behaviour) (d : Nat) (s : ScopeId) : Node → Node → Log → Prop
  | list {h : Head} {ks ks' : List Node} {m : Mode} {out : Node} {l : Log}
      (hk : h.kind = .arrayConstr ∨ h.kind = .tupleConstr)
      (ha : InjectM.Each (fun a => B.eval d a s m) ks ks' l) (ho : Node.Is h ks' out) :
      Constructs B d s (.node h ks) out l
  | closure {h : Head} {f env env' out : Node} {m : Mode} {l : Log} (hk : h.kind = .closure)
      (ha : B.eval d env s m env' l) (ho : Node.Is h [f, env'] out) :
      Constructs B d s (.node h [f, env]) out l
  | object {h : Head} {ks ks' : List Node} {out : Node} {l : Log} (hk : h.kind = .objConstr)
      (ha : InjectM.Each (InitsField B d s) ks ks' l) (ho : Node.Is h ks' out) :
      Constructs B d s (.node h ks) out l

theorem Constructs.isConstructor {B : Behaviour}
    (h : B.Constructs d s n out l) : ∃ hd ks, n = .node hd ks ∧ hd.kind.isConstructor = true := by
  cases h with
  | list hk _ _ => exact ⟨_, _, rfl, by rcases hk with hk | hk <;> rw [hk] <;> rfl⟩
  | closure hk _ _ | object hk _ _ => exact ⟨_, _, rfl, by rw [hk]; rfl⟩

/-- What becomes of arguments, each as its parameter asks for. -/
inductive Passes (B : Behaviour) (d : Nat) (s : ScopeId) :
    List Param → List Node → List Node → Log → Prop
  | nil {ps : List Param} : Passes B d s ps [] [] []
  | more {a a' : Node} {as as' : List Node} {l ls : Log} (ha : B.eval d a s .normal a' l)
      (has : Passes B d s [] as as' ls) : Passes B d s [] (a :: as) (a' :: as') (l ++ ls)
  | fixed {p : Param} {ps : List Param} {a : Node} {as as' : List Node} {ls : Log}
      (hp : p.compileTime = true) (has : Passes B d s ps as as' ls) :
      Passes B d s (p :: ps) (a :: as) (a :: as') ls
  | given {p : Param} {ps : List Param} {a a' : Node} {as as' : List Node} {l ls : Log}
      (hp : p.compileTime = false)
      (ha : B.eval d a s (if p.sink then .sinkArg else .normal) a' l)
      (has : Passes B d s ps as as' ls) : Passes B d s (p :: ps) (a :: as) (a' :: as') (l ++ ls)

theorem Passes.length_eq {B : Behaviour} {d : Nat} {s : ScopeId} {ps : List Param}
    {as as' : List Node} {l : Log} (h : B.Passes d s ps as as' l) : as.length = as'.length := by
  induction h with
  | nil => rfl
  | more _ _ ih | fixed _ _ ih | given _ _ _ ih => rw [List.length_cons, List.length_cons, ih]

end Behaviour

/-- A well-formed tree. On regular ground it declares only symbols that were there at the outset. -/
structure Ground.Sound (k : Ground) (n : Node) : Prop where
  wellFormed : n.WellFormed k.ops.symbols
  declared : k.regular → ∀ h vh vs ks, Node.node h (.node vh vs :: ks) ∈ n.preorder →
    h.kind = .identDefs →
    ∀ r, vh.sym = some r → r < k.size

namespace Ground

variable (k : Ground)

theorem Sound.kid {k : Ground} {h : Head} {ks : List Node} (hn : k.Sound (.node h ks)) {a : Node}
    (ha : a ∈ ks) : k.Sound a := by
  refine ⟨hn.wellFormed.kids a ha, fun hr hd vh vs rest hm => hn.declared hr hd vh vs rest ?_⟩
  exact List.mem_cons_of_mem _ (Node.mem_preorderAll.2 ⟨a, ha, hm⟩)

theorem sound_name {k : Ground} {h : Head} (hk : h.kind = .sym) (hs : h.sym.isSome = true) :
    k.Sound (.node h []) := by
  refine ⟨Node.wellFormed_name hk hs, fun _ hd vh vs ks hm => ?_⟩
  simp [Node.preorder, Node.preorderAll] at hm

/-- A copy of `n` in a temporary, for a parameter that takes it over. -/
inductive CopiesToSink (B : Behaviour) (d : Nat) (n : Node) (s : ScopeId) : Node → Log → Prop
  | owning {r : SymRef} {x : Symbol} {tmp cleared v copied last out : Node} {l1 l2 l3 : Log}
      (hx : k.Entered .temp n.type n.span r x) (ht : Node.Refers r x n.span tmp)
      (hc : k.Resets tmp cleared l1) (hv : B.eval d n s .normal v l2)
        (hs : k.Copies tmp v copied l3)
      (hl : tmp.CopyOf last)
      (ho : Node.Is { kind := .stmtListExpr, span := n.span, type := n.type }
        [cleared, copied, last] out) :
      CopiesToSink B d n s out
        (.fresh true r x :: .var s r (some x) :: .asked n.type true :: (l1 ++ (l2 ++ l3)))
  | plain {r : SymRef} {x : Symbol} {tmp v stored last out : Node} {l : Log}
      (hx : k.Entered .temp n.type n.span r x) (ht : Node.Refers r x n.span tmp)
      (hv : B.eval d n s .normal v l) (hs : Node.Tree .asgn 0 [tmp, v] stored)
      (hl : tmp.CopyOf last)
      (ho : Node.Is { kind := .stmtListExpr, span := n.span, type := n.type } [stored, last] out) :
      CopiesToSink B d n s out (.fresh true r x :: .var s r (some x) :: .asked n.type false :: l)

/-- What is passed to a parameter that takes `n` over. -/
inductive SinkArgs (B : Behaviour) (d : Nat) (n : Node) (s : ScopeId) : Node → Log → Prop
  | constant {out : Node} {l : Log} (ho : k.CopiesToSink B d n s out l) : SinkArgs B d n s out l
  | copied {out : Node} {l : Log} (ho : k.CopiesToSink B d n s out l) :
      SinkArgs B d n s out (.asked n.type true :: l)
  | consumed {h : Head} {ks : List Node} {out : Node} {l : Log} (hn : n = .node h ks)
      (hk : n.isConstructor = true ∨ h.kind = .call ∨ h.kind.isLiteral = true)
      (ho : B.eval d n s .consumed out l) : SinkArgs B d n s out l
  | void {out : Node} {l : Log} (ht : k.types.isEmpty n.type = true)
      (ho : B.eval d n s .normal out l) : SinkArgs B d n s out l
  | unowned {out : Node} {l : Log} (ho : B.eval d n s .normal out l) :
      SinkArgs B d n s out (.asked n.type false :: l)
  | moved {out : Node} {l : Log} (hp : k.Movable n) (ho : k.MovesOut n out l) :
      SinkArgs B d n s out (.asked n.type true :: l)
  | operand {h : Head} {a a' out : Node} {m : Mode} {l : Log} (hn : n = .node h [a])
      (hk : h.kind = .conv ∨ h.kind = .upConv ∨ h.kind = .downConv ∨ h.kind = .cast)
      (hm : m = .sinkArg ∨ h.kind = .conv ∧ m = .normal ∧
        k.types.shapeOf h.type ≠ k.types.shapeOf a.type)
      (ha : B.eval d a s m a' l) (ho : Node.Is h [a'] out) :
      SinkArgs B d n s out (.asked n.type true :: l)

/-- A produced value: it is handed on, or kept until the end of the scope when it is only looked
at. -/
def HandsOn (m : Mode) (s : ScopeId) (n out : Node) (l : Log) : Prop :=
  out = n ∧ l = [] ∨ m = .normal ∧ k.Keeps n s out l

def HasParams (t : TypeId) (ps : List Param) : Prop :=
  ∃ sig, InjectM.signature? k.types t = .ok sig ∧ ps = (sig.map (·.params.items)).getD []

def Allocates (callee : Node) : Prop :=
  ∃ h ks r, callee = .node h ks ∧ h.kind = .sym ∧ h.sym = some r ∧
    (k.ops.symbols.get r).magic = .new

theorem Allocates.isPlace {k : Ground} {callee : Node} (h : k.Allocates callee) :
    callee.IsPlace := by
  obtain ⟨h, ks, r, rfl, hk, -⟩ := h
  exact .name hk

def Raising (n : Node) (s : ScopeId) (l : Log) : Prop :=
  ∃ st b, k.ops.Later k.types st ∧ mayRaise st.symbols k.types n = .ok b ∧
    l = if b then [.left s] else []

/-- A call with its arguments; an allocation destroys what was there. -/
inductive CallsWith (B : Behaviour) (d : Nat) (s : ScopeId) : Node → Node → Log → Prop
  | plain {h : Head} {callee callee' out : Node} {ps : List Param} {args args' : List Node}
      {l1 l2 : Log} (hps : k.HasParams callee.type ps) (ha : B.Passes d s ps args args' l1)
      (hc : B.eval d callee s .normal callee' l2) (ho : Node.Is h (callee' :: args') out) :
      CallsWith B d s (.node h (callee :: args)) out (l1 ++ l2)
  | alloc {h : Head} {callee out : Node} {ps : List Param} {args args' : List Node} {l : Log}
      (hc : k.Allocates callee) (hps : k.HasParams callee.type ps)
      (ha : B.Passes d s ps args args' l) (ho : Node.Is h (callee :: args') out) :
      CallsWith B d s (.node h (callee :: args)) out l
  | allocOver {h : Head} {callee a a' old new out : Node} {ps : List Param} {args args' : List Node}
      {l1 l2 : Log} (hc : k.Allocates callee) (hps : k.HasParams callee.type ps)
      (ha : B.Passes d s ps (a :: args) (a' :: args') l1)
      (hn : Node.Is h (callee :: a' :: args') new) (hd : k.Destroys a' old l2)
      (ho : Node.Is { kind := .stmtList, span := h.span } [old, new] out) :
      CallsWith B d s (.node h (callee :: a :: args)) out (l1 ++ l2)

/-- A call is made, and its value is handed on. -/
def Calling (B : Behaviour) (d : Nat) (n : Node) (s : ScopeId) (m : Mode) (out : Node) (l : Log) :
    Prop :=
  ∃ made l1 l2 l3, k.CallsWith B d s n made l1 ∧ k.Raising n s l2 ∧ k.HandsOn m s made out l3 ∧
    l = l1 ++ (l2 ++ l3)

end Ground

/-- The rules do nothing that `B` does not allow. -/
structure Rules.Follows (r : Rules) (k : Ground) (B : Behaviour) : Prop where
  eval : ∀ {T d c n} (s : ScopeId) (m : Mode), k.Sound n →
    InjectM.Logs k T d c (r.eval n s m) (B.eval d n s m)
  store : ∀ {T d c dest ri} (s : ScopeId) (decl : Bool), k.Sound ri →
    InjectM.Logs k T d c (r.store dest ri s decl) (B.store d dest ri s decl)

namespace InjectM

variable {k : Ground} {B : Behaviour} {r : Rules} {T : Note → Prop} {d : Nat} {c : InjectContext}
  {s : ScopeId} {h : Head} {m : Mode} {ks : List Node}

theorem logs_evalKids (hr : r.Follows k B) (hn : k.Sound (.node h ks)) :
    Logs k T d c (evalKids r (.node h ks) s m) fun out l =>
      ∃ ks', Each (fun a => B.eval d a s m) ks ks' l ∧ Node.Is h ks' out := by
  refine .last (logs_mapM fun a ha => hr.eval s m (hn.kid ha)) fun ks' l hks => ?_
  exact (asks_withKids hks.length_eq).mono fun out hout => ⟨ks', hks, hout⟩

theorem logs_evalOperand {a : Node} (hr : r.Follows k B) (hn : k.Sound (.node h [a])) :
    Logs k T d c (evalOperand r (.node h [a]) s m) fun out l =>
      ∃ a', B.eval d a s m a' l ∧ Node.Is h [a'] out := by
  refine .given rfl (.last (hr.eval s m (hn.kid (by simp))) fun a' l ha => ?_)
  exact (asks_withKids rfl).mono fun out hout => ⟨a', ha, hout⟩

theorem logs_copyToSink (hr : r.Follows k B) (hn : k.Sound n) :
    Logs k T d c (copyToSink r n s) (k.CopiesToSink B d n s) := by
  refine .lift_bind fun h hh => ?_
  obtain ⟨hspan, htype, -⟩ := Node.info_eq hh
  rw [← hspan, ← htype]
  refine .bindKnown (logs_newTemp true) ?_
  rintro v0 l ⟨x, hx, rfl⟩
  refine .ask (asks_symNode true (x := x) (.inr (by simp))) fun tmp ht => ?_
  refine .bind logs_isOwning ?_
  rintro b l ⟨rfl, -⟩
  extract_lets jp
  have hjp : ∀ (stored : List Node) {T : Note → Prop} {R : Node → Log → Prop},
      (∀ last out, tmp.CopyOf last → Node.Is
        { kind := .stmtListExpr, span := n.span, type := n.type }
        (stored ++ [last]) out → R out []) → Logs k T d c (jp stored) R :=
    fun stored _ _ h => .ask asks_copy fun last hl => asks_node.logs fun out hout =>
      h last out hl hout
  cases b with
  | true =>
    refine .bind logs_reset fun cleared l1 hc => .bind (hr.eval s .normal hn) fun v l2 hv => ?_
    refine .bind logs_copyInto fun copied l3 hs => .ask asks_copyDeservesHint fun hint _ => ?_
    have hrest := hjp [cleared, copied]
      (T := fun e => T e ∨ e ∈ [Note.fresh true v0 x, .var s v0 (some x)])
      (R := fun out l => k.CopiesToSink B d n s out ([.fresh true v0 x, .var s v0 (some x)] ++
        ([.asked n.type true] ++ (l1 ++ (l2 ++ (l3 ++ l))))))
      fun last out hl hout => by simpa using Ground.CopiesToSink.owning hx ht hc hv hs hl hout
    refine .ite (fun _ => ?_) fun _ => hrest
    refine .ask asks_printer fun p _ => .lift_bind fun text _ => ?_
    exact .ask asks_report fun _ _ => hrest
  | false =>
    refine .bind (hr.eval s .normal hn) fun v l hv => .ask asks_tree fun stored hs => ?_
    refine hjp [stored] fun last out hl hout => ?_
    simpa using Ground.CopiesToSink.plain hx ht hv hs hl hout

theorem logs_sinkArg (hr : r.Follows k B) (hn : k.Sound n) :
    Logs k T d c (sinkArg r n s) (k.SinkArgs B d n s) := by
  unfold sinkArg
  refine .ask .read fun x hx => .lift_bind fun b hb => ?_
  refine .ite (fun _ => (logs_copyToSink hr hn).mono fun _ _ ho => .constant ho) fun _ => ?_
  refine .lift_bind fun h hh => ?_
  obtain ⟨-, htype, ks, rfl⟩ := Node.info_eq hh
  refine .ite (fun hk => ?_) fun _ => ?_
  · refine (hr.eval s .consumed hn).mono fun out l ho => .consumed rfl ?_ ho
    simpa [Bool.or_eq_true, or_assoc] using hk
  rw [← htype]
  refine .ask asks_isVoid fun v hv => .ite (fun hvoid => ?_) fun _ => ?_
  · exact (hr.eval s .normal hn).mono fun out l ho => .void (hv ▸ hvoid) ho
  refine .bind logs_isOwning ?_
  rintro b l ⟨rfl, -⟩
  refine .ite (fun hb => ?_) fun hb => ?_
  · obtain rfl : b = false := by simpa using hb
    have heval : Logs k T d c (r.eval (.node h ks) s .normal) fun out l =>
        k.SinkArgs B d (.node h ks) s out ([.asked (Node.node h ks).type false] ++ l) :=
      (hr.eval s .normal hn).mono fun out l ho => .unowned ho
    refine .ask asks_shapeOf fun sh _ => .ite (fun _ => ?_) fun _ => heval
    exact .ask asks_routineName fun _ _ => .ask asks_reportError fun _ _ => heval
  obtain rfl : b = true := by simpa using hb
  refine .ask asks_canTakeOver fun t ht => .ite (fun htake => ?_) fun _ => ?_
  · exact logs_moveOut.mono fun out l ho => .moved (ht htake) ho
  have hcopied : Logs k T d c (copyToSink r (.node h ks) s) fun out l =>
      k.SinkArgs B d (.node h ks) s out ([.asked (Node.node h ks).type true] ++ l) :=
    (logs_copyToSink hr hn).mono fun _ _ ho => .copied ho
  have hsink : h.kind = .conv ∨ h.kind = .upConv ∨ h.kind = .downConv ∨ h.kind = .cast →
      Logs k T d c (evalOperand r (.node h ks) s .sinkArg) fun out l =>
        k.SinkArgs B d (.node h ks) s out ([.asked (Node.node h ks).type true] ++ l) := by
    intro hk
    obtain ⟨a, rfl⟩ := hn.wellFormed.one (by
      rcases hk with hk | hk | hk | hk <;> simp [Node.layoutFaults, hk])
    refine (logs_evalOperand hr hn).mono ?_
    rintro out l ⟨a', ha, hout⟩
    exact .operand rfl hk (.inl rfl) ha hout
  split
  · rename_i hk
    obtain ⟨a, rfl⟩ := hn.wellFormed.one (by simp [Node.layoutFaults, hk])
    refine .lift_bind fun b hb => .lift_bind fun o ho => ?_
    cases hb
    rw [htype, ← (Node.info_eq ho).2.1]
    refine .ask asks_shapeOf fun s1 hs1 => .ask asks_shapeOf fun s2 hs2 => ?_
    subst hs1 hs2
    dsimp only
    split_ifs with hsame
    · exact hsink (.inl hk)
    · refine (logs_evalOperand hr hn).mono ?_
      rintro out l ⟨a', ha, hout⟩
      exact .operand rfl (.inl hk) (.inr ⟨hk, rfl, by simpa using hsame⟩) ha hout
  · rename_i hk
    exact hsink (.inr (.inl hk))
  · rename_i hk
    exact hsink (.inr (.inr (.inl hk)))
  · rename_i hk
    refine .ask asks_shapeOf fun sh _ => .ite (fun _ => ?_) fun _ => hcopied
    exact hsink (.inr (.inr (.inr hk)))
  · exact hcopied

theorem logs_handOn [Decidable p] (hp : p → m = .normal) :
    Logs k T d c (if p then keepUntilEnd n s else pure n) (k.HandsOn m s n) :=
  .ite (fun h => logs_keepUntilEnd.mono fun _ _ hk => .inr ⟨hp h, hk⟩)
    fun _ => .pure (.inl ⟨rfl, rfl⟩)

theorem logs_construct (hr : r.Follows k B) (hn : k.Sound (.node h ks))
    (hk : h.kind = .arrayConstr ∨ h.kind = .tupleConstr ∨ h.kind = .closure) :
    Logs k T d c (construct r (.node h ks) s m) fun out l => ∃ made l1 l2,
      B.Constructs d s (.node h ks) made l1 ∧ k.HandsOn m s made out l2 ∧ l = l1 ++ l2 := by
  refine .given rfl (.ask .read fun x hx => ?_)
  extract_lets const jp
  have hjp : ∀ onHeap, Logs k T d c (jp onHeap) fun out l => ∃ made l1 l2,
      B.Constructs d s (.node h ks) made l1 ∧ k.HandsOn m s made out l2 ∧ l = l1 ++ l2 := by
    intro onHeap
    have hkeep : ∀ made l1, B.Constructs d s (.node h ks) made l1 →
        Logs k T d c (if (decide (m = .normal) && onHeap) = true then keepUntilEnd made s
          else pure made) fun out l => ∃ made l2 l3, B.Constructs d s (.node h ks) made l2 ∧
            k.HandsOn m s made out l3 ∧ l1 ++ l = l2 ++ l3 := by
      intro made l1 hmade
      refine (logs_handOn fun hp => ?_).mono fun out l2 hout => ⟨made, l1, l2, hmade, hout, rfl⟩
      simp only [Bool.and_eq_true, decide_eq_true_eq] at hp
      exact hp.1
    refine .ite (fun hclosure => ?_) fun hother => ?_
    · obtain ⟨f, env, rfl⟩ := hn.wellFormed.pair (by simp [Node.layoutFaults, hclosure])
      refine .given rfl (.given rfl ?_)
      refine .bind (logs_mapM fun a (ha : a ∈ [env]) => hr.eval s _ (hn.kid (by simp_all)))
        fun envs l henvs => ?_
      rcases henvs with _ | ⟨henv, hnil⟩
      cases hnil
      refine .ask (asks_withKids rfl) fun made hmade => hkeep made _ ?_
      rw [List.append_nil]
      exact .closure hclosure henv hmade
    · refine .bind (logs_evalKids hr hn) ?_
      rintro made l1 ⟨ks', hks, hmade⟩
      exact hkeep made l1 (.list (hk.imp_right fun h => h.resolve_right hother) hks hmade)
  split
  · exact .ask asks_shapeOf fun sh _ => hjp _
  · exact .lift_bind fun env _ => .lift_bind fun eh _ => hjp _
  · exact hjp _

theorem logs_fieldInit {n : Node} {elem : Mode} (hr : r.Follows k B) (hn : k.Sound n)
    (hk : n.kindOr = .fieldInit) : Logs k T d c (fieldInit r s elem n) (B.InitsField d s n) := by
  refine .lift_bind fun h hh => ?_
  obtain ⟨-, -, ks, rfl⟩ := Node.info_eq hh
  obtain ⟨f, v, rfl, -⟩ := hn.wellFormed.initialization (.inl hk)
  refine .given rfl ?_
  refine .ask asks_symbols fun ss _ => .lift_bind fun fh _ => .lift_bind fun v' hv => ?_
  cases hv
  refine .last (hr.eval s _ (hn.kid (by simp))) fun v' l hv => ?_
  exact (asks_withKids rfl).mono fun out hout => ⟨h, f, v, v', _, rfl, hk, hv, hout⟩

theorem logs_constructObject (hr : r.Follows k B)
    (hn : k.Sound (.node h ks)) (hk : h.kind = .objConstr) :
    Logs k T d c (constructObject r (.node h ks) s m) fun out l => ∃ made l1 l2,
      B.Constructs d s (.node h ks) made l1 ∧ k.HandsOn m s made out l2 ∧ l = l1 ++ l2 := by
  have hkinds : ∀ a ∈ ks, a.kindOr = .fieldInit := by
    have hl := hn.wellFormed.node.1
    simp only [Node.layoutFaults, hk] at hl
    exact Node.kindOr_of_onlyKind (Except.ok.inj hl)
  refine .lift_bind fun h' hh => ?_
  refine .ask asks_shapeOf fun sh _ => ?_
  refine .bind (logs_mapM fun a ha => logs_fieldInit hr (hn.kid ha) (hkinds a ha)) fun ks' l1 ha =>
    ?_
  refine .ask (asks_withKids ha.length_eq) fun made hmade => ?_
  refine (logs_handOn fun hp => ?_).mono fun out l2 hout =>
    ⟨made, l1, l2, .object hk ha hmade, hout, rfl⟩
  simp only [Bool.and_eq_true, decide_eq_true_eq] at hp
  exact hp.1

theorem logs_arguments (hr : r.Follows k B) : ∀ (ps : List Param) (as : List Node),
    (∀ a ∈ as, k.Sound a) → Logs k T d c (arguments r s ps as) (B.Passes d s ps as)
  | [], [], _ => by
    exact .pure .nil
  | p :: ps, [], _ => by
    exact .pure .nil
  | [], a :: as, ha => by
    refine .bind (hr.eval s .normal (ha a (by simp))) fun a' l ha' => ?_
    refine .last (logs_arguments hr [] as fun b hb => ha b (by simp [hb])) fun as' ls has => ?_
    exact .pure (.more ha' has)
  | p :: ps, a :: as, ha => by
    have hrest : Logs k T d c (arguments r s ps as) (B.Passes d s ps as) :=
      logs_arguments hr ps as fun b hb => ha b (by simp [hb])
    refine .ite (fun hp => ?_) fun hp => ?_
    · refine .ask (.pure (Q := fun b => b = a) rfl) fun b hb => .last hrest fun as' ls has => ?_
      exact .pure (hb ▸ .fixed hp has)
    · refine .bind (hr.eval s _ (ha a (by simp))) fun a' l ha' => .last hrest fun as' ls has => ?_
      exact .pure (.given (by simpa using hp) ha' has)

theorem logs_allocate (hc : k.Allocates callee) (hps : k.HasParams callee.type ps)
    (ha : B.Passes d s ps args args' l) :
    Logs k T d c (allocate (.node h (callee :: args)) callee args') fun out l' =>
      k.CallsWith B d s (.node h (callee :: args)) out (l ++ l') := by
  refine .ask (asks_withKids (by simp [ha.length_eq])) fun new hnew => ?_
  refine .given rfl ?_
  have hplain : k.CallsWith B d s (.node h (callee :: args)) new (l ++ []) := by
    rw [List.append_nil]
    exact .alloc hc hps ha hnew
  rcases args with _ | ⟨a, args⟩
  · exact .pure hplain
  rcases args' with _ | ⟨a', args'⟩
  · exact .pure hplain
  refine .lift_bind fun th _ => .ask asks_isOwning fun b _ => .ite (fun _ => ?_) fun _ =>
    .pure hplain
  refine .last logs_destroy fun old l2 hold => Logs.given rfl ?_
  exact asks_stmts.mono fun out hout => .allocOver hc hps ha hnew hold hout

theorem logs_evalCall (hr : r.Follows k B) (hn : k.Sound (.node h ks)) (hk : h.kind = .call) :
    Logs k T d c (evalCall r (.node h ks) s m) (k.Calling B d (.node h ks) s m) := by
  obtain ⟨callee, args, rfl⟩ : ∃ callee args, ks = callee :: args := by
    have hl := hn.wellFormed.node.1
    rcases ks with _ | ⟨callee, args⟩
    · simp [Node.layoutFaults, hk] at hl
    · exact ⟨callee, args, rfl⟩
  unfold evalCall
  refine .given rfl (.lift_bind fun ch hch => .ask .read fun x hx => .lift_bind fun sig hsig => ?_)
  have hps : k.HasParams callee.type ((sig.map (·.params.items)).getD []) :=
    ⟨sig, by rw [(Node.info_eq hch).2.1, ← hx.2.1]; exact hsig, rfl⟩
  refine .given rfl ?_
  refine .bind (logs_arguments hr _ args fun a ha => hn.kid (by simp [ha])) fun args' l1 ha => ?_
  extract_lets jp jp'
  have hjp : ∀ made l, k.CallsWith B d s (.node h (callee :: args)) made l →
      Logs k T d c (jp made) fun out l' =>
        k.Calling B d (.node h (callee :: args)) s m out (l ++ l') := by
    intro made l hmade
    have hkeep : ∀ l2, k.Raising (.node h (callee :: args)) s l2 →
        Logs k T d c (if m = .normal then keepUntilEnd made s else pure made) fun out l' =>
          k.Calling B d (.node h (callee :: args)) s m out (l ++ (l2 ++ l')) := fun l2 hl2 =>
      (logs_handOn id).mono fun out l3 hout => ⟨made, l, l2, l3, hmade, hl2, hout, rfl⟩
    refine .ask asks_symbols ?_
    rintro ss ⟨st, hst, -, rfl⟩
    refine .ask .read fun x hx => .lift_bind fun b hb => ?_
    rw [hx.2.1] at hb
    refine .ite (fun h' => .bind logs_markLeftEarly ?_) fun h' => ?_
    · rintro _ l2 rfl
      exact hkeep _ ⟨st, b, hst, hb, by rw [if_pos h']⟩
    · exact hkeep [] ⟨st, b, hst, hb, by rw [if_neg h']⟩
  clear_value jp
  have hjp' : ∀ allocates, (allocates = true → k.Allocates callee) →
      Logs k T d c (jp' allocates) fun out l' =>
        k.Calling B d (.node h (callee :: args)) s m out (l1 ++ l') := by
    intro allocates hall
    refine .ite (fun h' => ?_) fun _ => ?_
    · refine .bind (logs_allocate (hall h') hps ha) fun made l hmade => ?_
      simpa using hjp made _ hmade
    · refine .bind (hr.eval s .normal (hn.kid (by simp))) fun callee' l2 hc => ?_
      refine .ask (asks_withKids (by simp [ha.length_eq])) fun made hmade => ?_
      simpa using hjp made _ (.plain hps ha hc hmade)
  clear_value jp'
  refine .ite (fun hsym => ?_) fun _ => hjp' false (by simp)
  refine .ask asks_symbols ?_
  rintro ss ⟨st, hst, -, rfl⟩
  refine .lift_bind fun sym hsymOf => hjp' _ fun hnew => ?_
  obtain ⟨ref, href, hsymOf⟩ := bind_eq_ok.1 hsymOf
  obtain ⟨-, -, cs, rfl⟩ := Node.info_eq hch
  refine ⟨ch, cs, ref, rfl, hsym, Node.orAbsent_eq_ok href, ?_⟩
  have hmagic : (st.symbols.get ref).magic = .new := by
    rw [pure_eq_ok.1 hsymOf]
    simpa using hnew
  rcases Nat.lt_or_ge ref k.ops.symbols.all.size with hlt | hge
  · rw [← (hst.symbols.marked hlt).magic, hmagic]
  · exact absurd hmagic (hst.symbols.late hge).1

end InjectM

end Lifecycle
