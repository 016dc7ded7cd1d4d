import Lifecycle.Proofs.Injection.Statements

/-!
# What stays and what is put in

Of a tree that is worked on some parts are left as they are (`Kept`), and calls are put in beside
them (`Emits`). Else each node is built again. A rule never gives a bare name, unless it was given
one (`calm_ruled`).
-/

namespace Lifecycle

variable {h : Head} {ks : List Node}

theorem Node.Is.ne_sym (hn : Node.Is h ks n) (hk : h.kind ≠ .sym) : n.isKind .sym = false := by
  obtain ⟨s, rfl⟩ := hn
  simpa using hk

/-- A statement that gives no value. -/
def Node.Inert (n : Node) : Prop :=
  n.isKind .sym = false ∧ (n.type = 0 ∨ n.isKind .raiseStmt = true)

theorem Node.Is.type_eq (hn : Node.Is h ks n) : n.type = h.type := by
  obtain ⟨_, rfl⟩ := hn
  rfl

theorem Node.Is.inert (hn : Node.Is h ks n) (hk : h.kind ≠ .sym) (ht : h.type = 0) : n.Inert :=
  ⟨hn.ne_sym hk, .inl (hn.type_eq.trans ht)⟩

namespace Ground

variable {m : Mode}
variable (k : Ground)

/-- A part that is left as it is, of a tree that is worked on. -/
inductive Kept (S : Node → Prop) : Node → Prop
  | stays {n : Node} (hn : Stays n) : Kept S n
  | exit {n : Node} (hn : n.isKind .breakStmt = true) : Kept S n
  | place {n : Node} (hn : n.IsPlace) : Kept S n
  | label {h : Head} {ks : List Node} {a last : Node} (hs : S (.node h (ks ++ [last])))
      (hk : h.kind = .ofBranch ∨ h.kind = .block ∨ h.kind = .closure) (ha : a ∈ ks) : Kept S a
  | fixed {h : Head} {callee a : Node} {args : List Node} {ps : List Param} {p : Param}
      (hs : S (.node h (callee :: args))) (hk : h.kind = .call) (hps : k.HasParams callee.type ps)
      (ha : (p, a) ∈ ps.zip args) (hp : p.compileTime = true) : Kept S a
  | constant {h vh : Head} {vs : List Node} {init : Node} {r : SymRef}
      (hs : S (.node h [.node vh vs, init])) (hk : h.kind = .identDefs) (hr : vh.sym = some r)
      (hc : ∀ y ∈ k.entry r, y.has .compileTime = true) : Kept S (.node h [.node vh vs, init])

/-- A call that is put in, with the note that is left of it. Where an operator is called on a name
alone, that name is one that is worked on. -/
inductive Emits (S : Node → Prop) : Node → Log → Prop
  | operator {r : SymRef} {t : TypeId} {span : Span} {args : List Node} {out : Node}
      (hc : k.Calls r t span args out)
      (ha : ∀ a, args = [a] → a.isKind .sym = true → ∃ n, S n ∧ n.CopyOf a) : Emits S out [.op r]
  | magic {m : Magic} {r : SymRef} {t : TypeId} {span : Span} {args : List Node} {out : Node}
      (hm : m ≠ .wasMoved) (hc : k.Calls r t span args out)
      (ha : ∀ a, args = [a] → a.isKind .sym = false) : Emits S out [.magic m r]
  | reset {n out : Node} {l : Log} (hs : S n) (hm : k.Movable n) (hr : k.Resets n out l) :
      Emits S out l
  | cleared {kind : SymKind} {t : TypeId} {span : Span} {r : SymRef} {x : Symbol} {n out : Node}
      {l : Log} (hx : k.Entered kind t span r x) (hn : Node.Refers r x span n)
      (hr : k.Resets n out l) : Emits S out l

/-- What comes of a node, at the top: it stays, it is built again, an expression of its type holds
it, or it gives way to a statement. -/
inductive Root (m : Mode) : Node → Node → Prop
  | same : Root m n n
  | built {h : Head} {as as' : List Node} (hk : h.kind ≠ .sym) (ho : Node.Is h as' out) :
      Root m (.node h as) out
  | bound {n : Node} (hm : m ≠ .consumed)
      (ho : Node.Is { kind := .stmtListExpr, span, type := n.type } as out) : Root m n out
  | stmt (ho : Node.Inert out) : Root m n out

/-- No name comes of anything but itself, and what a step into a field is taken from is no other
name, either. -/
structure Calm (B : Behaviour) : Prop where
  root : ∀ {d n s m out l}, B.eval d n s m out l → Root m n out
  store : ∀ {d dest ri s decl out l}, B.store d dest ri s decl out l → out.Inert
  dot : ∀ {d n s h a ks l}, B.eval d n s .normal (.node h (a :: ks)) l → n.isKind .dot = true →
    a.isKind .sym = true → ∃ hd rest, n = .node hd (a :: rest)

variable {k} {B : Behaviour} {d : Nat} {s : ScopeId} {n dest ri out : Node} {l : Log}

theorem Root.eq (h : Root m n out) (ho : out.isKind .sym = true) : out = n := by
  cases h with
  | same => rfl
  | built hk hi => simp [hi.ne_sym hk] at ho
  | bound _ hi => simp [hi.ne_sym (by simp)] at ho
  | stmt hi => simp [hi.1] at ho

theorem Root.sinkArg (h : Root m n out) : Root .sinkArg n out := by
  cases h with
  | same => exact .same
  | built hk hi => exact .built hk hi
  | bound _ hi => exact .bound (by simp) hi
  | stmt hi => exact .stmt hi

theorem Calm.eval (hB : Calm B) (h : B.eval d n s m out l) (ho : out.isKind .sym = true) :
    out = n :=
  (hB.root h).eq ho

theorem ne_sym_calls (h : k.Calls r t span args out) : out.isKind .sym = false := by
  obtain ⟨x, f, -, -, ho⟩ := h
  exact ho.ne_sym (by simp)

theorem inert_operates (h : k.Operates dest args out l) : out.Inert := by
  obtain ⟨cp, r, -, ⟨x, f, -, -, ho⟩, -⟩ := h
  exact ho.inert (by simp) rfl

theorem inert_sinks (h : k.Sinks dest ri out l) : out.Inert := by
  cases h with
  | plain ho | replaced _ _ ho => exact Node.Is.inert ho (by simp) rfl
  | own ho => exact inert_operates ho

theorem inert_copies (h : k.Copies dest ri out l) : out.Inert := by
  rcases h with h | ⟨ho, -⟩
  · exact inert_operates h
  · exact Node.Is.inert ho (by simp) rfl

theorem inert_raises (h : k.Raises B d s n out l) (hk : n.isKind .raiseStmt = true) :
    out.Inert := by
  have hraise : ∀ {hd : Head} {ks ks' : List Node}, (Node.node hd ks).isKind .raiseStmt = true →
      Node.Is hd ks' out → out.Inert := by
    intro hd ks ks' hk ho
    have hk : hd.kind = .raiseStmt := by simpa using hk
    refine ⟨ho.ne_sym (by simp [hk]), .inr ?_⟩
    obtain ⟨_, rfl⟩ := ho
    simpa using hk
  cases h with
  | @bare hd => exact hraise hk ⟨hd.site, rfl⟩
  | given _ ho => exact hraise hk ho
  | copied _ _ _ _ _ _ _ _ ho => exact ho.inert (by simp) rfl

theorem inert_nests (h : k.Nests B d (.store dest decl) s n out l)
    (hn : n.isKind .whileStmt = false) : out.Inert := by
  have hrebuilt : ∀ {h : Head} {ks : List Node}, Node.Rebuilds (.store dest decl) h ks out →
      h.kind ≠ .sym → out.Inert := by
    intro h ks ho hk
    refine Node.Is.inert ho ?_ rfl
    split_ifs
    · simp
    · exact hk
  cases h with
  | list hk _ _ ho => exact hrebuilt ho (by rcases hk with hk | hk <;> simp [hk])
  | loop hk => simp [hk] at hn
  | nothing hk ho | cond hk _ ho | choice hk _ _ ho | block hk _ ho | trying hk _ _ ho =>
    exact hrebuilt ho (by simp [hk])

theorem inert_stores (h : k.Stores B d dest ri s decl out l) : out.Inert := by
  cases h with
  | self _ _ ho => exact ho.inert (by simp) rfl
  | copied _ ho => exact inert_copies ho
  | sunk _ ho | unpacked _ _ _ _ _ ho => exact inert_sinks ho
  | moved _ ho =>
    obtain ⟨_, _, _, _, _, _, ho, -⟩ := ho
    exact ho.inert (by simp) rfl
  | nested hk ho => exact inert_nests ho hk
  | raised hk ho => exact inert_raises ho hk

theorem root_nests (h : k.Nests B d (.value m) s n out l) : Root m n out := by
  cases h with
  | list hk _ _ ho => exact .built (by rcases hk with hk | hk <;> simp [hk]) ho
  | nothing hk ho | cond hk _ ho | block hk _ ho => exact .built (by simp [hk]) ho
  | choice hk _ _ ho | loop hk _ _ ho | trying hk _ _ ho => exact .built (by simp [hk]) ho

theorem root_handsOn (h : k.HandsOn m s made out l) (hm : Root m n made)
    (ht : made.type = n.type ∨ made.type = 0) : Root m n out := by
  rcases h with ⟨rfl, -⟩ | ⟨rfl, h⟩
  · exact hm
  cases h with
  | asIs => exact hm
  | bound _ _ _ ho _ =>
    rcases ht with ht | ht
    · exact .bound (by simp) (ht ▸ ho)
    · exact .stmt (ho.inert (by simp) ht)

theorem root_built (hk : (Node.node h ks).isKind kind = true) (hne : kind ≠ .sym)
    (ho : Node.Is h ks' out) : Root m (.node h ks) out := by
  have hk : h.kind = kind := by simpa using hk
  exact .built (hk ▸ hne) ho

theorem place_of_evals (he : k.Evals B d (.node h ks) s .normal out l)
    (hk : h.kind = .sym ∨ h.kind = .intLit ∨ Node.stepsInto h.kind = true) :
    out = .node h ks ∧ l = [] ∨
      (∃ obj obj' f, ks = [obj, f] ∧ h.kind = .dot ∧ B.eval d obj s .normal obj' l ∧
        Node.Is h [obj', f] out) ∨ h.kind ≠ .dot ∧ Node.stepsInto h.kind = true ∧
        ∃ ks', InjectM.Each (fun a => B.eval d a s .normal) ks ks' l ∧ Node.Is h ks' out := by
  have hplain : h.kind.isNested = false ∧ h.kind.isConstructor = false := by
    rcases hk with hk | hk | hk
    · simp [hk, NodeKind.isNested, NodeKind.isConstructor]
    · simp [hk, NodeKind.isNested, NodeKind.isConstructor]
    · revert hk
      cases h.kind <;> simp [Node.stepsInto, NodeKind.isNested, NodeKind.isConstructor]
  have hno : ∀ {kind}, (Node.node h ks).isKind kind = true → kind ≠ .sym → kind ≠ .intLit →
      Node.stepsInto kind = true := by
    intro kind hi h1 h2
    obtain rfl : h.kind = kind := by simpa using hi
    exact (hk.resolve_left h1).resolve_left h2
  cases he with
  | nested ho =>
    obtain ⟨hd, ks, hn, hnest⟩ := ho.isNested
    cases hn
    rw [hplain.1] at hnest
    cases hnest
  | plain _ ho =>
    cases ho with
    | same => exact .inl ⟨rfl, rfl⟩
    | dot hd hk ha ho =>
      cases hd
      exact .inr (.inl ⟨_, _, _, rfl, hk, ha, ho⟩)
    | kids hd hk ha ho =>
      cases hd
      exact .inr (.inr ⟨hk.2, hk.1, _, ha, ho⟩)
    | constructs hm ho =>
      obtain ⟨hd, ks, hn, hcon⟩ := hm.isConstructor
      cases hn
      rw [hplain.2] at hcon
      cases hcon
    | discard hd hk ha ho =>
      cases hd
      cases hno (by simpa using hk) (by simp) (by simp)
    | exit hk | call hk | declare hk | raise hk | leave hk => cases hno hk (by simp) (by simp)
    | assign hk => rcases hk with hk | hk <;> cases hno hk (by simp) (by simp)

theorem eq_of_name (he : (k.ruled j).eval d n s .normal out l)
    (hn : n.isKind .sym = true) : out = n := by
  cases j with
  | zero => exact he.elim
  | succ j =>
    cases n with
    | hole => cases hn
    | node h ks =>
      have hk : h.kind = .sym := by simpa using hn
      rcases place_of_evals he (.inl hk) with ⟨ho, -⟩ | ⟨_, _, _, -, hdot, -⟩ | ⟨-, hstep, -⟩
      · exact ho
      · rw [hk] at hdot
        cases hdot
      · rw [hk] at hstep
        cases hstep

section Calm

variable (hB : Calm B)

include hB

theorem root_assigns (h : k.Assigns B d s n out l)
    (hk : n.isKind .asgn = true ∨ n.isKind .fastAsgn = true) : Root m n out := by
  cases h with
  | owned _ _ hs => exact .stmt (hB.store hs)
  | tag ht =>
    obtain ⟨-, -, -, -, -, -, -, -, -, -, ho⟩ := ht
    exact .stmt (ho.inert (by simp) rfl)
  | plain _ _ ho => rcases hk with hk | hk <;> exact root_built hk (by simp) ho

theorem inert_declaresAll (h : k.DeclaresAll B d s n out l) : out.Inert := by
  cases h with
  | one hp ho =>
    have hparts := (hp.all (Q := fun outs => ∀ a ∈ outs, a.Inert)
      (I := fun _ => True) (N := fun _ => True) (fun _ _ => trivial) fun x _ outs _ hd _ => ?_).1
    · have hmem : out ∈ List.flatten _ := ho ▸ List.mem_singleton_self out
      obtain ⟨part, hpart, hout⟩ := List.mem_flatten.1 hmem
      exact hparts part hpart out hout
    · refine ⟨?_, fun _ _ => trivial⟩
      cases hd with
      | hoisted => simp
      | stored _ _ _ _ ho => simpa using hB.store ho
      | fixed _ _ hs | bare _ _ hs | plain _ _ _ _ _ hs =>
        simpa using Node.Is.inert hs (by simp) rfl
  | list _ ho => exact ho.inert (by simp) rfl

omit hB in
theorem root_leaves (h : k.Leaves B d s n out l) (hk : n.isKind .returnStmt = true) :
    Root m n out := by
  cases h with
  | bare => exact .same
  | result _ _ _ _ _ _ ho => exact .stmt (ho.inert (by simp) rfl)
  | value _ ho => exact root_built hk (by simp) ho

theorem root_handles (h : k.Handles B d n s m out l) : Root m n out := by
  cases h with
  | same | exit => exact .same
  | constructs hm hh =>
    cases hm with
    | list hk _ ho =>
      exact root_handsOn hh (.built (by rcases hk with hk | hk <;> simp [hk]) ho) (.inl ho.type_eq)
    | closure hk _ ho | object hk _ ho =>
      exact root_handsOn hh (.built (by simp [hk]) ho) (.inl ho.type_eq)
  | call hk hm _ hh =>
    cases hm with
    | plain _ _ _ ho | alloc _ _ _ ho =>
      exact root_handsOn hh (root_built hk (by simp) ho) (.inl ho.type_eq)
    | allocOver _ _ _ _ _ ho =>
      exact root_handsOn hh (.stmt (ho.inert (by simp) rfl)) (.inr ho.type_eq)
  | declare _ hd => exact .stmt (inert_declaresAll hB hd)
  | assign hk ha => exact root_assigns hB ha hk
  | raise hk hr => exact .stmt (inert_raises hr hk)
  | leave hk hl => exact root_leaves hl hk
  | discard hn hk _ ho | dot hn hk _ ho =>
    subst hn
    exact .built (by simp [hk]) ho
  | kids hn hk _ ho =>
    subst hn
    exact .built (fun hsym => by rw [hsym] at hk; cases hk.1) ho

theorem root_evals (h : k.Evals B d n s m out l) : Root m n out := by
  cases h with
  | nested hn => exact root_nests hn
  | plain _ hh => exact root_handles hB hh
  | sinkArg ha =>
    have hcopies : ∀ {l}, k.CopiesToSink B d n s out l → Root .sinkArg n out := by
      intro l hc
      cases hc with
      | owning _ _ _ _ _ _ ho | plain _ _ _ _ _ ho => exact .bound (by simp) ho
    cases ha with
    | constant hc | copied hc => exact hcopies hc
    | consumed _ _ he | void _ he | unowned he => exact (hB.root he).sinkArg
    | moved _ hm =>
      cases hm with
      | asIs => exact .same
      | moved _ _ _ _ _ _ _ ho => exact .bound (by simp) ho
    | operand hn hk _ _ ho =>
      subst hn
      exact .built (by rcases hk with hk | hk | hk | hk <;> simp [hk]) ho

theorem dot_of_evals (he : k.Evals B d n s .normal (.node h (a :: ks)) l)
    (hk : n.isKind .dot = true) (ha : a.isKind .sym = true) :
    ∃ hd rest, n = .node hd (a :: rest) := by
  cases n with
  | hole => cases hk
  | node hd js =>
    have hk : hd.kind = .dot := by simpa using hk
    rcases place_of_evals he (.inr (.inr (by rw [hk]; rfl))) with
      ⟨ho, -⟩ | ⟨obj, obj', f, rfl, -, hobj, site, ho⟩ | ⟨hne, -⟩
    · cases ho
      exact ⟨h, ks, rfl⟩
    · cases ho
      exact ⟨hd, [f], by rw [hB.eval hobj ha]⟩
    · exact absurd hk hne

end Calm

theorem calm_ruled (k : Ground) : ∀ n, Calm (k.ruled n)
  | 0 => ⟨fun h => h.elim, fun h => h.elim, fun h => h.elim⟩
  | n + 1 => ⟨fun h => root_evals (calm_ruled k n) h, fun h => inert_stores h,
      fun h => dot_of_evals (calm_ruled k n) h⟩

end Ground

end Lifecycle
