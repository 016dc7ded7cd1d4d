import Lifecycle.Proofs.Injection.Log

/-!
# What a computation gives

`Logs k T d c m Q`: started with `d` open scopes, `m` only adds, and a value that it gives has `Q`
together with the notes. `T` holds notes that were left before. `Asks` is for computations that
leave no notes.
-/

namespace Lifecycle

variable {l : Log} {n : Node}

/-- What a routine is worked through with: the types, the routine, the operators and symbols at the
outset. On regular ground all operators, the parameters and the variable of the result are among the
symbols. -/
structure Ground where
  types : TypeTable
  routine : Routine
  ops : OpState
  regular : Prop
  known : regular → ∀ op, ops.IsOperator op → op < ops.symbols.all.size
  inside : regular → ∀ r, routine.result = some r ∨ some r ∈ routine.params →
    r < ops.symbols.all.size

namespace Ground

/-- The number of symbols at the outset; what is named by a larger number came later. -/
def size (k : Ground) : Nat := k.ops.symbols.all.size

def entry (k : Ground) (r : SymRef) : Option Symbol := k.ops.symbols.all[r]?

variable {k : Ground} {r : SymRef}

theorem entry_eq (h : r < k.size) : k.entry r = some (k.ops.symbols.get r) := by
  have hr : r < k.ops.symbols.all.size := h
  simp only [entry, Symbols.get, Array.getElem?_eq_getElem hr, Option.getD_some]

theorem entry_none (h : k.size ≤ r) : k.entry r = none :=
  Array.getElem?_eq_none h

theorem of_mem_entry {x : Symbol} (h : x ∈ k.entry r) : r < k.size ∧ x = k.ops.symbols.get r := by
  have hr : r < k.size := (Array.getElem?_eq_some_iff.1 h).1
  rw [entry_eq hr] at h
  exact ⟨hr, (Option.some.inj h).symm⟩

/-- Values of the type may have to be destroyed. -/
def MayOwn (k : Ground) (t : TypeId) : Prop :=
  k.types.isEmpty t = false ∧ ¬ k.ops.IsLifeless k.types t

structure Holds (k : Ground) (c : InjectContext) (st : InjectState) : Prop where
  types : c.types = k.types
  routine : c.routine = k.routine
  later : k.ops.Later k.types st.ops

theorem Holds.after {c : InjectContext} {st st' : InjectState} (h : k.Holds c st)
    (hl : st.After k.types l st') : k.Holds c st' :=
  ⟨h.types, h.routine, h.later.trans hl.ops⟩

theorem has_entry {s : OpState} (hs : k.ops.Later k.types s) : ∀ y ∈ k.entry r, s.Has r y := by
  intro y hy
  obtain ⟨hr, rfl⟩ := of_mem_entry hy
  exact ⟨Nat.lt_of_lt_of_le hr hs.symbols.size_le, hs.symbols.marked hr⟩

/-- What is called as an operator: one that was there at the outset, or one that was made up. -/
def Operator (k : Ground) (r : SymRef) (x : Symbol) : Prop :=
  k.ops.IsOperator r ∧ (∀ y ∈ k.entry r, x = y) ∨ k.size ≤ r ∧ x.IsMadeUp

/-- A new symbol of the routine. -/
structure Entered (k : Ground) (kind : SymKind) (type : TypeId) (span : Span) (r : SymRef)
    (x : Symbol) : Prop where
  late : k.size ≤ r
  kind : x.kind = kind
  type : x.type = type
  span : x.span = span
  owner : x.owner = k.routine.sym
  position : x.position = 0

end Ground

namespace Node

/-- The node with this head and these children, at some site. -/
def Is (h : Head) (ks : List Node) (n : Node) : Prop := ∃ s, n = .node { h with site := s } ks

/-- The same tree at other sites. -/
def CopyOf (n n' : Node) : Prop := ∃ k, n' = (n.relabel k).1

def Tree (kind : NodeKind) (type : TypeId) (ks : List Node) (n : Node) : Prop :=
  Is { kind, type, span := spanOf ks } ks n

/-- A name of the symbol `r`, whose record is `x`. -/
def Refers (r : SymRef) (x : Symbol) (span : Span) (n : Node) : Prop :=
  Is { kind := .sym, sym := some r, type := x.type, span := span.orElse x.span } [] n

def Names (r : SymRef) (x : Option Symbol) (span : Span) (n : Node) : Prop :=
  ∃ y, (∀ z ∈ x, y = z) ∧ Refers r y span n

theorem Names.refers {r : SymRef} {x : Symbol} {span : Span} (h : Names r (some x) span n) :
    Refers r x span n := by
  obtain ⟨y, hy, hn⟩ := h
  exact hy x rfl ▸ hn

end Node

def OpState.Knows (types : TypeTable) (s : OpState) (T : Note → Prop) : Prop :=
  ∀ e, T e → e.Holds types s

namespace InjectM

variable {p : Prop} {ks : List Node}
variable {α β : Type} {k : Ground} {T T' : Note → Prop} {d : Nat} {c : InjectContext} {i : ScopeId}
  {span : Span} {E : InjectState → Prop} {P : α → β → Log → Prop} {t : TypeId} {st : InjectState}
  {r : SymRef} {xs : List α} {f : α → InjectM β} {ys : List β} {x : Option Symbol}

theorem leads_get {Q : InjectState → InjectState → Prop} :
    Leads E ((MonadState.get : InjectM InjectState) c st) Q ↔ Q st st := Iff.rfl

theorem leads_bind {Q : β → InjectState → Prop} :
    Leads E ((m >>= f) c st) Q ↔ Leads E (m c st) fun a st' => Leads E (f a c st') Q := by
  have hb : (m >>= f) c st = EStateM.bind (m c) (fun a => f a c) st := rfl
  rw [hb, EStateM.bind]
  cases m c st <;> exact Iff.rfl

theorem leads_ite [Decidable p] {n : InjectM α} {Q : α → InjectState → Prop}
    (hm : p → Leads E (m c st) Q) (hn : ¬ p → Leads E (n c st) Q) :
    Leads E ((if p then m else n) c st) Q := by
  split_ifs with hp
  · exact hm hp
  · exact hn hp

/-- A run of `m` that ends leaves notes, and `Q` holds of them and of the result. -/
def Logs (k : Ground) (T : Note → Prop) (d : Nat) (c : InjectContext) (m : InjectM α)
    (Q : α → Log → Prop) : Prop :=
  ∀ st : InjectState, k.Holds c st → st.ops.Knows k.types T → st.scopes.length = d →
    Leads (fun st' => st.ops.Later k.types st'.ops) (m c st) fun a st' =>
      ∃ l, st.After k.types l st' ∧ Q a l

def Asks (k : Ground) (T : Note → Prop) (d : Nat) (c : InjectContext) (m : InjectM α)
    (Q : α → Prop) : Prop := Logs k T d c m fun a l => l = [] ∧ Q a

namespace Logs

variable {m : InjectM α} {P Q : α → Log → Prop} {R : β → Log → Prop} {f : α → InjectM β}

theorem mono (h : Logs k T d c m P) (hpq : ∀ a l, P a l → Q a l) : Logs k T d c m Q :=
  fun st hst hT hd => (h st hst hT hd).mono (fun _ h => h) fun a _ ⟨l, hl, ha⟩ =>
    ⟨l, hl, hpq a l ha⟩

theorem weaken (h : Logs k T d c m P) (hT : ∀ e, T e → T' e) : Logs k T' d c m P :=
  fun st hst hT' hd => h st hst (fun e he => hT' e (hT e he)) hd

theorem pure {a : α} (h : Q a []) : Logs k T d c (Pure.pure a) Q :=
  fun st _ _ _ => ⟨[], .silent (.refl st.ops) rfl, h⟩

theorem bindKnown (hm : Logs k T d c m P)
    (hf : ∀ a l, P a l → Logs k (fun e => T e ∨ e ∈ l) d c (f a) fun b l' => R b (l ++ l')) :
    Logs k T d c (m >>= f) R := by
  intro st hst hT hd
  rw [leads_bind]
  refine (hm st hst hT hd).mono (fun _ h => h) ?_
  rintro a st' ⟨l, hl, ha⟩
  have hknown : st'.ops.Knows k.types fun e => T e ∨ e ∈ l := by
    rintro e (he | he)
    · exact (hT e he).later hl.ops
    · exact hl.holds e he
  have hst' : k.Holds c st' := hst.after hl
  refine (hf a l ha st' hst' hknown (hl.depth.trans hd)).mono (fun _ h => hl.ops.trans h) ?_
  rintro b st'' ⟨l', hl', hb⟩
  exact ⟨l ++ l', hl.append hl', hb⟩

theorem bind (hm : Logs k T d c m P)
    (hf : ∀ a l, P a l → Logs k T d c (f a) fun b l' => R b (l ++ l')) : Logs k T d c (m >>= f) R :=
  hm.bindKnown fun a l ha => (hf a l ha).weaken fun _ => .inl

theorem ask {P : α → Prop} (hm : Asks k T d c m P)
    (hf : ∀ a, P a → Logs k T d c (f a) R) : Logs k T d c (m >>= f) R :=
  Logs.bind hm fun a l ⟨hl, ha⟩ => by
    subst hl
    exact hf a ha

theorem throw {e : InjectFailure} : Logs k T d c (MonadExcept.throw e : InjectM α) Q :=
  fun st _ _ _ => OpState.Later.refl st.ops

theorem lift {x : Except Fault α} (h : ∀ a, x = .ok a → Q a []) : Logs k T d c (liftM x) Q := by
  cases x with
  | error e => exact throw
  | ok a => exact pure (h a rfl)

theorem ite [Decidable p] {n : InjectM α} (hm : p → Logs k T d c m Q)
    (hn : ¬ p → Logs k T d c n Q) : Logs k T d c (if p then m else n) Q := by
  split_ifs with hp
  · exact hm hp
  · exact hn hp

theorem lift_bind {x : Except Fault α}
    (h : ∀ a, x = .ok a → Logs k T d c (f a) R) : Logs k T d c (liftM x >>= f) R := by
  cases x with
  | error e => exact fun st _ _ _ => OpState.Later.refl st.ops
  | ok a => exact h a rfl

theorem given {x : Except Fault α} {a : α} (hx : x = .ok a) (h : Logs k T d c (f a) R) :
    Logs k T d c (liftM x >>= f) R := by
  subst hx
  exact h

end Logs

namespace Asks

variable {m : InjectM α} {P Q : α → Prop}

theorem logs {R : α → Log → Prop} (h : Asks k T d c m P) (hpr : ∀ a, P a → R a []) :
    Logs k T d c m R :=
  Logs.mono h fun a l ⟨hl, ha⟩ => by
    subst hl
    exact hpr a ha

theorem mono (h : Asks k T d c m P) (hpq : ∀ a, P a → Q a) : Asks k T d c m Q :=
  Logs.mono h fun a _ ha => ⟨ha.1, hpq a ha.2⟩

theorem pure {a : α} (h : Q a) : Asks k T d c (Pure.pure a) Q := Logs.pure ⟨rfl, h⟩

theorem bind {f : α → InjectM β} {R : β → Prop} (hm : Asks k T d c m P)
    (hf : ∀ a, P a → Asks k T d c (f a) R) : Asks k T d c (m >>= f) R := Logs.ask hm hf

theorem throw {e : InjectFailure} : Asks k T d c (MonadExcept.throw e : InjectM α) Q := Logs.throw

theorem lift {x : Except Fault α} (h : ∀ a, x = .ok a → Q a) : Asks k T d c (liftM x) Q :=
  Logs.lift fun a ha => ⟨rfl, h a ha⟩

theorem lift_bind {x : Except Fault α} {f : α → InjectM β} {R : β → Prop}
    (h : ∀ a, x = .ok a → Asks k T d c (f a) R) : Asks k T d c (liftM x >>= f) R :=
  Logs.lift_bind h

theorem ite [Decidable p] {n : InjectM α} (hm : p → Asks k T d c m Q)
    (hn : ¬ p → Asks k T d c n Q) : Asks k T d c (if p then m else n) Q := Logs.ite hm hn

theorem get : Asks k T d c (MonadState.get : InjectM InjectState) (k.Holds c) :=
  fun st hst _ _ => ⟨[], .silent (.refl st.ops) rfl, rfl, hst⟩

theorem read : Asks k T d c (MonadReader.read : InjectM InjectContext) fun x =>
    x = c ∧ x.types = k.types ∧ x.routine = k.routine :=
  fun st hst _ _ => ⟨[], .silent (.refl st.ops) rfl, rfl, rfl, hst.types, hst.routine⟩

theorem update {f : InjectState → InjectState} (hf : ∀ st, (f st).ops = st.ops ∧
    (f st).scopes = st.scopes) : Asks k T d c (modify f : InjectM PUnit) fun _ => True := by
  intro st _ _ _
  obtain ⟨ho, hs⟩ := hf st
  exact ⟨[], .silent (by rw [ho]; exact .refl st.ops) hs, rfl, trivial⟩

theorem anyM {f : α → InjectM Bool} : ∀ {xs : List α}, (∀ x, Asks k T d c (f x) fun _ => True) →
    Asks k T d c (xs.anyM f) fun _ => True
  | [], _ => .pure trivial
  | x :: xs, h => by
    refine .bind (h x) fun b _ => ?_
    cases b
    · exact anyM h
    · exact .pure trivial

end Asks

theorem Logs.last {m : InjectM α} {P : α → Log → Prop} {R : β → Log → Prop} (hm : Logs k T d c m P)
    (hf : ∀ a l, P a l → Asks k T d c (f a) fun b => R b l) : Logs k T d c (m >>= f) R :=
  hm.bind fun a l ha => (hf a l ha).logs fun b hb => by rwa [List.append_nil]

/-- `P` holds item by item, and the notes are put together. -/
inductive Each (P : α → β → Log → Prop) : List α → List β → Log → Prop
  | nil : Each P [] [] []
  | cons {x : α} {y : β} {xs : List α} {ys : List β} {l ls : Log} (h : P x y l)
      (hs : Each P xs ys ls) : Each P (x :: xs) (y :: ys) (l ++ ls)

theorem Each.length_eq (h : Each P xs ys l) : xs.length = ys.length := by
  induction h with
  | nil => rfl
  | cons _ _ ih => rw [List.length_cons, List.length_cons, ih]

theorem Each.map_eq {γ : Type} {f : α → γ} {g : β → γ} (h : Each P xs ys l)
    (hp : ∀ x ∈ xs, ∀ y l, P x y l → f x = g y) : xs.map f = ys.map g := by
  induction h with
  | nil => rfl
  | cons hx _ ih =>
    rw [List.map_cons, List.map_cons, hp _ (by simp) _ _ hx, ih fun z hz => hp z (by simp [hz])]

theorem Each.all {Q : β → Prop} {I N : Note → Prop} (h : Each P xs ys l) (hl : ∀ e ∈ l, I e)
    (hp : ∀ x ∈ xs, ∀ y l, P x y l → (∀ e ∈ l, I e) → Q y ∧ ∀ e ∈ l, N e) :
    (∀ y ∈ ys, Q y) ∧ ∀ e ∈ l, N e := by
  induction h with
  | nil => simp
  | cons hx _ ih =>
    obtain ⟨hl, hls⟩ := List.forall_mem_append.1 hl
    obtain ⟨hq, hn⟩ := hp _ (by simp) _ _ hx hl
    obtain ⟨hqs, hns⟩ := ih hls fun z hz => hp z (by simp [hz])
    exact ⟨List.forall_mem_cons.2 ⟨hq, hqs⟩, List.forall_mem_append.2 ⟨hn, hns⟩⟩

theorem forall_of_forall₂ {P : α → β → Prop} {Q : β → Prop}
    (h : List.Forall₂ P xs ys) (hp : ∀ x ∈ xs, ∀ y, P x y → Q y) : ∀ y ∈ ys, Q y := by
  induction h with
  | nil => simp
  | cons hx _ ih =>
    exact List.forall_mem_cons.2 ⟨hp _ (by simp) _ hx, ih fun z hz => hp z (by simp [hz])⟩

theorem logs_mapM : ∀ {xs : List α},
    (∀ x ∈ xs, Logs k T d c (f x) (P x)) → Logs k T d c (xs.mapM f) (Each P xs)
  | [], _ => .pure .nil
  | x :: xs, h => by
    rw [List.mapM_cons]
    refine .bind (h x (by simp)) fun y l hy => ?_
    exact .last (logs_mapM fun z hz => h z (by simp [hz])) fun ys ls hys => .pure (.cons hy hys)

theorem asks_mapM {P : α → β → Prop}
    (h : ∀ x ∈ xs, Asks k T d c (f x) (P x)) : Asks k T d c (xs.mapM f) (List.Forall₂ P xs) := by
  refine (logs_mapM h).mono fun ys l hys => ?_
  clear h
  induction hys with
  | nil => exact ⟨rfl, .nil⟩
  | cons hx _ ih =>
    obtain ⟨rfl, hx⟩ := hx
    obtain ⟨rfl, ih⟩ := ih
    exact ⟨rfl, .cons hx ih⟩

/-! ## Questions -/

theorem leads_ops {m : OpM α} {Q : α → InjectState → Prop} : Leads E (ops m c st) Q ↔
      Leads (fun o => E { st with ops := o }) (m st.ops) fun a o => Q a { st with ops := o } := by
  rw [ops, leads_bind, leads_get, EStateM.run]
  cases m st.ops with
  | ok a o => exact Iff.rfl
  | error e o => exact Iff.rfl

theorem logs_ops {m : OpM α} {P : α → OpState → Prop} (note : α → Log)
    (hm : ∀ s : OpState, OpM.Upholds (s.Later k.types) (m s) P)
    (hr : ∀ a, ∀ e ∈ note a, e.isRemark) (hn : ∀ a s, P a s → ∀ e ∈ note a, e.Holds k.types s) :
    Logs k T d c (ops m) fun a l => l = note a ∧
      ∃ s s', k.ops.Later k.types s ∧ m s = .ok a s' := by
  intro st hst _ _
  rw [leads_ops]
  have hadds := hm st.ops
  rcases hrun : m st.ops with ⟨a, o⟩ | ⟨e, o⟩
  · rw [hrun] at hadds
    obtain ⟨ho, ha⟩ := hadds
    have hs : st.After k.types [] { st with ops := o } := .silent ho rfl
    exact ⟨note a, hs.remarks (hr a) (hn a o ha), rfl, st.ops, o, hst.later, hrun⟩
  · rw [hrun] at hadds
    exact hadds

theorem asks_ops {m : OpM α} {P : α → OpState → Prop}
    (hm : ∀ s : OpState, OpM.Upholds (s.Later k.types) (m s) P) :
    Asks k T d c (ops m) fun _ => True :=
  (logs_ops (fun _ => []) hm (by simp) (by simp)).mono fun _ _ h => ⟨h.1, trivial⟩

theorem asks_symbols : Asks k T d c symbols fun ss =>
    ∃ s, k.ops.Later k.types s ∧ s.Knows k.types T ∧ ss = s.symbols :=
  fun st hst hT _ => ⟨[], .silent (.refl st.ops) rfl, rfl, st.ops, hst.later, hT, rfl⟩

theorem asks_owner : Asks k T d c owner fun r => r = k.routine.sym := by
  exact .bind .read fun x hx => .pure (by rw [hx.2.2])

theorem asks_printer : Asks k T d c printer fun _ => True := by
  exact .bind asks_symbols fun _ _ => .bind .read fun _ _ => .pure trivial

theorem asks_routineName : Asks k T d c routineName fun _ => True := by
  exact .bind .read fun _ _ => .bind asks_symbols fun _ _ => .pure trivial

theorem asks_shapeOf : Asks k T d c (shapeOf t) fun s => s = k.types.shapeOf t := by
  exact .bind .read fun x hx => .pure (by rw [hx.2.1])

theorem asks_isVoid : Asks k T d c (isVoid t) fun b => b = k.types.isEmpty t := by
  exact .bind .read fun x hx => .pure (by rw [hx.2.1])

theorem Logs.forget {Q : α → Prop} {R : α → Log → Prop} (h : Logs k T d c m R)
    (hr : ∀ a l, R a l → (∀ e ∈ l, e.isRemark) ∧ Q a) : Asks k T d c m Q := by
  intro st hst hT hd
  refine (h st hst hT hd).mono (fun _ h => h) ?_
  rintro a st' ⟨l, hl, ha⟩
  exact ⟨[], hl.forget (hr a l ha).1, rfl, (hr a l ha).2⟩

theorem logs_isOwning :
    Logs k T d c (isOwning t) fun b l => l = [.asked t b] ∧ (b = true → k.MayOwn t) := by
  refine .ask asks_isVoid fun v hv => ?_
  subst hv
  refine .ite (fun hv => ?_) fun hv => ?_
  · refine fun st hst _ _ => ⟨_, (InjectState.After.silent (.refl st.ops) rfl).remarks ?_ ?_, rfl,
      by simp⟩
    · simp [Note.isRemark]
    · simp [Note.Holds, OpState.Recalls, hv]
  · refine .ask .read fun x hx => ?_
    rw [hx.2.1]
    refine (logs_ops (fun b => [.asked t b])
      (fun s => (OpM.adds_needsLifecycle t s).mono fun _ _ _ h => h.1) (by simp [Note.isRemark])
      fun b s hb e he => ?_).mono fun b l h => ⟨h.1, fun hb => ?_⟩
    · rw [List.mem_singleton.1 he]
      simpa [Note.Holds, OpState.Recalls, hv] using hb
    · obtain ⟨-, s, s', hs, hrun⟩ := h
      have hadds : OpM.Upholds (s.Later k.types) _ _ := OpM.adds_needsLifecycle t s
      rw [hrun] at hadds
      exact ⟨Bool.not_eq_true _ ▸ hv, fun h => hadds.2.2 hb (hs.lifeless h)⟩

theorem asks_isOwning : Asks k T d c (isOwning t) fun b => b = true → k.MayOwn t :=
  logs_isOwning.forget fun b l hl => ⟨by rw [hl.1]; simp [Note.isRemark], hl.2⟩

theorem asks_canMove : Asks k T d c (canMove t) fun _ => True := by
  refine .bind .read fun x hx => ?_
  rw [hx.2.1]
  exact asks_ops fun s => (OpM.enduring_later s).canMove t (.refl s)

/-! ## New nodes -/

theorem asks_node {h : Head} : Asks k T d c (node h ks) (Node.Is h ks) :=
  fun st _ _ _ => ⟨[], .silent (.refl st.ops) rfl, rfl, _, rfl⟩

theorem asks_tree {kind : NodeKind} :
    Asks k T d c (tree kind t ks) (Node.Tree kind t ks) := asks_node

theorem asks_emptyAt :
    Asks k T d c (emptyAt span) (Node.Is { kind := .empty, span } []) := asks_node

theorem asks_stmts :
    Asks k T d c (stmts span ks) (Node.Is { kind := .stmtList, span } ks) := asks_node

theorem asks_fastAsgn {dest src : Node} :
    Asks k T d c (fastAsgn dest src) (Node.Tree .fastAsgn 0 [dest, src]) := asks_node

theorem asks_copy : Asks k T d c (copy n) n.CopyOf :=
  fun st _ _ _ => ⟨[], .silent (.refl st.ops) rfl, rfl, st.sites, rfl⟩

theorem asks_symNode (lent : Bool) {x : Symbol} (hx : T (.fresh lent r x)) :
    Asks k T d c (symNode r span) (Node.Refers r x span) := by
  refine .bind asks_symbols ?_
  rintro ss ⟨s, -, hT, rfl⟩
  have hh : s.Has r x := hT _ hx
  refine asks_node.mono fun out ⟨site, hout⟩ => ⟨site, ?_⟩
  rw [hout, hh.2.type, hh.2.span]

theorem asks_names
    (hx : ∀ s : OpState, k.ops.Later k.types s → s.Knows k.types T → ∀ y ∈ x, s.Has r y) :
    Asks k T d c (symNode r span) (Node.Names r x span) := by
  refine .bind asks_symbols ?_
  rintro ss ⟨s, hs, hT, rfl⟩
  refine asks_node.mono fun out ⟨site, hout⟩ => ?_
  cases x with
  | none => exact ⟨s.symbols.get r, by simp, site, hout⟩
  | some y =>
    have hh := hx s hs hT y rfl
    exact ⟨y, by simp, site, by rw [hout, hh.2.type, hh.2.span]⟩

theorem asks_varNode (hx : T (.var i r x)) : Asks k T d c (symNode r span) (Node.Names r x span) :=
  asks_names fun _ _ hT => hT _ hx

theorem asks_symNode_early : Asks k T d c (symNode r span) (Node.Names r (k.entry r) span) :=
  asks_names fun _ hs _ => Ground.has_entry hs

theorem asks_opNode (hr : T (.op r) ∨ ∃ m, T (.magic m r)) :
    Asks k T d c (symNode r span) fun out => ∃ x, k.Operator r x ∧ Node.Refers r x span out := by
  refine .bind asks_symbols ?_
  rintro ss ⟨s, hs, hT, rfl⟩
  have hop : s.IsOperator r := by
    rcases hr with hr | ⟨m, hr⟩
    · exact OpState.IsHook.isOperator (hT _ hr)
    · exact .inr (.inr (.inr ⟨m, hT _ hr⟩))
  rcases hs.operator hop with hop | ⟨hle, -, hm⟩
  · rcases Nat.lt_or_ge r k.size with hlt | hge
    · have hm := hs.symbols.marked hlt
      refine asks_node.mono fun out ⟨site, hout⟩ =>
        ⟨k.ops.symbols.get r, .inl ⟨hop, fun y hy => ?_⟩, site, ?_⟩
      · exact (Ground.of_mem_entry hy).2.symm
      · rw [hout, hm.type, hm.span]
    · exact asks_node.mono fun out hout => ⟨_, .inl ⟨hop, by simp [Ground.entry_none hge]⟩, hout⟩
  · exact asks_node.mono fun out hout => ⟨s.symbols.get r, .inr ⟨hle, hm⟩, hout⟩

theorem asks_withKids {h : Head} {kids : List Node} (hl : ks.length = kids.length) :
    Asks k T d c (withKids (.node h ks) kids) (Node.Is h kids) := by
  refine .lift_bind fun h' hh => ?_
  cases hh
  have hd : (Node.node h ks).kids.drop kids.length = [] := by
    rw [← hl]
    exact List.drop_length
  rw [hd, List.map_nil, List.append_nil]
  exact asks_node

/-! ## New variables -/

theorem logs_newSymbol (lent : Bool) {kind : SymKind} {name : Text} :
    Logs k T d c (newSymbol kind name t span) fun r l =>
      ∃ x, k.Entered kind t span r x ∧ l = [.fresh lent r x] := by
  refine .ask asks_owner fun o ho => ?_
  subst ho
  intro st hst hT hd
  have hg : st.ops.symbols.Grown
      (st.ops.symbols.fresh { name, kind, owner := k.routine.sym, type := t, span }).2 :=
    .fresh _ nofun (show SymFlags.has {} .discriminant = false by decide)
  refine ⟨_, ⟨OpState.Later.of_symbols hg, rfl, ?_, ?_, ?_, ?_, ?_⟩,
    { name, kind, owner := k.routine.sym, type := t, span, id := st.ops.symbols.lastId + 1 },
    ⟨hst.later.symbols.size_le, rfl, rfl, rfl, rfl, rfl⟩, rfl⟩
  · exact fun {i sc} h => ⟨sc, h, rfl⟩
  · intro e he i hi
    rw [List.mem_singleton.1 he] at hi
    cases hi
  · intro e he
    rw [List.mem_singleton.1 he]
    refine ⟨by simp, ?_⟩
    have hx := Symbols.Grown.get_fresh st.ops.symbols
    change Symbol.Marked _ ((st.ops.symbols.fresh _).2.get st.ops.symbols.all.size)
    rw [hx]
    exact .refl _
  · exact List.pairwise_singleton _ _
  · intro r hr
    rw [List.mem_singleton.1 hr]
    exact ⟨Nat.le_refl _, by simp⟩

theorem asks_tempName {base : Text} : Asks k T d c (tempName base) fun _ => True :=
  fun st _ _ _ => ⟨[], .silent (.refl st.ops) rfl, rfl, trivial⟩

/-! ## Scopes -/

theorem leads_scope
    {Q : Scope → InjectState → Prop} (he : E st) (hq : ∀ sc, st.scopes[i]? = some sc → Q sc st) :
    Leads E (scope i c st) Q := by
  rw [scope, leads_bind, leads_get]
  rcases hsc : st.scopes[i]? with _ | sc
  · exact he
  · exact hq sc hsc

theorem asks_scope : Asks k T d c (scope i) fun _ => True :=
  fun st _ _ _ => leads_scope (.refl st.ops) fun _ _ =>
    ⟨[], .silent (.refl st.ops) rfl, rfl, trivial⟩

theorem logs_modifyScope {f : Scope → Scope} (hf : ∀ sc : Scope, sc.Took i l (f sc))
    (hi : ∀ e ∈ l, e.scope? = some i)
    (hl : ∀ s : OpState, k.ops.Later k.types s → s.Knows k.types T → ∀ e ∈ l, e.Holds k.types s) :
    Logs k T d c (modifyScope i f) fun _ l' => l' = l := by
  intro st hst hT hd
  unfold modifyScope
  rw [leads_bind]
  refine leads_scope (.refl st.ops) fun sc hsc => ?_
  have hfresh : Log.fresh l = [] := Log.fresh_eq_nil fun e he => .inr (hi e he)
  refine ⟨l, ⟨.refl _, List.length_modify _ _ _, ?_, ?_, hl _ hst.later hT, ?_, ?_⟩, rfl⟩
  · intro j x hj
    by_cases hij : i = j
    · subst hij
      refine ⟨f x, ?_, hf x⟩
      rw [List.getElem?_modify_eq, hj]
      rfl
    · refine ⟨x, ?_, Scope.took_nothing x fun e he => by simp [hi e he, hij]⟩
      change (st.scopes.modify i f)[j]? = some x
      rw [List.getElem?_modify_ne _ _ hij, hj]
  · intro e he j hj
    rw [hi e he] at hj
    cases hj
    exact (List.getElem?_eq_some_iff.1 hsc).1
  · rw [hfresh]
    exact .nil
  · rw [hfresh]
    simp

theorem logs_markLeftEarly : Logs k T d c (markLeftEarly i) fun _ l => l = [.left i] :=
  logs_modifyScope (fun sc => by simp [Scope.Took, Scope.take]) (by simp [Note.scope?])
    (by simp [Note.Holds])

theorem logs_addVar
    (hx : ∀ s : OpState, k.ops.Later k.types s → s.Knows k.types T → ∀ y ∈ x, s.Has r y) :
    Logs k T d c (modifyScope i fun sc => { sc with vars := sc.vars ++ [r] }) fun _ l =>
      l = [.var i r x] := by
  refine logs_modifyScope (fun sc => by simp [Scope.Took, Scope.take]) (by simp [Note.scope?]) ?_
  intro s hs hT e he
  rw [List.mem_singleton.1 he]
  exact hx s hs hT

theorem logs_addMarker :
    Logs k T d c (modifyScope i fun sc => { sc with resets := sc.resets ++ [n] }) fun _ l =>
      l = [.reset i n] :=
  logs_modifyScope (fun sc => by simp [Scope.Took, Scope.take]) (by simp [Note.scope?])
    (by simp [Note.Holds])

theorem logs_pushFinal :
    Logs k T d c (modifyScope i fun sc => { sc with finals := sc.finals ++ [n] }) fun _ l =>
      l = [.final i n] :=
  logs_modifyScope (fun sc => by simp [Scope.Took, Scope.take]) (by simp [Note.scope?])
    (by simp [Note.Holds])

/-- What is noted when a destroy is scheduled: nothing for an empty node. -/
def due (i : ScopeId) (n : Node) : Log := if n.isKind .empty then [] else [.final i n]

theorem logs_addFinal : Logs k T d c (addFinal i n) fun _ l => l = due i n := by
  unfold addFinal due
  refine .ite (fun h => ?_) fun h => ?_
  · rw [if_pos h]
    exact .pure rfl
  · rw [if_neg h]
    exact logs_pushFinal

theorem logs_newTemp (lent : Bool) : Logs k T d c (newTemp i t span) fun r l =>
      ∃ x, k.Entered .temp t span r x ∧ l = [.fresh lent r x, .var i r (some x)] := by
  refine .ask asks_tempName fun name _ => ?_
  refine .bindKnown (logs_newSymbol lent) ?_
  rintro r l ⟨x, hx, rfl⟩
  refine .bind (logs_addVar (x := some x) fun s _ hT y hy =>
    Option.some.inj hy ▸ hT (.fresh lent r x) (by simp)) ?_
  rintro _ l rfl
  exact .pure ⟨x, hx, rfl⟩

/-- Closing the innermost scope gives what it collected, and leaves the others what they have. One
that can be left early passes this on. -/
theorem leads_closeScope {Q : Scope → InjectState → Prop} (he : ∀ scopes, E { st with scopes })
    (hq : ∀ sc scopes, st.scopes[i]? = some sc → scopes.length = i →
      (∀ p, .left p ∈ Log.passed sc.parent sc.leftEarly → p < i) →
      (∀ j x, j < i → st.scopes[j]? = some x →
        ∃ x', scopes[j]? = some x' ∧ x.Took j (Log.passed sc.parent sc.leftEarly) x') →
      Q sc { st with scopes }) : Leads E (closeScope i c st) Q := by
  unfold closeScope
  rw [leads_bind]
  refine leads_scope (he st.scopes) fun sc hsc => ?_
  refine leads_bind.2 (leads_ite (fun _ => he st.scopes) fun hi => leads_bind.2 ?_)
  replace hi : @Eq Nat (i + 1) st.scopes.length := not_not.1 hi
  let st1 : InjectState := { st with scopes := st.scopes.dropLast }
  have hlen : st1.scopes.length = i := by
    rw [List.length_dropLast]
    omega
  have hget : ∀ (j : Nat) (x : Scope), j < i → st.scopes[j]? = some x → st1.scopes[j]? = some x :=
    fun j x hj hx => by
      rw [List.getElem?_dropLast, if_pos (by omega), hx]
  have hplain : Log.passed sc.parent sc.leftEarly = [] → Q sc st1 := fun hp => by
    refine hq sc _ hsc hlen (by simp [hp]) fun j x hj hx => ⟨x, hget j x hj hx, ?_⟩
    rw [hp]
    rfl
  rcases hpar : sc.parent with _ | p
  · exact hplain (by simp [Log.passed, hpar])
  · refine leads_ite (fun hearly => leads_bind.2 ?_) fun hearly =>
      hplain (by simp [Log.passed, hearly])
    refine leads_bind.2 (leads_scope (he _) fun y hy => ?_)
    have hp : Log.passed sc.parent sc.leftEarly = [.left p] := by simp [Log.passed, hearly, hpar]
    refine hq sc _ hsc ((List.length_modify _ _ _).trans hlen) ?_ fun j x hj hx => ?_
    · rintro q hq
      rw [hp, List.mem_singleton] at hq
      cases hq
      exact hlen ▸ (List.getElem?_eq_some_iff.1 hy).1
    rw [hp]
    have hj' := hget j x hj hx
    by_cases hpj : p = j
    · subst hpj
      refine ⟨{ x with leftEarly := true }, ?_, by simp [Scope.Took, Scope.take]⟩
      rw [List.getElem?_modify_eq, hj']
      rfl
    · refine ⟨x, ?_, by simp [Scope.Took, Scope.take, hpj]⟩
      rw [List.getElem?_modify_ne _ _ hpj, hj']

/-- One more scope is open, below `parent`, and `inner` was noted since. The computation closes it,
and what it gives has `R` with all the notes that stay. -/
def Closing (k : Ground) (T : Note → Prop) (d : Nat) (c : InjectContext) (parent : Option ScopeId)
    (inner : Log) (m : InjectM α) (R : α → Log → Prop) : Prop :=
  ∀ st st1 : InjectState, k.Holds c st → st.ops.Knows k.types T → st.scopes.length = d →
    InjectState.After k.types { st with scopes := st.scopes ++ [({ parent } : Scope)] } inner st1 →
    Leads (fun st' => st.ops.Later k.types st'.ops) (m c st1) fun a st' =>
      ∃ l, st.After k.types l st' ∧ R a l

namespace Closing

variable {parent : Option ScopeId} {inner : Log} {R : β → Log → Prop} {f : α → InjectM β}

theorem start {m : ScopeId → InjectM β} (h : Closing k T d c parent [] (m d) R) :
    Logs k T d c (openScope parent >>= m) R := by
  intro st hst hT hd
  change Leads _ (m st.scopes.length c { st with scopes := st.scopes ++ [({ parent } : Scope)] }) _
  rw [hd]
  exact h st _ hst hT hd (.silent (.refl st.ops) rfl)

theorem mono {m : InjectM β} {Q : β → Log → Prop} (h : Closing k T d c parent inner m Q)
    (hqr : ∀ b l, Q b l → R b l) : Closing k T d c parent inner m R :=
  fun st st1 hst hT hd hl => (h st st1 hst hT hd hl).mono (fun _ h => h) fun b _ ⟨l, hl, hb⟩ =>
    ⟨l, hl, hqr b l hb⟩

theorem bind {P : α → Log → Prop} (hm : Logs k (fun e => T e ∨ e ∈ inner) (d + 1) c m P)
    (hf : ∀ a l, P a l → Closing k T d c parent (inner ++ l) (f a) R) :
    Closing k T d c parent inner (m >>= f) R := by
  intro st st1 hst hT hd hl
  rw [leads_bind]
  have hT1 : st1.ops.Knows k.types fun e => T e ∨ e ∈ inner := by
    rintro e (he | he)
    · exact (hT e he).later hl.ops
    · exact hl.holds e he
  have hd1 : st1.scopes.length = d + 1 := by
    rw [hl.depth, List.length_append, List.length_singleton, hd]
  refine (hm st1 ⟨hst.types, hst.routine, hst.later.trans hl.ops⟩ hT1 hd1).mono
    (fun _ h => OpState.Later.trans hl.ops h) ?_
  rintro a st2 ⟨l, hl2, ha⟩
  exact hf a l ha st st2 hst hT hd (hl.append hl2)

theorem ask {P : α → Prop} (hm : Asks k (fun e => T e ∨ e ∈ inner) (d + 1) c m P)
    (hf : ∀ a, P a → Closing k T d c parent inner (f a) R) :
    Closing k T d c parent inner (m >>= f) R :=
  bind hm fun a l ⟨hl, ha⟩ => by
    subst hl
    rw [List.append_nil]
    exact hf a ha

theorem lift_bind {x : Except Fault α} (h : ∀ a, x = .ok a → Closing k T d c parent inner (f a) R) :
    Closing k T d c parent inner (liftM x >>= f) R :=
  ask (.lift fun _ ha => ha) h

theorem ite [Decidable p] {m n : InjectM β} (hm : p → Closing k T d c parent inner m R)
    (hn : ¬ p → Closing k T d c parent inner n R) :
    Closing k T d c parent inner (if p then m else n) R := by
  split_ifs with hp
  · exact hm hp
  · exact hn hp

theorem followed {P : α → Log → Prop} (hm : Closing k T d c parent inner m P)
    (hf : ∀ a l, P a l → Logs k T d c (f a) fun b l' => R b (l ++ l')) :
    Closing k T d c parent inner (m >>= f) R := by
  intro st st1 hst hT hd hl
  rw [leads_bind]
  refine (hm st st1 hst hT hd hl).mono (fun _ h => h) ?_
  rintro a st2 ⟨l, hl2, ha⟩
  have hT2 : st2.ops.Knows k.types T := fun e he => (hT e he).later hl2.ops
  have hst2 : k.Holds c st2 := hst.after hl2
  refine (hf a l ha st2 hst2 hT2 (hl2.depth.trans hd)).mono (fun _ h => hl2.ops.trans h) ?_
  rintro b st3 ⟨l', hl', hb⟩
  exact ⟨l ++ l', hl2.append hl', hb⟩

theorem scope {f : Scope → InjectM β}
    (hf : ∀ sc : Scope, sc.parent = parent → Closing k T d c parent inner (f sc) R) :
    Closing k T d c parent inner (InjectM.scope d >>= f) R := by
  intro st st1 hst hT hd hl
  rw [leads_bind]
  refine leads_scope hl.ops fun sc hsc => ?_
  have hnew : (st.scopes ++ [({ parent } : Scope)])[d]? = some { parent } := by
    rw [← hd]
    simp
  obtain ⟨sc', hsc', ht⟩ := hl.scope hnew
  obtain rfl : sc' = sc := Option.some.inj (hsc'.symm.trans hsc)
  exact hf sc' (by rw [ht.eq]) st st1 hst hT hd hl

/-- The closed scope has collected what was noted for it, and the other notes stay. -/
theorem close {f : Scope → InjectM β}
    (hf : ∀ sc : Scope, sc.vars = (inner.vars d).map Prod.fst → sc.resets = inner.resets d →
      sc.finals = inner.finals d → Logs k (fun e => T e ∨ e ∈ inner) d c (f sc)
        fun b l => R b (inner.closed parent d ++ l)) :
    Closing k T d c parent inner (closeScope d >>= f) R := by
  intro st st1 hst hT hd hl
  rw [leads_bind]
  refine leads_closeScope (fun _ => hl.ops) fun sc scopes hsc hlen hpassed hout => ?_
  have hnew : (st.scopes ++ [({ parent } : Scope)])[d]? = some { parent } := by
    rw [← hd]
    simp
  obtain ⟨sc', hsc', ht⟩ := hl.scope hnew
  obtain rfl : sc' = sc := Option.some.inj (hsc'.symm.trans hsc)
  have hlater : st.ops.Later k.types st1.ops := hl.ops
  have hT2 : st1.ops.Knows k.types fun e => T e ∨ e ∈ inner := by
    rintro e (he | he)
    · exact (hT e he).later hl.ops
    · exact hl.holds e he
  refine (hf sc' (by simp [ht.eq]) (by simp [ht.eq]) (by simp [ht.eq]) { st1 with scopes }
    ⟨hst.types, hst.routine, hst.later.trans hlater⟩ hT2 hlen).mono
      (fun _ h => hlater.trans h) ?_
  rintro b st3 ⟨l', hl', hb⟩
  have hearly : sc'.leftEarly = inner.left d := by simp [ht.eq]
  have hparent : sc'.parent = parent := by rw [ht.eq]
  rw [hparent, hearly] at hpassed hout
  have hclosed : st.After k.types (inner.closed parent d) { st1 with scopes } := by
    refine ⟨hlater, hlen.trans hd.symm, ?_, ?_, ?_, ?_, ?_⟩
    · intro j x hj
      have hjd : j < d := hd ▸ (List.getElem?_eq_some_iff.1 hj).1
      have hj1 : (st.scopes ++ [({ parent } : Scope)])[j]? = some x := by
        rw [List.getElem?_append_left (hd.symm ▸ hjd), hj]
      obtain ⟨x1, hx1, ht1⟩ := hl.scope hj1
      obtain ⟨x2, hx2, ht2⟩ := hout j x1 hjd hx1
      exact ⟨x2, hx2, (ht1.outside (Nat.ne_of_gt hjd)).append ht2⟩
    · intro e he j hj
      rcases List.mem_append.1 he with he | he
      swap
      · obtain ⟨p, rfl, -⟩ := Log.mem_passed he
        cases hj
        exact hd.symm ▸ hpassed _ he
      obtain ⟨he, hne⟩ := List.mem_filter.1 he
      have hlt := hl.within e he j hj
      rw [List.length_append, List.length_singleton] at hlt
      have hjd : j ≠ st.scopes.length := by
        rintro rfl
        simp [hj, hd] at hne
      exact Nat.lt_of_le_of_ne (Nat.le_of_lt_succ hlt) hjd
    · intro e he
      rcases List.mem_append.1 he with he | he
      · exact hl.holds e (List.mem_filter.1 he).1
      · obtain ⟨p, rfl, -⟩ := Log.mem_passed he
        trivial
    · rw [Log.fresh_closed]
      exact hl.fresh
    · rw [Log.fresh_closed]
      exact hl.new
  exact ⟨inner.closed parent d ++ l', hclosed.append hl', hb⟩

end Closing

end InjectM

end Lifecycle
