import Mathlib.Algebra.Ring.Nat
import Lifecycle.Proofs.Injection.Emitted

/-!
# Counting nodes

A tally counts the nodes of one kind, by what their first child names: the declarations of a
variable, or the calls of a routine. Working through a tree keeps the number even (`Even`): what is
left in place and what was noted for a scope to declare make up for what was there and for the new
variables.
-/

namespace Lifecycle

/-- Nodes of a kind, told by the kind and the symbol of their first child. -/
structure Tally where
  kind : NodeKind
  hits : NodeKind → Option SymRef → Bool
  either : kind = .identDefs ∨ kind = .call
  named : kind = .call → ∀ {first sym}, hits first sym = true → first = .sym

namespace Tally

def own (t : Tally) (ks : List Node) : Nat :=
  if (ks.head?.bind Node.head?).any (fun h => t.hits h.kind h.sym) = true then 1 else 0

mutual

def of (t : Tally) : Node → Nat
  | .hole => 0
  | .node h ks => (if h.kind = t.kind then t.own ks else 0) + t.all ks

def all (t : Tally) : List Node → Nat
  | [] => 0
  | k :: ks => t.of k + t.all ks

end

def declares (t : Tally) (r : SymRef) : Nat :=
  if t.kind = .identDefs ∧ t.hits .sym (some r) = true then 1 else 0

variable {t : Tally} {h : Head} {n n' : Node} {ks js : List Node} {span : Span}

@[simp] theorem all_nil : t.all [] = 0 := rfl

@[simp] theorem all_cons : t.all (n :: ks) = t.of n + t.all ks := rfl

@[simp] theorem all_append : t.all (ks ++ js) = t.all ks + t.all js := by
  induction ks with
  | nil => simp
  | cons k ks ih => simp [ih, Nat.add_assoc]

theorem all_eq_zero_iff : t.all ks = 0 ↔ ∀ k ∈ ks, t.of k = 0 := by
  induction ks with
  | nil => simp
  | cons k ks ih => simp [ih]

theorem of_kid (hz : t.of (.node h ks) = 0) (hk : k ∈ ks) : t.of k = 0 := by
  rw [of] at hz
  exact all_eq_zero_iff.1 (by omega) k hk

theorem ne_kind {kind : NodeKind} (h : kind ≠ .identDefs ∧ kind ≠ .call) : kind ≠ t.kind := by
  rintro rfl
  exact t.either.elim h.1 h.2

theorem of_node (hk : h.kind ≠ .identDefs ∧ h.kind ≠ .call) : t.of (.node h ks) = t.all ks := by
  rw [of, if_neg (ne_kind hk), Nat.zero_add]

theorem of_is (hn : Node.Is h ks n) (hk : h.kind ≠ .identDefs ∧ h.kind ≠ .call) :
    t.of n = t.all ks := by
  obtain ⟨site, rfl⟩ := hn
  exact of_node hk

theorem of_tree {kind : NodeKind} (hn : Node.Tree kind type ks n)
    (hk : kind ≠ .identDefs ∧ kind ≠ .call) : t.of n = t.all ks :=
  of_is hn hk

theorem of_definition (hk : h.kind = .identDefs) (hv : vh.kind = .sym) (hq : vh.sym = some q)
    (hz : t.of (.node vh vs) = 0) :
    t.of (.node h [.node vh vs, init]) = t.declares q + t.of init := by
  rw [of, all_cons, all_cons, hz, hk]
  by_cases hd : NodeKind.identDefs = t.kind
  · simp [own, declares, Node.head?, hv, hq, hd]
  · simp [declares, hd, Ne.symm hd]

theorem of_refers (hn : Node.Refers r x span n) : t.of n = 0 :=
  (of_is hn (by simp)).trans rfl

theorem of_names (hn : Node.Names r x span n) : t.of n = 0 := by
  obtain ⟨y, -, hn⟩ := hn
  exact of_refers hn

theorem of_empty (hn : n.WellFormed ss) (he : n.isKind .empty = true) : t.of n = 0 := by
  cases n with
  | hole => rfl
  | node h ks =>
    have hk : h.kind = .empty := by simpa using he
    have hl := hn.node.1
    simp only [Node.layoutFaults, hk, Except.ok.injEq] at hl
    rw [List.eq_nil_of_length_eq_zero (Node.length_of_wantKids hl), of_node (by simp [hk])]
    rfl

mutual

theorem of_relabel : ∀ (n : Node) (next : Nat), t.of (n.relabel next).1 = t.of n
  | .hole, _ => rfl
  | .node h ks, next => by
    have hown : t.own (Node.relabelAll ks (next + 1)).1 = t.own ks := by
      cases ks with
      | nil => rfl
      | cons k ks => cases k <;> rfl
    rw [Node.relabel]
    simp only [of, hown, all_relabel ks (next + 1)]

theorem all_relabel : ∀ (ks : List Node) (next : Nat), t.all (Node.relabelAll ks next).1 = t.all ks
  | [], _ => rfl
  | k :: ks, next => by
    rw [Node.relabelAll, all_cons, all_cons, of_relabel k next, all_relabel ks _]

end

theorem of_copy (hc : n.CopyOf n') : t.of n' = t.of n := by
  obtain ⟨next, rfl⟩ := hc
  exact of_relabel n next

theorem all_copies (h : List.Forall₂ Node.CopyOf ks js) : t.all js = t.all ks := by
  induction h with
  | nil => rfl
  | cons hc _ ih => rw [all_cons, all_cons, of_copy hc, ih]

theorem of_skipConv : ∀ {n m : Node}, n.skipConv = .ok m → t.of n = 0 → t.of m = 0
  | .hole, m, hm, hz => by
    cases hm
    exact hz
  | .node h [], m, hm, hz => by
    rw [Node.skipConv] at hm
    split_ifs at hm
    cases hm
    exact hz
  | .node h (a :: ks), m, hm, hz => by
    rw [Node.skipConv] at hm
    split_ifs at hm
    · exact of_skipConv hm (of_kid hz (by simp))
    · cases hm
      exact hz

/-! ## Notes -/

def opens (t : Tally) : Note → Nat
  | .var _ r _ => t.declares r
  | _ => 0

def makes (t : Tally) : Note → Nat
  | .fresh _ r _ => t.declares r
  | _ => 0

def Plain (t : Tally) : Note → Prop
  | .reset _ n | .final _ n => t.of n = 0
  | _ => True

def opened (t : Tally) (l : Log) : Nat := (l.map t.opens).sum

def made (t : Tally) (l : Log) : Nat := (l.map t.makes).sum

def vars (t : Tally) (vs : List (SymRef × Option Symbol)) : Nat :=
  (vs.map fun v => t.declares v.1).sum

variable {e : Note} {l l' : Log} {i : ScopeId} {inner : Log}

@[simp] theorem opened_nil : t.opened [] = 0 := rfl

@[simp] theorem made_nil : t.made [] = 0 := rfl

@[simp] theorem vars_nil : t.vars [] = 0 := rfl

@[simp] theorem vars_cons : t.vars (v :: vs) = t.declares v.1 + t.vars vs := by simp [vars]

@[simp] theorem opened_cons : t.opened (e :: l) = t.opens e + t.opened l := by simp [opened]

@[simp] theorem made_cons : t.made (e :: l) = t.makes e + t.made l := by simp [made]

@[simp] theorem opened_append : t.opened (l ++ l') = t.opened l + t.opened l' := by simp [opened]

@[simp] theorem made_append : t.made (l ++ l') = t.made l + t.made l' := by simp [made]

theorem opened_outside : t.opened l = t.vars (l.vars i) + t.opened (l.outside i) := by
  induction l with
  | nil => rfl
  | cons e l ih =>
    have hout : Log.outside i (e :: l) =
        if e.scope? ≠ some i then e :: Log.outside i l else Log.outside i l := by
      simp [Log.outside, List.filter_cons]
    rw [opened_cons, ih, hout]
    cases e with
    | var j q x =>
      by_cases hj : j = i
      · subst hj
        have hv : Log.vars j (.var j q x :: l) = (q, x) :: Log.vars j l := by simp [Log.vars]
        simp [hv, Note.scope?, opens, Nat.add_assoc]
      · have hv : Log.vars i (.var j q x :: l) = Log.vars i l := by simp [Log.vars, hj]
        simp [hv, Note.scope?, hj]
        omega
    | fresh _ _ _ | op _ | magic _ | asked _ _ => simp [Log.vars, Note.scope?, opens]
    | reset j n | final j n | left j =>
      by_cases hj : j = i <;> simp [Log.vars, Note.scope?, opens, hj]

theorem made_outside : t.made (l.outside i) = t.made l := by
  induction l with
  | nil => rfl
  | cons e l ih =>
    by_cases hi : e.scope? = some i
    · have hz : t.makes e = 0 := by cases e <;> first | rfl | cases hi
      simpa [Log.outside, List.filter_cons, hi, hz] using ih
    · simpa [Log.outside, List.filter_cons, hi] using ih

theorem passed (parent : Option ScopeId) (early : Bool) : t.opened (Log.passed parent early) = 0 ∧
    t.made (Log.passed parent early) = 0 ∧ ∀ e ∈ Log.passed parent early, t.Plain e := by
  unfold Log.passed
  split_ifs
  · cases parent <;> simp [opens, makes, Plain]
  · simp

@[simp] theorem opened_due : t.opened (InjectM.due i n) = 0 := by
  unfold InjectM.due
  split_ifs <;> simp [opens]

@[simp] theorem made_due : t.made (InjectM.due i n) = 0 := by
  unfold InjectM.due
  split_ifs <;> simp [makes]

/-- What is left in place and what was noted make up for what was there and for the new
variables. -/
structure Even (t : Tally) (a b : List Node) (l : Log) : Prop where
  count : t.all b + t.opened l = t.all a + t.made l
  plain : ∀ e ∈ l, t.Plain e

namespace Even

variable {a a' a1 a2 b b' b1 b2 : List Node} {l1 l2 : Log} {out : Node}

theorem refl (a : List Node) : t.Even a a [] := ⟨rfl, by simp⟩

theorem reshape (he : t.Even a b l) (ha : t.all a' = t.all a) (hb : t.all b' = t.all b) :
    t.Even a' b' l :=
  ⟨by rw [ha, hb, he.count], he.plain⟩

theorem append (h1 : t.Even a1 b1 l1) (h2 : t.Even a2 b2 l2) :
    t.Even (a1 ++ a2) (b1 ++ b2) (l1 ++ l2) := by
  refine ⟨?_, List.forall_mem_append.2 ⟨h1.plain, h2.plain⟩⟩
  have := h1.count
  have := h2.count
  simp only [all_append, opened_append, made_append]
  omega

theorem trans (h1 : t.Even a b l1) (h2 : t.Even b b' l2) : t.Even a b' (l1 ++ l2) := by
  refine ⟨?_, List.forall_mem_append.2 ⟨h1.plain, h2.plain⟩⟩
  have := h1.count
  have := h2.count
  simp only [opened_append, made_append]
  omega

theorem of_eq (he : t.Even [] [] l) (hab : t.all b = t.all a) : t.Even a b l := by
  refine ⟨?_, he.plain⟩
  have := he.count
  rw [hab]
  simp only [all_nil] at this
  omega

theorem of_zero (he : t.Even a b l) (ha : t.all a = 0) (hb : t.all b = 0) : t.Even [] [] l :=
  ⟨by simpa [ha, hb] using he.count, he.plain⟩

theorem before (h1 : t.Even [] [] l1) (h2 : t.Even a b l2) : t.Even a b (l1 ++ l2) := h1.append h2

theorem after (h1 : t.Even a b l1) (h2 : t.Even [] [] l2) : t.Even a b (l1 ++ l2) :=
  (h1.append h2).reshape (by simp) (by simp)

theorem asked {type : TypeId} {o : Bool} (he : t.Even a b l) : t.Even a b (.asked type o :: l) :=
  ⟨by simpa [opens, makes] using he.count, List.forall_mem_cons.2 ⟨trivial, he.plain⟩⟩

theorem left (he : t.Even a b l) : t.Even a b (.left i :: l) :=
  ⟨by simpa [opens, makes] using he.count, List.forall_mem_cons.2 ⟨trivial, he.plain⟩⟩

theorem entered (he : t.Even a b l) : t.Even a b (.fresh lent q x :: .var i q (some x) :: l) := by
  refine ⟨?_, List.forall_mem_cons.2 ⟨trivial, List.forall_mem_cons.2 ⟨trivial, he.plain⟩⟩⟩
  have := he.count
  simp only [opened_cons, made_cons, opens, makes]
  omega

theorem noted (he : t.Even a b (l1 ++ l2))
    (ha : t.all a' = t.declares q + t.all a) : t.Even a' b (l1 ++ .var i q x :: l2) := by
  refine ⟨?_, ?_⟩
  · have := he.count
    simp only [opened_append, made_append, opened_cons, made_cons, opens, makes, ha] at this ⊢
    omega
  · obtain ⟨h1, h2⟩ := List.forall_mem_append.1 he.plain
    exact List.forall_mem_append.2 ⟨h1, List.forall_mem_cons.2 ⟨trivial, h2⟩⟩

theorem build (he : t.Even ks js l) (hk : h.kind = t.kind → t.own js = t.own ks)
    (ho : Node.Is h js out) : t.Even [.node h ks] [out] l := by
  obtain ⟨site, rfl⟩ := ho
  refine ⟨?_, he.plain⟩
  have := he.count
  simp only [all_cons, all_nil, of]
  split_ifs with hkind
  · rw [hk hkind]
    omega
  · omega

theorem kids (he : t.Even ks js l) (hk : h.kind ≠ .identDefs ∧ h.kind ≠ .call)
    (ho : Node.Is h js out) : t.Even [.node h ks] [out] l :=
  he.build (fun h' => absurd h' (ne_kind hk)) ho

theorem wrap (he : t.Even a b l) (ho : Node.Is h b out)
    (hk : h.kind ≠ .identDefs ∧ h.kind ≠ .call) : t.Even a [out] l :=
  he.reshape rfl (by simp [of_is ho hk])

theorem due (hn : t.of n = 0) : t.Even [] [] (InjectM.due i n) := by
  refine ⟨by simp, ?_⟩
  unfold InjectM.due
  split_ifs
  · simp
  · simpa [Plain] using hn

theorem each (he : InjectM.Each P xs ys l)
    (hp : ∀ x ∈ xs, ∀ y l, P x y l → t.Even [x] [y] l) : t.Even xs ys l := by
  induction he with
  | nil => exact refl []
  | cons hx _ ih => exact (hp _ (by simp) _ _ hx).append (ih fun z hz => hp z (by simp [hz]))

theorem eachAll (he : InjectM.Each P xs ys l) (hp : ∀ x ∈ xs, ∀ y l, P x y l → t.Even [x] y l) :
    t.Even xs ys.flatten l := by
  induction he with
  | nil => exact refl []
  | cons hx _ ih => exact (hp _ (by simp) _ _ hx).append (ih fun z hz => hp z (by simp [hz]))

/-! ## Around a region -/

end Even

theorem all_opening (h : Node.Opening vs span decls) : t.all decls = t.vars vs := by
  cases h with
  | none hv => simp [hv]
  | some hd hn =>
    rename_i ds n
    rw [all_cons, all_nil, Nat.add_zero, of_is hn (by simp)]
    clear hn
    induction hd with
    | nil => rfl
    | cons hone _ ih =>
      obtain ⟨a, e, ha, he, hd⟩ := hone
      have hz := of_names (t := t) ha
      have hempty : t.of e = 0 := by simp [of_is he]
      obtain ⟨y, -, sa, rfl⟩ := ha
      obtain ⟨sd, rfl⟩ := hd
      rw [all_cons, ih, of_definition rfl rfl rfl hz, hempty, vars_cons, Nat.add_zero]

theorem of_cleanup
    (h : Node.Cleanup (inner.resets i) (inner.finals i) span fin) (hp : ∀ e ∈ inner, t.Plain e) :
    t.of fin = 0 := by
  rw [of_is h (by simp), all_eq_zero_iff]
  intro n hn
  rcases List.mem_append.1 hn with hn | hn
  · exact hp _ (Log.mem_resets.1 hn)
  · exact hp _ (Log.mem_finals.1 (List.mem_reverse.1 hn))

theorem of_guarded {body fin : Node}
    (h : Node.Guarded body fin type out) (hf : t.of fin = 0) : t.of out = t.of body := by
  obtain ⟨f, hff, ho⟩ := h
  simp [of_is ho, of_tree hff, hf]

theorem all_trailingValue {type : TypeId}
    (h : Node.TrailingValue (inner.resets i) (inner.finals i) span type stored result rest)
    (hp : ∀ e ∈ inner, t.Plain e) : t.all rest = t.of stored + t.of result := by
  cases h with
  | idle => simp
  | after hf => simp [of_cleanup hf hp]
  | guarded hf hb ho => simp [of_guarded ho (of_cleanup hf hp), of_tree hb]

theorem Even.region (he : t.Even a b inner) (hb : t.all b' = t.all b + t.vars (inner.vars i)) :
    t.Even a b' (inner.closed parent i) := by
  obtain ⟨hopened, hmade, hplain⟩ := passed parent (inner.left i)
  refine ⟨?_, List.forall_mem_append.2 ⟨fun e h => he.plain e (List.mem_filter.1 h).1, hplain⟩⟩
  have := he.count
  have := opened_outside (t := t) (l := inner) (i := i)
  rw [hb, Log.closed, opened_append, made_append, hopened, hmade, made_outside]
  omega

theorem Even.close (he : t.Even a [ret] inner) (h : Node.Closes i ret inner out) :
    t.Even a [out] (inner.closed parent i) := by
  refine he.region ?_
  rw [all_cons, all_cons, all_nil, Nat.add_zero, Nat.add_zero]
  cases h with
  | bare hv => simp [hv]
  | around hd ht ho =>
    rw [of_is ho (by simp), all_append, all_opening hd]
    cases ht with
    | idle => simp [Nat.add_comm]
    | after hf => simp [of_cleanup hf he.plain, Nat.add_comm]
    | guarded hf hg => simp [of_guarded hg (of_cleanup hf he.plain), Nat.add_comm]

end Tally

/-! ## What has to be known of trees -/

/-- What becomes of the value of a node: it is looked at, given away, or stored. -/
inductive Fate where
  | read
  | given
  | stored
deriving DecidableEq

def Mode.fate (m : Mode) : Fate := if m = .sinkArg then .given else .read

def Use.fate : Use → Fate
  | .value m => m.fate
  | .store _ _ => .stored

def Param.mode (ps : List Param) : Mode := if ps.head?.any (·.sink) then .sinkArg else .normal

theorem Param.mode_cons (p : Param) (ps : List Param) :
    Param.mode (p :: ps) = if p.sink then .sinkArg else .normal := by
  cases h : p.sink <;> simp [Param.mode, h]

/-- A child of a node, and what becomes of their values. -/
inductive Node.Part : Fate → Node → Fate → Node → Prop
  | dest {f : Fate} {h : Head} {dest src : Node} (hk : h.kind = .asgn ∨ h.kind = .fastAsgn) :
      Part f (.node h [dest, src]) .read dest
  | source {f : Fate} {h : Head} {dest src : Node} (hk : h.kind = .asgn ∨ h.kind = .fastAsgn) :
      Part f (.node h [dest, src]) .stored src
  | stored {f : Fate} {h : Head} {ks : List Node} {a : Node}
      (hk : h.kind = .identDefs ∨ h.kind = .returnStmt ∨ h.kind = .tryStmt) (ha : a ∈ ks) :
      Part f (.node h ks) .stored a
  | given {f : Fate} {h : Head} {ks : List Node} {a : Node}
      (hk : h.kind.isConstructor = true ∨ h.kind = .fieldInit) (ha : a ∈ ks) :
      Part f (.node h ks) .given a
  | callee {f : Fate} {h : Head} {callee : Node} {args : List Node} (hk : h.kind = .call) :
      Part f (.node h (callee :: args)) .read callee
  | operand {f : Fate} {h : Head} {ks : List Node} {a : Node}
      (hk : h.kind = .conv ∨ h.kind = .upConv ∨ h.kind = .downConv ∨ h.kind = .cast) (ha : a ∈ ks) :
      Part f (.node h ks) (if f = .read then .read else .given) a
  | before {f : Fate} {h : Head} {before : List Node} {a last : Node}
      (hk : h.kind = .stmtList ∨ h.kind = .stmtListExpr) (ha : a ∈ before) :
      Part f (.node h (before ++ [last])) .read a
  | last {f : Fate} {h : Head} {before : List Node} {last : Node}
      (hk : h.kind = .stmtList ∨ h.kind = .stmtListExpr) :
      Part f (.node h (before ++ [last])) f last
  | label {f : Fate} {h : Head} (before : List Node) {a last : Node} (hk : h.kind = .elifBranch)
      (ha : a ∈ before) : Part f (.node h (before ++ [last])) .read a
  | arm {f : Fate} {h : Head} (before : List Node) {last : Node}
      (hk : h.kind = .block ∨ h.kind = .elifBranch ∨ h.kind = .elseBranch ∨ h.kind = .ofBranch ∨
        h.kind = .exceptBranch) : Part f (.node h (before ++ [last])) .stored last
  | other {f : Fate} {h : Head} {ks : List Node} {a : Node}
      (hk : h.kind = .varSection ∨ h.kind = .ifStmt ∨ h.kind = .caseStmt ∨ h.kind = .whileStmt ∨
        h.kind = .finallyBranch ∨ h.kind = .discardStmt ∨ h.kind = .raiseStmt ∨ h.kind = .dot ∨
        h.kind = .index ∨ h.kind = .deref ∨ h.kind = .addr) (ha : a ∈ ks) :
      Part f (.node h ks) .read a

theorem Node.Part.mem_kids (h : Node.Part f n g a) : a ∈ n.kids := by
  cases h <;> simp_all [Node.kids]

def Node.Arguments (fit : Fate → Node → Prop) : List Param → List Node → Prop
  | _, [] => True
  | ps, a :: as => fit (Param.mode ps).fate a ∧ Arguments fit ps.tail as

theorem Node.arguments_of_forall : ∀ {ps : List Param} {args : List Node},
    (∀ f, ∀ a ∈ args, fit f a) → Node.Arguments fit ps args
  | _, [], _ => trivial
  | _, _ :: _, h => ⟨h _ _ (by simp), arguments_of_forall fun f a ha => h f a (by simp [ha])⟩

/-- A tally with what has to be known of trees for it to stay even. Trees that are `fit` can be
worked through, and what is `steady` counts nothing, neither before nor after. -/
structure Ground.Census (k : Ground) extends Tally where
  fit : Fate → Node → Prop
  steady : Mode → Node → Prop
  wellFormed : ∀ {f n}, fit f n → n.WellFormed k.ops.symbols
  read : ∀ {f n}, fit f n → fit .read n
  given : ∀ {n}, fit .stored n → fit .given n
  part : ∀ {f g n a}, Node.Part f n g a → fit f n → fit g a
  arguments : ∀ {f h callee args ps}, fit f (.node h (callee :: args)) → h.kind = .call →
    k.HasParams callee.type ps → Node.Arguments fit ps args
  refers : ∀ {r x span n}, Node.Refers r x span n → (∀ f, fit f n) ∧ steady .normal n
  default : ∀ {f t span n l}, k.CallsMagic .default t span [] n l → fit f n
  name : ∀ {f n}, fit f n → n.isKind .sym = true → toTally.of n = 0
  moved : ∀ {n}, fit .given n → k.Movable n → k.MayOwn n.type → toTally.of n = 0
  taken : ∀ {n}, fit .stored n → k.Movable n → toTally.of n = 0
  same : ∀ {n dest : Node}, fit .stored n → dest.sameLocation n = .ok true → toTally.of n = 0
  dest : ∀ {f h} {dest src : Node}, fit f (.node h [dest, src]) →
    h.kind = .asgn ∨ h.kind = .fastAsgn →
    k.MayOwn dest.type ∨ dest.isDiscriminantField k.ops.symbols = .ok true → steady .normal dest
  target : ∀ {f h callee a args ps}, fit f (.node h (callee :: a :: args)) → h.kind = .call →
    k.Allocates callee → k.HasParams callee.type ps → steady (Param.mode ps) a
  zero : ∀ {n m}, fit .read n → steady m n → toTally.of n = 0
  operator : ∀ {r x}, k.Operator r x → kind = .call → hits .sym (some r) = false
  kept : ∀ {j d n s m out l}, (k.ruled j).eval d n s m out l → fit .read n → steady m n →
    toTally.Even [n] [out] l → toTally.of out = 0

namespace Ground.Census

variable {k : Ground} {C : k.Census} {l : Log} {args : List Node}

theorem of_stored (hn : C.fit .stored n) (f : Fate) : C.fit f n := by
  cases f with
  | read => exact C.read hn
  | given => exact C.given hn
  | stored => exact hn

/-! ## Lifecycle operations -/

theorem of_calls (h : k.Calls q t span args out) : C.of out = C.all args := by
  obtain ⟨x, f, hx, hf, site, rfl⟩ := h
  have hz := Tally.of_refers (t := C.toTally) hf
  obtain ⟨sf, rfl⟩ := hf
  rw [Tally.of, Tally.all_cons, hz, Nat.zero_add]
  split_ifs with hk
  · have := C.operator hx hk.symm
    simp [Tally.own, Node.head?, this]
  · simp

theorem even_callsMagic
    (h : k.CallsMagic m t span args out l) : C.Even [] [] l ∧ C.of out = C.all args := by
  obtain ⟨q, hc, rfl⟩ := h
  exact ⟨⟨by simp [Tally.opens, Tally.makes], by simp [Tally.Plain]⟩, of_calls hc⟩

theorem even_resets (h : k.Resets n out l) (hn : C.of n = 0) : C.Even [] [] l ∧ C.of out = 0 := by
  obtain ⟨place, cp, hplace, hcp, hc⟩ := h
  obtain ⟨he, ho⟩ := even_callsMagic (C := C) hc
  exact ⟨he, by simp [ho, Tally.of_copy hcp, Tally.of_skipConv hplace hn]⟩

theorem even_operates {dest : Node} (h : k.Operates dest args out l) (hd : C.of dest = 0) :
    C.Even [] [] l ∧ C.of out = C.all args := by
  obtain ⟨cp, q, hcp, hc, rfl⟩ := h
  exact ⟨⟨by simp [Tally.opens, Tally.makes], by simp [Tally.Plain]⟩,
    by simp [of_calls hc, Tally.of_copy hcp, hd]⟩

theorem even_destroys {dest out : Node} (h : k.Destroys dest out l) (hd : C.of dest = 0) :
    C.Even [] [] l ∧ C.of out = 0 := by
  rcases h with h | ⟨ho, rfl⟩
  · exact even_operates h hd
  · exact ⟨.refl [], by simp [Tally.of_is ho]⟩

theorem even_sinks {dest ri out : Node} (h : k.Sinks dest ri out l)
    (hd : C.of dest = 0) : C.Even [] [] l ∧ C.of out = C.of ri := by
  cases h with
  | plain ho => exact ⟨.refl [], by simp [Tally.of_tree ho, hd]⟩
  | own ho => exact (even_operates ho hd).imp_right fun he => by simp [he]
  | replaced hold hs ho =>
    obtain ⟨he, hb⟩ := even_destroys hold hd
    exact ⟨he, by simp [Tally.of_is ho, Tally.of_tree hs, hd, hb]⟩

theorem even_copies {dest src out : Node} (h : k.Copies dest src out l)
    (hd : C.of dest = 0) : C.Even [] [] l ∧ C.of out = C.of src := by
  rcases h with h | ⟨ho, rfl⟩
  · exact (even_operates h hd).imp_right fun he => by simp [he]
  · exact ⟨.refl [], by simp [Tally.of_tree ho, hd]⟩

theorem even_sinksAndResets {dest ri out : Node}
    (h : k.SinksAndResets dest ri out l) (hd : C.of dest = 0) (hr : C.of ri = 0) :
    C.Even [ri] [out] l := by
  obtain ⟨moved, l1, marker, l2, hm, hc, ho, rfl⟩ := h
  obtain ⟨he1, hm⟩ := even_sinks hm hd
  obtain ⟨he2, hc⟩ := even_resets hc hr
  exact (he1.after he2).of_eq (by simp [Tally.of_is ho, hm, hc])

theorem even_keeps (h : k.Keeps arg s out l) : C.Even [arg] [out] l := by
  cases h with
  | asIs => exact (Tally.Even.refl [arg]).asked
  | bound hx ht hs ho hd =>
    have htmp := Tally.of_refers (t := C.toTally) ht
    obtain ⟨he1, hstored⟩ := even_sinks hs htmp
    obtain ⟨he2, hdestroyed⟩ := even_destroys hd htmp
    refine ((he1.before (he2.before (.due hdestroyed))).of_eq ?_).entered.asked
    simp [Tally.of_is ho, hstored, htmp]

theorem even_movesOut {n out : Node} (h : k.MovesOut n out l)
    (hn : k.MayOwn n.type → C.of n = 0) : C.Even [n] [out] l := by
  cases h with
  | asIs => exact (Tally.Even.refl [n]).asked
  | @moved r x a defs sec cleared b out l hown hx ha hd hs hc hb ho =>
    have hz := hn hown
    obtain ⟨he, hcleared⟩ := even_resets hc hz
    have hdefs : C.of defs = C.declares r := by
      have hname := Tally.of_refers (t := C.toTally) ha
      obtain ⟨sa, rfl⟩ := ha
      obtain ⟨sd, rfl⟩ := hd
      rw [Tally.of_definition rfl rfl rfl hname, hz, Nat.add_zero]
    refine Tally.Even.asked ⟨?_, List.forall_mem_cons.2 ⟨trivial, he.plain⟩⟩
    have := he.count
    simp only [Tally.all_nil] at this
    simp [Tally.of_is ho, Tally.of_tree hs, hdefs, hcleared, Tally.of_refers hb, hz, Tally.opens,
      Tally.makes]
    omega

theorem even_marks (h : k.Marks i n l) (hn : C.of n = 0) : C.Even [] [] l := by
  rcases h with rfl | ⟨marker, l1, hm, rfl⟩
  · exact .refl []
  · obtain ⟨he, hb⟩ := even_resets hm hn
    exact he.after ⟨by simp [Tally.opens, Tally.makes], by simpa [Tally.Plain] using hb⟩

end Ground.Census

end Lifecycle
