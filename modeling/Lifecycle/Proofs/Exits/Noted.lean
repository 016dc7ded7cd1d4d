import Lifecycle.Proofs.Exits.Tree
import Lifecycle.Proofs.Injection.Statements

/-!
# Exits are noted

Where a tree has an exit, the rules note for the scope that it can be left early. A scope that is
closed hands the note on to the scope around (`noted_ruled`).
-/

namespace Lifecycle

open Node

/-- A well-formed tree whose indices are names or numbers. -/
structure Outset.Accepts (o : Outset) (n : Node) : Prop where
  wellFormed : n.WellFormed o.ops.symbols
  indexed : n.PlainlyIndexed

theorem Outset.Accepts.kids {o : Outset} {h : Head} {ks : List Node} (hn : o.Accepts (.node h ks)) :
    ∀ k ∈ ks, o.Accepts k :=
  fun k hk => ⟨hn.wellFormed.kids k hk, hn.indexed.kids k hk⟩

theorem Outset.Accepts.place {o : Outset} (hn : o.Accepts n) (hp : n.IsPlace) : o.exits n = false :=
  exits_isPlace hp hn.wellFormed hn.indexed

theorem Outset.Holds.canRaise {o : Outset} {k : Ground} {st : OpState}
    (hk : o.Holds k.types k.ops.symbols) (hst : k.ops.Later k.types st)
    (hr : (o.ops.symbols.get r).has .canRaise = true) :
    (st.symbols.get r).has .canRaise = true := by
  rcases Nat.lt_or_ge r o.ops.symbols.all.size with hlt | hge
  · exact ((hk.marked hlt).trans (hst.symbols.marked (Nat.lt_of_lt_of_le hlt hk.size_le))).has hr
  · rw [Symbols.get_of_le hge] at hr
    cases hr

theorem Node.isPlace_of_isPurePlace : ∀ {n : Node}, n.isPurePlace = .ok true → n.IsPlace
  | .hole, hn => by cases hn
  | .node h [], hn => by
    unfold isPurePlace at hn
    cases hk : h.kind <;> simp only [hk] at hn <;> cases hn
    exact .name hk
  | .node h (k :: ks), hn => by
    have hpart : stepsInto h.kind = true → k.isPurePlace = .ok true →
      (Node.node h (k :: ks)).IsPlace :=
      fun hs hk => .part hs (isPlace_of_isPurePlace hk)
    unfold isPurePlace at hn
    cases hk : h.kind <;> simp only [hk] at hn
    case sym => exact .name hk
    case dot | deref | addr | conv | upConv | downConv => exact hpart (by rw [hk]; rfl) hn
    case index =>
      rcases ks with _ | ⟨i, ks⟩
      · cases hn
      · obtain ⟨ih, -, hn⟩ := bind_eq_ok.1 hn
        split_ifs at hn
        · exact hpart (by rw [hk]; rfl) hn
        · cases hn
    all_goals cases hn

theorem InjectM.Each.mem_of {α β : Type} {P : α → β → Log → Prop} {E : α → Prop} {e : Note}
    {xs : List α} {ys : List β} {l : Log} (h : InjectM.Each P xs ys l)
    (hp : ∀ x ∈ xs, ∀ y l, P x y l → E x → e ∈ l) (hx : ∃ x ∈ xs, E x) : e ∈ l := by
  induction h with
  | nil =>
    obtain ⟨x, hx, -⟩ := hx
    cases hx
  | cons hy _ ih =>
    rw [List.mem_append]
    obtain ⟨x, hx, he⟩ := hx
    rcases List.mem_cons.1 hx with rfl | hx
    · exact .inl (hp _ (by simp) _ _ hy he)
    · exact .inr (ih (fun x hx => hp x (by simp [hx])) ⟨x, hx, he⟩)

theorem Log.left_closed (h : .left i ∈ l) : .left s ∈ Log.closed (some s) i l := by
  have hl : Log.left i l = true := Log.mem_left.2 h
  simp [Log.closed, Log.passed, hl]

namespace Outset

structure Noted (o : Outset) (B : Behaviour) : Prop where
  eval : ∀ {d n s m out l}, B.eval d n s m out l → o.Accepts n → o.exits n = true → .left s ∈ l
  store : ∀ {d dest ri s decl out l}, B.store d dest ri s decl out l → o.Accepts ri →
    o.exits ri = true → .left s ∈ l

/-- Where the node has an exit, it is noted that the scope is left. -/
def Notes (o : Outset) (n : Node) (s : ScopeId) (l : Log) : Prop :=
  o.Accepts n → o.exits n = true → .left s ∈ l

variable {o : Outset} {k : Ground} {B : Behaviour} {d : Nat} {s : ScopeId} {u : Use}
  (hB : o.Noted B)

/-! ## Values -/

section Values

include hB

variable {l : Log}

theorem noted_each
    (h : InjectM.Each (fun a => B.eval d a s m) ks ks' l) (hk : ∀ a ∈ ks, o.Accepts a)
    (hx : o.exitsAll ks = true) : .left s ∈ l :=
  h.mem_of (fun a ha _ _ hy => hB.eval hy (hk a ha)) (exitsAll_iff.1 hx)

theorem noted_constructs (h : B.Constructs d s n out l) : o.Notes n s l := by
  intro hn hx
  unfold exits at hx
  cases h with
  | list hk ha _ =>
    rcases hk with hk | hk <;> simp only [hk] at hx <;> exact noted_each hB ha hn.kids hx
  | closure hk ha _ =>
    simp only [hk, exitsAll_cons, exitsAll_nil, Bool.or_false] at hx
    exact hB.eval ha (hn.kids _ (by simp)) hx
  | object hk ha _ =>
    simp only [hk] at hx
    refine ha.mem_of (fun a hmem _ _ hy hx => ?_) (exitsAll_iff.1 hx)
    obtain ⟨h, f, v, v', m, rfl, hkind, hv, -⟩ := hy
    unfold exits at hx
    simp only [hkind, exitsAll_cons, exitsAll_nil, Bool.or_false] at hx
    exact hB.eval hv ((hn.kids _ hmem).kids v (by simp)) hx

theorem noted_passes (h : B.Passes d s ps as as' l)
    (ha : ∀ a ∈ as, o.Accepts a) (hx : o.exitsArgs ps as = true) : .left s ∈ l := by
  induction h with
  | nil => cases hx
  | more hv _ ih =>
    rw [List.forall_mem_cons] at ha
    simp only [exitsArgs, Bool.or_eq_true] at hx
    exact List.mem_append.2 (hx.imp (hB.eval hv ha.1) (ih ha.2))
  | fixed hc _ ih =>
    rw [List.forall_mem_cons] at ha
    simp only [exitsArgs, List.head?_cons, Option.any_some, hc] at hx
    exact ih ha.2 hx
  | given hc hv _ ih =>
    rw [List.forall_mem_cons] at ha
    simp only [exitsArgs, List.head?_cons, Option.any_some, hc, Bool.or_eq_true] at hx
    exact List.mem_append.2 (hx.imp (hB.eval hv ha.1) (ih ha.2))

theorem noted_copiesToSink (h : k.CopiesToSink B d n s out l) : o.Notes n s l := by
  intro hn hx
  cases h with
  | owning _ _ _ hv _ _ _ => simp [hB.eval hv hn hx]
  | plain _ _ hv _ _ _ => simp [hB.eval hv hn hx]

theorem noted_sinkArgs (h : k.SinkArgs B d n s out l) : o.Notes n s l := by
  intro hn hx
  cases h with
  | constant ho => exact noted_copiesToSink hB ho hn hx
  | copied ho => exact List.mem_cons_of_mem _ (noted_copiesToSink hB ho hn hx)
  | consumed _ _ ho => exact hB.eval ho hn hx
  | void _ ho => exact hB.eval ho hn hx
  | unowned ho => exact List.mem_cons_of_mem _ (hB.eval ho hn hx)
  | moved hp _ => cases (hn.place hp.isPlace).symm.trans hx
  | operand he hk _ ha _ =>
    subst he
    rw [exits_step hn.wellFormed (by rcases hk with hk | hk | hk | hk <;> simp [hk])] at hx
    exact List.mem_cons_of_mem _ (hB.eval ha (hn.kids _ (by simp)) hx)

theorem noted_callsWith (hk : o.Holds k.types k.ops.symbols)
    (hc : k.CallsWith B d s (.node h ks) out l) (hkind : h.kind = .call)
    (hn : o.Accepts (.node h ks))
    (hx : o.exits (.node h ks) = true) (hr : o.raises (.node h ks) = false) : .left s ∈ l := by
  have hparams : ∀ {callee : Node} {ps : List Param}, o.Accepts callee →
    k.HasParams callee.type ps →
      callee.calleeParams o.types = ps := by
    rintro callee ps hc ⟨sig, hsig, rfl⟩
    cases callee with
    | hole => exact absurd hc.wellFormed WellFormed.ne_hole
    | node ch cs => exact calleeParams_eq rfl (hk.types_eq ▸ hsig)
  have halloc : ∀ {callee : Node}, k.Allocates callee → o.exits callee = false := by
    rintro _ ⟨ch, cs, r, rfl, hsym, -⟩
    exact exits_of_kind (.inl (by simp [hsym]))
  unfold exits at hx
  cases hc with
  | plain hps ha hv _ =>
    simp only [hkind, hr, Bool.false_or, Bool.or_eq_true] at hx
    rw [hparams (hn.kids _ (by simp)) hps] at hx
    refine List.mem_append.2 (hx.symm.imp (noted_passes hB ha fun a ha => ?_)
      (hB.eval hv (hn.kids _ (by simp))))
    exact hn.kids a (by simp [ha])
  | alloc hc hps ha _ =>
    simp only [hkind, hr, halloc hc] at hx
    rw [hparams (hn.kids _ (by simp)) hps] at hx
    exact noted_passes hB ha (fun a ha => hn.kids a (by simp [ha])) hx
  | allocOver hc hps ha _ _ _ =>
    simp only [hkind, hr, halloc hc] at hx
    rw [hparams (hn.kids _ (by simp)) hps] at hx
    refine List.mem_append_left _ (noted_passes hB ha (fun a ha => hn.kids a ?_) hx)
    exact List.mem_cons_of_mem _ ha

end Values

/-! ## Branches -/

section Branches

include hB

variable {l : Log} {n out : Node} {isStmt : Bool}

theorem noted_continues (h : k.Continues B d u n s out l) : o.Notes n s l := by
  intro hn hx
  rcases h with ⟨-, h⟩ | ⟨-, h⟩
  · exact hB.eval h hn hx
  · cases u with
    | value m => exact hB.eval h hn hx
    | store dest decl => exact hB.store h hn hx

theorem noted_inScope (h : B.InScope d s body out l) : o.Notes body s l := by
  intro hb hx
  obtain ⟨ret, inner, hret, -, rfl⟩ := h
  exact Log.left_closed (hB.eval hret hb hx)

theorem noted_saves (h : k.Saves B d s ret tmp stored l) : o.Notes ret d l := by
  intro hr hx
  cases h with
  | owning _ hs => simp [hB.store hs hr hx]
  | plain hv _ => simp [hB.eval hv hr hx]

theorem noted_inArm
    (h : k.InArm B d u s isStmt body out l) : o.Notes body s l := by
  intro hb hx
  cases h with
  | plain _ hc _ => exact Log.left_closed (noted_continues hB hc hb hx)
  | value h =>
    obtain ⟨-, -, hs, -, -, -, -⟩ := h
    refine List.mem_append_left _ (Log.left_closed ?_)
    simp [noted_saves hB hs hb hx]

theorem noted_ifArm (h : k.IfArm B d u s isStmt n out l) : o.Notes n s l := by
  intro hn hx
  unfold exits at hx
  cases h with
  | test hk hc hb _ =>
    simp only [hk, exitsAll_cons, exitsAll_nil, Bool.or_false, Bool.or_eq_true] at hx
    exact List.mem_append.2 (hx.imp (hB.eval hc (hn.kids _ (by simp)))
      (noted_inArm hB hb (hn.kids _ (by simp))))
  | other hk hb _ =>
    simp only [hk, exitsAll_cons, exitsAll_nil, Bool.or_false] at hx
    exact noted_inArm hB hb (hn.kids _ (by simp)) hx

theorem noted_caseArm (h : k.CaseArm B d u s isStmt n out l) : o.Notes n s l := by
  intro hn hx
  unfold exits at hx
  obtain ⟨hk, -, hb, -⟩ := h
  refine noted_inArm hB hb (hn.kids _ (by simp)) ?_
  rcases hk with ⟨hk, -⟩ | ⟨hk, rfl⟩
  · simpa only [hk, exitsLast_append] using hx
  · simpa only [hk, List.nil_append, exitsAll_cons, exitsAll_nil, Bool.or_false] using hx

theorem noted_handler (h : k.Handler B d u s isStmt n out l) : o.Notes n s l := by
  intro hn hx
  unfold exits at hx
  cases h with
  | final hk hb _ =>
    simp only [hk, exitsAll_cons, exitsAll_nil, Bool.or_false] at hx
    exact noted_inScope hB hb (hn.kids _ (by simp)) hx
  | except hk hb _ =>
    simp only [hk, exitsAll_cons, exitsAll_nil, Bool.or_false] at hx
    exact noted_inArm hB hb (hn.kids _ (by simp)) hx

theorem noted_nests (h : k.Nests B d u s n out l) : o.Notes n s l := by
  intro hn hx
  unfold exits at hx
  cases h with
  | nothing hk _ => simp [hk] at hx
  | @list h before _ last _ _ _ _ hk hb hlast _ =>
    have hx : o.exitsAll (before ++ [last]) = true := by
      rcases hk with hk | hk <;> simpa only [hk] using hx
    simp only [exitsAll_append, exitsAll_cons, exitsAll_nil, Bool.or_false, Bool.or_eq_true] at hx
    refine List.mem_append.2 (hx.imp (noted_each hB hb fun a ha => hn.kids a ?_)
      (noted_continues hB hlast (hn.kids _ (by simp))))
    exact List.mem_append_left _ ha
  | cond hk ha _ =>
    simp only [hk] at hx
    exact ha.mem_of (fun a hmem _ _ hy => noted_ifArm hB hy (hn.kids a hmem)) (exitsAll_iff.1 hx)
  | choice hk hs ha _ =>
    simp only [hk, exitsAll_cons, Bool.or_eq_true] at hx
    refine List.mem_append.2 (hx.imp (hB.eval hs (hn.kids _ (by simp))) fun hx => ?_)
    exact ha.mem_of (fun a hmem _ _ hy => noted_caseArm hB hy (hn.kids a (by simp [hmem])))
      (exitsAll_iff.1 hx)
  | loop hk ht hb _ =>
    simp only [hk, exitsAll_cons, exitsAll_nil, Bool.or_false, Bool.or_eq_true] at hx
    exact List.mem_append.2 (hx.imp (hB.eval ht (hn.kids _ (by simp)))
      (noted_inScope hB hb (hn.kids _ (by simp))))
  | block hk hb _ =>
    simp only [hk, exitsAll_cons, exitsAll_nil, Bool.or_false] at hx
    exact noted_inArm hB hb (hn.kids _ (by simp)) hx
  | trying hk hb hh _ =>
    simp only [hk, exitsAll_cons, Bool.or_eq_true] at hx
    refine List.mem_append.2 (hx.imp (noted_inArm hB hb (hn.kids _ (by simp))) fun hx => ?_)
    exact hh.mem_of (fun a hmem _ _ hy => noted_handler hB hy (hn.kids a (by simp [hmem])))
      (exitsAll_iff.1 hx)

end Branches

/-! ## Statements -/

section Statements

variable {l : Log} {n out : Node}

theorem noted_leaves (h : k.Leaves B d s n out l) : .left s ∈ l := by
  cases h <;> simp

theorem noted_raises (h : k.Raises B d s n out l) : .left s ∈ l := by
  cases h <;> simp

include hB

theorem noted_assigns
    (ha : k.Assigns B d s (.node h [dest, src]) out l) (hd : o.Accepts dest) (hs : o.Accepts src)
    (hx : o.exits dest = true ∨ o.exits src = true) : .left s ∈ l := by
  cases ha with
  | owned _ he hst =>
    exact List.mem_append.2 (hx.imp (hB.eval he hd) (hB.store hst hs))
  | tag ht =>
    obtain ⟨-, -, -, -, hv, -, he, -, -, -, -⟩ := ht
    simp only [List.mem_cons, List.mem_append, reduceCtorEq, false_or]
    exact hx.symm.imp (hB.eval hv hs) fun hx => .inl (hB.eval he hd hx)
  | plain he hv _ => exact List.mem_append.2 (hx.imp (hB.eval he hd) (hB.eval hv hs))

theorem noted_declares (hk : o.Holds k.types k.ops.symbols)
    (h : k.Declares B d s it outs l) (hkind : it.kindOr = .identDefs) : o.Notes it s l := by
  intro hn hx
  have hinit : ∀ {h : Head} {v init : Node}, h.kind = .identDefs →
      o.exits (.node h [v, init]) = true → o.isRuntime v = true ∧ o.exits init = true := by
    intro h v init hk hx
    unfold exits at hx
    simpa [hk] using hx
  have hempty : ∀ {init : Node}, init.isKind .empty = true → o.exits init = false := fun he =>
    exits_of_kind (.inr (.inr he))
  have hstart : ∀ {r : SymRef} {span : Span} {init start : Node} {l : Log},
      k.StartsWith r span init start l → o.exits init = true → start = init := by
    intro r span init start l hst hx
    cases hst with
    | given => rfl
    | default he _ _ => cases (hempty he).symm.trans hx
  cases h with
  | @fixed h vh vs r init sec hr hc _ =>
    have hrun := (hinit hkind hx).1
    simp only [isRuntime, head?, Option.bind_some, hr, Bool.and_eq_true, decide_eq_true_eq,
      Bool.not_eq_true'] at hrun
    have hlt : r < k.size := Nat.lt_of_lt_of_le hrun.1 hk.size_le
    have := hc _ (k.entry_eq hlt)
    rw [(hk.marked hrun.1).has_eq (by decide), hrun.2] at this
    cases this
  | bare he _ _ => cases (hempty he).symm.trans (hinit hkind hx).2
  | plain _ _ hst hv _ _ =>
    have hx := (hinit hkind hx).2
    obtain rfl := hstart hst hx
    exact List.mem_append_right _ (hB.eval hv (hn.kids _ (by simp)) hx)
  | hoisted he _ _ _ => cases (hempty he).symm.trans (hinit hkind hx).2
  | stored _ _ hst _ ho =>
    have hx := (hinit hkind hx).2
    obtain rfl := hstart hst hx
    simp [hB.store ho (hn.kids _ (by simp)) hx]

theorem noted_declaresAll (hk : o.Holds k.types k.ops.symbols)
    (hd : k.DeclaresAll B d s (.node h ks) out l) (hkind : h.kind = .varSection)
    (hn : o.Accepts (.node h ks)) (hx : o.exits (.node h ks) = true) : .left s ∈ l := by
  have hkinds := hn.wellFormed.definitions hkind
  unfold exits at hx
  simp only [hkind] at hx
  cases hd with
  | one hp _ | list hp _ =>
    exact hp.mem_of (fun a ha _ _ hy => noted_declares hB hk hy (hkinds a ha) (hn.kids a ha))
      (exitsAll_iff.1 hx)

theorem noted_stores
    (h : k.Stores B d dest ri s decl out l) : o.Notes ri s l := by
  intro hr hx
  cases h with
  | self _ hp _ => cases (hr.place hp).symm.trans hx
  | copied hv _ | sunk hv _ => exact List.mem_append_left _ (hB.eval hv hr hx)
  | moved hp _ => cases (hr.place hp.isPlace).symm.trans hx
  | unpacked _ _ _ _ hv _ => simp [hB.eval hv hr hx]
  | nested _ ho => exact noted_nests hB ho hr hx
  | raised _ ho => exact noted_raises ho

theorem noted_handles (hk : o.Holds k.types k.ops.symbols)
    (h : k.Handles B d n s m out l) : o.Notes n s l := by
  intro hn hx
  cases h with
  | same hs =>
    cases hs with
    | leaf hkind =>
      unfold exits at hx
      revert hx
      rcases hkind with hkind | hkind | hkind
      · simp [hkind]
      · simp [hkind]
      · revert hkind
        cases Head.kind _ <;> simp [NodeKind.isLiteral]
    | place _ hp => cases (hn.place (isPlace_of_isPurePlace hp)).symm.trans hx
  | exit => simp
  | constructs hm _ => exact List.mem_append_left _ (noted_constructs hB hm hn hx)
  | call hkind hm hr _ =>
    cases n with
    | hole => cases hkind
    | node h ks =>
      have hkind : h.kind = .call := by simpa using hkind
      cases hraises : o.raises (.node h ks) with
      | false => exact List.mem_append_left _ (noted_callsWith hB hk hm hkind hn hx hraises)
      | true =>
        obtain ⟨st, b, hst, hb, rfl⟩ := hr
        obtain rfl : b = true := by
          exact raises_later (fun r hr => hk.canRaise hst hr) hraises (hk.types_eq ▸ hb)
        simp
  | discard he hkind ha _ =>
    subst he
    unfold exits at hx
    simp only [hkind, exitsAll_cons, exitsAll_nil, Bool.or_false] at hx
    exact hB.eval ha (hn.kids _ (by simp)) hx
  | declare hkind ho =>
    cases n with
    | hole => cases hkind
    | node h ks =>
      exact noted_declaresAll hB hk ho (by simpa using hkind) hn hx
  | assign hkind ho =>
    obtain ⟨h, dest, src, rfl⟩ := ho.eq_node
    have hkind : h.kind = .asgn ∨ h.kind = .fastAsgn := by simpa using hkind
    refine noted_assigns hB ho (hn.kids _ (by simp)) (hn.kids _ (by simp)) ?_
    unfold exits at hx
    rcases hkind with hkind | hkind <;> simpa [hkind] using hx
  | raise _ ho => exact noted_raises ho
  | leave _ ho => exact noted_leaves ho
  | dot he hkind ha _ =>
    subst he
    rw [exits_step hn.wellFormed (.inl hkind)] at hx
    exact hB.eval ha (hn.kids _ (by simp)) hx
  | @kids h ks ks' _ _ he hkind ha _ =>
    subst he
    refine noted_each hB ha hn.kids ?_
    unfold exits at hx
    revert hx hkind
    cases h.kind <;> simp [stepsInto]

theorem noted_evals (hk : o.Holds k.types k.ops.symbols)
    (h : k.Evals B d n s m out l) : o.Notes n s l := by
  intro hn hx
  cases h with
  | nested ho => exact noted_nests hB ho hn hx
  | sinkArg ho => exact noted_sinkArgs hB ho hn hx
  | plain _ ho => exact noted_handles hB hk ho hn hx

end Statements

/-- The rules note all exits. -/
theorem noted_ruled (hk : o.Holds k.types k.ops.symbols) : ∀ j, o.Noted (k.ruled j)
  | 0 => ⟨fun h _ _ => h.elim, fun h _ _ => h.elim⟩
  | j + 1 => ⟨fun h hn hx => noted_evals (noted_ruled hk j) hk h hn hx,
      fun h hn hx => noted_stores (noted_ruled hk j) h hn hx⟩

end Outset

end Lifecycle
