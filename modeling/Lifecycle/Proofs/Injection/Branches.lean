import Lifecycle.Proofs.Injection.Values

/-!
# What becomes of statement lists and branches

The trees and notes that can come of a nested construct. An arm has a scope of its own: what was
noted for it stands around the arm, the other notes go on.
-/

namespace Lifecycle

def Behaviour.Yields (B : Behaviour) (d : Nat) (u : Use) (n : Node) (s : ScopeId) (out : Node)
    (l : Log) : Prop :=
  match u with
  | .value m => B.eval d n s m out l
  | .store dest decl => B.store d dest n s decl out l

def Behaviour.InScope (B : Behaviour) (d : Nat) (s : ScopeId) (body out : Node) (l : Log) : Prop :=
  ∃ ret inner, B.eval (d + 1) body d .normal ret inner ∧ Node.Closes d ret inner out ∧
    l = inner.closed (some s) d

def Node.Rebuilds (u : Use) (h : Head) (ks : List Node) (out : Node) : Prop :=
  if u.isStmt then
    Node.Is { h with type := 0, kind := if h.kind = .stmtListExpr then .stmtList else h.kind } ks
      out
  else Node.Is h ks out

namespace Ground

variable (k : Ground)

/-- A statement, or a value for the use of the whole construct. -/
def Continues (B : Behaviour) (d : Nat) (u : Use) (n : Node) (s : ScopeId) (out : Node) (l : Log) :
    Prop :=
  k.types.isEmpty n.type = true ∧ B.eval d n s .normal out l ∨
    k.types.isEmpty n.type = false ∧ B.Yields d u n s out l

/-- The value of a scope is kept in a temporary of the scope around. -/
inductive Saves (B : Behaviour) (d : Nat) (s : ScopeId) (ret tmp : Node) : Node → Log → Prop
  | owning {destroyed stored : Node} {l1 l2 : Log} (hd : k.Destroys tmp destroyed l1)
      (hs : B.store (d + 1) tmp ret d true stored l2) :
      Saves B d s ret tmp stored
        (.asked ret.type true :: (l1 ++ (InjectM.due s destroyed ++ l2)))
  | plain {v stored : Node} {l : Log} (hv : B.eval (d + 1) ret d .normal v l)
      (hs : Node.Tree .fastAsgn 0 [tmp, v] stored) :
      Saves B d s ret tmp stored (.asked ret.type false :: l)

/-- A value in a scope of its own is handed on through a temporary of the scope around. -/
inductive ClosesValue (B : Behaviour) (d : Nat) (u : Use) (s : ScopeId) (ret : Node) :
    Node → Log → Prop
  | mk {r : SymRef} {x : Symbol} {tmp stored result out : Node} {inner l : Log}
      {decls rest : List Node} (hx : k.Entered .temp ret.type ret.span r x)
      (ht : Node.Refers r x ret.span tmp) (hs : k.Saves B d s ret tmp stored inner)
      (hy : B.Yields d u tmp s result l)
      (hd : Node.Opening (Log.vars d (.fresh false r x :: .var s r (some x) :: inner)) ret.span
        decls)
      (hr : Node.TrailingValue (inner.resets d) (inner.finals d) ret.span ret.type stored result
        rest)
      (ho : Node.Is { kind := .stmtListExpr, span := ret.span, type := ret.type }
        (decls ++ rest) out) :
      ClosesValue B d u s ret out
        (Log.closed (some s) d (.fresh false r x :: .var s r (some x) :: inner) ++ l)

/-- An arm in a scope of its own; one of a statement gives no value. -/
inductive InArm (B : Behaviour) (d : Nat) (u : Use) (s : ScopeId) (isStmt : Bool) (body : Node) :
    Node → Log → Prop
  | plain {ret out : Node} {inner : Log}
      (hp : isStmt = true ∨ u.isStmt = true ∨ k.types.isEmpty body.type = true)
      (hb : k.Continues B (d + 1) u body d ret inner) (hc : Node.Closes d ret inner out) :
      InArm B d u s isStmt body out (inner.closed (some s) d)
  | value {out : Node} {l : Log} (h : k.ClosesValue B d u s body out l) :
      InArm B d u s isStmt body out l

/-- A branch of an `if`. -/
inductive IfArm (B : Behaviour) (d : Nat) (u : Use) (s : ScopeId) (isStmt : Bool) :
    Node → Node → Log → Prop
  | test {h : Head} {cond cond' body body' out : Node} {l1 l2 : Log} (hk : h.kind = .elifBranch)
      (hc : B.eval d cond s .normal cond' l1) (hb : k.InArm B d u s isStmt body body' l2)
      (ho : Node.Is h [cond', body'] out) :
      IfArm B d u s isStmt (.node h [cond, body]) out (l1 ++ l2)
  | other {h : Head} {body body' out : Node} {l : Log} (hk : h.kind = .elseBranch)
      (hb : k.InArm B d u s isStmt body body' l) (ho : Node.Is h [body'] out) :
      IfArm B d u s isStmt (.node h [body]) out l

inductive CaseArm (B : Behaviour) (d : Nat) (u : Use) (s : ScopeId) (isStmt : Bool) :
    Node → Node → Log → Prop
  | mk {h : Head} {labels labels' : List Node} {body body' out : Node} {l : Log}
      (hk : h.kind = .ofBranch ∧ labels ≠ [] ∨ h.kind = .elseBranch ∧ labels = [])
      (hl : List.Forall₂ Node.CopyOf labels labels') (hb : k.InArm B d u s isStmt body body' l)
      (ho : Node.Is h (labels' ++ [body']) out) :
      CaseArm B d u s isStmt (.node h (labels ++ [body])) out l

inductive Handler (B : Behaviour) (d : Nat) (u : Use) (s : ScopeId) (isStmt : Bool) :
    Node → Node → Log → Prop
  | final {h : Head} {body body' out : Node} {l : Log} (hk : h.kind = .finallyBranch)
      (hb : B.InScope d s body body' l) (ho : Node.Is h [body'] out) :
      Handler B d u s isStmt (.node h [body]) out l
  | except {h : Head} {body body' out : Node} {l : Log} (hk : h.kind = .exceptBranch)
      (hb : k.InArm B d u s isStmt body body' l) (ho : Node.Is h [body'] out) :
      Handler B d u s isStmt (.node h [body]) out l

/-- What becomes of a construct with parts of its own. -/
inductive Nests (B : Behaviour) (d : Nat) (u : Use) (s : ScopeId) : Node → Node → Log → Prop
  | nothing {h : Head} {out : Node} (hk : h.kind = .stmtList) (ho : Node.Rebuilds u h [] out) :
      Nests B d u s (.node h []) out []
  | list {h : Head} {before before' : List Node} {last last' out : Node} {l1 l2 : Log}
      (hk : h.kind = .stmtList ∨ h.kind = .stmtListExpr)
      (hb : InjectM.Each (fun a => B.eval d a s .normal) before before' l1)
      (hl : k.Continues B d u last s last' l2) (ho : Node.Rebuilds u h (before' ++ [last']) out) :
      Nests B d u s (.node h (before ++ [last])) out (l1 ++ l2)
  | cond {h : Head} {arms arms' : List Node} {out : Node} {l : Log} (hk : h.kind = .ifStmt)
      (ha : InjectM.Each (k.IfArm B d u s (k.types.isEmpty h.type)) arms arms' l)
      (ho : Node.Rebuilds u h arms' out) : Nests B d u s (.node h arms) out l
  | choice {h : Head} {sel sel' : Node} {arms arms' : List Node} {out : Node} {l1 l2 : Log}
      (hk : h.kind = .caseStmt) (hs : B.eval d sel s .normal sel' l1)
      (ha : InjectM.Each (k.CaseArm B d u s (k.types.isEmpty h.type)) arms arms' l2)
      (ho : Node.Rebuilds u h (sel' :: arms') out) :
      Nests B d u s (.node h (sel :: arms)) out (l1 ++ l2)
  | loop {h : Head} {test test' body body' out : Node} {l1 l2 : Log} (hk : h.kind = .whileStmt)
      (ht : B.eval d test s .normal test' l1) (hb : B.InScope d s body body' l2)
      (ho : Node.Is h [test', body'] out) : Nests B d u s (.node h [test, body]) out (l1 ++ l2)
  | block {h : Head} {label body body' out : Node} {l : Log} (hk : h.kind = .block)
      (hb : k.InArm B d u s (k.types.isEmpty h.type) body body' l)
      (ho : Node.Rebuilds u h [label, body'] out) : Nests B d u s (.node h [label, body]) out l
  | trying {h : Head} {body body' : Node} {hs hs' : List Node} {out : Node} {l1 l2 : Log}
      (hk : h.kind = .tryStmt) (hb : k.InArm B d u s (k.types.isEmpty h.type) body body' l1)
      (hh : InjectM.Each (k.Handler B d u s (k.types.isEmpty h.type)) hs hs' l2)
      (ho : Node.Rebuilds u h (body' :: hs') out) :
      Nests B d u s (.node h (body :: hs)) out (l1 ++ l2)

theorem Nests.isNested {k : Ground} {B : Behaviour} {d : Nat} {u : Use} {s : ScopeId} {n out : Node}
    {l : Log} (h : k.Nests B d u s n out l) :
    ∃ hd ks, n = .node hd ks ∧ hd.kind.isNested = true := by
  cases h with
  | nothing hk _ | cond hk _ _ | choice hk _ _ _ | loop hk _ _ _ | block hk _ _ | trying hk _ _ _ =>
    exact ⟨_, _, rfl, by rw [hk]; rfl⟩
  | list hk _ _ _ => exact ⟨_, _, rfl, by rcases hk with hk | hk <;> rw [hk] <;> rfl⟩

theorem sound_refers {k : Ground} {r : SymRef} {x : Symbol} {span : Span} {n : Node}
    (h : Node.Refers r x span n) : k.Sound n := by
  obtain ⟨site, rfl⟩ := h
  exact sound_name rfl rfl

end Ground

namespace InjectM

variable {k : Ground} {B : Behaviour} {r : Rules} {T : Note → Prop} {d : Nat} {c : InjectContext}
  {s : ScopeId} {u : Use} {n : Node} {isStmt : Bool}

theorem logs_yield (hr : r.Follows k B) (hn : k.Sound n) :
    Logs k T d c (r.yield u n s) (B.Yields d u n s) := by
  cases u with
  | value m => exact hr.eval s m hn
  | store dest decl => exact hr.store s decl hn

theorem logs_evalOrYield (hr : r.Follows k B) (hn : k.Sound n) :
    Logs k T d c (evalOrYield r u n s) (k.Continues B d u n s) := by
  refine .lift_bind fun h hh => ?_
  rw [← (Node.info_eq hh).2.1]
  refine .ask asks_isVoid fun v hv => .ite (fun hvoid => ?_) fun hvoid => ?_
  · exact (hr.eval s .normal hn).mono fun out l ho => .inl ⟨hv ▸ hvoid, ho⟩
  · exact (logs_yield hr hn).mono fun out l ho => .inr ⟨by simpa [hv] using hvoid, ho⟩

theorem asks_markTemp {v : SymRef} : Asks k T d c (modify fun st =>
      { st with ops := st.ops.modifyFlags v fun f => f.union .singleUsedTemp }) fun _ => True :=
  fun _ _ _ _ => ⟨[], .silent (.of_symbols (.mark _ _)) rfl, rfl, trivial⟩

theorem closing_closeAroundValue {ret : Node} (hr : r.Follows k B) (hn : k.Sound ret) :
    Closing k T d c (some s) [] (closeAroundValue r d ret u) (k.ClosesValue B d u s ret) := by
  refine .scope fun sc hsc => ?_
  rw [hsc]
  refine .lift_bind fun h hh => ?_
  obtain ⟨hspan, htype, -⟩ := Node.info_eq hh
  rw [← hspan, ← htype]
  refine .bind (logs_newTemp false) ?_
  rintro v l ⟨x, hx, rfl⟩
  refine .ask (asks_symNode false (x := x) (.inr (by simp))) fun tmp ht => ?_
  refine .ask asks_markTemp fun _ _ => ?_
  refine .bind logs_isOwning ?_
  rintro b l ⟨rfl, -⟩
  extract_lets jp
  have hjp : ∀ stored inner, k.Saves B d s ret tmp stored inner →
      Closing k T d c (some s) (.fresh false v x :: .var s v (some x) :: inner) (jp stored)
        (k.ClosesValue B d u s ret) := by
    intro stored inner hs
    refine .close fun sc hv hres hfin => ?_
    refine .bind (logs_yield hr (Ground.sound_refers ht)) fun result l hy => ?_
    refine logs_opening _ _ hv (fun e he => .inr he) fun decls hdecls => ?_
    beta_reduce
    extract_lets jp'
    have hjp' : ∀ rest,
        Node.TrailingValue (inner.resets d) (inner.finals d) ret.span ret.type stored result rest →
        Logs k (fun e => T e ∨ e ∈ Note.fresh false v x :: .var s v (some x) :: inner)
        d c
          (jp' rest) fun out l' => k.ClosesValue B d u s ret out
            (Log.closed (some s) d (.fresh false v x :: .var s v (some x) :: inner) ++
              (l ++ l')) := by
      intro rest hrest
      refine asks_node.logs fun out hout => ?_
      rw [List.append_nil]
      exact .mk hx ht hs hy hdecls hrest hout
    refine .ite (fun hi => hjp' _ ?_) fun _ => .ite (fun _ => ?_) fun _ => ?_
    · simp only [Scope.isIdle, hres, hfin, Bool.and_eq_true, List.isEmpty_iff] at hi
      exact .idle hi.1 hi.2
    · refine .ask asks_tree fun body hbody => .ask asks_stmts fun fin hf => ?_
      refine .ask asks_tryFinally fun out hout => hjp' _ ?_
      rw [hres, hfin] at hf
      exact .guarded hf hbody hout
    · refine .ask asks_stmts fun fin hf => hjp' _ ?_
      rw [hres, hfin] at hf
      exact .after hf
  cases b with
  | true =>
    refine .bind logs_destroy fun destroyed l1 hd => .bind logs_addFinal ?_
    rintro _ l rfl
    refine .bind (hr.store d true hn) fun stored l2 hs => ?_
    simpa using hjp stored _ (.owning hd hs)
  | false =>
    refine .bind (hr.eval d .normal hn) fun v' l hv => .ask asks_fastAsgn fun stored hs => ?_
    simpa using hjp stored _ (.plain hv hs)

theorem asks_rebuild : Asks k T d c (rebuild (.node h ks) u kids) (Node.Rebuilds u h kids) := by
  unfold rebuild Node.Rebuilds
  refine .given rfl ?_
  split_ifs <;> exact asks_node

theorem logs_inOwnScope {body : Node} (hr : r.Follows k B) (hn : k.Sound body) :
    Logs k T d c (inOwnScope r s body) (B.InScope d s body) := by
  refine Closing.start (.bind (hr.eval d .normal hn) fun ret inner hret => ?_)
  exact closing_closeAround.mono fun out l hout => ⟨ret, inner, hret, hout⟩

theorem logs_arm {body : Node} (hr : r.Follows k B) (hn : k.Sound body) :
    Logs k T d c (arm r u s isStmt body) (k.InArm B d u s isStmt body) := by
  refine Closing.start ?_
  extract_lets jp
  have hplain : isStmt = true ∨ u.isStmt = true ∨ k.types.isEmpty body.type = true →
      Closing k T d c (some s) [] (jp true) (k.InArm B d u s isStmt body) := by
    intro hp
    refine .bind (logs_evalOrYield hr hn) fun ret inner hret => ?_
    refine closing_closeAround.mono ?_
    rintro out _ ⟨hout, rfl⟩
    exact .plain hp hret hout
  have hvalue : Closing k T d c (some s) [] (jp false) (k.InArm B d u s isStmt body) :=
    (closing_closeAroundValue hr hn).mono fun out l hout => .value hout
  refine .ite (fun hp => hplain ?_) fun _ => ?_
  · rcases Bool.or_eq_true_iff.1 hp with hp | hp
    · exact .inl hp
    · exact .inr (.inl hp)
  · refine .lift_bind fun h hh => ?_
    rw [← (Node.info_eq hh).2.1]
    refine .ask asks_isVoid fun b hb => ?_
    cases b
    · exact hvalue
    · exact hplain (.inr (.inr hb.symm))

theorem logs_ifArm (hr : r.Follows k B) (hn : k.Sound n)
    (hk : n.kindOr = .elifBranch ∨ n.kindOr = .elseBranch) :
    Logs k T d c (ifArm r u s isStmt n) (k.IfArm B d u s isStmt n) := by
  refine .lift_bind fun h hh => ?_
  obtain ⟨-, -, ks, rfl⟩ := Node.info_eq hh
  replace hk : h.kind = .elifBranch ∨ h.kind = .elseBranch := hk
  rcases hk with hk | hk
  · obtain ⟨cond, body, rfl⟩ := hn.wellFormed.pair (by simp [Node.layoutFaults, hk])
    rw [if_pos hk]
    refine .given rfl (.bind (hr.eval s .normal (hn.kid (by simp))) fun cond' l1 hc => ?_)
    refine .ask (.pure (Q := fun cs => cs = [cond']) rfl) ?_
    rintro _ rfl
    refine .given rfl (.last (logs_arm hr (hn.kid (by simp))) fun body' l2 hb => ?_)
    exact asks_node.mono fun out hout => .test hk hc hb hout
  · obtain ⟨body, rfl⟩ := hn.wellFormed.one (by simp [Node.layoutFaults, hk])
    rw [if_neg (by simp [hk])]
    refine .ask (.pure (Q := fun cs => cs = []) rfl) ?_
    rintro _ rfl
    refine .given rfl (.last (logs_arm hr (hn.kid (by simp))) fun body' l hb => ?_)
    exact asks_node.mono fun out hout => .other hk hb hout

theorem logs_caseArm (hr : r.Follows k B) (hn : k.Sound n)
    (hk : n.kindOr = .ofBranch ∨ n.kindOr = .elseBranch) :
    Logs k T d c (caseArm r u s isStmt n) (k.CaseArm B d u s isStmt n) := by
  refine .lift_bind fun h hh => ?_
  obtain ⟨-, -, ks, rfl⟩ := Node.info_eq hh
  replace hk : h.kind = .ofBranch ∨ h.kind = .elseBranch := hk
  have hl := hn.wellFormed.node.1
  obtain ⟨labels, body, rfl, hlabels⟩ : ∃ labels body, ks = labels ++ [body] ∧
      (h.kind = .ofBranch ∧ labels ≠ [] ∨ h.kind = .elseBranch ∧ labels = []) := by
    rcases hk with hk | hk
    · simp only [Node.layoutFaults, hk, Except.ok.injEq, ite_eq_right_iff, List.cons_ne_self,
        imp_false] at hl
      have hne : ks ≠ [] := by
        rintro rfl
        simp at hl
      refine ⟨ks.dropLast, ks.getLast hne, (List.dropLast_concat_getLast hne).symm, .inl ⟨hk, ?_⟩⟩
      intro hnil
      have hlen : ks.dropLast.length = ks.length - 1 := List.length_dropLast
      rw [hnil, List.length_nil] at hlen
      omega
    · obtain ⟨body, rfl⟩ := hn.wellFormed.one (by simp [Node.layoutFaults, hk])
      exact ⟨[], body, rfl, .inr ⟨hk, rfl⟩⟩
  have hbefore : (Node.node h (labels ++ [body])).kidsBeforeLast = .ok labels := by
    unfold Node.kidsBeforeLast Node.kids
    split
    · simp at *
    · rw [List.dropLast_concat]
  have hlast : (Node.node h (labels ++ [body])).lastKid = .ok body := by
    simp [Node.lastKid, Node.kids, orAbsent]
  rw [hbefore, hlast]
  change Logs k T d c (labels.mapM copy >>= fun labels' => arm r u s isStmt body >>= fun body' =>
    node h (labels' ++ [body'])) _
  refine .ask (asks_mapM fun a _ => asks_copy) fun labels' hls => ?_
  refine .last (logs_arm hr (hn.kid (by simp))) fun body' l hb => ?_
  exact asks_node.mono fun out hout => .mk hlabels hls hb hout

theorem logs_handler (hr : r.Follows k B) (hn : k.Sound n)
    (hk : n.kindOr = .exceptBranch ∨ n.kindOr = .finallyBranch) :
    Logs k T d c (handler r u s isStmt n) (k.Handler B d u s isStmt n) := by
  refine .lift_bind fun h hh => ?_
  obtain ⟨-, -, ks, rfl⟩ := Node.info_eq hh
  replace hk : h.kind = .exceptBranch ∨ h.kind = .finallyBranch := hk
  obtain ⟨body, rfl⟩ := hn.wellFormed.one (by
    rcases hk with hk | hk <;> simp [Node.layoutFaults, hk])
  refine .given rfl (.ite (fun hf => ?_) fun hf => ?_)
  · refine .last (logs_inOwnScope hr (hn.kid (by simp))) fun body' l hb => ?_
    exact asks_node.mono fun out hout => .final hf hb hout
  · refine .last (logs_arm hr (hn.kid (by simp))) fun body' l hb => ?_
    exact asks_node.mono fun out hout => .except (hk.resolve_right hf) hb hout

theorem logs_loop (hr : r.Follows k B) (hn : k.Sound (.node h ks)) (hk : h.kind = .whileStmt) :
    Logs k T d c (loop r s (.node h ks)) (k.Nests B d u s (.node h ks)) := by
  obtain ⟨test, body, rfl⟩ := hn.wellFormed.pair (by simp [Node.layoutFaults, hk])
  refine .given rfl ?_
  refine .ask (.update fun _ => ⟨rfl, rfl⟩) fun _ _ => .given rfl ?_
  refine .bind (hr.eval s .normal (hn.kid (by simp))) fun test' l1 ht => ?_
  refine .ask (.update fun _ => ⟨rfl, rfl⟩) fun _ _ => ?_
  refine Closing.start (.lift_bind fun body' hbody => ?_)
  cases hbody
  refine .bind (hr.eval d .normal (hn.kid (by simp))) fun ret inner hret => ?_
  refine closing_closeAround.followed fun body' l2 hb => .ask (.update fun _ => ⟨rfl, rfl⟩) ?_
  refine fun _ _ => asks_node.logs fun out hout => ?_
  rw [List.append_nil]
  exact .loop hk ht ⟨ret, inner, hret, hb⟩ hout

theorem logs_nested (hr : r.Follows k B) (hn : k.Sound n) :
    Logs k T d c (nested r u n s) (k.Nests B d u s n) := by
  unfold nested
  refine .lift_bind fun h hh => ?_
  obtain ⟨-, -, ks, rfl⟩ := Node.info_eq hh
  refine .ask asks_isVoid fun b hb => ?_
  subst hb
  have hl := hn.wellFormed.node.1
  have hlist : ∀ {m : InjectM Node}, h.kind = .stmtList ∨ h.kind = .stmtListExpr →
      (ks = [] → m = rebuild (.node h ks) u []) →
      (∀ before last, ks = before ++ [last] → m = do
        let before ← before.mapM fun k => r.eval k s .normal
        rebuild (.node h ks) u (before ++ [← evalOrYield r u last s])) →
      Logs k T d c m (k.Nests B d u s (.node h ks)) := by
    intro m hk hnil hlast
    rcases List.eq_nil_or_concat' ks with rfl | ⟨before, last, rfl⟩
    · rw [hnil rfl]
      refine asks_rebuild.logs fun out hout => .nothing (hk.resolve_right fun hk => ?_) hout
      simp [Node.layoutFaults, hk] at hl
    · rw [hlast before last rfl]
      refine .bind (logs_mapM fun a ha => hr.eval s .normal (hn.kid (by simp [ha])))
        fun before' l1 hb => ?_
      refine .last (logs_evalOrYield hr (hn.kid (by simp))) fun last' l2 hlast => ?_
      exact asks_rebuild.mono fun out hout => .list hk hb hlast hout
  split
  · rename_i hk
    exact hlist (.inl hk) (by rintro rfl; rfl) (by rintro before last rfl; simp [Node.kids])
  · rename_i hk
    exact hlist (.inr hk) (by rintro rfl; rfl) (by rintro before last rfl; simp [Node.kids])
  · rename_i hk
    simp only [Node.layoutFaults, hk] at hl
    have hkinds := Node.kindOr_of_branchFaults (Except.ok.inj hl)
    refine .last (logs_mapM fun a ha => logs_ifArm hr (hn.kid ha) (hkinds a ha)) fun arms l ha => ?_
    exact asks_rebuild.mono fun out hout => .cond hk ha hout
  · rename_i hk
    simp only [Node.layoutFaults, hk] at hl
    rcases ks with _ | ⟨sel, arms⟩
    · simp at hl
    have hkinds := Node.kindOr_of_branchFaults (Except.ok.inj hl)
    refine .given rfl (.bind (hr.eval s .normal (hn.kid (by simp))) fun sel' l1 hs => ?_)
    refine .given rfl ?_
    refine .last (logs_mapM fun a ha => logs_caseArm hr (hn.kid (by simp [ha])) (hkinds a ha))
      fun arms' l2 ha => ?_
    exact asks_rebuild.mono fun out hout => .choice hk hs ha hout
  · rename_i hk
    exact logs_loop hr hn hk
  · rename_i hk
    obtain ⟨label, body, rfl⟩ := hn.wellFormed.pair (by simp [Node.layoutFaults, hk])
    refine .given rfl (.given rfl (.last (logs_arm hr (hn.kid (by simp))) fun body' l hb => ?_))
    exact asks_rebuild.mono fun out hout => .block hk hb hout
  · rename_i hk
    simp only [Node.layoutFaults, hk] at hl
    rcases ks with _ | ⟨body, hs⟩
    · simp at hl
    have hkinds := Node.kindOr_of_branchFaults (List.append_eq_nil_iff.1 (Except.ok.inj hl)).2
    refine .given rfl (.bind (logs_arm hr (hn.kid (by simp))) fun body' l1 hb => ?_)
    refine .given rfl ?_
    refine .last (logs_mapM fun a ha => logs_handler hr (hn.kid (by simp [ha])) (hkinds a ha))
      fun hs' l2 hh => ?_
    exact asks_rebuild.mono fun out hout => .trying hk hb hh hout
  · exact .throw

end InjectM

end Lifecycle
