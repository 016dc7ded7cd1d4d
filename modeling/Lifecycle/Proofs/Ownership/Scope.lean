import Lifecycle.Proofs.Ownership.Declaration

/-!
# Scopes, branches and loops with lifecycle operations

A scope that is closed declares its variables, runs its statement and destroys what is due
(`ends_closeAround`). The arms of a branch and the body of a loop have scopes of their own, so they
leave nothing to the scope around (`BranchDone`).
-/

namespace Lifecycle

namespace Fragment

open Lifecycle.Graph InjectM

/-! ## Closing a scope -/

section Close

variable {S : Setting} {g : Graph} {c : InjectContext} {st : InjectState} {ss : Symbols}
  {scs : List Scope} {vs fs : List SymRef} {ns : List Node} {par : Option ScopeId} {ret : Node}
  {f : Ledger → Ledger}

theorem ends_closeScope (hs : st.scopes = scs ++ [sc]) (he : sc.leftEarly = false) :
    Ends False (closeScope scs.length c st) fun sc' st' =>
      sc' = sc ∧ st' = { st with scopes := scs } := by
  have hget : st.scopes[scs.length]? = some sc := by simp [hs]
  have hlen : scs.length + 1 = st.scopes.length := by simp [hs]
  have hdrop : st.scopes.dropLast = scs := by simp [hs]
  simp only [closeScope, scope, ends_bind, ends_get, hget, ends_pure]
  rw [if_neg (by simp [hlen])]
  simp only [hdrop, he]
  cases sc.parent <;> exact ⟨rfl, rfl⟩

theorem quietly_declarations (span : Span) :
    Quietly S g ss (declarations vs span) fun out ss => Performs S ss out (·.clear vs) := by
  have hdefs : ∀ (vs : List SymRef) {ss}, Quietly S g ss (vs.mapM fun v => do
      tree .identDefs 0 [← symNode v span, ← emptyAt span]) fun ks _ =>
        ∀ w m, Node.runDefs w ks m = m.clear vs := by
    intro vs
    induction vs with
    | nil => exact .pure fun w m => by simp [Node.runDefs, Ledger.clear]
    | cons x vs ih =>
      intro ss
      rw [List.mapM_cons]
      have hdef : Quietly S g ss (do tree .identDefs 0 [← symNode x span, ← emptyAt span])
        fun k _ =>
          ∃ d v e, k = .node d [named v x, .node e []] ∧ e.kind = .empty := by
        refine .bind (quietly_symNode x span) ?_
        rintro a ss1 _ ⟨v, ha, _⟩
        refine .bind (quietly_node _ _) ?_
        rintro b ss2 _ ⟨s, hb⟩
        subst ha hb
        exact (quietly_node _ _).mono fun k _ _ hk => ⟨_, v, _, hk.choose_spec, rfl⟩
      refine .bind hdef ?_
      rintro k ss1 _ ⟨d, v, e, hk, he⟩
      refine .bind ih fun ks ss2 _ hks => ?_
      refine .pure fun w m => ?_
      subst hk
      have hempty : (Node.node e []).isKind .empty = true := by simp [he]
      simp only [Node.runDefs, Node.runDef, hempty, hks]
      rfl
  refine .bind (hdefs vs) fun ks ss1 _ hks => (quietly_node _ _).mono ?_
  rintro out ss2 _ ⟨s, hout⟩
  subst hout
  intro w _ _ m
  exact hks w m

theorem quietly_cleanup (span : Span) (hr : sc.resets = [])
    (hfs : List.Forall₂ (Discards S ss) sc.finals fs) :
    Quietly S g ss (cleanup sc span) fun out ss => Performs S ss out (·.destroyAll fs.reverse) := by
  have hall : List.Forall₂ (Performs S ss) (sc.resets ++ sc.finals.reverse)
      (fs.reverse.map fun x m => m.destroy x) := by
    rw [hr, List.nil_append, List.forall₂_map_right_iff]
    exact List.rel_reverse hfs
  refine (quietly_seq rfl hall).mono fun out ss' _ hdo w ht hw m => ?_
  rw [hdo w ht hw m, runAll, List.foldl_map]
  rfl

theorem quietly_ending {sc : Scope} (span : Span) (hr : sc.resets = []) (he : sc.leftEarly = false)
    (hfs : List.Forall₂ (Discards S ss) sc.finals fs) (hds : List.Forall₂ (Performs S ss) ds gs)
    (hret : Performs S ss ret f) :
    Quietly S g ss (do
        let rest ← if sc.isIdle then pure [ret]
          else if sc.leftEarly then do pure [← tryFinally ret (← cleanup sc span) 0]
          else do pure [ret, ← cleanup sc span]
        stmts span (ds ++ rest)) fun out ss =>
      Performs S ss out fun m => (f (runAll gs m)).destroyAll fs.reverse := by
  have hseq : ∀ {ss' rest hs}, ss.Within ss' → List.Forall₂ (Performs S ss') rest hs →
      (∀ m : Ledger, runAll hs m = (f m).destroyAll fs.reverse) →
      Quietly S g ss' (stmts span (ds ++ rest)) fun out ss => Performs S ss out
        fun m => (f (runAll gs m)).destroyAll fs.reverse := by
    intro ss' rest hs hw hrest hhs
    have hall : List.Forall₂ (Performs S ss') (ds ++ rest) (gs ++ hs) :=
      List.rel_append (List.Forall₂.imp (fun _ _ h => h.mono hw) hds) hrest
    refine (quietly_seq rfl hall).mono fun out ss'' _ hdo w ht hw m => ?_
    rw [hdo w ht hw m, runAll_append, hhs]
  have hidle : sc.isIdle = sc.finals.isEmpty := by simp [Scope.isIdle, hr]
  rw [hidle, he]
  cases hn : sc.finals.isEmpty with
  | true =>
    refine hseq (.refl _) (.cons hret .nil) fun m => ?_
    rw [List.isEmpty_iff.1 hn] at hfs
    cases hfs
    rfl
  | false =>
    refine .bind (quietly_cleanup span hr hfs) fun fin ss1 hs1 hfin => ?_
    exact hseq hs1 (.cons (hret.mono hs1) (.cons hfin .nil)) fun m => rfl

theorem ends_closeAround (hw : Works S g c st)
    (hs : st.scopes = scs ++ [Scope.extend vs ns { parent := par }])
    (hfs : List.Forall₂ (Discards S st.ops.symbols) ns fs)
    (hret : Performs S st.ops.symbols ret f) :
    Ends False (closeAround scs.length ret c st) fun out st' =>
      Quiet S g c { st with scopes := scs } st' ∧ Performs S st'.ops.symbols out
        fun m => (f (m.clear vs)).destroyAll fs.reverse := by
  unfold closeAround
  rw [ends_bind]
  refine (ends_closeScope hs rfl).mono fun sc st1 ⟨hsc, hst⟩ => ?_
  subst hst
  suffices hrest : Quietly S g st.ops.symbols _ fun out ss =>
      Performs S ss out fun m => (f (m.clear vs)).destroyAll fs.reverse from
    hrest c _ (hw.scopes scs) rfl
  have hvars : sc.vars = vs := by simp [hsc, Scope.extend]
  have hfinals : sc.finals = ns := by simp [hsc, Scope.extend]
  have hresets : sc.resets = [] := by simp [hsc, Scope.extend]
  have hearly : sc.leftEarly = false := by simp [hsc, Scope.extend]
  subst hfinals
  rw [hvars]
  by_cases hnone : (vs.isEmpty && sc.isIdle) = true
  · rw [if_pos hnone]
    simp only [Scope.isIdle, Bool.and_eq_true, List.isEmpty_iff] at hnone
    rw [hnone.2.2] at hfs
    cases hfs
    rw [hnone.1]
    exact .pure hret
  rw [if_neg hnone]
  cases hv : vs.isEmpty with
  | true =>
    have hending := quietly_ending (g := g) ret.span hresets hearly hfs .nil hret
    rw [List.isEmpty_iff.1 hv]
    exact hending
  | false =>
    refine .bind (quietly_declarations _) fun decls ss1 hs1 hdecls => ?_
    exact quietly_ending ret.span hresets hearly (List.Forall₂.imp (fun _ _ h => h.mono hs1) hfs)
      (.cons hdecls .nil) (hret.mono hs1)

end Close

/-! ## Nested statements -/

section Nested

variable {S : Setting} {g : Graph} {i : ScopeId} {ss : Symbols} {Γ : List SymRef} {r : Rules}
  {h : Head}
  {ks : List Node} {t : Stmt}

theorem evalOrYield_node :
    evalOrYield r (.value .normal) (.node h ks) i = r.eval (.node h ks) i .normal := by
  funext c st
  change (if c.types.isEmpty h.type = true then r.eval (.node h ks) i .normal
    else r.eval (.node h ks) i .normal) c st = _
  rw [ite_self]

theorem nested_stmtList (hks : ∀ k ∈ ks, ∃ d ds, k = .node d ds) :
    nested r (.value .normal) (.node { h with kind := .stmtList } ks) i = (do
      let _ ← isVoid h.type
      let outs ← ks.mapM fun k => r.eval k i .normal
      node { h with kind := .stmtList } outs) := by
  rcases ks.eq_nil_or_concat with rfl | ⟨front, last, rfl⟩
  · rfl
  · obtain ⟨d, ds, rfl⟩ := hks last (by simp)
    rw [List.concat_eq_append]
    have hcase : nested r (.value .normal) (.node { h with kind := .stmtList }
      (front ++ [.node d ds])) i =
        (do
          let _ ← isVoid h.type
          let before ← front.mapM fun k => r.eval k i .normal
          node { h with kind := .stmtList }
            (before ++ [← evalOrYield r (.value .normal) (.node d ds) i])) := by
      simp [nested, Node.kids, rebuild]
      rfl
    rw [hcase]
    simp only [evalOrYield_node, List.mapM_append, List.mapM_cons, List.mapM_nil, bind_assoc,
      pure_bind]

def BranchDone (S : Setting) (g : Graph) (Γ : List SymRef) (ss : Symbols) (t : Stmt) (out : Node)
    (ss' : Symbols) : Prop :=
  ∃ p, Emitted S Γ ss p ss' ∧ p.Is (t.code S) t.sites t.decls ∧ (p.vars = [] ∧ p.finals = []) ∧
    ∃ f, Performs S ss' out f ∧ Runs S g Γ [] p f

theorem quietly_inScope {m : ScopeId → InjectM Node}
    (hbody : ∀ i, Emits S g i Γ ss (m i) (StmtDone S g Γ t)) :
    Quietly S g ss (do
      let inner ← openScope par
      closeAround inner (← m inner)) (BranchDone S g Γ ss t) := by
  rintro c st hw rfl
  simp only [openScope, ends_bind, ends_get, ends_set, ends_pure]
  refine (hbody st.scopes.length c { st with scopes := st.scopes ++ [{ parent := par }] }
    (hw.scopes _)
    rfl (by simp)).mono ?_
  rintro out st1 ⟨_, _, ha, p, rfl, rfl, hp, his, _, f, hf, hruns⟩
  obtain ⟨ns, hns, hscopes⟩ := ha.scopes
  have hs : st1.scopes = st.scopes ++ [Scope.extend p.vars ns { parent := par }] := by
    rw [hscopes]
    rw [List.modify_eq_take_drop]
    simp
  refine (ends_closeAround ha.works hs hns hf).mono ?_
  rintro out' st2 ⟨hq, hout⟩
  refine ⟨⟨hq.works, ha.within.trans hq.within, hq.scopes⟩, p.closed, ?_,
    ⟨his.code, his.sites, his.decls⟩, ⟨rfl, rfl⟩, _, hout, hruns.enclose hp.sound⟩
  exact { hp.later hq.within with sound := hp.sound.closed }

end Nested

/-! ## Branches and loops -/

section Branches

variable {S : Setting} {g : Graph} {i : ScopeId} {ss : Symbols} {Γ : List SymRef} {r : Rules}
  {h k : Head} {x : SymRef} {t : Stmt} {a : Arms}

def ArmsDone (S : Setting) (g : Graph) (Γ : List SymRef) (ss : Symbols) (a : Arms)
    (outs : List Node) (ss' : Symbols) : Prop :=
  ∃ p, Emitted S Γ ss p ss' ∧ p.Is (a.code S) a.sites a.decls ∧ (p.vars = [] ∧ p.finals = []) ∧
    ∃ f, (∀ w : Runtime, w.types = S.types → ss'.Within w.symbols →
      ∀ m, Node.runArms w outs m = f m) ∧
      Runs S g Γ [] p f

theorem Stmt.node_eq (t : Stmt) : ∃ d ds, t.node = .node d ds := by
  cases t with
  | eval e => cases e <;> exact ⟨_, _, rfl⟩
  | _ => exact ⟨_, _, rfl⟩

theorem arm_eq : arm r (.value .normal) i true t.node = inOwnScope r i t.node := by
  obtain ⟨d, ds, ht⟩ := t.node_eq
  rw [ht, inOwnScope]
  unfold arm
  simp only [evalOrYield_node]
  rfl

theorem ifArm_other :
    ifArm r (.value .normal) i true (.node { h with kind := .elseBranch } [t.node]) =
    (do node { h with kind := .elseBranch } [← inOwnScope r i t.node]) := by
  rw [← arm_eq]
  rfl

theorem ifArm_test (hr : r.eval (named k x) i .normal = pure (named k x)) :
    ifArm r (.value .normal) i true (.node { h with kind := .elifBranch } [named k x, t.node]) =
      (do node { h with kind := .elifBranch } [named k x, ← inOwnScope r i t.node]) := by
  have hcond : ifArm r (.value .normal) i true
      (.node { h with kind := .elifBranch } [named k x, t.node]) = (do
        let cond ← r.eval (named k x) i .normal
        let body ← arm r (.value .normal) i true t.node
        node { h with kind := .elifBranch } [cond, body]) := rfl
  rw [hcond, hr, pure_bind, arm_eq]

theorem quietly_other (hbody : Quietly S g ss (inOwnScope r i t.node) (BranchDone S g Γ ss t)) :
    Quietly S g ss ((Arms.other h t).nodes.mapM (ifArm r (.value .normal) i true))
      (ArmsDone S g Γ ss (.other h t)) := by
  simp only [Arms.nodes, List.mapM_cons, ifArm_other, bind_assoc]
  refine .bind hbody fun body ss1 _ ⟨p, hp, his, hnone, f, hf, hruns⟩ => ?_
  refine .bind (quietly_node _ _) fun out ss2 hs2 ⟨s, hout⟩ => .pure ?_
  subst hout
  refine ⟨p, hp.later hs2, his, hnone, f, fun w ht hw m => ?_, hruns⟩
  exact hf w ht (hs2.trans hw) m

theorem quietly_test (hx : S.isCondition x = true)
    (hr : r.eval (named k x) i .normal = pure (named k x)) (hs : (Arms.test h k x t a).sites.Nodup)
    (hd : (Arms.test h k x t a).decls.Nodup)
    (hbody : Quietly S g ss (inOwnScope r i t.node) (BranchDone S g Γ ss t))
    (hrest : ∀ ss', Quietly S g ss' (a.nodes.mapM (ifArm r (.value .normal) i true))
      (ArmsDone S g Γ ss' a)) :
    Quietly S g ss ((Arms.test h k x t a).nodes.mapM (ifArm r (.value .normal) i true))
      (ArmsDone S g Γ ss (.test h k x t a)) := by
  have hguard := guard_of_isCondition (c := k) hx
  obtain ⟨hsite, hsites⟩ := List.nodup_cons.1 hs
  rw [List.mem_append, not_or] at hsite
  rw [Arms.nodes, List.mapM_cons, ifArm_test hr]
  simp only [bind_assoc]
  refine .bind hbody fun body ss1 _ ⟨p, hp, his, hnone, f, hf, hruns⟩ => ?_
  refine .bind (quietly_node _ _) fun out ss2 hs2 ⟨s, hout⟩ => ?_
  subst hout
  have hp2 := hp.later hs2
  refine .bind (hrest ss2) fun outs ss3 hs3 ⟨q, hq, hisq, hnoneq, f', hf', hruns'⟩ => .pure ?_
  have hap : Apart p q := hp2.apart hq his hisq hsites hd
  refine ⟨Piece.arm (.node { h with kind := .elifBranch } [named k x, t.node])
    (readCode S k x) k.site p q, ⟨hp2.within.trans hs3, hp.lo, hq.hi,
      hp.sound.arm hq.sound hap hguard⟩, ⟨?_, ?_, ?_⟩, ⟨rfl, rfl⟩,
    branch x f f', fun w ht hw m => ?_, ?_⟩
  · rw [Arms.code, ← his.code, ← hisq.code]
    rfl
  · rw [Arms.sites, ← his.sites, ← hisq.sites]
    rfl
  · rw [Arms.decls, ← his.decls, ← hisq.decls]
    rfl
  · simp only [branch, ← hf w ht ((hs2.trans hs3).trans hw), ← hf' w ht hw]
    rfl
  · exact runs_arm hruns hruns' hp.sound hq.sound hnone hnoneq hap hguard (his.sites ▸ hsite.1)
      (hisq.sites ▸ hsite.2)

theorem loop_eq (hr : r.eval (named k x) i .normal = pure (named k x)) :
    InjectM.loop r i (Stmt.loop h k x t).node = (do
      modify fun st => { st with loops := st.loops + 1, conditions := st.conditions + 1 - 1 }
      let body ← inOwnScope r i t.node
      modify fun st => { st with loops := st.loops - 1 }
      node { h with kind := .whileStmt } [named k x, body]) := by
  have hcond : InjectM.loop r i (Stmt.loop h k x t).node = (do
      modify fun st => { st with loops := st.loops + 1, conditions := st.conditions + 1 }
      let cond ← r.eval (named k x) i .normal
      modify fun st => { st with conditions := st.conditions - 1 }
      let inner ← openScope (some i)
      let body ← closeAround inner (← r.eval t.node inner .normal)
      modify fun st => { st with loops := st.loops - 1 }
      node { h with kind := .whileStmt } [cond, body]) := rfl
  rw [hcond, hr]
  simp only [pure_bind, inOwnScope, bind_assoc]
  rfl

theorem emits_loop (hx : S.isCondition x = true)
    (hr : r.eval (named k x) i .normal = pure (named k x)) (hs : (Stmt.loop h k x t).sites.Nodup)
    (hbody : ∀ ss, Quietly S g ss (inOwnScope r i t.node) (BranchDone S g Γ ss t)) :
    Emits S g i Γ ss (InjectM.loop r i (Stmt.loop h k x t).node)
      (StmtDone S g Γ (.loop h k x t)) := by
  have hguard := guard_of_isCondition (c := k) hx
  have hsite := (List.nodup_cons.1 hs).1
  rw [loop_eq hr]
  refine Grows.of_quietly (T := fun out ss' => ∃ p : Piece, p.vars = [] ∧ p.finals = [] ∧
    Emitted S Γ ss p ss' ∧ StmtDone S g Γ (.loop h k x t) out p ss') ?_ fun _ _ _ h => h
  -- the condition is counted only while it is evaluated, and it is a name
  refine .bind (P := fun _ _ => True) (fun c st hw _ => ⟨hw.frame rfl rfl rfl rfl rfl, trivial⟩)
    fun _ ss1 hs1 _ => ?_
  refine .bind (hbody ss1) fun body ss2 _ ⟨p, hp, his, hnone, f, hf, hruns⟩ => ?_
  refine .bind (P := fun _ _ => True) (fun c st hw _ => ⟨hw.frame rfl rfl rfl rfl rfl, trivial⟩)
    fun _ ss3 hs3 _ => ?_
  refine (quietly_node _ _).mono fun out ss4 hs4 ⟨s, hout⟩ => ?_
  subst hout
  have hs := hs3.trans hs4
  refine ⟨Piece.rounds (Stmt.loop h k x t).node (readCode S k x) k.site p, rfl, rfl,
    { (hp.earlier hs1).later hs with sound := hp.sound.rounds hguard }, ⟨?_, ?_, his.decls⟩,
    by simp [Stmt.exports], repeatOn x f, fun w ht hw m => ?_, ?_⟩
  · rw [Stmt.code, ← his.code]
    rfl
  · rw [Stmt.sites, ← his.sites]
    rfl
  · have hbody : (fun m => (body.run w m).2) = f := funext (hf w ht (hs.trans hw))
    have hcond : (named k x).run w = (·.read x) := does_named w ht hw
    rw [Node.run]
    simp only [Node.runLoop, hbody, hcond, repeatOn]
  · exact runs_loop hruns hp.sound hnone hguard (his.sites ▸ hsite)

end Branches

end Fragment

end Lifecycle
