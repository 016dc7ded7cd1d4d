import Lifecycle.Proofs.Ownership.Scope

/-!
# Bodies with lifecycle operations

Every statement of the fragment is worked through into code that keeps the books (`Stmt.emits`), by
recursion over statements, blocks and arms together.
-/

namespace Lifecycle

namespace Fragment

open Lifecycle.Graph InjectM

structure Proper (S : Setting) (Γ : List SymRef) (fit : Bool) (ss : List Nat) (ds : List SymRef) :
    Prop where
  own : OwnsAll S Γ
  fits : fit = true
  sites : ss.Nodup
  decls : ds.Nodup
  fresh : ∀ x ∈ ds, x ∉ Γ

def BlockDone (S : Setting) (g : Graph) (Γ : List SymRef) (b : Block) (outs : List Node) (p : Piece)
    (ss : Symbols) : Prop :=
  p.Is (b.code S) b.sites b.decls ∧ (∀ x ∈ b.exports, x ∈ p.finals) ∧
    ∃ fs, List.Forall₂ (Performs S ss) outs fs ∧ Runs S g Γ b.exports p (runAll fs)

section Stmts

variable {S : Setting} {g : Graph} {i : ScopeId} {ss : Symbols} {Γ : List SymRef} {r : Rules}
  {h : Head}
  {t : Stmt} {a : Arms} {b : Block} {e : Expr}

theorem Block.nodes_eq : ∀ (b : Block), ∀ n ∈ b.nodes, ∃ d ds, n = .node d ds
  | .nil, _, hn => by cases hn
  | .cons t b, n, hn => by
    rcases List.mem_cons.1 hn with rfl | hn
    · exact t.node_eq
    · exact b.nodes_eq n hn

theorem emits_seq (hb : ∀ ss, Emits S g i Γ ss (b.nodes.mapM fun n => r.eval n i .normal)
      (BlockDone S g Γ b)) :
    Emits S g i Γ ss (nested r (.value .normal) (Stmt.seq h b).node i)
      (StmtDone S g Γ (.seq h b)) := by
  rw [Stmt.node, nested_stmtList b.nodes_eq]
  refine .after (quietly_isVoid _) fun _ ss1 _ _ => ?_
  refine .before (hb ss1) fun outs p ss2 hp ⟨his, hfin, fs, hfs, hruns⟩ => ?_
  exact (quietly_seq rfl hfs).mono fun out ss3 _ hout => ⟨his, hfin, _, hout, hruns⟩

theorem emits_block_nil :
    Emits S g i Γ ss (Block.nil.nodes.mapM fun n => r.eval n i .normal) (BlockDone S g Γ .nil) := by
  have hr : ReadsAt [] [] := nofun
  refine .pure hr ?_
  rintro p rfl -
  exact ⟨⟨rfl, rfl, rfl⟩, by simp [Block.exports], [], .nil, runs_nil rfl⟩

theorem emits_block_cons (hs : (Block.cons t b).sites.Nodup) (hd : (Block.cons t b).decls.Nodup)
    (ht : Emits S g i Γ ss (r.eval t.node i .normal) (StmtDone S g Γ t))
    (hb : OwnsAll S t.exports → ∀ ss', Emits S g i (t.exports ++ Γ) ss'
      (b.nodes.mapM fun n => r.eval n i .normal) (BlockDone S g (t.exports ++ Γ) b)) :
    Emits S g i Γ ss ((Block.cons t b).nodes.mapM fun n => r.eval n i .normal)
      (BlockDone S g Γ (.cons t b)) := by
  rw [Block.nodes, List.mapM_cons]
  refine .bind (E := t.exports) ht fun out p ss1 hp ⟨his, hfin, f, hf, hruns⟩ => ?_
  have hexp : ∀ x ∈ t.exports, x ∈ p.decls := fun x hx => by
    rw [his.decls]
    exact t.exports_sub x hx
  refine .before (hb (fun x hx => .inl (hp.sound.isLocal x (hexp x hx))) ss1)
    fun outs q ss2 hq ⟨hisq, hfinq, fs, hfs, hrunsq⟩ => .pure fun _ => ?_
  have hap : Apart p q := hp.apart hq his hisq hs hd
  refine ⟨p.append q, rfl, rfl, hp.append hq hap hexp, his.append hisq, fun x hx => ?_, f :: fs,
    .cons (hf.mono hq.within) hfs, hruns.seq hrunsq hp.sound hq.sound hap hexp hfin⟩
  rcases List.mem_append.1 hx with hx | hx
  · exact List.mem_append_left _ (hfin x hx)
  · exact List.mem_append_right _ (hfinq x hx)

theorem emits_cond (ht : S.types.isEmpty h.type = true)
    (ha : ∀ ss, Quietly S g ss (a.nodes.mapM (ifArm r (.value .normal) i true))
      (ArmsDone S g Γ ss a)) :
    Emits S g i Γ ss (nested r (.value .normal) (Stmt.cond h a).node i)
      (StmtDone S g Γ (.cond h a)) := by
  have heq : nested r (.value .normal) (Stmt.cond h a).node i = (do
      let isStmt ← isVoid h.type
      let outs ← a.nodes.mapM (ifArm r (.value .normal) i isStmt)
      node { h with kind := .ifStmt } outs) := rfl
  rw [heq]
  refine .after (quietly_isVoid _) fun isStmt ss1 _ hvoid => ?_
  rw [hvoid, ht]
  refine Grows.after (ha ss1) fun outs ss2 _ ⟨p, hp, his, hnone, f, hf, hruns⟩ => ?_
  refine .of_quietly (quietly_node _ _) fun out ss3 hs3 ⟨s, hout⟩ => ?_
  subst hout
  refine ⟨p, hnone.1, hnone.2, hp.later hs3, his, by simp [Stmt.exports], f, fun w ht hw m =>
    ?_, hruns⟩
  exact hf w ht (hs3.trans hw) m

theorem emits_discard (he : Emits S g i Γ ss (r.eval e.node i .normal) (ExprDone S g Γ false e)) :
    Emits S g i Γ ss (evalOperand r (Stmt.discard h e).node i .normal)
      (StmtDone S g Γ (.discard h e)) := by
  have heq : evalOperand r (Stmt.discard h e).node i .normal = (do
      node { h with kind := .discardStmt } [← r.eval e.node i .normal]) := rfl
  rw [heq]
  refine .before he fun n p ss1 hp ⟨his, F, hF, hy⟩ => ?_
  refine (quietly_node _ _).mono fun out ss2 hs ⟨s, hout⟩ => ?_
  subst hout
  exact ⟨his, by simp [Stmt.exports], _, performs_seq (.inr rfl) (.cons (hF.mono hs).performs .nil),
    hy.runs⟩

mutual

theorem Stmt.emits : ∀ (t : Stmt) {Γ : List SymRef} {n : Nat} {ss : Symbols} {i : ScopeId},
    Proper S Γ (t.fits S Γ) t.sites t.decls → 4 * t.node.depth + 2 ≤ n →
    Emits S g i Γ ss ((rules n).eval t.node i .normal) (StmtDone S g Γ t)
  | .seq h b, Γ, n, ss, i, hP, hn => by
    obtain ⟨n, rfl⟩ := exists_add_two hn
    simp only [Stmt.node, Node.depth] at hn
    exact emits_seq fun ss => b.emits hP (by omega)
  | .declare h d v k x, Γ, n, ss, i, hP, hn => emits_declare hP.fits hn
  | .define h d v x e, Γ, n, ss, i, hP, hn =>
    emits_define hP.own hP.fits (hP.fresh x (by simp [Stmt.decls])) hP.sites hn
  | .assign h v x e, Γ, n, ss, i, hP, hn => emits_assign hP.own hP.fits hP.sites hn
  | .eval e, Γ, n, ss, i, hP, hn => by
    have hf := hP.fits
    simp only [Stmt.fits, Bool.and_eq_true] at hf
    refine (e.emits (m := .normal) hP.own hf.2 hP.sites hn (by simp)).mono
      fun out p ss' _ ⟨his, F, hF, hy⟩ => ?_
    exact ⟨his, by simp [Stmt.exports], _, hF.performs, hy.runs⟩
  | .discard h e, Γ, n, ss, i, hP, hn => by
    have hf := hP.fits
    simp only [Stmt.fits, Bool.and_eq_true] at hf
    obtain ⟨n, rfl⟩ := exists_add_two hn
    simp only [Stmt.node, Node.depth, Node.depths] at hn
    exact emits_discard (e.emits (m := .normal) hP.own hf.2 hP.sites (by omega) (by simp))
  | .cond h a, Γ, n, ss, i, hP, hn => by
    have hf := hP.fits
    simp only [Stmt.fits, Bool.and_eq_true] at hf
    obtain ⟨n, rfl⟩ := exists_add_two hn
    simp only [Stmt.node, Node.depth] at hn
    exact emits_cond hf.1 fun ss => a.emits { hP with fits := hf.2 } (by omega)
  | .loop h k x t, Γ, n, ss, i, hP, hn => by
    have hf := hP.fits
    simp only [Stmt.fits, Bool.and_eq_true] at hf
    obtain ⟨n, rfl⟩ := exists_add_two hn
    simp only [Stmt.node, Node.depth, Node.depths] at hn
    refine emits_loop (r := rules (n + 1)) hf.1 rfl hP.sites fun ss => quietly_inScope fun i => ?_
    exact t.emits ⟨hP.own, hf.2, (List.nodup_cons.1 hP.sites).2, hP.decls, hP.fresh⟩ (by omega)

theorem Block.emits : ∀ (b : Block) {Γ : List SymRef} {n : Nat} {ss : Symbols} {i : ScopeId},
    Proper S Γ (b.fits S Γ) b.sites b.decls → 4 * Node.depths b.nodes + 2 ≤ n →
    Emits S g i Γ ss (b.nodes.mapM fun k => (rules n).eval k i .normal) (BlockDone S g Γ b)
  | .nil, Γ, n, ss, i, hP, hn => emits_block_nil
  | .cons t b, Γ, n, ss, i, hP, hn => by
    simp only [Block.nodes, Node.depths] at hn
    have hf := hP.fits
    simp only [Block.fits, Bool.and_eq_true] at hf
    obtain ⟨hst, hsb, -⟩ := List.nodup_append.1 hP.sites
    obtain ⟨hdt, hdb, hdisj⟩ := List.nodup_append.1 hP.decls
    refine emits_block_cons hP.sites hP.decls ?_ fun hown ss' => ?_
    · exact t.emits ⟨hP.own, hf.1, hst, hdt, fun x hx => hP.fresh x (List.mem_append_left _ hx)⟩
        (by omega)
    · refine b.emits ⟨fun x hx => ?_, hf.2, hsb, hdb, fun x hx hin => ?_⟩ (by omega)
      · exact (List.mem_append.1 hx).elim (hown x) (hP.own x)
      · rcases List.mem_append.1 hin with hin | hin
        · exact hdisj x (t.exports_sub x hin) x hx rfl
        · exact hP.fresh x (List.mem_append_right _ hx) hin

theorem Arms.emits : ∀ (a : Arms) {Γ : List SymRef} {n : Nat} {ss : Symbols} {i : ScopeId},
    Proper S Γ (a.fits S Γ) a.sites a.decls → 4 * Node.depths a.nodes + 2 ≤ n →
    Quietly S g ss (a.nodes.mapM (ifArm (rules n) (.value .normal) i true)) (ArmsDone S g Γ ss a)
  | .nil, Γ, n, ss, i, hP, hn => by
    have hr : ReadsAt [] [] := nofun
    refine .of_known fun hk => .pure ⟨_, ⟨.refl _, Nat.le_refl _, Nat.le_refl _, hr.sound hk.size_le
      (Nat.le_refl _) (by simp) (by simp) .nil⟩, ⟨rfl, rfl, rfl⟩, ⟨rfl, rfl⟩, id,
      fun w _ _ m => by simp [Node.runArms], runs_nil rfl⟩
  | .other h t, Γ, n, ss, i, hP, hn => by
    simp only [Arms.nodes, Node.depths, Node.depth] at hn
    exact quietly_other (quietly_inScope fun i => t.emits hP (by omega))
  | .test h k x t a, Γ, n, ss, i, hP, hn => by
    simp only [Arms.nodes, Node.depths, Node.depth] at hn
    have hf := hP.fits
    simp only [Arms.fits, Bool.and_eq_true] at hf
    obtain ⟨hst, hsa, -⟩ := List.nodup_append.1 (List.nodup_cons.1 hP.sites).2
    obtain ⟨hdt, hda, -⟩ := List.nodup_append.1 hP.decls
    obtain ⟨n, rfl⟩ := exists_add_two hn
    refine quietly_test (r := rules (n + 2)) hf.1.1 rfl hP.sites hP.decls
      (quietly_inScope fun i => ?_) fun ss' => ?_
    · exact t.emits ⟨hP.own, hf.1.2, hst, hdt, fun x hx => hP.fresh x (List.mem_append_left _ hx)⟩
        (by omega)
    · exact a.emits ⟨hP.own, hf.2, hsa, hda, fun x hx => hP.fresh x (List.mem_append_right _ hx)⟩
        (by omega)

end

end Stmts

end Fragment

end Lifecycle
