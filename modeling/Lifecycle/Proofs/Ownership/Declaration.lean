import Lifecycle.Proofs.Ownership.Assignment

/-!
# Declarations with lifecycle operations

A variable is declared at the start of its scope and destroyed at its end (`grows_declare`). With a
value, the declaration stores it (`emits_define`). Without one it stores a default, unless the
variable is written before it is read and is not in a loop (`emits_declare`).
-/

namespace Lifecycle

namespace Fragment

open Lifecycle.Graph InjectM

section Declare

variable {S : Setting} {g : Graph} {i : ScopeId} {ss : Symbols} {Γ : List SymRef} {h hd v : Head}
  {x : SymRef} {e : Expr} {r : Rules}

theorem grows_declare (hl : S.isLocal x = true) (hv : S.types.isText v.type = true) :
    Grows S g i ss (declare (named v x) x i) fun _ vs fs _ => vs = [x] ∧ fs = [x] := by
  have hx : Owned S x := .of (.inl hl)
  have hthread := (isOrdinary_iff.1 hx.isOrdinary).2.1
  have hscope : Grows S g i ss (scope i) fun _ vs fs _ => vs = [] ∧ fs = [] := by
    rintro c st hw rfl hi
    simp only [scope, ends_bind, ends_get]
    rw [List.getElem?_eq_getElem hi]
    exact ⟨[], [], hw.quiet.adds, rfl, rfl⟩
  refine .of_known fun hk => .bind (grows_modifyScope (Scope.extend_vars [x]) .nil) ?_
  rintro _ _ _ _ _ ⟨rfl, rfl, rfl⟩
  refine .after (T := fun _ ss => ss = _)
    (fun c st hw hs => ⟨hw.frame rfl rfl rfl rfl rfl, hs⟩) fun _ _ _ hs => .symbols_bind ?_
  subst hs
  rw [hk.get_eq hx.known]
  dsimp only
  rw [hthread, if_neg Bool.false_ne_true, kind_of_isLocal hl]
  refine .bind hscope ?_
  rintro sc _ _ ss1 _ ⟨rfl, rfl⟩
  rw [if_neg (by simp)]
  refine .after (quietly_destroy hv) fun n ss2 _ hn => (grows_addFinal hn.1 hn.2).mono ?_
  rintro _ _ _ _ _ ⟨rfl, rfl, -⟩
  exact ⟨rfl, rfl⟩

/-- What a variable is declared with: the value that is given, or a default if it may need one. -/
def initial (x : SymRef) (type : TypeId) (v : Head) (ini : Node) : InjectM Node := do
  if ini.isKind .empty then
    if ← needsDefault x then defaultValue type v.span else return ini
  else return ini

theorem initial_bind (jp : Node → InjectM β) : initial x type v ini >>= jp =
    if ini.isKind .empty then do
      if ← needsDefault x then jp (← defaultValue type v.span) else jp ini
    else jp ini := by
  unfold initial
  split_ifs
  · rw [bind_assoc]
    congr 1
    funext b
    split_ifs <;> rfl
  · rfl

theorem grows_declaration {T : Node → Symbols → Prop} (hl : S.isLocal x = true)
    (hv : S.types.isText v.type = true)
    (hini : Quietly S g ss (initial x (S.symbols.get x).type v (.node h ks)) T)
    (hstore : ∀ ini ss1 ss2, ss.Within ss1 → ss1.Within ss2 → T ini ss1 → Grows S g i ss2
      (if ini.isKind .empty then return [] else return [← r.store (named v x) ini i true])
      fun outs vs fs ss' => Q outs (x :: vs) (x :: fs) ss') :
    Grows S g i ss (declaration r i (.node hd [named v x, .node h ks])) Q := by
  have hx : Owned S x := .of (.inl hl)
  obtain ⟨hcursor, -, hnoInit, hcompile, -⟩ := isOrdinary_iff.1 hx.isOrdinary
  have htext : S.types.isText (S.symbols.get x).type = true := by
    simp only [Setting.isLocal, Bool.and_eq_true] at hl
    exact hl.1.2
  refine .of_known fun hk => .lift_bind rfl (.lift_bind rfl (.lift_bind rfl (.symbols_bind ?_)))
  have hsymbol := hk.get_eq hx.known
  have hct : ss.has (some x) .compileTime = false := by
    change (ss.get x).has .compileTime = false
    rw [hsymbol, hcompile]
  rw [if_neg (by simp [hct])]
  refine .lift_bind rfl (.lift_bind (a := x) rfl ?_)
  rw [hsymbol]
  extract_lets symbol other jp
  have hall : Grows S g i ss (initial x (S.symbols.get x).type v (.node h ks) >>= jp) Q := by
    refine .after hini fun ini ss1 hs1 hT => ?_
    refine .after (quietly_isOwning (.inl htext)) fun b ss2 hs2 hb => ?_
    rw [hb, htext, hcursor, if_neg (by simp)]
    refine .bind (grows_declare hl hv) ?_
    rintro _ _ _ ss3 hs3 ⟨rfl, rfl⟩
    exact hstore ini ss1 ss3 hs1 (hs2.trans hs3) hT
  rw [initial_bind] at hall
  simpa [symbol, hnoInit] using hall

/-- Each item of a section is declared on its own. -/
theorem grows_declareAll (hit : Grows S g i ss (declaration r i it) fun outs vs fs ss' =>
      (∃ out, outs = [out] ∧ Q out vs fs ss') ∨
        outs = [] ∧ Quietly S g ss' (stmts h.span []) fun out ss'' => Q out vs fs ss'') :
    Grows S g i ss (declareAll r (.node h [it]) i) Q := by
  refine .lift_bind rfl ?_
  simp only [Node.kids, List.mapM_cons, List.mapM_nil, bind_assoc, pure_bind]
  refine .before hit fun outs vs fs ss' _ hout => ?_
  rcases hout with ⟨out, rfl, hQ⟩ | ⟨rfl, hQ⟩
  · exact .pure hQ
  · exact hQ

theorem quietly_needsDefault (hl : S.isLocal x = true) :
    Quietly S g ss (needsDefault x) fun b _ => b = false → ¬ g.Awaits x 0 := by
  have hx : Owned S x := .of (.inl hl)
  have htext : S.types.isText (S.symbols.get x).type = true := by
    simp only [Setting.isLocal, Bool.and_eq_true] at hl
    exact hl.1.2
  refine .of_known fun hk => .symbols_bind (.bind (P := fun _ _ => True)
    (fun c st hw _ => ⟨hw.quiet, trivial⟩) fun b ss1 _ _ => ?_)
  have hsymbol := hk.get_eq hx.known
  split_ifs
  · rw [hsymbol]
    refine .bind (quietly_isOwning (.inl htext)) fun b ss2 _ hb => ?_
    rw [if_pos (by rw [hb, htext])]
    exact .pure (by simp)
  · refine .get_bind fun c st hw _ => .pure fun hb => ?_
    have hplain := hw.plain
    rw [← hw.graph] at hplain ⊢
    refine Oracle.not_awaits_of_mayBeUninit hplain ?_ hb
    rw [hsymbol, kind_of_isLocal hl]
    decide

theorem grows_store_default {k cd : Head} {op : SymRef} (hv : S.types.isText v.type = true)
    (hk : k.kind = .call) (hc : cd.type = 0) (hop : op < ss.all.size)
    (hmade : (ss.get op).Made Magic.default.text .default) :
    Grows S g i ss ((rules (n + 3)).store (named v x) (.node k [named cd op]) i true)
      fun out vs fs ss' => vs = [] ∧ fs = [] ∧ Performs S ss' out (·.store x (.held .blank)) := by
  obtain ⟨k, rfl⟩ : ∃ k' : Head, k = { k' with kind := .call } := ⟨k, by rw [← hk]⟩
  change Grows S g i ss (do
    modify fun s => { s with otherRead := none }
    sink (named v x) (← (rules (n + 2)).eval (.node { k with kind := .call } [named cd op]) i
      .consumed)
      true) _
  refine .after quietly_forget fun _ ss1 hs1 _ => .before
    (P := fun out vs fs ss' => vs = [] ∧ fs = [] ∧ Does S ss' out fun m => (.held .blank, m))
    (grows_evalCall (o := none) (by rw [hc, signature?_zero])
      rfl (fun ss' hs => ?_) (fun ss' hs => ?_) (.pure (Q := fun args vs fs ss' => args = [] ∧
        vs = [] ∧
        fs = []) ⟨rfl, rfl, rfl⟩) ?_ ?_) ?_
  · rw [(hs1.trans hs).get_eq hop, hmade.magic]
    decide
  · have hno : ss'.has (some op) .canRaise = false := by
      change (ss'.get op).has .canRaise = false
      rw [(hs1.trans hs).get_eq hop, Symbol.has, hmade.flags]
      decide
    rw [named, mayRaise_call, Symbols.marked, if_neg (by simp [hno]), hc, procInfo?_zero]
    rfl
  · rintro args vs fs ss' ⟨rfl, -, -⟩
    rfl
  · rintro _ _ _ ss2 hd hs2 ⟨rfl, rfl, rfl⟩ hkind - ss3 hs3
    have hs := (hs1.trans hs2).trans hs3
    refine .pure ⟨rfl, rfl, does_default hkind (Nat.lt_of_lt_of_le hop hs.size_le) ?_⟩
    rw [hs.get_eq hop]
    exact hmade.role_default
  · rintro ini _ _ ss2 _ ⟨rfl, rfl, hini⟩
    refine (quietly_sink hini hv (.inl rfl)).mono fun out ss3 _ hout => ⟨rfl, rfl, ?_⟩
    exact (hout.resolve_right (by simp)).1

theorem emits_declare (hf : (Stmt.declare h d v k x).fits S Γ = true)
    (hn : 4 * (Stmt.declare h d v k x).node.depth + 2 ≤ n) :
    Emits S g i Γ ss ((rules n).eval (Stmt.declare h d v k x).node i .normal)
      (StmtDone S g Γ (.declare h d v k x)) := by
  simp only [Stmt.node, Node.depth] at hn
  obtain ⟨n, rfl⟩ := Nat.exists_eq_add_of_le' (Nat.le_trans (by omega : 4 ≤ _) hn)
  simp only [Stmt.fits, Bool.and_eq_true] at hf
  obtain ⟨hl, hv⟩ := hf
  refine Grows.of_known fun hk => grows_declareAll (grows_declaration (T := fun ini ss' =>
    (∃ k cd op, k.kind = .call ∧ cd.type = 0 ∧ ini = .node k [named cd op] ∧ op < ss'.all.size ∧
      (ss'.get op).Made Magic.default.text .default) ∨
      ini.isKind .empty ∧ ¬ g.Awaits x 0) hl hv ?_ ?_)
  · refine .bind (quietly_needsDefault hl) fun b ss1 _ hb => ?_
    split_ifs with hdefault
    · exact (quietly_magic .default _ _ _).mono fun ini ss2 _ hini => .inl hini
    · exact .pure (.inr ⟨by simp, hb (by simpa using hdefault)⟩)
  intro ini ss1 ss2 hs1 hs2 hini
  -- either way the variable is all that is added
  have hpiece : ∀ {ss3}, ss2.Within ss3 → Emitted S Γ ss
      ⟨[], [], [x], ss.all.size, ss3.all.size, [x], [x]⟩ ss3 := fun hs3 =>
    have hs := (hs1.trans hs2).trans hs3
    ⟨hs, Nat.le_refl _, Nat.le_refl _, ⟨smooth_nil, by simp, by simpa using hl, hk.size_le,
      hs.size_le, by simp [Piece.Owns], by simp, by simp⟩⟩
  rcases hini with ⟨k, cd, op, hk, hc, rfl, hop, hmade⟩ | ⟨hempty, hawaits⟩
  · rw [if_neg (by simp [hk])]
    refine .before (grows_store_default hv hk hc (Nat.lt_of_lt_of_le hop hs2.size_le)
      (by rwa [hs2.get_eq hop])) ?_
    rintro out _ _ ss3 hs3 ⟨rfl, rfl, hout⟩
    exact .pure (.inl ⟨out, rfl, _, rfl, rfl, hpiece hs3, ⟨rfl, rfl, rfl⟩, by simp [Stmt.exports],
      _, hout, runs_default rfl rfl rfl rfl⟩)
  · rw [if_pos hempty]
    refine .pure (.inr ⟨rfl, (quietly_seq rfl .nil).mono fun out ss3 hs3 hout => ?_⟩)
    exact ⟨_, rfl, rfl, hpiece hs3, ⟨rfl, rfl, rfl⟩, by simp [Stmt.exports], _, hout,
      runs_declare rfl rfl rfl hawaits⟩

theorem emits_define (hΓ : OwnsAll S Γ) (hf : (Stmt.define h d v x e).fits S Γ = true) (hx : x ∉ Γ)
    (hs : (Stmt.define h d v x e).sites.Nodup)
    (hn : 4 * (Stmt.define h d v x e).node.depth + 2 ≤ n) :
    Emits S g i Γ ss ((rules n).eval (Stmt.define h d v x e).node i .normal)
      (StmtDone S g Γ (.define h d v x e)) := by
  obtain ⟨n, rfl⟩ := exists_add_two hn
  rw [Stmt.fits] at hf
  have hl : S.isLocal x = true ∧ S.types.isText v.type = true := by
    simp only [Expr.fitsIn, Bool.and_eq_true] at hf
    exact hf.1.1
  have hdepth : 4 * e.node.depth + 3 ≤ n + 1 := by
    simp only [Stmt.node, Node.depth, Node.depths] at hn
    omega
  obtain ⟨k, ks, he, hk⟩ : ∃ k ks, e.node = .node k ks ∧ k.kind ≠ .empty := by
    cases e <;> exact ⟨_, _, rfl, by simp⟩
  have hempty : e.node.isKind .empty = false := by
    rw [he]
    simp [hk]
  refine grows_declareAll ?_
  rw [he]
  refine grows_declaration (T := fun ini _ => ini = e.node) hl.1 hl.2 ?_ ?_
  · rw [← he, initial, if_neg (by simp [hempty])]
    exact .pure rfl
  rintro _ ss1 ss2 hs1 hs2 rfl
  rw [if_neg (by simp [hempty])]
  have hstores : (Stmt.define h d v x e).Stores S v x [x] e := ⟨rfl, rfl, rfl, rfl⟩
  refine .before (hstores.grows hΓ ⟨hl.1, .inl ⟨rfl, rfl, hx⟩⟩ hf (by simp) hs hdepth) ?_
  rintro out vs fs ss3 _ ⟨p, hvs, hfs, hp, hout⟩
  exact .pure (.inl ⟨out, rfl, p, hvs, hfs, hp.earlier (hs1.trans hs2), hout⟩)

end Declare

end Fragment

end Lifecycle
