import Lifecycle.Proofs.Calls.Raising
import Lifecycle.Proofs.Ownership.Temporary

/-!
# Expressions with lifecycle operations

An expression is worked through into code that yields its value in the sense of `Yields`
(`Expr.emits`). A name is read, moved from or copied; the result of a call is taken over or kept in
a temporary; arguments are emitted one after the other, each as its parameter asks for.
-/

namespace Lifecycle

namespace Fragment

open Lifecycle.Graph InjectM

/-! ## Calls -/

def DoesArgs (S : Setting) (ss : Symbols) (ps : List Param) (ns : List Node)
    (f : Ledger → Val × Ledger) : Prop :=
  ∀ w : Runtime, w.types = S.types → ss.Within w.symbols → ∀ m, Node.runArgs w ps ns m = (f m).2

section Calls

variable {S : Setting} {g : Graph} {i : ScopeId} {ss : Symbols} {Γ : List SymRef} {r : Rules}
  {h cd : Head} {f : SymRef} {ks : List Node} {m : Mode} {as : Args}

theorem grows_evalCall {P : List Node → List SymRef → List SymRef → Symbols → Prop}
    (hsig : signature? S.types cd.type = .ok o)
    (hr : r.eval (named cd f) i .normal = pure (named cd f))
    (hmagic : ∀ ss', ss.Within ss' → (ss'.get f).magic ≠ .new)
    (hraise : ∀ ss', ss.Within ss' →
      mayRaise ss' S.types (.node h (named cd f :: ks)) = .ok false)
    (hargs : Grows S g i ss (arguments r i ((o.map (·.params.items)).getD []) ks) P)
    (hlen : ∀ args vs fs ss', P args vs fs ss' → args.length = ks.length)
    (hout : ∀ args vs fs ss' hd, ss.Within ss' → P args vs fs ss' → hd.kind = h.kind →
      hd.type = h.type → ∀ ss'', ss'.Within ss'' → Grows S g i ss''
        (if m = .normal then keepUntilEnd (.node hd (named cd f :: args)) i
          else pure (.node hd (named cd f :: args)))
        fun out vs' fs' ss => Q out (vs ++ vs') (fs ++ fs') ss) :
    Grows S g i ss (evalCall r (.node h (named cd f :: ks)) i m) Q := by
  unfold evalCall
  refine .lift_bind rfl (.lift_bind rfl (.read_bind fun c hc => ?_))
  rw [hc]
  refine .lift_bind hsig (.lift_bind rfl (.bind hargs fun args vs fs ss1 hs1 hP => ?_))
  rw [if_pos rfl]
  refine .symbols_bind (.lift_bind rfl (.after (T := fun b _ => b = false)
    (.pure (decide_eq_false (hmagic ss1 hs1))) fun b ss2 hs2 hb => ?_))
  subst hb
  dsimp only
  rw [if_neg Bool.false_ne_true, hr, pure_bind]
  have hnode : Quietly S g ss2 (withKids (.node h (named cd f :: ks)) (named cd f :: args))
    fun out _ =>
      ∃ s, out = .node { h with site := s } (named cd f :: args) := by
    refine .lift_bind rfl ?_
    have hdrop : (Node.node h (named cd f :: ks)).kids.drop (named cd f :: args).length = [] := by
      simp [Node.kids, hlen args vs fs ss1 hP]
    rw [hdrop, List.map_nil, List.append_nil]
    exact quietly_node _ _
  refine .after hnode fun out ss3 hs3 ⟨s, hnew⟩ => ?_
  subst hnew
  have hs := hs2.trans hs3
  refine .symbols_bind (.read_bind fun c hc => ?_)
  rw [hc]
  refine .lift_bind (hraise ss3 (hs1.trans hs)) ?_
  rw [if_neg Bool.false_ne_true]
  exact hout args vs fs ss1 { h with site := s } hs1 hP rfl rfl ss3 hs

theorem signature?_callee (hf : S.isCallee cd f = true) :
    ∃ p, signature? S.types cd.type = .ok (some p) ∧ S.types.paramsOf cd.type = p.params.items ∧
      p.raises = false ∧ S.types.procInfo? cd.type = .ok (some p) ∧
      ∀ q ∈ p.params.items, q.compileTime = false := by
  obtain ⟨-, -, -, -, -, hk, p, hp, hr, hc⟩ := isCallee_iff.1 hf
  refine ⟨p, ?_, by rw [TypeTable.paramsOf, hp], hr, hp, hc⟩
  rw [signature?_eq (by rw [hk]; rfl) (by rw [hk]; decide), hp]

theorem does_call (hk : h.kind = .call) (hf : S.isCallee cd f = true) (hs : S.symbols.Within ss)
    (ha : DoesArgs S ss (S.types.paramsOf cd.type) ks F) :
    Does S ss (.node h (named cd f :: ks)) fun m => result (S.types.isText h.type) (F m).2 := by
  obtain ⟨hknown, -, hm, hgen, -⟩ := isCallee_iff.1 hf
  simp only [Setting.isKnown, decide_eq_true_eq] at hknown
  intro w ht hw
  funext m
  have hrole : (w.symbols.get f).role = .routine := by
    rw [(hs.trans hw).get_eq hknown, Symbol.role, hm, hgen]
    rfl
  have hargs := ha w ht hw m
  rw [Node.run, hk, named]
  simp only [Node.runCall, if_true, hrole, result]
  rw [ht, ← hargs]

theorem mayRaise_callee (hf : S.isCallee cd f = true) (hs : S.symbols.Within ss) :
    mayRaise ss S.types (.node { h with kind := .call } (named cd f :: ks)) = .ok false := by
  obtain ⟨hknown, -, -, -, hraise, -⟩ := isCallee_iff.1 hf
  obtain ⟨p, -, -, hr, hp, -⟩ := signature?_callee hf
  simp only [Setting.isKnown, decide_eq_true_eq] at hknown
  have hno : ss.has (some f) .canRaise = false := by
    change (ss.get f).has .canRaise = false
    rw [hs.get_eq hknown, hraise]
  rw [named, mayRaise_call, Symbols.marked, if_neg (by simp [hno]), hp]
  exact congrArg Except.ok hr

def ArgsDone (S : Setting) (g : Graph) (Γ : List SymRef) (ps : List Param) (as : Args)
    (outs : List Node) (p : Piece) (ss : Symbols) : Prop :=
  p.Is (as.code S) as.sites [] ∧ outs.length = as.nodes.length ∧
    ∃ F, DoesArgs S ss ps outs F ∧ Yields S g Γ p false F

/-- What is known of an expression that was worked through; with `own` its value is taken over. -/
def ExprDone (S : Setting) (g : Graph) (Γ : List SymRef) (own : Bool) (e : Expr) (out : Node)
    (p : Piece) (ss : Symbols) : Prop :=
  p.Is (e.code S) e.sites [] ∧ ∃ F, Does S ss out F ∧ Yields S g Γ p own F

/-- The result of a call is taken over or, where nobody does, kept in a temporary. -/
theorem emits_call (hf : S.isCallee cd f = true)
    (hr : r.eval (named cd f) i .normal = pure (named cd f))
    (ht : S.types.isText h.type = true ∨ S.types.isBare h.type = true)
    (ha : Emits S g i Γ ss (arguments r i (S.types.paramsOf cd.type) as.nodes)
      (ArgsDone S g Γ (S.types.paramsOf cd.type) as)) :
    Emits S g i Γ ss (evalCall r (Expr.node (.call h cd f as)) i m)
      (ExprDone S g Γ (decide (m ≠ .normal)) (.call h cd f as)) := by
  obtain ⟨info, hsig, hps, -⟩ := signature?_callee hf
  obtain ⟨hknown, -, hm, -⟩ := isCallee_iff.1 hf
  simp only [Setting.isKnown, decide_eq_true_eq] at hknown
  refine Grows.of_known fun hk => grows_evalCall (o := some info) hsig hr (fun ss' hs => ?_)
    (fun ss' hs => mayRaise_callee hf (hk.trans hs))
    (by rw [Option.map_some, Option.getD_some, ← hps]; exact ha) ?_ ?_
  · rw [(hk.trans hs).get_eq hknown, hm]
    decide
  · rintro args _ _ ss1 ⟨p, -, -, -, -, hlen, -⟩
    exact hlen
  rintro args _ _ ss1 hd hs1 ⟨p, rfl, rfl, hp, his, -, F, hF, hy⟩ hkind htype ss2 hs2
  have hp2 := hp.later hs2
  have hF2 := (does_call hkind hf (hk.trans hs1) hF).mono hs2
  have hy2 := hy.call (S.types.isText hd.type)
  rw [← htype] at ht
  by_cases hm : m = .normal
  · subst hm
    rw [if_pos rfl]
    rcases ht with ht | ht
    · refine (grows_keepUntilEnd ht hF2).mono ?_
      rintro out _ _ ss3 hs3 ⟨t, rfl, rfl, hlo, hhi, hout⟩
      have hrange : p.hi ≤ t ∧ t < ss3.all.size := ⟨Nat.le_trans hp2.hi hlo, hhi⟩
      exact ⟨p.withTemp t ss3.all.size, rfl, rfl, ⟨hp2.within.trans hs3, hp.lo, Nat.le_refl _,
        hp.sound.withTemp his.decls hrange⟩, ⟨his.code, his.sites, his.decls⟩, _, hout,
        hy2.keepIn hp.sound his.decls hrange⟩
    · refine .of_quietly (quietly_keepUntilEnd_bare ht) fun out ss3 hs3 hout => ?_
      subst hout
      refine ⟨p, by simp, by simp, hp2.later hs3, his, _, hF2.mono hs3, hy2.drop fun m => ?_⟩
      simp [result, TypeTable.isText_bare ht, Val.flight]
  · rw [if_neg hm]
    exact .pure ⟨p, by simp, by simp, hp2, his, _, hF2, by simpa [hm] using hy2⟩

end Calls

/-! ## Names -/

section Names

variable {S : Setting} {g : Graph} {i : ScopeId} {ss : Symbols} {Γ : List SymRef} {p : Piece}
  {r : Rules} {h : Head} {x : SymRef} {own : Bool}

theorem Owned.not_lent (hx : Owned S x) : ¬ Lent S x := by
  intro hl
  rcases hx.kind with hk | ⟨hk, hs⟩ <;> rcases hl.kind with hk' | ⟨hk', hs'⟩ <;> rw [hk] at hk'
  · cases hk'
  · cases hk'
  · cases hk'
  · rw [hs] at hs'
    cases hs'

theorem readCode_owned (hx : Owned S x) : readCode S h x = [.use (named h x)] := by
  have hlocal : S.symbols.isLocal (some x) S.routine.sym = true := by
    change (S.symbols.get x).isLocal S.routine.sym = true
    rcases hx.kind with hk | ⟨hk, -⟩ <;> simp [Symbol.isLocal, hx.owner, hk, SymKind.isStorage]
  rw [readCode, if_pos hlocal]

section Fits

variable (hΓ : OwnsAll S Γ) (he : (Expr.name h x).fits S Γ = true)

include hΓ he

theorem name_cases : (S.types.isText h.type = true ∧ (x ∈ Γ ∧ Owned S x ∨ S.isForeign x = true ∧
    Lent S x)) ∨ S.types.isBare h.type = true ∧ S.isForeign x = true ∧ S.isTextVar x = false := by
  rw [Expr.fits] at he
  by_cases hx : x ∈ Γ
  · rw [if_pos (List.contains_iff_mem.2 hx)] at he
    exact .inl ⟨he, .inl ⟨hx, Owned.of (hΓ x hx)⟩⟩
  · rw [if_neg (by simpa using hx), Bool.and_eq_true] at he
    obtain ⟨hfor, he⟩ := he
    cases ht : S.isTextVar x with
    | true => exact .inl ⟨by rwa [if_pos ht] at he, .inr ⟨hfor, Lent.of hfor ht⟩⟩
    | false => exact .inr ⟨by rwa [if_neg (by simp [ht])] at he, hfor, rfl⟩

theorem readable_name (hp : p.code = readCode S h x) : Readable S Γ p x := by
  rcases name_cases hΓ he with ⟨-, ⟨hx, hown⟩ | ⟨hfor, -⟩⟩ | ⟨-, hfor, -⟩
  · exact .inl ⟨hx, h, [], by rw [hp, readCode_owned hown]⟩
  · exact .inr hfor
  · exact .inr hfor

theorem emits_name : Emits S g i Γ ss (pure (named h x)) (ExprDone S g Γ false (.name h x)) := by
  refine .pure (Expr.readsAt (S := S) (.name h x)) ?_
  rintro p rfl -
  exact ⟨⟨rfl, rfl, rfl⟩, _, does_named, yields_name (readable_name hΓ he rfl)
    (Expr.readsAt _).silent⟩

/-- A name for a sink parameter: it is moved from at its last read and copied elsewhere. -/
theorem emits_sinkArg_name (hr : r.eval (named h x) i .normal = pure (named h x)) :
    Emits S g i Γ ss (sinkArg r (named h x) i) (ExprDone S g Γ true (.name h x)) := by
  have hreads : ReadsAt (Expr.name h x).sites ((Expr.name h x).code S) := Expr.readsAt _
  refine .read_bind fun c _ => .lift_bind (a := false) rfl ?_
  rw [if_neg Bool.false_ne_true]
  refine .lift_bind rfl ?_
  rw [if_neg (by simp [named, Node.isConstructor, NodeKind.isLiteral]), hr]
  refine .after (quietly_isVoid _) fun void ss1 _ hvoid => ?_
  subst hvoid
  rcases name_cases hΓ he with ⟨ht, hx⟩ | ⟨hb, hfor, hnot⟩
  · rw [if_neg (by simp [TypeTable.isEmpty_text ht])]
    refine .after (quietly_isOwning (.inl ht)) fun b ss2 _ hb => ?_
    rw [if_neg (by simp [hb, ht])]
    refine .after (quietly_canTakeOver ht (hx.imp And.right And.right)) fun b ss3 _ hmove => ?_
    split_ifs with hb
    · obtain ⟨hown, hlast⟩ := hmove hb
      obtain ⟨hxΓ, -⟩ := hx.resolve_right fun hl => hown.not_lent hl.2
      refine .of_quietly hreads (quietly_moveOut ht) ?_
      rintro out ss4 p ⟨t, hlo, hhi, hout⟩ rfl hs
      exact ⟨⟨rfl, rfl, rfl⟩, _, hout, yields_moveOut hxΓ (readCode_owned hown)
        (by simp [Expr.sites])
        hlast ⟨hlo, hhi⟩ (by simp) hs.known⟩
    · refine .of_grows hreads (grows_copyToSink ht hr) ?_
      rintro out _ _ ss4 ⟨t, rfl, rfl, hlo, hhi, hout⟩
      refine ⟨by simpa using ⟨hlo, hhi⟩, by simp, by simp, ?_⟩
      rintro p rfl hs
      exact ⟨⟨rfl, rfl, rfl⟩, _, hout, yields_copyOut (readable_name hΓ he rfl) hreads.silent
        ⟨hlo, hhi⟩
        (by simp) hs.known⟩
  · have hdone : ∀ {ss}, Emits S g i Γ ss (pure (named h x)) (ExprDone S g Γ true (.name h x)) := by
      refine .pure hreads ?_
      rintro p rfl -
      exact ⟨⟨rfl, rfl, rfl⟩, _, does_named, yields_bare hfor hnot hreads.silent⟩
    split_ifs
    · exact hdone
    refine .after (quietly_isOwning (.inr hb)) fun b ss2 _ hown => ?_
    rw [if_pos (by simp [hown, TypeTable.isText_bare hb])]
    refine .after (T := fun k _ => k = S.types.shapeOf h.type)
      (.shapeOf_bind (.pure rfl)) fun k ss3 _ hk => ?_
    rw [if_neg (by rw [hk]; exact TypeTable.shapeOf_bare hb)]
    exact hdone

end Fits

theorem emits_text : Emits S g i Γ ss (pure (Expr.text h).node) (ExprDone S g Γ own (.text h)) := by
  refine .pure (Expr.readsAt (S := S) (.text h)) ?_
  rintro p rfl -
  refine ⟨⟨rfl, rfl, rfl⟩, _, fun w _ _ => ?_, yields_const (u := .literal) rfl rfl rfl⟩
  funext m
  rw [Expr.node, Node.run]

end Names

/-! ## Expressions -/

section Exprs

variable {S : Setting} {g : Graph} {i : ScopeId} {ss : Symbols} {Γ : List SymRef}

theorem arguments_cons (hps : ∀ q ∈ ps, q.compileTime = false) (a : Node)
    (as : List Node) : arguments r i ps (a :: as) = do
      let a ← r.eval a i (if takesFirst ps then .sinkArg else .normal)
      let as ← arguments r i ps.tail as
      return a :: as := by
  cases ps with
  | nil => rfl
  | cons q ps =>
    have hq := hps q (by simp)
    rw [arguments]
    simp only [hq]
    rfl

/-- What is deep enough for a node has two rules to spare. -/
theorem exists_add_two {k n : Nat} (h : k + 2 ≤ n) : ∃ m, n = m + 2 :=
  Nat.exists_eq_add_of_le' (Nat.le_trans (Nat.le_add_left 2 k) h)

mutual

theorem Expr.emits (hΓ : OwnsAll S Γ) : ∀ (e : Expr) {n : Nat} {ss : Symbols} {m : Mode},
    e.fits S Γ = true → e.sites.Nodup → 4 * e.node.depth + 2 ≤ n →
    (m = .consumed → ∀ h x, e ≠ .name h x) →
    Emits S g i Γ ss ((rules n).eval e.node i m) (ExprDone S g Γ (decide (m ≠ .normal)) e)
  | .name h x, n, ss, m, hf, _, hn, hm => by
    obtain ⟨n, rfl⟩ := exists_add_two hn
    cases m with
    | normal => exact emits_name hΓ hf
    | consumed => exact absurd rfl (hm rfl h x)
    | sinkArg => exact emits_sinkArg_name hΓ hf rfl
  | .text h, n, ss, m, hf, _, hn, hm => by
    obtain ⟨n, rfl⟩ := exists_add_two hn
    cases m with
    | normal => exact emits_text
    | consumed => exact emits_text
    | sinkArg => exact emits_text
  | .call h cd f as, n, ss, m, hf, hs, hn, hm => by
    obtain ⟨n, rfl⟩ := exists_add_two hn
    simp only [Expr.fits, Bool.and_eq_true, Bool.or_eq_true] at hf
    obtain ⟨⟨hcallee, ht⟩, hargs⟩ := hf
    obtain ⟨info, -, hparams, -, -, hps⟩ := signature?_callee hcallee
    have hdepth : 4 * Node.depths as.nodes + 2 ≤ n := by
      simp only [Expr.node, Node.depth, Node.depths] at hn
      omega
    have ha : ∀ k, n ≤ k → Emits S g i Γ ss (arguments (rules k) i
      (S.types.paramsOf cd.type) as.nodes)
        (ArgsDone S g Γ (S.types.paramsOf cd.type) as) := fun k hk =>
      as.emits hΓ hargs (hparams ▸ hps) hs (Nat.le_trans hdepth hk)
    cases m with
    | normal => exact emits_call hcallee rfl ht (ha (n + 1) (Nat.le_succ n))
    | consumed => exact emits_call hcallee rfl ht (ha (n + 1) (Nat.le_succ n))
    | sinkArg =>
      obtain ⟨n, rfl⟩ := exists_add_two hdepth
      exact emits_call (m := .sinkArg) hcallee rfl ht (ha _ (Nat.le_refl _))

theorem Args.emits (hΓ : OwnsAll S Γ) : ∀ (as : Args) {n : Nat} {ps : List Param} {ss : Symbols},
    as.fits S Γ = true → (∀ q ∈ ps, q.compileTime = false) → as.sites.Nodup →
    4 * Node.depths as.nodes + 2 ≤ n →
    Emits S g i Γ ss (arguments (rules n) i ps as.nodes) (ArgsDone S g Γ ps as)
  | .nil, n, ps, ss, hf, hps, _, hn => by
    refine .pure (Args.readsAt (S := S) .nil) ?_
    rintro p rfl -
    refine ⟨⟨rfl, rfl, rfl⟩, rfl, _, fun w _ _ m => ?_, yields_const
      (u := .held .blank) rfl rfl rfl⟩
    rw [Node.runArgs]
  | .cons e as, n, ps, ss, hf, hps, hs, hn => by
    simp only [Args.fits, Bool.and_eq_true] at hf
    simp only [Args.nodes, Node.depths] at hn
    obtain ⟨hse, hsas, -⟩ := List.nodup_append.1 hs
    rw [Args.nodes, arguments_cons hps]
    have hmode : (if takesFirst ps then Mode.sinkArg else Mode.normal) = .consumed →
        ∀ h x, e ≠ .name h x := by
      split_ifs <;> simp
    refine .bind (E := []) (e.emits hΓ hf.1 hse (by omega) hmode) fun a p ss1 hp ⟨his, F, hF, hy⟩ =>
      ?_
    have hown : decide ((if takesFirst ps then Mode.sinkArg else Mode.normal) ≠ .normal) =
        takesFirst ps := by
      cases takesFirst ps <;> rfl
    rw [hown] at hy
    refine .before (as.emits hΓ hf.2 (fun q hq => hps q (List.mem_of_mem_tail hq)) hsas (by omega))
      fun outs q ss2 hq ⟨hisq, hlen, F', hF', hy'⟩ => .pure fun _ => ?_
    have hap : Apart p q := hp.apart hq his hisq hs .nil
    refine ⟨p.append q, rfl, rfl, hp.append (E := []) hq hap (by simp), his.append hisq,
      congrArg Nat.succ hlen, andThen (takesFirst ps) F F', fun w ht hw m => ?_, ?_⟩
    · rw [Node.runArgs, hF w ht (hq.within.trans hw)]
      exact hF' w ht hw _
    · exact hy.andThen hy' hp.sound hq.sound hap hisq.decls

end

end Exprs

end Fragment

end Lifecycle
