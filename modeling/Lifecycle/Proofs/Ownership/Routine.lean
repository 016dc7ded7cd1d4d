import Mathlib.Data.List.Nodup
import Lifecycle.Proofs.Injection.Run
import Lifecycle.Proofs.Ownership.Body

/-!
# Routines keep their books

A routine starts with the parameters that it takes over full (`kept_start`). Its body is worked
through in an outermost scope that destroys these parameters, too (`Admitted.ends_body`). So at the
end every value has ended once, whatever choices were made.
-/

namespace Lifecycle

open InjectM

def Setting.runtime (S : Setting) : Runtime := ⟨S.types, S.symbols⟩

def Setting.taken (S : Setting) : List SymRef := S.routine.taken S.runtime

/-- A parameter that belongs to the caller, or a sink parameter that is a string or owns nothing. -/
def Setting.isParam (S : Setting) (x : SymRef) : Bool :=
  S.isKnown x &&
    (!(S.symbols.get x).has .sink || S.isTaken x || S.types.isBare (S.symbols.get x).type)

namespace Fragment

/-- A routine of the fragment: its parameters are distinct, and no two accesses are at one site. -/
structure Admitted (S : Setting) (t : Stmt) : Prop where
  body : S.routine.body = t.node
  sym : S.routine.sym ≠ none
  given : S.symbols.has S.routine.sym .generated = false
  params : ∀ x, some x ∈ S.routine.params → S.isParam x = true
  distinct : (S.routine.params.filterMap id).Nodup
  fits : t.fits S S.taken = true
  sites : t.sites.Nodup
  decls : t.decls.Nodup

/-! ## Before the routine starts -/

section Start

variable {r : Routine}
variable {S : Setting} {t : Stmt} {w : Runtime} {x : SymRef} {choices : List Bool}

theorem mem_taken : x ∈ S.taken ↔ some x ∈ S.routine.params ∧ (S.symbols.get x).has .sink = true ∧
    S.isTextVar x = true := by
  simp [Setting.taken, Routine.taken, Setting.runtime, Setting.isTextVar]

theorem Admitted.isTaken (h : Admitted S t) (hx : x ∈ S.taken) : S.isTaken x = true := by
  obtain ⟨hp, hs, ht⟩ := mem_taken.1 hx
  have hbare : S.types.isBare (S.symbols.get x).type = false := Bool.eq_false_iff.2 fun hb => by
    rw [Setting.isTextVar, TypeTable.isText_bare hb] at ht
    cases ht
  simpa [hs, hbare] using (Bool.and_eq_true_iff.1 (h.params x hp)).2

theorem isForeign_of_isTaken (h : S.isTaken x = true) : S.isForeign x = false := by
  simp only [Setting.isTaken, Bool.and_eq_true, decide_eq_true_eq] at h
  simp [Setting.isForeign, h.1.1.1.1.1.2, h.1.1.1.1.2, h.1.1.2]

theorem isLocal_of_isTaken (h : S.isTaken x = true) : S.isLocal x = false := by
  simp only [Setting.isTaken, Bool.and_eq_true, decide_eq_true_eq] at h
  simp [Setting.isLocal, h.1.1.1.1.1.2]

theorem isKnown_of_isParam (h : S.isParam x = true) : x < S.symbols.all.size :=
  of_decide_eq_true (Bool.and_eq_true_iff.1 h).1

theorem Admitted.nodup_taken (h : Admitted S t) : S.taken.Nodup := h.distinct.filter _

theorem Admitted.taken_eq (h : Admitted S t) (ht : w.types = S.types)
    (hs : S.symbols.Within w.symbols) : S.routine.taken w = S.taken := by
  refine List.filter_congr fun x hx => ?_
  rw [hs.get_eq (isKnown_of_isParam (h.params x (by simpa using hx))), ht]
  rfl

theorem start_slot_mem (hx : x ∈ r.taken w) :
    (Ledger.start w r choices).slot x = .full ((r.taken w).idxOf x) := by
  have hidx : (r.taken w).idxOf? x = some ((r.taken w).idxOf x) := by
    exact List.findIdx?_eq_some_of_exists ⟨x, hx, by simp⟩
  simp only [Ledger.start, hidx]

theorem start_slot (hx : x ∉ r.taken w) : (Ledger.start w r choices).slot x =
    if (w.symbols.get x).kind = .param ∨ (w.symbols.get x).kind = .global then
      if w.types.isText (w.symbols.get x).type then .lent else .blank else .empty := by
  have hidx : (r.taken w).idxOf? x = none := by simpa using hx
  simp only [Ledger.start, hidx]

theorem kept_start (hn : (r.taken w).Nodup) :
    Ledger.Kept (r.taken w) .blank (Ledger.start w r choices) where
  fine := rfl
  once v := by
    have hcount : (Ledger.start w r choices).owners (r.taken w) v =
        (r.taken w).countP fun x => (r.taken w).idxOf x = v :=
      List.countP_congr fun x hx => by simp [start_slot_mem hx]
    change _ + 0 + 0 = if v < (r.taken w).length then 1 else 0
    rw [hcount]
    split_ifs with hv
    · have hone : ((r.taken w).countP fun x => (r.taken w).idxOf x = v) =
          (r.taken w).count (r.taken w)[v] := by
        refine List.countP_congr fun x hx => ?_
        simp only [decide_eq_true_eq, beq_iff_eq]
        constructor
        · rintro rfl
          simp
        · rintro rfl
          exact hn.idxOf_getElem v hv
      rw [hone, List.count_eq_one_of_mem hn (List.getElem_mem hv)]
    · rw [List.countP_eq_zero.2]
      intro x hx
      have := List.idxOf_lt_length_iff.2 hx
      simp only [decide_eq_true_eq]
      omega
  mine x hx := by simp [start_slot_mem hx]

theorem Admitted.holds_start (h : Admitted S t) (ht : w.types = S.types)
    (hs : S.symbols.Within w.symbols) (A : SymRef → Prop) :
    Holds S S.taken S.taken (fun _ => False) A .blank (Ledger.start w S.routine choices) := by
  have htaken := h.taken_eq ht hs
  have hmem : ∀ {x}, x ∈ S.taken → (Ledger.start w S.routine choices).slot x =
      .full (S.taken.idxOf x) := fun hx => by
    rw [start_slot_mem (htaken ▸ hx), htaken]
  refine ⟨?_, fun x hx _ => by simp [hmem hx], fun x hx hl => ?_, fun x hx => ?_⟩
  · have hkept : Ledger.Kept (S.routine.taken w) .blank (Ledger.start w S.routine choices) :=
      kept_start (htaken ▸ h.nodup_taken)
    rwa [htaken] at hkept
  · rw [isLocal_of_isTaken (h.isTaken hx)] at hl
    cases hl
  · have hnot : x ∉ S.routine.taken w := by
      rw [htaken]
      intro hin
      rw [isForeign_of_isTaken (h.isTaken hin)] at hx
      cases hx
    simp only [Setting.isForeign, Setting.isKnown, Bool.and_eq_true, Bool.or_eq_true,
      decide_eq_true_eq] at hx
    rw [start_slot hnot, hs.get_eq hx.1.1, ht, if_pos (hx.2.elim .inr fun h => .inl h.1)]
    rfl

end Start

/-! ## The whole routine -/

mutual

theorem Stmt.isLocal_decls : ∀ {Γ : List SymRef} (t : Stmt),
    t.fits S Γ = true → x ∈ t.decls → S.isLocal x = true
  | Γ, .seq _ b, hf, hx => b.isLocal_decls hf hx
  | Γ, .declare _ _ v _ y, hf, hx => by
    obtain rfl := List.mem_singleton.1 hx
    exact (Bool.and_eq_true_iff.1 hf).1
  | Γ, .define _ _ v y e, hf, hx => by
    obtain rfl := List.mem_singleton.1 hx
    simp only [Stmt.fits, Expr.fitsIn, Bool.and_eq_true] at hf
    exact hf.1.1.1
  | Γ, .assign _ _ _ _, _, hx => by cases hx
  | Γ, .eval _, _, hx => by cases hx
  | Γ, .discard _ _, _, hx => by cases hx
  | Γ, .cond _ a, hf, hx => a.isLocal_decls (Bool.and_eq_true_iff.1 hf).2 hx
  | Γ, .loop _ _ _ t, hf, hx => t.isLocal_decls (Bool.and_eq_true_iff.1 hf).2 hx

theorem Block.isLocal_decls : ∀ {Γ : List SymRef} (b : Block),
    b.fits S Γ = true → x ∈ b.decls → S.isLocal x = true
  | Γ, .nil, _, hx => by cases hx
  | Γ, .cons t b, hf, hx => by
    rw [Block.fits, Bool.and_eq_true] at hf
    exact (List.mem_append.1 hx).elim (t.isLocal_decls hf.1) (b.isLocal_decls hf.2)

theorem Arms.isLocal_decls : ∀ {Γ : List SymRef} (a : Arms),
    a.fits S Γ = true → x ∈ a.decls → S.isLocal x = true
  | Γ, .nil, _, hx => by cases hx
  | Γ, .other _ t, hf, hx => t.isLocal_decls hf hx
  | Γ, .test _ _ _ t a, hf, hx => by
    rw [Arms.fits, Bool.and_eq_true, Bool.and_eq_true] at hf
    exact (List.mem_append.1 hx).elim (t.isLocal_decls hf.1.2) (a.isLocal_decls hf.2)

end

section Run

variable {S : Setting} {t : Stmt} {w : Runtime} {g : Graph} {c : InjectContext} {st : InjectState}
  {p : Piece} {f : Ledger → Ledger} {choices : List Bool}

theorem Admitted.proper (h : Admitted S t) :
    Proper S S.taken (t.fits S S.taken) t.sites t.decls where
  own x hx := .inr (h.isTaken hx)
  fits := h.fits
  sites := h.sites
  decls := h.decls
  fresh x hx hin := by
    have := t.isLocal_decls h.fits hx
    rw [isLocal_of_isTaken (h.isTaken hin)] at this
    cases this

/-- A body in the outermost scope, which also destroys what was taken over. -/
theorem Admitted.balanced (h : Admitted S t) (hp : Sound S S.taken p)
    (his : p.Is (t.code S) t.sites t.decls)
    (hf : Runs S ⟨(t.code S).toArray⟩ S.taken t.exports p f) (ht : w.types = S.types)
    (hs : S.symbols.Within w.symbols) :
    ((f ((Ledger.start w S.routine choices).clear p.vars)).destroyAll
      (p.finals ++ S.taken).reverse).Balanced := by
  have hP := h.proper
  have hplace : Place S ⟨(t.code S).toArray⟩ p.closed S.taken S.taken (fun _ => False) 0 0 := by
    refine ⟨?_, ⟨h.nodup_taken, fun _ => id, hP.own, fun x hx => isForeign_of_isTaken
      (h.isTaken hx)⟩, .refl _, fun _ _ => .refl _, fun x hx => hP.fresh x (his.decls ▸ hx),
        fun _ => False.elim,
      by simp [Piece.closed], fun x hx ho => ?_⟩
    · change Stands _ 0 0 p.code p.sites
      rw [his.code]
      exact stands_self _ _
    · rcases ho with ho | ho
      · exact absurd hx (hP.fresh x (his.decls ▸ ho))
      · have := isKnown_of_isTaken (h.isTaken hx)
        have := hp.known
        exact absurd ho.1 (by simp only [Piece.closed]; omega)
  have hstart : ∀ A, Holds S S.taken S.taken (fun _ => False) A .blank
      (Ledger.start w S.routine choices) := h.holds_start ht hs
  have hm := (hf (hplace.inside hp) (hplace.holds_clear hp (hstart _))
    fun x hx => by rw [Ledger.clear_slot, if_pos hx]).1
  have hall := hm.kept.destroyAll (hplace.inside hp).room.nodup (F := (p.finals ++ S.taken).reverse)
    fun x hx => List.mem_reverse.1 hx
  refine Ledger.Kept.balanced ((Ledger.kept_append_iff (F := p.finals ++ S.taken) fun x hx =>
    ?_).1 ?_)
  · rw [Ledger.destroyAll_slot, if_pos (List.mem_reverse.2 hx)]
  · simpa using hall

theorem type_of_isParam (h : S.isParam x = true) (hs : (S.symbols.get x).has .sink = true) :
    S.types.isText (S.symbols.get x).type = true ∨
    S.types.isBare (S.symbols.get x).type = true := by
  simp only [Setting.isParam, hs, Setting.isTaken, Bool.and_eq_true, Bool.or_eq_true] at h
  rcases h.2 with (h | h) | h
  · cases h
  · exact .inl h.1.1.2
  · exact .inr h

theorem grows_sinkParams {i : ScopeId} : ∀ (ps : List (Option SymRef)) {ss : Symbols},
    (∀ x, some x ∈ ps → S.isParam x = true) → Grows S g i ss (sinkParams i ps) fun _ vs fs _ =>
      vs = [] ∧
      fs = (ps.filterMap id).filter fun x => (S.symbols.get x).has .sink && S.isTextVar x
  | [], ss, _ => .pure ⟨rfl, rfl⟩
  | none :: ps, ss, hps => grows_sinkParams ps fun x hx => hps x (by simp [hx])
  | some x :: ps, ss, hps => by
    have hx := hps x (by simp)
    have hrest : ∀ {ss}, Grows S g i ss (sinkParams i ps) fun _ vs fs _ => vs = [] ∧ fs = _ :=
      grows_sinkParams ps fun y hy => hps y (by simp [hy])
    have hknown := isKnown_of_isParam hx
    refine .of_known fun hk => .symbols_bind ?_
    rw [hk.get_eq hknown]
    dsimp only
    cases hsink : (S.symbols.get x).has .sink with
    | false => exact hrest.mono fun _ _ _ _ _ ⟨hv, hf⟩ => ⟨hv, by simpa [hsink] using hf⟩
    | true =>
      rw [if_pos rfl]
      refine .after (quietly_isOwning (type_of_isParam hx hsink)) fun b ss1 hs1 hb => ?_
      cases htext : S.isTextVar x with
      | false =>
        rw [if_neg (by rw [hb]; exact Bool.eq_false_iff.1 htext)]
        exact hrest.mono fun _ _ _ _ _ ⟨hv, hf⟩ => ⟨hv, by simpa [hsink, htext] using hf⟩
      | true =>
        rw [if_pos (by rw [hb]; exact htext)]
        refine .after (quietly_symNode x _) fun n ss2 hs2 ⟨v, hn, hv⟩ => ?_
        subst hn
        have hvt : S.types.isText v.type = true := by
          rw [hv, (hk.trans hs1).get_eq hknown]
          exact htext
        refine .after (quietly_destroy hvt) fun d ss3 _ ⟨_, hd⟩ => ?_
        refine .bind (grows_modifyScope (Scope.extend_finals [d]) (.cons hd .nil)) ?_
        rintro _ _ _ _ _ ⟨rfl, rfl, rfl⟩
        exact hrest.mono fun _ _ _ _ _ ⟨hv, hf⟩ => ⟨hv, by simp [hf, hsink, htext]⟩

/-- A routine of the fragment is worked through, and its new body keeps the books. -/
theorem Admitted.ends_body (h : Admitted S t) (hw : Works S ⟨(t.code S).toArray⟩ c st)
    (hs : st.scopes = []) : Ends False (InjectM.body c st) fun out st' =>
      Works S ⟨(t.code S).toArray⟩ c st' ∧ ∀ w : Runtime, w.types = S.types →
        st'.ops.symbols.Within w.symbols → ∀ choices,
          (out.run w (Ledger.start w S.routine choices)).2.Balanced := by
  have hdepth : 4 * t.node.depth + 2 ≤ ruleDepth S.routine.body := by
    rw [h.body, ruleDepth]
    omega
  unfold InjectM.body
  simp only [ends_bind, ends_read, openScope, ends_get, ends_set, ends_pure, hw.routine, hs]
  rw [h.body] at hdepth ⊢
  refine (t.emits h.proper hdepth c _ (hw.scopes _) rfl (by simp)).mono ?_
  rintro out st1 ⟨_, _, ha1, p, rfl, rfl, hp, his, _, f, hf, hruns⟩
  refine (grows_sinkParams S.routine.params h.params c st1 ha1.works rfl
    (ha1.isOpen (by simp))).mono ?_
  rintro _ st2 ⟨_, _, ha2, rfl, rfl⟩
  obtain ⟨ns, hns, hscopes⟩ := (ha1.trans ha2).scopes
  have hst : st2.scopes = [] ++ [Scope.extend p.vars ns { parent := none }] := by
    rw [hscopes, List.append_nil]
    rfl
  refine (ends_closeAround ha2.works hst hns (hf.mono ha2.within)).mono
    fun out' st3 h' => ⟨h'.1.works, fun w ht hin choices => ?_⟩
  obtain ⟨hq, hout⟩ := h'
  rw [hout w ht hin]
  exact h.balanced hp.sound his hruns ht (hq.works.known.trans hin)

end Run

/-- Every routine of the fragment is worked through without an error, and on every run of its new
body each value is released exactly once and nothing is used that is empty or released. What is
remembered of operators stays natural for the routines that follow. -/
theorem inject_balanced {r : Routine} {env : InjectEnv} {sh : Shared} {t : Stmt}
    (hn : sh.ops.Natural env.types) (h : Admitted ⟨env.types, sh.ops.symbols, r⟩ t) :
    ∃ res out, (r.inject env sh).1 = .ok res ∧ res.error = none ∧ res.failed = false ∧
      res.body = some out ∧ (r.inject env sh).2.ops.Natural env.types ∧
      let w : Runtime := ⟨env.types, (r.inject env sh).2.ops.symbols⟩
      ∀ choices, (out.run w (Ledger.start w r choices)).2.Balanced := by
  have hhole : r.body.isHole = false := by
    obtain ⟨d, ds, hd⟩ := t.node_eq
    rw [h.body, hd]
    rfl
  rcases r.inject_cases env sh with ⟨hb, -⟩ | ⟨hs, -⟩ | ⟨e, -, hg, -⟩ | ⟨g, c, st, -, hg, ht, hr,
    hst, heq⟩
  · rw [hhole] at hb
    cases hb
  · rw [h.given] at hs
    cases hs
  · rw [(plain_graph h.body h.fits).1] at hg
    cases hg
  cases (plain_graph h.body h.fits).1.symm.trans hg
  have hw : Works ⟨env.types, sh.ops.symbols, r⟩ ⟨(t.code ⟨env.types, sh.ops.symbols, r⟩).toArray⟩
    c st :=
    ⟨ht, hr, h.sym, (plain_graph h.body h.fits).2, hst.ops ▸ hn,
      hst.ops ▸ .refl _, by rw [hst.oracle], hst.conditions, hst.failed⟩
  obtain ⟨out, st', hbody, hw', hrun⟩ := (h.ends_body hw hst.scopes).exists
  rw [hbody] at heq
  obtain ⟨hres, hops⟩ := Prod.mk.inj heq
  refine ⟨_, out, hres, rfl, hw'.failed, rfl, hops ▸ hw'.natural, fun choices => ?_⟩
  exact hrun _ rfl (hops ▸ .refl _) choices

namespace Rounds

def env : InjectEnv where
  types := {
    types := #[{}, { kind := .string }, { kind := .bool }, { kind := .proc, payload := 1 },
      { kind := .proc, payload := 2 }]
    procs := #[{}, { params := some [{ type := 1, sink := true }] },
      { params := some [{ type := 1 }], result := 1 }] }

def shared : Shared where
  ops.symbols.all := #[{ name := "f", kind := .proc }, { name := "take", kind := .proc, type := 3 },
    { name := "trim", kind := .proc, type := 4 }, { name := "c", owner := some 0, type := 2 },
    { name := "s", owner := some 0, type := 1, flags := .sink },
    { name := "x", kind := .varLocal, owner := some 0, type := 1 },
    { name := "y", kind := .varLocal, owner := some 0, type := 1 }]

def text (x : SymRef) (site : Nat) : Expr := .name { type := 1, site } x

/-- `take(x)` -/
def take (x : SymRef) (site : Nat) : Stmt :=
  .eval (.call {} { type := 3 } 1 (.cons (text x site) .nil))

/-- `while c: (var y = x; take(y); x = s)` -/
def again : Stmt := .loop {} { type := 2, site := 1 } 3 (.seq {}
  (.cons (.define {} {} { type := 1, site := 3 } 6 (text 5 2))
    (.cons (take 6 4) (.cons (.assign {} { type := 1, site := 6 } 5 (text 4 5)) .nil))))

/-- `if c: take(x) else: discard trim(s)` -/
def last : Stmt := .cond {} (.test {} { type := 2, site := 7 } 3 (take 5 8)
  (.other {} (.discard {} (.call { type := 1 } { type := 4 } 2 (.cons (text 4 9) .nil)))))

def body : Stmt := .seq {} (.cons (.define {} {} { type := 1, site := 0 } 5 (.text { type := 1 }))
  (.cons again (.cons last .nil)))

def routine : Routine := { sym := some 0, params := [some 3, some 4], body := body.node }

theorem admitted : Admitted ⟨env.types, shared.ops.symbols, routine⟩ body where
  body := rfl
  sym := by decide
  given := by decide
  params x hx := by
    have : x = 3 ∨ x = 4 := by simpa [routine] using hx
    rcases this with rfl | rfl <;> decide
  distinct := by decide
  fits := by decide
  sites := by decide
  decls := by decide

end Rounds

open Rounds in
/-- Each round hands its string on and copies another in its place; behind the loop the string is
taken over on one branch only. -/
theorem inject_balanced_rounds : ∃ res out, (routine.inject env shared).1 = .ok res ∧
    res.error = none ∧ res.failed = false ∧ res.body = some out ∧
    (routine.inject env shared).2.ops.Natural env.types ∧
    ∀ choices, (out.run ⟨env.types, (routine.inject env shared).2.ops.symbols⟩
      (Ledger.start ⟨env.types, (routine.inject env shared).2.ops.symbols⟩ routine
    choices)).2.Balanced :=
  inject_balanced (OpState.natural_empty _ _) admitted

end Fragment

end Lifecycle
