import Lifecycle.Proofs.Ownership.Expression

/-!
# Stores with lifecycle operations

A value that is stored is taken over when it was produced or when it is a variable that nobody reads
any more; else it is copied. What the destination held is destroyed first, unless it is being
declared or written for the first time (`Expr.stores`).
-/

namespace Lifecycle

namespace Fragment

open Lifecycle.Graph InjectM

mutual

theorem Expr.mem_names : ∀ e : Expr, e.fits S Γ = true → x ∈ e.names → x ∈ Γ ∨ S.isForeign x = true
  | .name h y, hf, hx => by
    obtain rfl := List.mem_singleton.1 hx
    rw [Expr.fits] at hf
    split_ifs at hf with hin
    · exact .inl (List.contains_iff_mem.1 hin)
    · exact .inr (Bool.and_eq_true_iff.1 hf).1
    · exact .inr (Bool.and_eq_true_iff.1 hf).1
  | .text _, _, hx => by cases hx
  | .call _ _ _ as, hf, hx => as.mem_names (Bool.and_eq_true_iff.1 hf).2 hx

theorem Args.mem_names : ∀ as : Args,
    as.fits S Γ = true → x ∈ as.names → x ∈ Γ ∨ S.isForeign x = true
  | .nil, _, hx => by cases hx
  | .cons e as, hf, hx => by
    rw [Args.fits, Bool.and_eq_true] at hf
    exact (List.mem_append.1 hx).elim (e.mem_names hf.1) (as.mem_names hf.2)

end

/-- Where a value is stored: in a variable `x` that is declared with it, or in one that is in
scope. -/
structure Dest (S : Setting) (Γ : List SymRef) (x : SymRef) (d : List SymRef) (decl : Bool) :
    Prop where
  isLocal : S.isLocal x = true
  which : decl = true ∧ d = [x] ∧ x ∉ Γ ∨ decl = false ∧ d = [] ∧ x ∈ Γ

def StoreDone (S : Setting) (g : Graph) (Γ : List SymRef) (v : Head) (x : SymRef) (d : List SymRef)
    (e : Expr) (out : Node) (p : Piece) (ss : Symbols) : Prop :=
  p.Is (e.code S) e.sites [] ∧ ∃ f, Performs S ss out f ∧ Runs S g Γ d (p.storing v x d) f

section Store

variable {S : Setting} {g : Graph} {i : ScopeId} {ss : Symbols} {Γ d : List SymRef} {p : Piece}
  {v h : Head} {x y : SymRef} {decl : Bool} {e : Expr} {r : Rules} {out : Node}

theorem Dest.target (hd : Dest S Γ x d decl) : Target S Γ x d :=
  ⟨hd.isLocal, hd.which.imp (·.2.1) (·.2)⟩

theorem Dest.not_mem_names (hd : Dest S Γ x d decl) (hf : e.fits S Γ = true) (hdecl : decl = true) :
    x ∉ e.names := by
  intro hin
  rcases hd.which with ⟨-, -, hx⟩ | ⟨hno, -⟩
  · rcases e.mem_names hf hin with h | h
    · exact hx h
    · rw [isForeign_of_isLocal hd.isLocal] at h
      cases h
  · rw [hno] at hdecl
    cases hdecl

theorem not_reads_of_not_mem_names (hx : x ∉ e.names) : ∀ z ∈ e.code S, ¬ z.Reads x := by
  rintro z hz ⟨n, rfl, hn⟩
  obtain ⟨k, y, he, hy, -⟩ := e.mem_code hz
  cases he
  obtain rfl : y = x := by simpa [named] using hn
  exact hx hy

theorem Dest.done (hd : Dest S Γ x d decl) (hs : Sound S Γ p) (his : p.Is (e.code S) e.sites [])
    (hsite : v.site ∉ e.sites) (hx : x ∉ e.names) (hf : Fills S g Γ d (p.storing v x d) x f)
    (hout : (Performs S ss out f ∧ (decl = true ∨ FirstWrite g v x)) ∨
      decl = false ∧ Performs S ss out fun m => f (m.destroy x)) :
    StoreDone S g Γ v x d e out p ss := by
  have htarget := hd.target
  have hsite' : v.site ∉ p.sites := his.sites ▸ hsite
  rcases hd.which with ⟨hdecl, rfl, -⟩ | ⟨hdecl, rfl, -⟩
  · rcases hout with ⟨hout, -⟩ | ⟨hno, -⟩
    · exact ⟨his, _, hout, hf.declared⟩
    · rw [hdecl] at hno
      cases hno
  · rcases hout with ⟨hout, hfirst⟩ | ⟨-, hout⟩
    · exact ⟨his, _, hout, hf.first hs hsite' htarget (hfirst.resolve_left (by simp [hdecl]))⟩
    · refine ⟨his, _, hout, hf.destroyed htarget ?_ ?_⟩
      · rw [his.code]
        exact e.readsAt.silent
      · rw [his.code]
        exact not_reads_of_not_mem_names hx

theorem emits_sunk (hv : S.types.isText v.type = true) (hd : Dest S Γ x d decl)
    (hsite : v.site ∉ e.sites) (hx : x ∉ e.names)
    (he : Emits S g i Γ ss (r.eval e.node i .consumed) (ExprDone S g Γ true e)) :
    Emits S g i Γ ss (do sink (named v x) (← r.eval e.node i .consumed) decl)
      (StoreDone S g Γ v x d e) := by
  refine .before he fun n p ss1 hp ⟨his, F, hF, hy⟩ => ?_
  refine (quietly_sink hF hv (.inr hd.isLocal)).mono fun out ss2 _ hout => ?_
  exact hd.done hp.sound his hsite hx
    (hy.fills hp.sound his.decls (his.sites ▸ hsite) hd.target) hout

theorem sameLocation_named : (named v x).sameLocation (named h y) = .ok (decide (x = y)) := by
  have hsyms : (named v x).sameLocation (named h y) = .ok (decide (some x = some y)) := rfl
  rw [hsyms]
  simp

section Name

variable (hΓ : OwnsAll S Γ) (he : (Expr.name h y).fits S Γ = true) (hd : Dest S Γ x d decl)
  (hsite : v.site ∉ (Expr.name h y).sites) (hv : S.types.isText v.type = true)

include hd hsite

theorem emits_self (hx : x ∈ Γ) (hd : d = []) (hxy : x = y) : Emits S g i Γ ss (do
      decision "self" (named h y)
      emptyAt h.span) (StoreDone S g Γ v x d (.name h y)) := by
  subst hd hxy
  have hempty : Quietly S g ss (do
      decision "self" (named h x)
      emptyAt h.span) fun out ss => Performs S ss out id := by
    refine .bind (quietly_decision _ h x) fun _ ss1 _ _ => ?_
    refine (quietly_node _ _).mono fun out ss2 _ ⟨s, hout⟩ => ?_
    subst hout
    intro w _ _ m
    rw [Node.run]
    rfl
  refine .of_quietly (Expr.readsAt (S := S) (.name h x)) hempty ?_
  rintro out ss1 p hout rfl hs
  exact ⟨⟨rfl, rfl, rfl⟩, _, hout, runs_self hx (readCode_owned (.of (.inl hd.isLocal))) hs
    rfl hsite
    hd.isLocal⟩

include hv

theorem emits_moved (hy : y ∈ Γ) (hown : Owned S y) (hyx : y ≠ x) (hlast : LastRead g h y) :
    Emits S g i Γ ss (sinkAndReset (named v x) (named h y) decl)
      (StoreDone S g Γ v x d (.name h y)) := by
  refine .of_quietly (Expr.readsAt (S := S) (.name h y))
    (quietly_sinkAndReset hv (.inr hd.isLocal)) ?_
  rintro out ss1 p hout rfl hs
  refine hd.done hs ⟨rfl, rfl, rfl⟩ hsite (by simpa [Expr.names] using Ne.symm hyx) ?_ hout
  exact fills_move hy hyx (readCode_owned hown) (by simp [Expr.sites]) hlast hs rfl hsite hd.target

include hΓ he

theorem emits_copied (hr : r.eval (named h y) i .consumed = pure (named h y)) :
    Emits S g i Γ ss (do copyInto (named v x) (← r.eval (named h y) i .consumed) (named h y))
      (StoreDone S g Γ v x d (.name h y)) := by
  have hreads : ReadsAt (Expr.name h y).sites ((Expr.name h y).code S) := Expr.readsAt _
  rw [hr]
  refine .of_quietly hreads (quietly_copyInto does_named hv) ?_
  rintro out ss1 p hout rfl hs
  refine ⟨⟨rfl, rfl, rfl⟩, _, hout, runs_copy ?_ hreads.silent hs rfl hsite hd.target⟩
  rcases name_cases hΓ he with ⟨-, ⟨hy, hown⟩ | ⟨hfor, -⟩⟩ | ⟨-, hfor, -⟩
  · refine .inl ⟨hy, h, [.define (named v x)], ?_⟩
    change readCode S h y ++ _ = _
    rw [readCode_owned hown]
    rfl
  · exact .inr hfor
  · exact .inr hfor

/-- A name is moved at its last read, if the routine owns it, and copied elsewhere. -/
theorem emits_store_name (ht : S.types.isText h.type = true) :
    Emits S g i Γ ss (storeStep (rules (k + 1)) (named v x) (named h y) i decl)
      (StoreDone S g Γ v x d (.name h y)) := by
  refine .after quietly_forget fun _ ss1 _ _ => .lift_bind sameLocation_named ?_
  obtain ⟨ht', hy⟩ | ⟨hb, -⟩ := name_cases hΓ he
  swap
  · rw [TypeTable.isText_bare hb] at ht
    cases ht
  have hknown : y < S.symbols.all.size := hy.elim (·.2.known) (·.2.known)
  split_ifs with hself
  · have hxy : x = y := by simpa using hself
    rcases hd.which with ⟨hdecl, -⟩ | ⟨-, hnone, hx⟩
    · exact absurd (List.mem_singleton.2 hxy) (hd.not_mem_names he hdecl)
    · exact emits_self hd hsite hx hnone hxy
  have hyx : y ≠ x := by simpa [eq_comm] using hself
  have hmove : ∀ {ss}, Owned S y ∧ LastRead g h y → Emits S g i Γ ss
      (sinkAndReset (named v x) (named h y) decl) (StoreDone S g Γ v x d (.name h y)) := by
    rintro ss ⟨hown, hlast⟩
    have hin := (hy.resolve_right fun hl => hown.not_lent hl.2).1
    exact emits_moved hd hsite hv hin hown hyx hlast
  have htry : ∀ {ss}, Emits S g i Γ ss (do
      if ← canMoveName (named h y) { h with kind := .sym, sym := some y } v.type then
        sinkAndReset (named v x) (named h y) decl
      else copyInto (named v x) (← (rules (k + 1)).eval (named h y) i .consumed) (named h y))
      (StoreDone S g Γ v x d (.name h y)) := by
    intro ss
    refine .after (quietly_canMoveName ht hv (hy.imp And.right And.right)) fun b ss2 _ hb => ?_
    split_ifs with hcan
    · exact hmove (hb hcan)
    · exact emits_copied hΓ he hd hsite hv rfl
  refine .lift_bind rfl (.lift_bind rfl (.after (quietly_isSinkParam hknown) fun b ss2 _ hb => ?_))
  split_ifs with hsink
  · have hown : Owned S y := by
      refine (hy.resolve_right fun ⟨_, hl⟩ => ?_).2
      rw [hb] at hsink
      rcases hl.kind with hk | ⟨hk, hs⟩
      · simp [hk] at hsink
      · simp [hs] at hsink
    refine .after (quietly_isLastRead ht hown) fun b ss3 _ hlast => ?_
    split_ifs with hl
    · exact hmove ⟨hown, hlast hl⟩
    · exact htry
  · exact htry

end Name

theorem Expr.stores (hΓ : OwnsAll S Γ) (hd : Dest S Γ x d decl) (hf : e.fitsIn S Γ v x = true)
    (hno : decl = false → e.isName x = true ∨ x ∉ e.names) (hs : e.sites.Nodup)
    (hsite : v.site ∉ e.sites) (hn : 4 * e.node.depth + 3 ≤ n) :
    Emits S g i Γ ss ((rules n).store (named v x) e.node i decl) (StoreDone S g Γ v x d e) := by
  simp only [Expr.fitsIn, Bool.and_eq_true] at hf
  obtain ⟨⟨⟨-, hv⟩, hf⟩, ht⟩ := hf
  obtain ⟨n, rfl⟩ := Nat.exists_eq_add_of_le' (Nat.le_trans (Nat.le_add_left 3 _) hn)
  have hnames : (∀ h y, e ≠ .name h y) → x ∉ e.names := by
    intro hne
    cases decl with
    | true => exact hd.not_mem_names hf rfl
    | false =>
      refine (hno rfl).resolve_left ?_
      cases e with
      | name h y => exact absurd rfl (hne h y)
      | text h => simp [Expr.isName]
      | call h cd f as => simp [Expr.isName]
  have hsunk : (∀ h y, e ≠ .name h y) → ∀ {ss}, Emits S g i Γ ss
      (do sink (named v x) (← (rules (n + 2)).eval e.node i .consumed) decl)
      (StoreDone S g Γ v x d e) := fun hne _ =>
    emits_sunk hv hd hsite (hnames hne)
      (e.emits hΓ hf hs (Nat.le_of_succ_le_succ hn) fun _ => hne)
  cases e with
  | name h y => exact emits_store_name hΓ hf hd hsite hv ht
  | text h => exact .after quietly_forget fun _ _ _ _ => hsunk (by simp)
  | call h cd f as => exact .after quietly_forget fun _ _ _ _ => hsunk (by simp)

end Store

/-! ## Assignments -/

section Assign

variable {S : Setting} {g : Graph} {i : ScopeId} {ss : Symbols} {Γ d : List SymRef} {p : Piece}
  {h v : Head} {x : SymRef} {decl : Bool} {e : Expr} {t : Stmt}

theorem Sound.storing (hs : Sound S Γ p) (hdecl : p.decls = []) (hd : Target S Γ x d) :
    Sound S Γ (p.storing v x d) := by
  have hd' : ∀ y ∈ d, y = x := by
    rcases hd.2 with rfl | ⟨rfl, -⟩ <;> simp
  have hrange : ∀ y ∈ p.vars, p.lo ≤ y ∧ y < p.hi := fun y hy =>
    (hs.vars y hy).resolve_left (by simp [hdecl])
  refine ⟨hs.smooth.append (smooth_access rfl), fun y hy => ?_, fun y hy => ?_, hs.known, hs.le,
    fun y hy => ?_, fun y hy => ?_, ?_⟩
  · rcases List.mem_append.1 hy with hy | hy
    · refine (hs.accesses y hy).mono (fun s hs => List.mem_append_left _ hs) fun z hz => ?_
      rw [hdecl, List.append_nil] at hz
      exact List.mem_append_left _ hz
    · obtain rfl := List.mem_singleton.1 hy
      intro n hn
      cases hn
      refine ⟨v, x, rfl, by simp [Piece.storing], fun _ => ?_⟩
      rcases hd.2 with rfl | ⟨rfl, hx⟩
      · simp [Piece.storing]
      · exact List.mem_append_left _ hx
  · rw [hd' y hy]
    exact hd.1
  · rcases List.mem_append.1 hy with hy | hy
    · exact .inl hy
    · exact .inr (hrange y hy)
  · exact (List.mem_append.1 hy).elim (fun h => List.mem_append_left _ h)
      fun h => List.mem_append_right _ (hs.finals y h)
  · refine List.nodup_append.2 ⟨?_, hs.nodup, fun y hy z hz he => ?_⟩
    · rcases hd.2 with rfl | ⟨rfl, -⟩ <;> simp
    · have hlt := isKnown_of_isLocal hd.1
      have hge := (hrange z (hs.finals z hz)).1
      exact absurd (Nat.lt_of_lt_of_le hlt hs.known)
        (Nat.not_lt.2 (by rw [← hd' y hy, he]; exact hge))

def StmtDone (S : Setting) (g : Graph) (Γ : List SymRef) (t : Stmt) (out : Node) (p : Piece)
    (ss : Symbols) : Prop :=
  p.Is (t.code S) t.sites t.decls ∧ (∀ x ∈ t.exports, x ∈ p.finals) ∧
    ∃ f, Performs S ss out f ∧ Runs S g Γ t.exports p f

/-- A statement that is no more than the store into `x`, which it may declare. -/
structure Stmt.Stores (S : Setting) (t : Stmt) (v : Head) (x : SymRef) (d : List SymRef)
    (e : Expr) : Prop where
  code : t.code S = e.code S ++ [.define (named v x)]
  sites : t.sites = e.sites ++ [v.site]
  decls : t.decls = d
  exports : t.exports = d

theorem Stmt.Stores.grows (ht : t.Stores S v x d e) (hΓ : OwnsAll S Γ) (hd : Dest S Γ x d decl)
    (hf : e.fitsIn S Γ v x = true) (hno : decl = false → e.isName x = true ∨ x ∉ e.names)
    (hs : t.sites.Nodup) (hn : 4 * e.node.depth + 3 ≤ n) :
    Grows S g i ss ((rules n).store (named v x) e.node i decl) fun out vs fs ss' =>
      ∃ p : Piece, p.vars = d ++ vs ∧ p.finals = d ++ fs ∧ Emitted S Γ ss p ss' ∧
        StmtDone S g Γ t out p ss' := by
  rw [ht.sites] at hs
  obtain ⟨hse, -, hdisj⟩ := List.nodup_append.1 hs
  refine Grows.mono (e.stores hΓ hd hf hno hse
    (fun hin => hdisj _ hin _ (List.mem_singleton.2 rfl) rfl) hn) ?_
  rintro out _ _ ss' _ ⟨p, rfl, rfl, hp, his, f, hf, hruns⟩
  refine ⟨p.storing v x d, rfl, rfl, { hp with sound := hp.sound.storing his.decls hd.target },
    ⟨?_, ?_, ht.decls.symm⟩, ?_, f, hf, ht.exports ▸ hruns⟩
  · rw [ht.code, ← his.code]
    rfl
  · rw [ht.sites, ← his.sites]
    rfl
  · rw [ht.exports]
    exact fun y hy => List.mem_append_left _ hy

theorem emits_assign (hΓ : OwnsAll S Γ) (hf : (Stmt.assign h v x e).fits S Γ = true)
    (hs : (Stmt.assign h v x e).sites.Nodup) (hn : 4 * (Stmt.assign h v x e).node.depth + 2 ≤ n) :
    Emits S g i Γ ss ((rules n).eval (Stmt.assign h v x e).node i .normal)
      (StmtDone S g Γ (.assign h v x e)) := by
  obtain ⟨n, rfl⟩ := exists_add_two hn
  simp only [Stmt.fits, Bool.and_eq_true, Bool.or_eq_true, List.contains_iff_mem] at hf
  obtain ⟨⟨hx, hin⟩, hno⟩ := hf
  have hl : S.isLocal x = true ∧ S.types.isText v.type = true := by
    simp only [Expr.fitsIn, Bool.and_eq_true] at hin
    exact hin.1.1
  have hown : Owned S x := .of (.inl hl.1)
  have hdepth : 4 * e.node.depth + 3 ≤ n + 1 := by
    simp only [Stmt.node, Node.depth, Node.depths] at hn
    omega
  change Emits S g i Γ ss (assign (rules (n + 1)) (Stmt.assign h v x e).node i) _
  refine .lift_bind rfl (.lift_bind rfl (.lift_bind rfl ?_))
  refine .after (quietly_isOwning (.inl hl.2)) fun b ss1 _ hb => ?_
  rw [if_pos (by rw [hb]; exact hl.2)]
  refine .after (quietly_isCursor hown.known) fun b ss2 _ hb => ?_
  subst hb
  rw [(isOrdinary_iff.1 hown.isOrdinary).1]
  have hstores : (Stmt.assign h v x e).Stores S v x [] e := ⟨rfl, rfl, rfl, rfl⟩
  exact hstores.grows hΓ ⟨hl.1, .inr ⟨rfl, rfl, hx⟩⟩ hin (fun _ => hno.imp_right (by simp))
    hs hdepth

end Assign

end Fragment

end Lifecycle
