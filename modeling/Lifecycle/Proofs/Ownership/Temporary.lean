import Lifecycle.Proofs.Ownership.Control
import Lifecycle.Proofs.Ownership.Emission

/-!
# Temporaries

Code that is emitted may need variables of its own. The scope in which this happens declares them
and destroys those that nobody takes over (`Grows`). `Emits` says that a computation comes to an end
and which piece it emits; the numbers of its temporaries lie in one range.
-/

namespace Lifecycle

def Scope.extend (vs : List SymRef) (ns : List Node) (sc : Scope) : Scope :=
  { sc with vars := sc.vars ++ vs, finals := sc.finals ++ ns }

theorem Scope.extend_vars (vs : List SymRef) :
    (fun sc : Scope => { sc with vars := sc.vars ++ vs }) = Scope.extend vs [] := by
  funext sc
  simp [extend]

theorem Scope.extend_finals (ns : List Node) :
    (fun sc : Scope => { sc with finals := sc.finals ++ ns }) = Scope.extend [] ns := by
  funext sc
  simp [extend]

namespace Fragment

open Lifecycle.Graph InjectM

def Discards (S : Setting) (ss : Symbols) (n : Node) (x : SymRef) : Prop :=
  Performs S ss n (·.destroy x)

structure Adds (S : Setting) (g : Graph) (c : InjectContext) (i : ScopeId) (vs fs : List SymRef)
    (st st' : InjectState) : Prop where
  works : Works S g c st'
  within : st.ops.symbols.Within st'.ops.symbols
  scopes : ∃ ns, List.Forall₂ (Discards S st'.ops.symbols) ns fs ∧
    st'.scopes = st.scopes.modify i (Scope.extend vs ns)

/-- The computation comes to an end. For what was done, scope `i` has variables to declare and
others to destroy; `Q` says which. -/
def Grows {α : Type} (S : Setting) (g : Graph) (i : ScopeId) (ss : Symbols) (m : InjectM α)
    (Q : α → List SymRef → List SymRef → Symbols → Prop) : Prop :=
  ∀ c st, Works S g c st → st.ops.symbols = ss → i < st.scopes.length →
    Ends False (m c st) fun a st' => ∃ vs fs, Adds S g c i vs fs st st' ∧ Q a vs fs st'.ops.symbols

section Grows

variable {S : Setting} {g : Graph} {c : InjectContext} {st st' st'' : InjectState} {i : ScopeId}
  {ss : Symbols} {vs vs' fs fs' : List SymRef} {ns : List Node}

theorem Quiet.adds (h : Quiet S g c st st') : Adds S g c i [] [] st st' := by
  refine ⟨h.works, h.within, [], .nil, ?_⟩
  have hid : Scope.extend [] [] = id := by
    funext sc
    simp [Scope.extend]
  rw [h.scopes, hid, List.modify_id]

theorem Adds.trans (h : Adds S g c i vs fs st st') (h' : Adds S g c i vs' fs' st' st'') :
    Adds S g c i (vs ++ vs') (fs ++ fs') st st'' := by
  obtain ⟨ns, hns, hs⟩ := h.scopes
  obtain ⟨ns', hns', hs'⟩ := h'.scopes
  refine ⟨h'.works, h.within.trans h'.within, ns ++ ns', ?_, ?_⟩
  · exact List.rel_append (List.Forall₂.imp (fun _ _ hd => hd.mono h'.within) hns) hns'
  · rw [hs', hs, List.modify_modify_eq]
    congr 1
    funext sc
    simp [Scope.extend]

theorem Adds.isOpen (h : Adds S g c i vs fs st st') (hi : i < st.scopes.length) :
    i < st'.scopes.length := by
  obtain ⟨ns, -, hs⟩ := h.scopes
  rwa [hs, List.length_modify]

namespace Grows

variable {α β : Type} {m : InjectM α} {f : α → InjectM β} {a : α} {T : α → Symbols → Prop}
  {P Q : α → List SymRef → List SymRef → Symbols → Prop}
  {R : β → List SymRef → List SymRef → Symbols → Prop}

theorem mono (hm : Grows S g i ss m P)
    (hpq : ∀ a vs fs ss', ss.Within ss' → P a vs fs ss' → Q a vs fs ss') : Grows S g i ss m Q := by
  rintro c st hw rfl hi
  exact (hm c st hw rfl hi).mono fun a st' ⟨vs, fs, h, ha⟩ => ⟨vs, fs, h, hpq a vs fs _ h.within ha⟩

theorem bind (hm : Grows S g i ss m P) (hf : ∀ a vs fs ss', ss.Within ss' → P a vs fs ss' →
      Grows S g i ss' (f a) fun b vs' fs' ss'' => R b (vs ++ vs') (fs ++ fs') ss'') :
    Grows S g i ss (m >>= f) R := by
  rintro c st hw rfl hi
  rw [ends_bind]
  refine (hm c st hw rfl hi).mono fun a st' ⟨vs, fs, h, ha⟩ => ?_
  refine (hf a vs fs _ h.within ha c st' h.works rfl (h.isOpen hi)).mono ?_
  rintro b st'' ⟨vs', fs', h', hb⟩
  exact ⟨_, _, h.trans h', hb⟩

theorem of_quietly (hm : Quietly S g ss m T)
    (h : ∀ a ss', ss.Within ss' → T a ss' → Q a [] [] ss') : Grows S g i ss m Q := by
  rintro c st hw rfl hi
  exact (hm c st hw rfl).mono fun a st' ⟨hq, ha⟩ => ⟨[], [], hq.adds, h a _ hq.within ha⟩

theorem pure (ha : Q a [] [] ss) : Grows S g i ss (Pure.pure a) Q :=
  of_quietly (T := fun b ss' => b = a ∧ ss' = ss) (.pure ⟨rfl, rfl⟩) fun _ _ _ ⟨hb, hs⟩ =>
    hb ▸ hs ▸ ha

theorem after (hm : Quietly S g ss m T)
    (hf : ∀ a ss', ss.Within ss' → T a ss' → Grows S g i ss' (f a) R) :
    Grows S g i ss (m >>= f) R := by
  refine bind (of_quietly (Q := fun a vs fs ss' => vs = [] ∧ fs = [] ∧ T a ss') hm
    fun a ss' _ ha => ⟨rfl, rfl, ha⟩) ?_
  rintro a _ _ ss' hs ⟨rfl, rfl, ha⟩
  exact hf a ss' hs ha

theorem before (hm : Grows S g i ss m P) (hf : ∀ a vs fs ss', ss.Within ss' → P a vs fs ss' →
      Quietly S g ss' (f a) fun b ss'' => R b vs fs ss'') : Grows S g i ss (m >>= f) R :=
  bind hm fun a vs fs ss' hs ha => of_quietly (hf a vs fs ss' hs ha) fun b ss'' _ hb => by
    simpa using hb

theorem lift_bind {x : Except Fault α} (hx : x = .ok a) (h : Grows S g i ss (f a) R) :
    Grows S g i ss (liftM x >>= f) R := by
  subst hx
  exact h

theorem read_bind {f : InjectContext → InjectM β}
    (h : ∀ c, c.types = S.types → Grows S g i ss (f c) R) :
    Grows S g i ss (MonadReader.read >>= f) R :=
  fun c st hw hs hi => h c hw.types c st hw hs hi

theorem symbols_bind {f : Symbols → InjectM β} (h : Grows S g i ss (f ss) R) :
    Grows S g i ss (InjectM.symbols >>= f) R := by
  rintro c st hw rfl hi
  exact h c st hw rfl hi

theorem of_known (h : S.symbols.Within ss → Grows S g i ss m Q) : Grows S g i ss m Q :=
  fun c st hw hs hi => h (hs ▸ hw.known) c st hw hs hi

end Grows

/-! ## Temporaries -/

variable {h : Head} {x t : SymRef} {n : Node} {f : Ledger → Val × Ledger}

theorem quietly_tempName (base : Text) : Quietly S g ss (tempName base) fun _ _ => True :=
  fun _ _ hw _ => ⟨hw.frame rfl rfl rfl rfl rfl, trivial⟩

theorem quietly_newSymbol (kind : SymKind) (name : Text) (type : TypeId) (span : Span) :
    Quietly S g ss (newSymbol kind name type span) fun t ss' =>
      ss.all.size ≤ t ∧ t < ss'.all.size ∧ (ss'.get t).type = type := by
  rintro c st hw rfl
  simp only [newSymbol]
  have hin := fun s => st.ops.symbols.within_fresh s
  refine ⟨⟨{ hw with natural := hw.natural.within (hin _), known := hw.known.trans (hin _) }, hin _,
    rfl⟩, ?_⟩
  simp only [Symbols.fresh_fst, Symbols.size_fresh, Symbols.get_fresh]
  exact ⟨Nat.le_refl _, Nat.lt_succ_self _, trivial⟩

theorem Works.scopes (hw : Works S g c st) (scs : List Scope) :
    Works S g c { st with scopes := scs } :=
  { hw with }

theorem grows_modifyScope {f : Scope → Scope} (hf : f = Scope.extend vs ns)
    (hns : List.Forall₂ (Discards S ss) ns fs) :
    Grows S g i ss (modifyScope i f) fun _ vs' fs' ss' => vs' = vs ∧ fs' = fs ∧ ss' = ss := by
  rintro c st hw rfl hi
  subst hf
  simp only [modifyScope, scope, ends_bind, ends_get]
  rw [List.getElem?_eq_getElem hi]
  exact ⟨vs, fs, ⟨hw.scopes _, .refl _, ns, hns, rfl⟩, rfl, rfl, rfl⟩

theorem grows_newTemp (type : TypeId) (span : Span) :
    Grows S g i ss (newTemp i type span) fun t vs fs ss' => vs = [t] ∧ fs = [] ∧
      ss.all.size ≤ t ∧ t < ss'.all.size ∧ (ss'.get t).type = type := by
  refine .after (quietly_tempName _) fun name ss1 hs1 _ => ?_
  refine .after (quietly_newSymbol _ name type span) fun t ss2 hs2 ⟨hlo, hhi, htype⟩ => ?_
  refine .bind (grows_modifyScope (Scope.extend_vars [t]) .nil) ?_
  rintro _ _ _ _ _ ⟨rfl, rfl, rfl⟩
  exact .pure ⟨rfl, rfl, Nat.le_trans hs1.size_le hlo, hhi, htype⟩

theorem grows_addFinal (hne : n.isKind .empty = false) (hn : Discards S ss n x) :
    Grows S g i ss (addFinal i n) fun _ vs fs ss' => vs = [] ∧ fs = [x] ∧ ss' = ss := by
  unfold addFinal
  rw [if_neg (by simp [hne])]
  exact grows_modifyScope (Scope.extend_finals [n]) (.cons hn .nil)

theorem grows_keepUntilEnd (ht : S.types.isText h.type = true) (hn : Does S ss (.node h ks) f) :
    Grows S g i ss (keepUntilEnd (.node h ks) i) fun out vs fs ss' => ∃ t, vs = [t] ∧ fs = [t] ∧
      ss.all.size ≤ t ∧ t < ss'.all.size ∧ Does S ss' out (keepIn t f) := by
  refine .lift_bind rfl (.after (quietly_isOwning (.inl ht)) fun b ss1 hs1 hb => ?_)
  rw [if_neg (by simp [hb, ht])]
  refine .bind (grows_newTemp h.type h.span) ?_
  rintro t _ _ ss2 hs2 ⟨rfl, rfl, hlo, hhi, htype⟩
  refine .after (quietly_symNode t h.span) fun tmp ss3 hs3 ⟨d, htmp, hd⟩ => ?_
  subst htmp
  have hdt : S.types.isText d.type = true := by rw [hd, htype, ht]
  have hn3 := hn.mono ((hs1.trans hs2).trans hs3)
  refine .after (quietly_sink hn3 hdt (.inl rfl)) fun kept ss4 hs4 hkept => ?_
  have hkept : Performs S ss4 kept (stored t f) := hkept.elim And.left fun h => by cases h.1
  refine .after (quietly_list rfl (.cons hkept .nil) does_named rfl) fun out ss5 hs5 hout => ?_
  refine .after (quietly_destroy hdt) fun fin ss6 hs6 ⟨hne, hfin⟩ => ?_
  refine .bind (grows_addFinal hne hfin) ?_
  rintro _ _ _ _ _ ⟨rfl, rfl, rfl⟩
  have hs := ((hs3.trans hs4).trans hs5).trans hs6
  exact .pure ⟨t, rfl, rfl, Nat.le_trans hs1.size_le hlo, Nat.lt_of_lt_of_le hhi hs.size_le,
    hout.mono hs6⟩

theorem quietly_keepUntilEnd_bare (ht : S.types.isBare h.type = true) :
    Quietly S g ss (keepUntilEnd (.node h ks) i) fun out _ => out = .node h ks := by
  refine .lift_bind rfl (.bind (quietly_isOwning (.inr ht)) fun b _ _ hb => ?_)
  rw [if_pos (by simp [hb, TypeTable.isText_bare ht])]
  exact .pure rfl

theorem quietly_moveOut (ht : S.types.isText h.type = true) :
    Quietly S g ss (InjectM.moveOut (named h x)) fun out ss' =>
      ∃ t, ss.all.size ≤ t ∧ t < ss'.all.size ∧ Does S ss' out (moveOut x t) := by
  refine .lift_bind rfl (.bind (quietly_isOwning (.inl ht)) fun b ss1 hs1 hb => ?_)
  rw [if_neg (by simp [hb, ht])]
  refine .bind (quietly_decision _ h x) fun _ ss2 hs2 _ => ?_
  refine .bind (quietly_tempName _) fun name ss3 hs3 _ => ?_
  refine .bind (quietly_newSymbol .letLocal name _ _) fun t ss4 hs4 ⟨hlo, hhi, _⟩ => ?_
  refine .bind (quietly_symNode t _) fun tmp ss5 hs5 ⟨d, htmp, _⟩ => ?_
  subst htmp
  refine .bind (quietly_node _ _) fun defs ss6 hs6 ⟨s, hdefs⟩ => ?_
  subst hdefs
  refine .bind (quietly_node _ _) fun sect ss7 hs7 ⟨s', hsect⟩ => ?_
  refine .bind (quietly_reset h x) fun cleared ss8 hs8 hcleared => ?_
  refine .bind (quietly_symNode t _) fun tmp' ss9 hs9 ⟨d', htmp', _⟩ => ?_
  subst htmp'
  have hstored : Performs S ss9 sect (stored t (·.read x)) := by
    rw [hsect]
    exact performs_define rfl does_named rfl
  refine (quietly_list rfl (.cons hstored (.cons (hcleared.mono hs9) .nil)) does_named rfl).mono
    fun out ss' hs' hout => ⟨t, ?_, ?_, hout⟩
  · exact Nat.le_trans ((hs1.trans hs2).trans hs3).size_le hlo
  · exact Nat.lt_of_lt_of_le hhi ((((hs5.trans hs6).trans hs7).trans hs8).trans
      (hs9.trans hs')).size_le

theorem quietly_report (sev : Severity) (code : DiagCode) (span : Span) (msg : Text)
    (notes : List DiagNote) : Quietly S g ss (report sev code span msg notes) fun _ _ => True := by
  refine .owner_bind fun c st hw _ => ?_
  obtain ⟨r, hr⟩ := Option.ne_none_iff_exists'.1 hw.sym
  rw [hr]
  exact ⟨hw.frame rfl rfl rfl rfl rfl, trivial⟩

theorem quietly_copyDeservesHint (type : TypeId) :
    Quietly S g ss (copyDeservesHint (named h x) type) fun _ _ => True := by
  refine .read_bind fun c _ => ?_
  split_ifs
  · exact .pure trivial
  refine .symbols_bind (.lift_bind rfl ?_)
  split_ifs
  · exact .pure trivial
  refine .symbols_bind (.lift_bind rfl ?_)
  split_ifs
  · exact .pure trivial
  · exact .shapeOf_bind (.pure trivial)

theorem grows_copyToSink (ht : S.types.isText h.type = true)
    (hr : r.eval (named h x) i .normal = pure (named h x)) :
    Grows S g i ss (copyToSink r (named h x) i) fun out vs fs ss' => ∃ t, vs = [t] ∧ fs = [] ∧
      ss.all.size ≤ t ∧ t < ss'.all.size ∧ Does S ss' out (copyOut x t) := by
  refine .lift_bind rfl (.before (grows_newTemp h.type h.span) ?_)
  rintro t _ _ ss1 _ ⟨rfl, rfl, hlo, hhi, htype⟩
  suffices hrest : Quietly S g ss1 _ fun out ss => Does S ss out (copyOut x t) from
    hrest.mono fun out ss' hs hout => ⟨t, rfl, rfl, hlo, Nat.lt_of_lt_of_le hhi hs.size_le, hout⟩
  refine .bind (quietly_symNode t _) fun tmp ss2 _ ⟨d, htmp, hd⟩ => ?_
  subst htmp
  refine .bind (quietly_isOwning (.inl ht)) fun b ss3 _ hb => ?_
  extract_lets jp
  have hjp : ∀ {ss a b f f'}, Performs S ss a f → Performs S ss b f' →
      Quietly S g ss (jp [a, b]) fun out ss => Does S ss out fun m => (f' (f m)).read t := by
    intro ss a b f f' ha hb
    refine .bind (quietly_copy d t) fun tmp ss' hs ⟨s, htmp⟩ => ?_
    subst htmp
    exact quietly_list rfl (.cons (ha.mono hs) (.cons (hb.mono hs) .nil)) does_named rfl
  rw [if_pos (by rw [hb, ht])]
  refine .bind (quietly_reset d t) fun cleared ss4 hs4 hcleared => ?_
  rw [hr]
  have hdt : S.types.isText d.type = true := by rw [hd, htype, ht]
  refine .pure_bind (.bind (quietly_copyInto does_named hdt) fun copied ss5 hs5 hcopied => ?_)
  refine .bind (quietly_copyDeservesHint _) fun hint ss6 hs6 _ => ?_
  have hcleared6 := hcleared.mono (hs5.trans hs6)
  have hcopied6 := hcopied.mono hs6
  split_ifs
  · refine .bind (P := fun _ _ => True) (fun _ _ hw _ => ⟨hw.quiet, trivial⟩) fun pr ss7 hs7 _ =>
      .lift_bind rfl (.bind (quietly_report _ _ _ _ _) fun _ ss8 hs8 _ => ?_)
    have hs := hs7.trans hs8
    exact hjp (hcleared6.mono hs) (hcopied6.mono hs)
  · exact hjp hcleared6 hcopied6

end Grows

/-! ## Pieces -/

structure Piece.Is (p : Piece) (code : List Instr) (sites : List Nat) (decls : List SymRef) :
    Prop where
  code : p.code = code
  sites : p.sites = sites
  decls : p.decls = decls

section Pieces

variable {S : Setting} {Γ E : List SymRef} {p q : Piece} {code : List Instr} {sites : List Nat}
  {lo hi t : Nat}

def ReadsAt (sites : List Nat) (code : List Instr) : Prop :=
  ∀ y ∈ code, ∃ h x, y = .use (named h x) ∧ h.site ∈ sites

theorem ReadsAt.silent (h : ReadsAt sites code) : Silent code := fun y hy => by
  obtain ⟨hd, x, rfl, -⟩ := h y hy
  exact ⟨hd, x, rfl⟩

theorem ReadsAt.sound (h : ReadsAt sites code) (hk : S.symbols.all.size ≤ lo) (hle : lo ≤ hi)
    (hvs : ∀ x ∈ vs, lo ≤ x ∧ x < hi) (hfs : ∀ x ∈ fs, x ∈ vs)
    (hn : fs.Nodup) : Sound S Γ ⟨code, sites, [], lo, hi, vs, fs⟩ where
  smooth := h.silent.smooth
  accesses y hy n hn := by
    obtain ⟨hd, x, rfl, hs⟩ := h y hy
    cases hn
    exact ⟨hd, x, rfl, hs, nofun⟩
  isLocal x hx := by cases hx
  known := hk
  le := hle
  vars x hx := .inr (hvs x hx)
  finals := hfs
  nodup := hn

theorem Sound.append (hp : Sound S Γ p) (hq : Sound S (E ++ Γ) q) (ha : Apart p q)
    (he : ∀ x ∈ E, x ∈ p.decls) : Sound S Γ (p.append q) where
  smooth := hp.smooth.append hq.smooth
  accesses y hy := by
    rcases List.mem_append.1 hy with hy | hy
    · refine (hp.accesses y hy).mono (fun s hs => List.mem_append_left _ hs) fun x hx => ?_
      simp only [List.mem_append, Piece.append] at hx ⊢
      tauto
    · refine (hq.accesses y hy).mono (fun s hs => List.mem_append_right _ hs) fun x hx => ?_
      simp only [List.mem_append, Piece.append] at hx ⊢
      tauto
  isLocal x hx := (List.mem_append.1 hx).elim (hp.isLocal x) (hq.isLocal x)
  known := hp.known
  le := Nat.le_trans hp.le (Nat.le_trans ha.next hq.le)
  vars x hx := (List.mem_append.1 hx).elim (fun h => owns_append_left (hp.vars x h) ha hq.le)
    fun h => owns_append_right (hq.vars x h) ha hp.le
  finals x hx := (List.mem_append.1 hx).elim (fun h => List.mem_append_left _ (hp.finals x h))
    fun h => List.mem_append_right _ (hq.finals x h)
  nodup := by
    refine List.nodup_append.2 ⟨hp.nodup, hq.nodup, fun x hx y hy hxy => ?_⟩
    subst hxy
    exact hp.owns_apart hq ha (hp.vars x (hp.finals x hx)) (hq.vars x (hq.finals x hy))

theorem Sound.withTemp (hp : Sound S Γ p) (hd : p.decls = []) (ht : p.hi ≤ t ∧ t < hi) :
    Sound S Γ (p.withTemp t hi) where
  smooth := hp.smooth
  accesses := hp.accesses
  isLocal := hp.isLocal
  known := hp.known
  le := by
    have := hp.le
    simp only [Piece.withTemp]
    omega
  vars x hx := by
    have hle := hp.le
    refine .inr ?_
    rcases List.mem_append.1 hx with hx | hx
    · have := (hp.vars x hx).resolve_left (by simp [hd])
      simp only [Piece.withTemp]
      omega
    · obtain rfl := List.mem_singleton.1 hx
      simp only [Piece.withTemp]
      omega
  finals x hx := by
    simp only [Piece.withTemp, List.mem_append] at hx ⊢
    exact hx.imp_left (hp.finals x)
  nodup := by
    refine List.nodup_append.2 ⟨hp.nodup, by simp, fun x hx y hy hxy => ?_⟩
    have hlt := (hp.vars x (hp.finals x hx)).resolve_left (by simp [hd])
    exact Nat.ne_of_lt (Nat.lt_of_lt_of_le hlt.2 ht.1) (hxy.trans (List.mem_singleton.1 hy))

theorem Expr.readsAt (e : Expr) : ReadsAt e.sites (e.code S) := fun y hy => by
  obtain ⟨h, x, rfl, -, hs⟩ := e.mem_code hy
  exact ⟨h, x, rfl, hs⟩

theorem Args.readsAt (as : Args) : ReadsAt as.sites (as.code S) := fun y hy => by
  obtain ⟨h, x, rfl, -, hs⟩ := as.mem_code hy
  exact ⟨h, x, rfl, hs⟩

end Pieces

/-! ## Emitting a piece -/

/-- The piece has its temporaries between the symbols before and those afterwards. -/
structure Emitted (S : Setting) (Γ : List SymRef) (ss : Symbols) (p : Piece) (ss' : Symbols) :
    Prop where
  within : ss.Within ss'
  lo : ss.all.size ≤ p.lo
  hi : p.hi ≤ ss'.all.size
  sound : Sound S Γ p

/-- The computation comes to an end and emits a piece; `Q` ties its value to the piece. -/
def Emits {α : Type} (S : Setting) (g : Graph) (i : ScopeId) (Γ : List SymRef) (ss : Symbols)
    (m : InjectM α) (Q : α → Piece → Symbols → Prop) : Prop :=
  Grows S g i ss m fun a vs fs ss' =>
    ∃ p, p.vars = vs ∧ p.finals = fs ∧ Emitted S Γ ss p ss' ∧ Q a p ss'

section Emits

variable {S : Setting} {g : Graph} {i : ScopeId} {Γ Γ' E : List SymRef} {ss ss' ss'' : Symbols}
  {p q : Piece} {code code' : List Instr} {sites sites' : List Nat} {decls decls' : List SymRef}

theorem Emitted.earlier (h : Emitted S Γ ss' p ss'') (hs : ss.Within ss') : Emitted S Γ ss p ss'' :=
  { h with within := hs.trans h.within, lo := Nat.le_trans hs.size_le h.lo }

theorem Emitted.later (h : Emitted S Γ ss p ss') (hs : ss'.Within ss'') : Emitted S Γ ss p ss'' :=
  { h with within := h.within.trans hs, hi := Nat.le_trans h.hi hs.size_le }

namespace Emits

variable {α β : Type} {m : InjectM α} {f : α → InjectM β} {a : α} {T : α → Symbols → Prop}
  {P Q : α → Piece → Symbols → Prop} {R : β → Piece → Symbols → Prop}

theorem mono (hm : Emits S g i Γ ss m P)
    (hpq : ∀ a p ss', Emitted S Γ ss p ss' → P a p ss' → Q a p ss') : Emits S g i Γ ss m Q := by
  refine Grows.mono hm ?_
  rintro a vs fs ss' _ ⟨p, hv, hf, hp, ha⟩
  exact ⟨p, hv, hf, hp, hpq a p ss' hp ha⟩

theorem after (hm : Quietly S g ss m T)
    (hf : ∀ a ss', ss.Within ss' → T a ss' → Emits S g i Γ ss' (f a) R) :
    Emits S g i Γ ss (m >>= f) R := by
  refine Grows.after hm fun a ss' hs ha => Grows.mono (hf a ss' hs ha) ?_
  rintro b vs fs ss'' _ ⟨p, hv, hf, hp, hb⟩
  exact ⟨p, hv, hf, hp.earlier hs, hb⟩

theorem grow (hm : Emits S g i Γ ss m P) (hf : ∀ a p ss', Emitted S Γ ss p ss' → P a p ss' →
      Grows S g i ss' (f a) fun b vs fs ss'' => ∃ r : Piece, r.vars = p.vars ++ vs ∧
        r.finals = p.finals ++ fs ∧ Emitted S Γ ss r ss'' ∧ R b r ss'') :
    Emits S g i Γ ss (m >>= f) R := by
  refine Grows.bind hm ?_
  rintro a _ _ ss' _ ⟨p, rfl, rfl, hp, ha⟩
  exact hf a p ss' hp ha

theorem bind (hm : Emits S g i Γ ss m P) (hf : ∀ a p ss', Emitted S Γ ss p ss' → P a p ss' →
      Emits S g i (E ++ Γ) ss' (f a) fun b q ss'' => Emitted S (E ++ Γ) ss' q ss'' → ∃ r : Piece,
        r.vars = p.vars ++ q.vars ∧ r.finals = p.finals ++ q.finals ∧ Emitted S Γ ss r ss'' ∧
        R b r ss'') : Emits S g i Γ ss (m >>= f) R := by
  refine grow hm fun a p ss' hp ha => Grows.mono (hf a p ss' hp ha) ?_
  rintro b _ _ ss'' _ ⟨q, rfl, rfl, hq, hb⟩
  exact hb hq

theorem before (hm : Emits S g i Γ ss m P) (hf : ∀ a p ss', Emitted S Γ ss p ss' → P a p ss' →
      Quietly S g ss' (f a) fun b ss'' => R b p ss'') : Emits S g i Γ ss (m >>= f) R := by
  refine grow hm fun a p ss' hp ha => .of_quietly (hf a p ss' hp ha) fun b ss'' hs hb => ?_
  exact ⟨p, by simp, by simp, hp.later hs, hb⟩

theorem lift_bind {x : Except Fault α} (hx : x = .ok a) (h : Emits S g i Γ ss (f a) R) :
    Emits S g i Γ ss (liftM x >>= f) R :=
  Grows.lift_bind hx h

theorem read_bind {f : InjectContext → InjectM β}
    (h : ∀ c, c.types = S.types → Emits S g i Γ ss (f c) R) :
    Emits S g i Γ ss (MonadReader.read >>= f) R :=
  Grows.read_bind h

theorem of_grows {P : α → List SymRef → List SymRef → Symbols → Prop} (hr : ReadsAt sites code)
    (hm : Grows S g i ss m P) (h : ∀ a vs fs ss', P a vs fs ss' →
      (∀ x ∈ vs, ss.all.size ≤ x ∧ x < ss'.all.size) ∧ (∀ x ∈ fs, x ∈ vs) ∧ fs.Nodup ∧
        ∀ p, p = ⟨code, sites, [], ss.all.size, ss'.all.size, vs, fs⟩ → Sound S Γ p → Q a p ss') :
    Emits S g i Γ ss m Q := by
  refine Grows.of_known fun hk => Grows.mono hm fun a vs fs ss' hs ha => ?_
  obtain ⟨hvs, hfs, hn, hQ⟩ := h a vs fs ss' ha
  have hsound := hr.sound (Γ := Γ) hk.size_le hs.size_le hvs hfs hn
  exact ⟨_, rfl, rfl, ⟨hs, Nat.le_refl _, Nat.le_refl _, hsound⟩, hQ _ rfl hsound⟩

theorem of_quietly (hr : ReadsAt sites code) (hm : Quietly S g ss m T)
    (h : ∀ a ss' p, T a ss' → p = ⟨code, sites, [], ss.all.size, ss'.all.size, [], []⟩ →
      Sound S Γ p → Q a p ss') : Emits S g i Γ ss m Q := by
  refine of_grows (P := fun a vs fs ss' => vs = [] ∧ fs = [] ∧ T a ss') hr
    (.of_quietly hm fun a ss' _ ha => ⟨rfl, rfl, ha⟩) ?_
  rintro a _ _ ss' ⟨rfl, rfl, ha⟩
  exact ⟨by simp, by simp, by simp, fun p hp hs => h a ss' p ha hp hs⟩

theorem pure (hr : ReadsAt sites code)
    (h : ∀ p, p = ⟨code, sites, [], ss.all.size, ss.all.size, [], []⟩ → Sound S Γ p → Q a p ss) :
    Emits S g i Γ ss (Pure.pure a) Q := by
  refine of_quietly (T := fun b ss' => b = a ∧ ss' = ss) hr (.pure ⟨rfl, rfl⟩) ?_
  rintro _ _ p ⟨rfl, rfl⟩ hp hs
  exact h p hp hs

end Emits

theorem Emitted.apart (h : Emitted S Γ ss p ss') (h' : Emitted S Γ' ss' q ss'')
    (hp : p.Is code sites decls) (hq : q.Is code' sites' decls') (hs : (sites ++ sites').Nodup)
    (hd : (decls ++ decls').Nodup) : Apart p q := by
  refine ⟨?_, ?_, Nat.le_trans h.hi h'.lo⟩
  · rw [hp.sites, hq.sites]
    exact fun s hin hin' => (List.nodup_append.1 hs).2.2 s hin s hin' rfl
  · rw [hp.decls, hq.decls]
    exact fun x hin hin' => (List.nodup_append.1 hd).2.2 x hin x hin' rfl

theorem Emitted.append (h : Emitted S Γ ss p ss') (h' : Emitted S (E ++ Γ) ss' q ss'')
    (ha : Apart p q) (he : ∀ x ∈ E, x ∈ p.decls) : Emitted S Γ ss (p.append q) ss'' :=
  ⟨h.within.trans h'.within, h.lo, h'.hi, h.sound.append h'.sound ha he⟩

theorem Piece.Is.append (hp : p.Is code sites decls) (hq : q.Is code' sites' decls') :
    (p.append q).Is (code ++ code') (sites ++ sites') (decls ++ decls') :=
  ⟨by rw [← hp.code, ← hq.code]; rfl, by rw [← hp.sites, ← hq.sites]; rfl,
    by rw [← hp.decls, ← hq.decls]; rfl⟩

end Emits

end Fragment

end Lifecycle
