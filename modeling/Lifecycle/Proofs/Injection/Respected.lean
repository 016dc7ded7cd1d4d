import Lifecycle.Proofs.Injection.Palette

/-!
# The rules respect a palette

A well-formed tree within a palette is worked through to a well-formed tree within it, given that
what came up on the way is allowed (`good_works`). Nothing else comes into a tree.
-/

namespace Lifecycle

namespace Palette

variable {m : Mode} {h : Head}

/-- What the rules make of trees within the palette is within the palette. -/
structure Respected (p : Palette) (k : Ground) (B : Behaviour) : Prop where
  eval : ∀ {d n s m out l}, B.eval d n s m out l → p.Takes k n → p.Good k out l
  store : ∀ {d dest ri s decl out l}, B.store d dest ri s decl out l → p.Holds k dest →
    p.Takes k ri → p.Good k out l
  calm : Ground.Calm B
  call : ∀ {d s h callee callee' ps as as' out l}, p.source (.node h (callee :: as)) →
    h.kind = .call → k.HasParams callee.type ps → B.Passes d s ps as as' l →
    (∀ e ∈ l, p.Admits e) → callee' = callee ∨ (∃ l', B.eval d callee s .normal callee' l') →
    Node.Is h (callee' :: as') out → p.call out

variable {p : Palette} {k : Ground}

/-! ## Values -/

section Values

variable {B : Behaviour} {d : Nat} {s : ScopeId} (hp : p.Covers k) (hB : p.Respected k B) {l : Log}
  {n out : Node}

include hB

theorem good_each (h : InjectM.Each (fun a => B.eval d a s m) xs ys l)
    (hx : ∀ a ∈ xs, p.Takes k a) : p.Gives k (∀ a ∈ ys, p.Fits k a) l :=
  fun hl => h.all hl fun x hmem _ _ hy hl => hB.eval hy (hx x hmem) hl

include hp

theorem good_initsField (h : B.InitsField d s n out l) (hn : p.Takes k n) : p.Good k out l := by
  obtain ⟨h, f, v, v', m, rfl, hk, hv, ho⟩ := h
  obtain ⟨a, b, hks, hname⟩ := hn.wellFormed.initialization (.inl hk)
  cases hks
  have hf := hp.keptName (hp.kid hn (by simp)) hname
  refine (hB.eval hv (hp.kid hn (by simp))).imp fun hfv => ?_
  refine hn.withKids ho ?_ (by simp [hfv, hf]) (by simp [hk])
  have hl := hn.wellFormed.node.1
  simp only [Node.layoutFaults, hk] at hl ⊢
  exact hl

theorem good_constructs (h : B.Constructs d s n out l) (hn : p.Takes k n) : p.Good k out l := by
  cases h with
  | list hk ha ho =>
    refine (good_each hB ha fun a ha => hp.kid hn ha).imp fun hks => hn.withKids ho ?_ hks ?_ <;>
      rcases hk with hk | hk <;> simp [Node.layoutFaults, hk]
  | @closure h f env env' out m l hk ha ho =>
    have hs : p.source (.node h ([f] ++ [env])) := hn.source
    have hf := hp.kept (hp.kid hn (a := f) (by simp)) (.label hs (.inr (.inr hk)) (by simp))
    refine (hB.eval ha (hp.kid hn (by simp))).imp fun henv =>
      hn.withKids ho ?_ (by simp [henv, hf]) (by simp [hk])
    simp [Node.layoutFaults, hk, Node.wantKids]
  | object hk ha ho =>
    intro hl
    obtain ⟨hks, hnotes⟩ := ha.all (N := p.Keeps k) (Q := fun a => p.Fits k a ∧
      a.kindOr = .fieldInit)
      hl fun x hmem y l hy hl => by
        obtain ⟨hf, hnotes⟩ := good_initsField hp hB hy (hp.kid hn hmem) hl
        obtain ⟨h, f, v, v', m, -, hk, -, site, rfl⟩ := hy
        exact ⟨⟨hf, hk⟩, hnotes⟩
    refine ⟨hn.withKids ho ?_ (fun a ha => (hks a ha).1) (by simp [hk]), hnotes⟩
    simp only [Node.layoutFaults, hk]
    rw [Node.onlyKind_eq_nil fun a ha => (hks a ha).2]

theorem good_passes (h : B.Passes d s ps as as' l) (ha : ∀ a ∈ as, p.Takes k a)
    (hk : ∀ q ∈ ps.zip as, q.1.compileTime = true → k.Kept p.source q.2) :
    p.Gives k (∀ a ∈ as', p.Fits k a) l := by
  induction h with
  | nil => exact good_nil (by simp)
  | more hv _ ih =>
    rw [List.forall_mem_cons] at ha
    exact (hB.eval hv ha.1).append (fun _ => ih ha.2 (by simp)) fun hf hfs =>
      List.forall_mem_cons.2 ⟨hf, hfs⟩
  | given _ hv _ ih =>
    rw [List.forall_mem_cons] at ha
    exact (hB.eval hv ha.1).append (fun _ => ih ha.2 fun q hq => hk q (by simp [hq])) fun hf hfs =>
      List.forall_mem_cons.2 ⟨hf, hfs⟩
  | fixed hc _ ih =>
    rw [List.forall_mem_cons] at ha
    have hf := hp.kept ha.1 (hk (_, _) (by simp) hc)
    exact (ih ha.2 fun q hq => hk q (by simp [hq])).imp fun hfs => List.forall_mem_cons.2 ⟨hf, hfs⟩

theorem good_copiesToSink (h : k.CopiesToSink B d n s out l)
    (hn : p.Takes k n) : p.Good k out l := by
  cases h with
  | owning hx ht hc hv hs hcp ho =>
    refine .entered hx hn.type hn.span fun hr => .asked ?_
    have htmp := fits_entered hx ht hr.1 hn.type hn.span
    refine (good_marker hp hc htmp (.cleared hx ht hc)).append (fun _ => (hB.eval hv hn).append
      (fun hfv => good_copies hp hs htmp hfv) fun _ h => h) fun hcleared hcopied => ?_
    exact fits_is ho rfl (shows_unnamed hn.type hn.span)
      (by simp [hcleared, hcopied, hp.copy htmp hcp]) (by simp)
  | plain hx ht hv hs hcp ho =>
    refine .entered hx hn.type hn.span fun hr => ((hB.eval hv hn).imp fun hfv => ?_).asked
    have htmp := fits_entered hx ht hr.1 hn.type hn.span
    have hstored := hp.tree hs rfl hp.noType (by simp [htmp, hfv]) (by simp)
    exact fits_is ho rfl (shows_unnamed hn.type hn.span) (by simp [hstored, hp.copy htmp hcp])
      (by simp)

theorem good_sinkArgs (h : k.SinkArgs B d n s out l) (hn : p.Takes k n) : p.Good k out l := by
  cases h with
  | constant ho => exact good_copiesToSink hp hB ho hn
  | copied ho => exact (good_copiesToSink hp hB ho hn).asked
  | consumed _ _ ho => exact hB.eval ho hn
  | void _ ho => exact hB.eval ho hn
  | unowned ho => exact (hB.eval ho hn).asked
  | moved hm ho => exact (good_movesOut hp ho hn hm).asked
  | operand he hk _ ha ho =>
    subst he
    refine ((hB.eval ha (hp.kid hn (by simp))).imp fun hf =>
      hn.withKids ho ?_ (by simpa using hf) ?_).asked <;>
      rcases hk with hk | hk | hk | hk <;> simp [Node.layoutFaults, hk, Node.wantKids]

omit hB in
theorem good_handsOn (h : k.HandsOn m s n out l) (hn : p.Fits k n) : p.Good k out l := by
  rcases h with ⟨rfl, rfl⟩ | ⟨-, h⟩
  · exact good_nil hn
  · exact good_keeps hp h hn

theorem good_call (ha : B.Passes d s ps as as' l) (hps : k.HasParams callee.type ps)
    (hn : p.Takes k (.node h (callee :: as)))
    (hk : (Node.node h (callee :: as)).isKind .call = true) :
    p.Gives k ((∀ a ∈ as', p.Fits k a) ∧ ∀ {callee' out}, p.Fits k callee' →
      callee' = callee ∨ (∃ l', B.eval d callee s .normal callee' l') →
      Node.Is h (callee' :: as') out → p.Fits k out) l := by
  have hk : h.kind = .call := by simpa using hk
  intro hl
  obtain ⟨hargs, hnotes⟩ := good_passes hp hB ha (fun a ha => hp.kid hn (by simp [ha]))
    (fun q hq hc => .fixed hn.source hk hps hq hc) hl
  refine ⟨⟨hargs, fun hc he ho => ?_⟩, hnotes⟩
  exact fits_is ho (by simp [Node.layoutFaults, hk]) hn.head (List.forall_mem_cons.2 ⟨hc, hargs⟩)
    fun _ => hB.call hn.source hk hps ha hl he ho

theorem good_callsWith (h : k.CallsWith B d s n out l) (hn : p.Takes k n)
    (hk : n.isKind .call = true) : p.Good k out l := by
  cases h with
  | plain hps ha hc ho =>
    exact (good_call hp hB ha hps hn hk).append (fun _ => hB.eval hc (hp.kid hn (by simp)))
      fun hcall hcallee => hcall.2 hcallee (.inr ⟨_, hc⟩) ho
  | alloc hc hps ha ho =>
    exact (good_call hp hB ha hps hn hk).imp fun hcall =>
      hcall.2 (hp.kept (hp.kid hn (by simp)) (.place hc.isPlace)) (.inl rfl) ho
  | @allocOver h callee a a' old new out ps args args' l1 l2 hc hps ha hnew hd ho =>
    have hname : a'.isKind .sym = true → a' = a := by
      cases ha with
      | more hv _ | given _ hv _ => exact hB.calm.eval hv
      | fixed => exact fun _ => rfl
    refine (good_call hp hB ha hps hn hk).append (fun hcall => good_destroys hp hd
      ⟨hcall.1 a' (by simp), fun hk => ?_⟩) fun hcall hold => ?_
    · rw [hname hk]
      exact (hp.kid hn (a := a) (by simp)).source
    · have hfnew := hcall.2 (hp.kept (hp.kid hn (by simp)) (.place hc.isPlace)) (.inl rfl) hnew
      exact hp.stmt ho rfl hn.head.span (by simp [hold, hfnew]) (by simp)

end Values

/-! ## Branches -/

section Branches

variable {B : Behaviour} {d : Nat} {s : ScopeId} {u : Use} (hp : p.Covers k) (hB : p.Respected k B)
  (hu : ∀ dest decl, u = .store dest decl → p.Holds k dest) {l : Log} {n out : Node} {isStmt : Bool}

include hB hu

theorem good_yields (h : B.Yields d u n s out l) (hn : p.Takes k n) : p.Good k out l := by
  cases u with
  | value m => exact hB.eval h hn
  | store dest decl => exact hB.store h (hu dest decl rfl) hn

theorem good_continues (h : k.Continues B d u n s out l) (hn : p.Takes k n) : p.Good k out l := by
  rcases h with ⟨-, h⟩ | ⟨-, h⟩
  · exact hB.eval h hn
  · exact good_yields hB hu h hn

include hp

omit hu in
theorem good_saves (h : k.Saves B d s ret tmp stored l)
    (hr : p.Takes k ret) (ht : p.Holds k tmp) : p.Good k stored l := by
  cases h with
  | owning hd hs =>
    exact ((good_destroys hp hd ht).append (fun hdestroyed => (good_due hdestroyed).append
      (fun _ => hB.store hs ht hr) fun _ h => h) fun _ h => h).asked
  | plain hv hs =>
    refine ((hB.eval hv hr).imp fun hf => hp.tree hs rfl hp.noType ?_ (by simp)).asked
    simp [ht.toFits, hf]

theorem good_closesValue (h : k.ClosesValue B d u s ret out l) (hr : p.Takes k ret) :
    p.Good k out l := by
  obtain ⟨hx, ht, hs, hy, hdecls, hrest, ho⟩ := h
  rename_i v x tmp stored result inner l decls rest
  have hregion : p.Gives k ((p.Admits (.fresh false v x) ∧ p.Fits k stored) ∧
      ∀ e ∈ Note.fresh false v x :: .var s v (some x) :: inner, p.Keeps k e)
      (Log.closed (some s) d (.fresh false v x :: .var s v (some x) :: inner)) :=
    Gives.close (.entered hx hr.type hr.span fun hv => (good_saves hp hB hs hr
      (hp.entered hx ht hv hr.type hr.span)).imp fun hf => ⟨hv, hf⟩) .intro
  refine hregion.append (fun hf => good_yields hB hu hy
    ⟨(hp.entered hx ht hf.1.1 hr.type hr.span).toWithin, hp.closed.fresh v x ret.span tmp hf.1.1.2
      ht⟩) ?_
  rintro ⟨⟨hv, hstored⟩, hnotes⟩ hresult
  have hn1 : ∀ e ∈ inner, p.Keeps k e := fun e he => hnotes e (by simp [he])
  refine fits_is ho ?_ (shows_unnamed hr.type hr.span) (fun a ha => ?_) (by simp)
  · have hne : (decls ++ rest).isEmpty = false := by cases hrest <;> simp
    simp [Node.layoutFaults, hne]
  · rcases List.mem_append.1 ha with ha | ha
    · exact fits_opening hp hdecls hnotes hr.span a ha
    · exact fits_trailingValue hp hrest hstored hresult hn1 hr.type hr.span a ha

theorem good_inArm (h : k.InArm B d u s isStmt body out l) (hb : p.Takes k body) :
    p.Good k out l := by
  cases h with
  | plain _ hc ho => exact (good_continues hB hu hc hb).close fun hf hn => fits_closes hp ho hf hn
  | value h => exact good_closesValue hp hB hu h hb

omit hu in
theorem good_inScope (h : B.InScope d s body out l) (hb : p.Takes k body) : p.Good k out l := by
  obtain ⟨ret, inner, hret, ho, rfl⟩ := h
  exact (hB.eval hret hb).close fun hf hn => fits_closes hp ho hf hn

theorem good_ifArm (h : k.IfArm B d u s isStmt n out l) (hn : p.Takes k n) : p.Good k out l := by
  cases h with
  | test hk hc hb ho =>
    refine (hB.eval hc (hp.kid hn (by simp))).append
      (fun _ => good_inArm hp hB hu hb (hp.kid hn (by simp))) fun hfc hfb => ?_
    exact hn.withKids ho (by simp [Node.layoutFaults, hk, Node.wantKids]) (by simp [hfc, hfb])
      (by simp [hk])
  | other hk hb ho =>
    refine (good_inArm hp hB hu hb (hp.kid hn (by simp))).imp fun hfb => ?_
    exact hn.withKids ho (by simp [Node.layoutFaults, hk, Node.wantKids]) (by simpa using hfb)
      (by simp [hk])

theorem good_caseArm (h : k.CaseArm B d u s isStmt n out l)
    (hn : p.Takes k n) : p.Good k out l := by
  obtain ⟨hk, hls, hb, ho⟩ := h
  refine (good_inArm hp hB hu hb (hp.kid hn (by simp))).imp fun hfb =>
    hn.withKids ho ?_ (fun a ha => ?_) (by rcases hk with hk | hk <;> simp [hk.1])
  · have hlen := List.Forall₂.length_eq hls
    rcases hk with ⟨hk, hne⟩ | ⟨hk, rfl⟩
    · have := List.length_pos_iff.2 hne
      simp only [Node.layoutFaults, hk, List.length_append, List.length_singleton]
      rw [if_neg (by omega)]
    · cases hls
      simp [Node.layoutFaults, hk, Node.wantKids]
  · rcases List.mem_append.1 ha with ha | ha
    · refine InjectM.forall_of_forall₂ hls (fun x hx y hy => hp.copy ?_ hy) a ha
      rcases hk with ⟨hk, -⟩ | ⟨-, rfl⟩
      · exact hp.kept (hp.kid hn (List.mem_append_left _ hx)) (.label hn.source (.inl hk) hx)
      · cases hx
    · rwa [List.mem_singleton.1 ha]

theorem good_handler (h : k.Handler B d u s isStmt n out l)
    (hn : p.Takes k n) : p.Good k out l := by
  cases h with
  | final hk hb ho =>
    refine (good_inScope hp hB hb (hp.kid hn (by simp))).imp fun hfb => ?_
    exact hn.withKids ho (by simp [Node.layoutFaults, hk, Node.wantKids]) (by simpa using hfb)
      (by simp [hk])
  | except hk hb ho =>
    refine (good_inArm hp hB hu hb (hp.kid hn (by simp))).imp fun hfb => ?_
    exact hn.withKids ho (by simp [Node.layoutFaults, hk, Node.wantKids]) (by simpa using hfb)
      (by simp [hk])

omit hB hu in
theorem fits_rebuilds (ho : Node.Rebuilds u h ks' out)
    (hn : p.Takes k (.node h ks)) (hl : Node.layoutFaults k.ops.symbols h ks' = .ok [])
    (hk : ∀ a ∈ ks', p.Fits k a) (hc : h.kind ≠ .call) : p.Fits k out := by
  unfold Node.Rebuilds at ho
  split_ifs at ho
  · refine fits_is ho rfl ⟨hp.noType, hn.head.span, fun r hr hs => ?_⟩ hk (by simp)
    exact hn.head.sym r hr (.inr (hs.resolve_left (by simp)))
  · exact fits_is ho hl ⟨hp.noType, hn.head.span, hn.head.sym⟩ hk fun h => absurd h hc
  · exact hn.withKids ho hl hk hc

omit hp hB hu in
theorem good_arms (h : InjectM.Each P arms arms' l) (ha : ∀ a ∈ arms, p.Takes k a)
    (hg : ∀ a b l, P a b l → p.Takes k a → p.Good k b l)
    (hk : ∀ a b l, P a b l → a.kindOr = b.kindOr) :
    p.Gives k ((∀ a ∈ arms', p.Fits k a) ∧ arms.map Node.kindOr = arms'.map Node.kindOr) l :=
  fun hl => (h.all hl fun x hx y l hy hl => hg x y l hy (ha x hx) hl).imp_left fun hf =>
    ⟨hf, h.map_eq fun x _ y l hy => hk x y l hy⟩

theorem good_nests (h : k.Nests B d u s n out l) (hn : p.Takes k n) : p.Good k out l := by
  have hlayout : ∀ {h : Head} {ks : List Node}, p.Takes k (.node h ks) →
      Node.layoutFaults k.ops.symbols h ks = .ok [] := fun hf => hf.wellFormed.node.1
  cases h with
  | nothing hk ho => exact good_nil (fits_rebuilds hp ho hn (hlayout hn) (by simp) (by simp [hk]))
  | list hk hb hlast ho =>
    refine (good_each hB hb fun a ha => hp.kid hn (by simp [ha])).append
      (fun _ => good_continues hB hu hlast (hp.kid hn (by simp))) fun hfb hfl =>
      fits_rebuilds hp ho hn ?_ ?_ ?_
    · rcases hk with hk | hk <;> simp [Node.layoutFaults, hk]
    · exact List.forall_mem_append.2 ⟨hfb, by simpa using hfl⟩
    · rcases hk with hk | hk <;> simp [hk]
  | cond hk ha ho =>
    refine (good_arms ha (fun a ha => hp.kid hn ha) (fun _ _ _ h => good_ifArm hp hB hu h)
      fun _ _ _ h => by rcases h with ⟨-, -, -, site, rfl⟩ | ⟨-, -, site, rfl⟩ <;> rfl).imp
      fun hr => fits_rebuilds hp ho hn ?_ hr.1 (by simp [hk])
    have := hlayout hn
    simp only [Node.layoutFaults, hk] at this ⊢
    rw [← Node.branchFaults_congr hr.2]
    exact this
  | choice hk hs ha ho =>
    refine (hB.eval hs (hp.kid hn (by simp))).append
      (fun _ => good_arms ha (fun a ha => hp.kid hn (by simp [ha]))
        (fun _ _ _ h => good_caseArm hp hB hu h) fun _ _ _ h => by
          obtain ⟨-, -, -, site, rfl⟩ := h
          rfl)
      fun hfs hr => fits_rebuilds hp ho hn ?_ (List.forall_mem_cons.2 ⟨hfs, hr.1⟩) (by simp [hk])
    have := hlayout hn
    simp only [Node.layoutFaults, hk] at this ⊢
    rw [← Node.branchFaults_congr hr.2]
    exact this
  | loop hk ht hb ho =>
    refine (hB.eval ht (hp.kid hn (by simp))).append
      (fun _ => good_inScope hp hB hb (hp.kid hn (by simp))) fun hft hfb =>
      hn.withKids ho ?_ (by simp [hft, hfb]) (by simp [hk])
    simp [Node.layoutFaults, hk, Node.wantKids]
  | @block h label body body' out l hk hb ho =>
    have hs : p.source (.node h ([label] ++ [body])) := hn.source
    have hf := hp.kept (hp.kid hn (a := label) (by simp)) (.label hs (.inr (.inl hk)) (by simp))
    refine (good_inArm hp hB hu hb (hp.kid hn (by simp))).imp fun hfb =>
      fits_rebuilds hp ho hn ?_ (by simp [hfb, hf]) (by simp [hk])
    simp [Node.layoutFaults, hk, Node.wantKids]
  | @trying h body body' hs hs' out l1 l2 hk hb hh ho =>
    refine (good_inArm hp hB hu hb (hp.kid hn (by simp))).append
      (fun _ => good_arms hh (fun a ha => hp.kid hn (by simp [ha]))
        (fun _ _ _ h => good_handler hp hB hu h)
        fun _ _ _ h => by rcases h with ⟨-, -, site, rfl⟩ | ⟨-, -, site, rfl⟩ <;> rfl)
      fun hfb hr => fits_rebuilds hp ho hn ?_ (List.forall_mem_cons.2 ⟨hfb, hr.1⟩) (by simp [hk])
    have hempty : hs.isEmpty = hs'.isEmpty := by
      have := hh.length_eq
      cases hs <;> cases hs' <;> simp_all
    have := hlayout hn
    simp only [Node.layoutFaults, hk] at this ⊢
    rw [← Node.branchFaults_congr hr.2, ← hempty]
    exact this

end Branches

/-! ## Statements -/

section Statements

variable {span : Span} {dest v : Node}
variable {B : Behaviour} {d : Nat} {s : ScopeId} (hp : p.Covers k) (hB : p.Respected k B) {l : Log}
  {n out : Node}

include hp

theorem good_guardsArm {guard : List Node}
    (h : k.GuardsArm span le obj tmp guard l) (hs : p.span span) (hl : p.Fits k le)
    (ho : p.Holds k obj) (ht : p.Fits k tmp) : p.Gives k (∀ a ∈ guard, p.Fits k a) l := by
  cases h with
  | none => exact good_nil (by simp)
  | @some le' tmp' same changed obj' destroyed test guard op l1 l2 hle htmp hsame hchanged hobj hd
      hb
      hg =>
    have hcall : same.isKind .sym = false := by
      obtain ⟨r, hc, -⟩ := hsame
      exact Ground.ne_sym_calls hc
    refine .cons (fun _ => trivial) fun hop => (good_callsMagic hp hsame (by simp) hp.bool hs
      (by simp [hp.copy hl hle, hp.copy ht htmp]) (by simp)).append (fun hfs =>
        good_callsMagic hp hchanged (by simp) hp.bool hs (by simpa using hfs)
          (by simpa using hcall))
      fun _ hfc => ?_
    have hfd : p.Fits k destroyed := by
      refine fits_calls hp hd hop.1 hp.noType hs (by simpa using hp.copy ho.toFits hobj) ?_
      refine hp.closed.emits _ _ (.operator hd fun a he hk => ?_) (by simpa using hop.2)
      obtain rfl : obj' = a := (List.cons.inj he).1
      refine ⟨obj, ho.name ?_, hobj⟩
      obtain ⟨next, rfl⟩ := hobj
      rwa [Node.isKind_eq_of_rename (Node.rename_relabel id obj next)] at hk
    have hft := hp.tree hb rfl hp.noType (by simp [hfc, hfd]) (by simp)
    have hkind := hb
    obtain ⟨site, rfl⟩ := hkind
    simpa using hp.tree hg rfl hp.noType (by simpa using hft) (by simp)

include hB

theorem good_storesTag (h : k.StoresTag B d s span dest src out l) (hs : p.span span)
    (hd : p.Takes k dest) (hsrc : p.Takes k src) : p.Good k out l := by
  obtain @⟨r, x, tmp, src', saved, obj, tmp', last, _, lh, rest, guard, l1, l2, l3, hdot, -, hx, ht,
    hv, hsaved, hle, hg, hc, hlast, ho⟩ := h
  refine .entered hx hsrc.type hs fun hr => ?_
  have htmp := fits_entered hx ht hr.1 hsrc.type hs
  have hobj : p.Fits k (.node lh (obj :: rest)) → p.Holds k obj := by
    refine fun hfle => ⟨hfle.kid (by simp), fun hk => ?_⟩
    obtain ⟨dh, ks, rfl⟩ := hB.calm.dot hle hdot hk
    exact (hp.kid hd (by simp)).source
  refine (hB.eval hv hsrc).append (fun _ => (hB.eval hle hd).append (fun hfle =>
    good_guardsArm hp hg hs hfle (hobj hfle) htmp) And.intro) ?_
  rintro hfv ⟨hfle, hfg⟩
  have hfs := hp.tree hsaved rfl hp.noType (by simp [htmp, hfv]) (by simp)
  have hfl := hp.tree hlast rfl hp.noType (by simp [hfle, hp.copy htmp hc]) (by simp)
  refine hp.stmt ho rfl hs ?_ (by simp)
  exact List.forall_mem_append.2 ⟨List.forall_mem_cons.2 ⟨hfs, hfg⟩, by simpa using hfl⟩

theorem good_assigns (ha : k.Assigns B d s (.node h [dest, src]) out l)
    (hn : p.Within k (.node h [dest, src])) (hd : p.Takes k dest) (hs : p.Takes k src)
    (hk : h.kind = .asgn ∨ h.kind = .fastAsgn) : p.Good k out l := by
  cases ha with
  | owned _ hdest hstore =>
    refine (hB.eval hdest hd).append (fun hf => hB.store hstore ⟨hf, fun hk => ?_⟩ hs) fun _ hf =>
      hf
    rw [hB.calm.eval hdest hk]
    exact hd.source
  | tag ht => exact good_storesTag hp hB ht hn.head.span hd hs
  | plain hdest hsrc ho =>
    refine (hB.eval hdest hd).append (fun _ => hB.eval hsrc hs)
      fun hfd hfs => hn.withKids ho ?_ (by simp [hfd, hfs]) ?_ <;>
      rcases hk with hk | hk <;> simp [Node.layoutFaults, hk, Node.wantKids]

omit hB in
theorem good_startsWith (h : k.StartsWith r span init start l)
    (hr : p.sym r) (hlt : r < k.size) (hs : p.span span) (hi : p.Takes k init) :
    p.Gives k (p.Takes k start) l := by
  cases h with
  | given => exact good_nil hi
  | default _ ht hv =>
    have ht := ht _ (k.entry_eq hlt) ▸ (hp.early r hlt hr).1
    intro hl
    obtain ⟨hf, hn⟩ := good_callsMagic hp hv (by simp) ht hs (by simp) (by simp) hl
    obtain ⟨q, hc, rfl⟩ := hv
    have hnote := hl (.magic .default q) (by simp)
    exact ⟨⟨hf.toWithin, hp.closed.start q _ span _ hnote.2 hc⟩, hn⟩

omit hB in
theorem good_schedules (h : k.Schedules v s l) (hv : p.Holds k v) : p.Gives k True l := by
  cases h with
  | never => exact good_nil trivial
  | atExit hd => exact (good_destroys hp hd hv).imp fun _ => trivial
  | atEnd hd => exact (good_destroys hp hd hv).append (fun hf => good_due hf) fun _ h => h

theorem good_declares (h : k.Declares B d s it outs l)
    (hn : p.Takes k it) (hk : it.kindOr = .identDefs) : p.Gives k (∀ a ∈ outs, p.Fits k a) l := by
  -- The name can be stored in, and stands again in front of another value.
  have hheld : ∀ {h : Head} {v init : Node}, p.Takes k (.node h [v, init]) →
      h.kind = .identDefs → p.Holds k v := by
    intro h v init hn hk
    obtain ⟨a, b, hks, hname⟩ := hn.wellFormed.initialization (.inr hk)
    cases hks
    have hv := hp.kid hn (a := v) (by simp)
    exact ⟨hp.keptName hv hname, fun _ => hv.source⟩
  have hsection : ∀ {h : Head} {v init init' it sec : Node}, p.Takes k (.node h [v, init]) →
      h.kind = .identDefs → p.Fits k init' → Node.Is h [v, init'] it →
      Node.Tree .varSection 0 [it] sec → p.Fits k sec := by
    intro h v init init' it sec hn hk hf hi hs
    have hit : p.Fits k it := by
      refine hn.withKids hi ?_ (by simp [hf, (hheld hn hk).toFits]) (by simp [hk])
      have hlay := hn.wellFormed.node.1
      simp only [Node.layoutFaults, hk] at hlay ⊢
      exact hlay
    have hkind : it.kindOr = .identDefs := by
      obtain ⟨site, rfl⟩ := hi
      exact hk
    refine hp.tree hs ?_ hp.noType (by simpa using hit) (by simp)
    exact congrArg Except.ok (Node.onlyKind_eq_nil (by simpa using hkind))
  have hvar : ∀ {h vh : Head} {vs : List Node} {init : Node} {r : SymRef} {i : ScopeId},
      p.Takes k (.node h [.node vh vs, init]) → h.kind = .identDefs → vh.sym = some r →
      (k.regular → r < k.size) → p.sym r ∧ p.Keeps k (.var i r (k.entry r)) := by
    intro h vh vs init r i hn hk hr hlt
    obtain ⟨a, b, hks, hname⟩ := hn.wellFormed.initialization (.inr hk)
    cases hks
    have hsym := (hp.kid hn (a := .node vh vs) (by simp)).head.sym r hr
      (.inl (by simpa using hname))
    have hlt := hlt hp.regular
    exact ⟨hsym, hsym, _, k.entry_eq hlt, hp.early r hlt hsym⟩
  cases h with
  | fixed hr hc hs =>
    refine good_nil ?_
    simpa using hp.tree hs (congrArg Except.ok (Node.onlyKind_eq_nil (by simpa using hk))) hp.noType
      (by simpa using hp.kept hn (.constant hn.source hk hr hc)) (by simp)
  | bare he hi hs =>
    have hinit := hp.kept (hp.kid hn (by simp)) (.stays (Ground.stays_of_empty he))
    exact good_nil (by simpa using hsection hn hk hinit hi hs)
  | @plain h vh vs r init start init' it sec l1 l2 hr hlt hst hv hi hs =>
    have hstart := good_startsWith hp hst (hvar hn hk hr hlt (i := s)).1 (hlt hp.regular)
      (hheld hn hk).head.span (hp.kid hn (by simp))
    exact hstart.append (fun hfs => hB.eval hv hfs) fun _ hfi => by
      simpa using hsection hn hk hfi hi hs
  | hoisted _ hr hlt hd =>
    exact .cons (fun _ => (hvar hn hk hr hlt).2) fun _ =>
      (good_schedules hp hd (hheld hn hk)).imp fun _ => by simp
  | @stored h vh vs r init start out l1 l2 l3 hr hlt hst hd ho =>
    have hname := hheld hn hk
    have hstart := good_startsWith hp hst (hvar hn hk hr hlt (i := s)).1 (hlt hp.regular)
      hname.head.span (hp.kid hn (by simp))
    exact hstart.append (fun hfs => .cons (fun _ => (hvar hn hk hr hlt).2) fun _ =>
      (good_schedules hp hd hname).append (fun _ => hB.store ho hname hfs) fun _ h => h)
      fun _ hfo => by simpa using hfo

theorem good_declaresAll (h : k.DeclaresAll B d s n out l)
    (hn : p.Takes k n) (hk : n.isKind .varSection = true) : p.Good k out l := by
  have hparts : ∀ {h : Head} {ks : List Node} {parts : List (List Node)} {l : Log},
      p.Takes k (.node h ks) → (Node.node h ks).isKind .varSection = true →
      InjectM.Each (k.Declares B d s) ks parts l → p.Gives k (∀ a ∈ parts.flatten,
        p.Fits k a) l := by
    intro h ks parts l hn hk hd hl
    have hkinds := hn.wellFormed.definitions (by simpa using hk)
    obtain ⟨hf, hnotes⟩ := hd.all hl fun x hx y l hy hl =>
      good_declares hp hB hy (hp.kid hn hx) (hkinds x hx) hl
    refine ⟨fun a ha => ?_, hnotes⟩
    obtain ⟨part, hpart, ha⟩ := List.mem_flatten.1 ha
    exact hf part hpart a ha
  cases h with
  | one hd ho => exact (hparts hn hk hd).imp fun hf => hf _ (by simp [ho])
  | list hd ho => exact (hparts hn hk hd).imp fun hf => hp.stmt ho rfl hn.head.span hf (by simp)

omit hp hB in
theorem good_statement (hg : p.Good k v' l) (hn : p.Takes k (.node h [v])) (ho : Node.Is h [v'] out)
    (hk : h.kind = .returnStmt ∨ h.kind = .raiseStmt ∨ h.kind = .discardStmt) : p.Good k out l := by
  refine hg.imp fun hf => hn.withKids ho ?_ (by simpa using hf) ?_ <;>
    rcases hk with hk | hk | hk <;> simp [Node.layoutFaults, hk, Node.wantKids]

theorem good_leaves (h : k.Leaves B d s n out l) (hn : p.Takes k n)
    (hk : n.isKind .returnStmt = true) : p.Good k out l := by
  cases h with
  | @bare h v he =>
    have hv := hp.kept (hp.kid hn (a := v) (by simp)) (.stays (Ground.stays_of_empty he))
    exact good_statement (good_nil hv).left hn ⟨_, rfl⟩ (.inl (by simpa using hk))
  | @result h r v res asgn assigned e ret out l hr hres ha hs he ht ho =>
    have hsym := hp.result r hr
    have hlt := k.inside hp.regular r (.inl hr)
    have hres := (k.entry_eq hlt ▸ hres).refers
    have hearly := hp.early r hlt hsym
    have hv : p.Takes k v := hp.kid hn (by simp)
    have hfres := fits_refers (k := k) hres hsym hearly.1 hearly.2 hv.span
    have hres' := hp.closed.early r v.span res hlt hres
    have hfe : p.Fits k e := hp.stmt he rfl hn.head.span (by simp) (by simp)
    have hfr := hp.stmt ht rfl hn.head.span (by simpa using hfe) (by simp)
    have hfa := hp.within_tree ha rfl hp.noType (by simp [hfres.toWithin, hv.toWithin])
    obtain ⟨site, rfl⟩ := ha
    refine (good_assigns hp hB hs hfa ⟨hfres.toWithin, hres'⟩ hv (.inl rfl)).left.imp fun hfs => ?_
    exact hp.stmt ho rfl hn.head.span (by simp [hfs, hfr]) (by simp)
  | @value h v v' out l hv ho =>
    exact good_statement (hB.eval hv (hp.kid hn (by simp))).left hn ho (.inl (by simpa using hk))

omit hB in
theorem good_disarms (h : k.Disarms v disarmed l) (hv : p.Takes k v) :
    p.Gives k (∀ a ∈ disarmed, p.Fits k a) l := by
  cases h with
  | none => exact good_nil (by simp)
  | self _ hm hr => exact (good_resets hp hr hv hm).imp fun hf => by simpa using hf
  | last he _ _ hm hr =>
    subst he
    exact (good_resets hp hr (hp.kid hv (by simp)) hm).imp fun hf => by simpa using hf

theorem good_raises (h : k.Raises B d s n out l) (hn : p.Takes k n)
    (hk : n.isKind .raiseStmt = true) : p.Good k out l := by
  cases h with
  | @bare h v he =>
    have hv := hp.kept (hp.kid hn (a := v) (by simp)) (.stays (Ground.stays_of_empty he))
    exact good_statement (good_nil hv).left hn ⟨_, rfl⟩ (.inr (.inl (by simpa using hk)))
  | @given h v v' out l hv ho =>
    exact good_statement (hB.eval hv (hp.kid hn (by simp))).left hn ho
      (.inr (.inl (by simpa using hk)))
  | @copied h v v' tmp cleared copied tmp' raised out r x disarmed l1 l2 l3 l4 hx ht hc hv hs hd hcp
      hr ho =>
    have hfv : p.Takes k v := hp.kid hn (by simp)
    refine .left (.entered hx hfv.type hfv.span fun hsym => ?_)
    have htmp := fits_entered hx ht hsym.1 hfv.type hfv.span
    have hfr := hp.stmt hr rfl hn.head.span (by simpa using hp.copy htmp hcp) (by simp)
    refine (good_marker hp hc htmp (.cleared hx ht hc)).append (fun _ => (hB.eval hv hfv).append
      (fun hfv' => (good_copies hp hs htmp hfv').append (fun _ => good_disarms hp hd hfv) And.intro)
      fun _ h => h) ?_
    rintro hfc ⟨hfs, hfd⟩
    refine hp.stmt ho rfl hn.head.span ?_ (by simp)
    exact List.forall_mem_append.2 ⟨List.forall_mem_append.2 ⟨by simp [hfc, hfs], hfd⟩, by simpa
      using hfr⟩

theorem good_stores (h : k.Stores B d dest ri s decl out l)
    (hd : p.Holds k dest) (hr : p.Takes k ri) : p.Good k out l := by
  cases h with
  | self _ _ ho => exact good_nil (hp.stmt ho rfl hr.span (by simp) (by simp))
  | copied hv ho =>
    exact (hB.eval hv hr).append (fun hf => good_copies hp ho hd.toFits hf) fun _ hf => hf
  | sunk hv ho => exact (hB.eval hv hr).append (fun hf => good_sinks hp ho hd hf) fun _ hf => hf
  | moved hm ho => exact good_sinksAndResets hp ho hd hr hm
  | unpacked he _ hk hm hv ho =>
    have hc := good_marks hp hm (by subst he; exact hp.kid hr (by simp)) hk.movable
    exact hc.append (fun _ => (hB.eval hv hr).append (fun hfv => good_sinks hp ho hd hfv)
      fun _ h => h) fun _ h => h
  | nested _ ho => exact good_nests hp hB (fun dest' decl h => by cases h; exact hd) ho hr
  | raised hk ho => exact good_raises hp hB ho hr hk

theorem good_handles (h : k.Handles B d n s m out l) (hn : p.Takes k n) : p.Good k out l := by
  cases h with
  | same hs => exact good_nil (hp.kept hn (.stays hs))
  | constructs hm ho =>
    exact (good_constructs hp hB hm hn).append (fun hf => good_handsOn hp ho hf) fun _ hf => hf
  | exit hk => exact (good_nil (hp.kept hn (.exit hk))).left
  | call hk hm hr ho =>
    refine (good_callsWith hp hB hm hn hk).append (fun hf => ?_) fun _ hf => hf
    obtain ⟨_, b, -, -, rfl⟩ := hr
    cases b
    · exact good_handsOn hp ho hf
    · exact (good_handsOn hp ho hf).left
  | discard he hk ha ho =>
    subst he
    exact good_statement (hB.eval ha (hp.kid hn (by simp))) hn ho (.inr (.inr hk))
  | declare hk ho => exact good_declaresAll hp hB ho hn hk
  | assign hk ho =>
    obtain ⟨h, dest, src, rfl⟩ := ho.eq_node
    exact good_assigns hp hB ho hn.toWithin (hp.kid hn (by simp)) (hp.kid hn (by simp))
      (by simpa using hk)
  | raise hk ho => exact good_raises hp hB ho hn hk
  | leave hk ho => exact good_leaves hp hB ho hn hk
  | dot he hk ha ho =>
    subst he
    obtain ⟨a, f, hks, hname⟩ := hn.wellFormed.dot hk
    cases hks
    have hff := hp.keptName (hp.kid hn (by simp)) hname
    refine (hB.eval ha (hp.kid hn (by simp))).imp fun hf =>
      hn.withKids ho ?_ (by simp [hf, hff]) (by simp [hk])
    have hl := hn.wellFormed.node.1
    simp only [Node.layoutFaults, hk] at hl ⊢
    exact hl
  | kids he hk ha ho =>
    subst he
    refine (good_each hB ha fun a ha => hp.kid hn ha).imp fun hf =>
      hn.withKids ho ?_ hf fun h => by rw [h] at hk; cases hk.1
    have hlay := hn.wellFormed.node.1
    have hlen := ha.length_eq
    revert hlay hk
    unfold Node.layoutFaults Node.wantKids
    cases h : Head.kind _ <;> simp_all [Node.stepsInto]

theorem good_evals (h : k.Evals B d n s m out l) (hn : p.Takes k n) : p.Good k out l := by
  cases h with
  | nested ho => exact good_nests hp hB (fun _ _ h => by cases h) ho hn
  | sinkArg ho => exact good_sinkArgs hp hB ho hn
  | plain _ ho => exact good_handles hp hB ho hn

end Statements

/-- The calls that are built again are allowed, with arguments as their parameters ask for. -/
def Rebuilt (p : Palette) (k : Ground) : Prop :=
  ∀ {n d s h callee callee' ps as as' out l}, p.source (.node h (callee :: as)) → h.kind = .call →
    k.HasParams callee.type ps → (k.ruled n).Passes d s ps as as' l → (∀ e ∈ l, p.Admits e) →
    callee' = callee ∨ (∃ l', (k.ruled n).eval d callee s .normal callee' l') →
    Node.Is h (callee' :: as') out → p.call out

theorem rebuilt_of_forall (hc : ∀ n, p.call n) : p.Rebuilt k := fun _ _ _ _ _ _ _ => hc _

theorem respected_ruled (hp : p.Covers k) (hc : p.Rebuilt k) : ∀ n, p.Respected k (k.ruled n)
  | 0 => ⟨fun h _ => h.elim, fun h _ _ => h.elim, Ground.calm_ruled k 0, hc⟩
  | n + 1 => ⟨fun h hn => good_evals hp (respected_ruled hp hc n) h hn,
      fun h hd hr => good_stores hp (respected_ruled hp hc n) h hd hr, Ground.calm_ruled k _, hc⟩

theorem good_sinkParams (hp : p.Covers k) (h : k.SinkParams i ps l)
    (hps : ∀ r, some r ∈ ps → some r ∈ k.routine.params) : p.Gives k True l := by
  induction h with
  | nil => exact good_nil trivial
  | skip _ ih => exact ih fun r hr => hps r (by simp [hr])
  | @due r ps span v destroyed l1 l2 hs hv hd _ ih =>
    have hmem := hps r (by simp)
    have hlt := k.inside hp.regular r (.inr hmem)
    obtain ⟨hsink, hspan⟩ := hs _ (k.entry_eq hlt)
    have hv := (k.entry_eq hlt ▸ hv).refers
    have hsym := hp.params r hmem hsink
    have hearly := hp.early r hlt hsym
    have hfv := fits_refers (k := k) hv hsym hearly.1 hearly.2 (hspan ▸ hearly.2)
    exact (good_destroys hp hd ⟨hfv, fun _ => hp.closed.early r _ v hlt hv⟩).append (fun hfd =>
      .cons (fun _ => hfd) fun _ => ih fun r hr => hps r (by simp [hr])) fun _ h => h

/-- A body within a palette becomes one within it, given that what came up on the way is allowed. -/
theorem good_works (hp : p.Covers k) (hc : p.Rebuilt k) (h : k.Works out l)
    (hb : p.Takes k k.routine.body) : p.Good k out l := by
  obtain ⟨hret, hps, ho⟩ := h
  rw [← Log.closed_none]
  exact (((respected_ruled hp hc _).eval hret hb).append (fun _ => good_sinkParams hp hps fun _ h =>
    h)
    fun hf _ => hf).close fun hf hn => fits_closes hp ho hf hn

/-- A palette that asks nothing of symbols, types and positions. -/
def free (note : Note → Prop) (source call : Node → Prop) : Palette where
  sym _ := True
  type _ := True
  span _ := True
  strict := False
  note := note
  source := source
  call := call

theorem good_free {N : Note → Prop} {S C : Node → Prop} (hreg : k.regular)
    (hcl : (free N S C).Closed k) (hc : (free N S C).Rebuilt k) (h : k.Works out l)
    (hb : k.routine.body.WellFormed k.ops.symbols) (hs : S k.routine.body) (hl : ∀ e ∈ l, N e) :
    (free N S C).Fits k out ∧ ∀ e ∈ l, (free N S C).Keeps k e := by
  refine good_works ⟨hreg, trivial, trivial, trivial, fun _ _ _ => ⟨trivial, trivial⟩,
    fun _ _ => trivial, fun _ _ _ => trivial, hcl⟩ hc h
    ⟨⟨hb, fun _ _ => ⟨trivial, trivial, fun _ _ _ => trivial⟩⟩, hs⟩ fun e he => ?_
  have hn := hl e he
  cases e with
  | fresh | op | magic => exact ⟨trivial, hn⟩
  | asked => exact hn
  | _ => trivial

end Palette

end Lifecycle
