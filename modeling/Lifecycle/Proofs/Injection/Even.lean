import Lifecycle.Proofs.Injection.Tally

/-!
# Numbers are kept

Each rule keeps the number of nodes that a census counts even, given that the rules it uses do. So a
body that is fit for it is worked through to one with the same number, new variables apart
(`even_works`).
-/

namespace Lifecycle

namespace Ground.Census

variable {m : Mode}
variable {k : Ground} {C : k.Census} {j : Nat} {d : Nat} {s : ScopeId}

structure Fair (C : k.Census) (j : Nat) : Prop where
  eval : ∀ {d n s m out l}, (k.ruled j).eval d n s m out l → C.fit m.fate n → C.Even [n] [out] l
  store : ∀ {d dest ri s decl out l}, (k.ruled j).store d dest ri s decl out l → C.of dest = 0 →
    C.fit .stored ri → C.Even [ri] [out] l

theorem fit_mode (h : C.fit .given n) (m : Mode) : C.fit m.fate n := by
  cases m with
  | sinkArg => exact h
  | normal | consumed => exact C.read h

/-! ## Values -/

section Values

variable (hB : C.Fair j) {l : Log} {n out : Node} {args args' : List Node}

include hB

theorem even_each (h : InjectM.Each (fun a => (k.ruled j).eval d a s m) ks ks' l)
    (hk : ∀ a ∈ ks, C.fit m.fate a) : C.Even ks ks' l :=
  .each h fun a ha _ _ he => hB.eval he (hk a ha)

theorem even_constructs (h : (k.ruled j).Constructs d s n out l) (hn : C.fit f n) :
    C.Even [n] [out] l := by
  have hgiven : ∀ {h : Head} {ks : List Node}, C.fit f (.node h ks) →
      h.kind.isConstructor = true → ∀ a ∈ ks, C.fit .given a := fun hn hk a ha =>
    C.part (.given (.inl hk) ha) hn
  cases h with
  | @list h ks ks' m out l hk ha ho =>
    have hcon : h.kind.isConstructor = true := by rcases hk with hk | hk <;> rw [hk] <;> rfl
    exact (even_each hB ha fun a ha => fit_mode (hgiven hn hcon a ha) m).kids
      (by rcases hk with hk | hk <;> simp [hk]) ho
  | @closure h f env env' out m l hk ha ho =>
    have henv := hB.eval ha (fit_mode (hgiven hn (by rw [hk]; rfl) env (by simp)) m)
    exact ((Tally.Even.refl [f]).append henv).kids (by simp [hk]) ho
  | object hk ha ho =>
    refine (Tally.Even.each ha fun a hmem out l ha => ?_).kids (by simp [hk]) ho
    obtain ⟨h, f, v, v', m, rfl, hkind, hv, ho⟩ := ha
    have hfield := hgiven hn (by rw [hk]; rfl) _ hmem
    have hvalue := hB.eval hv (fit_mode (C.part (.given (.inr hkind) (by simp)) hfield) m)
    exact ((Tally.Even.refl [f]).append hvalue).kids (by simp [hkind]) ho

theorem even_passes
    (h : (k.ruled j).Passes d s ps args args' l) (ha : Node.Arguments C.fit ps args) :
    C.Even args args' l := by
  induction h with
  | nil => exact .refl []
  | more hv _ ih => exact (hB.eval hv ha.1).append (ih ha.2)
  | @given p ps a a' as as' l ls _ hv _ ih =>
    exact (hB.eval hv (Param.mode_cons p ps ▸ ha.1)).append (ih ha.2)
  | @fixed p ps a as as' ls _ _ ih => exact (Tally.Even.refl [a]).append (ih ha.2)

theorem of_passes (h : (k.ruled j).Passes d s ps (a :: args) (a' :: args') l)
    (ha : Node.Arguments C.fit ps (a :: args)) (hs : C.steady (Param.mode ps) a) : C.of a' = 0 := by
  have hread := C.read ha.1
  cases h with
  | more hv _ => exact C.kept hv hread hs (hB.eval hv ha.1)
  | fixed _ _ => exact C.zero hread hs
  | @given p ps _ _ _ _ l ls _ hv _ =>
    exact C.kept hv hread (Param.mode_cons p ps ▸ hs) (hB.eval hv (Param.mode_cons p ps ▸ ha.1))

theorem even_copiesToSink (h : k.CopiesToSink (k.ruled j) d n s out l)
    (hn : C.fit .read n) : C.Even [n] [out] l := by
  cases h with
  | owning hx ht hc hv hs hcp ho =>
    have htmp := Tally.of_refers (t := C.toTally) ht
    obtain ⟨he1, hcleared⟩ := even_resets hc htmp
    obtain ⟨he3, hcopied⟩ := even_copies hs htmp
    refine (he1.before ((hB.eval hv hn).after he3)).asked.entered.reshape rfl ?_
    simp [Tally.of_is ho, hcleared, hcopied, Tally.of_copy hcp, htmp]
  | plain hx ht hv hs hcp ho =>
    have htmp := Tally.of_refers (t := C.toTally) ht
    refine (hB.eval hv hn).asked.entered.reshape rfl ?_
    simp [Tally.of_is ho, Tally.of_tree hs, htmp, Tally.of_copy hcp]

theorem even_sinkArgs (h : k.SinkArgs (k.ruled j) d n s out l)
    (hn : C.fit .given n) : C.Even [n] [out] l := by
  cases h with
  | constant ho => exact even_copiesToSink hB ho (C.read hn)
  | copied ho => exact (even_copiesToSink hB ho (C.read hn)).asked
  | consumed _ _ ho => exact hB.eval ho (C.read hn)
  | void _ ho => exact hB.eval ho (C.read hn)
  | unowned ho => exact (hB.eval ho (C.read hn)).asked
  | moved hp ho => exact (even_movesOut ho (C.moved hn hp)).asked
  | @operand h a a' out m l he hk _ ha ho =>
    subst he
    have hfit : C.fit .given a := C.part (f := .given) (.operand hk (by simp)) hn
    refine ((hB.eval ha (fit_mode hfit m)).kids ?_ ho).asked
    rcases hk with hk | hk | hk | hk <;> simp [hk]

omit hB in
theorem even_handsOn (h : k.HandsOn m s n out l) : C.Even [n] [out] l := by
  rcases h with ⟨rfl, rfl⟩ | ⟨-, h⟩
  · exact .refl [out]
  · exact even_keeps h

omit hB in
theorem own_callee (h : (k.ruled j).eval d callee s .normal callee' l) (hk : C.kind = .call) :
    C.own (callee' :: args') = C.own (callee :: args) := by
  have hsym : ∀ {n : Node} {rest : List Node}, C.own (n :: rest) = 1 → n.isKind .sym = true := by
    intro n rest hn
    cases n with
    | hole => simp [Tally.own] at hn
    | node hd ks =>
      have hhit : C.hits hd.kind hd.sym = true := by
        by_contra hno
        simp [Tally.own, hno] at hn
      simp [C.named hk hhit]
  have hbit : ∀ ks, C.own ks = 0 ∨ C.own ks = 1 := fun ks => by
    unfold Tally.own
    split_ifs <;> simp
  rcases hbit (callee' :: args') with h1 | h1 <;> rcases hbit (callee :: args) with h2 | h2
  · rw [h1, h2]
  · rw [eq_of_name h (hsym h2)] at h1
    exact absurd (h1.symm.trans h2) (by simp)
  · rw [(calm_ruled k j).eval h (hsym h1)] at h1
    exact absurd (h2.symm.trans h1) (by simp)
  · rw [h1, h2]

theorem even_callsWith (h : k.CallsWith (k.ruled j) d s n out l) (hn : C.fit f n)
    (hk : n.isKind .call = true) : C.Even [n] [out] l := by
  have hcall : ∀ {h : Head} {ks : List Node}, (Node.node h ks).isKind .call = true →
      h.kind = .call := fun hk => by simpa using hk
  cases h with
  | plain hps ha hc ho =>
    have hargs := even_passes hB ha (C.arguments hn (hcall hk) hps)
    have hcallee := hB.eval hc (C.part (.callee (hcall hk)) hn)
    refine ((hargs.append hcallee).reshape ?_ ?_).build (fun hkind => ?_) ho
    · simp [Nat.add_comm]
    · simp [Nat.add_comm]
    · exact own_callee hc (hkind.symm.trans (hcall hk))
  | @alloc h callee out ps args args' l _ hps ha ho =>
    have hargs := even_passes hB ha (C.arguments hn (hcall hk) hps)
    exact ((Tally.Even.refl [callee]).append hargs).build (fun _ => rfl) ho
  | @allocOver h callee a a' old new out ps args args' l1 l2 hc hps ha hnew hd ho =>
    have hfit := C.arguments hn (hcall hk) hps
    have hargs := even_passes hB ha hfit
    have hzero := of_passes hB ha hfit (C.target hn (hcall hk) hc hps)
    obtain ⟨he, hold⟩ := even_destroys hd hzero
    have hcallee := ((Tally.Even.refl [callee]).append hargs).build (fun _ => rfl) hnew
    refine (hcallee.after he).reshape rfl ?_
    simp [Tally.of_is ho, hold]

end Values

/-! ## Branches -/

section Branches

variable {u : Use} (hB : C.Fair j) (hu : ∀ dest decl, u = .store dest decl → C.of dest = 0)
  {l : Log} {n out : Node} {isStmt : Bool}

include hB

theorem even_saves (h : k.Saves (k.ruled j) d s ret tmp stored l)
    (hr : C.fit .stored ret) (ht : C.of tmp = 0) : C.Even [ret] [stored] l := by
  cases h with
  | owning hd hs =>
    obtain ⟨he, hdestroyed⟩ := even_destroys hd ht
    exact (he.before ((Tally.Even.due hdestroyed).before (hB.store hs ht hr))).asked
  | plain hv hs =>
    refine (hB.eval hv (C.read hr)).asked.reshape rfl ?_
    simp [Tally.of_tree hs, ht]

theorem even_inScope (h : (k.ruled j).InScope d s body out l)
    (hb : C.fit .read body) : C.Even [body] [out] l := by
  obtain ⟨ret, inner, hret, ho, rfl⟩ := h
  exact (hB.eval hret hb).close ho

include hu

theorem even_yields (h : (k.ruled j).Yields d u n s out l)
    (hn : C.fit u.fate n) : C.Even [n] [out] l := by
  cases u with
  | value m => exact hB.eval h hn
  | store dest decl => exact hB.store h (hu dest decl rfl) hn

theorem even_continues (h : k.Continues (k.ruled j) d u n s out l)
    (hn : C.fit u.fate n) : C.Even [n] [out] l := by
  rcases h with ⟨-, h⟩ | ⟨-, h⟩
  · exact hB.eval h (C.read hn)
  · exact even_yields hB hu h hn

theorem even_closesValue (h : k.ClosesValue (k.ruled j) d u s ret out l)
    (hr : C.fit .stored ret) : C.Even [ret] [out] l := by
  obtain ⟨hx, ht, hs, hy, hdecls, hrest, ho⟩ := h
  rename_i v x tmp stored result inner l decls rest
  have htmp := Tally.of_refers (t := C.toTally) ht
  have hstored := even_saves hB hs hr htmp
  have hresult : C.Even [] [result] l :=
    (even_yields hB hu hy ((C.refers ht).1 _)).reshape (by simp [htmp]) rfl
  have hregion : C.Even [ret] (decls ++ [stored])
      (Log.closed (some s) d (.fresh false v x :: .var s v (some x) :: inner)) :=
    hstored.entered.region (by rw [Tally.all_append, Tally.all_opening hdecls, Nat.add_comm])
  refine (hregion.append hresult).reshape rfl ?_
  simp [Tally.of_is ho, Tally.all_trailingValue hrest hstored.plain]

theorem even_inArm (h : k.InArm (k.ruled j) d u s isStmt body out l)
    (hb : C.fit .stored body) : C.Even [body] [out] l := by
  cases h with
  | plain _ hc ho => exact (even_continues hB hu hc (of_stored hb _)).close ho
  | value h => exact even_closesValue hB hu h hb

theorem even_ifArm (h : k.IfArm (k.ruled j) d u s isStmt n out l) (hn : C.fit f n) :
    C.Even [n] [out] l := by
  cases h with
  | @test h cond cond' body body' out l1 l2 hk hc hb ho =>
    have hcond := hB.eval hc (C.part (.label [cond] hk (by simp)) hn)
    have hbody := even_inArm hB hu hb (C.part (.arm [cond] (by simp [hk])) hn)
    exact (hcond.append hbody).kids (by simp [hk]) ho
  | other hk hb ho =>
    exact (even_inArm hB hu hb (C.part (.arm [] (by simp [hk])) hn)).kids (by simp [hk]) ho

theorem even_caseArm (h : k.CaseArm (k.ruled j) d u s isStmt n out l) (hn : C.fit f n) :
    C.Even [n] [out] l := by
  obtain ⟨hk, hls, hb, ho⟩ := h
  have hkind : _ ∨ _ := hk.imp And.left And.left
  have hlabels := (Tally.Even.refl (t := C.toTally) _).reshape rfl (Tally.all_copies hls)
  have hbody := even_inArm hB hu hb (C.part (.arm _ (by tauto)) hn)
  refine (hlabels.append hbody).kids ?_ ho
  rcases hkind with hk | hk <;> simp [hk]

theorem even_handler (h : k.Handler (k.ruled j) d u s isStmt n out l) (hn : C.fit f n) :
    C.Even [n] [out] l := by
  cases h with
  | final hk hb ho =>
    exact (even_inScope hB hb (C.part (.other (by simp [hk]) (by simp)) hn)).kids (by simp [hk]) ho
  | except hk hb ho =>
    exact (even_inArm hB hu hb (C.part (.arm [] (by simp [hk])) hn)).kids (by simp [hk]) ho

omit hB hu in
theorem even_rebuilds (he : C.Even ks ks' l)
    (ho : Node.Rebuilds u h ks' out) (hk : h.kind ≠ .identDefs ∧ h.kind ≠ .call) :
    C.Even [.node h ks] [out] l := by
  refine he.reshape (by simp [Tally.of_node hk]) ?_
  unfold Node.Rebuilds at ho
  split_ifs at ho
  · simp [Tally.of_is ho]
  · simp [Tally.of_is ho, hk]
  · simp [Tally.of_is ho, hk]

theorem even_nests (h : k.Nests (k.ruled j) d u s n out l)
    (hn : C.fit u.fate n) : C.Even [n] [out] l := by
  cases h with
  | nothing hk ho => exact even_rebuilds (.refl []) ho (by simp [hk])
  | list hk hb hlast ho =>
    have hbefore := even_each hB hb fun a ha => C.part (.before hk ha) hn
    refine even_rebuilds (hbefore.append (even_continues hB hu hlast (C.part (.last hk) hn))) ho ?_
    rcases hk with hk | hk <;> simp [hk]
  | cond hk ha ho =>
    refine even_rebuilds (.each ha fun a hmem _ _ ha => ?_) ho (by simp [hk])
    exact even_ifArm hB hu ha (C.part (.other (by simp [hk]) hmem) hn)
  | choice hk hs ha ho =>
    have hkid : ∀ a ∈ _ :: _, C.fit .read a := fun a ha => C.part (.other (by simp [hk]) ha) hn
    have harms := Tally.Even.each ha fun a hmem _ _ ha =>
      even_caseArm hB hu ha (hkid a (by simp [hmem]))
    exact even_rebuilds ((hB.eval hs (hkid _ (by simp))).append harms) ho (by simp [hk])
  | loop hk ht hb ho =>
    have hkid : ∀ a ∈ [_, _], C.fit .read a := fun a ha => C.part (.other (by simp [hk]) ha) hn
    have hbody := even_inScope hB hb (hkid _ (by simp))
    exact ((hB.eval ht (hkid _ (by simp))).append hbody).kids (by simp [hk]) ho
  | @block h label body body' out l hk hb ho =>
    have hbody := even_inArm hB hu hb (C.part (.arm [label] (by simp [hk])) hn)
    exact even_rebuilds ((Tally.Even.refl [label]).append hbody) ho (by simp [hk])
  | trying hk hb hh ho =>
    have hkid : ∀ a ∈ _ :: _, C.fit .stored a := fun a ha => C.part (.stored (by simp [hk]) ha) hn
    have hbody := even_inArm hB hu hb (hkid _ (by simp))
    have hhandlers := Tally.Even.each hh fun a hmem _ _ ha =>
      even_handler hB hu ha (hkid a (by simp [hmem]))
    exact even_rebuilds (hbody.append hhandlers) ho (by simp [hk])

end Branches

/-! ## Statements -/

section Statements

variable {span : Span} {dest : Node}
variable (hB : C.Fair j) {l : Log} {n out : Node} {f : Fate}

theorem even_guardsArm {guard : List Node}
    (h : k.GuardsArm span le obj tmp guard l) (hl : C.of le = 0) (ho : C.of obj = 0)
    (ht : C.of tmp = 0) : C.Even [] [] l ∧ C.all guard = 0 := by
  cases h with
  | none => exact ⟨.refl [], rfl⟩
  | some hle htmp hsame hchanged hobj hd hb hg =>
    obtain ⟨he1, hs⟩ := even_callsMagic (C := C) hsame
    obtain ⟨he2, hc⟩ := even_callsMagic (C := C) hchanged
    refine ⟨⟨?_, List.forall_mem_cons.2 ⟨trivial, (he1.append he2).plain⟩⟩, ?_⟩
    · simpa [Tally.opens, Tally.makes] using (he1.append he2).count
    · simp [Tally.of_tree hg, Tally.of_tree hb, hc, hs, of_calls hd, Tally.of_copy hle,
        Tally.of_copy htmp, Tally.of_copy hobj, hl, ht, ho]

include hB

theorem even_storesTag {src : Node} (h : k.StoresTag (k.ruled j) d s span dest src out l)
    (hd : C.fit .read dest) (hs : C.steady .normal dest) (hsrc : C.fit .stored src) :
    C.Even [dest, src] [out] l := by
  obtain ⟨-, -, hx, ht, hv, hsaved, hle, hg, hc, hlast, ho⟩ := h
  have htmp := Tally.of_refers (t := C.toTally) ht
  have hdest := hB.eval hle hd
  have hplace := C.kept hle hd hs hdest
  have hzero := C.zero hd hs
  obtain ⟨he, hguard⟩ := even_guardsArm hg hplace (Tally.of_kid hplace (by simp)) htmp
  have hnotes := (hdest.of_zero (by simp [hzero]) (by simp [hplace])).before he
  refine ((hB.eval hv (C.read hsrc)).after hnotes).entered.reshape ?_ ?_
  · simp [hzero]
  · simp [Tally.of_is ho, Tally.of_tree hsaved, Tally.of_tree hlast, htmp, hguard, hplace,
      Tally.of_copy hc]

theorem even_assigns (ha : k.Assigns (k.ruled j) d s (.node h [dest, src]) out l)
    (hk : h.kind ≠ .identDefs ∧ h.kind ≠ .call) (hd : C.fit .read dest) (hs : C.fit .stored src)
    (hsteady : k.MayOwn dest.type ∨ dest.isDiscriminantField k.ops.symbols = .ok true →
    C.steady .normal dest) : C.Even [.node h [dest, src]] [out] l := by
  cases ha with
  | owned hown he hst =>
    have hsteady := hsteady (.inl hown)
    have hdest := hB.eval he hd
    have hplace := C.kept he hd hsteady hdest
    have hzero := C.zero hd hsteady
    have hnotes := hdest.of_zero (by simp [hzero]) (by simp [hplace])
    refine (hnotes.before (hB.store hst hplace hs)).reshape ?_ rfl
    simp [Tally.of_node hk, hzero]
  | tag ht =>
    have htag := ht
    obtain ⟨-, hfield, -⟩ := htag
    exact (even_storesTag hB ht hd (hsteady (.inr hfield)) hs).reshape
      (by simp [Tally.of_node hk]) rfl
  | plain he hv ho => exact ((hB.eval he hd).append (hB.eval hv (C.read hs))).kids hk ho

omit hB in
theorem even_startsWith (h : k.StartsWith r span init start l)
    (hi : C.fit f init) : C.fit f start ∧ C.Even [init] [start] l := by
  cases h with
  | given => exact ⟨hi, .refl _⟩
  | default he _ hv =>
    refine ⟨C.default hv, ?_⟩
    obtain ⟨hmagic, hstart⟩ := even_callsMagic (C := C) hv
    exact hmagic.of_eq (by simp [hstart, Tally.of_empty (C.wellFormed hi) he])

omit hB in
theorem even_schedules (h : k.Schedules v s l) (hv : C.of v = 0) : C.Even [] [] l := by
  cases h with
  | never => exact .refl []
  | atExit hd => exact (even_destroys hd hv).1
  | atEnd hd =>
    obtain ⟨he, hb⟩ := even_destroys hd hv
    exact he.after (.due hb)

theorem even_declares
    (h : k.Declares (k.ruled j) d s it outs l) (hn : C.fit f it) (hk : it.kindOr = .identDefs) :
    C.Even [it] outs l := by
  have hname : ∀ {h vh : Head} {vs : List Node} {init : Node},
      C.fit f (.node h [.node vh vs, init]) → h.kind = .identDefs →
        vh.kind = .sym ∧ C.of (.node vh vs) = 0 ∧ C.fit .stored init := by
    intro h vh vs init hn hk
    obtain ⟨a, b, hks, hsym⟩ := (C.wellFormed hn).initialization (.inr hk)
    cases hks
    exact ⟨by simpa using hsym, C.name (C.part (.stored (.inl hk) (by simp)) hn) hsym,
      C.part (.stored (.inl hk) (by simp)) hn⟩
  cases h with
  | fixed _ _ hs => exact (Tally.Even.refl _).reshape rfl (by simp [Tally.of_tree hs])
  | bare _ hi hs =>
    obtain ⟨site, rfl⟩ := hi
    refine (Tally.Even.refl _).reshape rfl ?_
    simp [Tally.of_tree hs, Tally.of]
  | plain hr _ hst hv hi hs =>
    obtain ⟨site, rfl⟩ := hi
    obtain ⟨hsym, hz, hinit⟩ := hname hn hk
    obtain ⟨hstart, he⟩ := even_startsWith hst hinit
    have hall := he.trans (hB.eval hv (C.read hstart))
    refine ⟨?_, hall.plain⟩
    have := hall.count
    rw [Tally.all_cons, Tally.all_cons, Tally.of_tree hs (by simp), Tally.all_cons,
      Tally.of_definition hk hsym hr hz, Tally.of_definition (by exact hk) hsym hr hz]
    simp only [Tally.all_cons, Tally.all_nil] at this ⊢
    omega
  | hoisted he hr _ hd =>
    obtain ⟨hsym, hz, hinit⟩ := hname hn hk
    have hs : C.Even [] [] ([] ++ _) := even_schedules hd hz
    refine hs.noted ?_
    simp [Tally.of_definition hk hsym hr hz, Tally.of_empty (C.wellFormed hinit) he]
  | stored hr _ hst hd ho =>
    obtain ⟨hsym, hz, hinit⟩ := hname hn hk
    obtain ⟨hstart, he⟩ := even_startsWith hst hinit
    have hrest := (even_schedules hd hz).before (hB.store ho hz hstart)
    exact (he.trans hrest).noted (by simp [Tally.of_definition hk hsym hr hz])

theorem even_declaresAll (h : k.DeclaresAll (k.ruled j) d s n out l) (hn : C.fit f n)
    (hk : n.isKind .varSection = true) : C.Even [n] [out] l := by
  have hparts : ∀ {h : Head} {ks : List Node} {parts : List (List Node)} {l : Log},
      C.fit f (.node h ks) → (Node.node h ks).isKind .varSection = true →
      InjectM.Each (k.Declares (k.ruled j) d s) ks parts l →
        C.Even [.node h ks] parts.flatten l := by
    intro h ks parts l hn hk hd
    have hk : h.kind = .varSection := by simpa using hk
    have hkinds := (C.wellFormed hn).definitions hk
    refine (Tally.Even.eachAll hd fun a ha _ _ h => ?_).reshape ?_ rfl
    · exact even_declares hB h (C.part (.other (.inl hk) ha) hn) (hkinds a ha)
    · simp [Tally.of_node, hk]
  cases h with
  | one hd ho => exact ho ▸ hparts hn hk hd
  | list hd ho => exact (hparts hn hk hd).wrap ho (by simp)

theorem even_leaves (h : k.Leaves (k.ruled j) d s n out l)
    (hn : C.fit f n) (hk : n.isKind .returnStmt = true) : C.Even [n] [out] l := by
  cases h with
  | bare => exact (Tally.Even.refl _).left
  | @result h r v res asgn assigned e ret out l hr hres ha hs he ht ho =>
    have hk : h.kind = .returnStmt := by simpa using hk
    have hv : C.fit .stored v := C.part (.stored (by simp [hk]) (by simp)) hn
    obtain ⟨y, -, hres⟩ := hres
    obtain ⟨hfit, hsteady⟩ := C.refers hres
    obtain ⟨site, rfl⟩ := ha
    refine (even_assigns hB hs (by simp) (hfit _) hv fun _ => hsteady).left.reshape ?_ ?_
    · simp [Tally.of_node, hk, Tally.of_refers hres]
    · simp [Tally.of_is ho, Tally.of_is ht, Tally.of_is he]
  | @value h v v' out l hv ho =>
    have hk : h.kind = .returnStmt := by simpa using hk
    have hfit : C.fit .stored v := C.part (.stored (by simp [hk]) (by simp)) hn
    exact ((hB.eval hv (of_stored hfit _)).kids (by simp [hk]) ho).left

omit hB in
theorem even_disarms (h : k.Disarms v disarmed l)
    (hv : C.fit .read v) : C.Even [] [] l ∧ C.all disarmed = 0 := by
  cases h with
  | none => exact ⟨.refl [], rfl⟩
  | self hk _ hr =>
    obtain ⟨he, hb⟩ := even_resets hr (C.name hv hk)
    exact ⟨he, by simp [hb]⟩
  | last hn hl hk _ hr =>
    subst hn
    obtain ⟨he, hb⟩ := even_resets hr (C.name (C.part (.last (.inr hl)) hv) hk)
    exact ⟨he, by simp [hb]⟩

theorem even_raises (h : k.Raises (k.ruled j) d s n out l)
    (hn : C.fit f n) (hk : n.isKind .raiseStmt = true) : C.Even [n] [out] l := by
  have hkid : ∀ {h : Head} {v : Node}, C.fit f (.node h [v]) →
      (Node.node h [v]).isKind .raiseStmt = true → h.kind = .raiseStmt ∧ C.fit .read v := by
    intro h v hn hk
    have hk : h.kind = .raiseStmt := by simpa using hk
    exact ⟨hk, C.part (.other (by simp [hk]) (by simp)) hn⟩
  cases h with
  | bare => exact (Tally.Even.refl _).left
  | given hv ho =>
    obtain ⟨hk, hfit⟩ := hkid hn hk
    exact ((hB.eval hv hfit).kids (by simp [hk]) ho).left
  | @copied h v v' tmp cleared copied tmp' raised out r x disarmed l1 l2 l3 l4 hx ht hc hv hs hd hcp
      hr ho =>
    obtain ⟨hk, hfit⟩ := hkid hn hk
    have htmp := Tally.of_refers (t := C.toTally) ht
    obtain ⟨he1, hcleared⟩ := even_resets hc htmp
    obtain ⟨he3, hcopied⟩ := even_copies hs htmp
    obtain ⟨he4, hdisarmed⟩ := even_disarms hd hfit
    have hall := he1.before ((hB.eval hv hfit).after (he3.before he4))
    refine hall.entered.left.reshape (by simp [Tally.of_node, hk]) ?_
    simp [Tally.of_is ho, Tally.of_is hr, hcleared, hcopied, hdisarmed, Tally.of_copy hcp, htmp]

theorem even_stores (h : k.Stores (k.ruled j) d dest ri s decl out l)
    (hd : C.of dest = 0) (hr : C.fit .stored ri) : C.Even [ri] [out] l := by
  cases h with
  | self hsame _ ho =>
    exact (Tally.Even.refl []).of_eq (by simp [Tally.of_is ho, C.same hr hsame])
  | copied hv ho =>
    obtain ⟨he, hcopied⟩ := even_copies ho hd
    exact ((hB.eval hv (C.read hr)).after he).reshape rfl (by simp [hcopied])
  | @sunk m _ _ _ _ hv ho =>
    obtain ⟨he, hsunk⟩ := even_sinks ho hd
    exact ((hB.eval hv (of_stored hr _)).after he).reshape rfl (by simp [hsunk])
  | moved hp ho => exact even_sinksAndResets ho hd (C.taken hr hp)
  | unpacked he hi hk hm hv ho =>
    subst he
    have hcontainer : C.fit .read _ := C.part (.other (by simp [hi]) (List.mem_cons_self ..)) hr
    obtain ⟨hh, hs, r, rfl, hsym, -⟩ := hk
    have hmarks := even_marks hm (C.name hcontainer (by simp [hsym]))
    obtain ⟨he, hsunk⟩ := even_sinks ho hd
    exact (hmarks.before ((hB.eval hv (C.read hr)).after he)).reshape rfl (by simp [hsunk])
  | nested _ ho => exact even_nests hB (fun dest' decl h => by cases h; exact hd) ho hr
  | raised hk ho => exact even_raises hB ho hr hk

theorem even_handles (h : k.Handles (k.ruled j) d n s m out l) (hn : C.fit f n) :
    C.Even [n] [out] l := by
  cases h with
  | same => exact .refl _
  | exit => exact (Tally.Even.refl _).left
  | constructs hm ho => exact (even_constructs hB hm hn).trans (even_handsOn ho)
  | call hk hm hr ho =>
    refine (even_callsWith hB hm hn hk).trans ?_
    obtain ⟨st, b, -, -, rfl⟩ := hr
    cases b
    · exact even_handsOn ho
    · exact (even_handsOn ho).left
  | discard he hk ha ho =>
    subst he
    exact (hB.eval ha (C.part (.other (by simp [hk]) (by simp)) hn)).kids (by simp [hk]) ho
  | declare hk ho => exact even_declaresAll hB ho hn hk
  | assign hk ho =>
    obtain ⟨h, dest, src, rfl⟩ := ho.eq_node
    have hk : h.kind = .asgn ∨ h.kind = .fastAsgn := by simpa using hk
    exact even_assigns hB ho (by rcases hk with hk | hk <;> simp [hk]) (C.part (.dest hk) hn)
      (C.part (.source hk) hn) (C.dest hn hk)
  | raise hk ho => exact even_raises hB ho hn hk
  | leave hk ho => exact even_leaves hB ho hn hk
  | @dot h obj obj' f out l he hk ha ho =>
    subst he
    have hobj := hB.eval ha (C.part (.other (by simp [hk]) (by simp)) hn)
    have hpair : C.Even [obj, f] [obj', f] l := by simpa using hobj.append (Tally.Even.refl [f])
    exact hpair.kids (by simp [hk]) ho
  | @kids h ks ks' out l he hk ha ho =>
    subst he
    refine (even_each hB ha fun a ha => ?_).kids ?_ ho
    · by_cases hconv : h.kind = .conv ∨ h.kind = .upConv ∨ h.kind = .downConv ∨ h.kind = .cast
      · exact C.read (C.part (.operand hconv ha) hn)
      · refine C.part (.other ?_ ha) hn
        revert hconv
        obtain ⟨hstep, hdot⟩ := hk
        revert hstep hdot
        cases h.kind <;> simp [Node.stepsInto]
    · obtain ⟨hstep, -⟩ := hk
      revert hstep
      cases h.kind <;> simp [Node.stepsInto]

theorem even_evals (h : k.Evals (k.ruled j) d n s m out l) (hn : C.fit m.fate n) :
    C.Even [n] [out] l := by
  cases h with
  | nested ho => exact even_nests hB (fun _ _ h => by cases h) ho hn
  | sinkArg ho => exact even_sinkArgs hB ho hn
  | plain _ ho => exact even_handles hB ho hn

end Statements

theorem fair_ruled (C : k.Census) : ∀ j, C.Fair j
  | 0 => ⟨fun h _ => h.elim, fun h _ _ => h.elim⟩
  | j + 1 => ⟨fun h hn => even_evals (fair_ruled C j) h hn,
      fun h hd hr => even_stores (fair_ruled C j) h hd hr⟩

theorem even_sinkParams (h : k.SinkParams i ps l) : C.Even [] [] l := by
  induction h with
  | nil => exact .refl []
  | skip _ ih => exact ih
  | due _ hv hd _ ih =>
    obtain ⟨he, hb⟩ := even_destroys hd (Tally.of_names hv)
    refine he.after ⟨?_, List.forall_mem_cons.2 ⟨hb, ih.plain⟩⟩
    simpa [Tally.opens, Tally.makes] using ih.count

/-- A body that is fit is worked through to one with the same number, and what counts among the new
variables. -/
theorem even_works (C : k.Census) (h : k.Works out l) (hb : C.fit .read k.routine.body) :
    C.Even [k.routine.body] [out] l := by
  obtain ⟨hret, hps, ho⟩ := h
  rw [← Log.closed_none]
  exact (((fair_ruled C _).eval hret hb).after (even_sinkParams hps)).close ho

end Ground.Census

end Lifecycle
