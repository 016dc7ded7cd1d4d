import Lifecycle.Proofs.Flow.OtherRead
import Lifecycle.Proofs.Injection.Moves
import Lifecycle.Proofs.Injection.Run

/-!
# Which read a note blames

Where a value has to be copied and cannot be, the report may note that another read is done
elsewhere. What it notes was blamed by the oracle for a read that it refused (`Graph.Blames`). When
a location is stored that is handed on as it stands, that read is the one of the location
(`Routine.inject_justified`), and so it is when a location is given to a sink parameter and the
oracle is asked about it.

It may not be asked, and the note is then left over from an argument before (`noted_for_another`).
-/

namespace Lifecycle

namespace Graph

/-- The oracle has a reason to blame `w` for a read with `A`: the graph has the read, and a way
leads from it to the access `w`, which competes with it, over no write that covers the location. -/
def Blames (g : Graph) (A : Node → Prop) (w : Node) : Prop :=
  ∃ n m pc last i, A n ∧ n.skipConv = .ok m ∧ g.find? m = some pc ∧
    g.Way (¬ Covers m ·) (pc + 1) last ∧ g.code[last]? = some i ∧ i.access? = some w ∧ Competes m i

/-- Every note on another read is about an access that is blamed for a read with `A`. -/
def Justifies (g : Graph) (A : Node → Prop) (d : Diagnostic) : Prop :=
  ∀ x ∈ d.notes, x.message = "another read is done here" → ∃ w, g.Blames A w ∧ x.span = w.span

variable {g : Graph} {A : Node → Prop}

theorem blames_of_clash (hn : A n) (hm : n.skipConv = .ok m)
    (hpc : g.find? m = some pc) (h : g.scanLastRead m (pc + 1) = .clash w) : g.Blames A w := by
  have hne : g.scanLastRead m (pc + 1) ≠ .lost := by simp [h]
  have hfound := (scans_of_scan _ _ _ hne).found (.inl (.refl _))
  rw [show g.scan _ _ _ _ = _ from h] at hfound
  obtain ⟨last, i, hway, hi, ha, hj⟩ := hfound
  exact ⟨n, m, pc, last, i, hn, hm, hpc, hway.mono fun _ h => not_covers_of_goOn (goOn_of_passes h),
    hi, ha, competes_of_clash hj⟩

end Graph

/-- Asked about a read that the graph has, the oracle ends with an access to blame or with none; of
another read it says nothing new. -/
theorem Oracle.isLastRead_cases {o o' : Oracle}
    (hn : A n) (h : o.isLastRead n = .ok (last, o')) : o'.graph = o.graph ∧
      ((∃ m, n.skipConv = .ok m ∧ o.graph.find? m = none ∧ o' = o) ∨
        ∀ w, o'.otherRead = some w → o.graph.Blames A w) := by
  unfold isLastRead at h
  obtain ⟨m, hm, h⟩ := bind_eq_ok.1 h
  rcases hpc : o.graph.find? m with _ | pc
  · rw [hpc] at h
    cases h
    exact ⟨rfl, .inl ⟨m, hm, hpc, rfl⟩⟩
  · rw [hpc] at h
    dsimp only at h
    rcases hs : o.graph.scanLastRead m (pc + 1) with e | w | _ <;> rw [hs] at h <;> cases h
    · exact ⟨rfl, .inr nofun⟩
    · refine ⟨rfl, .inr fun w' hw => ?_⟩
      cases hw
      exact Graph.blames_of_clash hn hm hpc hs
    · exact ⟨rfl, .inr nofun⟩

namespace InjectState

variable {c : InjectContext} {A : Node → Prop} {g : Graph} {st st' : InjectState}

/-- What the state holds against a move was blamed for a read with `A`. What the oracle remembers
was, too, or will not be looked at: the graph has all reads that it is asked about. -/
structure Fair (g : Graph) (A : Node → Prop) (st : InjectState) : Prop where
  graph : st.oracle.graph = g
  otherRead : ∀ w, st.otherRead = some w → g.Blames A w
  oracle : (∀ w, st.oracle.otherRead = some w → g.Blames A w) ∨
    ∀ n m, A n → n.skipConv = .ok m → g.find? m ≠ none

/-- The reports that are added are justified. -/
def Adds (g : Graph) (A : Node → Prop) (st st' : InjectState) : Prop :=
  ∃ ds, st'.reports = st.reports ++ ds ∧ ∀ d ∈ ds, g.Justifies A d

theorem Adds.refl (h : st'.reports = st.reports) : st.Adds g A st' := ⟨[], by simp [h], by simp⟩

/-- Where nothing is held against a move, and the graph has the one read that is asked about. -/
theorem Fair.forgotten (hg : st.oracle.graph = g) (hm : n.skipConv = .ok m)
    (hfind : g.find? m ≠ none) : InjectState.Fair g (· = n) { st with otherRead := none } :=
  ⟨hg, by simp, .inr fun n' m' hn' hm' => by
    subst hn'
    rwa [← Except.ok.inj (hm.symm.trans hm')]⟩

theorem Move.fair (h : Move c A st st') (hf : st.Fair g A) : st'.Fair g A ∧ st.Adds g A st' := by
  cases h with
  | quiet ho hr hs _ =>
    exact ⟨⟨ho ▸ hf.graph, hr ▸ hf.otherRead, ho ▸ hf.oracle⟩, .refl hs⟩
  | traced _ _ _ => exact ⟨⟨hf.graph, hf.otherRead, hf.oracle⟩, .refl rfl⟩
  | forgot => exact ⟨⟨hf.graph, nofun, hf.oracle⟩, .refl rfl⟩
  | @asked n last o hn h =>
    refine ⟨?_, .refl rfl⟩
    obtain ⟨hg, hcases⟩ := Oracle.isLastRead_cases hn h
    have ho : ∀ w, o.otherRead = some w → g.Blames A w := by
      rcases hcases with ⟨m, hm, hnone, rfl⟩ | hb
      · exact hf.oracle.resolve_right fun hall => hall n m hn hm (hf.graph ▸ hnone)
      · exact hf.graph ▸ hb
    refine ⟨hg.trans hf.graph, fun w hw => ho w ?_, .inl ho⟩
    cases last with
    | false => exact hw
    | true => cases hw
  | @reported d hd =>
    refine ⟨⟨hf.graph, hf.otherRead, hf.oracle⟩, [d], rfl, fun d' hd' x hx ht => ?_⟩
    obtain rfl := List.mem_singleton.1 hd'
    obtain ⟨w, hw, hs⟩ := hd x hx ht
    exact ⟨w, hf.otherRead w hw, hs⟩

theorem Onward.fair (h : st.Onward c A st') (hf : st.Fair g A) :
    st'.Fair g A ∧ st.Adds g A st' := by
  induction h with
  | refl => exact ⟨hf, .refl rfl⟩
  | tail _ hmove ih =>
    obtain ⟨hf1, ds1, hr1, hd1⟩ := ih
    obtain ⟨hf2, ds2, hr2, hd2⟩ := hmove.fair hf1
    refine ⟨hf2, ds1 ++ ds2, ?_, List.forall_mem_append.2 ⟨hd1, hd2⟩⟩
    rw [hr2, hr1, List.append_assoc]

end InjectState

namespace Node

def IsPlain (n : Node) : Prop :=
  n.isPurePlace = .ok true ∧ (n.isKind .sym ∨ n.isKind .dot ∨ n.isKind .index ∨ n.isKind .deref)

end Node

namespace InjectM

variable {c : InjectContext} {n m dest : Node} {s : ScopeId} {decl : Bool} {st st₁ : InjectState}

theorem eval_plain (k : Nat) {m : Mode} (hm : m ≠ .sinkArg) (hn : n.IsPlain) :
    (rules (k + 1)).eval n s m = pure n := by
  obtain ⟨hpure, hkind⟩ := hn
  rcases n with _ | ⟨⟨kind⟩, ks⟩
  · cases hpure
  have hk : kind = .sym ∨ kind = .dot ∨ kind = .index ∨ kind = .deref := by
    simpa using hkind
  change evalStep (rules k) (.node _ ks) s m = _
  rcases hk with rfl | rfl | rfl | rfl <;> cases m <;> first | exact absurd rfl hm | rfl | skip
  all_goals
    unfold evalStep
    rw [hpure]
    rfl

theorem leads_storePlain (k : Nat) (hn : n.IsPlain) (st : InjectState) :
    Leads (InjectState.Onward c (· = n) { st with otherRead := none })
      ((rules (k + 2)).store dest n s decl c st)
      fun _ => InjectState.Onward c (· = n) { st with otherRead := none } := by
  have heval : Moves c (· = n) ((rules (k + 1)).eval n s .consumed) := by
    rw [eval_plain k (by decide) hn]
    exact .pure
  refine leads_storeStep (A := (· = n)) rfl heval (fun h hh hmem => ?_) st
  rcases n with _ | ⟨h', ks⟩
  · cases hh
  cases hh
  have hk : h.kind = .sym ∨ h.kind = .dot ∨ h.kind = .index ∨ h.kind = .deref := by
    simpa using hn.2
  rcases hk with hk | hk | hk | hk <;> rw [hk] at hmem <;> simp at hmem

/-- The oracle is asked whether the location can be taken over by a sink parameter. -/
def AsksOracle (c : InjectContext) (n : Node) (st : InjectState) : Prop :=
  ∃ h st₁, n.info = .ok h ∧ isOwning h.type c st = .ok true st₁ ∧
    canTakeOver n c st₁ = isLastRead n c st₁

theorem canTakeOver_of_isOwnPlace (hs : isSinkParam n c st = .ok false st)
    (ho : n.isOwnPlace st.ops.symbols c.routine.sym = .ok true)
    (hc : n.isCursor st.ops.symbols = .ok false) : canTakeOver n c st = isLastRead n c st := by
  rw [canTakeOver, bind_of_eq_ok hs, if_pos (by decide),
    bind_of_eq_ok (m := isOwnPlace n) (lift_of_eq_ok ho), if_neg (by decide)]
  exact bind_of_eq_ok (m := isCursor n) (lift_of_eq_ok hc)

theorem isOwning_keeps {t : TypeId} {b : Bool} (h : isOwning t c st = .ok b st₁) :
    st₁.oracle = st.oracle ∧ st₁.reports = st.reports := by
  have hleads : Leads (fun _ => True) (isOwning t c st) fun _ st₁ =>
      st₁.oracle = st.oracle ∧ st₁.reports = st.reports := by
    refine leads_bind.2 (leads_ite (fun _ => ⟨rfl, rfl⟩) fun _ => leads_bind.2 (leads_ops.2 ?_))
    cases OpM.needsLifecycle c.types t st.ops with
    | ok b o => exact ⟨rfl, rfl⟩
    | error e o => trivial
  rwa [h] at hleads

theorem isVoid_of_isOwning {t : TypeId} (h : isOwning t c st = .ok true st₁) :
    isVoid t c st = .ok false st := by
  cases hv : c.types.isEmpty t with
  | false => exact congrArg (EStateM.Result.ok · st) hv
  | true =>
    have hvoid : isVoid t c st = .ok true st := congrArg (EStateM.Result.ok · st) hv
    rw [isOwning, bind_of_eq_ok hvoid] at h
    cases h

theorem sinkArg_plain (k : Nat) (hn : n.IsPlain) {h : Head} (hh : n.info = .ok h)
    (hown : isOwning h.type c st = .ok true st₁) :
    (rules (k + 2)).eval n s .sinkArg c st = (do
      if ← canTakeOver n then moveOut n else copyToSink (rules (k + 1)) n s : InjectM Node) c
    st₁ := by
  rcases n with _ | ⟨h', ks⟩
  · cases hh
  cases hh
  have hk : h.kind = .sym ∨ h.kind = .dot ∨ h.kind = .index ∨ h.kind = .deref := by
    simpa using hn.2
  obtain ⟨heval, hconst, hbuilt⟩ : (rules (k + 2)).eval (.node h ks) s .sinkArg =
      sinkArg (rules (k + 1)) (.node h ks) s ∧ (Node.node h ks).holdsConstSeq c.types = .ok false ∧
      ((Node.node h ks).isConstructor || h.kind = .call || h.kind.isLiteral) = false := by
    cases h
    dsimp only at hk
    rcases hk with rfl | rfl | rfl | rfl <;> exact ⟨rfl, rfl, rfl⟩
  have hread : (read : InjectM InjectContext) c st = .ok c st := rfl
  have hinfo : (liftM (Node.node h ks).info : InjectM Head) c st = .ok h st := rfl
  have hnone : (liftM ((Node.node h ks).holdsConstSeq c.types) : InjectM Bool) c st =
    .ok false st := by
    rw [hconst]
    rfl
  rw [heval, sinkArg, bind_of_eq_ok hread, bind_of_eq_ok hnone, if_neg Bool.false_ne_true,
    bind_of_eq_ok hinfo, if_neg (by simp [hbuilt]), bind_of_eq_ok (isVoid_of_isOwning hown),
    if_neg Bool.false_ne_true, bind_of_eq_ok hown]
  rcases hk with hk | hk | hk | hk <;> rw [hk] <;> rfl

set_option synthInstance.maxSize 100000 in
theorem leads_sinkPlain (k : Nat) (hn : n.IsPlain) (hm : n.skipConv = .ok m)
    (hfind : st.oracle.graph.find? m ≠ none) (hask : AsksOracle c n st) :
    Leads (st.Adds st.oracle.graph (· = n)) ((rules (k + 2)).eval n s .sinkArg c st)
      fun _ => st.Adds st.oracle.graph (· = n) := by
  obtain ⟨h, st₁, hh, hown, heq⟩ := hask
  obtain ⟨ho, hrep⟩ := isOwning_keeps hown
  have hadds : ∀ {st₂ : InjectState}, InjectState.Onward c (· = n)
    { st₁ with otherRead := none } st₂ →
      st.Adds st.oracle.graph (· = n) st₂ := by
    intro st₂ h
    obtain ⟨ds, hds, hj⟩ := (h.fair (.forgotten (by rw [ho]) hm hfind)).2
    exact ⟨ds, by rw [hds, hrep], hj⟩
  have hmoves := @moves_ask c (· = n) n rfl
  have hcopy : Moves c (· = n) (copyToSink (rules (k + 1)) n s) := by
    unfold copyToSink
    rw [eval_plain k (by decide) hn]
    infer_instance
  -- The question forgets what denied another move.
  have hrun : Leads (InjectState.Onward c (· = n) { st₁ with otherRead := none })
      ((do if ← isLastRead n then moveOut n else copyToSink (rules (k + 1)) n s : InjectM Node) c
        st₁)
      fun _ => InjectState.Onward c (· = n) { st₁ with otherRead := none } := by
    unfold isLastRead
    rw [bind_assoc]
    refine leads_bind.2 (@Moves.leads _ c (· = n) _ ?_ _)
    infer_instance
  rw [sinkArg_plain k hn hh hown, leads_bind, heq, ← leads_bind]
  exact hrun.mono (fun _ => hadds) fun _ _ => hadds

end InjectM

namespace Routine

variable {r : Routine} {env : InjectEnv} {sh : Shared}

/-- All that the oracle is asked about in the work on the routine are nodes with `A`. -/
def AsksOnly (r : Routine) (env : InjectEnv) (sh : Shared) (A : Node → Prop) : Prop :=
  ∀ c st g, c.types = env.types → c.routine = r → st.Starts sh g →
    Leads (st.Onward c A) (InjectM.body c st) fun _ => st.Onward c A

theorem asksOnly_all : r.AsksOnly env sh fun _ => True :=
  fun _ st _ _ _ _ => InjectM.moves_body.leads st

/-- Whatever the reports note as another read was blamed by the oracle for some read that it was
asked about and refused: one with any property that all such reads have. In a store of a plain
location that the graph has, and where one is given to a sink parameter and the oracle is asked
about it, the refused read is that of the location. -/
theorem inject_justified :
    (∀ A, r.AsksOnly env sh A → ∀ res, (r.inject env sh).1 = .ok res →
      ∀ d ∈ res.reports, ∀ x ∈ d.notes, x.message = "another read is done here" →
        ∃ g w, res.graph = some g ∧ g.Blames A w ∧ x.span = w.span) ∧
    ∀ (c : InjectContext) (st : InjectState) (k : Nat) (n m : Node) (s : ScopeId),
      n.IsPlain → n.skipConv = .ok m → st.oracle.graph.find? m ≠ none →
      (∀ dest decl, Leads (st.Adds st.oracle.graph (· = n))
        ((InjectM.rules (k + 2)).store dest n s decl c st) fun _ =>
    st.Adds st.oracle.graph (· = n)) ∧
      (InjectM.AsksOracle c n st → Leads (st.Adds st.oracle.graph (· = n))
        ((InjectM.rules (k + 2)).eval n s .sinkArg c st) fun _ => st.Adds st.oracle.graph
        (· = n)) := by
  refine ⟨fun A hA res hres d hd x hx ht => ?_, ?_⟩
  · rcases r.inject_cases env sh with ⟨-, h⟩ | ⟨-, h⟩ | ⟨e, sh', -, h, -⟩ |
      ⟨g, c, st, -, -, hc, hr, hst, h⟩
    · rw [h] at hres
      cases hres
      cases hd
    · rw [h] at hres
      cases hres
      cases hd
    · rw [h] at hres
      obtain ⟨d', hn, rfl⟩ := of_failure hres
      rw [List.mem_singleton.1 hd, hn] at hx
      cases hx
    have hfair : st.Fair g A :=
      ⟨by rw [hst.oracle], by simp [hst.otherRead], .inl (by simp [hst.oracle])⟩
    have hmoves := hA c st g hc hr hst
    rw [(Prod.mk.inj h).1] at hres
    cases hout : InjectM.body c st with
    | ok out st' =>
      rw [hout] at hres hmoves
      cases hres
      obtain ⟨-, ds, hr, hds⟩ := InjectState.Onward.fair hmoves hfair
      rw [hst.reports, List.nil_append] at hr
      obtain ⟨w, hw, hspan⟩ := hds d (hr ▸ hd) x hx ht
      exact ⟨g, w, rfl, hw, hspan⟩
    | error f st' =>
      rw [hout] at hres hmoves
      obtain ⟨d', hn, rfl⟩ := of_failure hres
      obtain ⟨-, ds, hr, hds⟩ := InjectState.Onward.fair hmoves hfair
      rw [hst.reports, List.nil_append] at hr
      rw [hr] at hd
      rcases List.mem_append.1 hd with hd | hd
      · obtain ⟨w, hw, hspan⟩ := hds d hd x hx ht
        exact ⟨g, w, rfl, hw, hspan⟩
      · rw [List.mem_singleton.1 hd, hn] at hx
        cases hx
  · intro c st k n m s hn hm hfind
    have hfair : InjectState.Fair st.oracle.graph (· = n) { st with otherRead := none } :=
      .forgotten rfl hm hfind
    refine ⟨fun dest decl => ?_, InjectM.leads_sinkPlain k hn hm hfind⟩
    exact (InjectM.leads_storePlain k hn st).mono (fun _ h => (h.fair hfair).2)
      fun _ _ h => (h.fair hfair).2

end Routine

/-! ## Two arguments -/

namespace TwoSinks

def env : InjectEnv where
  types := {
    types := #[{}, { kind := .string }, { kind := .proc, payload := 1 },
      { kind := .proc, payload := 2 }]
    procs := #[{}, { params := some [{ type := 1, sink := true }, { type := 1, sink := true }] },
      { params := some [{ type := 1 }] }] }

def shared : Shared where
  ops := {
    symbols.all := #[{ name := "f", kind := .proc }, { name := "take", kind := .proc, type := 2 },
      { name := "use", kind := .proc, type := 3 }, { name := "p", owner := some 0, type := 1 },
      { name := "x", kind := .varLocal, owner := some 0, type := 1 }]
    table.disabled := ({} : Dict OpKey Unit).insert (1, OpKind.copy) () }

/-- A name on a line of its own. -/
def sym (s : SymRef) (type : TypeId) (site : Nat) : Node :=
  .node { kind := .sym, sym := some s, type, site, span := { line := UInt32.ofNat site } } []

/-- `take(x, p)` and then `use(x)` -/
def routine : Routine where
  sym := some 0
  params := [some 3]
  body := Sample.node .stmtList 0 1 [Sample.node .call 0 2 [sym 1 2 3, sym 4 1 4, sym 3 1 5],
    Sample.node .call 0 6 [sym 2 3 7, sym 4 1 8]]

theorem reported : ∃ res d, (routine.inject env shared).1 = .ok res ∧ d ∈ res.reports ∧
    d.primary = (sym 3 1 5).span ∧ d.notes = [⟨(sym 4 1 8).span, "another read is done here"⟩] := by
  obtain ⟨res, hres, hrun⟩ := exists_ok (x := (routine.inject env shared).1)
    (p := fun res => res.reports.any fun d => decide (d.primary = (sym 3 1 5).span) &&
      decide (d.notes = [⟨(sym 4 1 8).span, "another read is done here"⟩])) (by decide +kernel)
  obtain ⟨d, hd, h⟩ := List.any_eq_true.1 hrun
  simp only [Bool.and_eq_true, decide_eq_true_eq] at h
  exact ⟨res, d, hres, hd, h⟩

end TwoSinks

open TwoSinks in
/-- The copy of `p` is blamed on the second read of `x`, with which `p` shares nothing. -/
theorem noted_for_another : (sym 4 1 8).touches (sym 3 1 5) = false ∧
    ∃ res d, (routine.inject env shared).1 = .ok res ∧ d ∈ res.reports ∧
      d.primary = (sym 3 1 5).span ∧ d.notes = [⟨(sym 4 1 8).span, "another read is done here"⟩] :=
  ⟨by decide, reported⟩

open TwoSinks in
/-- What is noted for `p` was blamed for `x`. A store of `x` itself is blamed on nothing else. -/
theorem inject_justified_sinks :
    (∃ res g w, (routine.inject env shared).1 = .ok res ∧ res.graph = some g ∧
      g.Blames (fun _ => True) w ∧ (sym 4 1 8).span = w.span) ∧
    let c : InjectContext := { types := env.types, routine }
    let g := (routine.graph shared.ops.symbols env.types).toOption.getD default
    let st : InjectState := { toShared := shared, oracle := { graph := g } }
    (sym 4 1 4).IsPlain ∧ g.find? (sym 4 1 4) ≠ none ∧
      Leads (st.Adds g (· = sym 4 1 4))
        ((InjectM.rules 2).store (sym 3 1 9) (sym 4 1 4) 0 false c st)
        (fun _ => st.Adds g (· = sym 4 1 4)) ∧
      InjectM.AsksOracle c (sym 4 1 4) st ∧
      Leads (st.Adds g (· = sym 4 1 4)) ((InjectM.rules 2).eval (sym 4 1 4) 0 .sinkArg c st)
        fun _ => st.Adds g (· = sym 4 1 4) := by
  obtain ⟨hblamed, hplace⟩ := @Routine.inject_justified routine env shared
  constructor
  · obtain ⟨res, d, hres, hd, -, hn⟩ := reported
    obtain ⟨g, w, hg, hw, hspan⟩ := hblamed _ Routine.asksOnly_all res hres d hd _
      (hn ▸ List.mem_singleton_self _) rfl
    exact ⟨res, g, w, hres, hg, hw, hspan⟩
  · intro c g st
    have hplain : (sym 4 1 4).IsPlain := ⟨rfl, .inl rfl⟩
    have hfind : g.find? (sym 4 1 4) ≠ none := by decide
    obtain ⟨hstore, hgive⟩ := hplace c st 0 _ (sym 4 1 4) 0 hplain rfl hfind
    have hasks : InjectM.AsksOracle c (sym 4 1 4) st :=
      ⟨_, _, rfl, rfl, InjectM.canTakeOver_of_isOwnPlace rfl
      (by decide +kernel) (by decide +kernel)⟩
    exact ⟨hplain, hfind, hstore _ _, hasks, hgive hasks⟩

end Lifecycle
