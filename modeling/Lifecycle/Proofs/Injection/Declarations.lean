import Lifecycle.Proofs.Exits.Tree
import Lifecycle.Proofs.Injection.Even

/-!
# Declarations are kept

`Node.decls r n` is the number of declarations of `r` in a tree. Nothing that is written down twice
declares anything in a tidy tree: destinations, and the locations that are moved from. So a tidy
body is worked through to one that declares what it declared, and each new variable once
(`even_works`).
-/

namespace Lifecycle

namespace Node

def declaresOwn (r : SymRef) (ks : List Node) : Nat :=
  if (ks.head?.bind head?).bind (·.sym) = some r then 1 else 0

mutual

/-- How often `r` is declared. -/
def decls (r : SymRef) : Node → Nat
  | .hole => 0
  | .node h ks => (if h.kind = .identDefs then declaresOwn r ks else 0) + declsAll r ks

def declsAll (r : SymRef) : List Node → Nat
  | [] => 0
  | k :: ks => k.decls r + declsAll r ks

end

def Bare (n : Node) : Prop := ∀ r, n.decls r = 0

section Decls

variable {r : SymRef} {h : Head} {n : Node} {ks : List Node}

@[simp] theorem declsAll_nil : declsAll r [] = 0 := rfl

@[simp] theorem declsAll_cons : declsAll r (n :: ks) = n.decls r + declsAll r ks := rfl

theorem declsAll_eq_zero (hb : ∀ k ∈ ks, k.Bare) : declsAll r ks = 0 := by
  induction ks with
  | nil => rfl
  | cons k ks ih => simp [hb k (by simp) r, ih fun j hj => hb j (by simp [hj])]

theorem decls_node (hk : h.kind ≠ .identDefs) : (node h ks).decls r = declsAll r ks := by
  rw [decls, if_neg hk, Nat.zero_add]

end Decls

end Node

def Tally.decls (r : SymRef) : Tally where
  kind := .identDefs
  hits _ sym := sym = some r
  either := Or.inl rfl
  named h := by cases h

namespace Tally

variable {r : SymRef}

theorem own_decls (ks : List Node) : (Tally.decls r).own ks = Node.declaresOwn r ks := by
  unfold Tally.own Node.declaresOwn
  rcases hk : ks.head?.bind Node.head? with _ | h <;> simp [Tally.decls]

mutual

theorem of_decls : ∀ n : Node, (Tally.decls r).of n = n.decls r
  | .hole => rfl
  | .node h ks => by rw [Tally.of, Node.decls, own_decls, all_decls ks]; rfl

theorem all_decls : ∀ ks : List Node, (Tally.decls r).all ks = Node.declsAll r ks
  | [] => rfl
  | n :: ks => by rw [Tally.all_cons, Node.declsAll_cons, of_decls n, all_decls ks]

end

end Tally

/-! ## Trees that may be written down twice -/

inductive Node.Still : Node → Prop
  | leaf {h : Head} {ks : List Node} (hk : h.kind = .sym ∨ h.kind = .intLit) : Still (.node h ks)
  | part {h : Head} {ks : List Node} (hk : Node.stepsInto h.kind = true) (hs : ∀ a ∈ ks, Still a) :
      Still (.node h ks)

theorem Node.still_of_isKind {n : Node} (h : n.isKind .sym = true ∨ n.isKind .intLit = true) :
    n.Still := by
  cases n with
  | hole => rcases h with h | h <;> cases h
  | node hd ks => exact .leaf (by simpa using h)

theorem Node.still_refers {span : Span} (h : Node.Refers r x span n) : n.Still := by
  obtain ⟨site, rfl⟩ := h
  exact .leaf (.inl rfl)

theorem Node.still_part
    (hw : (Node.node h (a :: ks)).WellFormed ss) (hk : stepsInto h.kind = true) (ha : a.Still)
    (hi : h.kind = .index → ∀ i, ks = [i] → i.isKind .sym = true ∨ i.isKind .intLit = true) :
    (Node.node h (a :: ks)).Still := by
  refine .part hk (List.forall_mem_cons.2 ⟨ha, ?_⟩)
  have hlayout := hw.node.1
  by_cases hdot : h.kind = .dot
  · obtain ⟨b, f, hks, hf⟩ := hw.dot hdot
    cases hks
    simpa using still_of_isKind (.inl hf)
  by_cases hidx : h.kind = .index
  · obtain ⟨b, i, hks⟩ := hw.pair (by simp [layoutFaults, hidx])
    cases hks
    simpa using still_of_isKind (hi hidx i rfl)
  · have hone : wantKids 1 (a :: ks) = [] := by
      revert hlayout hk hdot hidx
      unfold layoutFaults
      cases h.kind <;> simp [stepsInto]
    obtain ⟨b, hks⟩ := one_of_wantKids hone
    cases hks
    simp

theorem Node.still_of_isPlace {n : Node} (hp : n.IsPlace) (hw : n.WellFormed ss)
    (hi : n.PlainlyIndexed) : n.Still := by
  induction hp with
  | name hk => exact .leaf (.inl hk)
  | part hk _ ih =>
    refine still_part hw hk (ih (hw.kids _ (by simp)) (hi.kids _ (by simp))) fun hidx i hks => ?_
    subst hks
    exact hi.index hidx

theorem Node.still_of_isPurePlace : ∀ {n : Node}, n.isPurePlace = .ok true →
    n.WellFormed ss → n.Still
  | .hole, hn, _ => by cases hn
  | .node h [], hn, _ => by
    unfold isPurePlace at hn
    cases hk : h.kind <;> simp only [hk] at hn <;> cases hn
    exact .leaf (.inl hk)
  | .node h (a :: ks), hn, hw => by
    have hrest : a.isPurePlace = .ok true → a.Still := fun ha =>
      still_of_isPurePlace ha (hw.kids a (by simp))
    unfold isPurePlace at hn
    cases hk : h.kind <;> simp only [hk] at hn
    case sym => exact .leaf (.inl hk)
    case dot | deref | addr | conv | upConv | downConv =>
      exact still_part hw (by rw [hk]; rfl) (hrest hn) (by simp [hk])
    case index =>
      obtain ⟨b, i, hks⟩ := hw.pair (by simp [layoutFaults, hk])
      cases hks
      obtain ⟨ih, hinfo, hn⟩ := bind_eq_ok.1 hn
      split_ifs at hn with hi
      · refine still_part hw (by rw [hk]; rfl) (hrest hn) fun _ j hj => ?_
        cases hj
        obtain ⟨-, -, js, rfl⟩ := info_eq hinfo
        simpa using hi
      · cases hn
    all_goals cases hn

/-- A well-formed tree in which what may be written down twice is known to declare nothing. -/
structure Ground.Tidy (k : Ground) (n : Node) : Prop where
  wellFormed : n.WellFormed k.ops.symbols
  names : ∀ h ks, .node h ks ∈ n.preorder → h.kind = .sym → ∀ a ∈ ks, a.Bare
  indexed : n.PlainlyIndexed
  dests : ∀ h dest ks, .node h (dest :: ks) ∈ n.preorder → h.kind = .asgn ∨ h.kind = .fastAsgn →
    dest.isPurePlace = .ok true
  allocs : ∀ h callee a ks, .node h (callee :: a :: ks) ∈ n.preorder → h.kind = .call →
    k.Allocates callee → a.isPurePlace = .ok true ∧
      ∀ p ps, k.HasParams callee.type (p :: ps) → p.sink = false

namespace Ground

variable {k : Ground} {h : Head} {n a : Node} {ks : List Node}

theorem Tidy.kid (hn : k.Tidy (.node h ks)) (ha : a ∈ ks) : k.Tidy a := by
  have hsub : ∀ m ∈ a.preorder, m ∈ (Node.node h ks).preorder := fun m hm =>
    List.mem_cons_of_mem _ (Node.mem_preorderAll.2 ⟨a, ha, hm⟩)
  exact ⟨hn.wellFormed.kids a ha, fun h' ks' hm => hn.names h' ks' (hsub _ hm),
    fun m hm => hn.indexed m (hsub m hm), fun h' d ks' hm => hn.dests h' d ks' (hsub _ hm),
    fun h' c a' ks' hm => hn.allocs h' c a' ks' (hsub _ hm)⟩

theorem tidy_node (hl : Node.layoutFaults k.ops.symbols h ks = .ok []) (ha : ∀ a ∈ ks, k.Tidy a)
    (hi : h.kind ≠ .index) (hs : h.kind = .sym → ∀ a ∈ ks, a.Bare)
    (hd : ∀ dest ks', ks = dest :: ks' → h.kind = .asgn ∨ h.kind = .fastAsgn →
      dest.isPurePlace = .ok true) (hc : h.kind = .call → ks.length ≤ 1) : k.Tidy (.node h ks) := by
  have hcases : ∀ m ∈ (Node.node h ks).preorder, m = .node h ks ∨ ∃ a ∈ ks, m ∈ a.preorder := by
    intro m hm
    rw [Node.preorder, List.mem_cons] at hm
    exact hm.imp id Node.mem_preorderAll.1
  refine ⟨Node.wellFormed_node hl fun a h => (ha a h).wellFormed, ?_, ?_, ?_, ?_⟩
  · intro h' ks' hm hk
    rcases hcases _ hm with hm | ⟨a, hmem, hm⟩
    · cases hm
      exact hs hk
    · exact (ha a hmem).names h' ks' hm hk
  · intro m hm hk
    rcases hcases _ hm with rfl | ⟨a, hmem, hm⟩
    · exact absurd (by simpa using hk) hi
    · exact (ha a hmem).indexed m hm hk
  · intro h' dest ks' hm hk
    rcases hcases _ hm with hm | ⟨a, hmem, hm⟩
    · cases hm
      exact hd dest ks' rfl hk
    · exact (ha a hmem).dests h' dest ks' hm hk
  · intro h' c a' ks' hm hk
    rcases hcases _ hm with hm | ⟨a, hmem, hm⟩
    · cases hm
      exact absurd (hc hk) (by simp)
    · exact (ha a hmem).allocs h' c a' ks' hm hk

theorem tidy_refers (hn : Node.Refers r x span n) : k.Tidy n := by
  obtain ⟨site, rfl⟩ := hn
  exact tidy_node rfl (by simp) (by simp) (by simp) (by simp) (by simp)

theorem tidy_callsMagic (hn : k.CallsMagic m t span [] n l) : k.Tidy n := by
  obtain ⟨r, ⟨x, f, -, hf, site, rfl⟩, -⟩ := hn
  exact tidy_node rfl (by simpa using tidy_refers hf) (by simp) (by simp) (by simp) (by simp)

theorem Tidy.bare (hn : k.Tidy n) (hs : n.Still) : n.Bare := by
  induction hs with
  | @leaf h ks hk =>
    intro r
    have hkids : ∀ a ∈ ks, a.Bare := by
      rcases hk with hk | hk
      · exact hn.names h ks (by simp [Node.preorder]) hk
      · have hl := hn.wellFormed.node.1
        simp only [Node.layoutFaults, hk, Except.ok.injEq] at hl
        rw [List.eq_nil_of_length_eq_zero (Node.length_of_wantKids hl)]
        simp
    rw [Node.decls_node (by rcases hk with hk | hk <;> simp [hk]), Node.declsAll_eq_zero hkids]
  | @part h ks hk _ ih =>
    intro r
    rw [Node.decls_node (by rintro h'; rw [h'] at hk; cases hk)]
    exact Node.declsAll_eq_zero fun a ha => ih a ha (hn.kid ha)

theorem Tidy.bare_of_isPlace (hn : k.Tidy n) (hp : n.IsPlace) : n.Bare :=
  hn.bare (Node.still_of_isPlace hp hn.wellFormed hn.indexed)

theorem Tidy.bare_of_isKind (hn : k.Tidy n) (hk : n.isKind .sym = true) : n.Bare :=
  hn.bare (Node.still_of_isKind (.inl hk))

theorem Tidy.still_dest (hn : k.Tidy (.node h (dest :: ks)))
    (hk : h.kind = .asgn ∨ h.kind = .fastAsgn) : dest.Still :=
  Node.still_of_isPurePlace (hn.dests h dest ks (by simp [Node.preorder]) hk)
    (hn.kid (by simp)).wellFormed

theorem calm_of_still : ∀ {j d : Nat} {n : Node} {s : ScopeId} {out : Node} {l : Log},
    (k.ruled j).eval d n s .normal out l → n.Still → l = []
  | 0, _, _, _, _, _, he, _ => he.elim
  | j + 1, d, n, s, out, l, he, hn => by
    obtain ⟨h, ks, rfl, hk, hstep⟩ : ∃ h ks, n = .node h ks ∧
        (h.kind = .sym ∨ h.kind = .intLit ∨ Node.stepsInto h.kind = true) ∧
        (Node.stepsInto h.kind = true → ∀ a ∈ ks, a.Still) := by
      rcases hn with hk | ⟨hk, hs⟩
      · refine ⟨_, _, rfl, hk.imp_right .inl, fun hs => ?_⟩
        rcases hk with hk | hk <;> rw [hk] at hs <;> cases hs
      · exact ⟨_, _, rfl, .inr (.inr hk), fun _ => hs⟩
    rcases place_of_evals he hk with ⟨-, hl⟩ | ⟨obj, obj', f, rfl, hdot, hobj, -⟩
      | ⟨-, hs, _, ha, -⟩
    · exact hl
    · exact calm_of_still hobj (hstep (by rw [hdot]; rfl) obj (by simp))
    · have hs := hstep hs
      clear hstep he hn hk
      induction ha with
      | nil => rfl
      | cons ha _ ih =>
        rw [List.forall_mem_cons] at hs
        rw [calm_of_still ha hs.1, ih hs.2]
        rfl

def declarations (k : Ground) (r : SymRef) : k.Census where
  toTally := .decls r
  fit _ n := k.Tidy n
  steady m n := m = .normal ∧ n.Still
  wellFormed hn := hn.wellFormed
  read hn := hn
  given hn := hn
  part {f g n a} hp hn := by
    cases n with
    | hole => cases hp
    | node h ks => exact hn.kid hp.mem_kids
  arguments hn _ _ := Node.arguments_of_forall fun _ a ha => hn.kid (by simp [ha])
  refers hn := ⟨fun _ => tidy_refers hn, rfl, Node.still_refers hn⟩
  default hn := tidy_callsMagic hn
  name hn hk := (Tally.of_decls _).trans (hn.bare_of_isKind hk r)
  moved hn hm _ := (Tally.of_decls _).trans (hn.bare_of_isPlace hm.isPlace r)
  taken hn hm := (Tally.of_decls _).trans (hn.bare_of_isPlace hm.isPlace r)
  same hn hs := (Tally.of_decls _).trans (hn.bare_of_isPlace (Node.isPlace_of_sameWithin hs) r)
  dest hn hk _ := ⟨rfl, hn.still_dest hk⟩
  target {f h callee a args ps} hn hk hc hps := by
    obtain ⟨hpure, hsink⟩ := hn.allocs h callee a args (by simp [Node.preorder]) hk hc
    refine ⟨?_, Node.still_of_isPurePlace hpure (hn.kid (by simp)).wellFormed⟩
    cases ps with
    | nil => rfl
    | cons p ps => rw [Param.mode_cons, hsink p ps hps]; rfl
  zero hn hs := (Tally.of_decls _).trans (hn.bare hs.2 r)
  operator _ hk := by cases hk
  kept he hn hs heven := by
    obtain ⟨rfl, hs⟩ := hs
    have := heven.count
    rw [calm_of_still he hs] at this
    simpa [Tally.of_decls, hn.bare hs r] using this

/-- A tidy body is worked through to one that declares what it declared, and each new variable
once. -/
theorem even_decls {out : Node} {l : Log} (h : k.Works out l) (hb : k.Tidy k.routine.body)
    (r : SymRef) : (Tally.decls r).Even [k.routine.body] [out] l :=
  Census.even_works (k.declarations r) h hb

end Ground

end Lifecycle
