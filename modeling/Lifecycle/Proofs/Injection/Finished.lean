import Mathlib.Data.List.Count
import Mathlib.Data.List.Nodup
import Mathlib.Data.Option.Basic
import Lifecycle.Injection.Check
import Lifecycle.Proofs.Injection.Declarations
import Lifecycle.Proofs.Injection.Outcome
import Lifecycle.Proofs.Injection.Respected

/-!
# A finished body is in order

`Node.bodyDefects` checks a finished body: it is well-formed, each temporary that it uses is
declared in it, and nothing is declared twice. The body that comes of a tidy one passes, given that
the old one declares what has to be declared (`inject_bodyDefects`).

A name may have children, and they are never looked at. A declaration that stands there is written
down again with the name (`declared_twice`).
-/

namespace Lifecycle

def Symbol.NeedsDeclaration (x : Symbol) : Prop := x.kind = .temp ∨ x.kind = .letLocal

namespace Node

variable {ss : Symbols} {n : Node} {r : SymRef}

/-! ## The check -/

theorem declared_of_identDefs (hw : (node h ks).WellFormed ss)
    (hk : h.kind = .identDefs) :
    ∃ r, (do return (← (← (node h ks).kid 0).info).sym : Except Fault (Option SymRef)) =
    .ok (some r) ∧
      ∀ q, declaresOwn q ks = if r = q then 1 else 0 := by
  obtain ⟨v, init, rfl, hv⟩ := hw.initialization (.inr hk)
  cases v with
  | hole => cases hv
  | node vh vs =>
    have hsym : vh.kind = .sym := by simpa using hv
    have hl := (hw.kids (node vh vs) (by simp)).node.1
    rcases hr : vh.sym with _ | r
    · simp [layoutFaults, hsym, hr] at hl
    · refine ⟨r, ?_, fun q => by simp [declaresOwn, hr]⟩
      rw [← hr]
      rfl

mutual

theorem exists_symbolsDeclared : ∀ (n : Node), n.WellFormed ss → ∃ rs : List SymRef,
    n.symbolsDeclared = .ok (rs.map some) ∧ ∀ q, rs.count q = n.decls q
  | .hole, hw => absurd hw WellFormed.ne_hole
  | .node h ks, hw => by
    obtain ⟨rs, hrs, hc⟩ := exists_symbolsDeclaredAll ks hw.kids
    by_cases hk : h.kind = .identDefs
    · obtain ⟨r, hr, hown⟩ := declared_of_identDefs hw hk
      refine ⟨r :: rs, ?_, fun q => ?_⟩
      · have hself : (node h ks).isKind .identDefs = true := by simp [hk]
        rw [symbolsDeclared, preorder, List.filter_cons, if_pos hself, List.mapM_cons, hr, hrs]
        rfl
      · rw [decls, if_pos hk, hown, List.count_cons, hc]
        simp [Nat.add_comm]
    · refine ⟨rs, ?_, fun q => by rw [decls_node hk, hc]⟩
      have hself : ¬ (node h ks).isKind .identDefs = true := by simp [hk]
      rw [symbolsDeclared, preorder, List.filter_cons, if_neg hself, hrs]

theorem exists_symbolsDeclaredAll : ∀ (ks : List Node), (∀ k ∈ ks, k.WellFormed ss) →
    ∃ rs : List SymRef, (((preorderAll ks).filter (·.isKind .identDefs)).mapM fun d => do
      return (← (← d.kid 0).info).sym : Except Fault (List (Option SymRef))) = .ok (rs.map some) ∧
      ∀ q, rs.count q = declsAll q ks
  | [], _ => ⟨[], rfl, fun _ => rfl⟩
  | k :: ks, hw => by
    obtain ⟨rs, hrs, hc⟩ := exists_symbolsDeclared k (hw k (by simp))
    obtain ⟨rs', hrs', hc'⟩ := exists_symbolsDeclaredAll ks fun j hj => hw j (by simp [hj])
    refine ⟨rs ++ rs', ?_, fun q => by rw [List.count_append, hc, hc', declsAll_cons]⟩
    rw [symbolsDeclared] at hrs
    rw [preorderAll, List.filter_append, List.mapM_append, hrs, hrs', List.map_append]
    rfl

end

theorem mem_symbolsUsed : s ∈ n.symbolsUsed ↔ ∃ h ∈ n.heads, h.kind = .sym ∧ h.sym = s := by
  simp only [symbolsUsed, heads, List.mem_filterMap]
  constructor
  · rintro ⟨m, hm, hs⟩
    rcases hh : m.head? with _ | h
    · simp [hh] at hs
    · simp only [hh, Option.ite_none_right_eq_some, Option.some.injEq] at hs
      exact ⟨h, ⟨m, hm, hh⟩, hs⟩
  · rintro ⟨h, ⟨m, hm, hh⟩, hk, hs⟩
    exact ⟨m, hm, by simp [hh, hk, hs]⟩

theorem mem_symbolsUsed_of_isSym (hm : m ∈ n.preorder)
    (hq : m.isSym (some q) = true) : some q ∈ n.symbolsUsed := by
  cases m with
  | hole => cases hq
  | node h ks =>
    obtain ⟨hk, hs⟩ : h.kind = .sym ∧ h.sym = some q := by simpa using hq
    exact mem_symbolsUsed.2 ⟨h, List.mem_filterMap.2 ⟨_, hm, rfl⟩, hk, hs⟩

theorem WellFormed.named (hw : n.WellFormed ss) (hh : h ∈ n.heads) (hk : h.kind = .sym) :
    ∃ r, h.sym = some r := by
  obtain ⟨_ | ⟨h', ks⟩, hm, hh⟩ := List.mem_filterMap.1 hh
  · cases hh
  · cases hh
    have hl := (hw.of_mem hm).node.1
    rcases hr : h.sym with _ | r
    · simp [layoutFaults, hk, hr] at hl
    · exact ⟨r, rfl⟩

theorem bodyDefects_eq_nil (hw : n.WellFormed ss) (hone : ∀ q, n.decls q ≤ 1)
    (hused : ∀ q, some q ∈ n.symbolsUsed → (ss.get q).NeedsDeclaration → 0 < n.decls q) :
    n.bodyDefects ss = .ok [] := by
  obtain ⟨ds, hds, hc⟩ := exists_symbolsDeclared n hw
  have hall : n.symbolsUsed.eraseDups.mapM orAbsent
      = .ok (n.symbolsUsed.eraseDups.map fun s => s.getD 0) := by
    refine mapM_ok _ fun s hs => ?_
    obtain ⟨h, hh, hk, rfl⟩ := mem_symbolsUsed.1 (List.mem_eraseDups.1 hs)
    obtain ⟨r, hr⟩ := hw.named hh hk
    rw [hr]
    rfl
  have hundeclared : (n.symbolsUsed.eraseDups.map fun s => s.getD 0).filter (fun r =>
      ((ss.get r).kind = .temp || (ss.get r).kind = .letLocal) && !(ds.map some).contains (some r))
        = [] := by
    refine List.filter_eq_nil_iff.2 fun q hq => ?_
    obtain ⟨s, hs, rfl⟩ := List.mem_map.1 hq
    have hs := List.mem_eraseDups.1 hs
    obtain ⟨h, hh, hk, hsym⟩ := mem_symbolsUsed.1 hs
    obtain ⟨r, hr⟩ := hw.named hh hk
    obtain rfl : s = some r := hsym.symm.trans hr
    simp only [Bool.and_eq_true, Bool.or_eq_true, decide_eq_true_eq, not_and]
    intro hneeds
    have hpos := hused r hs hneeds
    rw [← hc] at hpos
    simpa using List.count_pos_iff.1 hpos
  have hrepeated : (ds.map some).eraseDups.filter (fun r => 1 < (ds.map some).count r) = [] := by
    refine List.filter_eq_nil_iff.2 fun s hs => ?_
    obtain ⟨q, -, rfl⟩ := List.mem_map.1 (List.mem_eraseDups.1 hs)
    rw [List.count_map_of_injective ds some (Option.some_injective _), hc]
    simpa using hone q
  rw [bodyDefects, hw, hds, hall]
  simp only [bind, Except.bind, hundeclared, hrepeated]
  rfl

end Node

/-! ## New variables -/

theorem Tally.made_decls : (Tally.decls r).made l = l.fresh.count r := by
  induction l with
  | nil => rfl
  | cons e l ih =>
    rw [Tally.made_cons, ih]
    cases e <;> simp [Log.fresh, Tally.makes, Tally.declares, Tally.decls, List.count_cons,
      Nat.add_comm]

theorem Tally.opened_eq_zero {t : Tally} (h : ∀ e ∈ l, e.scope? = none) : t.opened l = 0 := by
  induction l with
  | nil => rfl
  | cons e l ih =>
    rw [Tally.opened_cons, ih fun e he => h e (by simp [he])]
    cases e with
    | var i q x => cases h (.var i q x) (by simp)
    | _ => rfl

namespace Ground

variable {k : Ground} {s : OpState} {l : Log} {out : Node}

/-- In the end each new variable is declared once, and all else as often as it was. -/
theorem Works.decls (h : k.Works out l) (hb : k.Tidy k.routine.body) (hl : k.Logged s l)
    (q : SymRef) : out.decls q = k.routine.body.decls q + l.fresh.count q := by
  have he := (even_decls h hb q).count
  rw [Tally.opened_eq_zero hl.scopes, Tally.made_decls] at he
  simpa [Tally.of_decls] using he

mutual

theorem Sound.decls_eq_zero (hr : k.regular) {q : SymRef} (hq : k.size ≤ q) :
    ∀ (n : Node), k.Sound n → n.decls q = 0
  | .hole, _ => rfl
  | .node h ks, hn => by
    have hown : (if h.kind = .identDefs then Node.declaresOwn q ks else 0) = 0 := by
      split_ifs with hk
      · refine if_neg fun hsym => ?_
        rcases ks with _ | ⟨_ | ⟨vh, vs⟩, rest⟩
        · cases hsym
        · cases hsym
        · exact Nat.not_lt.2 hq (hn.declared hr h vh vs rest (by simp [Node.preorder]) hk q hsym)
      · rfl
    rw [Node.decls, hown, Sound.declsAll_eq_zero hr hq ks fun a ha => hn.kid ha]

theorem Sound.declsAll_eq_zero (hr : k.regular) {q : SymRef} (hq : k.size ≤ q) :
    ∀ (ks : List Node), (∀ a ∈ ks, k.Sound a) → Node.declsAll q ks = 0
  | [], _ => rfl
  | a :: ks, hs => by
    rw [Node.declsAll_cons, Sound.decls_eq_zero hr hq a (hs a (by simp)),
      Sound.declsAll_eq_zero hr hq ks fun b hb => hs b (by simp [hb])]

end

/-- Nothing is declared twice that was not declared twice before. -/
theorem Works.decls_le (hr : k.regular) (h : k.Works out l) (hb : k.Tidy k.routine.body)
    (hs : k.Sound k.routine.body) (hl : k.Logged s l)
    (hone : k.routine.body.decls q ≤ 1) : out.decls q ≤ 1 := by
  rw [h.decls hb hl]
  by_cases hq : q ∈ l.fresh
  · rw [Sound.decls_eq_zero hr (hl.new q hq).1 _ hs, Nat.zero_add]
    exact List.nodup_iff_count_le_one.1 (hl.fresh.imp Nat.ne_of_lt) q
  · rw [List.count_eq_zero.2 hq]
    exact hone

end Ground

/-! ## The routine -/

namespace Routine

/-- What may be named in the body of a routine when lifecycle operations have been put in, new
variables apart. -/
inductive Names (r : Routine) (s : OpState) : SymRef → Prop
  | used {q : SymRef} (h : some q ∈ r.body.symbolsUsed) : Names r s q
  | result {q : SymRef} (h : r.result = some q) : Names r s q
  | param {q : SymRef} (h : some q ∈ r.params) (hs : (s.symbols.get q).has .sink = true) :
      Names r s q
  | operator {q : SymRef} (h : s.IsOperator q) : Names r s q

/-- A routine whose body is well-formed, declares what it has to and nothing twice, and in which
nothing that may be written down twice declares anything: the children of names, the destinations of
assignments, and what an allocation is stored in. -/
structure Orderly (r : Routine) (types : TypeTable) (s : OpState) : Prop where
  wellFormed : r.body.WellFormed s.symbols
  known : ∀ q, r.Names s q → q < s.symbols.all.size
  params : ∀ q, some q ∈ r.params → q < s.symbols.all.size
  declared : ∀ q, r.Names s q → (s.symbols.get q).NeedsDeclaration → 0 < r.body.decls q
  once : ∀ q, r.body.decls q ≤ 1
  names : ∀ n ∈ r.body.preorder, n.isKind .sym = true → ∀ a ∈ n.kids, a.Bare
  indexed : r.body.PlainlyIndexed
  dests : ∀ n ∈ r.body.preorder, n.isKind .asgn = true ∨ n.isKind .fastAsgn = true →
    ∀ dest, n.kids[0]? = some dest → dest.isPurePlace = .ok true
  allocs : ∀ n ∈ r.body.preorder, n.isKind .call = true → ∀ callee a q, n.kids[0]? = some callee →
    n.kids[1]? = some a → callee.isSym (some q) = true → (s.symbols.get q).magic = .new →
    a.isPurePlace = .ok true ∧ ∀ sig p, InjectM.signature? types callee.type = .ok (some sig) →
      sig.params.items.head? = some p → p.sink = false

/-- The symbols that may be named in the end: one that has to be declared is. -/
def paletteOf (ss : Symbols) (out : Node) : Palette where
  sym q := (ss.get q).NeedsDeclaration → 0 < out.decls q
  type _ := True
  span _ := True
  strict := False

variable {r : Routine} {env : InjectEnv} {sh : Shared} {k : Ground} {out : Node} {types : TypeTable}
  {s : OpState}

def Orderly.ground (h : r.Orderly types s) : Ground where
  types := types
  routine := r
  ops := s
  regular := True
  known _ q hq := h.known q (.operator hq)
  inside _ q hq := hq.elim (fun hq => h.known q (.result hq)) (h.params q)

theorem Orderly.tidy (h : r.Orderly types s) : h.ground.Tidy r.body := by
  have hkind : ∀ {hd : Head} {ks : List Node} {kind : NodeKind}, hd.kind = kind →
      (Node.node hd ks).isKind kind = true := fun hk => by simp [hk]
  refine ⟨h.wellFormed, fun hd ks hm hk => h.names _ hm (hkind hk), h.indexed,
    fun hd dest ks hm hk => h.dests _ hm (hk.imp hkind hkind) dest rfl, ?_⟩
  rintro hd _ a ks hm hk ⟨ch, cs, q, rfl, hsym, hq, hnew⟩
  obtain ⟨hpure, hsink⟩ := h.allocs _ hm (hkind hk) (.node ch cs) a q rfl rfl
    (by simp [hsym, hq]) hnew
  refine ⟨hpure, fun p ps hps => ?_⟩
  obtain ⟨_ | sig, hsig, hps⟩ := hps
  · cases hps
  · exact hsink sig p hsig (by rw [← (show p :: ps = sig.params.items from hps)]; rfl)

theorem sound_of_known {n : Node} (hn : n.WellFormed k.ops.symbols)
    (hk : ∀ q, some q ∈ n.symbolsUsed → q < k.size) : k.Sound n := by
  refine ⟨hn, fun _ hd vh vs ks hm hd' q hq => hk q ?_⟩
  obtain ⟨a, b, hks, hsym⟩ := (hn.of_mem hm).initialization (.inr hd')
  cases hks
  refine Node.mem_symbolsUsed.2 ⟨vh, List.mem_filterMap.2 ⟨.node vh vs, ?_, rfl⟩, ?_, hq⟩
  · exact Node.preorder_trans hm (by simp [Node.preorder, Node.preorderAll])
  · simpa using hsym

theorem Orderly.sound (h : r.Orderly types s) : h.ground.Sound r.body :=
  sound_of_known h.wellFormed fun q hq => h.known q (.used hq)

theorem Orderly.fits (h : k.routine.Orderly types k.ops) (hreg : k.regular)
    (hdecls : ∀ q, out.decls q = k.routine.body.decls q + l.fresh.count q) (hw : k.Works out l)
    (hl : k.Logged s l) : (paletteOf s.symbols out).Fits k out := by
  have hnamed : ∀ q, k.routine.Names k.ops q → (paletteOf s.symbols out).sym q := by
    intro q hq hneeds
    have hm := hl.later.symbols.marked (h.known q hq)
    rw [Symbol.NeedsDeclaration, hm.kind] at hneeds
    rw [hdecls]
    exact Nat.add_pos_left (h.declared q hq hneeds) _
  refine (Palette.good_works ⟨hreg, trivial, trivial, trivial, fun _ _ _ => ⟨trivial, trivial⟩,
    fun q hq => hnamed q (.result hq), fun q hq hs => hnamed q (.param hq hs),
    Palette.closed_of_forall (fun _ => trivial) fun _ => trivial⟩
    (Palette.rebuilt_of_forall fun _ => trivial) hw ?_ ?_).1
  · refine ⟨⟨h.wellFormed, fun hd hh => ⟨trivial, trivial, fun q hq hk => ?_⟩⟩, trivial⟩
    exact hnamed q (.used (Node.mem_symbolsUsed.2 ⟨hd, hh, hk.resolve_right id, hq⟩))
  · intro e he
    have hop : ∀ q, s.IsOperator q → (paletteOf s.symbols out).sym q := by
      intro q hq
      rcases hl.later.operator hq with hq | ⟨-, -, hm⟩
      · exact hnamed q (.operator hq)
      · rintro (hk | hk) <;> rw [hm.kind] at hk <;> cases hk
    cases e with
    | fresh lent q x =>
      refine ⟨fun _ => ?_, trivial⟩
      rw [hdecls]
      exact Nat.add_pos_right _ (List.count_pos_iff.2 (Log.mem_fresh.2 ⟨lent, x, he⟩))
    | op q => exact ⟨hop q (OpState.IsHook.isOperator (hl.holds _ he)), trivial⟩
    | magic m q => exact ⟨hop q (.inr (.inr (.inr ⟨m, hl.holds _ he⟩))), trivial⟩
    | _ => trivial

/-- The body that comes of an orderly routine passes the check of finished bodies. -/
theorem inject_bodyDefects {res : Injected} (h : r.Orderly env.types sh.ops)
    (hres : (r.inject env sh).1 = .ok res) (hout : res.body = some out) :
    out.bodyDefects (r.inject env sh).2.ops.symbols = .ok [] := by
  have hk : r.Grounded env sh h.ground := ⟨rfl, rfl, rfl, .inr h.sound⟩
  obtain ⟨hlater, hbody⟩ := inject_grounded hk
  rcases hbody res out hres hout with ⟨-, rfl⟩ | ⟨hs, l, hw, hl⟩
  · refine Node.bodyDefects_eq_nil (hlater.symbols.wellFormed h.wellFormed) h.once ?_
    intro q hq hneeds
    have hm := hlater.symbols.marked (h.known q (.used hq))
    rw [Symbol.NeedsDeclaration, hm.kind] at hneeds
    exact h.declared q (.used hq) hneeds
  · have hfits := Orderly.fits (k := h.ground) h trivial (hw.decls h.tidy hl) hw hl
    refine Node.bodyDefects_eq_nil (hl.later.symbols.wellFormed hfits.wellFormed)
      (fun q => hw.decls_le trivial h.tidy hs hl (h.once q)) ?_
    intro q hq
    obtain ⟨hd, hh, hsym, hq⟩ := Node.mem_symbolsUsed.1 hq
    exact (hfits.shows hd hh).sym q hq (.inl hsym)

end Routine

/-! ## A declaration below a name -/

namespace Hidden

open Sample

def env : InjectEnv where
  types := {
    types := #[{}, { kind := .string }, { kind := .proc, payload := 1 }]
    procs := #[{}, { result := 1 }] }

def shared : Shared where
  ops.symbols.all := #[{ name := "f", kind := .proc }, { name := "g", kind := .proc, type := 2 },
    { name := "x", kind := .global, type := 1 }, { name := "y", kind := .letLocal, type := 1 }]

def call (site : Nat) : Node := .node { kind := .call, type := 1, site } [sym 1 2 (site + 1)]

def section_ (init : Node) : Node :=
  .node { kind := .varSection, site := 10 }
    [.node { kind := .identDefs, site := 11 } [sym 3 1 12, init]]

/-- `x = g()`, where a declaration of `y` stands below the name `x`. -/
def routine : Routine where
  sym := some 0
  body := .node { kind := .asgn, site := 1 }
    [.node { kind := .sym, sym := some 2, type := 1, site := 2 }
      [section_ (.node { kind := .empty, site := 13 } [])], call 3]

/-- `let y = g()` and `x = y` -/
def plain : Routine where
  sym := some 0
  body := .node { kind := .stmtList, site := 1 }
    [section_ (call 13), .node { kind := .asgn, site := 2 } [sym 2 1 3, sym 3 1 4]]

end Hidden

open Hidden Sample in
/-- The body is well-formed, declares one symbol once and uses no other that has to be declared, and
the only destination is a pure place. The new body declares the symbol twice. -/
theorem declared_twice : routine.body.WellFormed shared.ops.symbols ∧
    routine.body.bodyDefects shared.ops.symbols = .ok [] ∧
    routine.body.symbolsDeclared = .ok [some 3] ∧
    ((routine.body.kid 0).bind Node.isPurePlace) = .ok true ∧
    ∃ res out, (routine.inject env shared).1 = .ok res ∧ res.error.isNone = true ∧
      res.body = some out ∧
      out.bodyDefects (routine.inject env shared).2.ops.symbols = .ok [.redeclared "y" 2] := by
  refine ⟨by rfl, by decide +kernel, by decide +kernel, by decide +kernel, ?_⟩
  obtain ⟨res, hres, hrun⟩ := exists_ok (x := (routine.inject env shared).1)
    (p := fun res => res.error.isNone &&
      res.body.map (·.bodyDefects (routine.inject env shared).2.ops.symbols) ==
        some (.ok [.redeclared "y" 2])) (by decide +kernel)
  simp only [Bool.and_eq_true, beq_iff_eq, Option.map_eq_some_iff] at hrun
  obtain ⟨he, out, hout, hc⟩ := hrun
  exact ⟨res, out, hres, he, hout, hc⟩

namespace Hidden

theorem names_plain (h : plain.Names shared.ops q) : q = 1 ∨ q = 2 ∨ q = 3 := by
  cases h with
  | used h =>
    have hused : plain.body.symbolsUsed = [some 3, some 1, some 2, some 3] := by decide +kernel
    rw [hused] at h
    simp only [List.mem_cons, Option.some.injEq, List.not_mem_nil, or_false] at h
    rcases h with rfl | rfl | rfl | rfl <;> simp
  | result h => cases h
  | param h => cases h
  | operator h => rcases h with ⟨k, hk⟩ | ⟨k, hk⟩ | ⟨k, hk⟩ | ⟨k, hk⟩ <;> cases hk

theorem decls_plain (q : SymRef) : plain.body.decls q = if 3 = q then 1 else 0 := by
  simp [plain, section_, call, Sample.sym, Node.decls, Node.declaresOwn]

theorem orderly_plain : plain.Orderly env.types shared.ops where
  wellFormed := by rfl
  known q hq := by rcases names_plain hq with rfl | rfl | rfl <;> decide
  params q hq := by cases hq
  declared q hq hneeds := by
    rcases names_plain hq with rfl | rfl | rfl
    · rcases hneeds with h | h <;> cases h
    · rcases hneeds with h | h <;> cases h
    · decide
  once q := by
    rw [decls_plain]
    split <;> omega
  names := by
    have hleaf : (plain.body.preorder.all fun n => !n.isKind .sym || n.kids.isEmpty) = true := by
      decide +kernel
    intro n hn hsym a ha
    have := List.all_eq_true.1 hleaf n hn
    simp only [hsym, Bool.not_true, Bool.false_or, List.isEmpty_iff] at this
    rw [this] at ha
    cases ha
  indexed := by
    have hnone : (plain.body.preorder.all fun n => !n.isKind .index) = true := by decide +kernel
    intro n hn hindex
    have := List.all_eq_true.1 hnone n hn
    rw [hindex] at this
    cases this
  dests := by
    have hpure : (plain.body.preorder.all fun n => !(n.isKind .asgn || n.isKind .fastAsgn) ||
        n.kids[0]?.all fun dest => decide (dest.isPurePlace = .ok true)) = true := by decide +kernel
    intro n hn hk dest hdest
    have := List.all_eq_true.1 hpure n hn
    simpa only [Bool.or_eq_true_iff.2 hk, Bool.not_true, Bool.false_or, hdest, Option.all_some,
      decide_eq_true_eq] using this
  allocs := by
    have hplain : (plain.body.preorder.all fun n => !n.isKind .call ||
        n.kids[0]?.all fun callee => decide (callee.head?.bind (·.sym) = some 1)) = true := by
      decide +kernel
    intro n hn hk callee a q hcallee _ hq hnew
    have hone := List.all_eq_true.1 hplain n hn
    simp only [hk, hcallee, Bool.not_true, Bool.false_or, Option.all_some, decide_eq_true_eq]
      at hone
    cases callee with
    | hole => cases hone
    | node h ks =>
      have hsym : h.sym = some q := by
        simp only [Node.isSym_node, Bool.and_eq_true, decide_eq_true_eq] at hq
        exact hq.2
      rw [show h.sym = some 1 from hone] at hsym
      cases hsym
      cases hnew

end Hidden

open Hidden Sample in
/-- Without the hidden declaration all is in order. -/
theorem inject_bodyDefects_plain : ∃ res out, plain.Orderly env.types shared.ops ∧
    (plain.inject env shared).1 = .ok res ∧ res.body = some out ∧
    out.bodyDefects (plain.inject env shared).2.ops.symbols = .ok [] := by
  obtain ⟨res, hres, hrun⟩ := exists_ok (x := (plain.inject env shared).1) (p := (·.body.isSome))
    (by decide +kernel)
  obtain ⟨out, hout⟩ := Option.isSome_iff_exists.1 hrun
  exact ⟨res, out, orderly_plain, hres, hout, Routine.inject_bodyDefects orderly_plain hres hout⟩

end Lifecycle
