import Lifecycle.Proofs.Injection.Finished

/-!
# What values are moved out of

A location that a value is moved out of is marked. It lies within a variable that the routine may
empty, by fields, elements and conversions that the body has there, and no pointer is followed on
the way (`inject_empties`). Whether a field is taken from a reference is not looked at, so that a
value that others share is moved out as well (`shared_emptied`).
-/

namespace Lifecycle

/-- A value of the type is a way to a value that others may have. -/
def TypeTable.IsShared (types : TypeTable) (t : TypeId) : Prop :=
  types.shapeOf t = .ref ∨ types.shapeOf t = .ptr ∨ types.shapeOf t = .var
deriving Decidable

namespace Node

/-- A location within a variable with `P`, each step to which is a node with `Q`. -/
inductive Reached (P : SymRef → Prop) (Q : Node → Prop) : Node → Prop
  | name {h : Head} {ks : List Node} {r : SymRef} (hk : h.kind = .sym) (hr : h.sym = some r)
      (hp : P r) : Reached P Q (.node h ks)
  | part {h : Head} {n : Node} {ks : List Node} (hk : staysWithin h.kind = true)
      (hq : Q (.node h (n :: ks))) (hn : Reached P Q n) : Reached P Q (.node h (n :: ks))

/-- If a field or an element is taken, then not from what is shared. -/
def InPlace (types : TypeTable) : Node → Prop
  | .node h (n :: _) => h.kind = .dot ∨ h.kind = .index → ¬ types.IsShared n.type
  | _ => True

variable {P : SymRef → Prop} {Q Q' : Node → Prop}

theorem Reached.mono {n : Node} (h : n.Reached P Q) (hq : ∀ m, Q m → Q' m) : n.Reached P Q' := by
  induction h with
  | name hk hr hp => exact .name hk hr hp
  | part hk hm _ ih => exact .part hk (hq _ hm) ih

theorem Within.reached {n : Node} (h : n.Within P)
    (hq : ∀ m ∈ n.preorder, staysWithin m.kindOr = true → Q m) : n.Reached P Q := by
  induction h with
  | name hk hr hp => exact .name hk hr hp
  | part hk _ ih =>
    refine .part hk (hq _ (by simp [preorder]) hk) (ih fun m hm => hq m ?_)
    simp [preorder, preorderAll, hm]

theorem Reached.skipConv {n place : Node} (h : n.Reached P Q) (hs : n.skipConv = .ok place) :
    place.Reached P Q := by
  induction h with
  | @name hd ks r hk hr hp =>
    cases ks <;> (rw [Node.skipConv] at hs; simp only [hk] at hs; cases hs; exact .name hk hr hp)
  | part hk hq hn ih =>
    rw [Node.skipConv] at hs
    split_ifs at hs
    · exact ih hs
    · cases hs
      exact .part hk hq hn

def Marks (ss : Symbols) (c : Node) (as : List Node) : Prop :=
  c.isKind .call = true ∧ ∃ f q, c.kids = f :: as ∧ f.isSym (some q) = true ∧
    (ss.get q).magic = .wasMoved

theorem isSym_eq_of_rename {n m : Node} (h : n.rename id = m.rename id) (o : Option SymRef) :
    n.isSym o = m.isSym o := by
  rw [← isSym_rename n, h, isSym_rename]

theorem Marks.rename {c c' : Node} (h : c'.Marks ss as') (he : c.rename id = c'.rename id) :
    ∃ as, c.Marks ss as ∧ as.map (Node.rename id) = as'.map (Node.rename id) := by
  obtain ⟨hk, f', q, hks, hf, hm⟩ := h
  have hmap := congrArg kids he
  rw [kids_rename, kids_rename, hks, List.map_cons] at hmap
  obtain ⟨f, as, hc, hff, has⟩ := List.map_eq_cons_iff.1 hmap
  exact ⟨as, ⟨(isKind_eq_of_rename he _).trans hk, f, q, hc, (isSym_eq_of_rename hff _).trans hf,
    hm⟩, has⟩

end Node

namespace Ground

variable (k : Ground)

/-- A location that may be marked, but for its sites: the steps to it are nodes of the body. -/
def Emptied (a : Node) : Prop :=
  ∃ n : Node, n.Reached k.MayEmpty (· ∈ k.routine.body.preorder) ∧ n.rename id = a.rename id

/-- Nothing is marked but what may be emptied, where only the marker is known as one among `ss`. -/
def marking (ss : Symbols) : Palette := .free
  (fun
    | .op q => (ss.get q).magic ≠ .wasMoved
    | .magic m q => m ≠ .wasMoved → (ss.get q).magic ≠ .wasMoved
    | _ => True)
  (fun n => ∀ m ∈ n.preorder, (∀ as, ¬ m.Marks ss as) ∧
    (Node.staysWithin m.kindOr = true → m ∈ k.routine.body.preorder))
  fun c => ∀ as, c.Marks ss as → ∃ a, as = [a] ∧ k.Emptied a

variable {k} {ss : Symbols}

theorem marks_calls (h : k.Calls r t span args out) (hm : out.Marks ss as) :
    as = args ∧ (ss.get r).magic = .wasMoved := by
  obtain ⟨x, f, -, ⟨_, rfl⟩, _, rfl⟩ := h
  obtain ⟨-, f, q, hks, hf, hm⟩ := hm
  cases hks
  obtain rfl : r = q := by simpa using hf
  exact ⟨rfl, hm⟩

theorem source_refers (h : Node.Refers r x span n) : (k.marking ss).source n := by
  obtain ⟨_, rfl⟩ := h
  intro m hm
  simp only [Node.preorder, Node.preorderAll, List.mem_singleton] at hm
  subst hm
  refine ⟨?_, nofun⟩
  rintro as ⟨hk, -⟩
  cases hk

theorem emptied_resets (h : k.Resets n out l)
    (hn : n.Reached k.MayEmpty (· ∈ k.routine.body.preorder)) (hm : out.Marks ss as) :
    ∃ a, as = [a] ∧ k.Emptied a := by
  obtain ⟨place, cp, hplace, ⟨next, rfl⟩, r, hc, rfl⟩ := h
  obtain ⟨rfl, -⟩ := marks_calls hc hm
  exact ⟨_, rfl, place, hn.skipConv hplace, (Node.rename_relabel id place next).symm⟩

theorem closed_marking : (k.marking ss).Closed k where
  part h ks hs a ha m hm := hs m (by
    rw [Node.preorder, List.mem_cons]
    exact .inr (Node.mem_preorderAll.2 ⟨a, ha, hm⟩))
  early _ _ _ _ hr := source_refers hr
  fresh _ _ _ _ _ hr := source_refers hr
  start r t span n hn hc := by
    intro m hm
    have hcall := hc
    obtain ⟨x, f, -, hf, site, rfl⟩ := hcall
    simp only [Node.preorder, Node.preorderAll, List.append_nil, List.mem_cons] at hm
    rcases hm with rfl | hm
    · refine ⟨fun as h => ?_, fun h => by cases h⟩
      exact hn (by decide) (marks_calls hc h).2
    · exact source_refers hf m hm
  copy c c' he hc as hm := by
    obtain ⟨as', hm', ha⟩ := hm.rename he
    obtain ⟨a, rfl, n, hn, hna⟩ := hc as' hm'
    obtain ⟨a', rfl, haa⟩ := List.map_eq_singleton_iff.1 ha.symm
    exact ⟨a', rfl, n, hn, hna.trans haa.symm⟩
  kept n hs _ c hm _ as h := absurd h ((hs c hm).1 as)
  emits n l he hn as hm := by
    cases he with
    | @operator r _ _ _ _ hc _ =>
      have hr : (ss.get r).magic ≠ .wasMoved := hn (.op r) (by simp)
      exact absurd (marks_calls hc hm).2 hr
    | @magic m r _ _ _ _ hne hc _ =>
      have hr : m ≠ .wasMoved → (ss.get r).magic ≠ .wasMoved := hn (.magic m r) (by simp)
      exact absurd (marks_calls hc hm).2 (hr hne)
    | reset hs hmv hr =>
      exact emptied_resets hr (hmv.within.reached fun m hmem hk => (hs m hmem).2 hk) hm
    | cleared hx hn hr =>
      obtain ⟨_, rfl⟩ := hn
      exact emptied_resets hr (.name rfl rfl fun hlt => absurd hlt (Nat.not_lt.2 hx.late)) hm

theorem rebuilt_marking : (k.marking ss).Rebuilt k := by
  intro n d s h callee callee' ps as as' out l hs hk _ _ _ hcallee ho as1 hm
  obtain ⟨site, rfl⟩ := ho
  obtain ⟨-, f, q, hks, hf, hm⟩ := hm
  cases hks
  have hsym : callee'.isKind .sym = true := by
    cases callee' <;> simp_all
  have hname : callee' = callee := hcallee.elim id fun ⟨_, he⟩ => (calm_ruled k n).eval he hsym
  have hmarks : (Node.node h (callee :: as)).Marks ss as :=
    ⟨by simp [hk], callee, q, rfl, hname ▸ hf, hm⟩
  exact absurd hmarks ((hs _ (by simp [Node.preorder])).1 as)

end Ground

namespace Routine

/-- A well-formed routine that names what is known, while nothing but the pass uses the marker. -/
structure Unmarked (r : Routine) (s : OpState) : Prop where
  wellFormed : r.body.WellFormed s.symbols
  honest : s.Honest
  known : ∀ q, r.result = some q ∨ some q ∈ r.params ∨ some q ∈ r.body.symbolsUsed →
    q < s.symbols.all.size
  marker : ∀ q, some q ∈ r.body.symbolsUsed → (s.symbols.get q).magic ≠ .wasMoved

variable {r : Routine} {env : InjectEnv} {sh : Shared}

def Unmarked.ground {s : OpState} (h : r.Unmarked s) (types : TypeTable) : Ground where
  types := types
  routine := r
  ops := s
  regular := True
  known _ _ := h.honest.known
  inside _ q hq := h.known q (hq.imp_right Or.inl)

theorem Unmarked.not_marks (h : r.Unmarked s)
    (hs : s.Later types s') (hm : m ∈ r.body.preorder) (as : List Node) :
    ¬ m.Marks s'.symbols as := by
  rintro ⟨-, f, q, hks, hf, hmagic⟩
  have hmem : f ∈ m.preorder := by
    cases m with
    | hole => cases hks
    | node hd ks =>
      cases hks
      cases f with
      | hole => cases hf
      | node fh fs => simp [Node.preorder, Node.preorderAll]
  have hused := Node.mem_symbolsUsed_of_isSym (Node.preorder_trans hm hmem) hf
  have hlt := h.known q (.inr (.inr hused))
  exact h.marker q hused ((hs.symbols.marked hlt).magic ▸ hmagic)

/-- What is marked as moved in the new body lies within a variable that the routine may empty, and
the steps to it are nodes of the old one, none of which follows a pointer. Where no field or element
is taken from a reference there, none is on the way. -/
theorem inject_empties (h : r.Unmarked sh.ops) {res : Injected} {out : Node}
    (hres : (r.inject env sh).1 = .ok res) (hout : res.body = some out) :
    ∀ c ∈ out.preorder, ∀ as, c.Marks (r.inject env sh).2.ops.symbols as → ∃ a n : Node, as = [a] ∧
      n.rename id = a.rename id ∧
      let P := fun q => q < sh.ops.symbols.all.size → (sh.ops.symbols.get q).MayEmpty r.sym
      n.Reached P (· ∈ r.body.preorder) ∧
        ((∀ m ∈ r.body.preorder, m.InPlace env.types) → n.Reached P (Node.InPlace env.types)) := by
  intro c hc as hm
  have hsound : (h.ground env.types).Sound r.body :=
    sound_of_known h.wellFormed fun q hq => h.known q (.inr (.inr hq))
  obtain ⟨hlater, hbody⟩ := @inject_grounded r env sh (h.ground env.types)
    ⟨rfl, rfl, rfl, .inr hsound⟩
  rcases hbody res out hres hout with ⟨-, rfl⟩ | ⟨-, l, hw, hl⟩
  · exact absurd hm (h.not_marks hlater hc as)
  have hhonest := hlater.honest h.honest
  obtain ⟨hfits, -⟩ := Palette.good_free trivial Ground.closed_marking Ground.rebuilt_marking hw
    h.wellFormed (fun m hm => ⟨h.not_marks hlater hm, fun _ => hm⟩) fun e he => by
      have hh := hl.holds e he
      cases e with
      | op q => exact (hhonest.hook hh).2
      | magic m q => exact fun hne => (hhonest.builtin hh).2 ▸ hne
      | _ => trivial
  obtain ⟨a, rfl, n, hn, hna⟩ := hfits.calls c hc hm.1 as hm
  exact ⟨a, n, rfl, hna, hn, fun hin => hn.mono hin⟩

end Routine

namespace Owned

open Sample

def env : InjectEnv where
  types := {
    types := #[{}, { kind := .string }, { kind := .object, payload := 1 },
      { kind := .ref, elem := 2 }, { kind := .proc, payload := 1 }]
    objects := #[{}, { fields := some [{ name := "s", type := 1 }] }]
    procs := #[{}, { params := some [{ type := 1, sink := true }] }] }

def shared : Shared where
  ops.symbols.all := #[{ name := "f", kind := .proc }, { name := "take", kind := .proc, type := 4 },
    { name := "x", kind := .varLocal, owner := some 0, type := 3 },
    { name := "y", kind := .varLocal, owner := some 0, type := 2 },
    { name := "s", kind := .field, type := 1 }]

/-- `take(v.s)` -/
def routine (v : SymRef) (type : TypeId) : Routine where
  sym := some 0
  body := .node { kind := .call, site := 1 }
    [sym 1 4 2, .node { kind := .dot, type := 1, site := 3 } [sym v type 4, sym 4 1 5]]

/-- Whether `c` marks a field of the variable `v`, which is of the type `t`. -/
def marksField (v : SymRef) (t : TypeId) (c : Node) : Bool :=
  match c.kids with
  | [f, a] => c.isKind .call && f.isSym (some 6) && a.isKind .dot &&
    match a.kids with
    | [x, _] => x.isSym (some v) && decide (x.type = t)
    | _ => false
  | _ => false

theorem moved {v : SymRef} {t : TypeId} (h : v = 2 ∧ t = 3 ∨ v = 3 ∧ t = 2) :
    ∃ res out c a x f, ((routine v t).inject env shared).1 = .ok res ∧ res.body = some out ∧
      c ∈ out.preorder ∧ c.Marks ((routine v t).inject env shared).2.ops.symbols [a] ∧
      a.kids = [x, f] ∧ a.isKind .dot = true ∧ x.isSym (some v) = true ∧ x.type = t := by
  have hmagic : (((routine v t).inject env shared).2.ops.symbols.get 6).magic = .wasMoved := by
    rcases h with ⟨rfl, rfl⟩ | ⟨rfl, rfl⟩ <;> decide +kernel
  obtain ⟨res, hres, hrun⟩ := exists_ok (x := ((routine v t).inject env shared).1)
    (p := fun res => res.body.any fun out => out.preorder.any (marksField v t))
    (by rcases h with ⟨rfl, rfl⟩ | ⟨rfl, rfl⟩ <;> decide +kernel)
  obtain ⟨out, hout, hrun⟩ := (Option.any_eq_true _ _).1 hrun
  obtain ⟨c, hc, hrun⟩ := List.any_eq_true.1 hrun
  unfold marksField at hrun
  split at hrun
  · rename_i f a hks
    simp only [Bool.and_eq_true] at hrun
    obtain ⟨⟨⟨hk, hf⟩, hd⟩, hrun⟩ := hrun
    split at hrun
    · rename_i x g hxs
      simp only [Bool.and_eq_true, decide_eq_true_eq] at hrun
      exact ⟨res, out, c, a, x, g, hres, hout, hc, ⟨hk, f, 6, hks, hf, hmagic⟩, hxs, hd, hrun⟩
    · cases hrun
  · cases hrun

theorem unmarked : (routine 3 2).Unmarked shared.ops := by
  have hused : (routine 3 2).body.symbolsUsed = [some 1, some 3, some 4] := by decide +kernel
  refine ⟨by rfl, ⟨?_, nofun⟩, fun q hq => ?_, fun q hq => ?_⟩
  · rintro op (⟨_, h⟩ | ⟨_, h⟩ | ⟨_, h⟩) <;> cases h
  · rcases hq with hq | hq | hq
    · cases hq
    · cases hq
    · simp only [hused, List.mem_cons, Option.some.injEq, List.not_mem_nil, or_false] at hq
      rcases hq with rfl | rfl | rfl <;> decide
  · simp only [hused, List.mem_cons, Option.some.injEq, List.not_mem_nil, or_false] at hq
    rcases hq with rfl | rfl | rfl <;> decide

end Owned

open Owned Sample in
/-- The field is moved out of what the reference `x` stands for. -/
theorem shared_emptied : env.types.IsShared 3 ∧
    ∃ res out c a x f, ((routine 2 3).inject env shared).1 = .ok res ∧ res.body = some out ∧
      c ∈ out.preorder ∧ c.Marks ((routine 2 3).inject env shared).2.ops.symbols [a] ∧
      a.kids = [x, f] ∧ a.isKind .dot = true ∧ x.isSym (some 2) = true ∧ x.type = 3 :=
  ⟨by decide, moved (.inl ⟨rfl, rfl⟩)⟩

open Owned Sample in
/-- The object `y` is the routine's own, and its field is marked. -/
theorem inject_empties_own : (routine 3 2).Unmarked shared.ops ∧ ∃ res out c, ∃ a n : Node,
    ((routine 3 2).inject env shared).1 = .ok res ∧ res.body = some out ∧ c ∈ out.preorder ∧
    c.Marks ((routine 3 2).inject env shared).2.ops.symbols [a] ∧ n.rename id = a.rename id ∧
    n.Reached (fun q => q < 5 → (shared.ops.symbols.get q).MayEmpty (some 0))
      (Node.InPlace env.types) := by
  obtain ⟨res, out, c, a, x, f, hres, hout, hc, hm, -⟩ := moved (.inr ⟨rfl, rfl⟩)
  obtain ⟨_, n, ha, hn, -, hin⟩ := Routine.inject_empties unmarked hres hout c hc _ hm
  cases ha
  refine ⟨unmarked, res, out, c, a, n, hres, hout, hc, hm, hn, hin fun m hm => ?_⟩
  simp only [routine, sym, Node.preorder, Node.preorderAll, List.append_nil, List.cons_append,
    List.nil_append, List.mem_cons, List.not_mem_nil, or_false] at hm
  rcases hm with rfl | rfl | rfl | rfl | rfl
  · exact fun h => by simp at h
  · trivial
  · exact fun _ => by decide
  · trivial
  · trivial

end Lifecycle
