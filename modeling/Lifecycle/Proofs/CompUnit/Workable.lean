import Mathlib.Logic.Relation
import Lifecycle.CompUnit.Run
import Lifecycle.Proofs.CompUnit.Encoding
import Lifecycle.Proofs.Injection.Outcome
import Lifecycle.Proofs.Injection.Respected

/-!
# Units that can be worked through and written

A unit is `Workable` when everything in it can be written and all its symbols have numbers of their
own, also those that nothing refers to. Working through a workable unit gives a workable unit, as
long as there are numbers left for the new symbols (`Workable.finished`).
-/

namespace Lifecycle

namespace CompUnit

def Sturdy (u : CompUnit) (r : SymRef) : Prop :=
  ∀ o, Relation.ReflTransGen (fun a b => (u.symbols.get a).owner = some b) r o →
    u.Holds (u.symbols.get o)

structure Lasting (u : CompUnit) (x : Routine) : Prop extends u.HoldsRoutine x where
  mentions : ∀ r, some r ∈ x.mentions → u.Sturdy r

/-- All symbols have numbers of their own, up to the last one that was given out. -/
structure Counted (ss : Symbols) : Prop where
  id : ∀ r < ss.all.size, (ss.get r).id ≠ 0
  le : ∀ r < ss.all.size, (ss.get r).id ≤ ss.lastId
  distinct : ∀ r < ss.all.size, ∀ s < ss.all.size, (ss.get r).id = (ss.get s).id → r = s

/-- A unit that can be worked through and written, time and again. -/
structure Workable (u : CompUnit) : Prop where
  files : u.files.Registered
  types : ∃ t, TypeTable.ofFlat u.types.flatten = .ok t
  bool : u.HasType u.types.builtins.bool
  symbols : Counted u.symbols
  user : u.ops.table.user.keys.Nodup
  disabled : u.ops.table.disabled.keys.Nodup
  ops : ∀ e ∈ u.ops.table.entries, u.HoldsOp e
  operators : ∀ op, u.ops.IsOperator op → u.Sturdy op
  routines : ∀ x ∈ u.routines, u.Lasting x

variable {u u' : CompUnit} {r : SymRef} {x : Routine} {options : RunOptions}

namespace Sturdy

theorem holds (h : u.Sturdy r) : u.Holds (u.symbols.get r) := h r .refl

theorem lt (h : u.Sturdy r) : r < u.symbols.all.size := Symbols.lt_of_id h.holds.id

theorem owner (h : u.Sturdy r) (ho : (u.symbols.get r).owner = some o) : u.Sturdy o :=
  fun x hx => h x (.head ho hx)

theorem mk (h : u.Holds (u.symbols.get r))
    (ho : ∀ o, (u.symbols.get r).owner = some o → u.Sturdy o) : u.Sturdy r := by
  intro x hx
  rcases hx.cases_head with rfl | ⟨o, hro, hox⟩
  · exact h
  · exact ho o hro x hox

end Sturdy

theorem Workable.sturdy_of_names (h : u.Workable) (hr : u.Names r) : u.Sturdy r := by
  induction hr with
  | mention hm =>
    rcases List.mem_append.1 hm with hm | hm
    · obtain ⟨e, he, hop⟩ := List.mem_map.1 hm
      refine h.operators _ (.inl ⟨(e.type, e.kind), Dict.get?_of_mem h.user ?_⟩)
      rcases List.mem_append.1 ((List.mergeSort_perm _ _).mem_iff.1 he) with he | he
      · obtain ⟨x, hx, rfl⟩ := List.mem_map.1 he
        rwa [← Option.some.inj hop]
      · obtain ⟨x, -, rfl⟩ := List.mem_map.1 he
        cases hop
    · obtain ⟨x, hx, hm⟩ := List.mem_flatMap.1 hm
      exact (h.routines x hx).mentions _ hm
  | owner _ ho ih => exact ih.owner ho

theorem Workable.storable (h : u.Workable) : u.Storable where
  files := h.files
  types := h.types
  user := h.user
  disabled := h.disabled
  symbols _ hr := (h.sturdy_of_names hr).holds
  distinct _ _ hr hs := h.symbols.distinct _ (h.sturdy_of_names hr).lt _ (h.sturdy_of_names hs).lt
  ops := h.ops
  routines x hx := (h.routines x hx).toHoldsRoutine

theorem TypeTable.size_pos {t : TypeTable} (h : ∃ t', TypeTable.ofFlat t.flatten = .ok t') :
    0 < t.size := by
  obtain ⟨t', h⟩ := h
  rw [TypeTable.ofFlat] at h
  split_ifs at h with hk
  rw [TypeTable.size, Array.size_pos_iff]
  intro he
  simp [TypeTable.flatten, he] at hk

theorem Workable.noType (h : u.Workable) : u.HasType 0 := TypeTable.size_pos h.types

theorem locates_unknown : u.Locates {} := by
  intro h
  cases h

/-! ## Later units -/

/-- `u'` comes of `u` by adding to the operators and symbols; its routines are left open. -/
structure Later (u u' : CompUnit) : Prop where
  files : u'.files = u.files
  types : u'.types = u.types
  ops : u.ops.Later u.types u'.ops

/-- There are numbers left for the symbols that `u'` has more. -/
def HasRoom (u u' : CompUnit) : Prop :=
  u.symbols.lastId.toNat + (u'.symbols.all.size - u.symbols.all.size) < 4294967296
deriving Decidable

namespace Later

theorem marked (h : u.Later u') (hr : r < u.symbols.all.size) :
    (u.symbols.get r).Marked (u'.symbols.get r) :=
  h.ops.symbols.marked hr

theorem hasType (h : u.Later u') (ht : u.HasType t) : u'.HasType t := by
  rw [HasType, h.types]
  exact ht

theorem locates (h : u.Later u') (hs : u.Locates s) : u'.Locates s := by
  rw [Locates, h.files]
  exact hs

theorem holds (h : u.Later u') (hs : u.Holds s) (hm : s.Marked s') : u'.Holds s' := by
  refine ⟨hm.id ▸ hs.id, ?_, hm.type ▸ h.hasType hs.type, hm.span ▸ h.locates hs.span⟩
  rw [hm.position]
  exact hs.position

theorem sturdy (h : u.Later u') (hr : u.Sturdy r) : u'.Sturdy r := by
  have key : ∀ o, Relation.ReflTransGen (fun a b => (u'.symbols.get a).owner = some b) r o →
      u.Sturdy o := by
    intro o ho
    induction ho with
    | refl => exact hr
    | tail _ hb ih =>
      rw [(h.marked ih.lt).owner] at hb
      exact ih.owner hb
  intro o ho
  exact h.holds (key o ho).holds (h.marked (key o ho).lt)

theorem holdsOp (h : u.Later u') (he : u.HoldsOp e) : u'.HoldsOp e := by
  refine ⟨h.hasType he.type, he.kind, fun r hr => ?_⟩
  have hd := he.declared r hr
  rcases Nat.lt_or_ge r u.symbols.all.size with hlt | hge
  · exact (h.marked hlt).has hd
  · rw [Symbols.get_of_le hge] at hd
    cases hd

theorem lasting (h : u.Later u') (hx : u.Lasting x) : u'.Lasting x := by
  have hm : ∀ r, some r ∈ x.mentions → u'.Sturdy r := fun r hr => h.sturdy (hx.mentions r hr)
  exact ⟨⟨hx.sym, hx.params, hx.body.imp_right fun hw => h.ops.symbols.wellFormed hw,
    fun hd hh => h.hasType (hx.types hd hh), fun hd hh => h.locates (hx.spans hd hh)⟩, hm⟩

theorem lastId (h : u.Later u') (hroom : u.HasRoom u') : u'.symbols.lastId.toNat =
    u.symbols.lastId.toNat + (u'.symbols.all.size - u.symbols.all.size) := by
  have := h.ops.symbols.lastId
  change u'.symbols.lastId = u.symbols.lastId + _ at this
  rw [this, UInt32.toNat_add, UInt32.toNat_ofNat']
  unfold HasRoom at hroom
  change (_ + (u'.symbols.all.size - u.symbols.all.size) % 4294967296) % 4294967296 = _
  omega

theorem id_new (h : u.Later u') (hroom : u.HasRoom u') {r : Nat} (hge : u.symbols.all.size ≤ r)
    (hlt : r < u'.symbols.all.size) : (u'.symbols.get r).id.toNat =
      u.symbols.lastId.toNat + (r + 1 - u.symbols.all.size) := by
  have := h.ops.symbols.id hge hlt
  change (u'.symbols.get r).id = u.symbols.lastId + UInt32.ofNat (r + 1 - u.symbols.all.size)
    at this
  rw [this, UInt32.toNat_add, UInt32.toNat_ofNat']
  unfold HasRoom at hroom
  omega

theorem id_old (h : u.Later u') (hlt : r < u.symbols.all.size) :
    (u'.symbols.get r).id = (u.symbols.get r).id :=
  (h.marked hlt).id

theorem counted (h : u.Later u') (hroom : u.HasRoom u') (hc : Counted u.symbols) :
    Counted u'.symbols := by
  have hlast := h.lastId hroom
  have hold : ∀ r < u.symbols.all.size, (u'.symbols.get r).id.toNat ≤ u.symbols.lastId.toNat := by
    intro r hr
    rw [h.id_old hr]
    exact UInt32.le_iff_toNat_le.1 (hc.le r hr)
  refine ⟨fun r hr => ?_, fun r hr => ?_, fun r hr s hs he => ?_⟩
  · rcases Nat.lt_or_ge r u.symbols.all.size with hlt | hge
    · rw [h.id_old hlt]
      exact hc.id r hlt
    · have hid := h.id_new hroom hge hr
      intro hz
      rw [hz] at hid
      change 0 = _ at hid
      omega
  · rw [UInt32.le_iff_toNat_le, hlast]
    rcases Nat.lt_or_ge r u.symbols.all.size with hlt | hge
    · exact Nat.le_add_right_of_le (hold r hlt)
    · rw [h.id_new hroom hge hr]
      omega
  · rcases Nat.lt_or_ge r u.symbols.all.size with hr' | hr' <;>
      rcases Nat.lt_or_ge s u.symbols.all.size with hs' | hs'
    · rw [h.id_old hr', h.id_old hs'] at he
      exact hc.distinct r hr' s hs' he
    · have hlt := hold r hr'
      rw [he, h.id_new hroom hs' hs] at hlt
      omega
    · have hlt := hold s hs'
      rw [← he, h.id_new hroom hr' hr] at hlt
      omega
    · have heq := congrArg UInt32.toNat he
      rw [h.id_new hroom hr' hr, h.id_new hroom hs' hs] at heq
      omega

theorem operators (h : u.Later u') (hroom : u.HasRoom u') (hu : u.Workable)
    (hop : u'.ops.IsOperator op) : u'.Sturdy op := by
  rcases h.ops.operator hop with hop | ⟨-, hlt, hm⟩
  · exact h.sturdy (hu.operators op hop)
  · change (u'.symbols.get op).IsMadeUp at hm
    refine .mk ⟨(h.counted hroom hu.symbols).id op hlt, ?_, ?_, ?_⟩ fun o ho => ?_
    · rw [hm.position]
      decide
    · rw [hm.type]
      exact h.hasType hu.noType
    · rw [hm.span]
      exact locates_unknown
    · rw [hm.owner] at ho
      cases ho

theorem workable (h : u.Later u') (hroom : u.HasRoom u') (hu : u.Workable)
    (hr : ∀ x ∈ u'.routines, u'.Lasting x) : u'.Workable where
  files := h.files ▸ hu.files
  types := h.types ▸ hu.types
  bool := by
    rw [h.types]
    exact h.hasType hu.bool
  symbols := h.counted hroom hu.symbols
  user := h.ops.user ▸ hu.user
  disabled := h.ops.disabled ▸ hu.disabled
  ops := by
    have he : u'.ops.table.entries = u.ops.table.entries := by
      rw [OperatorTable.entries, h.ops.user, h.ops.disabled, OperatorTable.entries]
    rw [he]
    exact fun e hm => h.holdsOp (hu.ops e hm)
  operators _ hop := h.operators hroom hu hop
  routines := hr

end Later

/-! ## One routine -/

structure Grounds (u : CompUnit) (x : Routine) (k : Ground) : Prop where
  types : k.types = u.types
  routine : k.routine = x
  ops : u.ops.Later u.types k.ops
  regular : k.regular

theorem Workable.grounds (hu : u.Workable) (hx : x ∈ u.routines)
    (ht : env.types = u.types) (hs : u.ops.Later u.types sh.ops) :
    ∃ k, x.Grounded env sh k ∧ u.Grounds x k := by
  have hlater : u.Later { u with ops := sh.ops } := ⟨rfl, rfl, hs⟩
  have hl := hlater.lasting (hu.routines x hx)
  have hin : ∀ r, some r ∈ x.mentions → r < sh.ops.symbols.all.size := fun r hr =>
    (hl.mentions r hr).lt
  let k : Ground :=
    { types := u.types, routine := x, ops := sh.ops, regular := True
      known := by
        intro _ op hop
        rcases hs.operator hop with hop | ⟨-, hlt, -⟩
        · exact Nat.lt_of_lt_of_le (hu.operators op hop).lt hs.symbols.size_le
        · exact hlt
      inside := by
        rintro _ r (hr | hr)
        · exact hin r (by simp [Routine.mentions, hr])
        · exact hin r (by simp [Routine.mentions, hr]) }
  refine ⟨k, ⟨ht.symm, rfl, rfl, hl.body.imp_right fun hw => ⟨hw, ?_⟩⟩, rfl, rfl, hs, trivial⟩
  intro _ h vh vs ks hm _ r hr
  refine hin r (Routine.mem_mentions.2 (.inr (.inl
    ⟨_, List.mem_filterMap.2 ⟨.node vh vs, ?_, rfl⟩, hr⟩)))
  exact Node.preorder_trans hm (by simp [Node.preorder, Node.preorderAll])

/-- The symbols that a unit can write, those of a routine's new variables among them, and the types
and positions that it has. -/
def palette (u : CompUnit) (l : Log) : Palette where
  sym r := u.Sturdy r ∨ r ∈ l.fresh
  type := u.HasType
  span := u.Locates
  strict := True

section Body

variable {x : Routine} {k : Ground} {s : OpState} {l : Log} {out : Node}

theorem sturdy_fresh (hu' : Counted u'.symbols) (hx : u'.Lasting x) (hk : k.routine = x)
    (hs : s.Later u.types u'.ops) (hl : k.Logged s l) (hkeeps : ∀ e ∈ l, (palette u' l).Keeps k e)
    (hr : r ∈ l.fresh) : u'.Sturdy r := by
  obtain ⟨lent, v, hm⟩ := Log.mem_fresh.1 hr
  obtain ⟨kind, t, span, hv, ht, hp⟩ := hkeeps _ hm
  obtain ⟨hlt, hmark⟩ := hs.has (hl.holds _ hm)
  refine .mk ⟨hu'.id r hlt, ?_, ?_, ?_⟩ fun o ho => ?_
  · have hp : (u'.symbols.get r).position = v.position := hmark.position
    rw [hp, hv.position]
    decide
  · change u'.HasType (u'.ops.symbols.get r).type
    rw [hmark.type, hv.type]
    exact ht
  · change u'.Locates (u'.ops.symbols.get r).span
    rw [hmark.span, hv.span]
    exact hp
  · change (u'.ops.symbols.get r).owner = some o at ho
    rw [hmark.owner, hv.owner, hk] at ho
    exact hx.mentions o (by simp [Routine.mentions, ho])

theorem Later.lasting_body (h : u.Later u') (hroom : u.HasRoom u') (hu : u.Workable)
    (hx : x ∈ u.routines) (hk : u.Grounds x k) (hs : s.Later u.types u'.ops) (hl : k.Logged s l)
    (hw : k.Works out l) (hb : k.Sound x.body) : u'.Lasting { x with body := out } := by
  have hx' := h.lasting (hu.routines x hx)
  have hkl : k.ops.Later u.types u'.ops := (hk.types ▸ hl.later).trans hs
  have hsym : ∀ r, some r ∈ x.mentions → (palette u' l).sym r := fun r hr =>
    .inl (hx'.mentions r hr)
  have hcovers : (palette u' l).Covers k := by
    refine ⟨hk.regular, h.hasType hu.noType, locates_unknown, ?_, ?_, ?_, ?_,
      Palette.closed_of_forall (fun _ => trivial) fun _ => trivial⟩
    · rw [hk.types]
      exact h.hasType hu.bool
    · intro r hlt hr
      have hr : u'.Sturdy r := hr.resolve_right fun hf => Nat.not_le.2 hlt (hl.new r hf).1
      have hm := hkl.symbols.marked hlt
      have ht := hr.holds.type
      have hp := hr.holds.span
      change u'.HasType (u'.ops.symbols.get r).type at ht
      change u'.Locates (u'.ops.symbols.get r).span at hp
      rw [hm.type] at ht
      rw [hm.span] at hp
      exact ⟨ht, hp⟩
    · intro r hr
      rw [hk.routine] at hr
      exact hsym r (by simp [Routine.mentions, hr])
    · intro r hr _
      rw [hk.routine] at hr
      exact hsym r (by simp [Routine.mentions, hr])
  have hadmits : ∀ e ∈ l, (palette u' l).Admits e := by
    intro e he
    have hh := (hl.holds e he).later (hk.types ▸ hs)
    cases e with
    | fresh lent r v => exact ⟨.inr (Log.mem_fresh.2 ⟨lent, v, he⟩), trivial⟩
    | op r => exact ⟨.inl (h.operators hroom hu (OpState.IsHook.isOperator hh)), trivial⟩
    | magic m r => exact ⟨.inl (h.operators hroom hu (.inr (.inr (.inr ⟨m, hh⟩)))), trivial⟩
    | _ => trivial
  have htakes : (palette u' l).Takes k k.routine.body := by
    rw [hk.routine]
    exact ⟨⟨hb.wellFormed, fun hd hh => ⟨hx'.types hd hh, hx'.spans hd hh, fun r hr _ =>
      hsym r (Routine.mem_mentions.2 (.inr (.inl ⟨_, hh, hr⟩)))⟩⟩, trivial⟩
  obtain ⟨hout, hkeeps⟩ := Palette.good_works hcovers
    (Palette.rebuilt_of_forall fun _ => trivial) hw htakes hadmits
  have hsturdy : ∀ r, (palette u' l).sym r → u'.Sturdy r := fun r hr =>
    hr.elim (fun h => h) (sturdy_fresh (h.counted hroom hu.symbols) hx' hk.routine hs hl hkeeps)
  refine ⟨⟨hx'.sym, hx'.params, .inr (hkl.symbols.wellFormed hout.wellFormed),
    fun hd hh => (hout.shows hd hh).type, fun hd hh => (hout.shows hd hh).span⟩, fun r hr => ?_⟩
  rcases Routine.mem_mentions.1 hr with hr | ⟨hd, hh, hs⟩ | hr
  · exact hx'.mentions r (Routine.mem_mentions.2 (.inl hr))
  · exact hsturdy r ((hout.shows hd hh).sym r hs (.inr trivial))
  · exact hx'.mentions r (Routine.mem_mentions.2 (.inr (.inr hr)))

end Body

/-! ## The run -/

structure Traced (u : CompUnit) (s : OpState) (rr : RoutineResult) : Prop where
  mem : rr.routine ∈ u.routines
  body : ∀ out, rr.injected.body = some out → out = rr.routine.body ∨
    ∃ k s' l, k.Sound rr.routine.body ∧ u.Grounds rr.routine k ∧ k.Works out l ∧ k.Logged s' l ∧
      s'.Later u.types s

theorem Traced.later (h : u.Traced s rr) (hs : s.Later u.types s') : u.Traced s' rr :=
  ⟨h.mem, fun out hout => (h.body out hout).imp_right fun ⟨k, s0, l, hb, hk, hw, hl, hs0⟩ =>
    ⟨k, s0, l, hb, hk, hw, hl, hs0.trans hs⟩⟩

structure Run (u : CompUnit) (run : UnitRun) : Prop where
  unit : run.unit = u
  later : u.ops.Later u.types run.shared.ops
  routines : ∀ rr ∈ run.routines, u.Traced run.shared.ops rr

theorem of_runRoutine (h : runRoutine options limit env x sh = .ok (rr, events, sh')) :
    rr.routine = x ∧ (x.inject env sh).1 = .ok rr.injected ∧ (x.inject env sh).2 = sh' := by
  rw [runRoutine] at h
  generalize x.inject env sh = p at h ⊢
  obtain ⟨i, hi, h⟩ := bind_eq_ok.1 h
  dsimp only at h
  split_ifs at h
  · obtain ⟨d, -, h⟩ := bind_eq_ok.1 h
    cases pure_eq_ok.1 h
    exact ⟨rfl, hi, rfl⟩
  · cases pure_eq_ok.1 h
    exact ⟨rfl, hi, rfl⟩

theorem Run.step (hu : u.Workable) {run run' : UnitRun} (h : u.Run run)
    (hx : x ∈ u.routines) (hs : run.step x = .ok run') : u.Run run' := by
  obtain ⟨⟨rr, events, sh⟩, hr, hs⟩ := bind_eq_ok.1 hs
  cases pure_eq_ok.1 hs
  obtain ⟨hroutine, hres, hsh⟩ := of_runRoutine hr
  have ht : run.unit.types = u.types := congrArg CompUnit.types h.unit
  obtain ⟨k, hk, hg⟩ : ∃ k, x.Grounded { types := run.unit.types, options := run.options.inject
                                         parent := run.span.id } run.shared k ∧ u.Grounds x k :=
    hu.grounds hx ht h.later
  obtain ⟨hlater, hbody⟩ := Routine.inject_grounded hk
  rw [hsh] at hlater hbody
  have hlater : run.shared.ops.Later u.types sh.ops := ht ▸ hlater
  refine ⟨h.unit, h.later.trans hlater, fun r hm => ?_⟩
  rcases List.mem_append.1 hm with hm | hm
  · exact (h.routines r hm).later hlater
  · rw [List.mem_singleton.1 hm]
    refine ⟨hroutine ▸ hx, fun out hout => ?_⟩
    rw [hroutine]
    exact (hbody rr.injected out hres hout).imp And.right fun ⟨hb, l, hw, hl⟩ =>
      ⟨k, sh.ops, l, hb, hg, hw, hl, .refl _⟩

theorem Run.fold (hu : u.Workable) : ∀ (xs : List Routine) {run run' : UnitRun},
    (∀ x ∈ xs, x ∈ u.routines) → u.Run run → xs.foldlM UnitRun.step run = .ok run' → u.Run run'
  | [], _, _, _, h, hf => by
    cases pure_eq_ok.1 hf
    exact h
  | x :: xs, _, _, hx, h, hf => by
    obtain ⟨run1, hs, hf⟩ := bind_eq_ok.1 hf
    exact Run.fold hu xs (fun y hy => hx y (by simp [hy])) (h.step hu (hx x (by simp)) hs) hf

/-- A run only adds to the operators and symbols. -/
theorem Workable.of_run (hu : u.Workable) (hr : u.run options trace = .ok res) :
    u.Later res.unit ∧ ∀ rr ∈ res.routines, u.Traced res.unit.ops rr := by
  rw [CompUnit.run] at hr
  split_ifs at hr
  · cases pure_eq_ok.1 hr
    exact ⟨⟨rfl, rfl, .refl _⟩, by simp [UnitRun.callOff]⟩
  · obtain ⟨run, hf, hr⟩ := bind_eq_ok.1 hr
    cases pure_eq_ok.1 hr
    have h := Run.fold hu u.routines (fun _ h => h) ⟨rfl, .refl _, by simp [UnitRun.start]⟩ hf
    have hf : run.unit.files = u.files := congrArg CompUnit.files h.unit
    have ht : run.unit.types = u.types := congrArg CompUnit.types h.unit
    exact ⟨⟨hf, ht, h.later⟩, h.routines⟩

/-- The unit that comes of working through a workable unit is workable. -/
theorem Workable.finished (hu : u.Workable)
    (hr : u.run options trace = .ok res) (hroom : u.HasRoom res.unit) : res.finished.Workable := by
  obtain ⟨hl, ht⟩ := hu.of_run hr
  have hl : u.Later res.finished := ⟨hl.files, hl.types, hl.ops⟩
  refine hl.workable hroom hu fun x hx => ?_
  obtain ⟨rr, hm, rfl⟩ := List.mem_map.1 hx
  have ht := ht rr hm
  rcases hb : rr.injected.body with _ | out
  · exact hl.lasting (hu.routines _ ht.mem)
  · rcases ht.body out hb with rfl | ⟨k, s, l, hsound, hk, hw, hlog, hs⟩
    · exact hl.lasting (hu.routines _ ht.mem)
    · exact hl.lasting_body hroom hu ht.mem hk hs hlog hw hsound

theorem exists_step {run : UnitRun} (he : ∀ name, run.options.expand name = false)
    (hx : x.sym ≠ none) : ∃ run', run.step x = .ok run' ∧ run'.options = run.options := by
  have hr : ∀ env sh limit, ∃ p, runRoutine run.options limit env x sh = .ok p := by
    intro env sh limit
    rw [runRoutine]
    obtain ⟨i, hi⟩ : ∃ res, (x.inject env sh).1 = .ok res := Routine.inject_isOk hx
    generalize x.inject env sh = p at hi
    obtain ⟨res, sh1⟩ := p
    cases hi
    simp only [he]
    exact ⟨_, rfl⟩
  obtain ⟨p, hp⟩ := hr _ run.shared run.limit
  rw [UnitRun.step]
  rw [hp]
  exact ⟨_, rfl, rfl⟩

/-- Working through a unit without printing gives a result. -/
theorem Workable.exists_run (hu : u.Workable) (trace : TraceLog)
    (he : ∀ name, options.expand name = false) : ∃ res, u.run options trace = .ok res := by
  have key : ∀ (xs : List Routine) (run : UnitRun), (∀ x ∈ xs, x.sym ≠ none) →
      (∀ name, run.options.expand name = false) →
        ∃ run', xs.foldlM UnitRun.step run = .ok run' := by
    intro xs
    induction xs with
    | nil => exact fun run _ _ => ⟨run, rfl⟩
    | cons x xs ih =>
      intro run hx he
      obtain ⟨run1, h1, ho⟩ := exists_step he (hx x (by simp))
      obtain ⟨run2, h2⟩ := ih run1 (fun y hy => hx y (by simp [hy])) (ho ▸ he)
      exact ⟨run2, by rw [List.foldlM_cons, h1]; exact h2⟩
  rw [CompUnit.run]
  split_ifs
  · exact ⟨_, rfl⟩
  · obtain ⟨run, hf⟩ := key u.routines (UnitRun.start u options trace)
      (fun x hx => (hu.routines x hx).sym) he
    rw [hf]
    exact ⟨_, rfl⟩

end CompUnit

end Lifecycle
