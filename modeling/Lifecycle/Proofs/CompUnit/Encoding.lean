import Mathlib.Data.List.Perm.Subperm
import Lifecycle.CompUnit.Codec
import Lifecycle.Proofs.Dict
import Lifecycle.Proofs.Source.Path
import Lifecycle.Proofs.Tree.Heads

/-!
# What is written of a unit

A unit refers to symbols through its operators, routines and trees, and through the owners of those.
`Storable` says when all of them can be told apart by their numbers and all numbers fit together.
Then the unit has a record, and the symbols in it are exactly those that the unit refers to.
-/

namespace Lifecycle

theorem Symbols.lt_of_id {ss : Symbols} (h : (ss.get r).id ≠ 0) : r < ss.all.size := by
  by_contra hr
  rw [Symbols.get, Array.getElem?_eq_none (Nat.le_of_not_lt hr)] at h
  exact h rfl

/-- The symbols that a routine names. -/
def Routine.mentions (x : Routine) : List (Option SymRef) :=
  x.sym :: x.body.preorder.map (fun m => m.head?.bind (·.sym)) ++ x.params ++ [x.result]

theorem Routine.mem_mentions {x : Routine} : some r ∈ x.mentions ↔ x.sym = some r ∨
    (∃ h ∈ x.body.heads, h.sym = some r) ∨ some r ∈ x.params ∨ x.result = some r := by
  simp only [mentions, Node.heads, List.cons_append, List.mem_cons, List.mem_append, List.mem_map,
    List.mem_filterMap, List.not_mem_nil, or_false, Option.bind_eq_some_iff, or_assoc]
  grind

namespace CompUnit

/-- The symbols that are named in a unit. -/
def mentions (u : CompUnit) : List (Option SymRef) :=
  u.ops.table.entries.map (·.op) ++ u.routines.flatMap Routine.mentions

/-- The symbols that a unit refers to, owners included. -/
inductive Names (u : CompUnit) : SymRef → Prop where
  | mention {r : SymRef} : some r ∈ u.mentions → u.Names r
  | owner {r o : SymRef} : u.Names r → (u.symbols.get r).owner = some o → u.Names o

/-- A position that is known names a file of the unit. -/
def Locates (u : CompUnit) (s : Span) : Prop := s.isUnknown = false → s.file.toNat < u.files.size

def HasType (u : CompUnit) (t : TypeId) : Prop := t.toNat < u.types.size

/-- A symbol that a unit file can hold. -/
structure Holds (u : CompUnit) (s : Symbol) : Prop where
  id : s.id ≠ 0
  position : -2147483648 ≤ s.position.toInt ∧ s.position.toInt ≤ 2147483647
  type : u.HasType s.type
  span : u.Locates s.span

/-- A registration that a unit file can hold. An operator counts as declared. -/
structure HoldsOp (u : CompUnit) (e : OpEntry) : Prop where
  type : u.HasType e.type
  kind : e.kind ∈ OpKind.named
  declared : ∀ r, e.op = some r → (u.symbols.get r).has .overridden = true

/-- A routine that a unit file can hold. -/
structure HoldsRoutine (u : CompUnit) (x : Routine) : Prop where
  sym : x.sym ≠ none
  params : none ∉ x.params
  body : x.body = .hole ∨ x.body.WellFormed u.symbols
  types : ∀ h ∈ x.body.heads, u.HasType h.type
  spans : ∀ h ∈ x.body.heads, u.Locates h.span

/-- A unit that can be written to a file and read back. -/
structure Storable (u : CompUnit) : Prop where
  files : u.files.Registered
  types : ∃ t, TypeTable.ofFlat u.types.flatten = .ok t
  user : u.ops.table.user.keys.Nodup
  disabled : u.ops.table.disabled.keys.Nodup
  symbols : ∀ r, u.Names r → u.Holds (u.symbols.get r)
  distinct : ∀ r s, u.Names r → u.Names s → (u.symbols.get r).id = (u.symbols.get s).id → r = s
  ops : ∀ e ∈ u.ops.table.entries, u.HoldsOp e
  routines : ∀ x ∈ u.routines, u.HoldsRoutine x

end CompUnit

/-! ## Collecting symbols -/

namespace Encoding

variable {ss : Symbols} {P : SymRef → Prop} {e : Encoding} {r : SymRef}

def Knows (ss : Symbols) (e : Encoding) (r : SymRef) : Prop :=
  ((ss.get r).id, r) ∈ e.known.entries

structure Good (ss : Symbols) (P : SymRef → Prop) (e : Encoding) : Prop where
  nodup : e.known.keys.Nodup
  entries : ∀ x ∈ e.known.entries, x.1 = (ss.get x.2).id ∧ P x.2

structure Numbered (ss : Symbols) (P : SymRef → Prop) : Prop where
  id : ∀ r, P r → (ss.get r).id ≠ 0
  distinct : ∀ r s, P r → P s → (ss.get r).id = (ss.get s).id → r = s
  owner : ∀ r o, P r → (ss.get r).owner = some o → P o

/-- The owner of a symbol that was met was met too, or is to be looked at next. -/
def Closed (ss : Symbols) (e : Encoding) (next : Option SymRef) : Prop :=
  ∀ r o, e.Knows ss r → (ss.get r).owner = some o → e.Knows ss o ∨ next = some o

theorem Good.length_le (hid : ∀ r, P r → (ss.get r).id ≠ 0) (hg : e.Good ss P) :
    e.known.entries.length ≤ ss.all.size := by
  have hinj : (e.known.entries.map (·.2)).Nodup := by
    refine List.Nodup.map_on (fun x hx y hy hxy => ?_) (List.Nodup.of_map _ hg.nodup)
    have hxid := (hg.entries x hx).1
    have hyid := (hg.entries y hy).1
    exact Prod.ext (by rw [hxid, hyid, hxy]) hxy
  have hsub : e.known.entries.map (·.2) ⊆ List.range ss.all.size := by
    intro r hr
    obtain ⟨x, hx, rfl⟩ := List.mem_map.1 hr
    exact List.mem_range.2 (Symbols.lt_of_id (hid _ (hg.entries x hx).2))
  have := (List.subperm_of_subset hinj hsub).length_le
  simpa using this

theorem Good.insert (hg : e.Good ss P) (hr : P r) (hk : e.known.get? (ss.get r).id = none) :
    Good ss P { e with known := e.known.insert (ss.get r).id r } where
  nodup := Dict.nodup_insert hg.nodup
  entries := by
    intro x hx
    rw [Dict.entries_insert hk] at hx
    rcases List.mem_append.1 hx with hx | hx
    · exact hg.entries x hx
    · rw [List.mem_singleton.1 hx]
      exact ⟨rfl, hr⟩

theorem knows_insert (hk : e.known.get? (ss.get r).id = none) :
    Knows ss { e with known := e.known.insert (ss.get r).id r } s ↔ e.Knows ss s ∨ s = r := by
  rw [Knows, Dict.entries_insert hk, List.mem_append, List.mem_singleton, Prod.mk.injEq, Knows]
  refine or_congr_right ⟨fun h => h.2, fun h => ⟨by rw [h], h⟩⟩

structure Noted (ss : Symbols) (P : SymRef → Prop) (e : Encoding) (next : Option SymRef)
    (e' : Encoding) : Prop where
  error : e'.error = e.error
  good : e'.Good ss P
  closed : e'.Closed ss none
  keeps : ∀ r, e.Knows ss r → e'.Knows ss r
  knows : ∀ r, next = some r → e'.Knows ss r

/-- The walk along the owners ends at a symbol that was met before or that has none. Each step meets
a new symbol, so there are fewer steps than symbols. -/
theorem noteWithin_spec (hn : Numbered ss P) : ∀ (n : Nat) (e : Encoding) (next : Option SymRef),
    e.Good ss P → e.Closed ss next → (∀ r, next = some r → P r) →
    ss.all.size - e.known.entries.length < n → Noted ss P e next (noteWithin ss n e next)
  | 0, _, _, _, _, _, hlt => absurd hlt (by omega)
  | n + 1, e, none, hg, hc, _, _ => by
    exact ⟨rfl, hg, hc, fun _ h => h, nofun⟩
  | n + 1, e, some r, hg, hc, hp, hlt => by
    have hr : P r := hp r rfl
    rw [noteWithin]
    simp only [hn.id r hr]
    rcases hk : e.known.get? (ss.get r).id with _ | prev
    · have hg' := hg.insert hr hk
      have hl := hg'.length_le hn.id
      rw [Dict.entries_insert hk, List.length_append] at hl
      have hs := noteWithin_spec hn n { e with known := e.known.insert (ss.get r).id r }
        (ss.get r).owner hg' ?_ (fun o ho => hn.owner r o hr ho) ?_
      · refine ⟨hs.error, hs.good, hs.closed,
          fun s hs' => hs.keeps s ((knows_insert hk).2 (.inl hs')), ?_⟩
        rintro s ⟨⟩
        exact hs.keeps r ((knows_insert hk).2 (.inr rfl))
      · intro s o hs ho
        rcases (knows_insert hk).1 hs with hs | rfl
        · rcases hc s o hs ho with h | h
          · exact .inl ((knows_insert hk).2 (.inl h))
          · exact .inl ((knows_insert hk).2 (.inr (Option.some.inj h).symm))
        · exact .inr ho
      · rw [Dict.entries_insert hk, List.length_append]
        simp only [List.length_cons] at hl ⊢
        omega
    · have hm := hg.entries _ (Dict.mem_of_get? hk)
      have hprev : prev = r := hn.distinct prev r hm.2 hr hm.1.symm
      subst hprev
      have hkr : e.Knows ss prev := Dict.mem_of_get? hk
      simp only
      refine ⟨rfl, hg, ?_, fun _ h => h, ?_⟩
      · intro s o hs ho
        rcases hc s o hs ho with h | h
        · exact .inl h
        · rw [← Option.some.inj h]
          exact .inl hkr
      · rintro s ⟨⟩
        exact hkr

theorem foldl_note (hn : Numbered ss P) : ∀ (rs : List (Option SymRef)) (e : Encoding),
    e.Good ss P → e.Closed ss none → (∀ r, some r ∈ rs → P r) →
    let e' := rs.foldl (note ss) e
    e'.error = e.error ∧ e'.Good ss P ∧ e'.Closed ss none ∧ (∀ r, e.Knows ss r → e'.Knows ss r) ∧
      ∀ r, some r ∈ rs → e'.Knows ss r
  | [], e, hg, hc, _ => ⟨rfl, hg, hc, fun _ h => h, by simp⟩
  | next :: rs, e, hg, hc, hp => by
    have hs := noteWithin_spec hn (ss.all.size + 1) e next hg
      (fun r o hr ho => .inl ((hc r o hr ho).resolve_right (by simp)))
      (fun r hr => hp r (by simp [hr])) (by omega)
    obtain ⟨he', hg', hc', hk', hr'⟩ := foldl_note hn rs (note ss e next) hs.good hs.closed
      fun r hr => hp r (by simp [hr])
    refine ⟨he'.trans hs.error, hg', hc', fun r hr => hk' r (hs.keeps r hr), fun r hr => ?_⟩
    rcases List.mem_cons.1 hr with hr | hr
    · exact hk' r (hs.knows r hr.symm)
    · exact hr' r hr

theorem noteRoutine_eq (e : Encoding) (x : Routine) :
    noteRoutine ss e x = x.mentions.foldl (note ss) e := by
  simp [noteRoutine, noteTree, Routine.mentions, List.foldl_map]

end Encoding

namespace CompUnit

variable {u : CompUnit}

def symbolFields (ss : Symbols) (s : Symbol) : SymbolRecord where
  id := s.id
  name := s.name
  kind := s.kind.code
  owner := wireId ss s.owner
  type := s.type
  flags := s.flags.bits
  magic := s.magic.code
  position := .ofInt s.position.toInt
  span := s.span

theorem symbolRecord_eq (h : -2147483648 ≤ s.position.toInt ∧ s.position.toInt ≤ 2147483647) :
    symbolRecord ss s = .ok (symbolFields ss s) := by
  exact if_pos h

theorem Storable.numbered (h : u.Storable) : Encoding.Numbered u.symbols u.Names where
  id := fun r hr => (h.symbols r hr).id
  distinct := h.distinct
  owner := fun _ _ hr ho => .owner hr ho

theorem encoding_eq (u : CompUnit) : u.routines.foldl (Encoding.noteRoutine u.symbols)
      (u.ops.table.entries.foldl (fun e x => Encoding.note u.symbols e x.op) {}) =
        u.mentions.foldl (Encoding.note u.symbols) {} := by
  have hr : ∀ (xs : List Routine) (e : Encoding), xs.foldl (Encoding.noteRoutine u.symbols) e =
      (xs.flatMap Routine.mentions).foldl (Encoding.note u.symbols) e := by
    intro xs
    induction xs with
    | nil => exact fun e => rfl
    | cons x xs ih =>
      intro e
      rw [List.foldl_cons, Encoding.noteRoutine_eq, ih, List.flatMap_cons, List.foldl_append]
  rw [hr, mentions, List.foldl_append, List.foldl_map]

def recordOf (u : CompUnit) (rs : List SymRef) : UnitRecord where
  schema := schemaVersion
  name := u.name
  files := u.files.paths
  types := u.types.flatten
  symbols := rs.map fun r => symbolFields u.symbols (u.symbols.get r)
  ops := u.ops.table.entries.map (opRecord u.symbols)
  routines := u.routines.map (routineRecord u.symbols)

/-- A unit that can be stored has a record, which holds the symbols that the unit refers to. -/
theorem Storable.record (h : u.Storable) : ∃ rs : List SymRef, rs.Nodup ∧
    (∀ r, r ∈ rs ↔ u.Names r) ∧ u.record = .ok (u.recordOf rs) := by
  obtain ⟨herr, hg, hc, -, hk⟩ := Encoding.foldl_note h.numbered u.mentions {}
    ⟨by simp [Dict.keys], by simp⟩ nofun (fun r hr => .mention hr)
  set e := u.mentions.foldl (Encoding.note u.symbols) {} with he
  have hnames : ∀ r, u.Names r → e.Knows u.symbols r := by
    intro r hr
    induction hr with
    | mention hm => exact hk _ hm
    | owner _ ho ih => exact (hc _ _ ih ho).resolve_right (by simp)
  have hperm := List.mergeSort_perm e.known.entries fun a b => decide (a.1 ≤ b.1)
  set known := e.known.entries.mergeSort fun a b => decide (a.1 ≤ b.1) with hknown
  have hmem : ∀ x ∈ known, x.1 = (u.symbols.get x.2).id ∧ u.Names x.2 := fun x hx =>
    hg.entries x (hperm.mem_iff.1 hx)
  refine ⟨known.map (·.2), ?_, fun r => ⟨fun hr => ?_, fun hr => ?_⟩, ?_⟩
  · refine List.Nodup.map_on (fun x hx y hy hxy => ?_)
      ((hperm.nodup_iff).2 (List.Nodup.of_map _ hg.nodup))
    exact Prod.ext (by rw [(hmem x hx).1, (hmem y hy).1, hxy]) hxy
  · obtain ⟨x, hx, rfl⟩ := List.mem_map.1 hr
    exact (hmem x hx).2
  · exact List.mem_map.2 ⟨_, hperm.mem_iff.2 (hnames r hr), rfl⟩
  · have hsyms : known.mapM (fun x => symbolRecord u.symbols (u.symbols.get x.2)) =
        .ok (known.map fun x => symbolFields u.symbols (u.symbols.get x.2)) :=
      mapM_ok known fun x hx => symbolRecord_eq (h.symbols _ (hmem x hx).2).position
    simp only [CompUnit.record, encoding_eq, ← he, herr]
    rw [hsyms]
    simp only [recordOf, List.map_map]
    rfl

end CompUnit

end Lifecycle
