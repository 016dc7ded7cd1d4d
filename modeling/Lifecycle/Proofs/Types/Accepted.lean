import Lifecycle.Proofs.Operators.Memory
import Lifecycle.Proofs.Tree.WellFormed
import Lifecycle.Proofs.Types.Flat

/-!
# What an accepted table answers

Acceptance checks the slots and the elements of a table, and nothing else: not the types of fields,
tuples, parameters and arguments, and not that elements lead anywhere. The first is enough for every
question to have an answer. It is not enough for wrappers to end: `skip_stops_iff` says when they
do.
-/

namespace Lifecycle

namespace TypeTable

variable {t u : TypeTable} {f : FlatTypes} {id a b : TypeId} {d : TypeDesc}

/-! ## What acceptance checks -/

theorem noteAll_accepts : ∀ {ds : List TypeDesc} {t u : TypeTable} {id : TypeId},
    t.noteAll ds id = (u, []) → u.bare = t.bare ∧ ∀ d ∈ ds, ∃ id, t.defect? id d = none
  | [], _, _, _, h => by
    cases h
    exact ⟨rfl, by simp⟩
  | d :: ds, t, u, id, h => by
    rw [noteAll] at h
    cases hd : t.defect? id d with
    | some e => simp [hd] at h
    | none =>
      rw [hd] at h
      obtain ⟨hu, hds⟩ := noteAll_accepts h
      exact ⟨hu, List.forall_mem_cons.2 ⟨⟨id, hd⟩, hds⟩⟩

structure Checked (t : TypeTable) : Prop where
  elem : ∀ {id d}, t.lookup id = some d → d.kind.hasElem = true → d.elem.toNat < t.size
  slot : ∀ {id d n}, t.lookup id = some d → t.slots? d.kind = some n → d.payload.toNat < n

theorem mem_of_lookup (h : t.lookup id = some d) : d ∈ t.types.toList := by
  rw [lookup] at h
  split_ifs at h
  exact Array.mem_toList_iff.2 (Array.mem_of_getElem? h)

theorem checked_of_ofFlat (h : ofFlat f = .ok t) : t.Checked := by
  rw [ofFlat] at h
  split_ifs at h
  dsimp only at h
  split at h
  · rename_i u hu
    cases h
    obtain ⟨hb, hd⟩ := noteAll_accepts hu
    have htypes : t.types = f.types.toArray := congrArg types hb
    have hnone : ∀ {id d}, t.lookup id = some d → ∃ i, t.defect? i d = none := by
      intro id d hl
      obtain ⟨i, hi⟩ := hd d (by simpa [htypes] using mem_of_lookup hl)
      exact ⟨i, (congrArg (fun v => v.defect? i d) hb).trans hi⟩
    exact ⟨fun hl hk => ((defect?_eq_none).1 (hnone hl).choose_spec).1 hk,
      fun hl hn => ((defect?_eq_none).1 (hnone hl).choose_spec).2 _ hn⟩
  · cases h

/-! ## Questions and answers -/

theorem exists_orAbsent {α : Type} {as : Array α} {i : Nat} (h : i < as.size) :
    ∃ x, orAbsent as[i]? = .ok x := ⟨as[i], by rw [Array.getElem?_eq_getElem h]; rfl⟩

theorem exists_bind {α β : Type} {x : Except Fault α} {k : α → Except Fault β} (hx : ∃ a, x = .ok a)
    (hk : ∀ a, ∃ b, k a = .ok b) : ∃ b, (x >>= k) = .ok b := by
  obtain ⟨a, rfl⟩ := hx
  exact hk a

theorem exists_mapM {α β γ : Type} {f : α → Except Fault β} (hf : ∀ a, ∃ b, f a = .ok b)
    (as : List α)
    {k : List β → Except Fault γ} (hk : ∀ bs, ∃ c, k bs = .ok c) :
    ∃ c, (as.mapM f >>= k) = .ok c := by
  choose g hg using hf
  exact exists_bind ⟨_, mapM_ok as fun a _ => hg a⟩ hk

/-- Every question about the type has an answer. Questions that go from type to type ask about any
type in turn, so what `part` says of the others is left open. -/
structure Answers (t : TypeTable) (id : TypeId) : Prop where
  lookup : (t.lookup id).isSome = true ↔ id ≠ 0 ∧ id.toNat < t.size
  elem : ∀ d, t.lookup id = some d → d.kind.hasElem = true → d.elem.toNat < t.size
  object : (t.object? id).isSome = true ↔ t.kindOf id = .object
  name : ∃ x, t.nominalName id = .ok x
  components : ∃ ts, t.components id = .ok ts
  tupleElems : ∃ ts, t.tupleElems id = .ok ts
  procInfo : ∃ p, t.procInfo? id = .ok p
  instInfo : ∃ i, t.instInfo? id = .ok i
  generic : ∃ b, t.containsGenericParam id = .ok b
  text : ∀ part, (∀ a, ∃ x, part a = .ok x) → ∃ x, t.textStep part id = .ok x
  cycle : ∀ n seen, ∃ r, t.cycleWithin n id seen = .ok r
  lifecycle : ∀ s : OpState, ∃ b, s.hasLifecycle t id = .ok b

namespace Checked

variable (h : t.Checked)

include h

theorem object : (t.object? id).isSome = true ↔ t.kindOf id = .object := by
  rw [object?, objectSlot?, kindOf]
  rcases hl : t.lookup id with _ | d
  · simp
  · by_cases hk : d.kind = .object
    · have hs := h.slot hl (n := t.objects.size) (by rw [hk]; rfl)
      simp [hk, hs]
    · simp [hk]

theorem name (id : TypeId) : ∃ x, t.nominalName id = .ok x := by
  rw [nominalName]
  rcases hl : t.lookup id with _ | d
  · exact ⟨_, rfl⟩
  · dsimp only
    split
    · exact exists_bind (exists_orAbsent (h.slot hl (by rw [‹d.kind = _›]; rfl))) fun _ => ⟨_, rfl⟩
    · exact exists_orAbsent (h.slot hl (by rw [‹d.kind = _›]; rfl))
    · exact exists_orAbsent (h.slot hl (by rw [‹d.kind = _›]; rfl))
    · exact exists_bind (exists_orAbsent (h.slot hl (by rw [‹d.kind = _›]; rfl))) fun _ => ⟨_, rfl⟩
    · exact ⟨_, rfl⟩

theorem components (id : TypeId) : ∃ ts, t.components id = .ok ts := by
  rw [TypeTable.components]
  rcases hl : t.lookup id with _ | d
  · exact ⟨_, rfl⟩
  · dsimp only
    split
    · exact exists_bind (exists_orAbsent (h.slot hl (by rw [‹d.kind = _›]; rfl))) fun _ => ⟨_, rfl⟩
    · exact exists_bind (exists_orAbsent (h.slot hl (by rw [‹d.kind = _›]; rfl))) fun _ => ⟨_, rfl⟩
    all_goals exact ⟨_, rfl⟩

theorem tupleElems (id : TypeId) : ∃ ts, t.tupleElems id = .ok ts := by
  rw [TypeTable.tupleElems]
  rcases hl : t.lookup id with _ | d
  · exact ⟨_, rfl⟩
  · dsimp only
    split_ifs with hk
    · exact exists_bind (exists_orAbsent (h.slot hl (by rw [hk]; rfl))) fun _ => ⟨_, rfl⟩
    · exact ⟨_, rfl⟩

theorem proc (hl : t.lookup id = some d) :
    ∃ p, (if d.kind = .proc then some <$> orAbsent t.procs[d.payload.toNat]? else .ok none) =
    .ok p := by
  split_ifs with hk
  · obtain ⟨p, hp⟩ := exists_orAbsent (h.slot hl (by rw [hk]; rfl))
    exact ⟨_, by rw [hp]; rfl⟩
  · exact ⟨_, rfl⟩

theorem procInfo (id : TypeId) : ∃ p, t.procInfo? id = .ok p := by
  rw [procInfo?]
  rcases hl : t.lookup id with _ | d
  · exact ⟨_, rfl⟩
  · dsimp only [Option.bind]
    split_ifs with hk
    · rcases he : t.lookup d.elem with _ | e
      · exact ⟨_, rfl⟩
      · exact h.proc he
    · exact h.proc hl

theorem instInfo (id : TypeId) : ∃ i, t.instInfo? id = .ok i := by
  rw [instInfo?]
  rcases hl : t.lookup id with _ | d
  · exact ⟨_, rfl⟩
  · dsimp only
    split_ifs with hk
    · exact exists_bind (exists_orAbsent (h.slot hl (by rw [hk]; rfl))) fun _ => ⟨_, rfl⟩
    · exact ⟨_, rfl⟩

theorem text (hp : ∀ a, ∃ x, part a = .ok x) (id : TypeId) :
    ∃ x, t.textStep part id = .ok x := by
  rw [textStep]
  rcases hl : t.lookup id with _ | d
  · exact ⟨_, rfl⟩
  · dsimp only
    split
    case h_7 =>
      exact exists_bind (exists_orAbsent (h.slot hl (by rw [‹d.kind = _›]; rfl))) fun ts =>
        exists_mapM hp ts.items fun _ => ⟨_, rfl⟩
    case h_8 =>
      refine exists_bind (exists_orAbsent (h.slot hl (by rw [‹d.kind = _›]; rfl))) fun info =>
        exists_mapM (fun p => exists_bind (hp p.type) fun _ => ⟨_, rfl⟩) info.params.items fun ps =>
          ?_
      split_ifs
      · exact ⟨_, rfl⟩
      · exact exists_bind (hp info.result) fun _ => ⟨_, rfl⟩
    case h_10 | h_11 | h_12 => exact h.name id
    case h_13 =>
      exact exists_bind (exists_orAbsent (h.slot hl (by rw [‹d.kind = _›]; rfl))) fun info =>
        exists_mapM hp info.args.items fun _ => ⟨_, rfl⟩
    case h_14 => exact ⟨_, rfl⟩
    all_goals exact exists_bind (hp d.elem) fun _ => ⟨_, rfl⟩

end Checked

/-! ## Searches -/

theorem tryEach_ok (hv : ∀ id seen, ∃ r, visit id seen = .ok r) :
    ∀ ids seen, ∃ r, tryEach visit ids seen = .ok r
  | [], _ => ⟨_, rfl⟩
  | id :: ids, seen => by
    obtain ⟨⟨found, seen'⟩, hr⟩ := hv id seen
    rw [tryEach, hr]
    cases found with
    | true => exact ⟨_, rfl⟩
    | false => exact tryEach_ok hv ids seen'

theorem Checked.tryComponents (h : t.Checked)
    (hv : ∀ id seen, ∃ r, visit id seen = .ok r) (id : TypeId) (seen : List TypeId) :
    ∃ r, (do tryEach visit (← t.components id) seen) = .ok r :=
  exists_bind (h.components id) fun ts => tryEach_ok hv ts seen

theorem Checked.generic (h : t.Checked) : ∀ n id seen, ∃ r, t.genericWithin n id seen = .ok r
  | 0, _, _ => ⟨_, rfl⟩
  | n + 1, id, seen => by
    rw [genericWithin]
    split_ifs
    · exact ⟨_, rfl⟩
    · rcases t.lookup id with _ | d
      · exact ⟨_, rfl⟩
      · dsimp only
        split
        · exact ⟨_, rfl⟩
        all_goals first | exact h.generic n _ _ | exact h.tryComponents (h.generic n) id _

theorem Checked.cycle (h : t.Checked) : ∀ n id seen, ∃ r, t.cycleWithin n id seen = .ok r
  | 0, _, _ => ⟨_, rfl⟩
  | n + 1, id, seen => by
    rw [cycleWithin]
    split_ifs
    · exact ⟨_, rfl⟩
    · rcases t.lookup (t.skipAbstract id) with _ | d
      · exact ⟨_, rfl⟩
      · dsimp only
        split_ifs
        · exact ⟨_, rfl⟩
        · split
          · exact ⟨_, rfl⟩
          · exact ⟨_, rfl⟩
          · exact h.cycle n _ _
          · exact h.tryComponents (h.cycle n) _ _

end TypeTable

namespace OpM

variable {types : TypeTable}

theorem ends_tryParts (hv : ∀ t seen s, Ends False (visit t seen s) fun _ _ => True) :
    ∀ ts seen s, Ends False (tryParts visit ts seen s) fun _ _ => True
  | [], _, _ => trivial
  | t :: ts, seen, s => by
    rw [tryParts, ends_bind]
    refine (hv t seen s).mono fun r s' _ => ?_
    rcases r with ⟨found, seen'⟩
    cases found with
    | true => trivial
    | false => exact ends_tryParts hv ts seen' s'

theorem ends_parts (h : types.Checked) (t : TypeId) (s : OpState) :
    Ends False (parts types t s) fun _ _ => True := by
  obtain ⟨ts, hts⟩ := h.components t
  rw [parts, hts]
  rcases types.lookup t with _ | d
  · trivial
  · dsimp only
    split_ifs <;> trivial

theorem ends_needsWithin (h : types.Checked) :
    ∀ n t seen s, Ends False (needsWithin types n t seen s) fun _ _ => True
  | 0, _, _, _ => trivial
  | n + 1, t, seen, s => by
    rw [needsWithin, ends_bind, ends_get]
    rcases s.table.lifetime.get? t with _ | v
    · dsimp only
      split_ifs
      · trivial
      · exact ends_bind.2 trivial
      · exact ends_bind.2 ((ends_parts h t s).mono fun ts s' _ => ends_bind.2
          ((ends_tryParts (ends_needsWithin h n) ts _ s').mono fun _ _ _ => trivial))
    · trivial

theorem ends_needsLifecycle (h : types.Checked) (t : TypeId) (s : OpState) :
    Ends False (needsLifecycle types t s) fun _ _ => True :=
  ends_bind.2 ((ends_needsWithin h _ t [] s).mono fun _ _ _ => trivial)

end OpM

namespace TypeTable

variable {t : TypeTable} {f : FlatTypes} {id : TypeId}

/-- In an accepted table every question about every number has an answer, whether the number is one
of a type or not. -/
theorem ofFlat_answers (h : ofFlat f = .ok t) (id : TypeId) : t.Answers id := by
  have hc := checked_of_ofFlat h
  constructor
  case lookup =>
    rw [lookup]
    split_ifs with h0 <;> simp [h0, size]
  case elem => exact fun d => hc.elem
  case object => exact hc.object
  case name => exact hc.name id
  case components => exact hc.components id
  case tupleElems => exact hc.tupleElems id
  case procInfo => exact hc.procInfo id
  case instInfo => exact hc.instInfo id
  case generic =>
    obtain ⟨r, hr⟩ := hc.generic (t.size + 1) id []
    exact ⟨r.1, by rw [containsGenericParam, hr]; rfl⟩
  case text => exact fun part hp => hc.text hp id
  case cycle => exact fun n => hc.cycle n id
  case lifecycle =>
    intro s
    obtain ⟨b, s', hb, -⟩ := (OpM.ends_needsLifecycle hc id s).exists
    exact ⟨b, by rw [OpState.hasLifecycle, hb]⟩

/-- A field, a tuple and a wrapper that lead outside the table. -/
def adrift : FlatTypes where
  types := [{}, { kind := .object }, { kind := .tuple }, { kind := .distinct, elem := 2 }]
  objects := [{ name := "node", fields := some [{ name := "next", type := 77 }] }]
  tuples := [some [1, 99]]
  procs := [{}]
  insts := [{}]
  names := ["id"]

theorem ofFlat_answers_adrift : ∃ t, ofFlat adrift = .ok t ∧ t.Answers 3 :=
  ⟨_, rfl, ofFlat_answers (f := adrift) rfl 3⟩

/-! ## Wrappers -/

section Skip

variable {kinds : TypeKind → Bool}

/-- `a` is of a kind to skip, and `b` is what it is made of. -/
def Follows (t : TypeTable) (kinds : TypeKind → Bool) (a b : TypeId) : Prop :=
  ∃ d, t.lookup a = some d ∧ kinds d.kind = true ∧ d.elem = b

/-- Skipping stops at a type: it is none of the kinds to skip, or none at all. -/
def Stops (t : TypeTable) (kinds : TypeKind → Bool) (a : TypeId) : Prop :=
  ∀ d, t.lookup a = some d → kinds d.kind = false

/-- Skipping from `a` comes back to a type that it came from. -/
def RunsRound (t : TypeTable) (kinds : TypeKind → Bool) (a : TypeId) : Prop :=
  ∃ e, Relation.ReflTransGen (t.Follows kinds) a e ∧ Relation.TransGen (t.Follows kinds) e e

theorem stops_or_follows (t : TypeTable) (kinds : TypeKind → Bool) (a : TypeId) :
    t.Stops kinds a ∨ ∃ b, t.Follows kinds a b := by
  rw [or_iff_not_imp_left, Stops]
  push Not
  rintro ⟨d, hl, hk⟩
  exact ⟨d.elem, d, hl, by simpa using hk, rfl⟩

theorem Stops.not_follows (h : t.Stops kinds a) : ¬ t.Follows kinds a b := by
  rintro ⟨d, hl, hk, -⟩
  simp [h d hl] at hk

theorem Follows.skipWithin_succ (h : t.Follows kinds a b) (n : Nat) :
    t.skipWithin kinds (n + 1) a = t.skipWithin kinds n b := by
  obtain ⟨d, hl, hk, rfl⟩ := h
  simp [skipWithin, hl, hk]

theorem Stops.skipWithin (h : t.Stops kinds a) : ∀ n, t.skipWithin kinds n a = a
  | 0 => rfl
  | n + 1 => by
    rw [TypeTable.skipWithin]
    rcases hl : t.lookup a with _ | d
    · rfl
    · simp [h d hl]

theorem RunsRound.follows (h : t.RunsRound kinds a) :
    ∃ b, t.Follows kinds a b ∧ t.RunsRound kinds b := by
  obtain ⟨e, hae, hee⟩ := h
  rcases hae.cases_head with rfl | ⟨b, hab, hbe⟩
  · obtain ⟨b, hab, hba⟩ := Relation.TransGen.head'_iff.1 hee
    exact ⟨b, hab, _, hba, hee⟩
  · exact ⟨b, hab, e, hbe, hee⟩

theorem RunsRound.not_stops : ∀ (n : Nat) {a : TypeId}, t.RunsRound kinds a →
    ¬ t.Stops kinds (t.skipWithin kinds n a)
  | 0, a, h => fun hs => hs.not_follows h.follows.choose_spec.1
  | n + 1, a, h => by
    obtain ⟨b, hab, hb⟩ := h.follows
    rw [hab.skipWithin_succ]
    exact RunsRound.not_stops n hb

/-- On the way from a type that does not run round no type is met twice, so that the way is not
longer than the table. -/
theorem stops_skipWithin : ∀ (n : Nat) {a : TypeId} {path : List TypeId}, path.Nodup →
    (∀ x ∈ path, Relation.TransGen (t.Follows kinds) x a) → t.size ≤ n + path.length →
    ¬ t.RunsRound kinds a → t.Stops kinds (t.skipWithin kinds n a) := by
  intro n a path hpath hback hn hround
  rcases stops_or_follows t kinds a with hs | ⟨b, hab⟩
  · rwa [hs.skipWithin]
  have hnot : a ∉ path := fun ha => hround ⟨a, .refl, hback a ha⟩
  have hnext : ∀ x ∈ a :: path, Relation.TransGen (t.Follows kinds) x b :=
    List.forall_mem_cons.2 ⟨.single hab, fun x hx => (hback x hx).tail hab⟩
  have hknown : ∀ x ∈ a :: path, (t.lookup x).isSome = true := by
    intro x hx
    obtain ⟨_, ⟨d, hl, -⟩, -⟩ := Relation.TransGen.head'_iff.1 (hnext x hx)
    simp [hl]
  have hle := length_le_size (List.nodup_cons.2 ⟨hnot, hpath⟩) hknown
  cases n with
  | zero => simp only [List.length_cons] at hle; omega
  | succ n =>
    rw [hab.skipWithin_succ]
    refine stops_skipWithin n (List.nodup_cons.2 ⟨hnot, hpath⟩) hnext ?_ ?_
    · simp only [List.length_cons]
      omega
    · rintro ⟨e, hbe, hee⟩
      exact hround ⟨e, .head hab hbe, hee⟩

theorem skipWithin_le (hs : t.Stops kinds (t.skipWithin kinds m a)) (hn : m ≤ n) :
    t.skipWithin kinds n a = t.skipWithin kinds m a := by
  induction m generalizing a n with
  | zero => exact hs.skipWithin n
  | succ m ih =>
    rcases stops_or_follows t kinds a with ha | ⟨b, hab⟩
    · rw [ha.skipWithin, ha.skipWithin]
    · obtain ⟨k, rfl⟩ : ∃ k, n = k + 1 := ⟨n - 1, by omega⟩
      rw [hab.skipWithin_succ] at hs ⊢
      rw [hab.skipWithin_succ]
      exact ih hs (by omega)

/-- Wrappers are stripped within as many steps as the table has types, and further steps change
nothing, just when none of them is inside itself. Otherwise no number of steps is enough. The first
is so where each wrapper is declared after what it wraps. -/
theorem skip_stops_iff (t : TypeTable) (kinds : TypeKind → Bool) (id : TypeId) :
    (t.Stops kinds (t.skip kinds id) ↔ ¬ t.RunsRound kinds id) ∧
    (t.Stops kinds (t.skip kinds id) → ∀ n ≥ t.size, t.skipWithin kinds n id = t.skip kinds id) ∧
    (t.RunsRound kinds id → ∀ n, ¬ t.Stops kinds (t.skipWithin kinds n id)) ∧
    ((∀ a b, t.Follows kinds a b → b < a) → t.Stops kinds (t.skip kinds id)) := by
  have hstops : ¬ t.RunsRound kinds id → t.Stops kinds (t.skip kinds id) :=
    stops_skipWithin t.size List.nodup_nil (by simp) (by simp)
  refine ⟨⟨fun hs hr => hr.not_stops _ hs, hstops⟩, fun hs n => skipWithin_le hs,
    fun hr n => hr.not_stops n, fun hdown => hstops ?_⟩
  rintro ⟨e, -, hee⟩
  have hlt : ∀ {a b}, Relation.TransGen (t.Follows kinds) a b → b < a := by
    intro a b h
    induction h with
    | single h => exact hdown _ _ h
    | tail _ h ih => exact UInt32.lt_trans (hdown _ _ h) ih
  exact UInt32.lt_irrefl e (hlt hee)

/-- A distinct type of itself. -/
def selfish : FlatTypes where
  types := [{}, { kind := .distinct, elem := 1 }]
  objects := [{}]
  tuples := [none]
  procs := [{}]
  insts := [{}]
  names := [Text.empty]

/-- It is accepted, but no number of steps leads out of it. -/
theorem selfish_accepted : ∃ t, ofFlat selfish = .ok t ∧
    ∀ n, t.kindOf (t.skipWithin TypeKind.isAbstract n 1) = .distinct := by
  refine ⟨_, rfl, fun n => ?_⟩
  induction n with
  | zero => rfl
  | succ n ih => exact ih

end Skip

end TypeTable

end Lifecycle
