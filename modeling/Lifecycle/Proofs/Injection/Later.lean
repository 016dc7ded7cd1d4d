import Lifecycle.Proofs.Injection.Operators
import Lifecycle.Proofs.Tree.Heads

/-!
# What comes after

Questions to the operators and new symbols only add, also when a failure ends them. `Leads E r Q`
speaks of both outcomes: a value and a state with `Q`, or a failure in a state with `E`.
-/

namespace Lifecycle

/-- `Q` holds where the run ends well, and `E` where it fails. -/
def Leads {ε σ α : Type} (E : σ → Prop) (r : EStateM.Result ε σ α) (Q : α → σ → Prop) : Prop :=
  match r with
  | .ok a s => Q a s
  | .error _ s => E s

section Leads

variable {ε σ α : Type} {E F : σ → Prop} {r : EStateM.Result ε σ α} {Q R : α → σ → Prop}

theorem Leads.mono (h : Leads E r Q) (hef : ∀ s, E s → F s) (hqr : ∀ a s, Q a s → R a s) :
    Leads F r R := by
  cases r with
  | ok a s => exact hqr a s h
  | error e s => exact hef s h

end Leads

def Dict.Sub {κ α : Type} [DecidableEq κ] (a b : Dict κ α) : Prop :=
  ∀ k v, a.get? k = some v → b.get? k = some v

namespace Dict.Sub

variable {κ α : Type} [DecidableEq κ] {a b d : Dict κ α}

theorem refl (a : Dict κ α) : a.Sub a := fun _ _ h => h

theorem trans (h : a.Sub b) (h' : b.Sub d) : a.Sub d := fun k v hk => h' k v (h k v hk)

theorem insert (h : a.Sub b) {k : κ} {v : α} (hk : a.get? k = none) : a.Sub (b.insert k v) := by
  intro k' v' hk'
  rw [Dict.get?_insert]
  split_ifs with he
  · subst he
    rw [hk] at hk'
    cases hk'
  · exact h k' v' hk'

theorem none (h : a.Sub b) {k : κ} (hk : b.get? k = none) : a.get? k = none := by
  rcases ha : a.get? k with _ | v
  · rfl
  · rw [h k v ha] at hk
    cases hk

end Dict.Sub

/-- A routine that nobody declared, as it is entered: without type, place and owner. -/
structure Symbol.IsMadeUp (s : Symbol) : Prop where
  kind : s.kind = .proc
  type : s.type = 0
  span : s.span = {}
  owner : s.owner = none
  position : s.position = 0

/-- The same symbol, but it may have been marked as a temporary with one use since. -/
def Symbol.Marked (s s' : Symbol) : Prop :=
  ∃ f : SymFlags, (f = {} ∨ f = .singleUsedTemp) ∧ s' = { s with flags := s.flags.union f }

namespace Symbol.Marked

variable {s s' s'' : Symbol}

theorem refl (s : Symbol) : s.Marked s :=
  ⟨{}, .inl rfl, by
    cases s with
    | mk id name kind owner type flags =>
      simp [SymFlags.union]⟩

theorem trans (h : s.Marked s') (h' : s'.Marked s'') : s.Marked s'' := by
  obtain ⟨f, hf, rfl⟩ := h
  obtain ⟨g, hg, rfl⟩ := h'
  refine ⟨f.union g, ?_, ?_⟩
  · rcases hf with rfl | rfl <;> rcases hg with rfl | rfl <;> simp [SymFlags.union]
  simp [SymFlags.union, UInt32.or_assoc]

theorem isMadeUp (h : s.Marked s') (hs : s.IsMadeUp) : s'.IsMadeUp := by
  obtain ⟨f, -, rfl⟩ := h
  exact ⟨hs.kind, hs.type, hs.span, hs.owner, hs.position⟩

theorem id (h : s.Marked s') : s'.id = s.id := by
  obtain ⟨f, -, rfl⟩ := h
  rfl

theorem kind (h : s.Marked s') : s'.kind = s.kind := by
  obtain ⟨f, -, rfl⟩ := h
  rfl

theorem type (h : s.Marked s') : s'.type = s.type := by
  obtain ⟨f, -, rfl⟩ := h
  rfl

theorem span (h : s.Marked s') : s'.span = s.span := by
  obtain ⟨f, -, rfl⟩ := h
  rfl

theorem owner (h : s.Marked s') : s'.owner = s.owner := by
  obtain ⟨f, -, rfl⟩ := h
  rfl

theorem position (h : s.Marked s') : s'.position = s.position := by
  obtain ⟨f, -, rfl⟩ := h
  rfl

theorem magic (h : s.Marked s') : s'.magic = s.magic := by
  obtain ⟨f, -, rfl⟩ := h
  rfl

theorem has (h : s.Marked s') {f : SymFlags} (hf : s.has f = true) : s'.has f = true := by
  obtain ⟨g, -, rfl⟩ := h
  simp only [Symbol.has, SymFlags.has_union, Bool.or_eq_true]
  exact .inl hf

theorem has_eq (h : s.Marked s') {g : SymFlags} (hg : SymFlags.singleUsedTemp.has g = false) :
    s'.has g = s.has g := by
  obtain ⟨f, hf, rfl⟩ := h
  have hfg : f.has g = false := by
    rcases hf with rfl | rfl
    · simp [SymFlags.has]
    · exact hg
  simp only [Symbol.has, SymFlags.has_union, hfg, Bool.or_false]

end Symbol.Marked

namespace Symbols

theorem get_of_le {ss : Symbols} {r : SymRef} (h : ss.all.size ≤ r) : ss.get r = {} := by
  rw [get, Array.getElem?_eq_none h]
  rfl

/-- Symbols were added, each under the next number, and flags were set. -/
structure Grown (a b : Symbols) : Prop where
  size_le : a.all.size ≤ b.all.size
  marked : ∀ {r}, r < a.all.size → (a.get r).Marked (b.get r)
  lastId : b.lastId = a.lastId + UInt32.ofNat (b.all.size - a.all.size)
  id : ∀ {r}, a.all.size ≤ r → r < b.all.size →
    (b.get r).id = a.lastId + UInt32.ofNat (r + 1 - a.all.size)
  late : ∀ {r}, a.all.size ≤ r → (b.get r).magic ≠ .new ∧ (b.get r).has .discriminant = false

namespace Grown

variable {a b d : Symbols}

theorem wellFormed (h : a.Grown b) {n : Node} (hn : n.WellFormed a) : n.WellFormed b := by
  refine hn.of_fields fun hd _ r _ hf => ?_
  rcases Nat.lt_or_ge r a.all.size with hlt | hge
  · exact (h.marked hlt).kind.trans hf
  · rw [get_of_le hge] at hf
    cases hf

theorem refl (a : Symbols) : a.Grown a where
  size_le := Nat.le_refl _
  marked _ := .refl _
  lastId := by simp
  id h h' := absurd h' (Nat.not_lt.2 h)
  late h := by
    rw [get_of_le h]
    exact ⟨by decide, by decide⟩

theorem trans (h : a.Grown b) (h' : b.Grown d) : a.Grown d where
  size_le := Nat.le_trans h.size_le h'.size_le
  marked hr := (h.marked hr).trans (h'.marked (Nat.lt_of_lt_of_le hr h.size_le))
  lastId := by
    have hs : d.all.size - a.all.size = (b.all.size - a.all.size) + (d.all.size - b.all.size) := by
      have := h.size_le
      have := h'.size_le
      omega
    rw [h'.lastId, h.lastId, hs, UInt32.ofNat_add, UInt32.add_assoc]
  id {r} hr hr' := by
    rcases Nat.lt_or_ge r b.all.size with hlt | hge
    · rw [(h'.marked hlt).id]
      exact h.id hr hlt
    · have hs : r + 1 - a.all.size = (b.all.size - a.all.size) + (r + 1 - b.all.size) := by
        have := h.size_le
        omega
      rw [h'.id hge hr', h.lastId, hs, UInt32.ofNat_add, UInt32.add_assoc]
  late {r} hr := by
    rcases Nat.lt_or_ge r b.all.size with hlt | hge
    · have hm := h'.marked hlt
      rw [hm.magic, hm.has_eq (by decide)]
      exact h.late hr
    · exact h'.late hge

theorem fresh (a : Symbols) {s : Symbol} (hm : s.magic ≠ .new)
    (hd : s.has .discriminant = false) : a.Grown (a.fresh s).2 where
  size_le := by simp [Symbols.fresh, add]
  marked {r} hr := by
    have hne : r ≠ a.all.size := Nat.ne_of_lt hr
    have hg : (a.fresh s).2.get r = a.get r := by
      simp only [Symbols.fresh, add, get, Array.getElem?_push, if_neg hne]
    rw [hg]
    exact .refl _
  lastId := by simp [Symbols.fresh, add]
  id {r} hr hr' := by
    have hs : r = a.all.size := by
      simp only [Symbols.fresh, add, Array.size_push] at hr'
      omega
    subst hs
    simp [Symbols.fresh, add, get]
  late {r} hr := by
    by_cases h : r = a.all.size
    · simp only [Symbols.fresh, add, get, Array.getElem?_push, if_pos h]
      exact ⟨hm, hd⟩
    · have := (refl a).late hr
      simpa only [Symbols.fresh, add, get, Array.getElem?_push, if_neg h] using this

theorem mark (a : Symbols) (r : SymRef) :
    a.Grown (a.modify r fun x => { x with flags := x.flags.union .singleUsedTemp }) := by
  have hsize : (a.modify r fun x => { x with flags := x.flags.union .singleUsedTemp }).all.size
      = a.all.size := by
    simp [Symbols.modify]
  refine ⟨Nat.le_of_eq hsize.symm, ?_, ?_, ?_, ?_⟩
  · intro x hx
    by_cases hrx : r = x
    · subst hrx
      refine ⟨.singleUsedTemp, .inr rfl, ?_⟩
      simp only [Symbols.modify, get, Array.getElem?_modify, if_pos, Array.getElem?_eq_getElem hx,
        Option.map_some, Option.getD_some]
    · have hg : (a.modify r fun x => { x with flags := x.flags.union .singleUsedTemp }).get x
          = a.get x := by
        simp [Symbols.modify, get, Array.getElem?_modify, hrx]
      rw [hg]
      exact .refl _
  · rw [hsize]
    simp [Symbols.modify]
  · intro x hx hx'
    omega
  · intro x hx
    rw [get_of_le (hsize ▸ hx)]
    exact ⟨by decide, by decide⟩

theorem get_fresh (a : Symbols) (s : Symbol) :
    (a.fresh s).2.get a.all.size = { s with id := a.lastId + 1 } := by
  simp [Symbols.fresh, add, get]

end Grown

end Symbols

namespace OpState

/-- The built-in operations are what they are entered as, and no operator of a type is a marker. -/
structure Honest (s : OpState) : Prop where
  hook : ∀ {op}, s.IsHook op → op < s.symbols.all.size ∧ (s.symbols.get op).magic ≠ .wasMoved
  builtin : ∀ {m op}, s.table.magics.get? m = some op →
    op < s.symbols.all.size ∧ (s.symbols.get op).magic = m

theorem Honest.known {s : OpState} {op : SymRef} (h : s.Honest) (ho : s.IsOperator op) :
    op < s.symbols.all.size := by
  rcases ho with ho | ho | ho | ⟨m, ho⟩
  · exact (h.hook (.inl ho)).1
  · exact (h.hook (.inr (.inl ho))).1
  · exact (h.hook (.inr (.inr ho))).1
  · exact (h.builtin ho).1

/-- `s'` comes after `s`: what is in the tables stays, and an operator that comes up is a new
symbol. -/
structure Later (types : TypeTable) (s s' : OpState) : Prop where
  symbols : s.symbols.Grown s'.symbols
  user : s'.table.user = s.table.user
  disabled : s'.table.disabled = s.table.disabled
  synth : s.table.synth.Sub s'.table.synth
  branch : s.table.branch.Sub s'.table.branch
  magics : s.table.magics.Sub s'.table.magics
  lifetime : s.table.lifetime.Sub s'.table.lifetime
  operator : ∀ {op}, s'.IsOperator op → s.IsOperator op ∨
    s.symbols.all.size ≤ op ∧ op < s'.symbols.all.size ∧ (s'.symbols.get op).IsMadeUp
  honest : s.Honest → s'.Honest
  lifeless : ∀ {t}, s.IsLifeless types t → s'.IsLifeless types t

namespace Later

variable {types : TypeTable} {s s' s'' : OpState}

theorem refl (s : OpState) : s.Later types s :=
  ⟨.refl _, rfl, rfl, .refl _, .refl _, .refl _, .refl _, .inl, id, id⟩

theorem trans (h : s.Later types s') (h' : s'.Later types s'') : s.Later types s'' where
  symbols := h.symbols.trans h'.symbols
  user := h'.user.trans h.user
  disabled := h'.disabled.trans h.disabled
  synth := h.synth.trans h'.synth
  branch := h.branch.trans h'.branch
  magics := h.magics.trans h'.magics
  lifetime := h.lifetime.trans h'.lifetime
  operator hop := by
    rcases h'.operator hop with hop | ⟨hle, hlt, hm⟩
    · rcases h.operator hop with hop | ⟨hle, hlt, hm⟩
      · exact .inl hop
      · exact .inr ⟨hle, Nat.lt_of_lt_of_le hlt h'.symbols.size_le,
          (h'.symbols.marked hlt).isMadeUp hm⟩
    · exact .inr ⟨Nat.le_trans h.symbols.size_le hle, hlt, hm⟩
  honest := h'.honest ∘ h.honest
  lifeless := h'.lifeless ∘ h.lifeless

theorem isHook (h : s.Later types s') {op : SymRef} (hop : s.IsHook op) : s'.IsHook op := by
  rcases hop with ⟨k, hk⟩ | ⟨k, hk⟩ | ⟨k, hk⟩
  · exact .inl ⟨k, by rw [h.user]; exact hk⟩
  · exact .inr (.inl ⟨k, h.synth k op hk⟩)
  · exact .inr (.inr ⟨k, h.branch k op hk⟩)

theorem of_symbols {ss : Symbols} (h : s.symbols.Grown ss) :
    s.Later types { s with symbols := ss } := by
  refine ⟨h, rfl, rfl, .refl _, .refl _, .refl _, .refl _, .inl, fun hs => ⟨?_, ?_⟩, id⟩
  · intro op hop
    obtain ⟨hlt, hm⟩ := hs.hook hop
    exact ⟨Nat.lt_of_lt_of_le hlt h.size_le, (h.marked hlt).magic ▸ hm⟩
  · intro m op hop
    obtain ⟨hlt, hm⟩ := hs.builtin hop
    exact ⟨Nat.lt_of_lt_of_le hlt h.size_le, (h.marked hlt).magic.trans hm⟩

theorem of_lifetime (h : s.Later types s') {t : TypeId} {v : Bool}
    (ht : s.table.lifetime.get? t = none) (hv : v = true → ¬ s.IsLifeless types t) : s.Later types
      { s' with table := { s'.table with lifetime := s'.table.lifetime.insert t v } } := by
  refine ⟨h.symbols, h.user, h.disabled, h.synth, h.branch, h.magics, h.lifetime.insert ht,
    h.operator, fun hs => ⟨(h.honest hs).hook, (h.honest hs).builtin⟩, fun {x} hx => ?_⟩
  obtain ⟨hk, hu, hl⟩ := h.lifeless hx
  refine ⟨hk, hu, ?_⟩
  rw [Dict.get?_insert]
  split_ifs with htx
  · subst htx
    exact fun h => hv (Option.some.inj h) hx
  · exact hl

theorem of_entry {op : SymRef} (h : s.Later types s') {t : OperatorTable}
    (hle : s.symbols.all.size ≤ op) (hlt : op < s'.symbols.all.size)
    (hm : (s'.symbols.get op).IsMadeUp) (hu : t.user = s'.table.user)
    (hd : t.disabled = s'.table.disabled) (hl : t.lifetime = s'.table.lifetime)
    (hs : s.table.synth.Sub t.synth) (hb : s.table.branch.Sub t.branch)
    (hg : s.table.magics.Sub t.magics) (hh : ∀ x, IsHook ⟨t, s'.symbols⟩ x →
      s'.IsHook x ∨ x = op ∧ (s'.symbols.get op).magic ≠ .wasMoved)
    (hi : ∀ m x, t.magics.get? m = some x →
      s'.table.magics.get? m = some x ∨ x = op ∧ (s'.symbols.get op).magic = m) :
    s.Later types ⟨t, s'.symbols⟩ where
  symbols := h.symbols
  user := hu.trans h.user
  disabled := hd.trans h.disabled
  synth := hs
  branch := hb
  magics := hg
  lifetime := hl ▸ h.lifetime
  operator {x} hx := by
    have hop : s'.IsOperator x ∨ x = op := by
      rcases hx with hx | hx | hx | ⟨m, hx⟩
      · exact (hh x (.inl hx)).imp IsHook.isOperator And.left
      · exact (hh x (.inr (.inl hx))).imp IsHook.isOperator And.left
      · exact (hh x (.inr (.inr hx))).imp IsHook.isOperator And.left
      · exact (hi m x hx).imp (fun h => .inr (.inr (.inr ⟨m, h⟩))) And.left
    rcases hop with hx | rfl
    · exact h.operator hx
    · exact .inr ⟨hle, hlt, hm⟩
  honest hs := by
    refine ⟨fun {x} hx => ?_, fun {m x} hx => ?_⟩
    · rcases hh x hx with hx | ⟨rfl, hx⟩
      · exact (h.honest hs).hook hx
      · exact ⟨hlt, hx⟩
    · rcases hi m x hx with hx | ⟨rfl, hx⟩
      · exact (h.honest hs).builtin hx
      · exact ⟨hlt, hx⟩
  lifeless hx := by
    have := h.lifeless hx
    unfold IsLifeless OperatorTable.hasUser at this ⊢
    rw [hu, hl]
    exact this

end Later

end OpState

namespace OpM

open OpState

variable {α β : Type} {types : TypeTable} {s s0 : OpState} {E I : OpState → Prop}
  {Q : α → OpState → Prop} {r : EStateM.Result Fault OpState α} {kind : OpKind}

theorem leads_bind {m : OpM α} {f : α → OpM β} {Q : β → OpState → Prop} :
    Leads E ((m >>= f) s) Q ↔ Leads E (m s) fun a s' => Leads E (f a s') Q := by
  have hb : (m >>= f) s = EStateM.bind m f s := rfl
  rw [hb, EStateM.bind]
  cases m s <;> exact Iff.rfl

/-- The computation keeps `I`, whether it succeeds or not. -/
def Upholds (I : OpState → Prop) (r : EStateM.Result Fault OpState α) (Q : α → OpState → Prop) :
    Prop :=
  Leads I r fun a s' => I s' ∧ Q a s'

theorem Upholds.mono {R : α → OpState → Prop} (h : Upholds I r Q)
    (hqr : ∀ a s', I s' → Q a s' → R a s') : Upholds I r R :=
  Leads.mono h (fun _ h => h) fun a s' h => ⟨h.1, hqr a s' h.1 h.2⟩

theorem Upholds.weaken (h : Upholds I r Q) : Upholds I r fun _ _ => True :=
  h.mono fun _ _ _ _ => trivial

theorem Upholds.of_later (hs : s0.Later types s) (h : Upholds (s.Later types) r Q) :
    Upholds (s0.Later types) r Q :=
  Leads.mono h (fun _ h => hs.trans h) fun _ _ h => ⟨hs.trans h.1, h.2⟩

theorem upholds_bind {m : OpM α} {f : α → OpM β} {P : α → OpState → Prop} {Q : β → OpState → Prop}
    (hm : Upholds I (m s) P) (hf : ∀ a s', I s' → P a s' → Upholds I (f a s') Q) :
    Upholds I ((m >>= f) s) Q :=
  leads_bind.2 (Leads.mono hm (fun _ h => h) fun a s' h => hf a s' h.1 h.2)

theorem upholds_get {f : OpState → OpM α} (h : Upholds I (f s s) Q) :
    Upholds I ((get >>= f) s) Q :=
  h

theorem upholds_pure {a : α} (hs : I s) (h : Q a s) : Upholds I ((pure a : OpM α) s) Q := ⟨hs, h⟩

theorem upholds_lift {x : Except Fault α} (hs : I s) (hq : ∀ a, x = .ok a → Q a s) :
    Upholds I (OpM.lift x s) Q := by
  cases x with
  | error e => exact hs
  | ok a => exact ⟨hs, hq a rfl⟩

theorem upholds_ite {p : Prop} [Decidable p] {m n : OpM α}
    (hm : p → Upholds I (m s) Q) (hn : ¬ p → Upholds I (n s) Q) :
    Upholds I ((if p then m else n) s) Q := by
  split_ifs with hp
  · exact hm hp
  · exact hn hp

theorem upholds_newRoutine (hs : s0.Later types s) {name : Text} {m : Magic} (hm : m ≠ .new) :
    Upholds (s0.Later types) (newRoutine name m s) fun r s' => s0.symbols.all.size ≤ r ∧
      r < s'.symbols.all.size ∧ (s'.symbols.get r).IsMadeUp ∧ (s'.symbols.get r).magic = m := by
  have hg := Symbols.Grown.get_fresh s.symbols
  have hd : SymFlags.generated.has .discriminant = false := by decide
  refine ⟨hs.trans (.of_symbols (.fresh s.symbols hm hd)), hs.symbols.size_le, by simp, ?_, ?_⟩
  · change ((s.symbols.fresh _).2.get s.symbols.all.size).IsMadeUp
    rw [hg]
    exact ⟨rfl, rfl, rfl, rfl, rfl⟩
  · change ((s.symbols.fresh _).2.get s.symbols.all.size).magic = m
    rw [hg]

theorem adds_magic {m : Magic} (hm : m ≠ .new) (s : OpState) :
    Upholds (s.Later types) (magic m s) fun op s' => s'.table.magics.get? m = some op := by
  refine upholds_get ?_
  rcases hg : s.table.magics.get? m with _ | r
  · refine upholds_bind (upholds_newRoutine (.refl s) hm) fun r s1 hs1 ⟨hle, hlt, hup, hmagic⟩ => ?_
    refine ⟨hs1.of_entry hle hlt hup rfl rfl rfl hs1.synth hs1.branch (hs1.magics.insert hg)
      (fun _ => .inl) ?_, Dict.get?_insert_self _ _ _⟩
    intro k x hk
    rw [Dict.get?_insert] at hk
    split_ifs at hk with hkm
    · subst hkm
      exact .inr ⟨(Option.some.inj hk).symm, hmagic⟩
    · exact .inl hk
  · exact ⟨.refl s, hg⟩

theorem upholds_parts (hs : I s) (t : TypeId) : Upholds I (parts types t s) fun _ s' => s' = s := by
  unfold parts
  rcases types.lookup t with _ | d
  · exact upholds_pure hs rfl
  · dsimp only
    split_ifs
    · exact upholds_pure hs rfl
    · exact upholds_lift hs fun _ _ => rfl

theorem adds_tryParts {visit : TypeId → List TypeId → OpM (Bool × List TypeId)}
    (hv : ∀ t seen s, Upholds (s.Later types) (visit t seen s) fun _ _ => True) :
    ∀ (ts seen : List TypeId) (s : OpState),
      Upholds (s.Later types) (tryParts visit ts seen s) fun _ _ => True
  | [], seen, s => ⟨.refl s, trivial⟩
  | t :: ts, seen, s => by
    refine upholds_bind (hv t seen s) fun r s' hs _ => ?_
    dsimp only
    split_ifs
    · exact upholds_pure hs trivial
    · exact (adds_tryParts hv ts r.2 s').of_later hs

/-- The answer is remembered, unless the search has run into itself, and it is negative for a
lifeless type. -/
theorem adds_needsWithin : ∀ (n : Nat) (t : TypeId) (seen : List TypeId) (s : OpState),
    Upholds (s.Later types) (needsWithin types n t seen s) fun r s' =>
      (0 < n → seen.contains t = false → s'.table.lifetime.get? t = some r.1) ∧
        (r.1 = true → ¬ s.IsLifeless types t)
  | 0, t, seen, s => ⟨.refl s, fun h => absurd h (Nat.lt_irrefl 0), nofun⟩
  | n + 1, t, seen, s => by
    refine upholds_get ?_
    rcases hg : s.table.lifetime.get? t with _ | v
    · dsimp only
      split_ifs with hseen hown
      · exact upholds_pure (.refl s) ⟨fun _ h => absurd (hseen.symm.trans h) (by decide), nofun⟩
      · have hnot : ¬ s.IsLifeless types t := by
          rintro ⟨hk, hu, -⟩
          rw [hu, Bool.false_or, TypeTable.ownsHeap] at hown
          revert hk hown
          cases types.kindOf t <;> simp [TypeKind.isScalar, TypeKind.ownsHeap]
        exact ⟨(OpState.Later.refl s).of_lifetime hg fun _ => hnot,
          fun _ _ => Dict.get?_insert_self _ _ _, fun _ => hnot⟩
      · by_cases hl : s.IsLifeless types t
        · rw [parts_scalar hl.1]
          exact ⟨(OpState.Later.refl s).of_lifetime hg fun h => (by cases h),
            fun _ _ => Dict.get?_insert_self _ _ _, fun h => (by cases h)⟩
        · refine upholds_bind (upholds_parts (.refl s) t) ?_
          rintro ps s1 - rfl
          refine upholds_bind (adds_tryParts (fun t seen s => (adds_needsWithin n t seen s).weaken)
            ps _ s1) fun r s2 hs2 _ => ?_
          exact ⟨hs2.of_lifetime hg fun _ => hl, fun _ _ => Dict.get?_insert_self _ _ _, fun _ =>
            hl⟩
    · refine ⟨.refl s, fun _ _ => hg, ?_⟩
      rintro rfl ⟨-, -, hl⟩
      exact hl hg

theorem adds_needsLifecycle (t : TypeId) (s : OpState) :
    Upholds (s.Later types) (needsLifecycle types t s) fun v s' =>
      s'.table.lifetime.get? t = some v ∧ (v = true → ¬ s.IsLifeless types t) := by
  refine upholds_bind (adds_needsWithin _ t [] s) fun r s' hs hr => ?_
  exact upholds_pure hs ⟨hr.1 (by omega) rfl, hr.2⟩

/-- A property that the search for a lifecycle keeps, and that is kept when an operator is made up
where there was none. -/
structure Enduring (types : TypeTable) (I : OpState → Prop) : Prop where
  search : ∀ (t : TypeId) {s : OpState}, I s → Upholds I (needsLifecycle types t s) fun _ _ => True
  synth : ∀ {s s' : OpState} {k : OpKey} {name : Text}, I s → s.table.synth.get? k = none → I s' →
    Leads I (newRoutine name .none s') fun op s =>
      I { s with table := { s.table with synth := s.table.synth.insert k op } }
  branch : ∀ {s : OpState} {t : TypeId} {name : Text}, I s → s.table.branch.get? t = none →
    Leads I (newRoutine name .none s) fun op s =>
      I { s with table := { s.table with branch := s.table.branch.insert t op } }

theorem upholds_fail (hs : I s) {t : TypeId} {r : OpReason} :
    Upholds I (fail types t kind r s) Found :=
  upholds_bind (upholds_lift (Q := fun _ _ => True) hs fun _ _ => trivial) fun _ _ hs' _ =>
    upholds_pure hs' found_error

theorem upholds_failWith {t : TypeId} {r : OpReason} (x : α) (hs : I s) :
    Upholds I ((do return (← fail types t kind r, x) : OpM (OpResult × α)) s) fun r => Found r.1 :=
  upholds_bind (upholds_fail hs) fun _ _ hs' hy => upholds_pure hs' hy

namespace Enduring

variable (h : Enduring types I)

include h

theorem resolveParts {visit : TypeId → List OpKey → OpM (OpResult × List OpKey)}
    (hv : ∀ t seen s, I s → Upholds I (visit t seen s) fun _ _ => True) :
    ∀ (ts : List TypeId) (seen : List OpKey) {s : OpState}, I s →
      Upholds I (resolveParts types kind visit ts seen s) fun _ _ => True
  | [], seen, s, hs => ⟨hs, trivial⟩
  | t :: ts, seen, s, hs => by
    refine upholds_bind (h.search t hs) fun v s1 hs1 _ => ?_
    split_ifs
    · refine upholds_bind (hv t seen s1 hs1) fun r s2 hs2 _ => ?_
      rcases r with ⟨_ | _, seen'⟩
      · dsimp only
        split_ifs
        · exact resolveParts hv ts seen' hs2
        · exact upholds_pure hs2 trivial
      · exact resolveParts hv ts seen' hs2
    · exact resolveParts hv ts seen hs1

theorem resolveWithin : ∀ (n : Nat) (t : TypeId) (seen : List OpKey) (s : OpState), I s →
    Upholds I (resolveWithin types kind n t seen s) fun r => Found r.1
  | 0, t, seen, s, hs => ⟨hs, nofun⟩
  | n + 1, t, seen, s, hs => by
    refine upholds_get ?_
    refine upholds_ite (fun _ => upholds_failWith seen hs) fun _ => ?_
    refine upholds_ite (fun _ => upholds_failWith seen hs) fun _ => ?_
    rcases hu : s.table.user.get? (t, kind) with _ | op
    · -- no declared operator: the type that stands in, or one that is made up
      refine upholds_ite (fun _ => resolveWithin n _ seen s hs) fun _ => ?_
      refine upholds_bind (h.search t hs) fun v s1 hs1 _ => ?_
      refine upholds_ite (fun _ => upholds_failWith seen hs1) fun _ => ?_
      refine upholds_bind (upholds_lift (Q := fun _ s2 => s2 = s1) hs1 fun _ _ => rfl) ?_
      rintro g s2 - rfl
      refine upholds_ite (fun _ => upholds_failWith seen hs1) fun _ => upholds_get ?_
      rcases hy : s2.table.synth.get? (t, kind) with _ | op
      · refine upholds_ite (fun _ => ⟨hs1, nofun⟩) fun _ => ?_
        refine upholds_bind (upholds_parts hs1 t) fun ps s3 hs3 _ => ?_
        refine upholds_bind (h.resolveParts (fun t seen s hs =>
          (resolveWithin n t seen s hs).weaken)
          ps _ hs3) fun r s4 hs4 _ => ?_
        rcases r with ⟨_ | e, seen'⟩
        · refine leads_bind.2 ((h.synth hs1 hy hs4).mono (fun _ h => h) fun op s5 hs5 => ⟨hs5, ?_⟩)
          rintro x hx
          cases hx
          exact .inr (.inl ⟨(t, kind), Dict.get?_insert_self _ _ _⟩)
        · refine upholds_bind (upholds_lift (Q := fun _ _ => True) hs4 fun _ _ => trivial) ?_
          exact fun _ _ hs' _ => upholds_pure hs' found_error
      · exact ⟨hs1, fun x hx => by cases hx; exact .inr (.inl ⟨_, hy⟩)⟩
    · -- a declared operator counts unless it is generic
      refine upholds_ite (fun _ => ?_) fun _ => upholds_ite (fun _ => ?_) fun _ => ?_
      · exact ⟨hs, fun x hx => by cases hx; exact .inl ⟨_, hu⟩⟩
      · refine upholds_bind (resolveWithin n _ seen s hs) fun r s1 hs1 hf => ?_
        rcases r with ⟨_ | x, seen'⟩
        · exact upholds_failWith _ hs1
        · exact upholds_pure hs1 hf
      · exact upholds_failWith seen hs

theorem resolve (t : TypeId) (kind : OpKind) (hs : I s) :
    Upholds I (resolve types t kind s) Found :=
  upholds_bind (h.resolveWithin _ t [] s hs) fun _ _ hs hr => upholds_pure hs hr

theorem canMove (t : TypeId) (hs : I s) : Upholds I (canMove types t s) fun _ _ => True := by
  refine upholds_bind (h.resolve t .sink hs) fun r s' hs _ => ?_
  rcases r with _ | x <;> exact upholds_pure hs trivial

theorem branchDestroy (t : TypeId) (hs : I s) : Upholds I (branchDestroy types t s) Found := by
  rw [OpM.branchDestroy]
  dsimp only
  rcases (types.object? (types.canonical t)).bind (·.variant) with _ | v
  · exact upholds_fail hs
  · refine upholds_get ?_
    rcases hb : s.table.branch.get? (types.canonical t) with _ | op
    · refine leads_bind.2 ((h.branch hs hb).mono (fun _ h => h) fun op s1 hs1 => ⟨hs1, ?_⟩)
      rintro x hx
      cases hx
      exact .inr (.inr ⟨_, Dict.get?_insert_self _ _ _⟩)
    · exact ⟨hs, fun x hx => by cases hx; exact .inr (.inr ⟨_, hb⟩)⟩

end Enduring

theorem enduring_later (s0 : OpState) : Enduring types (s0.Later types) where
  search t s hs := ((adds_needsLifecycle t s).of_later hs).weaken
  synth {s s'} k name hs hk hs' := by
    refine Leads.mono (upholds_newRoutine hs' (by decide)) (fun _ h => h) ?_
    rintro op s1 ⟨h, hle, hlt, hm, hmagic⟩
    refine h.of_entry hle hlt hm rfl rfl rfl (h.synth.insert (hs.synth.none hk)) h.branch h.magics
      ?_
      fun _ _ => .inl
    rintro x (hx | ⟨k, hk⟩ | hx)
    · exact .inl (.inl hx)
    · rw [Dict.get?_insert] at hk
      split_ifs at hk
      · exact .inr ⟨(Option.some.inj hk).symm, hmagic ▸ by decide⟩
      · exact .inl (.inr (.inl ⟨k, hk⟩))
    · exact .inl (.inr (.inr hx))
  branch {s} t name hs hb := by
    refine Leads.mono (upholds_newRoutine hs (by decide)) (fun _ h => h) ?_
    rintro op s1 ⟨h, hle, hlt, hm, hmagic⟩
    refine h.of_entry hle hlt hm rfl rfl rfl h.synth (h.branch.insert (hs.branch.none hb)) h.magics
      ?_
      fun _ _ => .inl
    rintro x (hx | hx | ⟨k, hk⟩)
    · exact .inl (.inl hx)
    · exact .inl (.inr (.inl hx))
    · rw [Dict.get?_insert] at hk
      split_ifs at hk
      · exact .inr ⟨(Option.some.inj hk).symm, hmagic ▸ by decide⟩
      · exact .inl (.inr (.inr ⟨k, hk⟩))

end OpM

end Lifecycle
