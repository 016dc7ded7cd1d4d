import Lifecycle.Proofs.Operators.Lifetime
import Lifecycle.Proofs.Ownership.Fragment

/-!
# The operators of strings

Where nobody declared or ruled out an operator, strings have all of them. They are made up when they
are first asked for, and what the machine takes them for shows in their symbols.
-/

namespace Lifecycle

structure Symbols.Within (ss ss' : Symbols) : Prop where
  size_le : ss.all.size ≤ ss'.all.size
  get_eq : ∀ {r}, r < ss.all.size → ss'.get r = ss.get r

namespace Symbols

variable {ss ss' ss'' : Symbols}

theorem Within.refl (ss : Symbols) : ss.Within ss := ⟨Nat.le_refl _, fun _ => rfl⟩

theorem Within.trans (h : ss.Within ss') (h' : ss'.Within ss'') : ss.Within ss'' where
  size_le := Nat.le_trans h.size_le h'.size_le
  get_eq hr := (h'.get_eq (Nat.lt_of_lt_of_le hr h.size_le)).trans (h.get_eq hr)

theorem within_fresh (ss : Symbols) (s : Symbol) : ss.Within (ss.fresh s).2 where
  size_le := by simp [fresh, add]
  get_eq {r} hr := by
    simp only [fresh, add, get, Array.getElem?_push, if_neg (Nat.ne_of_lt hr)]

@[simp] theorem fresh_fst (ss : Symbols) (s : Symbol) : (ss.fresh s).1 = ss.all.size := rfl

@[simp] theorem size_fresh (ss : Symbols) (s : Symbol) :
    (ss.fresh s).2.all.size = ss.all.size + 1 := by simp [fresh, add]

theorem get_fresh (ss : Symbols) (s : Symbol) :
    (ss.fresh s).2.get ss.all.size = { s with id := ss.lastId + 1 } := by simp [fresh, add, get]

end Symbols

structure Symbol.Made (name : Text) (m : Magic) (s : Symbol) : Prop where
  name : s.name = name
  magic : s.magic = m
  type : s.type = 0
  flags : s.flags = .generated

namespace Symbol.Made

variable {s : Symbol} {name : Text} {m : Magic}

theorem role_destroy (h : s.Made OpKind.destroy.text .none) : s.role = .destroy := by
  rw [Symbol.role, h.magic, h.name, Symbol.has, h.flags]
  decide

theorem role_copy (h : s.Made OpKind.copy.text .none) : s.role = .copy := by
  rw [Symbol.role, h.magic, h.name, Symbol.has, h.flags]
  decide

theorem role_reset (h : s.Made name .wasMoved) : s.role = .reset := by rw [Symbol.role, h.magic]

theorem role_default (h : s.Made name .default) : s.role = .default := by rw [Symbol.role, h.magic]

end Symbol.Made

/-- Nobody declared an operator or ruled one out, and what is remembered was made up or found out by
questions. -/
structure OpState.Natural (types : TypeTable) (s : OpState) : Prop where
  user : s.table.user = {}
  disabled : s.table.disabled = {}
  synth : ∀ {k op}, s.table.synth.get? k = some op →
    op < s.symbols.all.size ∧ (s.symbols.get op).Made k.2.text .none
  magics : ∀ {m op}, s.table.magics.get? m = some op →
    op < s.symbols.all.size ∧ (s.symbols.get op).Made m.text m
  lifetime : ∀ {t v}, s.table.lifetime.get? t = some v →
    (types.isText t = true → v = true) ∧ (types.isBare t = true → v = false)

namespace OpState

variable {types : TypeTable} {s : OpState} {ss : Symbols} {t : TypeId} {v : Bool}

theorem natural_empty (types : TypeTable) (ss : Symbols) : Natural types ⟨{}, ss⟩ where
  user := rfl
  disabled := rfl
  synth h := by cases h
  magics h := by cases h
  lifetime h := by cases h

theorem Natural.within (h : s.Natural types) (hs : s.symbols.Within ss) :
    Natural types { s with symbols := ss } where
  user := h.user
  disabled := h.disabled
  synth hk := by
    obtain ⟨hlt, hm⟩ := h.synth hk
    exact ⟨Nat.lt_of_lt_of_le hlt hs.size_le, by rwa [hs.get_eq hlt]⟩
  magics hk := by
    obtain ⟨hlt, hm⟩ := h.magics hk
    exact ⟨Nat.lt_of_lt_of_le hlt hs.size_le, by rwa [hs.get_eq hlt]⟩
  lifetime := h.lifetime

theorem Natural.learn (h : s.Natural types)
    (hv : (types.isText t = true → v = true) ∧ (types.isBare t = true → v = false)) :
    Natural types { s with table := { s.table with lifetime := s.table.lifetime.insert t v } } where
  user := h.user
  disabled := h.disabled
  synth := h.synth
  magics := h.magics
  lifetime {u w} hw := by
    rw [Dict.get?_insert] at hw
    split_ifs at hw with htu
    · cases hw
      exact htu ▸ hv
    · exact h.lifetime hw

theorem Natural.hasUser (h : s.Natural types) (t : TypeId) : s.table.hasUser t = false := by
  rw [OperatorTable.hasUser, h.user]
  rfl

theorem Natural.isUserDefined (h : s.Natural types) (t : TypeId) (k : OpKind) :
    s.isUserDefined types t k = false := by
  rw [OpState.isUserDefined, h.user]
  rfl

structure Asks (types : TypeTable) (s s' : OpState) : Prop where
  natural : s'.Natural types
  within : s.symbols.Within s'.symbols

end OpState

namespace TypeTable

variable {types : TypeTable} {t : TypeId}

theorem kindOf_text (h : types.isText t = true) : types.kindOf t = .string := by
  simpa [isText] using h

theorem isEmpty_text (h : types.isText t = true) : types.isEmpty t = false := by
  rw [isEmpty, kindOf_text h]
  rfl

theorem isScalar_bare (h : types.isBare t = true) : (types.kindOf t).isScalar = true := by
  simp only [isBare, Bool.and_eq_true] at h
  exact h.1

theorem isText_bare (h : types.isBare t = true) : types.isText t = false := by
  have := isScalar_bare h
  rw [isText, decide_eq_false_iff_not]
  intro hk
  rw [hk] at this
  cases this

theorem shapeOf_bare (h : types.isBare t = true) : types.shapeOf t ≠ .openArray := by
  have hs := isScalar_bare h
  rw [shapeOf, skipAbstract, skip_eq]
  · simp only [isBare, Bool.and_eq_true, decide_eq_true_eq] at h
    exact h.2
  · revert hs
    cases types.kindOf t <;> simp [TypeKind.isScalar, TypeKind.isAbstract]

theorem lookup_text (h : types.isText t = true) :
    ∃ d, types.lookup t = some d ∧ d.kind = .string := by
  have hk := kindOf_text h
  rw [kindOf] at hk
  rcases hl : types.lookup t with _ | d
  · rw [hl] at hk
    cases hk
  · rw [hl] at hk
    exact ⟨d, rfl, hk⟩

theorem components_text (h : types.isText t = true) : types.components t = .ok [] := by
  obtain ⟨d, hl, hk⟩ := lookup_text h
  rw [components, hl]
  simp [hk]

theorem containsGenericParam_text (h : types.isText t = true) :
    types.containsGenericParam t = .ok false := by
  obtain ⟨d, hl, hk⟩ := lookup_text h
  rw [containsGenericParam, genericWithin]
  simp only [List.contains_nil, hl, hk, components_text h]
  rfl

end TypeTable

namespace OpM

open OpState

variable {types : TypeTable} {s : OpState} {t : TypeId}

theorem parts_text (h : types.isText t = true) : parts types t = pure [] := by
  obtain ⟨d, hl, hk⟩ := TypeTable.lookup_text h
  rw [parts, hl]
  simp only [hk, TypeTable.components_text h]
  rfl

theorem ends_needsLifecycle_text (hs : s.Natural types)
    (ht : types.isText t = true ∨ types.isBare t = true) :
    Ends False (needsLifecycle types t s) fun v s' => s'.Natural types ∧ s'.symbols = s.symbols ∧
      v = types.isText t := by
  have hv : ∀ {v}, v = types.isText t →
      (types.isText t = true → v = true) ∧ (types.isBare t = true → v = false) := by
    rintro _ rfl
    exact ⟨id, TypeTable.isText_bare⟩
  rw [needsLifecycle, ends_bind, needsWithin, ends_bind, ends_get]
  rcases hl : s.table.lifetime.get? t with _ | v
  · dsimp only
    rw [if_neg (by simp), hs.hasUser, Bool.false_or]
    rcases ht with ht | ht
    · have hheap : types.ownsHeap t = true := by
        rw [TypeTable.ownsHeap, TypeTable.kindOf_text ht]
        rfl
      rw [if_pos hheap]
      exact ⟨hs.learn (hv ht.symm), rfl, ht.symm⟩
    · have hheap : types.ownsHeap t = false := by
        have := TypeTable.isScalar_bare ht
        rw [TypeTable.ownsHeap]
        revert this
        cases types.kindOf t <;> simp [TypeKind.isScalar, TypeKind.ownsHeap]
      rw [if_neg (by simp [hheap]), parts_scalar (TypeTable.isScalar_bare ht)]
      exact ⟨hs.learn (hv (TypeTable.isText_bare ht).symm), rfl, (TypeTable.isText_bare ht).symm⟩
  · refine ⟨hs, rfl, ?_⟩
    obtain ⟨htext, hbare⟩ := hs.lifetime hl
    rcases ht with ht | ht
    · rw [ht]
      exact htext ht
    · rw [TypeTable.isText_bare ht]
      exact hbare ht

theorem ends_newRoutine_made (hs : s.Natural types) (name : Text) (m : Magic) :
    Ends False (newRoutine name m s) fun r s' => s'.Natural types ∧ s'.table = s.table ∧
      s.symbols.Within s'.symbols ∧ r < s'.symbols.all.size ∧ (s'.symbols.get r).Made name m := by
  simp only [newRoutine, ends_bind, ends_get, ends_set, ends_pure]
  have hw := s.symbols.within_fresh { name, kind := .proc, magic := m, flags := .generated }
  refine ⟨hs.within hw, trivial, hw, ?_, ?_⟩
  · rw [Symbols.fresh_fst, Symbols.size_fresh]
    exact Nat.lt_succ_self _
  · rw [Symbols.fresh_fst, Symbols.get_fresh]
    exact ⟨rfl, rfl, rfl, rfl⟩

theorem ends_resolve_text (hs : s.Natural types) (ht : types.isText t = true) (k : OpKind) :
    Ends False (resolve types t k s) fun r s' => Asks types s s' ∧
      ∃ op, r = .ok (some op) ∧ op < s'.symbols.all.size ∧
      (s'.symbols.get op).Made k.text .none := by
  obtain ⟨d, hl, -⟩ := TypeTable.lookup_text ht
  have hcanon : types.canonical t = t := TypeTable.skip_eq (by rw [TypeTable.kindOf_text ht]; rfl)
  have hdis : s.table.disabled.contains (t, k) = false := by rw [hs.disabled]; rfl
  have huser : s.table.user.get? (t, k) = none := by rw [hs.user]; rfl
  rw [resolve, ends_bind, resolveWithin, ends_bind, ends_get]
  simp only [hl, Option.isNone_some, Bool.false_eq_true, if_false, hdis, huser, hcanon, ne_eq,
    not_true_eq_false]
  rw [ends_bind]
  refine (ends_needsLifecycle_text hs (.inl ht)).mono ?_
  rintro v s1 ⟨hs1, hsym, hv⟩
  simp only [hv, ht, Bool.not_true, Bool.false_eq_true, if_false,
    TypeTable.containsGenericParam_text ht, ends_bind, ends_lift, compose, ends_get]
  have hw : s.symbols.Within s1.symbols := hsym ▸ .refl _
  rcases hy : s1.table.synth.get? (t, k) with _ | op
  · dsimp only
    rw [if_neg (by simp), parts_text ht]
    simp only [resolveParts, ends_bind, ends_pure]
    refine (ends_newRoutine_made hs1 k.text .none).mono ?_
    rintro op s2 ⟨hs2, htab, hw2, hlt, hmade⟩
    refine ⟨⟨⟨hs2.user, hs2.disabled, ?_, hs2.magics, hs2.lifetime⟩, hw.trans hw2⟩, op, rfl, hlt,
      hmade⟩
    intro key op' hk
    rw [Dict.get?_insert] at hk
    split_ifs at hk with he
    · cases hk
      exact ⟨hlt, he ▸ hmade⟩
    · exact hs2.synth hk
  · exact ⟨⟨hs1, hw⟩, op, rfl, hs1.synth hy⟩

theorem ends_canMove_text (hs : s.Natural types) (ht : types.isText t = true) :
    Ends False (canMove types t s) fun v s' => Asks types s s' ∧ v = true := by
  rw [canMove, ends_bind]
  refine (ends_resolve_text hs ht .sink).mono fun r s' ⟨ha, op, hr, _⟩ => ?_
  subst hr
  exact ⟨ha, rfl⟩

theorem ends_magic_made (hs : s.Natural types) (m : Magic) :
    Ends False (magic m s) fun op s' => Asks types s s' ∧ op < s'.symbols.all.size ∧
      (s'.symbols.get op).Made m.text m := by
  simp only [magic, ends_bind, ends_get]
  rcases hg : s.table.magics.get? m with _ | op
  · simp only [ends_bind]
    refine (ends_newRoutine_made hs m.text m).mono ?_
    rintro op s' ⟨hs', htab, hw, hlt, hmade⟩
    refine ⟨⟨⟨hs'.user, hs'.disabled, hs'.synth, ?_, hs'.lifetime⟩, hw⟩, hlt, hmade⟩
    intro m' op' hk
    rw [Dict.get?_insert] at hk
    split_ifs at hk with he
    · cases hk
      exact ⟨hlt, he ▸ hmade⟩
    · exact hs'.magics hk
  · exact ⟨⟨hs, .refl _⟩, hs.magics hg⟩

end OpM

end Lifecycle
