import Mathlib.Data.Set.Insert
import Lifecycle.Proofs.Operators.Lifetime

/-!
# The search for operators

What the declarations say about a type is its `Ruling`: the operation is refused, there is an
operator, another type decides, or the operator is made up from those of the parts. A search goes
down the parts and takes for granted every type that it has begun or that was done before
(`Search`). A search is unaffected by what is taken for granted as long as none of it fails
(`Search.alike`), and where nothing fails that is taken for granted, it passes just on the types
that do not (`Search.of_not_fails`, `Search.sound`).
-/

namespace Lifecycle

inductive Ruling where
  | refused (reason : OpReason)
  | granted
  /-- Another type decides. `strict` says that there is a generic operator: without one for the
  other type the search fails as generic. -/
  | deferred (other : TypeId) (strict : Bool)
  | composed (parts : List TypeId)

namespace Ruling

/-- How a search comes out: `none` when it succeeds, or the reason why not. -/
abbrev Outcome := Option OpReason

def passOn (strict : Bool) (o : Outcome) : Outcome := if strict then o.map fun _ => .generic else o

def Passes (o : Outcome) : Prop := o = none ∨ o = some .trivial

mutual

/-- A search from a type with the types in the first set taken for granted; the second set is what
is taken for granted afterwards. -/
inductive Search (R : TypeId → Ruling) : Set TypeId → TypeId → Outcome → Set TypeId → Prop
  | refused {D : Set TypeId} {t : TypeId} {r : OpReason} (h : R t = .refused r) :
      Search R D t (some r) D
  | granted {D : Set TypeId} {t : TypeId} (h : R t = .granted) : Search R D t none D
  | deferred {D D' : Set TypeId} {t c : TypeId} {strict : Bool} {o : Outcome}
      (h : R t = .deferred c strict) (hs : Search R D c o D') : Search R D t (passOn strict o) D'
  | known {D : Set TypeId} {t : TypeId} {ps : List TypeId} (h : R t = .composed ps) (hm : t ∈ D) :
      Search R D t none D
  | made {D D' : Set TypeId} {t : TypeId} {ps : List TypeId} {o : Outcome}
      (h : R t = .composed ps) (hm : t ∉ D) (hs : SearchAll R (insert t D) ps o D') :
      Search R D t o D'

inductive SearchAll (R : TypeId → Ruling) :
    Set TypeId → List TypeId → Outcome → Set TypeId → Prop
  | nil {D : Set TypeId} : SearchAll R D [] none D
  | next {D D' D'' : Set TypeId} {p : TypeId} {ps : List TypeId} {o o' : Outcome}
      (h : Search R D p o D') (ho : Passes o) (hs : SearchAll R D' ps o' D'') :
      SearchAll R D (p :: ps) o' D''
  | stop {D D' : Set TypeId} {p : TypeId} {ps : List TypeId} {r : OpReason}
      (h : Search R D p (some r) D') (hr : r ≠ .trivial) : SearchAll R D (p :: ps) (some r) D'

end

inductive Bare (R : TypeId → Ruling) : TypeId → Prop
  | refused {t : TypeId} (h : R t = .refused .trivial) : Bare R t
  | deferred {t c : TypeId} (h : R t = .deferred c false) (hc : Bare R c) : Bare R t

inductive Fails (R : TypeId → Ruling) : TypeId → Prop
  | refused {t : TypeId} {r : OpReason} (h : R t = .refused r) (hr : r ≠ .trivial) : Fails R t
  | deferred {t c : TypeId} {strict : Bool} (h : R t = .deferred c strict) (hc : Fails R c) :
      Fails R t
  | bare {t c : TypeId} (h : R t = .deferred c true) (hc : Bare R c) : Fails R t
  | part {t p : TypeId} {ps : List TypeId} (h : R t = .composed ps) (hp : p ∈ ps)
      (hf : Fails R p) : Fails R t

variable {R : TypeId → Ruling} {D D' E E' : Set TypeId} {t : TypeId} {o o' : Outcome}
  {ps : List TypeId}

/-! ## What a search can be, by the ruling -/

theorem Search.inv {x : Ruling} (h : Search R D t o D') : R t = x →
    match x with
    | .refused r => o = some r ∧ D' = D
    | .granted => o = none ∧ D' = D
    | .deferred c strict => ∃ o', o = passOn strict o' ∧ Search R D c o' D'
    | .composed ps =>
      (t ∈ D ∧ o = none ∧ D' = D) ∨ (t ∉ D ∧ SearchAll R (insert t D) ps o D') := by
  rintro rfl
  cases h with
  | refused h =>
    rw [h]
    exact ⟨rfl, rfl⟩
  | granted h =>
    rw [h]
    exact ⟨rfl, rfl⟩
  | deferred h hs =>
    rw [h]
    exact ⟨_, rfl, hs⟩
  | known h hm =>
    rw [h]
    exact .inl ⟨hm, rfl, rfl⟩
  | made h hm hs =>
    rw [h]
    exact .inr ⟨hm, hs⟩

theorem passOn_trivial (h : passOn strict o = some .trivial) :
    strict = false ∧ o = some .trivial := by
  cases strict with
  | false => exact ⟨rfl, h⟩
  | true => cases o <;> simp [passOn] at h

theorem not_passes (hr : r ≠ .trivial) : ¬ Passes (some r) := by
  rintro (h | h)
  · cases h
  · exact hr (Option.some.inj h)

theorem SearchAll.ne_trivial (h : SearchAll R D ps o D') : o ≠ some .trivial := by
  induction ps generalizing D with
  | nil =>
    cases h
    simp
  | cons p ps ih =>
    cases h with
    | next _ _ hs => exact ih hs
    | stop _ hr => simpa using hr

theorem Search.bare : ∀ {D D' : Set TypeId} {t : TypeId} {o : Outcome}, Search R D t o D' →
    o = some .trivial → Bare R t
  | _, _, _, _, .refused h, ho => by
    cases ho
    exact .refused h
  | _, _, _, _, .granted _, ho => by cases ho
  | _, _, _, _, .deferred h hs, ho => by
    obtain ⟨rfl, ho⟩ := passOn_trivial ho
    exact .deferred h (hs.bare ho)
  | _, _, _, _, .known _ _, ho => by cases ho
  | _, _, _, _, .made _ _ hs, ho => absurd ho hs.ne_trivial

theorem Bare.search (hb : Bare R t) (h : Search R D t o D') : o = some .trivial := by
  induction hb generalizing o with
  | refused hb => exact (h.inv hb).1
  | deferred hb _ ih =>
    obtain ⟨o', rfl, hs⟩ := h.inv hb
    exact ih hs

mutual

theorem Search.mono : ∀ {D D' : Set TypeId} {t : TypeId} {o : Outcome}, Search R D t o D' → D ⊆ D'
  | _, _, _, _, .refused _ => subset_rfl
  | _, _, _, _, .granted _ => subset_rfl
  | _, _, _, _, .deferred _ hs => hs.mono
  | _, _, _, _, .known _ _ => subset_rfl
  | _, _, _, _, .made _ _ hs => (Set.subset_insert _ _).trans hs.mono

theorem SearchAll.mono : ∀ {D D' : Set TypeId} {ps : List TypeId} {o : Outcome},
    SearchAll R D ps o D' → D ⊆ D'
  | _, _, _, _, .nil => subset_rfl
  | _, _, _, _, .next h _ hs => h.mono.trans hs.mono
  | _, _, _, _, .stop h _ => h.mono

end

mutual

theorem Search.composed : ∀ {D D' : Set TypeId} {t : TypeId} {o : Outcome}, Search R D t o D' →
    ∀ u ∈ D', u ∈ D ∨ ∃ ps, R u = .composed ps
  | _, _, _, _, .refused _ => fun _ hu => .inl hu
  | _, _, _, _, .granted _ => fun _ hu => .inl hu
  | _, _, _, _, .deferred _ hs => hs.composed
  | _, _, _, _, .known _ _ => fun _ hu => .inl hu
  | _, _, _, _, .made h _ hs => fun u hu => by
    rcases hs.composed u hu with (rfl | hu) | hu
    · exact .inr ⟨_, h⟩
    · exact .inl hu
    · exact .inr hu

theorem SearchAll.composed : ∀ {D D' : Set TypeId} {ps : List TypeId} {o : Outcome},
    SearchAll R D ps o D' → ∀ u ∈ D', u ∈ D ∨ ∃ ps, R u = .composed ps
  | _, _, _, _, .nil => fun _ hu => .inl hu
  | _, _, _, _, .next h _ hs => fun u hu => (hs.composed u hu).elim (h.composed u) .inr
  | _, _, _, _, .stop h _ => h.composed

end

mutual

/-- Where nothing fails that the type depends on, the search passes, and only such types come to be
taken for granted. -/
theorem Search.of_not_fails : ∀ {D D' : Set TypeId} {t : TypeId} {o : Outcome},
    Search R D t o D' → ¬ Fails R t → Passes o ∧ ∀ u ∈ D', u ∈ D ∨ ¬ Fails R u
  | _, _, _, _, .refused h, hf => by
    refine ⟨.inr ?_, fun u hu => .inl hu⟩
    by_contra hr
    exact hf (.refused h fun he => hr (by rw [he]))
  | _, _, _, _, .granted _, _ => ⟨.inl rfl, fun u hu => .inl hu⟩
  | _, _, _, _, @Search.deferred _ _ _ _ _ strict _ h hs, hf => by
    obtain ⟨ho, hD⟩ := hs.of_not_fails fun hc => hf (.deferred h hc)
    refine ⟨?_, hD⟩
    cases strict with
    | false => exact ho
    | true =>
      rcases ho with rfl | ho
      · exact .inl rfl
      · exact absurd (.bare h (hs.bare ho)) hf
  | _, _, _, _, .known _ _, _ => ⟨.inl rfl, fun u hu => .inl hu⟩
  | _, _, _, _, .made h _ hs, hf => by
    obtain ⟨ho, hD⟩ := hs.of_not_fails fun p hp hfp => hf (.part h hp hfp)
    refine ⟨ho, fun u hu => ?_⟩
    rcases hD u hu with (rfl | hu) | hu
    · exact .inr hf
    · exact .inl hu
    · exact .inr hu

theorem SearchAll.of_not_fails : ∀ {D D' : Set TypeId} {ps : List TypeId} {o : Outcome},
    SearchAll R D ps o D' → (∀ p ∈ ps, ¬ Fails R p) → Passes o ∧ ∀ u ∈ D', u ∈ D ∨ ¬ Fails R u
  | _, _, _, _, .nil, _ => ⟨.inl rfl, fun u hu => .inl hu⟩
  | _, _, _, _, .next h _ hs, hf => by
    obtain ⟨-, hD⟩ := h.of_not_fails (hf _ (by simp))
    obtain ⟨ho, hD'⟩ := hs.of_not_fails fun p hp => hf p (by simp [hp])
    exact ⟨ho, fun u hu => (hD' u hu).elim (hD u) .inr⟩
  | _, _, _, _, .stop h hr, hf => by
    exact absurd (h.of_not_fails (hf _ (by simp))).1 (not_passes hr)

end

def Alike (R : TypeId → Ruling) (D E : Set TypeId) : Prop := ∀ u, Fails R u → (u ∈ D ↔ u ∈ E)

theorem Alike.insert (h : Alike R D E) (t : TypeId) : Alike R (insert t D) (insert t E) :=
  fun u hu => by simp [h u hu]

theorem Search.of_known (h : Search R E t o E') (hDE : Alike R D E) (hf : ¬ Fails R t)
    (hR : R t = .composed ps) : o = none ∧ Alike R D E' := by
  obtain ⟨ho, hE⟩ := h.of_not_fails hf
  refine ⟨?_, fun u hu => ⟨fun hD => ?_, fun hE' => ?_⟩⟩
  · rcases ho with ho | ho
    · exact ho
    · have hb := h.bare ho
      cases hb with
      | refused hb => rw [hR] at hb; cases hb
      | deferred hb => rw [hR] at hb; cases hb
  · exact h.mono ((hDE u hu).1 hD)
  · exact (hDE u hu).2 ((hE u hE').resolve_right fun hn => hn hu)

theorem Alike.symm (h : Alike R D E) : Alike R E D := fun u hu => (h u hu).symm

mutual

/-- Two searches that take different types for granted come out alike as long as the difference does
not fail. -/
theorem Search.alike : ∀ {D D' E E' : Set TypeId} {t : TypeId} {o o' : Outcome},
    Search R D t o D' → Search R E t o' E' → Alike R D E → o = o' ∧ Alike R D' E'
  | _, _, _, _, _, _, _, .refused h, hE, hDE => by
    obtain ⟨rfl, rfl⟩ := hE.inv h
    exact ⟨rfl, hDE⟩
  | _, _, _, _, _, _, _, .granted h, hE, hDE => by
    obtain ⟨rfl, rfl⟩ := hE.inv h
    exact ⟨rfl, hDE⟩
  | _, _, _, _, _, _, _, .deferred h hs, hE, hDE => by
    obtain ⟨o', rfl, hs'⟩ := hE.inv h
    obtain ⟨rfl, hD⟩ := hs.alike hs' hDE
    exact ⟨rfl, hD⟩
  | _, _, _, _, t, _, _, .known h hm, hE, hDE => by
    rcases hE.inv h with ⟨-, rfl, rfl⟩ | ⟨hm', -⟩
    · exact ⟨rfl, hDE⟩
    · -- only the first search knows the type, so it does not fail
      have hf : ¬ Fails R t := fun hf => hm' ((hDE t hf).1 hm)
      obtain ⟨rfl, hD⟩ := hE.of_known hDE hf h
      exact ⟨rfl, hD⟩
  | _, _, _, _, t, _, _, .made h hm hs, hE, hDE => by
    rcases hE.inv h with ⟨hm', rfl, rfl⟩ | ⟨-, hs'⟩
    · have hf : ¬ Fails R t := fun hf => hm ((hDE t hf).2 hm')
      obtain ⟨rfl, hD⟩ := Search.of_known (.made h hm hs) hDE.symm hf h
      exact ⟨rfl, hD.symm⟩
    · exact hs.alike hs' (hDE.insert t)

theorem SearchAll.alike : ∀ {D D' E E' : Set TypeId} {ps : List TypeId} {o o' : Outcome},
    SearchAll R D ps o D' → SearchAll R E ps o' E' → Alike R D E → o = o' ∧ Alike R D' E'
  | _, _, _, _, _, _, _, .nil, .nil, hDE => ⟨rfl, hDE⟩
  | _, _, _, _, _, _, _, .next h _ hs, .next h' _ hs', hDE => hs.alike hs' (h.alike h' hDE).2
  | _, _, _, _, _, _, _, .next h ho _, .stop h' hr, hDE => by
    obtain ⟨rfl, -⟩ := h.alike h' hDE
    exact absurd ho (not_passes hr)
  | _, _, _, _, _, _, _, .stop h hr, .next h' ho _, hDE => by
    obtain ⟨rfl, -⟩ := h.alike h' hDE
    exact absurd ho (not_passes hr)
  | _, _, _, _, _, _, _, .stop h _, .stop h' _, hDE => h.alike h' hDE

end

/-! ## What a successful search shows -/

inductive Served (R : TypeId → Ruling) (S : Set TypeId) : TypeId → Prop
  | bare {t : TypeId} (h : Bare R t) : Served R S t
  | granted {t : TypeId} (h : R t = .granted) : Served R S t
  | deferred {t c : TypeId} {strict : Bool} (h : R t = .deferred c strict) (hc : Served R S c)
      (hb : strict = true → ¬ Bare R c) : Served R S t
  | composed {t : TypeId} {ps : List TypeId} (h : R t = .composed ps) (hm : t ∈ S) : Served R S t

theorem Served.mono {S S' : Set TypeId} (hS : S ⊆ S') (h : Served R S t) : Served R S' t := by
  induction h with
  | bare h => exact .bare h
  | granted h => exact .granted h
  | deferred h _ hb ih => exact .deferred h ih hb
  | composed h hm => exact .composed h (hS hm)

def PartsServed (R : TypeId → Ruling) (S : Set TypeId) (t : TypeId) : Prop :=
  ∃ ps, R t = .composed ps ∧ ∀ p ∈ ps, Served R S p

theorem Bare.not_fails (h : Bare R t) : ¬ Fails R t := by
  induction h with
  | refused h =>
    rintro (⟨h', hr⟩ | ⟨h', -⟩ | ⟨h', -⟩ | ⟨h', -⟩) <;> rw [h] at h' <;> cases h'
    exact hr rfl
  | deferred h _ ih =>
    rintro (⟨h', -⟩ | ⟨h', hc⟩ | ⟨h', -⟩ | ⟨h', -⟩) <;> rw [h] at h' <;> cases h'
    exact ih hc

/-- What fails is not served by a set whose members do not fail or have their parts served. -/
theorem Fails.not_served {S : Set TypeId} (hS : ∀ u ∈ S, ¬ Fails R u ∨ PartsServed R S u)
    (h : Fails R t) : ¬ Served R S t := by
  induction h with
  | refused h hr =>
    rintro (hb | h' | ⟨h', -⟩ | ⟨h', -⟩)
    · exact hb.not_fails (.refused h hr)
    all_goals rw [h] at h'; cases h'
  | deferred h hc ih =>
    rintro (hb | h' | ⟨h', hc', -⟩ | ⟨h', -⟩)
    · exact hb.not_fails (.deferred h hc)
    all_goals rw [h] at h'; cases h'
    exact ih hc'
  | bare h hc =>
    rintro (hb | h' | ⟨h', -, hb⟩ | ⟨h', -⟩)
    · exact hb.not_fails (.bare h hc)
    all_goals rw [h] at h'; cases h'
    exact hb rfl hc
  | @part t p ps h hp hf ih =>
    rintro (hb | h' | ⟨h', -⟩ | ⟨h', hm⟩)
    · exact hb.not_fails (.part h hp hf)
    all_goals rw [h] at h'; cases h'
    rcases hS t hm with hn | ⟨qs, hq, hall⟩
    · exact hn (.part h hp hf)
    · rw [h] at hq
      cases hq
      exact ih (hall p hp)

mutual

/-- A search that passes has served its type, and all that it newly takes for granted has its parts
served. -/
theorem Search.served : ∀ {D D' : Set TypeId} {t : TypeId} {o : Outcome}, Search R D t o D' →
    Passes o → Served R D' t ∧ ∀ u ∈ D', u ∈ D ∨ PartsServed R D' u
  | _, _, _, _, .refused h, ho => by
    rcases ho with ho | ho
    · cases ho
    · cases ho
      exact ⟨.bare (.refused h), fun u hu => .inl hu⟩
  | _, _, _, _, .granted h, _ => ⟨.granted h, fun u hu => .inl hu⟩
  | _, _, _, _, @Search.deferred _ _ _ _ _ strict o h hs, ho => by
    have hnone : strict = true → o = none := by
      rintro rfl
      cases o with
      | none => rfl
      | some r => simp [Passes, passOn] at ho
    have hpass : Passes o := by
      cases strict with
      | false => exact ho
      | true => exact .inl (hnone rfl)
    obtain ⟨hc, hD⟩ := hs.served hpass
    refine ⟨.deferred h hc fun hstrict hb => ?_, hD⟩
    have := hb.search hs
    rw [hnone hstrict] at this
    cases this
  | _, _, _, _, .known h hm, _ => ⟨.composed h hm, fun u hu => .inl hu⟩
  | _, _, _, _, .made h hm hs, ho => by
    obtain ⟨hall, hD⟩ := hs.served ho
    refine ⟨.composed h (hs.mono (Set.mem_insert _ _)), fun u hu => ?_⟩
    rcases hD u hu with (rfl | hu) | hu
    · exact .inr ⟨_, h, hall⟩
    · exact .inl hu
    · exact .inr hu

theorem SearchAll.served : ∀ {D D' : Set TypeId} {ps : List TypeId} {o : Outcome},
    SearchAll R D ps o D' → Passes o →
      (∀ p ∈ ps, Served R D' p) ∧ ∀ u ∈ D', u ∈ D ∨ PartsServed R D' u
  | _, _, _, _, .nil, _ => ⟨by simp, fun u hu => .inl hu⟩
  | _, _, _, _, .next h hp hs, ho => by
    obtain ⟨h1, hD⟩ := h.served hp
    obtain ⟨hall, hD'⟩ := hs.served ho
    have hmono := hs.mono
    refine ⟨fun p hp => ?_, fun u hu => ?_⟩
    · rcases List.mem_cons.1 hp with rfl | hp
      · exact h1.mono hmono
      · exact hall p hp
    · rcases hD' u hu with hu | hu
      · rcases hD u hu with hu | ⟨qs, hq, hall'⟩
        · exact .inl hu
        · exact .inr ⟨qs, hq, fun p hp => (hall' p hp).mono hmono⟩
      · exact .inr hu
  | _, _, _, _, .stop _ hr, ho => absurd ho (not_passes hr)

end

def Sound (R : TypeId → Ruling) (D : Set TypeId) : Prop := ∀ u ∈ D, ¬ Fails R u

/-- Where nothing fails that is taken for granted, a search that passes shows that its type does not
fail, and neither does anything taken for granted afterwards. -/
theorem Search.sound (h : Search R D t o D') (hD : Sound R D) (ho : Passes o) :
    ¬ Fails R t ∧ Sound R D' := by
  obtain ⟨ht, hD'⟩ := h.served ho
  have hS : ∀ u ∈ D', ¬ Fails R u ∨ PartsServed R D' u := fun u hu => (hD' u hu).imp (hD u) id
  refine ⟨fun hf => hf.not_served hS ht, fun u hu hf => ?_⟩
  rcases hS u hu with hn | ⟨ps, hp, hall⟩
  · exact hn hf
  · exact hf.not_served hS (.composed hp hu)

end Ruling

end Lifecycle
