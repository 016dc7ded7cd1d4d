import Mathlib.Data.List.Nodup
import Mathlib.Data.List.Perm.Subperm
import Mathlib.Data.List.Range
import Mathlib.Logic.Relation
import Mathlib.Order.WellFounded
import Lifecycle.Proofs.Injection.Ends

/-!
# Which types have a lifecycle

A type has a lifecycle if an operator was declared for it, if its values own heap storage, or if a
part of it has one (`Owning`). The search answers by what can be reached through types of which
nothing is remembered (`ends_needsLifecycle_reaches`). On a table in which a value contains itself
only by way of the heap this is exactly `Owning`, and what is remembered is right as well
(`ends_needsLifecycle_iff`).
-/

namespace Lifecycle

namespace TypeTable

/-- The types of which a value of the type is made up. -/
def partsOf (types : TypeTable) (t : TypeId) : List TypeId :=
  match types.lookup t with
  | some d =>
    if d.kind = .seq then [d.elem]
    else
      match types.components t with
      | .ok ts => ts
      | .error _ => []
  | none => []

/-- All slots that descriptors point at are there, and every type can be written down. -/
structure Intact (types : TypeTable) : Prop where
  components : ∀ t, ∃ ts, types.components t = .ok ts
  text : ∀ t, ∃ x, types.text t = .ok x

/-- A value of type `t` has one of type `u` lying in it, not behind a pointer. -/
def Inside (types : TypeTable) (u t : TypeId) : Prop :=
  types.ownsHeap t = false ∧ u ∈ types.partsOf t

/-- A value contains itself only by way of the heap. -/
def Grounded (types : TypeTable) : Prop := WellFounded types.Inside

variable {types : TypeTable} {t u : TypeId} {path : List TypeId}

theorem lookup_of_mem_partsOf (h : u ∈ types.partsOf t) : (types.lookup t).isSome = true := by
  rw [partsOf] at h
  split at h
  · simp [*]
  · simp at h

theorem toNat_lt_of_lookup (h : (types.lookup t).isSome = true) : t.toNat < types.size := by
  rw [lookup] at h
  split_ifs at h
  · cases h
  · exact (Array.getElem?_eq_some_iff.1 (Option.some_get h).symm).1

theorem exists_index_of_lookup (h : (types.lookup t).isSome = true) :
    ∃ i < types.size, t = UInt32.ofNat i :=
  ⟨t.toNat, toNat_lt_of_lookup h, UInt32.ofNat_toNat.symm⟩

theorem intact_of_known (hc : ∀ i < types.size, (types.components (.ofNat i)).toBool = true)
    (ht : ∀ i < types.size, (types.text (.ofNat i)).toBool = true) : types.Intact := by
  have hex : ∀ {α : Type} {x : Except Fault α}, x.toBool = true → ∃ a, x = .ok a := by
    rintro α (e | a) h
    · cases h
    · exact ⟨a, rfl⟩
  constructor
  · intro t
    by_cases h : (types.lookup t).isSome = true
    · obtain ⟨i, hi, rfl⟩ := exists_index_of_lookup h
      exact hex (hc i hi)
    · exact ⟨[], by rw [components, Option.not_isSome_iff_eq_none.1 h]⟩
  · intro t
    by_cases h : (types.lookup t).isSome = true
    · obtain ⟨i, hi, rfl⟩ := exists_index_of_lookup h
      exact hex (ht i hi)
    · exact ⟨_, by rw [text, textWithin, textStep, Option.not_isSome_iff_eq_none.1 h]⟩

/-- A rank that goes down from each type of the table to the parts lying in it. -/
theorem grounded_of_rank (rank : TypeId → Nat)
    (h : ∀ i < types.size, types.ownsHeap (.ofNat i) = false →
      (types.partsOf (.ofNat i)).all (rank · < rank (.ofNat i)) = true) : types.Grounded := by
  refine Subrelation.wf (fun {u t} hu => ?_) (measure rank).wf
  obtain ⟨i, hi, rfl⟩ := exists_index_of_lookup (lookup_of_mem_partsOf hu.2)
  have hlt : rank u < rank (.ofNat i) := by
    simpa using List.all_eq_true.1 (h i hi hu.1) u hu.2
  exact hlt

theorem length_le_size (hn : path.Nodup) (hk : ∀ a ∈ path, (types.lookup a).isSome = true) :
    path.length ≤ types.size := by
  have hmap : (path.map UInt32.toNat).Nodup := hn.map fun a b h => UInt32.toNat_inj.1 h
  have hsub : path.map UInt32.toNat ⊆ List.range types.size := by
    intro i hi
    obtain ⟨a, ha, rfl⟩ := List.mem_map.1 hi
    exact List.mem_range.2 (toNat_lt_of_lookup (hk a ha))
  simpa using (List.subperm_of_subset hmap hsub).length_le

structure Above (types : TypeTable) (t : TypeId) (path : List TypeId) : Prop where
  nodup : path.Nodup
  known : ∀ a ∈ path, (types.lookup a).isSome = true
  inside : ∀ a ∈ path, Relation.TransGen types.Inside t a

theorem above_nil (t : TypeId) : types.Above t [] where
  nodup := .nil
  known _ h := by simp at h
  inside _ h := by simp at h

theorem not_inside_self (h : Acc types.Inside t) : ¬ Relation.TransGen types.Inside t t := by
  have ha := h.transGen
  clear h
  induction ha with
  | intro t _ ih => exact fun ht => ih t ht ht

theorem Above.not_mem (hg : types.Grounded) (h : types.Above t path) : t ∉ path := fun ht =>
  not_inside_self (hg.apply t) (h.inside t ht)

theorem Above.cons_of_not_mem (h : types.Above t path) (hn : t ∉ path) (hu : types.Inside u t) :
    types.Above u (t :: path) where
  nodup := List.nodup_cons.2 ⟨hn, h.nodup⟩
  known a ha := by
    rcases List.mem_cons.1 ha with rfl | ha
    · exact lookup_of_mem_partsOf hu.2
    · exact h.known a ha
  inside a ha := by
    rcases List.mem_cons.1 ha with rfl | ha
    · exact .single hu
    · exact .head hu (h.inside a ha)

theorem Above.cons (hg : types.Grounded) (h : types.Above t path) (hu : types.Inside u t) :
    types.Above u (t :: path) :=
  h.cons_of_not_mem (h.not_mem hg) hu

theorem Above.length_le (h : types.Above t path) : path.length ≤ types.size :=
  length_le_size h.nodup h.known

/-! ## What stands in for an instance -/

theorem inside_of_inst (hl : types.lookup t = some d) (hk : d.kind = .genericInst) :
    types.Inside d.elem t := by
  constructor
  · rw [ownsHeap, kindOf, hl]
    simp only [hk]
    rfl
  · have hc : types.components t = .ok [d.elem] := by
      rw [components, hl]
      simp only [hk]
    rw [partsOf, hl, hc]
    simp

theorem kindOf_skipWithin (hg : types.Grounded) : ∀ (n : Nat) {t : TypeId} {path : List TypeId},
    types.Above t path → types.size ≤ n + path.length →
      types.kindOf (types.skipWithin (· = .genericInst) n t) ≠ .genericInst
  | 0, t, path, ha, hn, hk => by
    rw [skipWithin] at hk
    rcases hl : types.lookup t with _ | d
    · rw [kindOf, hl] at hk
      cases hk
    · rw [kindOf, hl] at hk
      have := (ha.cons hg (inside_of_inst hl hk)).length_le
      simp only [List.length_cons] at this
      omega
  | n + 1, t, path, ha, hn, hk => by
    rw [skipWithin] at hk
    rcases hl : types.lookup t with _ | d
    · rw [hl] at hk
      rw [kindOf, hl] at hk
      cases hk
    · rw [hl] at hk
      dsimp only at hk
      split_ifs at hk with hd
      · refine kindOf_skipWithin hg n (ha.cons hg (inside_of_inst hl (by simpa using hd))) ?_ hk
        simp only [List.length_cons]
        omega
      · rw [kindOf, hl] at hk
        exact hd (by simpa using hk)

theorem skip_eq (hk : kinds (types.kindOf t) = false) : types.skip kinds t = t := by
  rw [skip]
  rcases types.size with _ | n
  · rfl
  · rw [skipWithin]
    rcases hl : types.lookup t with _ | d
    · rfl
    · rw [kindOf, hl] at hk
      simp [hk]

theorem canonical_eq_self (hk : types.kindOf t ≠ .genericInst) : types.canonical t = t :=
  skip_eq (decide_eq_false hk)

theorem canonical_canonical (hg : types.Grounded) (t : TypeId) :
    types.canonical (types.canonical t) = types.canonical t :=
  canonical_eq_self (kindOf_skipWithin hg types.size (above_nil t) (by simp))

end TypeTable

namespace OpState

/-- Values of the type have to be destroyed: they own something themselves or in a part. -/
inductive Owning (types : TypeTable) (s : OpState) : TypeId → Prop
  | own {t : TypeId} (h : (s.table.hasUser t || types.ownsHeap t) = true) : Owning types s t
  | part {t u : TypeId} (h : u ∈ types.partsOf t) (hu : Owning types s u) : Owning types s t

def Informed (types : TypeTable) (s : OpState) : Prop :=
  ∀ {t v}, s.table.lifetime.get? t = some v → (v = true ↔ s.Owning types t)

structure Learns (s s' : OpState) : Prop where
  eq : s' = { s with table := { s.table with lifetime := s'.table.lifetime } }
  mono : ∀ {t}, (s.table.lifetime.get? t).isSome = true → (s'.table.lifetime.get? t).isSome = true

variable {types : TypeTable} {s s' s'' : OpState} {t : TypeId}

theorem Learns.refl (s : OpState) : Learns s s where
  eq := rfl
  mono := id

theorem Learns.user (h : Learns s s') : s'.table.user = s.table.user := by rw [h.eq]

theorem Owning.of_user (hu : s'.table.user = s.table.user) (h : s.Owning types t) :
    s'.Owning types t := by
  induction h with
  | own h => exact .own (by rwa [OperatorTable.hasUser, hu])
  | part h _ ih => exact .part h ih

theorem owning_congr (hu : s'.table.user = s.table.user) : s'.Owning types t ↔ s.Owning types t :=
  ⟨.of_user hu.symm, .of_user hu⟩

theorem owning_iff_part (h : (s.table.hasUser t || types.ownsHeap t) = false) :
    s.Owning types t ↔ ∃ u ∈ types.partsOf t, s.Owning types u := by
  constructor
  · intro ho
    cases ho with
    | own h' => rw [h] at h'; cases h'
    | part h' hu => exact ⟨_, h', hu⟩
  · rintro ⟨u, h', hu⟩
    exact .part h' hu

/-- From the type, through types of which nothing is remembered, one comes to a type that owns
something itself or is remembered to have a lifecycle. -/
inductive Reaches (types : TypeTable) (s : OpState) : TypeId → Prop
  | recalled {t : TypeId} (h : s.table.lifetime.get? t = some true) : Reaches types s t
  | own {t : TypeId} (hn : s.table.lifetime.get? t = none)
      (h : (s.table.hasUser t || types.ownsHeap t) = true) : Reaches types s t
  | part {t u : TypeId} (hn : s.table.lifetime.get? t = none) (h : u ∈ types.partsOf t)
      (hu : Reaches types s u) : Reaches types s t

/-- A lifecycle that is remembered is there. One that is remembered to be missing is not that of the
type itself, and it is missing if no value of the type contains itself. -/
structure Prudent (types : TypeTable) (s : OpState) : Prop where
  sound : ∀ {t}, s.table.lifetime.get? t = some true → s.Owning types t
  own : ∀ {t}, s.table.lifetime.get? t = some false →
    (s.table.hasUser t || types.ownsHeap t) = false
  exact : ∀ {t}, Acc types.Inside t → s.table.lifetime.get? t = some false → ¬ s.Owning types t

theorem Prudent.congr (h : s.Prudent types) (hu : s'.table.user = s.table.user)
    (hl : s'.table.lifetime = s.table.lifetime) : s'.Prudent types where
  sound hv := (owning_congr hu).2 (h.sound (hl ▸ hv))
  own {t} hv := by
    rw [OperatorTable.hasUser, hu]
    exact h.own (hl ▸ hv)
  exact ha hv := fun ho => h.exact ha (hl ▸ hv) ((owning_congr hu).1 ho)

theorem Prudent.owning (h : s.Prudent types) (hr : s.Reaches types t) : s.Owning types t := by
  induction hr with
  | recalled hv => exact h.sound hv
  | own _ ho => exact .own ho
  | part _ hp _ ih => exact .part hp ih

theorem Prudent.insert (h : s.Prudent types) (ht : v = true → s.Owning types t)
    (ho : v = false → (s.table.hasUser t || types.ownsHeap t) = false)
    (hf : v = false → Acc types.Inside t → ¬ s.Owning types t) :
    Prudent types { s with table := { s.table with lifetime := s.table.lifetime.insert t v } } := by
  have hget := Dict.get?_insert s.table.lifetime t
  have howning : ∀ x, Owning types
      { s with table := { s.table with lifetime := s.table.lifetime.insert t v } } x ↔
        s.Owning types x := fun x => owning_congr (by rfl)
  refine ⟨fun {x} hx => ?_, fun {x} hx => ?_, fun {x} ha hx => ?_⟩
  · rw [hget] at hx
    refine (howning x).2 ?_
    split_ifs at hx with htx
    · exact htx ▸ ht (Option.some.inj hx)
    · exact h.sound hx
  · rw [hget] at hx
    split_ifs at hx with htx
    · subst htx
      exact ho (Option.some.inj hx)
    · exact h.own hx
  · rw [hget] at hx
    refine mt (howning x).1 ?_
    split_ifs at hx with htx
    · subst htx
      exact hf (Option.some.inj hx) ha
    · exact h.exact ha hx

theorem Informed.prudent (h : s.Informed types) : s.Prudent types where
  sound hv := (h hv).1 rfl
  own hv := Bool.eq_false_iff.2 fun ho => by simpa using (h hv).2 (.own ho)
  exact _ hv := fun ho => by simpa using (h hv).2 ho

/-- Where no value contains itself, nothing that is remembered is wrong. -/
theorem Prudent.informed (hg : types.Grounded) (h : s.Prudent types) : s.Informed types := by
  intro t v hv
  cases v with
  | true => simpa using h.sound hv
  | false => simpa using h.exact (hg.apply t) hv

theorem Owning.reaches (h : ∀ {t}, s.table.lifetime.get? t = some false → ¬ s.Owning types t)
    (ho : s.Owning types t) : s.Reaches types t := by
  have hknown : ∀ {t v}, s.Owning types t → s.table.lifetime.get? t = some v →
      s.Reaches types t := by
    intro t v ho hv
    cases v with
    | true => exact .recalled hv
    | false => exact (h hv ho).elim
  induction ho with
  | @own t ho =>
    rcases hv : s.table.lifetime.get? t with _ | v
    · exact .own hv ho
    · exact hknown (.own ho) hv
  | @part t u hp hu ih =>
    rcases hv : s.table.lifetime.get? t with _ | v
    · exact .part hv hp ih
    · exact hknown (.part hp hu) hv

theorem Learns.insert (h : Learns s s') :
    Learns s { s' with table := { s'.table with lifetime := s'.table.lifetime.insert t v } } where
  eq := by rw [h.eq]
  mono {x} hx := by
    rw [Dict.get?_insert]
    split_ifs
    · rfl
    · exact h.mono hx

end OpState

namespace OpM

open OpState

variable {types : TypeTable} {s s0 : OpState} {t : TypeId} {path seen seen' : List TypeId}

theorem ends_partsOf (hi : types.Intact) (t : TypeId) :
    Ends False (parts types t s) fun ts s' => ts = types.partsOf t ∧ s' = s := by
  obtain ⟨ts, hts⟩ := hi.components t
  rw [parts, TypeTable.partsOf, hts]
  rcases types.lookup t with _ | d
  · exact ⟨rfl, rfl⟩
  · dsimp only
    split_ifs
    · exact ⟨rfl, rfl⟩
    · exact ⟨rfl, rfl⟩

def Passed (s0 : OpState) (seen : List TypeId) (t : TypeId) : Prop :=
  t ∈ seen ∨ s0.table.lifetime.get? t = some false

theorem Passed.mono (hs : seen ⊆ seen') (h : Passed s0 seen t) : Passed s0 seen' t :=
  h.imp_left (@hs t)

/-- A search that began in `s0` and has found nothing so far: it is on its way down `path`, has
begun with all of `seen`, and is through with those of them that are not on its way. -/
structure Sweep (types : TypeTable) (s0 : OpState) (path seen : List TypeId) (s : OpState) :
    Prop where
  learns : Learns s0 s
  prudent : s.Prudent types
  recalls : ∀ {t v}, s.table.lifetime.get? t = some v →
    s0.table.lifetime.get? t = some v ∨ v = false ∧ t ∈ seen
  begun : path ⊆ seen
  fresh : ∀ t ∈ seen, s0.table.lifetime.get? t = none
  through : ∀ t ∈ seen, t ∈ path ∨ (s.table.lifetime.get? t).isSome = true ∧
    (s0.table.hasUser t || types.ownsHeap t) = false ∧ ∀ u ∈ types.partsOf t, Passed s0 seen u

theorem Sweep.nil (h : s.Prudent types) : Sweep types s [] [] s where
  learns := .refl s
  prudent := h
  recalls := .inl
  begun := List.Subset.refl _
  fresh _ hm := by simp at hm
  through _ hm := by simp at hm

theorem Sweep.get?_eq_none (h : Sweep types s0 path seen s) (ht : s.table.lifetime.get? t = none) :
    s0.table.lifetime.get? t = none := by
  by_contra hs
  have := h.learns.mono (Option.isSome_iff_ne_none.2 hs)
  simp [ht] at this

theorem Sweep.enter (h : Sweep types s0 path seen s) (ht : s.table.lifetime.get? t = none) :
    Sweep types s0 (t :: path) (t :: seen) s where
  learns := h.learns
  prudent := h.prudent
  recalls hv := (h.recalls hv).imp_right fun hm => ⟨hm.1, List.mem_cons_of_mem t hm.2⟩
  begun := List.cons_subset_cons t h.begun
  fresh a ha := by
    rcases List.mem_cons.1 ha with rfl | ha
    · exact h.get?_eq_none ht
    · exact h.fresh a ha
  through a ha := by
    rcases List.mem_cons.1 ha with rfl | ha
    · exact .inl List.mem_cons_self
    · refine (h.through a ha).imp (List.mem_cons_of_mem t) fun hd => ⟨hd.1, hd.2.1, fun u hu => ?_⟩
      exact (hd.2.2 u hu).mono (List.subset_cons_self t seen)

theorem Sweep.leave (h : Sweep types s0 (t :: path) seen s)
    (hown : (s0.table.hasUser t || types.ownsHeap t) = false)
    (hp : ∀ u ∈ types.partsOf t, Passed s0 seen u) (ha : Acc types.Inside t → ¬ s.Owning types t) :
    Sweep types s0 path seen
      { s with table := { s.table with lifetime := s.table.lifetime.insert t false } } := by
  have hget := Dict.get?_insert s.table.lifetime t
  have ht : t ∈ seen := h.begun List.mem_cons_self
  refine ⟨h.learns.insert, h.prudent.insert nofun (fun _ => ?_) fun _ => ha, fun {x v} hx => ?_,
    fun x hx => h.begun (List.mem_cons_of_mem t hx), h.fresh, fun x hx => ?_⟩
  · rwa [OperatorTable.hasUser, h.learns.user]
  · rw [hget] at hx
    split_ifs at hx with htx
    · exact .inr ⟨(Option.some.inj hx).symm, htx ▸ ht⟩
    · exact h.recalls hx
  · have hsome : x = t ∨ (s.table.lifetime.get? x).isSome = true →
        ((s.table.lifetime.insert t false).get? x).isSome = true := by
      rintro (rfl | hs) <;> rw [hget]
      · simp
      · split_ifs
        · rfl
        · exact hs
    rcases h.through x hx with hm | hd
    · rcases List.mem_cons.1 hm with rfl | hm
      · exact .inr ⟨hsome (.inl rfl), hown, hp⟩
      · exact .inl hm
    · exact .inr ⟨hsome (.inr hd.1), hd.2⟩

theorem Sweep.not_reaches (h : Sweep types s0 [] seen s) (hp : Passed s0 seen t) :
    ¬ s0.Reaches types t := by
  intro hr
  induction hr with
  | recalled hv =>
    rcases hp with hm | hf
    · simp [h.fresh _ hm] at hv
    · simp [hf] at hv
  | own hn ho =>
    rcases hp with hm | hf
    · rcases h.through _ hm with hm | hd
      · simp at hm
      · simp [hd.2.1] at ho
    · simp [hf] at hn
  | part hn hpart _ ih =>
    rcases hp with hm | hf
    · rcases h.through _ hm with hm | hd
      · simp at hm
      · exact ih (hd.2.2 _ hpart)
    · simp [hf] at hn

/-- What a step of the search comes to. If it finds something the whole search ends. Otherwise it
goes on, with no more types open than before. -/
def Finds (types : TypeTable) (s0 : OpState) (path seen : List TypeId) (found : Prop)
    (passed : List TypeId → Prop) (r : Bool × List TypeId) (s : OpState) : Prop :=
  if r.1 then found ∧ Learns s0 s ∧ s.Prudent types
  else Sweep types s0 path r.2 s ∧ seen ⊆ r.2 ∧ passed r.2

theorem ends_tryParts_finds
    {lacks : TypeId → Prop} : ∀ (ts : List TypeId) {seen : List TypeId} {s : OpState},
      (∀ u ∈ ts, ∀ seen s, Sweep types s0 path seen s → Ends False (visit u seen s)
        (Finds types s0 path seen (s0.Reaches types u) fun seen => Passed s0 seen u ∧ lacks u)) →
      Sweep types s0 path seen s → Ends False (tryParts visit ts seen s)
        (Finds types s0 path seen (∃ u ∈ ts, s0.Reaches types u) fun seen =>
          ∀ u ∈ ts, Passed s0 seen u ∧ lacks u)
  | [], seen, s, _, hs => ⟨hs, List.Subset.refl _, fun u hu => by simp at hu⟩
  | u :: us, seen, s, hv, hs => by
    rw [tryParts, ends_bind]
    refine (hv u (by simp) seen s hs).mono fun r s' hr => ?_
    rcases r with ⟨found, seen1⟩
    cases found with
    | true => exact ⟨⟨u, by simp, hr.1⟩, hr.2⟩
    | false =>
      obtain ⟨hs', hsub, hpass, hlack⟩ : Sweep _ _ _ _ _ ∧ _ := hr
      refine (ends_tryParts_finds us (fun w hw => hv w (by simp [hw])) hs').mono fun r s'' hr => ?_
      rcases r with ⟨found, seen2⟩
      cases found with
      | true =>
        obtain ⟨⟨w, hw, hreach⟩, h⟩ : (∃ u ∈ us, _) ∧ _ := hr
        exact ⟨⟨w, by simp [hw], hreach⟩, h⟩
      | false =>
        obtain ⟨hs'', hsub', hrest⟩ : Sweep _ _ _ _ _ ∧ _ := hr
        refine ⟨hs'', List.Subset.trans hsub hsub', fun w hw => ?_⟩
        rcases List.mem_cons.1 hw with rfl | hw
        · exact ⟨hpass.mono hsub', hlack⟩
        · exact hrest w hw

/-- The search from a type within the types of `path`. The steps are enough, since on one way down
each type is met once. A type that is passed over because the search has begun with it is still on
the way, and so contains itself. -/
theorem ends_needsWithin_finds (hint : types.Intact) (h0 : s0.Prudent types) :
    ∀ (n : Nat) {t : TypeId} {path seen : List TypeId} {s : OpState}, types.Above t path →
      types.size + 2 ≤ n + path.length → Sweep types s0 path seen s →
      Ends False (needsWithin types n t seen s) (Finds types s0 path seen (s0.Reaches types t)
        fun seen => Passed s0 seen t ∧ (Acc types.Inside t → ¬ s0.Owning types t))
  | 0, t, path, seen, s, ha, hn, _ => by
    have := ha.length_le
    omega
  | n + 1, t, path, seen, s, ha, hn, hs => by
    have hu : s.table.user = s0.table.user := hs.learns.user
    rw [needsWithin, ends_bind, ends_get]
    rcases hv : s.table.lifetime.get? t with _ | v
    · have hnone := hs.get?_eq_none hv
      by_cases hseen : t ∈ seen
      · -- still open further up
        have hpath : t ∈ path := by
          refine (hs.through t hseen).resolve_right fun hd => ?_
          simp [hv] at hd
        simp only [List.contains_iff_mem.2 hseen, if_true]
        refine ⟨hs, List.Subset.refl _, .inl hseen, fun hacc => ?_⟩
        exact absurd (ha.inside t hpath) (TypeTable.not_inside_self hacc)
      · have hcontains : seen.contains t = false := by simpa using hseen
        have hnot : t ∉ path := fun hp => hseen (hs.begun hp)
        simp only [hcontains, Bool.false_eq_true, if_false]
        have hu' : s.table.hasUser t = s0.table.hasUser t := by rw [OperatorTable.hasUser, hu]; rfl
        rcases hown : (s0.table.hasUser t || types.ownsHeap t) with _ | _
        · rw [hu', hown]
          simp only [Bool.false_eq_true, if_false, ends_bind, ends_modify, ends_pure]
          refine (ends_partsOf hint t).mono ?_
          rintro ts s' ⟨hts, hs'⟩
          subst hts hs'
          have hheap : types.ownsHeap t = false := (Bool.or_eq_false_iff.1 hown).2
          refine (ends_tryParts_finds (types.partsOf t) (fun u hu seen s1 hs1 =>
            ends_needsWithin_finds hint h0 n (ha.cons_of_not_mem hnot ⟨hheap, hu⟩)
              (by simp only [List.length_cons]; omega) hs1) (hs.enter hv)).mono fun r s1 hr => ?_
          rcases r with ⟨found, seen1⟩
          cases found with
          | true =>
            obtain ⟨⟨u, hu, hreach⟩, hl, hp⟩ : (∃ u ∈ types.partsOf t, _) ∧ _ := hr
            have hr : s0.Reaches types t := .part hnone hu hreach
            refine ⟨hr, hl.insert, hp.insert (fun _ => ?_) (by simp) (by simp)⟩
            exact .of_user hl.user (h0.owning hr)
          | false =>
            obtain ⟨hs1, hsub, hpass⟩ : Sweep _ _ _ _ _ ∧ _ := hr
            have hlack : Acc types.Inside t → ¬ s0.Owning types t := by
              intro hacc ho
              obtain ⟨u, hu, ho⟩ := (owning_iff_part hown).1 ho
              exact (hpass u hu).2 (hacc.inv ⟨hheap, hu⟩) ho
            have hleave := hs1.leave hown (fun u hu => (hpass u hu).1) fun hacc ho =>
              hlack hacc (.of_user hs1.learns.user.symm ho)
            refine ⟨hleave, List.Subset.trans (List.subset_cons_self t seen) hsub, .inl ?_, hlack⟩
            exact hsub List.mem_cons_self
        · rw [hu', hown]
          refine ⟨.own hnone hown, hs.learns.insert, hs.prudent.insert (fun _ => ?_)
            (by simp) (by simp)⟩
          exact .of_user hu (.own hown)
    · cases v with
      | true =>
        rcases hs.recalls hv with h | h
        · exact ⟨.recalled h, hs.learns, hs.prudent⟩
        · cases h.1
      | false =>
        refine ⟨hs, List.Subset.refl _, ?_, fun hacc ho => hs.prudent.exact hacc hv
          (.of_user hu ho)⟩
        exact (hs.recalls hv).symm.imp And.right id

/-- The search answers by what it can reach, and what it remembers then is not wrong either. -/
theorem ends_needsLifecycle_reaches (hint : types.Intact) (hp : s.Prudent types) (t : TypeId) :
    Ends False (needsLifecycle types t s) fun v s' =>
      (v = true ↔ s.Reaches types t) ∧ Learns s s' ∧ s'.Prudent types := by
  rw [needsLifecycle, ends_bind]
  refine (ends_needsWithin_finds hint hp _ (TypeTable.above_nil t) (by simp) (.nil hp)).mono
    fun r s' hr => ?_
  rcases r with ⟨found, seen⟩
  cases found with
  | true => exact ⟨by simpa using hr.1, hr.2⟩
  | false =>
    obtain ⟨hs, -, hpass, -⟩ : Sweep _ _ _ _ _ ∧ _ := hr
    exact ⟨by simpa using hs.not_reaches hpass, hs.learns, hs.prudent⟩

theorem ends_needsLifecycle_iff (hint : types.Intact) (hg : types.Grounded)
    (hi : s.Informed types) (t : TypeId) : Ends False (needsLifecycle types t s) fun v s' =>
      (v = true ↔ s.Owning types t) ∧ Learns s s' ∧ s'.Informed types := by
  refine (ends_needsLifecycle_reaches hint hi.prudent t).mono fun v s' ⟨hv, hl, hp⟩ => ?_
  refine ⟨hv.trans ⟨hi.prudent.owning, Owning.reaches fun h ho => ?_⟩, hl, hp.informed hg⟩
  simpa using (hi h).2 ho

end OpM

end Lifecycle
