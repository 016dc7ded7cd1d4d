import Lifecycle.Proofs.Operators.Search

/-!
# Resolving is a search

`OpM.resolve` searches by the rulings of the table (`ends_resolveWithin_search`): what it takes for
granted are the types whose operators were made up before and those it is working on. The rulings
themselves do not change while operators are asked for.
-/

namespace Lifecycle

open Ruling

namespace OpState

open Classical in
noncomputable def ruling (types : TypeTable) (s : OpState) (k : OpKind) (t : TypeId) : Ruling :=
  if (types.lookup t).isNone then .refused .missing
  else if s.table.disabled.contains (t, k) then .refused .unavailable
  else
    match s.table.user.get? (t, k) with
    | some op =>
      if !(s.symbols.get op).has .genericOp then .granted
      else if types.canonical t ≠ t then .deferred (types.canonical t) true
      else .refused .generic
    | none =>
      if types.canonical t ≠ t then .deferred (types.canonical t) false
      else if ¬ s.Owning types t then .refused .trivial
      else if types.containsGenericParam t = .ok true then .refused .generic
      else .composed ((types.partsOf t).filter fun u => s.Owning types u)

structure SameDecls (s s' : OpState) : Prop where
  user : s'.table.user = s.table.user
  disabled : s'.table.disabled = s.table.disabled
  generic : ∀ r, (s'.symbols.get r).has .genericOp = (s.symbols.get r).has .genericOp

variable {types : TypeTable} {s s' s'' : OpState} {k : OpKind} {t : TypeId}

theorem SameDecls.refl (s : OpState) : SameDecls s s := ⟨rfl, rfl, fun _ => rfl⟩

theorem SameDecls.trans (h : SameDecls s s') (h' : SameDecls s' s'') : SameDecls s s'' :=
  ⟨h'.user.trans h.user, h'.disabled.trans h.disabled, fun r => (h'.generic r).trans (h.generic r)⟩

theorem Learns.sameDecls (h : Learns s s') : SameDecls s s' := by
  rw [h.eq]
  exact ⟨rfl, rfl, fun _ => rfl⟩

theorem Learns.synth (h : Learns s s') : s'.table.synth = s.table.synth := by rw [h.eq]

theorem SameDecls.ruling (h : SameDecls s s') : s'.ruling types k = s.ruling types k := by
  funext t
  have ho : s'.Owning types = s.Owning types := funext fun u => propext (owning_congr h.user)
  simp only [OpState.ruling, h.user, h.disabled, h.generic]
  rw [ho]

theorem Informed.congr (h : s.Informed types) (hu : s'.table.user = s.table.user)
    (hl : s'.table.lifetime = s.table.lifetime) : s'.Informed types := by
  intro t v hv
  rw [hl] at hv
  rw [owning_congr hu]
  exact h hv

def grants (s : OpState) (k : OpKind) (visiting : List OpKey) : Set TypeId :=
  {u | (u, k) ∈ visiting ∨ s.table.synth.contains (u, k) = true}

end OpState

def OpResult.outcome : OpResult → Outcome
  | .ok _ => none
  | .error e => some e.reason

namespace OpM

open OpState

variable {types : TypeTable} {s s' : OpState} {k : OpKind} {t : TypeId} {visiting : List OpKey}

structure Busy (types : TypeTable) (k : OpKind) (visiting : List OpKey) : Prop where
  nodup : visiting.Nodup
  known : ∀ x ∈ visiting, x.2 = k ∧ (types.lookup x.1).isSome = true

theorem busy_nil : Busy types k [] := ⟨.nil, fun _ h => by simp at h⟩

theorem Busy.length_le (h : Busy types k visiting) : visiting.length ≤ types.size := by
  have hinj : (visiting.map (·.1)).Nodup :=
    h.nodup.map_on fun x hx y hy he => Prod.ext he ((h.known x hx).1.trans (h.known y hy).1.symm)
  have hknown : ∀ a ∈ visiting.map (·.1), (types.lookup a).isSome = true := fun a ha => by
    obtain ⟨x, hx, rfl⟩ := List.mem_map.1 ha
    exact (h.known x hx).2
  simpa using TypeTable.length_le_size hinj hknown

theorem Busy.cons (h : Busy types k visiting) (hl : (types.lookup t).isSome = true)
    (hm : (t, k) ∉ visiting) : Busy types k ((t, k) :: visiting) where
  nodup := List.nodup_cons.2 ⟨hm, h.nodup⟩
  known x hx := by
    rcases List.mem_cons.1 hx with rfl | hx
    · exact ⟨rfl, hl⟩
    · exact h.known x hx

/-- What a step of the search leaves: the same declarations, right lifecycles, and made-up operators
only for types that had one or are worked on. -/
structure Keeps (types : TypeTable) (k : OpKind) (s : OpState) (visiting : List OpKey)
    (s' : OpState) (visiting' : List OpKey) : Prop where
  same : SameDecls s s'
  informed : s'.Informed types
  busy : Busy types k visiting'
  mono : visiting ⊆ visiting'
  grows : visiting.length ≤ visiting'.length
  kept : ∀ {x}, s.table.synth.contains x = true → s'.table.synth.contains x = true
  made : ∀ {x}, s'.table.synth.contains x = true →
    s.table.synth.contains x = true ∨ x ∈ visiting'

theorem Keeps.trans (h : Keeps types k s visiting s' v')
    (h' : Keeps types k s' v' s'' v'') : Keeps types k s visiting s'' v'' where
  same := h.same.trans h'.same
  informed := h'.informed
  busy := h'.busy
  mono := List.Subset.trans h.mono h'.mono
  grows := h.grows.trans h'.grows
  kept hx := h'.kept (h.kept hx)
  made hx := (h'.made hx).elim (fun hx => (h.made hx).imp id fun hx => h'.mono hx) .inr

theorem keeps_learns (hl : Learns s s') (hi : s'.Informed types) (hb : Busy types k visiting) :
    Keeps types k s visiting s' visiting where
  same := hl.sameDecls
  informed := hi
  busy := hb
  mono := List.Subset.refl _
  grows := Nat.le_refl _
  kept hx := by rwa [hl.synth]
  made hx := .inl (by rwa [← hl.synth])

theorem keeps_self (hi : s.Informed types) (hb : Busy types k visiting) :
    Keeps types k s visiting s visiting :=
  keeps_learns (.refl s) hi hb

theorem grants_learns (hl : Learns s s') : s'.grants k visiting = s.grants k visiting := by
  rw [grants, grants, hl.synth]

theorem grants_cons : s.grants k ((t, k) :: visiting) = insert t (s.grants k visiting) := by
  ext u
  simp [grants, or_assoc]

structure Comes (types : TypeTable) (k : OpKind) (s : OpState) (visiting : List OpKey) (t : TypeId)
    (r : OpResult × List OpKey) (s' : OpState) : Prop extends Keeps types k s visiting s' r.2 where
  search : Search (s.ruling types k) (s.grants k visiting) t r.1.outcome (s'.grants k r.2)
  pending : r.1 = .ok none → visiting ≠ []

/-! ## Steps that cannot go wrong -/

theorem ends_fail_total (hint : types.Intact) :
    Ends False (fail types t k r s) fun x s' => s' = s ∧ ∃ e, x = .error e ∧ e.reason = r := by
  obtain ⟨x, hx⟩ := hint.text t
  rw [fail, hx]
  exact ⟨rfl, _, rfl, rfl⟩

theorem tryEach_total (hv : ∀ t seen, ∃ r, visit t seen = .ok r) :
    ∀ ts seen, ∃ r, TypeTable.tryEach visit ts seen = .ok r
  | [], seen => ⟨_, rfl⟩
  | t :: ts, seen => by
    obtain ⟨⟨found, seen'⟩, hr⟩ := hv t seen
    obtain ⟨r', hr'⟩ := tryEach_total hv ts seen'
    rw [TypeTable.tryEach, hr]
    cases found with
    | true => exact ⟨_, rfl⟩
    | false => exact ⟨r', hr'⟩

theorem genericWithin_total (hint : types.Intact) :
    ∀ n t seen, ∃ r, types.genericWithin n t seen = .ok r
  | 0, t, seen => ⟨_, rfl⟩
  | n + 1, t, seen => by
    rw [TypeTable.genericWithin]
    split_ifs
    · exact ⟨_, rfl⟩
    · dsimp only
      split
      · exact ⟨_, rfl⟩
      · split
        · exact ⟨_, rfl⟩
        all_goals try exact genericWithin_total hint n _ _
        obtain ⟨ts, hts⟩ := hint.components t
        rw [hts]
        exact tryEach_total (genericWithin_total hint n) ts _

theorem containsGenericParam_total (hint : types.Intact) (t : TypeId) :
    ∃ b, types.containsGenericParam t = .ok b := by
  obtain ⟨r, hr⟩ := genericWithin_total hint (types.size + 1) t []
  exact ⟨r.1, by rw [TypeTable.containsGenericParam, hr]; rfl⟩

theorem ends_newRoutine_same :
    Ends False (newRoutine name m s) fun _ s' => SameDecls s s' ∧ s'.table = s.table := by
  refine ⟨⟨rfl, rfl, fun r => ?_⟩, rfl⟩
  simp only [Symbols.get, Array.getElem?_push]
  split_ifs with h
  · rw [h, Array.getElem?_eq_none (Nat.le_refl _)]
    change SymFlags.generated.has .genericOp = SymFlags.has {} .genericOp
    decide
  · rfl

/-! ## The search -/

theorem ends_resolveParts_search (hint : types.Intact) (hg : types.Grounded) :
    ∀ (ts : List TypeId) {visiting : List OpKey} {s : OpState},
      (∀ u visiting' s', s'.Informed types → Busy types k visiting' →
        visiting.length ≤ visiting'.length →
        Ends False (visit u visiting' s') (Comes types k s' visiting' u)) →
      s.Informed types → Busy types k visiting →
      Ends False (resolveParts types k visit ts visiting s) fun r s' =>
        Keeps types k s visiting s' r.2 ∧
          open Classical in SearchAll (s.ruling types k) (s.grants k visiting)
            (ts.filter fun u => s.Owning types u) (r.1.map OpError.reason) (s'.grants k r.2)
  | [], visiting, s, _, hi, hb => ⟨keeps_self hi hb, .nil⟩
  | u :: us, visiting, s, hv, hi, hb => by
    rw [resolveParts, ends_bind]
    refine (ends_needsLifecycle_iff hint hg hi u).mono ?_
    rintro v s1 ⟨hv1, hl, hi1⟩
    have hk1 : Keeps types k s visiting s1 visiting := keeps_learns hl hi1 hb
    have ho : s1.Owning types = s.Owning types := funext fun u => propext (owning_congr hl.user)
    cases v with
    | false =>
      have hn : ¬ s.Owning types u := fun h => by simpa using hv1.2 h
      refine (ends_resolveParts_search hint hg us hv hi1 hb).mono fun r s2 h2 =>
        ⟨hk1.trans h2.1, ?_⟩
      have hs := h2.2
      rw [hl.sameDecls.ruling, grants_learns hl, ho] at hs
      simpa [hn] using hs
    | true =>
      have hy : s.Owning types u := hv1.1 rfl
      simp only [if_true, ends_bind]
      refine (hv u visiting s1 hi1 hb (Nat.le_refl _)).mono fun r s2 hc => ?_
      have hfirst := hc.search
      rw [hl.sameDecls.ruling, grants_learns hl] at hfirst
      have hrest : Passes r.1.outcome →
          Ends False (resolveParts types k visit us r.2 s2) fun r' s' =>
            Keeps types k s visiting s' r'.2 ∧
              open Classical in SearchAll (s.ruling types k) (s.grants k visiting)
                ((u :: us).filter fun u => s.Owning types u) (r'.1.map OpError.reason)
                (s'.grants k r'.2) := by
        intro hp
        refine (ends_resolveParts_search hint hg us (fun w v' s' hi' hb' hle =>
          hv w v' s' hi' hb' (hc.grows.trans hle)) hc.informed hc.busy).mono
          fun r' s3 h3 => ⟨(hk1.trans hc.toKeeps).trans h3.1, ?_⟩
        have hs := h3.2
        have ho2 : s2.Owning types = s.Owning types :=
          funext fun u => propext (owning_congr (hc.same.user.trans hl.user))
        rw [hc.same.ruling, hl.sameDecls.ruling, ho2] at hs
        rw [List.filter_cons, if_pos (by simpa using hy)]
        exact .next hfirst hp hs
      rcases r with ⟨e | op, v'⟩
      · dsimp only
        by_cases hr : e.reason = .trivial
        · rw [if_pos hr]
          exact hrest (.inr (by rw [OpResult.outcome, hr]))
        · rw [if_neg hr]
          refine ⟨hk1.trans hc.toKeeps, ?_⟩
          rw [List.filter_cons, if_pos (by simpa using hy)]
          exact .stop hfirst hr
      · exact hrest (.inl rfl)

theorem ends_refuse (hint : types.Intact)
    (hk : Keeps types k s0 visiting s visiting) (hR : s0.ruling types k t = .refused r)
    (hs : s.grants k visiting = s0.grants k visiting) :
    Ends False ((do return (← fail types t k r, visiting) : OpM (OpResult × List OpKey)) s)
      (Comes types k s0 visiting t) := by
  rw [ends_bind]
  refine (ends_fail_total hint).mono fun x s' ⟨hs', e, hx, he⟩ => ?_
  subst hs' hx
  refine ⟨hk, ?_, nofun⟩
  change Search _ _ t (some e.reason) (s'.grants k visiting)
  rw [he, hs]
  exact .refused hR

theorem ends_compose (hint : types.Intact) (hg : types.Grounded)
    (hk : Keeps types k s0 visiting s visiting)
    (hgr : s.grants k visiting = s0.grants k visiting) (hl : ¬ (types.lookup t).isNone = true)
    (hR : open Classical in
      s0.ruling types k t = .composed ((types.partsOf t).filter fun u => s0.Owning types u))
    (hv : ∀ u visiting' s', s'.Informed types → Busy types k visiting' →
      visiting.length + 1 ≤ visiting'.length →
      Ends False (visit u visiting' s') (Comes types k s' visiting' u)) :
    Ends False (compose types k visit t visiting s) (Comes types k s0 visiting t) := by
  have ho : s.Owning types = s0.Owning types :=
    funext fun u => propext (owning_congr hk.same.user)
  have hknown : t ∈ s.grants k visiting →
      Search (s0.ruling types k) (s0.grants k visiting) t none (s.grants k visiting) := by
    intro hm
    rw [hgr] at hm ⊢
    exact .known hR hm
  rw [compose, ends_bind, ends_get]
  rcases hy : s.table.synth.get? (t, k) with _ | op
  · by_cases hm : visiting.contains (t, k) = true
    · rw [List.contains_iff_mem] at hm
      simp only [List.contains_iff_mem, hm, if_true]
      exact ⟨hk, hknown (.inl hm), fun _ => List.ne_nil_of_mem hm⟩
    have hnew : t ∉ s0.grants k visiting := by
      rw [← hgr]
      rintro (h | h)
      · exact hm (by simpa using h)
      · rw [Dict.contains, hy] at h
        cases h
    have hb : Busy types k ((t, k) :: visiting) :=
      hk.busy.cons (by simpa [Option.isSome_iff_ne_none] using hl) (by simpa using hm)
    simp only [hm, Bool.false_eq_true, if_false, ends_bind]
    refine (ends_partsOf hint t).mono ?_
    rintro ts s' ⟨hts, hs'⟩
    subst hts hs'
    refine (ends_resolveParts_search hint hg (types.partsOf t) hv hk.informed hb).mono
      ?_
    rintro r s2 ⟨hk2, hs⟩
    rcases r with ⟨failure, v'⟩
    rw [hk.same.ruling, grants_cons, hgr, ho] at hs
    have hk' : Keeps types k s0 visiting s2 v' :=
      { same := hk.same.trans hk2.same
        informed := hk2.informed
        busy := hk2.busy
        mono := List.Subset.trans (List.subset_cons_self _ _) hk2.mono
        grows := Nat.le_trans (Nat.le_succ _) hk2.grows
        kept := fun hx => hk2.kept (hk.kept hx)
        made := fun hx => (hk2.made hx).elim (fun hx => (hk.made hx).imp id fun hx =>
          hk2.mono (List.mem_cons_of_mem _ hx)) .inr }
    cases failure with
    | some e =>
      obtain ⟨x, hx⟩ := hint.text t
      dsimp only
      rw [hx]
      exact ⟨hk', .made hR hnew hs, by simp⟩
    | none =>
      simp only [ends_bind, ends_modify, ends_pure]
      refine ends_newRoutine_same.mono ?_
      rintro op s3 ⟨hsame, htable⟩
      -- the type was being worked on, so nothing more is taken for granted now
      have hin : (t, k) ∈ v' := hk2.mono (List.mem_cons_self ..)
      have hc : ∀ x, (s3.table.synth.insert (t, k) op).contains x = true ↔
          x = (t, k) ∨ s2.table.synth.contains x = true := by
        intro x
        rw [Dict.contains, Dict.get?_insert, htable]
        split_ifs with h
        · simp [h]
        · simp [Ne.symm h, Dict.contains]
      let after := { s3 with table := { s3.table with synth := s3.table.synth.insert (t, k) op } }
      have hinf : after.Informed types :=
        @Informed.congr types s2 after hk2.informed hsame.user (by simp only [after, htable])
      have hgr' : after.grants k v' = s2.grants k v' := by
        ext u
        refine ⟨?_, fun h => h.imp id fun h => (hc _).2 (.inr h)⟩
        rintro (h | h)
        · exact .inl h
        · rcases (hc _).1 h with h | h
          · cases h
            exact .inl hin
          · exact .inr h
      refine ⟨⟨hk'.same.trans ⟨hsame.user, hsame.disabled, hsame.generic⟩,
        hinf, hk2.busy, hk'.mono, hk'.grows,
        fun hx => (hc _).2 (.inr (hk'.kept hx)), fun hx => ?_⟩, ?_, by simp⟩
      · rcases (hc _).1 hx with rfl | hx
        · exact .inr hin
        · exact hk'.made hx
      · change Search _ _ t none (after.grants k v')
        rw [hgr']
        exact .made hR hnew hs
  · exact ⟨hk, hknown (.inr (by rw [Dict.contains, hy]; rfl)), by simp⟩

/-- The steps are enough: on one way down each type is worked on once, and each of them can be met
through an instance. -/
theorem ends_resolveWithin_search (hint : types.Intact) (hg : types.Grounded) :
    ∀ (n : Nat) {t : TypeId} {visiting : List OpKey} {s : OpState}, s.Informed types →
      Busy types k visiting → 2 * types.size + 2 ≤ n + 2 * visiting.length +
        (if types.canonical t = t then 1 else 0) →
      Ends False (resolveWithin types k n t visiting s) (Comes types k s visiting t)
  | 0, t, visiting, s, _, hb, hn => by
    have := hb.length_le
    split_ifs at hn <;> omega
  | n + 1, t, visiting, s, hi, hb, hn => by
    have hself : Keeps types k s visiting s visiting := keeps_self hi hb
    -- another type decides
    have hdefer : types.canonical t ≠ t → Ends False
        (resolveWithin types k n (types.canonical t) visiting s)
        (Comes types k s visiting (types.canonical t)) := by
      intro hc
      refine ends_resolveWithin_search hint hg n hi hb ?_
      rw [if_neg hc] at hn
      rw [if_pos (TypeTable.canonical_canonical hg t)]
      omega
    rw [resolveWithin, ends_bind, ends_get]
    dsimp only
    by_cases hl : (types.lookup t).isNone = true
    · rw [if_pos hl]
      exact ends_refuse hint hself (by simp only [ruling, hl, if_true]) rfl
    by_cases hd : s.table.disabled.contains (t, k) = true
    · rw [if_neg hl, if_pos hd]
      exact ends_refuse hint hself (by simp only [ruling, hl, hd, if_true]; rfl) rfl
    rw [if_neg hl, if_neg hd]
    have hR := Eq.refl (s.ruling types k t)
    nth_rewrite 2 [ruling] at hR
    rw [if_neg hl, if_neg hd] at hR
    rcases hu : s.table.user.get? (t, k) with _ | op <;> rw [hu] at hR <;> dsimp only at hR ⊢
    · by_cases hc : types.canonical t ≠ t
      · rw [if_pos hc] at hR ⊢
        refine (hdefer hc).mono fun r s' hr => ⟨hr.toKeeps, ?_, hr.pending⟩
        exact (Search.deferred hR hr.search : Search _ _ t (passOn false r.1.outcome) _)
      rw [if_neg hc] at hR ⊢
      rw [ends_bind]
      refine (ends_needsLifecycle_iff hint hg hi t).mono ?_
      rintro v s1 ⟨hv, hl1, hi1⟩
      have hk1 : Keeps types k s visiting s1 visiting := keeps_learns hl1 hi1 hb
      have hgr : s1.grants k visiting = s.grants k visiting := grants_learns hl1
      cases v with
      | false =>
        rw [if_pos fun h => by simpa using hv.2 h] at hR
        exact ends_refuse hint hk1 hR hgr
      | true =>
        rw [if_neg (not_not.2 (hv.1 rfl))] at hR
        obtain ⟨b, hgen⟩ := containsGenericParam_total hint t
        simp only [Bool.not_true, Bool.false_eq_true, if_false, hgen, ends_bind]
        cases b with
        | true =>
          rw [if_pos hgen] at hR
          exact ends_refuse hint hk1 hR hgr
        | false =>
          rw [if_neg (by simp [hgen])] at hR
          have hc : types.canonical t = t := not_not.1 hc
          refine ends_compose hint hg hk1 hgr hl hR fun u v' s' hi' hb' hle =>
            ends_resolveWithin_search hint hg n hi' hb' ?_
          rw [if_pos hc] at hn
          omega
    · by_cases hgen : (s.symbols.get op).has .genericOp = true
      · simp only [hgen, Bool.not_true, Bool.false_eq_true, if_false] at hR ⊢
        by_cases hc : types.canonical t ≠ t
        · rw [if_pos hc] at hR ⊢
          rw [ends_bind]
          refine (hdefer hc).mono fun r s' hr => ?_
          have hs : Search _ _ t (passOn true r.1.outcome) _ := .deferred hR hr.search
          rcases r with ⟨e | op', v'⟩
          · dsimp only
            rw [ends_bind]
            refine (ends_fail_total hint).mono ?_
            rintro x s'' ⟨hs'', e', hx, he⟩
            subst hs'' hx
            refine ⟨hr.toKeeps, ?_, by simp⟩
            change Search _ _ t (some e'.reason) _
            rw [he]
            exact hs
          · exact ⟨hr.toKeeps, hs, hr.pending⟩
        · rw [if_neg hc] at hR ⊢
          exact ends_refuse hint hself hR rfl
      · simp only [hgen, Bool.not_false, if_true] at hR ⊢
        exact ⟨hself, .granted hR, by simp⟩

end OpM

end Lifecycle
