import Lifecycle.Proofs.Operators.Memory

/-!
# Lifecycles and operators

Whether values of a type have to be destroyed and whether there is an operator for them is found out
in two ways. The two agree on every type that is not an instance. An instance that has operators of
its own over a body that needs none can be destroyed but is copied as plain memory
(`verdict_lifecycle`).
-/

namespace Lifecycle

open Ruling

namespace TypeTable

variable {types : TypeTable} {t : TypeId}

theorem lookup_of_canonical_ne (h : types.canonical t ≠ t) : (types.lookup t).isSome = true := by
  by_contra hl
  refine h (canonical_eq_self ?_)
  rw [kindOf, Option.not_isSome_iff_eq_none.1 hl]
  decide

end TypeTable

namespace OpState

variable {types : TypeTable} {s : OpState} {t : TypeId} {k : OpKind}

/-- Nobody declared or disabled the operator. -/
def Undeclared (s : OpState) (t : TypeId) (k : OpKind) : Prop :=
  s.table.disabled.contains (t, k) = false ∧ s.table.user.get? (t, k) = none

/-- Neither for the type nor for what stands in for it anything is said about the operation, and the
latter is known and found to have no lifecycle. -/
structure Lacks (types : TypeTable) (s : OpState) (k : OpKind) (t : TypeId) : Prop where
  type : s.Undeclared t k
  known : (types.lookup (types.canonical t)).isSome = true
  body : s.Undeclared (types.canonical t) k
  none : ¬ s.Reaches types (types.canonical t)

theorem Lacks.canonical (hc : types.canonical (types.canonical t) = types.canonical t)
    (h : s.Lacks types k t) : s.Lacks types k (types.canonical t) :=
  ⟨h.body, hc.symm ▸ h.known, hc.symm ▸ h.body, hc.symm ▸ h.none⟩

theorem owning_of_skipWithin : ∀ (n : Nat) {t : TypeId},
    s.Owning types (types.skipWithin (· = .genericInst) n t) → s.Owning types t
  | 0, _, h => h
  | n + 1, t, h => by
    rw [TypeTable.skipWithin] at h
    rcases hl : types.lookup t with _ | d
    · rwa [hl] at h
    · rw [hl] at h
      dsimp only at h
      split_ifs at h with hk
      · exact .part (TypeTable.inside_of_inst hl (by simpa using hk)).2 (owning_of_skipWithin n h)
      · exact h

theorem hasUser_of_get? (hk : k ∈ OpKind.named) (h : s.table.user.get? (t, k) = some op) :
    s.table.hasUser t = true :=
  List.any_eq_true.2 ⟨k, hk, by rw [Dict.contains, h]; rfl⟩

theorem Prudent.reaches_of_hasUser (hp : s.Prudent types) (h : s.table.hasUser t = true) :
    s.Reaches types t := by
  rcases hv : s.table.lifetime.get? t with _ | v
  · exact .own hv (by simp [h])
  · cases v with
    | true => exact .recalled hv
    | false => simpa [h] using hp.own hv

end OpState

namespace OpM

open OpState

variable {types : TypeTable} {s : OpState} {t : TypeId} {k : OpKind} {visiting : List OpKey}

theorem ends_resolveParts_error : ∀ (ts : List TypeId) (visiting : List OpKey) (s : OpState),
      Ends True (resolveParts types k visit ts visiting s) fun r _ =>
        ∀ e, r.1 = some e → e.reason ≠ .trivial
  | [], _, _ => nofun
  | t :: ts, visiting, s => by
    rw [resolveParts, ends_bind]
    refine (ends_any (r := needsLifecycle types t s)).mono fun v s1 _ => ?_
    split_ifs
    · rw [ends_bind]
      refine (ends_any (r := visit t visiting s1)).mono fun r s2 _ => ?_
      rcases r with ⟨e | op, visiting'⟩
      · dsimp only
        split_ifs with he
        · exact ends_resolveParts_error ts visiting' s2
        · exact fun e' h => by cases h; exact he
      · exact ends_resolveParts_error ts visiting' s2
    · exact ends_resolveParts_error ts visiting s1

/-- What the outcome `o` of a search says. The search cannot break off where there is nothing. -/
structure Tells (types : TypeTable) (s : OpState) (k : OpKind) (t : TypeId) (o : Outcome) :
    Prop where
  trivial : o = some .trivial ↔ s.Lacks types k t
  found : o = none → ∃ u, (u = t ∨ u = types.canonical t) ∧
    ((s.table.user.get? (u, k)).isSome = true ∨ u = types.canonical t ∧ s.Reaches types u)

theorem tells_declared (h : s.table.user.get? (t, k) = some op) : Tells types s k t none :=
  ⟨⟨fun h' => (by cases h'), fun hl => by simp [hl.type.2] at h⟩,
    fun _ => ⟨t, .inl rfl, .inl (by rw [h]; rfl)⟩⟩

section

variable (hint : types.Intact) (hp : s.Prudent types)

include hint

theorem ends_failWith_tells {α : Type} {u : TypeId} {s' : OpState} {r : OpReason} (x : α)
    (h : Tells types s k t (some r)) :
    Ends E ((do return (← fail types u k r, x) : OpM (OpResult × α)) s')
      fun r _ => Tells types s k t r.1.outcome := by
  obtain ⟨a, ha⟩ := hint.text u
  rw [fail, ha]
  exact h

theorem ends_failWith_refused {α : Type} {u : TypeId} {s' : OpState} {r : OpReason} (x : α)
    (hr : r ≠ .trivial) (hn : ¬ s.Lacks types k t) :
    Ends E ((do return (← fail types u k r, x) : OpM (OpResult × α)) s')
      fun r _ => Tells types s k t r.1.outcome :=
  ends_failWith_tells hint x
    ⟨⟨fun h => absurd (Option.some.inj h) hr, fun h => (hn h).elim⟩, nofun⟩

include hp

theorem ends_resolveWithin_self (hc : types.canonical t = t) (n : Nat) :
    Ends (¬ s.Lacks types k t) (resolveWithin types k (n + 1) t visiting s) fun r _ =>
      Tells types s k t r.1.outcome := by
  rw [resolveWithin, ends_bind, ends_get]
  by_cases hl : (types.lookup t).isNone = true
  · rw [if_pos hl]
    refine ends_failWith_refused hint visiting (by decide) fun h => ?_
    have := h.known
    rw [hc, Option.isNone_iff_eq_none.1 hl] at this
    cases this
  rw [if_neg hl]
  by_cases hd : s.table.disabled.contains (t, k) = true
  · rw [if_pos hd]
    exact ends_failWith_refused hint visiting (by decide) fun h => by simp [h.type.1] at hd
  rw [if_neg hd]
  rcases hu : s.table.user.get? (t, k) with _ | op
  · simp only [hc, ne_eq, not_true_eq_false, if_false]
    obtain ⟨v, s1, hr, hv, -⟩ := (ends_needsLifecycle_reaches hint hp t).exists
    rw [ends_bind, hr]
    cases v with
    | false =>
      refine ends_failWith_tells hint visiting ⟨⟨fun _ => ?_, fun _ => rfl⟩, by simp⟩
      have hund : s.Undeclared t k := ⟨by simpa using hd, hu⟩
      refine ⟨hund, ?_, ?_, ?_⟩ <;> rw [hc]
      · simpa [Option.isSome_iff_ne_none] using hl
      · exact hund
      · simpa using hv
    | true =>
      have hn : ¬ s.Lacks types k t := fun h => h.none (hc.symm ▸ hv.1 rfl)
      have hmade : ∀ {o}, o ≠ some .trivial → Tells types s k t o := fun ho =>
        ⟨⟨fun h => absurd h ho, fun h => (hn h).elim⟩, fun _ =>
          ⟨t, .inl rfl, .inr ⟨hc.symm, hv.1 rfl⟩⟩⟩
      obtain ⟨g, hgen⟩ := containsGenericParam_total hint t
      simp only [ends_ok, Bool.not_true, Bool.false_eq_true, if_false, hgen, ends_bind, ends_lift]
      cases g with
      | true => exact ends_failWith_refused hint visiting (by decide) hn
      | false =>
        rw [if_neg Bool.false_ne_true, compose, ends_bind, ends_get]
        rcases s1.table.synth.get? (t, k) with _ | op
        · dsimp only
          split_ifs
          · exact hmade (o := none) (by decide)
          · rw [ends_bind]
            refine (ends_any.imp fun _ => hn).mono fun ps s2 _ => ?_
            rw [ends_bind]
            refine ((ends_resolveParts_error ps _ s2).imp fun _ => hn).mono fun r s3 he => ?_
            rcases r with ⟨_ | e, visiting'⟩
            · exact hmade (o := none) (by decide)
            · rw [ends_bind, ends_lift]
              cases types.text t with
              | error f => exact hn
              | ok x => exact hmade (o := some e.reason) fun h => he e rfl (Option.some.inj h)
        · exact hmade (o := none) (by decide)
  · dsimp only
    by_cases hg : (!(s.symbols.get op).has .genericOp) = true
    · rw [if_pos hg]
      exact tells_declared hu
    · rw [if_neg hg, if_neg (by simp [hc])]
      exact ends_failWith_refused hint visiting (by decide) fun h => by simp [h.type.2] at hu

theorem ends_resolveWithin_tells (hc : types.canonical (types.canonical t) = types.canonical t)
    (n : Nat) : Ends (¬ s.Lacks types k t) (resolveWithin types k (n + 2) t visiting s) fun r _ =>
      Tells types s k t r.1.outcome := by
  by_cases hself : types.canonical t = t
  · exact ends_resolveWithin_self hint hp hself (n + 1)
  have hl := TypeTable.lookup_of_canonical_ne hself
  have hbody : Ends (¬ s.Lacks types k t)
      (resolveWithin types k (n + 1) (types.canonical t) visiting s) _ :=
    (ends_resolveWithin_self hint hp hc n).imp (mt (.canonical hc))
  rw [resolveWithin, ends_bind, ends_get, if_neg (by simpa [Option.isSome_iff_ne_none] using hl)]
  by_cases hd : s.table.disabled.contains (t, k) = true
  · rw [if_pos hd]
    exact ends_failWith_refused hint visiting (by decide) fun h => by simp [h.type.1] at hd
  rw [if_neg hd]
  rcases hu : s.table.user.get? (t, k) with _ | op
  · dsimp only
    rw [if_pos hself]
    refine hbody.mono fun r _ h => ⟨⟨fun ho => ?_, fun ho => h.trivial.2 (ho.canonical hc)⟩,
      fun ho => ?_⟩
    · have hlacks := h.trivial.1 ho
      exact ⟨⟨by simpa using hd, hu⟩, hc ▸ hlacks.known, hlacks.type, hc ▸ hlacks.none⟩
    · obtain ⟨u, hux, h⟩ := h.found ho
      rw [hc, or_self] at hux
      exact ⟨u, .inr hux, h.imp_right fun h => ⟨hux, h.2⟩⟩
  · dsimp only
    by_cases hg : (!(s.symbols.get op).has .genericOp) = true
    · rw [if_pos hg]
      exact tells_declared hu
    · rw [if_neg hg, if_pos hself, ends_bind]
      refine hbody.mono fun r s1 _ => ?_
      rcases r with ⟨e | x, visiting'⟩
      · exact ends_failWith_refused hint visiting' (by decide) fun h => by simp [h.type.2] at hu
      · exact tells_declared hu

end

end OpM

namespace OpState

variable {types : TypeTable} {s s' : OpState} {t : TypeId} {k : OpKind}

theorem verdict_eq (h : OpM.resolve types t k s = .ok r s') :
    s.verdict types t k = .ok r.outcome := by
  rw [verdict, h]

/-- A search that succeeds is for a type whose values own something. That is also found out, unless
the type is an instance that contains itself. A type that is found to own something is one for which
there is nothing to find only if it is an instance, neither it nor its body says anything about the
operation, and its body is found to own nothing. -/
theorem verdict_lifecycle (hint : types.Intact) (hs : s.Unasked) (qs : List OpQuery)
    (ht : types.kindOf (types.canonical t) ≠ .genericInst) (hk : k ∈ OpKind.named) :
    ((s.askAll types qs).verdict types t k = .ok none → s.Owning types t ∧
      (types.canonical t = t ∨ Acc types.Inside t →
        (s.askAll types qs).hasLifecycle types t = .ok true)) ∧
    ((s.askAll types qs).hasLifecycle types t = .ok true →
      ((s.askAll types qs).verdict types t k = .ok (some .trivial) ↔
        types.canonical t ≠ t ∧ s.Undeclared t k ∧
        (types.lookup (types.canonical t)).isSome = true ∧ s.Undeclared (types.canonical t) k ∧
        (s.askAll types qs).hasLifecycle types (types.canonical t) = .ok false)) := by
  obtain ⟨hu, hd, hp⟩ := keeps_askAll (enduring_mindful hint s) qs hs.mindful
  generalize s.askAll types qs = s' at hu hd hp ⊢
  have hc := TypeTable.canonical_eq_self ht
  have hanswer : ∀ t, s'.hasLifecycle types t = .ok true ↔ s'.Reaches types t := by
    intro t
    obtain ⟨v, hv, hr⟩ := hp.hasLifecycle_eq hint t
    rw [hv, ← hr]
    simp
  have hnot : ∀ t, s'.hasLifecycle types t = .ok false ↔ ¬ s'.Reaches types t := by
    intro t
    obtain ⟨v, hv, hr⟩ := hp.hasLifecycle_eq hint t
    rw [hv, ← hr]
    simp
  have hund : ∀ t, s'.Undeclared t k ↔ s.Undeclared t k := by
    intro t
    rw [Undeclared, Undeclared, hu, hd]
  have hends : Ends (¬ s'.Lacks types k t) (OpM.resolve types t k s') fun r _ =>
      OpM.Tells types s' k t r.outcome := by
    rw [OpM.resolve, OpM.ends_bind]
    exact OpM.ends_resolveWithin_tells hint hp hc (2 * types.size + 2)
  have htells : ∀ {o}, s'.verdict types t k = .ok o → OpM.Tells types s' k t o := by
    intro o ho
    cases hr : OpM.resolve types t k s' with
    | ok r s'' =>
      rw [verdict_eq hr] at ho
      exact Except.ok.inj ho ▸ hends.of_eq hr
    | error e s'' =>
      rw [verdict, hr] at ho
      cases ho
  refine ⟨fun ho => ?_, fun ht => ⟨fun ho => ?_, fun h => ?_⟩⟩
  · obtain ⟨u, hux, hfound⟩ := (htells ho).found rfl
    have hreach : s'.Reaches types u := by
      rcases hfound with h | h
      · obtain ⟨op, hop⟩ := Option.isSome_iff_exists.1 h
        exact hp.reaches_of_hasUser (hasUser_of_get? hk hop)
      · exact h.2
    have howning : s'.Owning types t := by
      rcases hux with rfl | rfl
      · exact hp.owning hreach
      · exact owning_of_skipWithin types.size (hp.owning hreach)
    refine ⟨(owning_congr hu).1 howning, fun h => (hanswer t).2 ?_⟩
    rcases h with h | h
    · rw [h, or_self] at hux
      exact hux ▸ hreach
    · exact hp.reaches h howning
  · have hlacks := (htells ho).trivial.1 rfl
    refine ⟨fun h => ?_, (hund t).1 hlacks.type, hlacks.known, (hund _).1 hlacks.body,
      (hnot _).2 hlacks.none⟩
    have hnone := hlacks.none
    rw [h] at hnone
    exact hnone ((hanswer t).1 ht)
  · obtain ⟨hne, htype, hknown, hbody, hno⟩ := h
    have hlacks : s'.Lacks types k t := ⟨(hund t).2 htype, hknown, (hund _).2 hbody, (hnot _).1 hno⟩
    obtain ⟨r, s'', hr, hout⟩ := (hends.imp fun h => h hlacks).exists
    exact (verdict_eq hr).trans (congrArg _ (hout.trivial.2 hlacks))

end OpState

/-! ## A handle -/

/-- Handles (9) are instances of an object (8) that only has a number. -/
def handleTypes : TypeTable :=
  let (body, types) := TypeTable.initial.declareObject "Handle" (some [{ name := "fd", type := 3 }])
  (types.instantiate "Handle" (some [3]) body).2

/-- A handle is closed where it is destroyed. Nothing is said about copies. -/
def closing : OpState :=
  OpState.register { symbols := { all := #[{ name := "=destroy", kind := .proc }] } } 9 .destroy 0

/-- Handles have to be destroyed, but they are copied as if they owned nothing. -/
theorem copied_as_plain : closing.hasLifecycle handleTypes 9 = .ok true ∧
    closing.verdict handleTypes 9 .copy = .ok (some .trivial) := by
  decide +kernel

theorem verdict_lifecycle_handle : handleTypes.Intact ∧ closing.Unasked ∧
    handleTypes.kindOf (handleTypes.canonical 9) ≠ .genericInst ∧ OpKind.destroy ∈ OpKind.named ∧
    (closing.askAll handleTypes [.needsLifecycle 8]).verdict handleTypes 9 .destroy = .ok none ∧
    closing.Owning handleTypes 9 := by
  have hint : handleTypes.Intact :=
    TypeTable.intact_of_known (by decide +kernel) (by decide +kernel)
  have hs : closing.Unasked := ⟨rfl, rfl⟩
  have ht : handleTypes.kindOf (handleTypes.canonical 9) ≠ .genericInst := by decide +kernel
  have hv : (closing.askAll handleTypes [.needsLifecycle 8]).verdict handleTypes 9 .destroy =
    .ok none := by decide +kernel
  exact ⟨hint, hs, ht, by decide, hv, ((OpState.verdict_lifecycle hint hs _ ht (by decide)).1 hv).1⟩

end Lifecycle
