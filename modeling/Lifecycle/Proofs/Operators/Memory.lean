import Lifecycle.Proofs.Injection.Later
import Lifecycle.Proofs.Operators.History

/-!
# What questions about lifecycles leave behind

Every question may go through the types for a lifecycle, and what is found out on the way is
remembered. So an answer can depend on what was asked before; `hasLifecycle_askAll` says when it
does.
-/

namespace Lifecycle

namespace OpState

variable {types : TypeTable} {I : OpState → Prop} {s s0 : OpState} {t : TypeId}

theorem leftBy_of_upholds {α : Type} {r : EStateM.Result Fault OpState α} {Q : α → OpState → Prop}
    (h : OpM.Upholds I r Q) : I (leftBy r) := by
  cases r with
  | ok a s => exact h.1
  | error e s => exact h

theorem keeps_ask (h : OpM.Enduring types I) (hs : I s) (q : OpQuery) : I (s.ask types q) := by
  cases q with
  | resolve t k => exact leftBy_of_upholds (h.resolve t k hs)
  | needsLifecycle t => exact leftBy_of_upholds (h.search t hs)
  | canMove t => exact leftBy_of_upholds (h.canMove t hs)
  | branchDestroy t => exact leftBy_of_upholds (h.branchDestroy t hs)

theorem keeps_askAll (h : OpM.Enduring types I) (qs : List OpQuery) :
    ∀ {s : OpState}, I s → I (s.askAll types qs) := by
  induction qs with
  | nil => exact id
  | cons q qs ih => exact fun hs => ih (keeps_ask h hs q)

/-- The answer whether values of the type have a lifecycle. -/
def hasLifecycle (types : TypeTable) (s : OpState) (t : TypeId) : Except Fault Bool :=
  match OpM.needsLifecycle types t s with
  | .ok v _ => .ok v
  | .error f _ => .error f

/-- What holds after any questions: the declarations are those of `s0`, and what is remembered is
not wrong about types that do not contain themselves. -/
structure Mindful (types : TypeTable) (s0 s : OpState) : Prop where
  user : s.table.user = s0.table.user
  disabled : s.table.disabled = s0.table.disabled
  prudent : s.Prudent types

theorem enduring_mindful (hint : types.Intact) (s0 : OpState) :
    OpM.Enduring types (Mindful types s0) where
  synth _ _ h := ⟨h.user, h.disabled, h.prudent.congr rfl rfl⟩
  branch h _ := ⟨h.user, h.disabled, h.prudent.congr rfl rfl⟩
  search t s h := by
    obtain ⟨v, s', hr, -, hl, hp⟩ := (OpM.ends_needsLifecycle_reaches hint h.prudent t).exists
    have hd : s'.table.disabled = s.table.disabled := by rw [hl.eq]
    rw [hr]
    exact ⟨⟨hl.user.trans h.user, hd.trans h.disabled, hp⟩, trivial⟩

theorem Unasked.mindful (h : s.Unasked) : Mindful types s s :=
  ⟨rfl, rfl, Informed.prudent h.informed⟩

theorem Prudent.hasLifecycle_eq (hint : types.Intact) (hp : s.Prudent types) (t : TypeId) :
    ∃ v, s.hasLifecycle types t = .ok v ∧ (v = true ↔ s.Reaches types t) := by
  obtain ⟨v, s', hr, hv, -⟩ := (OpM.ends_needsLifecycle_reaches hint hp t).exists
  exact ⟨v, by rw [hasLifecycle, hr], hv⟩

theorem Prudent.reaches (hp : s.Prudent types) (ha : Acc types.Inside t)
    (ho : s.Owning types t) : s.Reaches types t := by
  induction ha with
  | intro t hacc ih =>
    rcases hv : s.table.lifetime.get? t with _ | v
    · rcases hown : (s.table.hasUser t || types.ownsHeap t) with _ | _
      · obtain ⟨u, hu, ho⟩ := (owning_iff_part hown).1 ho
        exact .part hv hu (ih u ⟨(Bool.or_eq_false_iff.1 hown).2, hu⟩ ho)
      · exact .own hv hown
    · cases v with
      | true => exact .recalled hv
      | false => exact (hp.exact (.intro t hacc) hv ho).elim

/-- Before anything is asked, the answer is exactly whether a value owns something, itself or in a
part. After any questions an answer is always given, and it is by what is remembered; if it is yes,
it is right. It is still the answer from before for each type that does not contain itself, and it
is so for all types just when no type is remembered to have no lifecycle that has one. -/
theorem hasLifecycle_askAll (hint : types.Intact) (hs : s.Unasked) (qs : List OpQuery) :
    (∀ t, s.hasLifecycle types t = .ok true ↔ s.Owning types t) ∧
    (∀ t, ∃ v, (s.askAll types qs).hasLifecycle types t = .ok v ∧
      (v = true ↔ (s.askAll types qs).Reaches types t) ∧ (v = true → s.Owning types t)) ∧
    (∀ t, Acc types.Inside t →
      (s.askAll types qs).hasLifecycle types t = s.hasLifecycle types t) ∧
    ((∀ t, (s.askAll types qs).hasLifecycle types t = s.hasLifecycle types t) ↔
      ∀ t, (s.askAll types qs).table.lifetime.get? t = some false →
        s.hasLifecycle types t = .ok false) := by
  obtain ⟨hu, -, hp⟩ := keeps_askAll (enduring_mindful hint s) qs hs.mindful
  generalize s.askAll types qs = s' at hu hp ⊢
  have howning : ∀ {t}, s'.Owning types t ↔ s.Owning types t := owning_congr hu
  have hfirst : ∀ t, ∃ v, s.hasLifecycle types t = .ok v ∧ (v = true ↔ s.Owning types t) := by
    intro t
    obtain ⟨v, hv, hr⟩ := hs.mindful.prudent.hasLifecycle_eq hint t
    refine ⟨v, hv, hr.trans ⟨hs.mindful.prudent.owning, Owning.reaches fun {u} hf => ?_⟩⟩
    rw [hs.lifetime] at hf
    cases hf
  have hsame : ∀ t, (s.Owning types t → s'.Reaches types t) →
      s'.hasLifecycle types t = s.hasLifecycle types t := by
    intro t hreach
    obtain ⟨v, hv, ho⟩ := hfirst t
    obtain ⟨v', hv', hr⟩ := hp.hasLifecycle_eq hint t
    have : v' = true ↔ v = true :=
      ⟨fun h => ho.2 (howning.1 (hp.owning (hr.1 h))), fun h => hr.2 (hreach (ho.1 h))⟩
    rw [hv, hv', Bool.eq_iff_iff.2 this]
  refine ⟨fun t => ?_, fun t => ?_, fun t ha => ?_, fun h t hf => ?_, fun h t => ?_⟩
  · obtain ⟨v, hv, ho⟩ := hfirst t
    rw [hv, ← ho]
    simp
  · obtain ⟨v, hv, hr⟩ := hp.hasLifecycle_eq hint t
    exact ⟨v, hv, hr, fun h => howning.1 (hp.owning (hr.1 h))⟩
  · exact hsame t fun ho => hp.reaches ha (howning.2 ho)
  · obtain ⟨v, hv, hr⟩ := hp.hasLifecycle_eq hint t
    cases v with
    | false => rw [← h t, hv]
    | true =>
      cases hr.1 rfl with
      | recalled h => simp [hf] at h
      | own h => simp [hf] at h
      | part h => simp [hf] at h
  · refine hsame t fun ho => Owning.reaches (fun {u} hf hou => ?_) (howning.2 ho)
    obtain ⟨v, hv, hov⟩ := hfirst u
    rw [h u hf] at hv
    cases hv
    simpa using hov.2 (howning.1 hou)

end OpState

/-! ## Two types that contain each other -/

/-- A node (8) has an edge and a name, an edge (9) has a node, and there are lists (10) of nodes. A
graph (11) has such a list and a name. -/
def ringTypes : TypeTable :=
  let (node, types) := TypeTable.initial.declareObject "Node" none
  let (edge, types) := types.declareObject "Edge" (some [{ name := "to", type := node }])
  let types := types.setFields node (some [{ name := "edge", type := edge },
    { name := "name", type := 7 }])
  let (nodes, types) := types.seq node
  (types.declareObject "Graph" (some [{ name := "nodes", type := nodes },
    { name := "name", type := 7 }])).2

/-- An edge has a node in it, which has a name; but once a node was asked for, there is nothing to
destroy in an edge. -/
theorem lifecycle_lost :
    OpState.hasLifecycle ringTypes {} 9 = .ok true ∧
      (OpState.ask ringTypes {} (.needsLifecycle 8)).hasLifecycle ringTypes 9 = .ok false := by
  decide +kernel

theorem hasLifecycle_askAll_ring : ringTypes.Intact ∧ OpState.Unasked {} ∧
    ringTypes.partsOf 11 = [10, 7] ∧ Acc ringTypes.Inside 11 ∧
    (OpState.askAll ringTypes {} [.needsLifecycle 8, .resolve 9 .copy]).hasLifecycle ringTypes 11 =
      OpState.hasLifecycle ringTypes {} 11 := by
  have hint : ringTypes.Intact := TypeTable.intact_of_known (by decide +kernel) (by decide +kernel)
  have hs : OpState.Unasked {} := ⟨rfl, rfl⟩
  have hparts : ringTypes.partsOf 11 = [10, 7] := by decide +kernel
  have hlist : ringTypes.ownsHeap 10 = true := by decide +kernel
  have hname : ringTypes.ownsHeap 7 = true := by decide +kernel
  have ha : Acc ringTypes.Inside 11 := .intro _ fun u hu => .intro _ fun v hv => by
    have hu := hu.2
    have hheap := hv.1
    simp only [hparts, List.mem_cons, List.not_mem_nil, or_false] at hu
    rcases hu with rfl | rfl
    · simp [hlist] at hheap
    · simp [hname] at hheap
  exact ⟨hint, hs, hparts, ha, (OpState.hasLifecycle_askAll hint hs _).2.2.1 11 ha⟩

end Lifecycle
