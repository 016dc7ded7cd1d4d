import Lifecycle.Proofs.Operators.Resolve

/-!
# What earlier questions change

Operators that were made up are remembered. While one is made up, the types being worked on are
taken for granted; if one of them is refused in the end, what was made up from it stays. So a search
can succeed after other questions were asked and fail where they were not. `verdict_askAll` says
when this happens: earlier questions leave all searches for an operation alone just when every
operator made up for it is one that the declarations provide, and only a search that failed can have
made up others.
-/

namespace Lifecycle

open Ruling

/-- A question about the operators of a type. -/
inductive OpQuery where
  | resolve (type : TypeId) (kind : OpKind)
  | needsLifecycle (type : TypeId)
  | canMove (type : TypeId)
  | branchDestroy (type : TypeId)
deriving DecidableEq

/-- The question looks for this operator. -/
def OpQuery.Seeks : OpQuery → TypeId → OpKind → Prop
  | .resolve t k, t', k' => t = t' ∧ k = k'
  | .canMove t, t', k' => t = t' ∧ .sink = k'
  | .needsLifecycle _, _, _ => False
  | .branchDestroy _, _, _ => False

namespace OpState

def leftBy {α : Type} : EStateM.Result Fault OpState α → OpState
  | .ok _ s => s
  | .error _ s => s

/-- The state after a question. -/
def ask (types : TypeTable) (s : OpState) : OpQuery → OpState
  | .resolve t k => leftBy (OpM.resolve types t k s)
  | .needsLifecycle t => leftBy (OpM.needsLifecycle types t s)
  | .canMove t => leftBy (OpM.canMove types t s)
  | .branchDestroy t => leftBy (OpM.branchDestroy types t s)

def askAll (types : TypeTable) (s : OpState) (qs : List OpQuery) : OpState := qs.foldl (ask types) s

/-- How a search for an operator comes out: `none` when it succeeds, or the reason why not. -/
def verdict (types : TypeTable) (s : OpState) (t : TypeId) (k : OpKind) : Except Fault Outcome :=
  match OpM.resolve types t k s with
  | .ok r _ => .ok r.outcome
  | .error f _ => .error f

/-- Nothing is remembered yet. -/
structure Unasked (s : OpState) : Prop where
  synth : s.table.synth = {}
  lifetime : s.table.lifetime = {}

variable {types : TypeTable} {s s' s0 : OpState} {k : OpKind} {t : TypeId}

theorem Unasked.informed (h : s.Unasked) : s.Informed types := by
  intro t v hv
  rw [h.lifetime] at hv
  cases hv

theorem Unasked.grants (h : s.Unasked) : s.grants k [] = ∅ := by
  simp [OpState.grants, h.synth, Dict.contains, Dict.get?]

theorem leftBy_of_ends {α : Type} {r : EStateM.Result Fault OpState α} {Q : OpState → Prop}
    (h : Ends False r fun _ s => Q s) : Q (leftBy r) := by
  cases r with
  | ok a s => exact h
  | error e s => exact h.elim

/-! ## One question -/

/-- What a question `q` may do: the declarations stay, what is remembered of lifecycles is right,
and a new operator was met on a search for it. -/
structure Answers (types : TypeTable) (q : OpQuery) (s s' : OpState) : Prop where
  same : SameDecls s s'
  informed : s'.Informed types
  made : ∀ {u k}, s'.table.synth.contains (u, k) = true → s.table.synth.contains (u, k) = true ∨
    ∃ t o D', q.Seeks t k ∧ Search (s.ruling types k) (s.grants k []) t o D' ∧ u ∈ D'

theorem Answers.of_synth {q : OpQuery} (hs : SameDecls s s') (hi : s'.Informed types)
    (hy : s'.table.synth = s.table.synth) : Answers types q s s' :=
  ⟨hs, hi, fun hx => .inl (by rwa [← hy])⟩

section Questions

variable (hint : types.Intact) (hg : types.Grounded) (hi : s.Informed types)

include hint hg hi

theorem ends_resolve_search (t : TypeId) (k : OpKind) :
    Ends False (OpM.resolve types t k s) fun r s' =>
      ∃ visiting, OpM.Comes types k s [] t (r, visiting) s' := by
  rw [OpM.resolve, OpM.ends_bind]
  refine (OpM.ends_resolveWithin_search hint hg _ hi OpM.busy_nil ?_).mono fun r s' h => ⟨r.2, h⟩
  omega

theorem ends_resolve_answers {q : OpQuery} (hq : q.Seeks t k) :
    Ends False (OpM.resolve types t k s) fun _ s' => Answers types q s s' := by
  refine (ends_resolve_search hint hg hi t k).mono fun r s' ⟨v, h⟩ => ⟨h.same, h.informed, ?_⟩
  intro u k' hx
  refine (h.made hx).imp id fun hv => ?_
  obtain rfl : k' = k := (h.busy.known _ hv).1
  exact ⟨t, _, _, hq, h.search, .inl hv⟩

theorem answers_ask (q : OpQuery) : Answers types q s (s.ask types q) := by
  cases q with
  | resolve t k => exact leftBy_of_ends (ends_resolve_answers hint hg hi ⟨rfl, rfl⟩)
  | needsLifecycle t =>
    refine leftBy_of_ends ((OpM.ends_needsLifecycle_iff hint hg hi t).mono fun _ s' h => ?_)
    exact .of_synth h.2.1.sameDecls h.2.2 h.2.1.synth
  | canMove t =>
    refine leftBy_of_ends ?_
    rw [OpM.canMove, OpM.ends_bind]
    have hq : (OpQuery.canMove t).Seeks t .sink := ⟨rfl, rfl⟩
    refine (ends_resolve_answers hint hg hi hq).mono fun r s' h => ?_
    cases r with
    | ok op => exact h
    | error e => exact h
  | branchDestroy t =>
    refine leftBy_of_ends ?_
    have hself : Answers types (.branchDestroy t) s s := .of_synth (.refl s) hi rfl
    rw [OpM.branchDestroy]
    rcases (types.object? (types.canonical t)).bind (·.variant) with _ | v
    · exact (OpM.ends_fail_total hint).mono fun _ s' h => h.1 ▸ hself
    · dsimp only
      rw [OpM.ends_bind, OpM.ends_get]
      rcases s.table.branch.get? (types.canonical t) with _ | op
      · simp only [OpM.ends_bind]
        refine OpM.ends_newRoutine_same.mono ?_
        rintro op s' ⟨hsame, htable⟩
        refine .of_synth ⟨hsame.user, hsame.disabled, hsame.generic⟩ ?_ (by simp only [htable])
        exact @Informed.congr types s _ hi hsame.user (by simp only [htable])
      · exact hself

theorem verdict_search (t : TypeId) (k : OpKind) :
    ∃ o D', s.verdict types t k = .ok o ∧ Search (s.ruling types k) (s.grants k []) t o D' := by
  obtain ⟨r, s', hr, v, h⟩ := (ends_resolve_search hint hg hi t k).exists
  exact ⟨_, _, by rw [verdict, hr], h.search⟩

/-- A type on which the search passes although nothing was asked before does not fail. -/
theorem not_fails_of_verdict (hs : s.Unasked) (hv : s.verdict types t k = .ok o)
    (ho : Passes o) : ¬ Fails (s.ruling types k) t := by
  obtain ⟨o', D', hv', h⟩ := verdict_search hint hg hi t k
  rw [hv] at hv'
  cases hv'
  exact (h.sound (by rw [hs.grants]; exact fun u hu => hu.elim) ho).1

end Questions

/-! ## Any number of questions -/

/-- After some questions: the declarations are those at the beginning, what is remembered of
lifecycles is right, and operators were made up only where the declarations leave it to that. -/
structure Asked (types : TypeTable) (s0 s : OpState) : Prop where
  same : SameDecls s0 s
  informed : s.Informed types
  composed : ∀ {t k}, s.table.synth.contains (t, k) = true →
    ∃ ps, s0.ruling types k t = .composed ps

theorem Unasked.asked (h : s.Unasked) : Asked types s s where
  same := .refl s
  informed := h.informed
  composed hx := by
    rw [h.synth] at hx
    cases hx

theorem Asked.answers (h : Asked types s0 s) (ha : Answers types q s s') : Asked types s0 s' where
  same := h.same.trans ha.same
  informed := ha.informed
  composed hx := by
    rcases ha.made hx with hx | ⟨t, o, D', _, hs, hu⟩
    · exact h.composed hx
    · rw [h.same.ruling] at hs
      rcases hs.composed _ hu with (hv | hx) | hc
      · cases hv
      · exact h.composed hx
      · exact hc

section History

variable (hint : types.Intact) (hg : types.Grounded)

include hint hg

theorem Asked.askAll (qs : List OpQuery) : ∀ {s : OpState}, Asked types s0 s →
    Asked types s0 (s.askAll types qs) := by
  induction qs with
  | nil => exact fun h => h
  | cons q qs ih => exact fun {s} h => ih (h.answers (answers_ask hint hg h.informed q))

/-- Searches that do not fail by the declarations make up only operators that these provide. -/
theorem Asked.sound : ∀ {s : OpState}, Asked types s0 s →
    (∀ q ∈ qs, ∀ t, q.Seeks t k → ¬ Fails (s0.ruling types k) t) →
    Sound (s0.ruling types k) (s.grants k []) →
    Sound (s0.ruling types k) ((s.askAll types qs).grants k []) := by
  induction qs with
  | nil => exact fun _ _ hs => hs
  | cons q qs ih =>
    intro s h hq hs
    have ha := answers_ask hint hg h.informed q
    refine ih (h.answers ha) (fun q' hq' => hq q' (by simp [hq'])) fun u hu => ?_
    rcases hu with hv | hu
    · cases hv
    · rcases ha.made hu with hx | ⟨t, o, D', hseeks, hsearch, hu⟩
      · exact hs u (.inr hx)
      · rw [h.same.ruling] at hsearch
        have hf := hq q (by simp) t hseeks
        exact ((hsearch.of_not_fails hf).2 u hu).elim (hs u) id

/-- Earlier questions never make a search fail that would succeed without them. They leave every
search for an operation alone just when each operator made up for it belongs to a type for which the
search succeeds without them; this is so whenever none of the questions ran into a refusal. -/
theorem verdict_askAll {s : OpState} (hs : s.Unasked) (qs : List OpQuery) (k : OpKind) :
    (∀ t, ∃ o, (s.askAll types qs).verdict types t k = .ok o) ∧
    (∀ t, s.verdict types t k = .ok none → (s.askAll types qs).verdict types t k = .ok none) ∧
    ((∀ t, (s.askAll types qs).verdict types t k = s.verdict types t k) ↔
      ∀ t, (s.askAll types qs).table.synth.contains (t, k) = true →
        s.verdict types t k = .ok none) ∧
    ((∀ q ∈ qs, ∀ t, q.Seeks t k →
        s.verdict types t k = .ok none ∨ s.verdict types t k = .ok (some .trivial)) →
      ∀ t, (s.askAll types qs).verdict types t k = s.verdict types t k) := by
  have ha : Asked types s (s.askAll types qs) := hs.asked.askAll hint hg qs
  generalize hs' : s.askAll types qs = s' at ha ⊢
  have hfirst := verdict_search hint hg hs.informed
  have hlater : ∀ t, ∃ o D', s'.verdict types t k = .ok o ∧
      Search (s.ruling types k) (s'.grants k []) t o D' := by
    intro t
    rw [← ha.same.ruling]
    exact verdict_search hint hg ha.informed t k
  have hok : ∀ {t o}, s.verdict types t k = .ok o → Passes o → ¬ Fails (s.ruling types k) t :=
    not_fails_of_verdict hint hg hs.informed hs
  -- where nothing that was made up fails, both searches come out alike
  have hsame : Sound (s.ruling types k) (s'.grants k []) →
      ∀ t, s'.verdict types t k = s.verdict types t k := by
    intro hsound t
    obtain ⟨o, D', hv, h⟩ := hfirst t k
    obtain ⟨o', D'', hv', h'⟩ := hlater t
    have hDE : Alike (s.ruling types k) (s'.grants k []) (s.grants k []) := by
      rw [hs.grants]
      exact fun u hu => ⟨fun hm => (hsound u hm hu).elim, fun hm => hm.elim⟩
    rw [hv, hv', (h'.alike h hDE).1]
  refine ⟨fun t => ?_, fun t hv => ?_, ⟨fun heq t hx => ?_, fun hall => hsame fun u hu => ?_⟩,
    fun hq => hsame ?_⟩
  · obtain ⟨o, -, hv, -⟩ := hlater t
    exact ⟨o, hv⟩
  · obtain ⟨o, D', hv', h⟩ := hlater t
    obtain ⟨o', D'', hv'', h'⟩ := hfirst t k
    rcases (h.of_not_fails (hok hv (.inl rfl))).1 with rfl | rfl
    · exact hv'
    · have := (h.bare rfl).search h'
      rw [hv, this] at hv''
      cases hv''
  · -- what was made up is found again
    obtain ⟨ps, hR⟩ := ha.composed hx
    obtain ⟨o, D', hv, h⟩ := hlater t
    rcases h.inv hR with ⟨-, rfl, -⟩ | ⟨hm, -⟩
    · rw [← heq, hv]
    · exact (hm (.inr hx)).elim
  · rcases hu with hv | hx
    · cases hv
    · exact hok (hall u hx) (.inl rfl)
  · subst hs'
    refine hs.asked.sound hint hg (fun q hqs t ht => ?_) (by rw [hs.grants]; exact fun u hu =>
      hu.elim)
    rcases hq q hqs t ht with hv | hv
    · exact hok hv (.inl rfl)
    · exact hok hv (.inr rfl)

end History

end OpState

/-! ## A tree with a lock -/

/-- Nodes (9) have children, a list (10) of nodes, and a lock (8). -/
def treeTypes : TypeTable :=
  let (lock, types) := TypeTable.initial.declareObject "Lock" (some [{ name := "h", type := 7 }])
  let (node, types) := types.declareObject "Node" none
  let (kids, types) := types.seq node
  types.setFields node (some [{ name := "kids", type := kids }, { name := "lock", type := lock }])

def locked : OpState := OpState.disable {} 8 .copy

/-- A list of nodes cannot be copied, because locks cannot; but it can once a node was asked for. -/
theorem verdict_changed_by_refusal :
    locked.verdict treeTypes 10 .copy = .ok (some .unavailable) ∧
      (locked.ask treeTypes (.resolve 9 .copy)).verdict treeTypes 10 .copy = .ok none := by
  decide +kernel

theorem verdict_askAll_tree : treeTypes.Intact ∧ treeTypes.Grounded ∧ locked.Unasked ∧
    ∀ t, (locked.askAll treeTypes [.needsLifecycle 8, .resolve 9 .destroy]).verdict treeTypes t
      .destroy = locked.verdict treeTypes t .destroy := by
  have hint : treeTypes.Intact := TypeTable.intact_of_known (by decide +kernel) (by decide +kernel)
  have hg : treeTypes.Grounded :=
    TypeTable.grounded_of_rank (fun t => if t = 9 then 2 else if t = 8 then 1 else 0)
      (by decide +kernel)
  have hs : locked.Unasked := ⟨rfl, rfl⟩
  refine ⟨hint, hg, hs, (OpState.verdict_askAll hint hg hs _ .destroy).2.2.2 ?_⟩
  intro q hq t ht
  simp only [List.mem_cons, List.not_mem_nil, or_false] at hq
  rcases hq with rfl | rfl
  · exact ht.elim
  · obtain ⟨rfl, -⟩ := ht
    exact .inl (by decide +kernel)

end Lifecycle
