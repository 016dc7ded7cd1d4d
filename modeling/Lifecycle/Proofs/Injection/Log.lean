import Lifecycle.Proofs.Injection.Later

/-!
# What injection notes

Besides the tree that it gives back, a rule leaves notes: variables that came into being, what the
open scopes collected, operators that were looked up, and answers to which types own something.
`Logs` says of a computation which values it gives and with which notes, for every state that it can
start in.
-/

namespace Lifecycle

variable {r : SymRef} {s s' : OpState}

/-- What a step of the pass leaves behind for later steps. -/
inductive Note where
  /-- A new variable of the routine. One that is `lent` is given away with what it holds. -/
  | fresh (lent : Bool) (r : SymRef) (s : Symbol)
  /-- The scope is to declare the symbol, of which the record may be known. -/
  | var (i : ScopeId) (r : SymRef) (s : Option Symbol)
  | reset (i : ScopeId) (n : Node)
  | final (i : ScopeId) (n : Node)
  | left (i : ScopeId)
  | op (r : SymRef)
  | magic (m : Magic) (r : SymRef)
  | asked (t : TypeId) (owning : Bool)

def Note.scope? : Note → Option ScopeId
  | .var i _ _ | .reset i _ | .final i _ | .left i => some i
  | _ => none

/-- A note that is neither about a scope nor announces a variable. -/
def Note.isRemark : Note → Bool
  | .op _ | .magic _ _ | .asked _ _ => true
  | _ => false

abbrev Log := List Note

namespace Log

def vars (i : ScopeId) (l : Log) : List (SymRef × Option Symbol) :=
  l.filterMap fun
    | .var j r s => if j = i then some (r, s) else none
    | _ => none

def resets (i : ScopeId) (l : Log) : List Node :=
  l.filterMap fun
    | .reset j n => if j = i then some n else none
    | _ => none

def finals (i : ScopeId) (l : Log) : List Node :=
  l.filterMap fun
    | .final j n => if j = i then some n else none
    | _ => none

def fresh (l : Log) : List SymRef :=
  l.filterMap fun
    | .fresh _ r _ => some r
    | _ => none

def left (i : ScopeId) (l : Log) : Bool :=
  l.any fun
    | .left j => j = i
    | _ => false

def outside (i : ScopeId) (l : Log) : Log := l.filter fun e => e.scope? ≠ some i

/-- What is noted for the scope around one that can be left before its end. -/
def passed (parent : Option ScopeId) (early : Bool) : Log :=
  if early then parent.toList.map .left else []

def closed (parent : Option ScopeId) (i : ScopeId) (l : Log) : Log :=
  outside i l ++ passed parent (left i l)

variable {i : ScopeId} {l l' : Log} {parent : Option ScopeId} {j : ScopeId}

@[simp] theorem fresh_nil : fresh [] = [] := rfl

@[simp] theorem fresh_append : fresh (l ++ l') = fresh l ++ fresh l' := List.filterMap_append

theorem mem_left : left i l = true ↔ .left i ∈ l := by
  simp only [left, List.any_eq_true]
  constructor
  · rintro ⟨e, he, h⟩
    cases e with
    | left j => exact of_decide_eq_true h ▸ he
    | _ => cases h
  · exact fun h => ⟨_, h, decide_eq_true rfl⟩

theorem mem_passed (h : e ∈ passed parent early) : ∃ p, e = .left p ∧ parent = some p := by
  unfold passed at h
  split_ifs at h
  · obtain ⟨p, hp, rfl⟩ := List.mem_map.1 h
    exact ⟨p, rfl, Option.mem_toList.1 hp⟩
  · cases h

theorem mem_filterMap_iff {α : Type} {f : Note → Option α} {a : α} {e : Note}
    (hf : ∀ e', f e' = some a ↔ e' = e) : a ∈ l.filterMap f ↔ e ∈ l := by
  simp [List.mem_filterMap, hf]

theorem mem_vars {s : Option Symbol} : (r, s) ∈ vars i l ↔ .var i r s ∈ l :=
  mem_filterMap_iff fun e => by cases e <;> simp

theorem mem_resets : n ∈ resets i l ↔ .reset i n ∈ l :=
  mem_filterMap_iff fun e => by cases e <;> simp

theorem mem_finals : n ∈ finals i l ↔ .final i n ∈ l :=
  mem_filterMap_iff fun e => by cases e <;> simp

theorem mem_fresh : r ∈ fresh l ↔ ∃ lent s, .fresh lent r s ∈ l := by
  simp only [fresh, List.mem_filterMap]
  constructor
  · rintro ⟨e, he, h⟩
    cases e with
    | fresh lent r' s =>
      obtain rfl := Option.some.inj h
      exact ⟨lent, s, he⟩
    | _ => cases h
  · rintro ⟨lent, s, h⟩
    exact ⟨_, h, rfl⟩

theorem filterMap_outside {α : Type} {f : Note → Option α}
    (hf : ∀ e, e.scope? = some i → f e = none) : (outside i l).filterMap f = l.filterMap f := by
  rw [outside, List.filterMap_filter]
  refine congrArg (List.filterMap · l) (funext fun e => ?_)
  by_cases he : e.scope? = some i
  · simp [hf e he]
  · simp [he]

theorem filterMap_passed {α : Type} {f : Note → Option α} (hf : ∀ j, f (.left j) = none)
    {early : Bool} : (passed parent early).filterMap f = [] :=
  List.filterMap_eq_nil_iff.2 fun e he => by
    obtain ⟨p, rfl, -⟩ := mem_passed he
    exact hf p

theorem closed_none : closed none i l = outside i l := by
  cases h : left i l <;> simp [closed, passed]

theorem fresh_closed : fresh (closed parent i l) = fresh l := by
  have ho : fresh (outside i l) = fresh l :=
    filterMap_outside fun e he => by cases e <;> first | rfl | cases he
  have hp : fresh (passed parent (left i l)) = [] := filterMap_passed fun _ => rfl
  rw [closed, fresh_append, ho, hp, List.append_nil]

theorem fresh_eq_nil (hl : ∀ e ∈ l, e.isRemark = true ∨ e.scope? = some i) : fresh l = [] :=
  List.filterMap_eq_nil_iff.2 fun e he => by
    have := hl e he
    cases e <;> simp_all [Note.isRemark, Note.scope?]

end Log

namespace OpState

def Recalls (types : TypeTable) (s : OpState) (t : TypeId) (b : Bool) : Prop :=
  if types.isEmpty t then b = false else s.table.lifetime.get? t = some b

theorem Later.recalls (h : s.Later types s') (ha : s.Recalls types t b) : s'.Recalls types t b := by
  unfold Recalls at ha ⊢
  split_ifs with he
  · rwa [if_pos he] at ha
  · rw [if_neg he] at ha
    exact h.lifetime t b ha

/-- The symbol is there and is what it was noted as, but for flags. -/
def Has (s : OpState) (r : SymRef) (x : Symbol) : Prop :=
  r < s.symbols.all.size ∧ x.Marked (s.symbols.get r)

theorem Later.has (h : s.Later types s') (hx : s.Has r x) : s'.Has r x :=
  ⟨Nat.lt_of_lt_of_le hx.1 h.symbols.size_le, hx.2.trans (h.symbols.marked hx.1)⟩

end OpState

def Note.Holds (types : TypeTable) (s : OpState) : Note → Prop
  | .fresh _ r x => s.Has r x
  | .var _ r x => ∀ y ∈ x, s.Has r y
  | .op r => s.IsHook r
  | .magic m r => s.table.magics.get? m = some r
  | .asked t b => s.Recalls types t b
  | .reset _ _ | .final _ _ | .left _ => True

theorem Note.Holds.later {e : Note} (h : e.Holds types s) (hs : s.Later types s') :
    e.Holds types s' := by
  cases e with
  | fresh _ _ _ => exact hs.has h
  | var _ _ _ => exact fun y hy => hs.has (h y hy)
  | op r => exact hs.isHook h
  | magic m r => exact hs.magics m r h
  | asked t b => exact hs.recalls h
  | reset _ _ | final _ _ | left _ => trivial

namespace Scope

/-- What the scope `i` has collected after one more note. -/
def take (i : ScopeId) (sc : Scope) : Note → Scope
  | .var j r _ => if j = i then { sc with vars := sc.vars ++ [r] } else sc
  | .reset j n => if j = i then { sc with resets := sc.resets ++ [n] } else sc
  | .final j n => if j = i then { sc with finals := sc.finals ++ [n] } else sc
  | .left j => if j = i then { sc with leftEarly := true } else sc
  | _ => sc

def Took (sc : Scope) (i : ScopeId) (l : Log) (sc' : Scope) : Prop := sc' = l.foldl (take i) sc

variable {sc sc' sc'' : Scope} {i j : ScopeId} {l l' : Log}

theorem take_of_ne (h : e.scope? ≠ some i) : sc.take i e = sc := by
  cases e <;> simp_all [take, Note.scope?]

theorem Took.append (h : sc.Took i l sc') (h' : sc'.Took i l' sc'') : sc.Took i (l ++ l') sc'' := by
  rw [Took, List.foldl_append, ← h, h']

theorem took_nothing (sc : Scope) (h : ∀ e ∈ l, e.scope? ≠ some i) : sc.Took i l sc := by
  induction l with
  | nil => rfl
  | cons e l ih =>
    rw [Took, List.foldl_cons, take_of_ne (h e (by simp))]
    exact ih fun e he => h e (by simp [he])

/-- Closing one scope leaves the others what they had. -/
theorem Took.outside (h : sc.Took j l sc') (hij : i ≠ j) : sc.Took j (l.outside i) sc' := by
  rw [Took] at h ⊢
  induction l generalizing sc with
  | nil => exact h
  | cons e l ih =>
    rw [Log.outside, List.filter_cons]
    split_ifs with he
    · exact ih h
    · refine ih ?_
      rwa [List.foldl_cons, take_of_ne] at h
      have hi : e.scope? = some i := by simpa using he
      simp [hi, hij]

theorem Took.eq (h : sc.Took i l sc') : sc' = { sc with
    vars := sc.vars ++ (l.vars i).map Prod.fst, resets := sc.resets ++ l.resets i,
    finals := sc.finals ++ l.finals i, leftEarly := sc.leftEarly || l.left i } := by
  rw [Took] at h
  induction l generalizing sc with
  | nil => simp [h, Log.vars, Log.resets, Log.finals, Log.left]
  | cons e l ih =>
    rw [ih h]
    cases e <;> simp [take, Log.vars, Log.resets, Log.finals, Log.left] <;> split_ifs <;> simp_all

end Scope

namespace InjectState

/-- From one state to the other exactly what the notes say was added to the scopes, and the notes
are true. -/
structure After (types : TypeTable) (st : InjectState) (l : Log) (st' : InjectState) : Prop where
  ops : st.ops.Later types st'.ops
  depth : st'.scopes.length = st.scopes.length
  scope : ∀ {i : ScopeId} {sc : Scope}, st.scopes[i]? = some sc → ∃ sc', st'.scopes[i]? = some sc' ∧
    sc.Took i l sc'
  within : ∀ e ∈ l, ∀ i, e.scope? = some i → i < st.scopes.length
  holds : ∀ e ∈ l, e.Holds types st'.ops
  fresh : l.fresh.Pairwise (· < ·)
  new : ∀ r ∈ l.fresh, st.ops.symbols.all.size ≤ r ∧ r < st'.ops.symbols.all.size

namespace After

variable {types : TypeTable} {st st' st'' : InjectState} {l l' : Log}

theorem silent (ho : st.ops.Later types st'.ops) (hs : st'.scopes = st.scopes) :
    After types st [] st' where
  ops := ho
  depth := by rw [hs]
  scope {i sc} h := ⟨sc, by rw [hs]; exact h, rfl⟩
  within := by simp
  holds := by simp
  fresh := .nil
  new := by simp

theorem append (h : After types st l st') (h' : After types st' l' st'') :
    After types st (l ++ l') st'' where
  ops := h.ops.trans h'.ops
  depth := h'.depth.trans h.depth
  scope {i sc} hi := by
    obtain ⟨sc', hi', ht⟩ := h.scope hi
    obtain ⟨sc'', hi'', ht'⟩ := h'.scope hi'
    exact ⟨sc'', hi'', ht.append ht'⟩
  within e he i hi := by
    rcases List.mem_append.1 he with he | he
    · exact h.within e he i hi
    · exact h.depth ▸ h'.within e he i hi
  holds e he := by
    rcases List.mem_append.1 he with he | he
    · exact (h.holds e he).later h'.ops
    · exact h'.holds e he
  fresh := by
    rw [Log.fresh_append]
    refine List.pairwise_append.2 ⟨h.fresh, h'.fresh, fun a ha b hb => ?_⟩
    exact Nat.lt_of_lt_of_le (h.new a ha).2 (h'.new b hb).1
  new r hr := by
    rw [Log.fresh_append] at hr
    rcases List.mem_append.1 hr with hr | hr
    · exact ⟨(h.new r hr).1, Nat.lt_of_lt_of_le (h.new r hr).2 h'.ops.symbols.size_le⟩
    · exact ⟨Nat.le_trans h.ops.symbols.size_le (h'.new r hr).1, (h'.new r hr).2⟩

theorem remarks (h : After types st [] st') (hl : ∀ e ∈ l, e.isRemark)
    (ht : ∀ e ∈ l, e.Holds types st'.ops) : After types st l st' := by
  have hf : l.fresh = [] := Log.fresh_eq_nil (i := 0) fun e he => .inl (hl e he)
  have hscope : ∀ e ∈ l, ∀ i, e.scope? ≠ some i := fun e he i hi => by
    have := hl e he
    cases e <;> simp [Note.isRemark, Note.scope?] at this hi
  refine ⟨h.ops, h.depth, ?_, fun e he i hi => absurd hi (hscope e he i), ht, ?_, ?_⟩
  · intro i sc hi
    obtain ⟨sc', hi', ht⟩ := h.scope hi
    exact ⟨sc', hi', ht.append (Scope.took_nothing sc' fun e he => hscope e he i)⟩
  · rw [hf]
    exact .nil
  · rw [hf]
    simp

theorem forget (h : After types st l st') (hl : ∀ e ∈ l, e.isRemark) : After types st [] st' := by
  refine ⟨h.ops, h.depth, ?_, by simp, by simp, .nil, by simp⟩
  intro i sc hi
  obtain ⟨sc', hi', ht⟩ := h.scope hi
  refine ⟨sc', hi', ht.trans (Eq.symm (Scope.took_nothing sc fun e he hi => ?_))⟩
  have := hl e he
  cases e <;> simp [Note.isRemark, Note.scope?] at this hi

end After

end InjectState

end Lifecycle
