import Lifecycle.Proofs.Injection.Questions

/-!
# Where code can be left

`exits` says of a tree that its evaluation may end early: it contains a `return`, a `raise`, a
`break` or a call that may raise.
-/

namespace Lifecycle

open Node

/-- What a routine is worked through with: the types, and what the operators know at the outset. -/
structure Outset where
  types : TypeTable
  ops : OpState

/-- The types are those of the outset, and its symbols have kept their places and records. -/
structure Outset.Holds (o : Outset) (types : TypeTable) (ss : Symbols) : Prop where
  types_eq : types = o.types
  size_le : o.ops.symbols.all.size ≤ ss.all.size
  marked : ∀ {r}, r < o.ops.symbols.all.size → (o.ops.symbols.get r).Marked (ss.get r)

namespace Outset

variable (o : Outset)

def raises (n : Node) : Bool :=
  match mayRaise o.ops.symbols o.types n with
  | .ok b => b
  | .error _ => false

def isRuntime (v : Node) : Bool :=
  match v.head?.bind (·.sym) with
  | some r => r < o.ops.symbols.all.size && !(o.ops.symbols.get r).has .compileTime
  | none => false

mutual

/-- Whether control can leave the tree before its end. -/
def exits : Node → Bool
  | .hole => false
  | .node h ks =>
    match h.kind with
    | .returnStmt | .raiseStmt | .breakStmt => true
    | .empty | .sym | .intLit | .strLit | .boolLit | .nilLit => false
    | .call =>
      match ks with
      | [] => false
      | callee :: args =>
        o.raises (.node h ks) || exits callee || exitsArgs (callee.calleeParams o.types) args
    | .dot =>
      match ks with
      | [] => false
      | k :: _ => exits k
    | .closure | .fieldInit | .block =>
      match ks with
      | [] => false
      | _ :: ks => exitsAll ks
    | .identDefs =>
      match ks with
      | [] => false
      | v :: ks => o.isRuntime v && exitsAll ks
    | .ofBranch => exitsLast ks
    | _ => exitsAll ks

def exitsAll : List Node → Bool
  | [] => false
  | k :: ks => exits k || exitsAll ks

/-- An argument for a parameter that exists only before the program runs is not evaluated. -/
def exitsArgs (ps : List Param) : List Node → Bool
  | [] => false
  | a :: as => (!ps.head?.any (·.compileTime) && exits a) || exitsArgs ps.tail as

def exitsLast : List Node → Bool
  | [] => false
  | [k] => exits k
  | _ :: ks => exitsLast ks

end

variable {o} {h : Head} {n k : Node} {ks js : List Node}

@[simp] theorem exitsAll_cons : o.exitsAll (k :: ks) = (o.exits k || o.exitsAll ks) := rfl

@[simp] theorem exitsAll_nil : o.exitsAll [] = false := rfl

theorem exitsAll_iff : o.exitsAll ks = true ↔ ∃ k ∈ ks, o.exits k = true := by
  induction ks with
  | nil => simp
  | cons k ks ih => simp [ih]

@[simp] theorem exitsAll_append : o.exitsAll (ks ++ js) = (o.exitsAll ks || o.exitsAll js) := by
  induction ks with
  | nil => simp
  | cons k ks ih => simp [ih, Bool.or_assoc]

@[simp] theorem exitsLast_append {ks : List Node} : o.exitsLast (ks ++ [k]) = o.exits k := by
  induction ks with
  | nil => rfl
  | cons j ks ih =>
    rw [List.cons_append, exitsLast]
    · exact ih
    · simp

theorem exits_of_kind
    (hk : n.isKind .sym = true ∨ n.isKind .intLit = true ∨ n.isKind .empty = true) :
    o.exits n = false := by
  cases n with
  | hole => rfl
  | node h ks =>
    have hk : h.kind = .sym ∨ h.kind = .intLit ∨ h.kind = .empty := by
      simpa using hk
    unfold exits
    rcases hk with hk | hk | hk <;> rw [hk]

theorem raises_later (hs : ∀ r, (o.ops.symbols.get r).has .canRaise = true →
    (ss.get r).has .canRaise = true) (hr : o.raises n = true)
    (hb : mayRaise ss o.types n = .ok b) : b = true := by
  have hr : mayRaise o.ops.symbols o.types n = .ok true := by
    rw [raises] at hr
    split at hr
    · rename_i he
      rw [he, hr]
    · cases hr
  obtain ⟨hd, hi, hr⟩ := bind_eq_ok.1 hr
  obtain ⟨_, hi', hb⟩ := bind_eq_ok.1 hb
  cases hi.symm.trans hi'
  split_ifs at hr hb with hk
  · cases hr
  obtain ⟨k, hkid, hr⟩ := bind_eq_ok.1 hr
  obtain ⟨_, hkid', hb⟩ := bind_eq_ok.1 hb
  cases hkid.symm.trans hkid'
  obtain ⟨callee, hc, hr⟩ := bind_eq_ok.1 hr
  obtain ⟨_, hc', hb⟩ := bind_eq_ok.1 hb
  cases hc.symm.trans hc'
  by_cases hflag : (decide (callee.kind = .sym) && ss.has callee.sym .canRaise) = true
  · rw [if_pos hflag] at hb
    exact (pure_eq_ok.1 hb).symm
  rw [if_neg hflag] at hb
  -- a flag that is there at the outset stays
  have hold : ¬ (decide (callee.kind = .sym) && o.ops.symbols.has callee.sym .canRaise) = true := by
    intro hold
    rw [Bool.and_eq_true] at hold hflag
    refine hflag ⟨hold.1, ?_⟩
    rcases hsym : callee.sym with _ | r
    · rw [hsym] at hold
      cases hold.2
    · rw [hsym] at hold
      exact hs r hold.2
  rw [if_neg hold] at hr
  rw [hr] at hb
  exact (Except.ok.inj hb).symm

end Outset

/-! ## Locations -/

/-- Every index is a name or a number. -/
def Node.PlainlyIndexed (n : Node) : Prop :=
  ∀ m ∈ n.preorder, m.isKind .index = true →
    ∃ i, m.kids[1]? = some i ∧ (i.isKind .sym = true ∨ i.isKind .intLit = true)

theorem Node.PlainlyIndexed.kids {h : Head} {ks : List Node}
    (hp : (Node.node h ks).PlainlyIndexed) : ∀ k ∈ ks, k.PlainlyIndexed := fun _ hk m hm =>
  hp m (List.mem_cons_of_mem _ (mem_preorderAll.2 ⟨_, hk, hm⟩))

theorem Node.PlainlyIndexed.index {h : Head} {a i : Node} (hp : (Node.node h [a, i]).PlainlyIndexed)
    (hk : h.kind = .index) : i.isKind .sym = true ∨ i.isKind .intLit = true := by
  obtain ⟨j, hj, hi⟩ := hp _ (List.mem_cons_self ..) (by simp [hk])
  obtain rfl : i = j := by simpa [Node.kids] using hj
  exact hi

namespace Outset

variable {o : Outset} {ss : Symbols} {h : Head} {n k : Node} {ks : List Node}

theorem exits_step (hw : (Node.node h (k :: ks)).WellFormed ss)
    (hk : h.kind = .dot ∨ h.kind = .deref ∨ h.kind = .addr ∨ h.kind = .conv ∨ h.kind = .upConv ∨
      h.kind = .downConv ∨ h.kind = .cast) : o.exits (.node h (k :: ks)) = o.exits k := by
  have hl := hw.node.1
  rcases hk with hk | hk | hk | hk | hk | hk | hk
  · conv_lhs => unfold exits
    rw [hk]
  all_goals
    simp only [layoutFaults, hk, Except.ok.injEq] at hl
    obtain ⟨k', hks⟩ := one_of_wantKids hl
    cases hks
    conv_lhs => unfold exits
    rw [hk]
    simp

theorem exits_element (hk : h.kind = .index)
    (hi : i.isKind .sym = true ∨ i.isKind .intLit = true) :
    o.exits (.node h [a, i]) = o.exits a := by
  conv_lhs => unfold exits
  rw [hk]
  simp [exits_of_kind (hi.imp_right .inl)]

theorem exits_isPlace (hn : n.IsPlace) (hw : n.WellFormed ss) (hp : n.PlainlyIndexed) :
    o.exits n = false := by
  induction hn with
  | name hk => exact exits_of_kind (.inl (by simp [hk]))
  | @part h k ks hk _ ih =>
    have hrest := ih (hw.kids k (by simp)) (hp.kids k (by simp))
    by_cases hidx : h.kind = .index
    · obtain ⟨a, i, hks⟩ := hw.pair (by simp [layoutFaults, hidx])
      cases hks
      rw [exits_element hidx (hp.index hidx), hrest]
    · rw [exits_step hw, hrest]
      revert hk hidx
      cases h.kind <;> simp [stepsInto]

end Outset

end Lifecycle
