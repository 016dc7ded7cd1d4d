import Lifecycle.Proofs.Injection.Even

/-!
# Counting calls

`callsTo f n` is the number of calls of the routine `f` in a tree. Injection writes some locations
down twice: one that it destroys before it stores, one that it moves from and resets. `single` says
of a tree that no call of `f` stands in such a location.
-/

namespace Lifecycle

namespace Node

mutual

/-- How many calls of `f` stand in the tree. -/
def callsTo (f : SymRef) : Node → Nat
  | .hole => 0
  | .node h ks =>
    (if h.kind = .call ∧ ks.head?.any (·.isSym (some f)) = true then 1 else 0) + callsToAll f ks

def callsToAll (f : SymRef) : List Node → Nat
  | [] => 0
  | k :: ks => k.callsTo f + callsToAll f ks

end

section Count

variable {f : SymRef} {h : Head} {n : Node} {ks js : List Node}

@[simp] theorem callsToAll_nil : callsToAll f [] = 0 := rfl

@[simp] theorem callsToAll_cons : callsToAll f (n :: ks) = n.callsTo f + callsToAll f ks := rfl

theorem callsTo_node_of_ne (hk : h.kind ≠ .call) : (node h ks).callsTo f = callsToAll f ks := by
  rw [callsTo, if_neg (fun hc => hk hc.1), Nat.zero_add]

end Count

end Node

/-! ## Locations that may be written down twice -/

namespace Node

/-- What calls are looked for in a routine, and what the operators know at the outset. -/
structure Watch where
  types : TypeTable
  ops : OpState
  routine : Option SymRef
  callee : SymRef

namespace Watch

def absent (w : Watch) (n : Node) : Bool := n.callsTo w.callee = 0

/-- The routine may come to move from the location: it owns the storage, or it is not known yet. -/
def mayMove (w : Watch) (n : Node) : Bool :=
  (match n.isOwnPlace w.ops.symbols w.routine with
    | .ok own => own
    | .error _ => false) ||
  match n.root? with
  | .ok (some s) => decide (w.ops.symbols.all.size ≤ s)
  | _ => false

/-- A name contains no call. What can be moved from contains none either: a stored location, and a
given one unless nobody ever destroys its values. -/
def placeOk (w : Watch) (fate : Fate) (h : Head) (ks : List Node) : Bool :=
  (h.kind ≠ .sym || w.absent (.node h ks)) &&
    match fate with
    | .read => true
    | .given => !w.mayMove (.node h ks) || w.absent (.node h ks) || w.ops.IsLifeless w.types h.type
    | .stored => !w.mayMove (.node h ks) || w.absent (.node h ks)

/-- A destination contains no call, unless its values are never destroyed and it is no tag. -/
def destOk (w : Watch) (dest : Node) : Bool :=
  w.absent dest ||
    match dest with
    | .hole => true
    | .node h ks =>
      (w.types.isEmpty h.type || w.ops.IsLifeless w.types h.type) &&
        !(h.kind = .dot && (ks[1]?.bind head?).any fun f => w.ops.symbols.has f.sym .discriminant)

def targetOk (w : Watch) : List Node → Bool
  | .node h _ :: target :: _ =>
    !(h.kind = .sym && h.sym.any fun s => (w.ops.symbols.get s).magic = .new) || w.absent target
  | _ => true

mutual

/-- No call stands in a location that may be written down twice. -/
def single (w : Watch) (fate : Fate) : Node → Bool
  | .hole => true
  | .node h ks =>
    w.placeOk fate h ks &&
      match h.kind with
      | .asgn | .fastAsgn =>
        match ks with
        | dest :: src => w.destOk dest && w.single .read dest && w.singleAll .stored src
        | [] => true
      | .identDefs | .returnStmt | .tryStmt => w.singleAll .stored ks
      | .call =>
        match ks with
        | callee :: args =>
          w.targetOk ks && w.single .read callee && w.singleArgs (callee.calleeParams w.types) args
        | [] => true
      | .objConstr | .arrayConstr | .tupleConstr | .closure | .fieldInit => w.singleAll .given ks
      | .conv | .upConv | .downConv | .cast =>
        w.singleAll (if fate = .read then .read else .given) ks
      | .stmtList | .stmtListExpr => w.singleLast fate ks
      | .block | .elifBranch | .elseBranch | .ofBranch | .exceptBranch => w.singleLast .stored ks
      | _ => w.singleAll .read ks

def singleAll (w : Watch) (fate : Fate) : List Node → Bool
  | [] => true
  | k :: ks => w.single fate k && w.singleAll fate ks

def singleArgs (w : Watch) (ps : List Param) : List Node → Bool
  | [] => true
  | a :: as =>
    w.single (if ps.head?.any (·.sink) then .given else .read) a && w.singleArgs ps.tail as

def singleLast (w : Watch) (fate : Fate) : List Node → Bool
  | [] => true
  | [k] => w.single fate k
  | k :: ks => w.single .read k && w.singleLast fate ks

end

variable {w : Watch} {fate : Fate} {h : Head} {n : Node} {ks : List Node}

theorem singleAll_iff : w.singleAll fate ks = true ↔ ∀ k ∈ ks, w.single fate k = true := by
  induction ks with
  | nil => simp [singleAll]
  | cons k ks ih => simp [singleAll, ih]

theorem placeOk_mono (hp : w.placeOk .stored h ks = true) : w.placeOk .given h ks = true := by
  simp only [placeOk, Bool.and_eq_true, Bool.or_eq_true] at hp ⊢
  exact ⟨hp.1, .inl hp.2⟩

theorem placeOk_read (hp : w.placeOk fate h ks = true) : w.placeOk .read h ks = true := by
  simp only [placeOk, Bool.and_eq_true] at hp ⊢
  exact ⟨hp.1, trivial⟩

mutual

theorem single_given : ∀ (n : Node), w.single .stored n = true → w.single .given n = true
  | .hole, _ => rfl
  | .node h ks, hs => by
    unfold single at hs ⊢
    rw [Bool.and_eq_true] at hs ⊢
    refine ⟨placeOk_mono hs.1, ?_⟩
    have hs := hs.2
    split at hs
    case h_16 | h_17 => exact singleLast_given ks hs
    all_goals exact hs

theorem singleLast_given : ∀ (ks : List Node), w.singleLast .stored ks = true →
    w.singleLast .given ks = true
  | [], _ => rfl
  | [k], hs => single_given k hs
  | k :: j :: ks, hs => by
    rw [singleLast, Bool.and_eq_true] at hs ⊢
    · exact ⟨hs.1, singleLast_given (j :: ks) hs.2⟩
    · simp
    · simp

end

mutual

theorem single_read {fate : Fate} : ∀ (n : Node), w.single fate n = true → w.single .read n = true
  | .hole, _ => rfl
  | .node h ks, hs => by
    unfold single at hs ⊢
    rw [Bool.and_eq_true] at hs ⊢
    refine ⟨placeOk_read hs.1, ?_⟩
    have hs := hs.2
    split at hs
    case h_12 | h_13 | h_14 | h_15 => exact singleAll_read ks hs
    case h_16 | h_17 => exact singleLast_read ks hs
    all_goals exact hs

theorem singleAll_read {fate : Fate} : ∀ (ks : List Node), w.singleAll fate ks = true →
    w.singleAll .read ks = true
  | [], _ => rfl
  | k :: ks, hs => by
    rw [singleAll, Bool.and_eq_true] at hs ⊢
    exact ⟨single_read k hs.1, singleAll_read ks hs.2⟩

theorem singleLast_read {fate : Fate} : ∀ (ks : List Node), w.singleLast fate ks = true →
    w.singleLast .read ks = true
  | [], _ => rfl
  | [k], hs => single_read k hs
  | k :: j :: ks, hs => by
    rw [singleLast, Bool.and_eq_true] at hs ⊢
    · exact ⟨hs.1, singleLast_read (j :: ks) hs.2⟩
    · simp
    · simp

end

theorem single_place (hs : w.single fate (.node h ks) = true) : w.placeOk fate h ks = true := by
  unfold single at hs
  exact (Bool.and_eq_true _ _ ▸ hs).1

theorem single_sym (hs : w.single fate (.node h ks) = true) (hk : h.kind = .sym) :
    (node h ks).callsTo w.callee = 0 := by
  have hp := single_place hs
  simp only [placeOk, Bool.and_eq_true, Bool.or_eq_true, decide_eq_true_eq, absent] at hp
  exact hp.1.resolve_left (fun hne => hne hk)

theorem single_isKind_sym (hs : w.single fate n = true) (hk : n.isKind .sym = true) :
    n.callsTo w.callee = 0 := by
  cases n with
  | hole => rfl
  | node h ks => exact single_sym hs (by simpa using hk)

theorem single_stored (hs : w.single .stored n = true) (hr : w.mayMove n = true) :
    n.callsTo w.callee = 0 := by
  cases n with
  | hole => rfl
  | node h ks =>
    have hp := single_place hs
    simp only [placeOk, hr, Bool.and_eq_true, Bool.not_true, Bool.false_or, absent,
      decide_eq_true_eq] at hp
    exact hp.2

theorem single_given_place (hs : w.single .given (.node h ks) = true)
    (hr : w.mayMove (node h ks) = true) (hl : ¬ w.ops.IsLifeless w.types h.type) :
    (node h ks).callsTo w.callee = 0 := by
  have hp := single_place hs
  simp only [placeOk, hr, Bool.and_eq_true, Bool.not_true, Bool.false_or, Bool.or_eq_true,
    decide_eq_true_eq, absent] at hp
  exact hp.2.resolve_right hl

end Watch

/-! ## Equal locations -/

section Same

variable {w : Watch} {ss : Symbols}

theorem single_transparent (ht : isTransparent h.kind = true)
    (hw : (node h (k :: ks)).WellFormed ss) (hs : w.single .read (.node h (k :: ks)) = true) :
    ks = [] ∧ h.kind ≠ .call ∧ w.single .read k = true := by
  have hl := hw.node.1
  unfold Watch.single at hs
  have hs := (Bool.and_eq_true _ _ ▸ hs).2
  cases hk : h.kind <;> simp only [hk, isTransparent, Bool.false_eq_true] at ht
  all_goals
    simp only [layoutFaults, hk, Except.ok.injEq] at hl
    have hlen := length_of_wantKids hl
    simp only [List.length_cons, Nat.add_eq_right, List.length_eq_zero_iff] at hlen
    simp only [hk, Watch.singleAll, Bool.and_eq_true] at hs
    exact ⟨hlen, by decide, hs.1⟩

theorem callsTo_of_literal {n : Node} {v : Int64} {f : SymRef} (h : n.literal? = some v)
    (hw : n.WellFormed ss) : n.callsTo f = 0 := by
  cases n with
  | hole => rfl
  | node hd ks =>
    simp only [literal?, Option.ite_none_right_eq_some] at h
    have hl := hw.node.1
    simp only [layoutFaults, h.1, Except.ok.injEq] at hl
    obtain rfl := List.length_eq_zero_iff.1 (length_of_wantKids hl)
    rw [callsTo_node_of_ne (by rw [h.1]; decide)]
    rfl

theorem single_dot (hk : h.kind = .dot) (hw : (node h ks).WellFormed ss)
    (hs : w.single .read (.node h ks) = true) : ∃ a f, ks = [a, f] ∧ f.isKind .sym = true ∧
      w.single .read a = true ∧ w.single .read f = true := by
  obtain ⟨a, f, rfl, hf⟩ := hw.dot hk
  unfold Watch.single at hs
  simp only [hk, Watch.singleAll, Bool.and_eq_true] at hs
  exact ⟨a, f, rfl, hf, hs.2.1, hs.2.2.1⟩

theorem single_index (hk : h.kind = .index)
    (hw : (node h ks).WellFormed ss) (hs : w.single .read (.node h ks) = true) :
    ∃ a i, ks = [a, i] ∧ w.single .read a = true ∧ w.single .read i = true := by
  obtain ⟨a, i, rfl⟩ := hw.pair (by simp [layoutFaults, hk])
  unfold Watch.single at hs
  simp only [hk, Watch.singleAll, Bool.and_eq_true] at hs
  exact ⟨a, i, rfl, hs.2.1, hs.2.2.1⟩

theorem Pinned.callsTo {b : Node} {r : Option SymRef} {s : List Access} (hp : b.Pinned r s)
    (hw : b.WellFormed ss) (hs : w.single .read b = true) : b.callsTo w.callee = 0 := by
  induction hp with
  | sym hk => exact Watch.single_sym hs hk
  | dot hk _ ih =>
    obtain ⟨k0, k1, heq, hsym, h0, h1⟩ := single_dot hk hw hs
    cases heq
    rw [callsTo_node_of_ne (by rw [hk]; decide)]
    simp [ih (hw.kids _ (by simp)) h0, Watch.single_isKind_sym h1 hsym]
  | index hk hi _ ih =>
    obtain ⟨k0, k1, heq, h0, h1⟩ := single_index hk hw hs
    cases heq
    rw [callsTo_node_of_ne (by rw [hk]; decide)]
    simp [ih (hw.kids _ (by simp)) h0, callsTo_of_literal hi (hw.kids _ (by simp))]
  | through hk _ ih =>
    obtain ⟨rfl, hc, h0⟩ := single_transparent hk hw hs
    rw [callsTo_node_of_ne hc]
    simp [ih (hw.kids _ (by simp)) h0]

theorem sameLocation_callsTo {a b : Node} (h : a.sameLocation b = .ok true) (hw : b.WellFormed ss)
    (hs : w.single .read b = true) : b.callsTo w.callee = 0 := by
  obtain ⟨r, s, -, hb⟩ := (shared_of_sameWithin h).1 rfl
  exact hb.callsTo hw hs

end Same

end Node

end Lifecycle
