import Mathlib.Data.List.Forall2
import Lifecycle.Proofs.Tree.Heads

/-!
# The grammar of trees

`NodeKind.slots?` lists the places below a node of each kind, and `ChildSlot.admits` says what may
stand in each. A tree is grammatical when all its nodes are filled so and it is no branch itself
(`Node.Grammatical`). What is accepted as well-formed is more: a branch is asked for where one has
to stand, but elsewhere, in a place for a value, nobody looks whether one does
(`Node.wellFormed_grammar`).
-/

namespace Lifecycle

/-- What may stand in a place below a node. -/
inductive ChildSlot where
  | value
  | label
  | routine
  | target
  | variable
  | field
  /-- A part of a statement or a constructor, of one of these kinds. -/
  | branch (kinds : List NodeKind)

namespace NodeKind

/-- Kinds that have a place only below a statement or a constructor of theirs. -/
def isBranch : NodeKind → Bool
  | .elifBranch | .elseBranch | .ofBranch | .exceptBranch | .finallyBranch | .identDefs
  | .fieldInit => true
  | _ => false

def branches (plain final : NodeKind) : Nat → List ChildSlot
  | 0 => []
  | 1 => [.branch [plain, final]]
  | n + 2 => .branch [plain] :: branches plain final (n + 1)

/-- The places below a node of the kind that has so many children, if it can have as many. -/
def slots? (count : Nat) : NodeKind → Option (List ChildSlot)
  | .empty | .intLit | .strLit | .boolLit | .nilLit => exactly []
  | .sym | .stmtList | .arrayConstr | .tupleConstr => atLeast 0
  | .call | .stmtListExpr => atLeast 1
  | .ofBranch => atLeast 2
  | .dot => exactly [.value, .field]
  | .closure => exactly [.routine, .value]
  | .block => exactly [.label, .value]
  | .fieldInit => exactly [.target, .value]
  | .identDefs => exactly [.variable, .value]
  | .index | .whileStmt | .asgn | .fastAsgn | .elifBranch => exactly [.value, .value]
  | .breakStmt => exactly [.label]
  | .deref | .addr | .conv | .upConv | .downConv | .cast | .raiseStmt | .returnStmt | .discardStmt
  | .elseBranch | .exceptBranch | .finallyBranch => exactly [.value]
  | .ifStmt => some (branches .elifBranch .elseBranch count)
  | .caseStmt => behind 1 (branches .ofBranch .elseBranch (count - 1))
  | .tryStmt => behind 2 (branches .exceptBranch .finallyBranch (count - 1))
  | .varSection => some (List.replicate count (.branch [.identDefs]))
  | .objConstr => some (List.replicate count (.branch [.fieldInit]))
  | .other _ _ => none
where
  exactly (slots : List ChildSlot) : Option (List ChildSlot) :=
    if count = slots.length then some slots else none
  atLeast (n : Nat) : Option (List ChildSlot) :=
    if n ≤ count then some (List.replicate count .value) else none
  behind (n : Nat) (slots : List ChildSlot) : Option (List ChildSlot) :=
    if n ≤ count then some (.value :: slots) else none

end NodeKind

namespace ChildSlot

variable (ss : Symbols)

def admits (n : Node) : ChildSlot → Bool
  | .value => !n.kindOr.isBranch
  | .label => n.kindOr = .sym || n.kindOr = .empty
  | .routine | .variable => n.kindOr = .sym
  | .target | .field => n.isFieldRef ss
  | .branch kinds => kinds.contains n.kindOr

/-- What is looked at in a place. -/
def checks (n : Node) : ChildSlot → Bool
  | .value | .label | .routine => true
  | .target | .variable => n.kindOr = .sym
  | .field => n.isFieldRef ss
  | .branch kinds => kinds.contains n.kindOr

/-- What nobody looks at. -/
def trusts (n : Node) : ChildSlot → Bool
  | .value => !n.kindOr.isBranch
  | .label => n.kindOr = .sym || n.kindOr = .empty
  | .routine => n.kindOr = .sym
  | .target => n.isFieldRef ss
  | .variable | .field | .branch _ => true

theorem admits_eq (n : Node) (s : ChildSlot) :
    s.admits ss n = (s.checks ss n && s.trusts ss n) := by
  cases s with
  | target =>
    cases n with
    | hole => rfl
    | node h ks =>
      cases hk : h.kind <;> simp [admits, checks, trusts, Node.isFieldRef, Node.kindOr, hk]
  | _ => simp [admits, checks, trusts]

end ChildSlot

namespace Node

/-- All nodes have the children that belong to their kind, in their places. -/
def Follows (ok : Node → ChildSlot → Bool) (n : Node) : Prop :=
  ∀ h ks, .node h ks ∈ n.preorder → ∃ slots, h.kind.slots? ks.length = some slots ∧
    List.Forall₂ (fun s k => ok k s = true) slots ks

/-- No child is missing, and each name has a symbol. -/
def Complete (n : Node) : Prop :=
  n.isHole = false ∧ ∀ h ks, .node h ks ∈ n.preorder →
    (∀ k ∈ ks, k.isHole = false) ∧ (h.kind = .sym → h.sym.isSome = true)

/-- A tree that follows the grammar, and is no part of a statement. -/
structure Grammatical (ss : Symbols) (n : Node) : Prop where
  complete : n.Complete
  follows : n.Follows (ChildSlot.admits ss)
  unbranched : n.kindOr.isBranch = false

section Layout

variable {ss : Symbols} {h : Head} {k : Node} {ks : List Node} {ok : Node → ChildSlot → Bool}

section Slots

variable {R : ChildSlot → Node → Prop} {sl : List ChildSlot}

theorem forall₂_replicate : List.Forall₂ R (List.replicate ks.length s) ks ↔ ∀ k ∈ ks, R s k := by
  induction ks with
  | nil => simp
  | cons k ks ih => simp [List.replicate_succ, ih]

theorem exists_exactly : (∃ slots, NodeKind.slots?.exactly ks.length sl = some slots ∧
    List.Forall₂ R slots ks) ↔ List.Forall₂ R sl ks := by
  simp only [NodeKind.slots?.exactly]
  refine ⟨fun ⟨slots, hs, hr⟩ => ?_, fun hr => ⟨sl, if_pos hr.length_eq.symm, hr⟩⟩
  split_ifs at hs
  cases hs
  exact hr

theorem exists_atLeast : (∃ slots, NodeKind.slots?.atLeast ks.length n = some slots ∧
    List.Forall₂ R slots ks) ↔ n ≤ ks.length ∧ ∀ k ∈ ks, R .value k := by
  simp only [NodeKind.slots?.atLeast]
  split_ifs with hn <;> simp [hn, forall₂_replicate]

end Slots

theorem forall₂_branches (ss : Symbols)
    (hne : plain ≠ final) : branchFaults plain final stray early ks = [] ↔
      List.Forall₂ (fun s k => s.checks ss k = true)
        (NodeKind.branches plain final ks.length) ks := by
  induction ks with
  | nil => simp [branchFaults, NodeKind.branches]
  | cons k ks ih =>
    cases ks with
    | nil => simp [branchFaults, NodeKind.branches, ChildSlot.checks]; grind
    | cons j ks =>
      rw [branchFaults, List.append_eq_nil_iff, ih]
      simp [NodeKind.branches, ChildSlot.checks]
      grind

theorem forall₂_only (ss : Symbols) :
    onlyKind kind stray ks = [] ↔ List.Forall₂ (fun s k => ChildSlot.checks ss k s = true)
      (List.replicate ks.length (.branch [kind])) ks := by
  simp [forall₂_replicate, onlyKind, ChildSlot.checks]

theorem layoutFaults_iff : layoutFaults ss h ks = .ok [] ↔ (h.kind = .sym → h.sym.isSome = true) ∧
    ∃ slots, h.kind.slots? ks.length = some slots ∧
      List.Forall₂ (fun s k => s.checks ss k = true) slots ks := by
  cases hk : h.kind with
  | empty | intLit | strLit | boolLit | nilLit =>
    simp [layoutFaults, hk, NodeKind.slots?, exists_exactly, wantKids]
  | sym | stmtList | arrayConstr | tupleConstr | call | stmtListExpr | ofBranch =>
    simp only [layoutFaults, hk, NodeKind.slots?, exists_atLeast, ChildSlot.checks]
    simp [Nat.succ_le_iff, List.length_pos_iff, Option.isSome_iff_ne_none]
  | dot | closure | block | fieldInit | identDefs | index | whileStmt | asgn | fastAsgn | elifBranch
  | breakStmt | deref | addr | conv | upConv | downConv | cast | raiseStmt | returnStmt
  | discardStmt | elseBranch | exceptBranch | finallyBranch =>
    simp only [layoutFaults, hk, NodeKind.slots?, exists_exactly]
    rcases ks with _ | ⟨a, _ | ⟨b, _ | ⟨c, ks⟩⟩⟩ <;> simp [wantKids, ChildSlot.checks]
  | ifStmt => simp [layoutFaults, hk, NodeKind.slots?, forall₂_branches ss]
  | caseStmt =>
    cases ks <;> simp [layoutFaults, hk, NodeKind.slots?, NodeKind.slots?.behind,
      forall₂_branches ss, ChildSlot.checks]
  | tryStmt =>
    rcases ks with _ | ⟨a, _ | ⟨b, ks⟩⟩ <;> simp [layoutFaults, hk, NodeKind.slots?,
      NodeKind.slots?.behind, forall₂_branches ss, ChildSlot.checks]
  | varSection | objConstr => simp [layoutFaults, hk, NodeKind.slots?, forall₂_only ss]
  | other => simp [layoutFaults, hk, NodeKind.slots?]

/-- What is accepted: everything is there, and each child passes where it stands. -/
theorem wellFormed_iff_follows {n : Node} :
    n.WellFormed ss ↔ n.Complete ∧ n.Follows (ChildSlot.checks ss) := by
  cases n with
  | hole => simp [Complete, isHole, WellFormed.ne_hole]
  | node h ks =>
    constructor
    · intro hw
      refine ⟨⟨rfl, fun h ks hm => ?_⟩, fun h ks hm => ?_⟩
      · have hw := hw.of_mem hm
        exact ⟨fun k hk => (hw.kids k hk).isHole, (layoutFaults_iff.1 hw.node.1).1⟩
      · exact (layoutFaults_iff.1 (hw.of_mem hm).node.1).2
    · rintro ⟨⟨-, hc⟩, hf⟩
      have hself : (Node.node h ks) ∈ (Node.node h ks).preorder := by simp [preorder]
      have hbelow : ∀ k ∈ ks, ∀ m ∈ k.preorder, m ∈ (Node.node h ks).preorder := fun k hk m hm => by
        simpa [preorder] using .inr (mem_preorderAll.2 ⟨k, hk, hm⟩)
      refine wellFormed_node (layoutFaults_iff.2 ⟨(hc h ks hself).2, hf h ks hself⟩) fun k hk => ?_
      refine wellFormed_iff_follows.2
        ⟨⟨(hc h ks hself).1 k hk, fun h' ks' hm => ?_⟩, fun h' ks' hm => ?_⟩
      · exact hc h' ks' (hbelow k hk _ hm)
      · exact hf h' ks' (hbelow k hk _ hm)

theorem follows_admits {n : Node} : n.Follows (ChildSlot.admits ss) ↔
    n.Follows (ChildSlot.checks ss) ∧ n.Follows (ChildSlot.trusts ss) := by
  simp only [Follows, ChildSlot.admits_eq, Bool.and_eq_true]
  constructor
  · intro hf
    refine ⟨fun h ks hm => ?_, fun h ks hm => ?_⟩ <;> obtain ⟨sl, hs, hr⟩ := hf h ks hm
    · exact ⟨sl, hs, hr.imp fun _ _ h => h.1⟩
    · exact ⟨sl, hs, hr.imp fun _ _ h => h.2⟩
  · rintro ⟨hf, hf'⟩ h ks hm
    obtain ⟨sl, hs, hr⟩ := hf h ks hm
    obtain ⟨_, hs', hr'⟩ := hf' h ks hm
    cases hs.symm.trans hs'
    refine ⟨sl, hs, ?_⟩
    clear hs hs' hm
    induction hr with
    | nil => exact .nil
    | cons h _ ih =>
      obtain ⟨h', hr'⟩ := List.forall₂_cons.1 hr'
      exact .cons ⟨h, h'⟩ (ih hr')

end Layout

/-- Accepted is what is complete and passes wherever it is looked at. It is in the grammar just when
it is no branch, and no branch stands for a value in it, nor anything else for a label, for a
routine or for a field. -/
theorem wellFormed_grammar (ss : Symbols) (n : Node) :
    (n.WellFormed ss ↔ n.Complete ∧ n.Follows (ChildSlot.checks ss)) ∧
    (n.Grammatical ss ↔
      n.WellFormed ss ∧ n.kindOr.isBranch = false ∧ n.Follows (ChildSlot.trusts ss)) := by
  refine ⟨wellFormed_iff_follows, ?_⟩
  rw [wellFormed_iff_follows]
  constructor
  · rintro ⟨hc, hf, hu⟩
    exact ⟨⟨hc, (follows_admits.1 hf).1⟩, hu, (follows_admits.1 hf).2⟩
  · rintro ⟨⟨hc, hf⟩, hu, ht⟩
    exact ⟨hc, follows_admits.2 ⟨hf, ht⟩, hu⟩

/-- An `else` that stands in a list of statements is accepted, although it has no place there. -/
theorem wellFormed_stray : ¬ ∀ (ss : Symbols) (n : Node), n.WellFormed ss ↔ n.Grammatical ss := by
  intro h
  have hw : WellFormed {}
      (.node { kind := .stmtList } [.node { kind := .elseBranch } [.node {} []]]) := rfl
  obtain ⟨sl, hs, hr⟩ := ((h _ _).1 hw).follows _ _ (List.mem_cons_self ..)
  cases hs
  cases hr with
  | cons hv => cases hv

end Node

end Lifecycle
