import Mathlib.Data.List.Basic
import Lifecycle.Proofs.Tree.WellFormed

/-!
# Trees node by node

`Node.heads` lists what the nodes of a tree say about themselves. Renaming the symbols of a tree, or
giving its nodes other sites, changes each of them alone; what is well-formed stays so, as long as a
field is still a field.
-/

namespace Lifecycle

namespace Node

def heads (n : Node) : List Head := n.preorder.filterMap head?

def headsAll (ks : List Node) : List Head := (preorderAll ks).filterMap head?

@[simp] theorem heads_hole : heads .hole = [] := rfl

@[simp] theorem heads_node (h : Head) (ks : List Node) : heads (.node h ks) = h :: headsAll ks := by
  rfl

@[simp] theorem headsAll_nil : headsAll [] = [] := rfl

@[simp] theorem headsAll_cons (k : Node) (ks : List Node) :
    headsAll (k :: ks) = k.heads ++ headsAll ks := by
  rw [headsAll, preorderAll, List.filterMap_append]
  rfl

theorem mem_headsAll : h ∈ headsAll ks ↔ ∃ k ∈ ks, h ∈ k.heads := by
  induction ks with
  | nil => simp
  | cons k ks ih => simp [ih]

theorem preorderAll_eq_flatMap (ks : List Node) : preorderAll ks = ks.flatMap preorder := by
  induction ks with
  | nil => rfl
  | cons k ks ih => rw [preorderAll, ih, List.flatMap_cons]

theorem preorder_trans {n m k : Node} (hm : m ∈ n.preorder) (hk : k ∈ m.preorder) :
    k ∈ n.preorder := by
  cases n with
  | hole => simp [preorder] at hm
  | node h ks =>
    rcases List.mem_cons.1 hm with rfl | hm
    · exact hk
    · obtain ⟨j, hj, hm⟩ := mem_preorderAll.1 hm
      exact List.mem_cons_of_mem _ (mem_preorderAll.2 ⟨j, hj, preorder_trans hm hk⟩)

theorem WellFormed.of_mem {n m : Node} (hw : n.WellFormed ss) (hm : m ∈ n.preorder) :
    m.WellFormed ss := by
  cases n with
  | hole => simp [preorder] at hm
  | node h ks =>
    rcases List.mem_cons.1 hm with rfl | hm
    · exact hw
    · obtain ⟨k, hk, hm⟩ := mem_preorderAll.1 hm
      exact (hw.kids k hk).of_mem hm

theorem WellFormed.known_kind {n : Node} (hw : n.WellFormed ss) :
    ∀ h ∈ n.heads, ∀ c hc, h.kind ≠ .other c hc := by
  intro h hh c hc hk
  obtain ⟨m, hm, hhead⟩ := List.mem_filterMap.1 hh
  cases m with
  | hole => cases hhead
  | node h' ks =>
    obtain rfl := Option.some.inj hhead
    have hl := (hw.of_mem hm).node.1
    simp [layoutFaults, hk] at hl

mutual

/-- The tree with its symbols renamed and its sites forgotten. -/
def rename (f : SymRef → SymRef) : Node → Node
  | .hole => .hole
  | .node h ks => .node { h with sym := h.sym.map f, site := 0 } (renameAll f ks)

def renameAll (f : SymRef → SymRef) : List Node → List Node
  | [] => []
  | k :: ks => k.rename f :: renameAll f ks

end

theorem renameAll_eq_map (f : SymRef → SymRef) (ks : List Node) :
    renameAll f ks = ks.map (rename f) := by
  induction ks with
  | nil => rfl
  | cons k ks ih => rw [renameAll, ih, List.map_cons]

mutual

theorem rename_relabel (f : SymRef → SymRef) : ∀ (n : Node) (next : Nat),
    (n.relabel next).1.rename f = n.rename f
  | .hole, _ => rfl
  | .node h ks, next => by
    rw [relabel]
    simp only [rename]
    rw [renameAll_relabel f ks (next + 1)]

theorem renameAll_relabel (f : SymRef → SymRef) : ∀ (ks : List Node) (next : Nat),
    renameAll f (relabelAll ks next).1 = renameAll f ks
  | [], _ => rfl
  | k :: ks, next => by
    rw [relabelAll]
    simp only [renameAll]
    rw [rename_relabel f k next, renameAll_relabel f ks _]

end

theorem rename_rename (f g : SymRef → SymRef) (n : Node) :
    (n.rename f).rename g = n.rename (g ∘ f) := by
  cases n with
  | hole => rfl
  | node h ks =>
    simp only [rename, renameAll_eq_map, List.map_map, Option.map_map]
    exact congrArg (node _) (List.map_congr_left fun k hk => rename_rename f g k)

theorem preorder_rename (f : SymRef → SymRef) (n : Node) :
    (n.rename f).preorder = n.preorder.map (rename f) := by
  cases n with
  | hole => rfl
  | node h ks =>
    simp only [rename, preorder, preorderAll_eq_flatMap, renameAll_eq_map, List.flatMap_map,
      List.map_cons, List.map_flatMap]
    rw [List.flatMap_congr fun k _ => preorder_rename f k]

theorem heads_rename (f : SymRef → SymRef) (n : Node) :
    (n.rename f).heads = n.heads.map fun h => { h with sym := h.sym.map f, site := 0 } := by
  rw [heads, preorder_rename, List.filterMap_map, heads, List.map_filterMap]
  congr 1
  funext m
  cases m <;> rfl

theorem mem_preorder_relabel {n c : Node} (hc : c ∈ (n.relabel next).1.preorder) :
    ∃ m ∈ n.preorder, m.rename id = c.rename id := by
  have hm : c.rename id ∈ ((n.relabel next).1.rename id).preorder := by
    rw [preorder_rename]
    exact List.mem_map_of_mem hc
  rw [rename_relabel, preorder_rename] at hm
  exact List.mem_map.1 hm

theorem heads_relabel {p : Head → Prop} (hp : ∀ h s, p h → p { h with site := s }) {n : Node}
    (h : ∀ x ∈ n.heads, p x) : ∀ x ∈ (n.relabel next).1.heads, p x := by
  intro x hx
  have hr := heads_rename id (n.relabel next).1
  rw [rename_relabel, heads_rename] at hr
  simp only [Option.map_id, id] at hr
  have hm : { x with site := 0 } ∈ (n.relabel next).1.heads.map fun h => { h with site := 0 } :=
    List.mem_map_of_mem (f := fun h : Head => { h with site := 0 }) hx
  rw [← hr] at hm
  obtain ⟨y, hy, hxy⟩ := List.mem_map.1 hm
  have := hp _ x.site (hp y 0 (h y hy))
  rw [hxy] at this
  exact this

/-! ## Defects of a renamed tree -/

section Rename

variable {f : SymRef → SymRef} {ss ss' : Symbols}

theorem isHole_rename (n : Node) : (n.rename f).isHole = n.isHole := by
  cases n <;> rfl

theorem isKind_rename (n : Node) (kind : NodeKind) : (n.rename f).isKind kind = n.isKind kind := by
  cases n <;> rfl

theorem isKind_eq_of_rename {n m : Node} (h : n.rename f = m.rename f) (kind : NodeKind) :
    n.isKind kind = m.isKind kind := by
  rw [← isKind_rename n, h, isKind_rename]

theorem kids_rename (n : Node) : (n.rename f).kids = n.kids.map (rename f) := by
  cases n <;> simp [rename, kids, renameAll_eq_map]

theorem isSym_rename (n : Node) (o : Option SymRef) : (n.rename id).isSym o = n.isSym o := by
  cases n <;> simp [rename]

theorem kindOr_rename (n : Node) : (n.rename f).kindOr = n.kindOr := by
  cases n <;> rfl

theorem wantKids_rename (count : Nat) (ks : List Node) :
    wantKids count (ks.map (rename f)) = wantKids count ks := by
  simp [wantKids]

theorem onlyKind_rename (kind : NodeKind) (stray : NodeKind → LayoutFault) (ks : List Node) :
    onlyKind kind stray (ks.map (rename f)) = onlyKind kind stray ks := by
  simp [onlyKind, List.flatMap_map, kindOr_rename]

theorem branchFaults_rename (plain final : NodeKind) (stray : NodeKind → LayoutFault)
    (early : LayoutFault) (ks : List Node) :
    branchFaults plain final stray early (ks.map (rename f)) =
      branchFaults plain final stray early ks := by
  induction ks with
  | nil => rfl
  | cons k ks ih => simp [branchFaults, kindOr_rename, ih]

def SameKinds (f : SymRef → SymRef) (ss ss' : Symbols) (hs : List Head) : Prop :=
  ∀ h ∈ hs, ∀ r, h.sym = some r → (ss'.get (f r)).kind = (ss.get r).kind

theorem isFieldRef_rename (h : SameKinds f ss ss' n.heads) :
    isFieldRef ss' (n.rename f) = isFieldRef ss n := by
  cases n with
  | hole => rfl
  | node hd ks =>
    rw [isFieldRef, isFieldRef, rename]
    simp only [head?]
    rcases hs : hd.sym with _ | r
    · rfl
    · simp [h hd (by simp) r hs]

theorem layoutFaults_rename (hs : SameKinds f ss ss' (headsAll ks)) :
    layoutFaults ss' { h with sym := h.sym.map f, site := 0 } (ks.map (rename f)) =
      layoutFaults ss h ks := by
  have hk : ∀ k ∈ ks, SameKinds f ss ss' k.heads := fun k hk x hx =>
    hs x (mem_headsAll.2 ⟨k, hk, hx⟩)
  unfold layoutFaults
  cases h.kind with
  | dot =>
    rcases ks with _ | ⟨a, _ | ⟨b, _ | ⟨c, ks⟩⟩⟩
    case cons.cons.nil => simp [isFieldRef_rename (hk b (by simp))]
    all_goals simp [wantKids]
  | fieldInit =>
    rcases ks with _ | ⟨a, _ | ⟨b, _ | ⟨c, ks⟩⟩⟩ <;> simp [wantKids, kindOr_rename]
  | identDefs =>
    rcases ks with _ | ⟨a, _ | ⟨b, _ | ⟨c, ks⟩⟩⟩ <;> simp [wantKids, kindOr_rename]
  | caseStmt => cases ks <;> simp [branchFaults_rename]
  | tryStmt => cases ks <;> simp [branchFaults_rename]
  | _ => simp [wantKids_rename, onlyKind_rename, branchFaults_rename]

mutual

theorem defects_rename : ∀ {n : Node}, SameKinds f ss ss' n.heads →
    (n.rename f).defects ss' = n.defects ss
  | .hole, _ => rfl
  | .node h ks, hs => by
    have hks : SameKinds f ss ss' (headsAll ks) := fun x hx => hs x (by simp [hx])
    have hf : (ks.map (rename f)).findIdx? isHole = ks.findIdx? isHole := by
      rw [List.findIdx?_map]
      congr 1
      funext k
      exact isHole_rename k
    rw [rename, defects, defects, renameAll_eq_map, hf, layoutFaults_rename hks,
      ← renameAll_eq_map, defectsAll_rename hks]

theorem defectsAll_rename : ∀ {ks : List Node}, SameKinds f ss ss' (headsAll ks) →
    defectsAll ss' (renameAll f ks) = defectsAll ss ks
  | [], _ => rfl
  | k :: ks, hs => by
    rw [renameAll, defectsAll, defectsAll, defects_rename fun x hx => hs x (by simp [hx]),
      defectsAll_rename fun x hx => hs x (by simp [hx])]

end

theorem wellFormed_rename {n : Node} (h : SameKinds f ss ss' n.heads) :
    (n.rename f).WellFormed ss' ↔ n.WellFormed ss := by
  rw [WellFormed, defects_rename h, WellFormed]

theorem wellFormed_relabel {n : Node} : (n.relabel next).1.WellFormed ss ↔ n.WellFormed ss := by
  have hid : ∀ m : Node, SameKinds id ss ss m.heads := fun m h _ r _ => rfl
  rw [← wellFormed_rename (hid _), rename_relabel, wellFormed_rename (hid n)]

theorem isFieldRef_of_fields (hf : isFieldRef ss n = true)
    (h : ∀ x ∈ n.heads, ∀ r, x.sym = some r → (ss.get r).kind = .field →
      (ss'.get r).kind = .field) : isFieldRef ss' n = true := by
  cases n with
  | hole => exact hf
  | node hd ks =>
    simp only [isFieldRef, head?] at hf ⊢
    rcases hs : hd.sym with _ | r
    · simp [hs] at hf
    · simp only [hs, Bool.and_eq_true, decide_eq_true_eq] at hf ⊢
      exact ⟨hf.1, h hd (by simp) r hs hf.2⟩

theorem layoutFaults_of_fields (hl : layoutFaults ss h ks = .ok [])
    (hf : ∀ k ∈ ks, isFieldRef ss k = true → isFieldRef ss' k = true) :
    layoutFaults ss' h ks = .ok [] := by
  unfold layoutFaults at hl ⊢
  revert hl
  cases h.kind with
  | dot =>
    intro hl
    rcases ks with _ | ⟨a, _ | ⟨b, _ | ⟨c, ks⟩⟩⟩
    case cons.cons.nil =>
      have hb : isFieldRef ss b = true := by
        by_contra hb
        simp [hb] at hl
      simp [hf b (by simp) hb]
    all_goals exact hl
  | _ => exact fun hl => hl

/-- Of the symbols it counts only which are fields: a tree stays well-formed as long as a field is
still a field. -/
theorem WellFormed.of_fields {n : Node} (hw : n.WellFormed ss) (hs : ∀ x ∈ n.heads, ∀ r,
    x.sym = some r → (ss.get r).kind = .field → (ss'.get r).kind = .field) : n.WellFormed ss' := by
  cases n with
  | hole => exact absurd hw WellFormed.ne_hole
  | node h ks =>
    have hks : ∀ k ∈ ks, ∀ x ∈ k.heads, ∀ r, x.sym = some r → (ss.get r).kind = .field →
        (ss'.get r).kind = .field := fun k hk x hx =>
      hs x (List.mem_cons_of_mem _ (mem_headsAll.2 ⟨k, hk, hx⟩))
    refine wellFormed_node (layoutFaults_of_fields hw.node.1 fun k hk hf => ?_) fun k hk => ?_
    · exact isFieldRef_of_fields hf (hks k hk)
    · exact (hw.kids k hk).of_fields (hks k hk)

end Rename

end Node

def Routine.rename (f : SymRef → SymRef) (r : Routine) : Routine where
  sym := r.sym.map f
  params := r.params.map (·.map f)
  result := r.result.map f
  body := r.body.rename f

/-! ## Trees written out -/

namespace Sample

def node (kind : NodeKind) (type : TypeId) (site : Nat) (kids : List Node) : Node :=
  .node { kind, type, site } kids

def sym (s : SymRef) (type : TypeId) (site : Nat) : Node :=
  .node { kind := .sym, sym := some s, type, site } []

end Sample

end Lifecycle
