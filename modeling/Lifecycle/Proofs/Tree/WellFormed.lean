import Mathlib.Tactic.Common
import Lifecycle.Tree.WellFormed

/-!
# Well-formed trees

What a well-formed node has below it, by its kind, and what makes a node well-formed.
-/

namespace Lifecycle

theorem mapM_ok {ε α β : Type} {f : α → Except ε β} {g : α → β} :
    ∀ (xs : List α), (∀ x ∈ xs, f x = .ok (g x)) → xs.mapM f = .ok (xs.map g)
  | [], _ => rfl
  | x :: xs, h => by
    rw [List.mapM_cons, h x (by simp), mapM_ok xs fun y hy => h y (by simp [hy])]
    rfl

namespace Node

theorem orAbsent_eq_ok {α : Type} {x : Option α} {a : α} (h : orAbsent x = .ok a) : x = some a := by
  cases x with
  | none => cases h
  | some b => cases h; rfl

section WellFormed

variable {ss : Symbols} {h : Head} {ks : List Node} {stray : NodeKind → LayoutFault}

theorem defectsAll_eq_nil : ∀ {ks : List Node}, defectsAll ss ks = .ok [] →
    ∀ k ∈ ks, k.WellFormed ss
  | [], _, k, hk => by simp at hk
  | j :: ks, hd, k, hk => by
    obtain ⟨a, ha, hd⟩ := bind_eq_ok.1 hd
    obtain ⟨b, hb, hd⟩ := bind_eq_ok.1 hd
    obtain ⟨rfl, rfl⟩ := List.append_eq_nil_iff.1 (pure_eq_ok.1 hd)
    rcases List.mem_cons.1 hk with rfl | hk
    · exact ha
    · exact defectsAll_eq_nil hb k hk

theorem WellFormed.node (hw : (Node.node h ks).WellFormed ss) :
    layoutFaults ss h ks = .ok [] ∧ ∀ k ∈ ks, k.WellFormed ss := by
  rw [WellFormed, defects] at hw
  split at hw
  · cases hw
  · obtain ⟨own, ho, hw⟩ := bind_eq_ok.1 hw
    obtain ⟨below, hb, hw⟩ := bind_eq_ok.1 hw
    obtain ⟨h1, rfl⟩ := List.append_eq_nil_iff.1 (pure_eq_ok.1 hw)
    rw [List.map_eq_nil_iff] at h1
    subst h1
    exact ⟨ho, defectsAll_eq_nil hb⟩

theorem WellFormed.kids (hw : (Node.node h ks).WellFormed ss) : ∀ k ∈ ks, k.WellFormed ss :=
  hw.node.2

theorem WellFormed.ne_hole : ¬ Node.hole.WellFormed ss := by
  intro hw
  cases hw

theorem WellFormed.isHole {n : Node} (hw : n.WellFormed ss) : n.isHole = false := by
  cases n with
  | hole => exact absurd hw WellFormed.ne_hole
  | node h ks => rfl

theorem length_of_wantKids (hw : wantKids count ks = []) : ks.length = count := by
  unfold wantKids at hw
  split_ifs at hw with hc
  exact hc

theorem pair_of_wantKids (hw : wantKids 2 ks = []) : ∃ a b, ks = [a, b] := by
  have hl := length_of_wantKids hw
  match ks, hl with
  | [a, b], _ => exact ⟨a, b, rfl⟩

theorem one_of_wantKids (hw : wantKids 1 ks = []) : ∃ a, ks = [a] :=
  List.length_eq_one_iff.1 (length_of_wantKids hw)

theorem WellFormed.one (hw : (Node.node h ks).WellFormed ss)
    (hk : layoutFaults ss h ks = .ok (wantKids 1 ks)) : ∃ a, ks = [a] :=
  one_of_wantKids (Except.ok.inj (hk.symm.trans hw.node.1))

theorem WellFormed.pair (hw : (Node.node h ks).WellFormed ss)
    (hk : layoutFaults ss h ks = .ok (wantKids 2 ks)) : ∃ a b, ks = [a, b] :=
  pair_of_wantKids (Except.ok.inj (hk.symm.trans hw.node.1))

theorem WellFormed.dot (hw : (Node.node h ks).WellFormed ss) (hk : h.kind = .dot) :
    ∃ a f, ks = [a, f] ∧ f.isKind .sym = true := by
  have hl := hw.node.1
  simp only [layoutFaults, hk] at hl
  obtain ⟨a, f, rfl⟩ : ∃ a f, ks = [a, f] := by
    rcases ks with _ | ⟨a, _ | ⟨f, _ | ⟨x, ks⟩⟩⟩
    case cons.cons.nil => exact ⟨a, f, rfl⟩
    all_goals exact pair_of_wantKids (Except.ok.inj hl)
  have hf : isFieldRef ss f = true := by
    by_contra hf
    simp [hf] at hl
  cases f with
  | hole => cases hf
  | node hd fs =>
    simp only [isFieldRef, head?, Bool.and_eq_true] at hf
    simp [hf.1]

theorem WellFormed.initialization (hw : (Node.node h ks).WellFormed ss)
    (hk : h.kind = .fieldInit ∨ h.kind = .identDefs) :
    ∃ a b, ks = [a, b] ∧ a.isKind .sym = true := by
  have hl := hw.node.1
  obtain ⟨a, b, rfl⟩ : ∃ a b, ks = [a, b] := by
    rcases ks with _ | ⟨a, _ | ⟨b, _ | ⟨x, ks⟩⟩⟩
    case cons.cons.nil => exact ⟨a, b, rfl⟩
    all_goals rcases hk with hk | hk <;> simp [layoutFaults, hk, wantKids] at hl
  have hkind : a.kindOr = .sym := by
    by_contra hne
    rcases hk with hk | hk <;> simp [layoutFaults, hk, hne] at hl
  cases a with
  | hole => exact absurd (hw.kids _ (by simp)) WellFormed.ne_hole
  | node ah as => simpa [kindOr] using hkind

theorem kindOr_of_onlyKind (hl : onlyKind kind stray ks = []) : ∀ k ∈ ks, k.kindOr = kind := by
  intro k hk
  have := List.flatMap_eq_nil_iff.1 hl k hk
  by_contra hne
  simp [hne] at this

theorem WellFormed.definitions (hw : (Node.node h ks).WellFormed ss) (hk : h.kind = .varSection) :
    ∀ a ∈ ks, a.kindOr = .identDefs := by
  have hl := hw.node.1
  simp only [layoutFaults, hk] at hl
  exact kindOr_of_onlyKind (Except.ok.inj hl)

theorem onlyKind_eq_nil (hk : ∀ k ∈ ks, k.kindOr = kind) : onlyKind kind stray ks = [] :=
  List.flatMap_eq_nil_iff.2 fun k hm => if_pos (hk k hm)

theorem branchFaults_congr : ∀ {ks ks' : List Node}, ks.map kindOr = ks'.map kindOr →
      branchFaults plain final stray early ks = branchFaults plain final stray early ks'
  | [], [], _ => rfl
  | [], _ :: _, h => by cases h
  | _ :: _, [], h => by cases h
  | k :: ks, k' :: ks', h => by
    rw [List.map_cons, List.map_cons, List.cons.injEq] at h
    have he : ks.isEmpty = ks'.isEmpty := by
      cases ks <;> cases ks' <;> simp_all
    rw [branchFaults, branchFaults, h.1, he, branchFaults_congr h.2]

theorem kindOr_of_branchFaults : ∀ {ks : List Node}, branchFaults plain final stray early ks = [] →
      ∀ k ∈ ks, k.kindOr = plain ∨ k.kindOr = final
  | [], _, k, hk => by simp at hk
  | j :: ks, hl, k, hk => by
    obtain ⟨hl, hrest⟩ := List.append_eq_nil_iff.1 hl
    have hfirst := (List.append_eq_nil_iff.1 hl).1
    rcases List.mem_cons.1 hk with rfl | hk
    · by_contra hne
      rw [not_or] at hne
      simp [hne] at hfirst
    · exact kindOr_of_branchFaults hrest k hk

theorem defectsAll_of_wellFormed : ∀ {ks : List Node}, (∀ k ∈ ks, k.WellFormed ss) →
    defectsAll ss ks = .ok []
  | [], _ => rfl
  | k :: ks, hw => by
    have hk : k.defects ss = .ok [] := hw k (by simp)
    rw [defectsAll, hk, defectsAll_of_wellFormed fun j hj => hw j (by simp [hj])]
    rfl

theorem wellFormed_node (hl : layoutFaults ss h ks = .ok []) (hw : ∀ k ∈ ks, k.WellFormed ss) :
    (Node.node h ks).WellFormed ss := by
  have hnone : ks.findIdx? isHole = none := by
    rw [List.findIdx?_eq_none_iff]
    intro k hk
    cases k with
    | hole => exact absurd (hw _ hk) WellFormed.ne_hole
    | node kh kks => rfl
  rw [WellFormed, defects, hnone, hl, defectsAll_of_wellFormed hw]
  rfl

theorem wellFormed_name (hk : h.kind = .sym) (hs : h.sym.isSome = true) :
    (Node.node h []).WellFormed ss :=
  wellFormed_node (by cases hsym : h.sym <;> simp_all [layoutFaults]) (by simp)

end WellFormed

end Node

end Lifecycle
