import Lifecycle.Proofs.Flow.Entry

/-!
# What the oracle says about variables

On a structured graph in which variables are accessed as a whole, the answers of the oracle are
sound: a variable is not awaited behind a last read of it (`not_awaits_of_isLastRead`), it is not
touched before a first write (`not_touched_of_isFirstWrite`), and it is not awaited at the start if
it is initialized (`not_awaits_of_mayBeUninit`).
-/

namespace Lifecycle

namespace Node

variable {m n : Node} {v w : SymRef}

theorem eq_of_isSym (h : n.isSym (some v) = true) :
    ∃ hd ks, n = .node hd ks ∧ hd.kind = .sym ∧ hd.sym = some v := by
  cases n with
  | hole => cases h
  | node hd ks => exact ⟨hd, ks, rfl, by simpa using h⟩

theorem place?_of_isSym (h : n.isSym (some v) = true) : n.place? = some ⟨some v, []⟩ := by
  obtain ⟨hd, ks, rfl, hk, hs⟩ := eq_of_isSym h
  cases ks <;> simp [place?, path?, pathFrom, hk, hs]

theorem within_of_isSym (hm : m.isSym (some w) = true) (hn : n.isSym (some v) = true) :
    m.within n = if w = v then .yes else .no := by
  have hroot : AccessPath.compare true [] [] = .yes := rfl
  simp only [within, place?_of_isSym hm, place?_of_isSym hn, AccessPath.relation, hroot,
    Option.some.injEq]

theorem touches_of_isSym (hm : m.isSym (some w) = true) (hn : n.isSym (some v) = true) :
    m.touches n = decide (w = v) := by
  rw [touches, within_of_isSym hm hn, within_of_isSym hn hm]
  by_cases h : w = v
  · simp [h]
  · have h' : ¬ v = w := fun he => h he.symm
    simp [h']

theorem skipConv_of_isSym (h : n.isSym (some v) = true) : n.skipConv = .ok n := by
  obtain ⟨hd, ks, rfl, hk, -⟩ := eq_of_isSym h
  cases ks <;> simp [skipConv, hk, NodeKind.keepsLocation]

theorem root?_of_isSym (h : n.isSym (some v) = true) : n.root? = .ok (some v) := by
  obtain ⟨hd, ks, rfl, hk, hs⟩ := eq_of_isSym h
  cases ks <;> simp [root?, hk, hs]

end Node

namespace Graph

variable {g : Graph} {n : Node} {v : SymRef} {pc : Nat}

/-! ## Last reads -/

theorem contested_of_awaits (hg : g.Named) (hn : n.isSym (some v) = true) (h : g.Awaits v pc) :
    g.Contested n pc := by
  obtain ⟨last, i, hw, hl, m, rfl, hm⟩ := h
  refine ⟨last, _, ?_, hl, .inl ⟨m, rfl, by simp [Node.touches_of_isSym hm hn]⟩⟩
  induction hw with
  | refl => exact .refl _
  | step hc hp hs _ ih =>
    refine .step hc ?_ hs (ih hl)
    rintro ⟨k, rfl, hk⟩
    obtain ⟨w, hw⟩ := hg hc rfl
    rw [Node.within_of_isSym hw hn] at hk
    split_ifs at hk with hwv
    exact hp ⟨k, rfl, hwv ▸ hw⟩

theorem leavesBeyond_of_stays (hs : Stays g.code.toList) : g.LeavesBeyond :=
  fun ⟨n, hn⟩ => absurd hn (hs n)

/-! ## First writes and early reads -/

theorem disturbed_of_touched (hg : g.Onward) (hn : n.isSym (some v) = true)
    (h : g.Touched v top) : g.Disturbed n top 0 := by
  obtain ⟨a, i, hin, hi, ⟨m, hm, hmv⟩, hout⟩ := h
  exact ⟨a, i, hin, hi, hout.le hg, m, hm, by simp [Node.touches_of_isSym hmv hn]⟩

theorem usedEarly_of_awaits (h : g.Awaits v pc) : g.UsedEarly v pc := by
  obtain ⟨last, i, hw, hi, m, hm, hmv⟩ := h
  exact ⟨last, i, hw, hi, m, hm, Node.root?_of_isSym hmv⟩

/-- A structured graph that nobody leaves early and that accesses variables as a whole. -/
structure Plain (g : Graph) : Prop where
  tidy : Tidy g.code.toList
  stays : Stays g.code.toList
  named : g.Named

end Graph

namespace Oracle

variable {o o' : Oracle} {n : Node} {v : SymRef}

theorem not_awaits_of_isLastRead (hg : o.graph.Plain) (hn : n.isSym (some v) = true)
    (h : o.isLastRead n = .ok (true, o')) :
    ∃ pc, o.graph.find? n = some pc ∧ ¬ o.graph.Awaits v (pc + 1) := by
  obtain ⟨m, pc, e, hm, hpc, he⟩ := isLastRead_eq_true h
  rw [Node.skipConv_of_isSym hn] at hm
  cases hm
  refine ⟨pc, hpc, fun ha => ?_⟩
  exact Graph.not_contested_of_tidy hg.tidy (fun ⟨m, hm⟩ => absurd hm (hg.stays m)) he
    (Graph.contested_of_awaits hg.named hn ha)

theorem not_touched_of_isFirstWrite (hg : o.graph.Plain) (hn : n.isSym (some v) = true)
    (h : o.isFirstWrite n = .ok true) :
    ∃ pc, o.graph.findLast? n = some pc ∧ ¬ o.graph.Touched v pc := by
  obtain ⟨m, pc, e, hm, hpc, he⟩ := isFirstWrite_eq_true h
  rw [Node.skipConv_of_isSym hn] at hm
  cases hm
  have hexit := Graph.leavesBeyond_of_stays hg.stays
  refine ⟨pc, hpc, fun ht => Graph.not_disturbed_of_scan hg.tidy hexit
    (Graph.findLast?_lt hpc) he ?_⟩
  exact Graph.disturbed_of_touched (hg.tidy.onward hexit) hn ht

theorem not_awaits_of_mayBeUninit (hg : o.graph.Plain)
    (hv : (ss.get v).kind ≠ .param) (h : o.mayBeUninit ss v = false) : ¬ o.graph.Awaits v 0 := by
  intro ha
  have := Graph.mem_uninit hg.tidy (Graph.leavesBeyond_of_stays hg.stays) hv
    (Graph.usedEarly_of_awaits ha)
  rw [mayBeUninit, List.contains_iff_mem.2 this] at h
  cases h

end Oracle

end Lifecycle
