import Lifecycle.Proofs.Flow.Layout

/-!
# Last reads

A read is contested when some way from it comes to another access of its storage before a write has
covered that storage. `Oracle.isLastRead` should deny every contested read. It does so unless the
scan drops a way on which the competing access lies (`lastRead_contested_iff`), which takes a jump
out of the construct of a fork: a `break` or a `try`. Such a way can really be lost
(`lastRead_past_break`).
-/

namespace Lifecycle

namespace Graph

/-- A write of the whole location. -/
def Covers (loc : Node) (i : Instr) : Prop := ∃ n, i = .define n ∧ n.within loc = .yes

/-- A read of the location or of a part of it, or a write that leaves some of it. -/
def Competes (loc : Node) (i : Instr) : Prop :=
  (∃ n, i = .use n ∧ n.touches loc) ∨ ∃ n, i = .define n ∧ n.touches loc ∧ n.within loc ≠ .yes

/-- Some way from `pc` comes to an access that competes with a read of `loc` before a write has
covered the location. -/
def Contested (g : Graph) (loc : Node) (pc : Nat) : Prop :=
  ∃ last i, g.Way (¬ Covers loc ·) pc last ∧ g.code[last]? = some i ∧ Competes loc i

section Contested

variable {g : Graph} {loc : Node} {pc : Nat} {i : Instr}

theorem covers_of_settled (h : lastReadJudge loc i = .settled) : Covers loc i := by
  cases i with
  | define n =>
    simp only [lastReadJudge] at h
    split_ifs at h with h1
    exact ⟨n, rfl, h1⟩
  | use n =>
    simp only [lastReadJudge] at h
    split_ifs at h
  | goto n j => simp [lastReadJudge] at h
  | fork n d => simp [lastReadJudge] at h

theorem not_competes_of_settled (h : lastReadJudge loc i = .settled) : ¬ Competes loc i := by
  obtain ⟨n, rfl, hn⟩ := covers_of_settled h
  rintro (⟨m, h', -⟩ | ⟨m, h', -, hm⟩)
  · cases h'
  · cases h'
    exact hm hn

theorem not_competes_of_goOn (h : lastReadJudge loc i = .goOn) : ¬ Competes loc i := by
  rintro (⟨n, rfl, hn⟩ | ⟨n, rfl, hn, hw⟩)
  · simp [lastReadJudge, hn] at h
  · simp [lastReadJudge, hn, hw] at h

theorem not_covers_of_goOn (h : lastReadJudge loc i = .goOn) : ¬ Covers loc i := by
  rintro ⟨n, rfl, hn⟩
  simp [lastReadJudge, hn] at h

theorem goOn_of_passes (h : Passes (g.lastReadScan loc) i) : lastReadJudge loc i = .goOn := by
  rcases h with h | h
  · cases i with
    | define n => cases h
    | use n => cases h
    | goto n j => rfl
    | fork n d => rfl
  · exact h

theorem followed_contested (g : Graph) (loc : Node) :
    g.Followed (g.lastReadScan loc) (g.Contested loc) :=
  followed_meets (P := (¬ Covers loc ·)) (Q := fun _ => Competes loc)
    (fun h => not_covers_of_goOn (goOn_of_passes h))
    (fun h => not_competes_of_goOn (goOn_of_passes h))
    fun h => ⟨not_competes_of_settled h, not_not_intro (covers_of_settled h)⟩

end Contested

theorem bounded_lastRead (g : Graph) (loc : Node) : g.Bounded (g.lastReadScan loc) g.size where
  top_le := Nat.le_refl _
  sound h := by
    simp only [lastReadScan, Bool.or_eq_true, decide_eq_true_eq] at h
    omega
  past_top h := by
    simp only [lastReadScan, Bool.or_eq_true, decide_eq_true_eq]
    omega
  past_end _ h := by
    simp only [lastReadScan, Bool.or_eq_true, decide_eq_true_eq]
    exact .inl h
  apart_comm a b u := by simp only [lastReadScan, Nat.max_comm, Nat.min_comm]

def lastReadDropped (g : Graph) (loc : Node) (pc : Nat) : List Nat :=
  g.dropped (g.lastReadScan loc) (scanDepth g.size) pc g.size

theorem contested_iff_dropped {g : Graph} (h : g.scanLastRead loc pc = .at e) :
    g.Contested loc pc ↔ ∃ c ∈ g.lastReadDropped loc pc, g.Contested loc c := by
  have hend : ¬ g.Contested loc e := by
    refine (followed_contested g loc).beyond ?_
    have := le_of_scan h
    rw [Array.getElem?_eq_none_iff]
    change g.size ≤ e
    omega
  rw [(followed_contested g loc).scan _ _ _ h, or_iff_right hend]
  rfl

theorem not_contested_of_tidy {g : Graph} (ht : Tidy g.code.toList) (hexit : g.LeavesPast)
    (h : g.scanLastRead loc pc = .at e) : ¬ g.Contested loc pc := by
  rw [contested_iff_dropped h]
  rintro ⟨c, hm, hc⟩
  have hfar := ht.dropped_far (bounded_lastRead g loc) hexit h c hm
  refine (followed_contested g loc).beyond ?_ hc
  rw [Array.getElem?_eq_none_iff]
  have : g.code.size = g.size := rfl
  rcases hfar with hfar | hfar <;> omega

end Graph

namespace Oracle

theorem isLastRead_eq_true {o o' : Oracle} (h : o.isLastRead n = .ok (true, o')) :
    ∃ m pc e, n.skipConv = .ok m ∧ o.graph.find? m = some pc ∧
      o.graph.scanLastRead m (pc + 1) = .at e := by
  obtain ⟨m, hm, h⟩ := bind_eq_ok.1 h
  refine ⟨m, ?_⟩
  rcases hf : o.graph.find? m with _ | pc
  · rw [hf] at h
    cases h
  · rw [hf] at h
    dsimp only at h
    rcases hs : o.graph.scanLastRead m (pc + 1) with e | w | _ <;> rw [hs] at h
    · exact ⟨pc, e, hm, rfl, hs⟩
    · cases h
    · cases h

/-- The exact strength of a positive answer. The scan has followed every way but those it dropped,
so the read is contested just when a dropped place is, and in a body without `break` and `try` it
never is. -/
theorem lastRead_contested_iff {r : Routine} {ss : Symbols} {types : TypeTable} {o o' : Oracle}
    {n : Node} (hg : r.graph ss types = .ok o.graph) (h : o.isLastRead n = .ok (true, o')) :
    ∃ m pc, n.skipConv = .ok m ∧ o.graph.find? m = some pc ∧
      (o.graph.Contested m (pc + 1) ↔
        ∃ c ∈ o.graph.lastReadDropped m (pc + 1), o.graph.Contested m c) ∧
      (r.body.Structured → o.graph.size ≤ exitTarget → ¬ o.graph.Contested m (pc + 1)) := by
  obtain ⟨m, pc, e, hm, hpc, he⟩ := isLastRead_eq_true h
  exact ⟨m, pc, hm, hpc, Graph.contested_iff_dropped he, fun hr hexit =>
    Graph.not_contested_of_tidy (Graph.graph_tidy hg hr) (fun _ => hexit) he⟩

end Oracle

/-! ## A way that is lost -/

def Sample.graphOf (r : Routine) (ss : Symbols) : Graph :=
  match r.graph ss {} with
  | .ok g => g
  | .error _ => {}

namespace BrokenBlock

open Sample

def symbols : Symbols where
  all := #[{ name := "f", kind := .proc }, { name := "c", owner := some 0 },
    { name := "d", owner := some 0 }, { name := "x", kind := .varLocal, owner := some 0 },
    { name := "L", kind := .label, owner := some 0 }, { name := "use", kind := .proc }]

def read : Node := sym 3 0 1

/-- Within block `L`: read `x`, leave the block if both conditions hold, write `x`. Behind the block
`x` is read again. -/
def routine : Routine where
  sym := some 0
  params := [some 1, some 2]
  body := node .stmtList 0 2 [
    node .block 0 3 [sym 4 0 4, node .stmtList 0 5 [
      node .call 0 6 [sym 5 0 7, read],
      node .ifStmt 0 8 [node .elifBranch 0 9 [sym 1 0 10,
        node .ifStmt 0 11 [node .elifBranch 0 12 [sym 2 0 13, node .breakStmt 0 14 [sym 4 0 15]]]]],
      node .asgn 0 16 [sym 3 0 17, node .strLit 0 18 []]]],
    node .call 0 19 [sym 5 0 20, sym 3 0 21]]

def graph : Graph := graphOf routine symbols

/-- The way out of the block: over both forks to the jump, and from there to the second read. -/
theorem contested_read : graph.Contested read 1 := by
  have hon : ∀ {i}, Graph.lastReadJudge read i = .goOn → ¬ Graph.Covers read i :=
    Graph.not_covers_of_goOn
  refine ⟨9, .use (sym 3 0 21), ?_, rfl, .inl ⟨sym 3 0 21, rfl, rfl⟩⟩
  exact .step rfl (hon rfl) (.access rfl rfl) <| .step rfl (hon rfl) (.stay rfl) <|
    .step rfl (hon rfl) (.access rfl rfl) <|
    .step rfl (hon rfl) (.stay rfl) <|
    .step rfl (hon rfl) (.goto rfl) <| .refl 9

theorem isLastRead_read : Oracle.isLastRead ⟨graph, none⟩ read = .ok (true, ⟨graph, none⟩) := by
  with_unfolding_all rfl

end BrokenBlock

open BrokenBlock Sample in
/-- The first read counts as the last one although it is contested. -/
theorem lastRead_past_break : routine.graph symbols {} = .ok graph ∧
    Oracle.isLastRead ⟨graph, none⟩ read = .ok (true, ⟨graph, none⟩) ∧
    read.skipConv = .ok read ∧ graph.find? read = some 0 ∧ graph.Contested read 1 :=
  ⟨rfl, isLastRead_read, rfl, rfl, contested_read⟩

open BrokenBlock Sample in
/-- There the scan drops the place behind the block. -/
theorem lastRead_contested_iff_brokenBlock : ∃ m pc, read.skipConv = .ok m ∧
    graph.find? m = some pc ∧
    (graph.Contested m (pc + 1) ↔
      ∃ c ∈ graph.lastReadDropped m (pc + 1), graph.Contested m c) ∧
    (routine.body.Structured → graph.size ≤ exitTarget → ¬ graph.Contested m (pc + 1)) :=
  Oracle.lastRead_contested_iff (o := ⟨graph, none⟩)
    (show routine.graph symbols {} = .ok graph from rfl) isLastRead_read

end Lifecycle
