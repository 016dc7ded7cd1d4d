import Lifecycle.Proofs.Flow.Forward

/-!
# The access that denies a last read

When `Oracle.isLastRead` says no, `otherRead` should name the access that is to blame. Where the
graph knows the read, the blamed access really competes with it (`isLastRead_blames`). A converted
location that is written stands in the graph as it is, while the oracle looks for what is converted:
it says no, and what `otherRead` names is left from an earlier question (`refused_without_reason`).
-/

namespace Lifecycle

namespace Graph

variable {g : Graph} {loc : Node} {i : Instr}

theorem competes_of_clash (h : lastReadJudge loc i = .clash) : Competes loc i := by
  cases i with
  | define n =>
    simp only [lastReadJudge] at h
    split_ifs at h with hcover htouch
    exact .inr ⟨n, rfl, htouch, hcover⟩
  | use n =>
    simp only [lastReadJudge] at h
    split_ifs at h with htouch
    exact .inl ⟨n, rfl, htouch⟩
  | goto n j => cases h
  | fork n d => cases h

/-- From behind `pc` there is a way to an access of `w` that competes with a read of `loc`, over no
write that covers the location. -/
def Denies (g : Graph) (loc : Node) (pc : Nat) (w : Node) : Prop :=
  ∃ last i, g.Way (¬ Covers loc ·) (pc + 1) last ∧ g.code[last]? = some i ∧ i.access? = some w ∧
    Competes loc i

end Graph

namespace Oracle

open Graph

/-- An answer about a read that the graph knows comes with the right `otherRead`, whatever was asked
before: after a refusal it is an access that denies the read, after consent it is none. Any other
node is refused and leaves the oracle as it was, also a conversion that stands in the graph
itself. -/
theorem isLastRead_blames {o : Oracle} (hg : o.graph.Onward) {n m : Node}
    (hm : n.skipConv = .ok m) :
    ∃ answer o', o.isLastRead n = .ok (answer, o') ∧ o'.graph = o.graph ∧
      (∀ pc, o.graph.find? m = some pc →
        (answer = false → ∃ w, o.graph.Denies m pc w ∧ o'.otherRead = some w) ∧
        (answer = true → o'.otherRead = none)) ∧
      (o.graph.find? m = none → answer = false ∧ o' = o) := by
  rcases hpc : o.graph.find? m with _ | pc
  · exact ⟨false, o, bind_eq_ok.2 ⟨m, hm, by simp only [hpc]; rfl⟩, rfl, by simp, fun _ =>
      ⟨rfl, rfl⟩⟩
  have hlost := scan_ne_lost hg (o.graph.steady_lastRead m o.graph.size) _ (pc + 1) o.graph.size
    (Nat.le_refl _) (stepsFor_le_scanDepth _ _)
  have hfound := (scans_of_scan _ _ _ hlost).found (.inl (.refl _))
  rcases hs : o.graph.scan (o.graph.lastReadScan m) (scanDepth o.graph.size) (pc + 1) o.graph.size
    with e | w | _
  · refine ⟨true, { o with otherRead := none },
      bind_eq_ok.2 ⟨m, hm, by simp only [hpc, scanLastRead, hs]; rfl⟩, rfl, fun _ _ => ?_, by simp⟩
    exact ⟨by simp, fun _ => rfl⟩
  · rw [hs] at hfound
    obtain ⟨last, i, hway, hi, ha, hj⟩ := hfound
    refine ⟨false, { o with otherRead := some w },
      bind_eq_ok.2 ⟨m, hm, by simp only [hpc, scanLastRead, hs]; rfl⟩, rfl, ?_, by simp⟩
    rintro _ ⟨⟩
    refine ⟨fun _ => ⟨w, ⟨last, i, hway.mono fun _ h => ?_, hi, ha, competes_of_clash hj⟩,
      rfl⟩, by simp⟩
    exact not_covers_of_goOn (goOn_of_passes h)
  · exact absurd hs hlost

end Oracle

/-! ## A read behind a branch -/

namespace Rejoined

open Sample

def symbols : Symbols where
  all := #[{ name := "f", kind := .proc }, { name := "c", owner := some 0 },
    { name := "x", kind := .varLocal, owner := some 0 }, { name := "use", kind := .proc }]

/-- `x` is read, and read again behind a branch that writes it. -/
def routine : Routine where
  sym := some 0
  params := [some 1]
  body := node .stmtList 0 0 [node .call 0 0 [sym 3 0 1, sym 2 0 2],
    node .ifStmt 0 0 [node .elifBranch 0 0 [sym 1 0 3, node .asgn 0 0 [sym 2 0 4,
      node .strLit 0 0 []]]],
    node .call 0 0 [sym 3 0 5, sym 2 0 6]]

def graph : Graph := graphOf routine symbols

end Rejoined

open Rejoined Sample in
/-- The second read is blamed: the branch that writes `x` is out, the way around it is not. -/
theorem isLastRead_blames_rejoined : routine.graph symbols {} = .ok graph ∧ graph.Onward ∧
    (sym 2 0 2).skipConv = .ok (sym 2 0 2) ∧ graph.find? (sym 2 0 2) = some 0 ∧
    Oracle.isLastRead ⟨graph, none⟩ (sym 2 0 2) = .ok (false, ⟨graph, some (sym 2 0 6)⟩) ∧
    graph.Denies (sym 2 0 2) 0 (sym 2 0 6) := by
  have hg : routine.graph symbols {} = .ok graph := rfl
  have hon : graph.Onward := (Graph.forward_graph hg (by decide)).toOnward
  have hrun : Oracle.isLastRead ⟨graph, none⟩ (sym 2 0 2) =
      .ok (false, ⟨graph, some (sym 2 0 6)⟩) := by with_unfolding_all rfl
  obtain ⟨answer, o', hask, -, hknown, -⟩ := Oracle.isLastRead_blames (o := ⟨graph, none⟩) hon
    (show (sym 2 0 2).skipConv = .ok (sym 2 0 2) from rfl)
  cases hrun.symm.trans hask
  obtain ⟨w, hw, ho⟩ := (hknown 0 rfl).1 rfl
  cases ho
  exact ⟨hg, hon, rfl, rfl, hrun, hw⟩

/-! ## A converted location that is written -/

namespace Converted

open Sample

def symbols : Symbols where
  all := #[{ name := "f", kind := .proc }, { name := "c", kind := .varLocal, owner := some 0 },
    { name := "x", kind := .varLocal, owner := some 0 }, { name := "use", kind := .proc }]

/-- `string(x)` -/
def dest : Node := .node { kind := .conv, site := 3 } [sym 2 0 4]

/-- `c` is read twice, and `x` is written in between, under a conversion. -/
def routine : Routine where
  sym := some 0
  body := node .stmtList 0 0 [node .call 0 0 [sym 3 0 1, sym 1 0 2],
    node .asgn 0 0 [dest, node .strLit 0 0 []], node .call 0 0 [sym 3 0 5, sym 1 0 6]]

def graph : Graph := graphOf routine symbols

end Converted

open Converted Sample in
/-- The first read of `c` is refused because of the second. After that the location that is written
is refused too, and the second read of `c` is still named, which has nothing to do with `x`. -/
theorem refused_without_reason : routine.graph symbols {} = .ok graph ∧ graph.Onward ∧
    graph.find? dest = some 1 ∧ dest.skipConv = .ok (sym 2 0 4) ∧
    Oracle.isLastRead ⟨graph, none⟩ (sym 1 0 2) = .ok (false, ⟨graph, some (sym 1 0 6)⟩) ∧
    Oracle.isLastRead ⟨graph, some (sym 1 0 6)⟩ dest = .ok (false, ⟨graph, some (sym 1 0 6)⟩) ∧
    (sym 1 0 6).touches dest = false := by
  have hg : routine.graph symbols {} = .ok graph := rfl
  have hon : graph.Onward := (Graph.forward_graph hg (by decide)).toOnward
  exact ⟨hg, hon, rfl, rfl, by with_unfolding_all rfl, by with_unfolding_all rfl, by decide⟩

end Lifecycle
