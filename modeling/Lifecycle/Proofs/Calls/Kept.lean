import Lifecycle.Proofs.Calls.Count
import Lifecycle.Proofs.Injection.Outcome

/-!
# Injection keeps calls

A body in which no call stands in a location that may be written down twice has after injection as
many calls of each routine as before. Without that condition it fails: a call in the index of a
destination is evaluated twice.
-/

namespace Lifecycle

open Node

def Tally.calls (f : SymRef) : Tally where
  kind := .call
  hits kind sym := kind = .sym ∧ sym = some f
  either := Or.inr rfl
  named _ _ _ h := (of_decide_eq_true h).1

namespace Tally

variable {f : SymRef}

theorem own_calls (ks : List Node) :
    (Tally.calls f).own ks = if ks.head?.any (·.isSym (some f)) = true then 1 else 0 := by
  rcases ks with _ | ⟨_ | ⟨h, js⟩, ks⟩ <;> simp [Tally.own, Tally.calls]

mutual

theorem of_callsTo : ∀ n : Node, (Tally.calls f).of n = n.callsTo f
  | .hole => rfl
  | .node h ks => by
    rw [Tally.of, callsTo, own_calls, all_callsTo ks]
    by_cases hk : h.kind = .call <;> simp [Tally.calls, hk]

theorem all_callsTo : ∀ ks : List Node, (Tally.calls f).all ks = callsToAll f ks
  | [] => rfl
  | n :: ks => by rw [Tally.all_cons, callsToAll_cons, of_callsTo n, all_callsTo ks]

end

theorem Even.callsTo (h : (Tally.calls f).Even [n] [out] l) : out.callsTo f = n.callsTo f := by
  have hdecl : ∀ r, (Tally.calls f).declares r = 0 := fun r => by simp [declares, Tally.calls]
  have hnotes : (Tally.calls f).opened l = 0 ∧ (Tally.calls f).made l = 0 := by
    clear h
    induction l with
    | nil => exact ⟨rfl, rfl⟩
    | cons e l ih =>
      rw [opened_cons, made_cons, ih.1, ih.2]
      cases e <;> simp [opens, makes, hdecl]
  have := h.count
  rw [hnotes.1, hnotes.2] at this
  simpa [of_callsTo] using this

end Tally

/-! ## What is known of a tree without such calls -/

namespace Node.Watch

variable {w : Watch} {fate : Fate} {h : Head} {ks : List Node}

theorem singleLast_append : ∀ {ks : List Node}, w.singleLast fate (ks ++ [a]) = true →
    (∀ b ∈ ks, w.single .read b = true) ∧ w.single fate a = true
  | [], hs => ⟨by simp, hs⟩
  | b :: ks, hs => by
    rw [List.cons_append, singleLast, Bool.and_eq_true] at hs
    · obtain ⟨hks, ha⟩ := singleLast_append hs.2
      exact ⟨List.forall_mem_cons.2 ⟨hs.1, hks⟩, ha⟩
    · simp

theorem single_part (hp : Node.Part f n g a) (hs : w.single f n = true) : w.single g a = true := by
  cases hp with
  | dest hk =>
    unfold single at hs
    rcases hk with hk | hk <;> simp only [hk, Bool.and_eq_true] at hs <;> exact hs.2.1.2
  | source hk =>
    unfold single at hs
    rcases hk with hk | hk <;> simp only [hk, Bool.and_eq_true] at hs <;>
      exact singleAll_iff.1 hs.2.2 _ (by simp)
  | stored hk ha =>
    unfold single at hs
    rcases hk with hk | hk | hk <;> simp only [hk, Bool.and_eq_true] at hs <;>
      exact singleAll_iff.1 hs.2 _ ha
  | given hk ha =>
    refine singleAll_iff.1 ?_ _ ha
    unfold single at hs
    rw [Bool.and_eq_true] at hs
    revert hs hk
    cases h : Head.kind _ <;> simp [NodeKind.isConstructor]
  | callee hk =>
    unfold single at hs
    simp only [hk, Bool.and_eq_true] at hs
    exact hs.2.1.2
  | operand hk ha =>
    unfold single at hs
    rcases hk with hk | hk | hk | hk <;> simp only [hk, Bool.and_eq_true] at hs <;>
      exact singleAll_iff.1 hs.2 _ ha
  | before hk ha =>
    unfold single at hs
    rcases hk with hk | hk <;> simp only [hk, Bool.and_eq_true] at hs <;>
      exact (singleLast_append hs.2).1 _ ha
  | last hk =>
    unfold single at hs
    rcases hk with hk | hk <;> simp only [hk, Bool.and_eq_true] at hs <;>
      exact (singleLast_append hs.2).2
  | label _ hk ha =>
    unfold single at hs
    simp only [hk, Bool.and_eq_true] at hs
    exact (singleLast_append hs.2).1 _ ha
  | arm _ hk =>
    unfold single at hs
    rcases hk with hk | hk | hk | hk | hk <;> simp only [hk, Bool.and_eq_true] at hs <;>
      exact (singleLast_append hs.2).2
  | other hk ha =>
    unfold single at hs
    rcases hk with hk | hk | hk | hk | hk | hk | hk | hk | hk | hk | hk <;>
      simp only [hk, Bool.and_eq_true] at hs <;> exact singleAll_iff.1 hs.2 _ ha

theorem arguments_of_singleArgs : ∀ {ps : List Param} {as : List Node},
    w.singleArgs ps as = true → (∀ a ∈ as, a.WellFormed ss) →
      Node.Arguments (fun f n => n.WellFormed ss ∧ w.single f n = true) ps as
  | _, [], _, _ => trivial
  | ps, a :: as, hs, hw => by
    rw [singleArgs, Bool.and_eq_true] at hs
    rw [List.forall_mem_cons] at hw
    refine ⟨⟨hw.1, ?_⟩, arguments_of_singleArgs hs.2 hw.2⟩
    have hfate : (Param.mode ps).fate = if ps.head?.any (·.sink) then .given else .read := by
      unfold Param.mode Mode.fate
      cases ps.head?.any (·.sink) <;> rfl
    exact hfate ▸ hs.1

theorem callsTo_dest (hd : w.destOk dest = true)
    (ht : w.types.isEmpty dest.type = false ∧ ¬ w.ops.IsLifeless w.types dest.type ∨
      dest.isDiscriminantField w.ops.symbols = .ok true) : dest.callsTo w.callee = 0 := by
  cases dest with
  | hole => rfl
  | node dh ks =>
    rcases ht with ⟨he, hl⟩ | ht
    · have he : w.types.isEmpty dh.type = false := he
      have hl : ¬ w.ops.IsLifeless w.types dh.type := hl
      simpa [destOk, absent, he, hl] using hd
    · obtain ⟨dh', hh, ht⟩ := bind_eq_ok.1 ht
      cases hh
      split_ifs at ht with hk
      · cases ht
      have hk : dh.kind = .dot := not_not.1 hk
      obtain ⟨f, hf, ht⟩ := bind_eq_ok.1 ht
      have htag := pure_eq_ok.1 ht
      -- the symbol asked about is that of the second child
      obtain ⟨_, hh, hf⟩ := bind_eq_ok.1 hf
      cases hh
      simp only [hk] at hf
      obtain ⟨k, hkid, hf⟩ := bind_eq_ok.1 hf
      obtain ⟨kh, hkh, hf⟩ := bind_eq_ok.1 hf
      cases k with
      | hole => cases hkh
      | node kh' kks =>
        cases hkh
        cases hf
        have hkid : ks[1]? = some (.node kh kks) := orAbsent_eq_ok hkid
        simpa [destOk, absent, hk, hkid, htag] using hd

end Node.Watch

namespace Ground

variable {k : Ground} {f : SymRef}

def watch (k : Ground) (f : SymRef) : Watch := ⟨k.types, k.ops, k.routine.sym, f⟩

theorem Operator.ne (h : k.Operator r x) (hf : f < k.size)
    (hop : ¬ k.ops.IsOperator f) : r ≠ f := by
  rintro rfl
  rcases h with ⟨h, -⟩ | ⟨h, -⟩
  · exact hop h
  · exact Nat.not_lt.2 h hf

theorem mayMove_of_movable (h : k.Movable n) :
    n.isKind .sym = true ∨ (k.watch f).mayMove n = true := by
  refine h.own.imp_right fun h => ?_
  unfold Watch.mayMove
  rcases h with hown | ⟨s, hroot, hs⟩
  · simp [watch, hown]
  · have hs : k.ops.symbols.all.size ≤ s := hs
    simp [watch, hroot, hs]

def callsOf (k : Ground) (f : SymRef) (hf : f < k.size) (hop : ¬ k.ops.IsOperator f) :
    k.Census where
  toTally := .calls f
  fit fate n := n.WellFormed k.ops.symbols ∧ (k.watch f).single fate n = true
  steady _ n := n.callsTo f = 0
  wellFormed hn := hn.1
  read hn := ⟨hn.1, Watch.single_read _ hn.2⟩
  given hn := ⟨hn.1, Watch.single_given _ hn.2⟩
  part {_ _ n _} hp hn := by
    refine ⟨?_, Watch.single_part hp hn.2⟩
    cases n with
    | hole => cases hp
    | node h ks => exact hn.1.kids _ hp.mem_kids
  arguments {f' h callee args ps} hn hk hps := by
    obtain ⟨hw, hs⟩ := hn
    have hkids : ∀ a ∈ args, a.WellFormed k.ops.symbols := fun a ha => hw.kids a (by simp [ha])
    unfold Watch.single at hs
    simp only [hk, Bool.and_eq_true] at hs
    obtain ⟨sig, hsig, rfl⟩ := hps
    have hparams : callee.calleeParams (k.watch f).types = (sig.map (·.params.items)).getD [] := by
      cases callee with
      | hole => exact absurd (hw.kids .hole (by simp)) WellFormed.ne_hole
      | node ch cs => exact calleeParams_eq rfl hsig
    exact Watch.arguments_of_singleArgs (hparams ▸ hs.2.2) hkids
  refers hn := by
    obtain ⟨site, rfl⟩ := hn
    refine ⟨fun f' => ⟨rfl, ?_⟩, by simp [callsTo]⟩
    cases f' <;> simp [Watch.single, Watch.placeOk, Watch.absent, callsTo, Watch.singleAll]
  default {f' _ _ _ _} hn := by
    obtain ⟨r, ⟨x, callee, ho, ⟨site, rfl⟩, site', rfl⟩, -⟩ := hn
    refine ⟨rfl, ?_⟩
    have hne := ho.ne hf hop
    cases f' <;> simp [Watch.single, Watch.placeOk, Watch.absent, watch, callsTo, Watch.targetOk,
      Watch.singleAll, Watch.singleArgs, hne]
  name hn hk := (Tally.of_callsTo _).trans (Watch.single_isKind_sym hn.2 hk)
  moved {n} hn hm hown := by
    rw [Tally.of_callsTo]
    refine (mayMove_of_movable (f := f) hm).elim (Watch.single_isKind_sym hn.2) fun hm => ?_
    cases n with
    | hole => rfl
    | node h ks => exact Watch.single_given_place hn.2 hm hown.2
  taken hn hm := by
    rw [Tally.of_callsTo]
    exact (mayMove_of_movable hm).elim (Watch.single_isKind_sym hn.2) (Watch.single_stored hn.2)
  same hn hs := (Tally.of_callsTo _).trans
    (sameLocation_callsTo hs hn.1 (Watch.single_read _ hn.2))
  dest hn hk ht := by
    have hs := hn.2
    unfold Watch.single at hs
    rcases hk with hk | hk <;> simp only [hk, Bool.and_eq_true] at hs <;>
      exact Watch.callsTo_dest hs.2.1.1 ht
  target {_ h callee a args ps} hn hk hc hps := by
    obtain ⟨ch, cs, r, rfl, hsym, hr, hnew⟩ := hc
    have hs := hn.2
    unfold Watch.single at hs
    simp only [hk, Bool.and_eq_true] at hs
    have ht : (k.watch f).absent a = true := by
      have hnew : ((k.watch f).ops.symbols.get r).magic = .new := hnew
      simpa [Watch.targetOk, hsym, hr, hnew] using hs.2.1.1
    exact of_decide_eq_true ht
  zero _ hs := (Tally.of_callsTo _).trans hs
  operator ho _ := by simp [Tally.calls, ho.ne hf hop]
  kept _ _ hs heven := (Tally.of_callsTo _).trans (heven.callsTo.trans hs)

end Ground

/-- Injection neither duplicates nor drops calls, where no call stands in a location that may be
written down twice. -/
theorem Routine.inject_callsTo {r : Routine} {env : InjectEnv} {sh : Shared} {res : Injected}
    {f : SymRef} (hw : r.body.WellFormed sh.ops.symbols) (hf : f < sh.ops.symbols.all.size)
    (hop : ¬ sh.ops.IsOperator f)
    (hs : (Watch.mk env.types sh.ops r.sym f).single .read r.body = true)
    (hrun : (r.inject env sh).1 = .ok res) (he : res.error = none) :
    ∃ out, res.body = some out ∧ out.callsTo f = r.body.callsTo f := by
  have hhole : r.body.isHole = false := by
    cases hb : r.body with
    | hole => exact absurd (hb ▸ hw) WellFormed.ne_hole
    | node h ks => rfl
  let k : Ground := { types := env.types, routine := r, ops := sh.ops
                      regular := False, known := False.elim, inside := False.elim }
  have hk : r.Grounded env sh k := ⟨rfl, rfl, rfl, .inr ⟨hw, False.elim⟩⟩
  obtain ⟨out, hout⟩ : ∃ out, res.body = some out := by
    rcases r.inject_cases env sh with ⟨hb, -⟩ | ⟨-, h⟩ | ⟨e, sh', -, h, -⟩
      | ⟨g, c, st, -, -, -, -, -, h⟩
    · rw [hhole] at hb
      cases hb
    · rw [h] at hrun
      cases hrun
      exact ⟨_, rfl⟩
    · rw [h] at hrun
      obtain ⟨d, -, rfl⟩ := of_failure hrun
      cases he
    · rw [(Prod.mk.inj h).1] at hrun
      cases hout : InjectM.body c st with
      | ok out st' =>
        rw [hout] at hrun
        cases hrun
        exact ⟨out, rfl⟩
      | error f st' =>
        rw [hout] at hrun
        obtain ⟨d, -, rfl⟩ := of_failure hrun
        cases he
  refine ⟨out, hout, ?_⟩
  rcases (inject_grounded hk).2 res out hrun hout with ⟨-, rfl⟩ | ⟨-, l, hworks, -⟩
  · rfl
  · exact (Ground.Census.even_works (k.callsOf f hf hop) hworks ⟨hw, hs⟩).callsTo

/-! ## A call in an index -/

namespace CalledIndex

open Sample

def env : InjectEnv where
  types := {
    types := #[{}, { kind := .string }, { kind := .int }, { kind := .seq, elem := 1 },
      { kind := .proc, payload := 1 }, { kind := .proc, payload := 2 }]
    procs := #[{}, { result := 2 }, { params := some [{ type := 1 }], result := 1 }] }

def shared : Shared where
  ops.symbols.all := #[{ name := "f", kind := .proc }, { name := "at", kind := .proc, type := 4 },
    { name := "trim", kind := .proc, type := 5 }, { name := "a", owner := some 0, type := 3 },
    { name := "x", kind := .varLocal, owner := some 0, type := 1 }]

def routine (dest src : Node) : Routine where
  sym := some 0
  params := [some 3]
  body := node .stmtList 0 1 [node .asgn 0 2 [dest, src]]

/-- `a[at()]` -/
def element : Node := node .index 1 3 [sym 3 3 4, node .call 2 5 [sym 1 4 6]]

/-- `a[at()] = ""` -/
def writing : Routine := routine element (node .strLit 1 7 [])

/-- `x = trim(a[at()])` -/
def reading : Routine := routine (sym 4 1 7) (node .call 1 8 [sym 2 5 9, element])

theorem not_isOperator : ¬ shared.ops.IsOperator 1 := by
  rintro (⟨k, hk⟩ | ⟨k, hk⟩ | ⟨k, hk⟩ | ⟨k, hk⟩) <;> cases hk

end CalledIndex

open CalledIndex Sample in
/-- The element is destroyed before it is stored, and each time the index is evaluated. -/
theorem inject_callsTo_written : writing.body.WellFormed shared.ops.symbols ∧
    1 < shared.ops.symbols.all.size ∧ ¬ shared.ops.IsOperator 1 ∧
    writing.body.callsTo 1 = 1 ∧ ∃ res out, (writing.inject env shared).1 = .ok res ∧
      res.error.isNone = true ∧ res.body = some out ∧ out.callsTo 1 = 2 := by
  refine ⟨by rfl, by decide, not_isOperator, by decide, ?_⟩
  obtain ⟨res, hres, hrun⟩ := exists_ok (x := (writing.inject env shared).1)
    (p := fun res => res.error.isNone && res.body.map (·.callsTo 1) == some 2) (by decide +kernel)
  simp only [Bool.and_eq_true, beq_iff_eq, Option.map_eq_some_iff] at hrun
  obtain ⟨he, out, hout, hc⟩ := hrun
  exact ⟨res, out, hres, he, hout, hc⟩

open CalledIndex Sample in
/-- An element that is only read keeps the one call in its index. -/
theorem inject_callsTo_read : ∃ res out, (reading.inject env shared).1 = .ok res ∧
    res.body = some out ∧ out.callsTo 1 = 1 := by
  obtain ⟨res, hres, hrun⟩ := exists_ok (x := (reading.inject env shared).1) (p := (·.error.isNone))
    (by decide +kernel)
  obtain ⟨out, hout, hc⟩ := Routine.inject_callsTo (f := 1)
    (show reading.body.WellFormed shared.ops.symbols by rfl) (by decide) not_isOperator (by decide)
    hres (by simpa using hrun)
  exact ⟨res, out, hres, hout, hc⟩

end Lifecycle
