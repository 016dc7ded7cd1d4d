import Lifecycle.Proofs.Flow.Aliasing
import Lifecycle.Proofs.Tree.WellFormed

/-!
# The same storage

Two expressions denote the same storage just when both are pinned to one place: a root and the
fields and literal indices from it (`Node.Pinned`). So the comparison is symmetric and transitive.
Where nothing but conversions is looked through it says the same as the alias analysis asked both
ways (`Node.sameLocation_settled`).
-/

namespace Lifecycle

namespace Node

variable {g : Head} {js : List Node} {x : Bool}

def literal? : Node → Option Int64
  | .hole => none
  | .node h _ => if h.kind = .intLit then some h.int else none

/-- The one place that an expression stands for, whatever is looked through on the way to it. -/
inductive Pinned : Node → Option SymRef → List Access → Prop
  | sym {h : Head} {ks : List Node} (hk : h.kind = .sym) : Pinned (.node h ks) h.sym []
  | dot {h f : Head} {k : Node} {fs ks : List Node} {r : Option SymRef} {s : List Access}
      (hk : h.kind = .dot) (hp : Pinned k r s) :
      Pinned (.node h (k :: .node f fs :: ks)) r (s ++ [.field f.sym])
  | index {h : Head} {k i : Node} {ks : List Node} {r : Option SymRef} {s : List Access} {v : Int64}
      (hk : h.kind = .index) (hi : i.literal? = some v) (hp : Pinned k r s) :
      Pinned (.node h (k :: i :: ks)) r (s ++ [.index v])
  | through {h : Head} {k : Node} {ks : List Node} {r : Option SymRef} {s : List Access}
      (hk : isTransparent h.kind = true) (hp : Pinned k r s) : Pinned (.node h (k :: ks)) r s

def Shared (a b : Node) : Prop := ∃ r s, a.Pinned r s ∧ b.Pinned r s

/-- How a comparison goes that looks at one side at a time: what is no end point is opened on the
first side, and the sides change places when only the first is an end point. -/
inductive Compared : Node → Node → Bool → Prop
  | sym {g h : Head} {js ks : List Node} (hg : g.kind = .sym) (hh : h.kind = .sym) :
      Compared (.node g js) (.node h ks) (decide (g.sym = h.sym))
  | dot {g h e f : Head} {j k : Node} {es fs js ks : List Node} {x : Bool} (hg : g.kind = .dot)
      (hh : h.kind = .dot) (hc : Compared j k x) :
      Compared (.node g (j :: .node e es :: js)) (.node h (k :: .node f fs :: ks))
        (x && decide (e.sym = f.sym))
  | index {g h : Head} {e f j k : Node} {js ks : List Node} {x : Bool} (hg : g.kind = .index)
      (hh : h.kind = .index) (hc : Compared j k x) :
      Compared (.node g (j :: e :: js)) (.node h (k :: f :: ks))
        (x && (e.literal?.isSome && decide (e.literal? = f.literal?)))
  | unlike {g h : Head} {js ks : List Node} (hg : isEndPoint g.kind = true)
      (hh : isEndPoint h.kind = true) (hne : g.kind ≠ h.kind) :
      Compared (.node g js) (.node h ks) false
  | turned {g h : Head} {js ks : List Node} {x : Bool} (hg : isEndPoint g.kind = true)
      (hh : isEndPoint h.kind = false) (hc : Compared (.node h ks) (.node g js) x) :
      Compared (.node g js) (.node h ks) x
  | opened {h : Head} {k b : Node} {ks : List Node} {x : Bool} (hk : isTransparent h.kind = true)
      (hc : Compared k b x) : Compared (.node h (k :: ks)) b x
  | other {h : Head} {b : Node} {ks : List Node} (he : isEndPoint h.kind = false)
      (ht : isTransparent h.kind = false) : Compared (.node h ks) b false

section Pinned

variable {j : Node}
variable {h f : Head} {n k a b c : Node} {ks fs : List Node} {r r' : Option SymRef}
  {s s' : List Access}

theorem isEndPoint_of_isTransparent (ht : isTransparent h.kind = true) :
    isEndPoint h.kind = false := by
  cases hk : h.kind <;> simp_all [isTransparent, isEndPoint]

theorem isEndPoint_iff : isEndPoint h.kind = true ↔
    h.kind = .sym ∨ h.kind = .dot ∨ h.kind = .index := by
  cases h.kind <;> simp [isEndPoint]

theorem pinned_sym (hk : h.kind = .sym) : (node h ks).Pinned r s ↔ r = h.sym ∧ s = [] := by
  refine ⟨fun hp => ?_, fun ⟨hr, hs⟩ => hr ▸ hs ▸ .sym hk⟩
  cases hp <;> simp_all [isTransparent]

theorem pinned_dot (hk : h.kind = .dot) : (node h (k :: .node f fs :: ks)).Pinned r s ↔
    ∃ t, k.Pinned r t ∧ s = t ++ [.field f.sym] := by
  refine ⟨fun hp => ?_, fun ⟨t, hp, hs⟩ => hs ▸ .dot hk hp⟩
  cases hp <;> simp_all [isTransparent]

theorem pinned_index (hk : h.kind = .index) : (node h (k :: i :: ks)).Pinned r s ↔
    ∃ v t, i.literal? = some v ∧ k.Pinned r t ∧ s = t ++ [.index v] := by
  refine ⟨fun hp => ?_, fun ⟨v, t, hi, hp, hs⟩ => hs ▸ .index hk hi hp⟩
  cases hp <;> simp_all [isTransparent]

theorem pinned_through (hk : isTransparent h.kind = true) :
    (node h (k :: ks)).Pinned r s ↔ k.Pinned r s := by
  refine ⟨fun hp => ?_, .through hk⟩
  cases hp <;> simp_all [isTransparent]

theorem not_pinned (he : isEndPoint h.kind = false) (ht : isTransparent h.kind = false) :
    ¬ (node h ks).Pinned r s := by
  intro hp
  cases hp <;> simp_all [isEndPoint]

theorem Pinned.unique (hp : n.Pinned r s) (hp' : n.Pinned r' s') : r = r' ∧ s = s' := by
  induction hp generalizing s' with
  | sym hk => simp_all [pinned_sym hk]
  | dot hk _ ih =>
    obtain ⟨t, ht, rfl⟩ := (pinned_dot hk).1 hp'
    simp [ih ht]
  | index hk _ _ ih =>
    obtain ⟨v, t, hv, ht, rfl⟩ := (pinned_index hk).1 hp'
    simp_all [ih ht]
  | through hk _ ih => exact ih ((pinned_through hk).1 hp')

theorem Shared.symm (hs : a.Shared b) : b.Shared a := by
  obtain ⟨r, s, ha, hb⟩ := hs
  exact ⟨r, s, hb, ha⟩

theorem Shared.trans (hs : a.Shared b) (hs' : b.Shared c) : a.Shared c := by
  obtain ⟨r, s, ha, hb⟩ := hs
  obtain ⟨r', s', hb', hc⟩ := hs'
  obtain ⟨rfl, rfl⟩ := hb.unique hb'
  exact ⟨r, s, ha, hc⟩

theorem Pinned.kind_eq (hp : (node h ks).Pinned r s) (he : isEndPoint h.kind = true) :
    h.kind = match s.getLast? with
      | none => .sym
      | some (.index _) => .index
      | some _ => .dot := by
  cases hp with
  | sym hk | dot hk | index hk => simp [hk]
  | through hk => simp [isEndPoint_of_isTransparent hk] at he

theorem not_shared_of_ne (hg : isEndPoint g.kind = true) (hh : isEndPoint h.kind = true)
    (hne : g.kind ≠ h.kind) : ¬ (node g js).Shared (.node h ks) := by
  rintro ⟨r, s, hp, hp'⟩
  exact hne ((hp.kind_eq hg).trans (hp'.kind_eq hh).symm)

theorem shared_dot {e : Head} {es : List Node} (hg : g.kind = .dot) (hh : h.kind = .dot) :
    (node g (j :: .node e es :: js)).Shared (.node h (k :: .node f fs :: ks)) ↔
      j.Shared k ∧ e.sym = f.sym := by
  simp only [Shared, pinned_dot hg, pinned_dot hh]
  constructor
  · rintro ⟨r, _, ⟨t, ht, rfl⟩, t', ht', heq⟩
    obtain ⟨rfl, he⟩ := List.append_inj' heq rfl
    exact ⟨⟨r, t, ht, ht'⟩, by simpa using he⟩
  · rintro ⟨⟨r, t, ht, ht'⟩, he⟩
    exact ⟨r, _, ⟨t, ht, rfl⟩, t, ht', by rw [he]⟩

theorem shared_index {e f : Node} (hg : g.kind = .index) (hh : h.kind = .index) :
    (node g (j :: e :: js)).Shared (.node h (k :: f :: ks)) ↔
      j.Shared k ∧ e.literal?.isSome = true ∧ e.literal? = f.literal? := by
  simp only [Shared, pinned_index hg, pinned_index hh]
  constructor
  · rintro ⟨r, _, ⟨v, t, he, ht, rfl⟩, w, t', hf, ht', heq⟩
    obtain ⟨rfl, hi⟩ := List.append_inj' heq rfl
    exact ⟨⟨r, t, ht, ht'⟩, by simp [he], by simp_all⟩
  · rintro ⟨⟨r, t, ht, ht'⟩, he, hf⟩
    obtain ⟨v, hv⟩ := Option.isSome_iff_exists.1 he
    exact ⟨r, _, ⟨v, t, hv, ht, rfl⟩, v, t, hf ▸ hv, ht', rfl⟩

theorem Pinned.first (hk : h.kind = .dot ∨ h.kind = .index) (hp : (node h (k :: ks)).Pinned r s) :
    ∃ t x, k.Pinned r t ∧ s = t ++ [x] := by
  cases hp with
  | sym hs => simp_all
  | dot _ hp | index _ _ hp => exact ⟨_, _, hp, rfl⟩
  | through ht => rcases hk with hk | hk <;> simp [isTransparent, hk] at ht

theorem Shared.first (hg : g.kind = .dot ∨ g.kind = .index) (hh : h.kind = .dot ∨ h.kind = .index)
    (hs : (node g (j :: js)).Shared (.node h (k :: ks))) : j.Shared k := by
  obtain ⟨r, s, hp, hp'⟩ := hs
  obtain ⟨t, x, ht, rfl⟩ := hp.first hg
  obtain ⟨t', x', ht', heq⟩ := hp'.first hh
  obtain ⟨rfl, -⟩ := List.append_inj' heq rfl
  exact ⟨r, t, ht, ht'⟩

theorem Compared.shared (hc : Compared a b x) : x = true ↔ a.Shared b := by
  induction hc with
  | sym hg hh => simp [Shared, pinned_sym hg, pinned_sym hh]
  | dot hg hh _ ih => simp [shared_dot hg hh, ih]
  | index hg hh _ ih => simp [shared_index hg hh, ih]
  | unlike hg hh hne => simp [not_shared_of_ne hg hh hne]
  | turned _ _ _ ih => exact ih.trans ⟨Shared.symm, Shared.symm⟩
  | opened hk _ ih => simpa only [Shared, pinned_through hk] using ih
  | other he ht => simp [Shared, not_pinned he ht]

end Pinned

/-! ## The answer of the comparison -/

section Answers

variable {n m a b : Node}

theorem pinned_endPoint : ∀ {n : Node} {e : Option Node}, n.endPoint? = .ok e →
    ∀ r s, n.Pinned r s ↔ ∃ m, e = some m ∧ m.Pinned r s
  | .hole, _, h, _, _ => by cases h
  | .node h [], e, hn, r, s => by
    rw [endPoint?] at hn
    split_ifs at hn with he ht
    · cases hn
      simp
    · cases hn
      simp [not_pinned (by simpa using he) (by simpa using ht)]
  | .node h (k :: ks), e, hn, r, s => by
    rw [endPoint?] at hn
    split_ifs at hn with he ht
    · cases hn
      simp
    · rw [pinned_through ht, pinned_endPoint hn]
    · cases hn
      simp [not_pinned (by simpa using he) (by simpa using ht)]

theorem isEndPoint_of_endPoint : ∀ {n m : Node}, n.endPoint? = .ok (some m) →
    ∃ h ks, m = .node h ks ∧ isEndPoint h.kind = true
  | .hole, _, h => by cases h
  | .node hd [], m, h => by
    rw [endPoint?] at h
    split_ifs at h with he
    · cases h
      exact ⟨hd, [], rfl, he⟩
    · cases h
  | .node hd (a :: ks), m, h => by
    rw [endPoint?] at h
    split_ifs at h with he
    · cases h
      exact ⟨hd, a :: ks, rfl, he⟩
    · exact isEndPoint_of_endPoint h
    · cases h

theorem sameConstant_eq {e f : Node} (h : e.sameConstant f = .ok x) :
    x = (e.literal?.isSome && decide (e.literal? = f.literal?)) := by
  rcases e with _ | ⟨e, es⟩
  · cases h
  by_cases he : e.kind = .intLit
  · rcases f with _ | ⟨f, fs⟩
    · simp [sameConstant, info, he, bind, Except.bind] at h
    · by_cases hf : f.kind = .intLit <;>
        simp_all [sameConstant, info, bind, Except.bind, pure, Except.pure, literal?]
  · simp_all [sameConstant, info, bind, Except.bind, pure, Except.pure, literal?]

theorem shared_of_first {fuel : Nat} {h : Head} {ks : List Node} {F : Except Fault Bool}
    (ih : ∀ {a b x}, sameWithin fuel a b = .ok x → (x = true ↔ a.Shared b))
    (hg : g.kind = .dot ∨ g.kind = .index) (hh : h.kind = .dot ∨ h.kind = .index)
    (hx : (do
      if ← sameWithin fuel (← (node g js).kid 0) (← (node h ks).kid 0) then F else return false) =
        .ok x) :
    (x = false ∧ ¬ (node g js).Shared (.node h ks)) ∨
      ∃ j js' k ks', js = j :: js' ∧ ks = k :: ks' ∧ j.Shared k ∧ F = .ok x := by
  rcases js with _ | ⟨j, js⟩
  · cases hx
  rcases ks with _ | ⟨k, ks⟩
  · cases hx
  replace hx : (do if ← sameWithin fuel j k then F else return false) = .ok x := hx
  obtain ⟨same, hsame, hx⟩ := bind_eq_ok.1 hx
  cases same with
  | false =>
    cases hx
    exact .inl ⟨rfl, fun hs => by cases (ih hsame).2 (hs.first hg hh)⟩
  | true => exact .inr ⟨j, js, k, ks, rfl, rfl, (ih hsame).1 rfl, hx⟩

theorem shared_of_sameWithin : ∀ {fuel : Nat} {a b : Node} {x : Bool}, sameWithin fuel a b = .ok x →
    (x = true ↔ a.Shared b)
  | 0, _, _, _, h => by cases h
  | fuel + 1, a, b, x, h => by
    obtain ⟨a', ha, h⟩ := bind_eq_ok.1 h
    have hpa := pinned_endPoint ha
    rcases a' with _ | a'
    · cases h
      simp [Shared, hpa]
    obtain ⟨b', hb, h⟩ := bind_eq_ok.1 h
    have hpb := pinned_endPoint hb
    rcases b' with _ | b'
    · cases h
      simp [Shared, hpb]
    obtain ⟨g, js, rfl, hg⟩ := isEndPoint_of_endPoint ha
    obtain ⟨hd, ks, rfl, hh⟩ := isEndPoint_of_endPoint hb
    have hs : a.Shared b ↔ (node g js).Shared (.node hd ks) := by simp [Shared, hpa, hpb]
    rw [hs]
    simp only [info, bind, Except.bind] at h
    split_ifs at h with hne
    · cases h
      simp [not_shared_of_ne hg hh hne]
    have heq := not_not.1 hne
    rcases isEndPoint_iff.1 hg with hk | hk | hk <;> simp only [hk] at h
    · cases h
      simp [Shared, pinned_sym hk, pinned_sym (heq ▸ hk)]
    · obtain ⟨rfl, hno⟩ | ⟨j, js, k, ks, rfl, rfl, hjk, h⟩ :=
        shared_of_first shared_of_sameWithin (.inl hk) (.inl (heq ▸ hk)) h
      · simp [hno]
      rcases js with _ | ⟨_ | ⟨e, es⟩, js⟩
      · cases h
      · cases h
      rcases ks with _ | ⟨_ | ⟨f, fs⟩, ks⟩
      · cases h
      · cases h
      cases h
      simp [shared_dot hk (heq ▸ hk), hjk]
    · obtain ⟨rfl, hno⟩ | ⟨j, js, k, ks, rfl, rfl, hjk, h⟩ :=
        shared_of_first shared_of_sameWithin (.inr hk) (.inr (heq ▸ hk)) h
      · simp [hno]
      rcases js with _ | ⟨e, js⟩
      · cases h
      rcases ks with _ | ⟨f, ks⟩
      · cases h
      simp [shared_index hk (heq ▸ hk), hjk, sameConstant_eq h]

inductive Legible : Node → Prop
  | sym {h : Head} {ks : List Node} (hk : h.kind = .sym) : Legible (.node h ks)
  | part {h f : Head} {k : Node} {fs ks : List Node} (hk : h.kind = .dot ∨ h.kind = .index)
      (hp : Legible k) : Legible (.node h (k :: .node f fs :: ks))
  | through {h : Head} {k : Node} {ks : List Node} (hk : isTransparent h.kind = true)
      (hp : Legible k) : Legible (.node h (k :: ks))
  | other {h : Head} {ks : List Node} (he : isEndPoint h.kind = false)
      (ht : isTransparent h.kind = false) : Legible (.node h ks)

variable {ss : Symbols}

theorem WellFormed.legible : ∀ {n : Node}, n.WellFormed ss → n.Legible
  | .hole, hw => absurd hw WellFormed.ne_hole
  | .node h ks, hw => by
    have hl := hw.node.1
    by_cases he : isEndPoint h.kind = true
    · rcases isEndPoint_iff.1 he with hk | hk | hk
      · exact .sym hk
      · obtain ⟨a, f, rfl, hf⟩ := hw.dot hk
        cases f with
        | hole => cases hf
        | node f fs => exact .part (.inl hk) (hw.kids a (by simp)).legible
      · obtain ⟨a, i, rfl⟩ := hw.pair (by simp [layoutFaults, hk])
        cases i with
        | hole => exact absurd (hw.kids _ (by simp)) WellFormed.ne_hole
        | node i is => exact .part (.inr hk) (hw.kids a (by simp)).legible
    · by_cases ht : isTransparent h.kind = true
      · obtain ⟨a, rfl⟩ : ∃ a, ks = [a] := by
          refine one_of_wantKids ?_
          cases hk : h.kind <;> simp_all [isTransparent, layoutFaults]
        exact .through ht (hw.kids a (by simp)).legible
      · exact .other (by simpa using he) (by simpa using ht)

theorem exists_compared_end (hg : isEndPoint g.kind = true)
    (hends : ∀ {h ks}, isEndPoint h.kind = true → (node h ks).Legible →
      (∃ x, Compared (.node g js) (.node h ks) x) ∧ ∃ x, Compared (.node h ks) (.node g js) x)
    (hb : b.Legible) : (∃ x, Compared (.node g js) b x) ∧ ∃ x, Compared b (.node g js) x := by
  induction hb with
  | sym hk => exact hends (isEndPoint_iff.2 (.inl hk)) (.sym hk)
  | part hk hp => exact hends (isEndPoint_iff.2 (.inr hk)) (.part hk hp)
  | through ht _ ih =>
    obtain ⟨-, x, hx⟩ := ih
    exact ⟨⟨x, .turned hg (isEndPoint_of_isTransparent ht) (.opened ht hx)⟩, x, .opened ht hx⟩
  | other he ht => exact ⟨⟨_, .turned hg he (.other he ht)⟩, _, .other he ht⟩

theorem exists_turned (hg : isEndPoint g.kind = false)
    (hall : ∀ {b}, Legible b → ∃ x, Compared (.node g js) b x) (hb : b.Legible) :
    ∃ x, Compared b (.node g js) x := by
  induction hb with
  | sym hk => exact (hall (.sym hk)).imp fun _ => .turned (isEndPoint_iff.2 (.inl hk)) hg
  | part hk hp => exact (hall (.part hk hp)).imp fun _ => .turned (isEndPoint_iff.2 (.inr hk)) hg
  | through ht _ ih => exact ih.imp fun _ => .opened ht
  | other he ht => exact ⟨_, .other he ht⟩

theorem exists_compared (ha : a.Legible) (hb : b.Legible) :
    (∃ x, Compared a b x) ∧ ∃ x, Compared b a x := by
  induction ha generalizing b with
  | @sym g js hk =>
    have hg := isEndPoint_iff.2 (.inl hk)
    refine exists_compared_end hg (fun {h ks} hh _ => ?_) hb
    by_cases hk' : h.kind = .sym
    · exact ⟨⟨_, .sym hk hk'⟩, _, .sym hk' hk⟩
    · exact ⟨⟨_, .unlike hg hh (hk ▸ Ne.symm hk')⟩, _, .unlike hh hg (hk ▸ hk')⟩
  | @part g e j es js hk _ ih =>
    have hg := isEndPoint_iff.2 (.inr hk)
    refine exists_compared_end hg (fun {h ks} hh hb => ?_) hb
    by_cases heq : g.kind = h.kind
    · cases hb with
      | sym hk' => simp_all
      | through ht => simp [isEndPoint_of_isTransparent ht] at hh
      | other he => simp [he] at hh
      | part hk' hp =>
        obtain ⟨⟨x, hx⟩, y, hy⟩ := ih hp
        rcases hk with hk | hk
        · exact ⟨⟨_, .dot hk (heq ▸ hk) hx⟩, _, .dot (heq ▸ hk) hk hy⟩
        · exact ⟨⟨_, .index hk (heq ▸ hk) hx⟩, _, .index (heq ▸ hk) hk hy⟩
    · exact ⟨⟨_, .unlike hg hh heq⟩, _, .unlike hh hg (Ne.symm heq)⟩
  | @through g j js ht _ ih =>
    have hall : ∀ {b}, Legible b → ∃ x, Compared (.node g (j :: js)) b x :=
      fun hb => (ih hb).1.imp fun _ => .opened ht
    exact ⟨hall hb, exists_turned (isEndPoint_of_isTransparent ht) hall hb⟩
  | other he ht =>
    exact ⟨⟨_, .other he ht⟩, exists_turned he (fun _ => ⟨_, .other he ht⟩) hb⟩

theorem Legible.endPoint (hn : n.Legible) : n.endPoint? = .ok none ∨
    ∃ m, n.endPoint? = .ok (some m) ∧ m.Legible ∧ m.depth ≤ n.depth := by
  induction hn with
  | @sym h ks hk =>
    refine .inr ⟨_, ?_, .sym hk, Nat.le_refl _⟩
    cases ks <;> simp [endPoint?, hk, isEndPoint]
  | part hk hp =>
    refine .inr ⟨_, ?_, .part hk hp, Nat.le_refl _⟩
    simp [endPoint?, isEndPoint_iff.2 (.inr hk)]
  | through ht _ ih =>
    have he := isEndPoint_of_isTransparent ht
    simp only [endPoint?, he, ht, depth, depths]
    refine ih.imp (by simp) fun ⟨m, hm, hl, hd⟩ => ⟨m, by simpa using hm, hl, by omega⟩
  | @other h ks he ht => cases ks <;> simp [endPoint?, he, ht]

theorem exists_sameConstant : ∃ x, sameConstant (.node e es) (.node f fs) = .ok x := by
  by_cases he : e.kind = .intLit <;>
    simp [sameConstant, info, he, bind, Except.bind, pure, Except.pure]

theorem exists_sameWithin : ∀ (fuel : Nat) {a b : Node}, a.Legible → b.Legible → a.depth ≤ fuel →
    ∃ x, sameWithin fuel a b = .ok x
  | 0, a, b, _, _, hd => by cases a <;> simp [depth] at hd
  | fuel + 1, a, b, ha, hb, hd => by
    rw [sameWithin]
    rcases ha.endPoint with ha | ⟨m, ha, hm, hdm⟩
    · exact ⟨false, by rw [ha]; rfl⟩
    rcases hb.endPoint with hb | ⟨m', hb, hm', -⟩
    · exact ⟨false, by rw [ha, hb]; rfl⟩
    obtain ⟨g, js, rfl, hg⟩ := isEndPoint_of_endPoint ha
    obtain ⟨h, ks, rfl, hh⟩ := isEndPoint_of_endPoint hb
    simp only [ha, hb, info, bind, Except.bind]
    by_cases heq : g.kind = h.kind
    · rw [if_neg (not_not.2 heq)]
      cases hm with
      | sym hk => exact ⟨_, by simp only [hk]; rfl⟩
      | through ht => simp [isEndPoint_of_isTransparent ht] at hg
      | other he => simp [he] at hg
      | part hk hp =>
        cases hm' with
        | sym hk' => simp_all
        | through ht => simp [isEndPoint_of_isTransparent ht] at hh
        | other he => simp [he] at hh
        | part _ hp' =>
          simp only [depth, depths] at hdm
          obtain ⟨same, hsame⟩ := exists_sameWithin fuel hp hp' (by omega)
          rcases hk with hk | hk <;> simp only [hk, kid, kids, orAbsent, List.getElem?_cons_zero,
            hsame] <;>
            cases same
          · exact ⟨false, rfl⟩
          · exact ⟨_, rfl⟩
          · exact ⟨false, rfl⟩
          · exact exists_sameConstant
    · exact ⟨false, by rw [if_pos heq]; rfl⟩

theorem sameLocation_eq (ha : a.Legible) (hb : b.Legible) :
    ∃ x, a.sameLocation b = .ok x ∧ (x = true ↔ a.Shared b) := by
  obtain ⟨x, hx⟩ := exists_sameWithin _ ha hb (Nat.le_refl _)
  exact ⟨x, hx, shared_of_sameWithin hx⟩

theorem sameLocation_iff (ha : a.Legible) (hb : b.Legible) :
    a.sameLocation b = .ok true ↔ a.Shared b := by
  obtain ⟨x, hx, hs⟩ := sameLocation_eq ha hb
  rw [hx, ← hs]
  simp

end Answers

/-! ## Agreement with the alias analysis -/

/-- A location of symbols, fields, elements and conversions that keep the location. -/
inductive IsStep : Node → Prop
  | sym {h : Head} {ks : List Node} (hk : h.kind = .sym) : IsStep (.node h ks)
  | part {h f : Head} {k : Node} {fs ks : List Node} (hk : h.kind = .dot ∨ h.kind = .index)
      (hp : IsStep k) : IsStep (.node h (k :: .node f fs :: ks))
  | conv {h : Head} {k : Node} {ks : List Node} (hk : h.kind.keepsLocation = true)
      (hp : IsStep k) : IsStep (.node h (k :: ks))

theorem isTransparent_of_keepsLocation {h : Head} (hk : h.kind.keepsLocation = true) :
    isTransparent h.kind = true ∧ addsNoStep h.kind = true := by
  cases hk' : h.kind <;> simp_all [NodeKind.keepsLocation, isTransparent, addsNoStep]

theorem IsStep.legible {n : Node} (hn : n.IsStep) : n.Legible := by
  induction hn with
  | sym hk => exact .sym hk
  | part hk _ ih => exact .part hk ih
  | conv hk _ ih => exact .through (isTransparent_of_keepsLocation hk).1 ih

theorem IsStep.path {n : Node} (hn : n.IsStep) : ∃ r s,
    (∀ inner, n.pathFrom inner = .ok (some ⟨r, s ++ inner⟩)) ∧
      ∀ r' s', n.Pinned r' s' ↔ r' = r ∧ s' = s ∧ .anyIndex ∉ s := by
  induction hn with
  | @sym h ks hk =>
    refine ⟨h.sym, [], fun inner => by cases ks <;> simp [pathFrom, hk], fun r' s' => ?_⟩
    simp [pinned_sym hk]
  | @part h f k fs ks hk _ ih =>
    obtain ⟨r, s, hp, hpin⟩ := ih
    rcases hk with hk | hk
    · refine ⟨r, s ++ [.field f.sym], fun inner => ?_, fun r' s' => ?_⟩
      · simp [pathFrom, hk, orAbsent, info, hp, bind, Except.bind]
      · simp only [pinned_dot hk]
        aesop
    · refine ⟨r, s ++ [if f.kind = .intLit then .index f.int else .anyIndex], fun inner => ?_,
        fun r' s' => ?_⟩
      · simp [pathFrom, hk, orAbsent, info, hp, bind, Except.bind]
      · simp only [pinned_index hk, literal?]
        by_cases hf : f.kind = .intLit
        · simp only [hf]
          aesop
        · simp [hf]
  | @conv h k ks hk _ ih =>
    obtain ⟨r, s, hp, hpin⟩ := ih
    obtain ⟨ht, hn⟩ := isTransparent_of_keepsLocation hk
    exact ⟨r, s, fun inner => by rw [pathFrom_operand hn, hp],
      fun r' s' => by rw [pinned_through ht, hpin]⟩

end Node

namespace AccessPath

theorem compare_yes_iff (sure : Bool) (as bs : List Access) :
    compare sure as bs = .yes ↔ sure = true ∧ as <+: bs ∧ .anyIndex ∉ as := by
  induction sure, as, bs using compare_cases with
  | sure bs | unsure bs | short => simp
  | field s f as bs ih | index s f as bs ih | deref s as bs ih => simp [ih]
  | fields s f g as bs h | indices s f g as bs h => simp [h]
  | loose s a b as bs hn hi ih =>
    simp only [ih, Bool.false_eq_true, false_and, false_iff, List.cons_prefix_cons, List.mem_cons,
      not_or]
    rintro ⟨-, ⟨rfl, -⟩, hne, -⟩
    cases a with
    | index i => exact hn i i rfl rfl
    | anyIndex => exact hne rfl
    | field | deref => cases hi
  | mixed s a b as bs hf hd hi =>
    simp only [reduceCtorEq, false_iff, List.cons_prefix_cons]
    rintro ⟨-, ⟨rfl, -⟩, -⟩
    cases a with
    | field f => exact hf f f rfl rfl
    | deref => exact hd rfl rfl
    | index | anyIndex => exact hi rfl

theorem relation_yes_comm {p q : AccessPath} : p.relation q = .yes ∧ q.relation p = .yes ↔
    p.root = q.root ∧ p.steps = q.steps ∧ .anyIndex ∉ p.steps := by
  by_cases hr : p.root = q.root
  · simp only [relation, if_pos hr, if_pos hr.symm, compare_yes_iff, true_and]
    constructor
    · rintro ⟨⟨hpq, hp⟩, hqp, -⟩
      exact ⟨hr, List.IsPrefix.eq_of_length_le hpq hqp.length_le, hp⟩
    · rintro ⟨-, hs, hp⟩
      rw [← hs]
      exact ⟨⟨List.prefix_rfl, hp⟩, List.prefix_rfl, hp⟩
  · simp [relation, hr]

end AccessPath

namespace Node

variable {a b c : Node}

theorem IsStep.aliases_iff (ha : a.IsStep) (hb : b.IsStep) :
    a.aliases b = .ok .yes ∧ b.aliases a = .ok .yes ↔ a.Shared b := by
  obtain ⟨r, s, hp, hpin⟩ := ha.path
  obtain ⟨r', s', hp', hpin'⟩ := hb.path
  have hpa : a.path? = .ok (some ⟨r, s⟩) := by simpa [path?] using hp []
  have hpb : b.path? = .ok (some ⟨r', s'⟩) := by simpa [path?] using hp' []
  simp only [aliases_eq hpa hpb, aliases_eq hpb hpa, Except.ok.injEq, AccessPath.relation_yes_comm,
    Shared, hpin]
  grind

/-- On well-formed trees a comparison of locations ends with one answer, the one that looking at one
side at a time and turning the sides comes to; it is symmetric and transitive. For locations of
symbols, fields, elements and conversions it says that each surely lies within the other. -/
theorem sameLocation_settled {ss : Symbols} (ha : a.WellFormed ss) (hb : b.WellFormed ss)
    (hc : c.WellFormed ss) :
    (∃ x, a.sameLocation b = .ok x ∧ ∀ y, Compared a b y ↔ y = x) ∧
    b.sameLocation a = a.sameLocation b ∧
    (a.sameLocation b = .ok true → b.sameLocation c = .ok true → a.sameLocation c = .ok true) ∧
    ∀ m n : Node, m.IsStep → n.IsStep →
      (m.sameLocation n = .ok true ↔ m.aliases n = .ok .yes ∧ n.aliases m = .ok .yes) := by
  have hla := ha.legible
  have hlb := hb.legible
  obtain ⟨x, hx, hs⟩ := sameLocation_eq hla hlb
  refine ⟨⟨x, hx, fun y => ?_⟩, ?_, ?_, fun m n hm hn => ?_⟩
  · obtain ⟨z, hz⟩ := (exists_compared hla hlb).1
    have hdet : ∀ {y}, Compared a b y → y = x := fun hy =>
      Bool.eq_iff_iff.2 (hy.shared.trans hs.symm)
    exact ⟨hdet, fun hy => hy ▸ hdet hz ▸ hz⟩
  · obtain ⟨y, hy, hs'⟩ := sameLocation_eq hlb hla
    rw [hx, hy, Except.ok.injEq, Bool.eq_iff_iff, hs, hs']
    exact ⟨Shared.symm, Shared.symm⟩
  · rw [sameLocation_iff hla hlb, sameLocation_iff hlb hc.legible, sameLocation_iff hla hc.legible]
    exact Shared.trans
  · rw [sameLocation_iff hm.legible hn.legible, hm.aliases_iff hn]

end Node

namespace Rows

def symbols : Symbols :=
  { all := #[{ kind := .varLocal }, {}, { kind := .field }, { kind := .field }] }

theorem wellFormed_field (i : Option Int64) : (field 2 i).WellFormed symbols := by
  cases i <;> rfl

def converted : Node := .node { kind := .upConv } [field 2 (some 1)]

end Rows

/-- A converted field is where the field is; of a field of an unknown row that cannot be told. -/
theorem sameLocation_settled_rows : Rows.converted.WellFormed Rows.symbols ∧
    (Rows.field 2 (some 1)).WellFormed Rows.symbols ∧ (Rows.field 2 none).WellFormed Rows.symbols ∧
    (Rows.field 2 (some 1)).sameLocation Rows.converted = .ok true ∧
    (Rows.field 2 none).sameLocation (Rows.field 2 none) = .ok false := by
  have hw : Rows.converted.WellFormed Rows.symbols := rfl
  have hs := Node.sameLocation_settled hw (Rows.wellFormed_field (some 1))
    (Rows.wellFormed_field none)
  have hsame : Rows.converted.sameLocation (Rows.field 2 (some 1)) = .ok true := by decide
  exact ⟨hw, Rows.wellFormed_field _, Rows.wellFormed_field _, hs.2.1.trans hsame, by decide⟩

end Lifecycle
