import Mathlib.Data.List.Forall2
import Lifecycle.Flow.Access

/-!
# What alias answers mean

An index that is no literal can be any number, so an expression stands for more than one place
(`Node.Denotes`). One location surely lies within another just when it does for all their places,
and two locations are kept apart just when the ways to their places always part at two fields or at
two indices (`Node.aliases_denotes`).
-/

namespace Lifecycle

/-- A step into a value. -/
inductive Spot where
  | field (sym : Option SymRef)
  | index (value : Int)
  | deref
deriving DecidableEq

namespace Spot

/-- The ways part at two fields or two indices. -/
inductive Part : List Spot → List Spot → Prop
  | field {f g : Option SymRef} {u v : List Spot} (h : f ≠ g) : Part (.field f :: u) (.field g :: v)
  | index {i j : Int} {u v : List Spot} (h : i ≠ j) : Part (.index i :: u) (.index j :: v)
  | later {x : Spot} {u v : List Spot} (h : Part u v) : Part (x :: u) (x :: v)

variable {u v : List Spot}

theorem Part.symm (h : Part u v) : Part v u := by
  induction h with
  | field h => exact .field h.symm
  | index h => exact .index h.symm
  | later _ ih => exact .later ih

theorem Part.not_prefix (h : Part u v) : ¬ u <+: v := by
  induction h with
  | field h => simp [h]
  | index h => simp [h]
  | later _ ih => simpa using ih

theorem part_cons : Part (x :: u) (x :: v) ↔ Part u v := by
  refine ⟨fun h => ?_, .later⟩
  cases h with
  | field h => exact absurd rfl h
  | index h => exact absurd rfl h
  | later h => exact h

end Spot

/-! ## Steps -/

namespace Access

inductive Stands : Access → Spot → Prop
  | field (f : Option SymRef) : Stands (.field f) (.field f)
  | index (i : Int64) : Stands (.index i) (.index i.toInt)
  | anyIndex (i : Int) : Stands .anyIndex (.index i)
  | deref : Stands .deref .deref

theorem exists_stands (a : Access) : ∃ x, a.Stands x := by
  cases a with
  | field f => exact ⟨_, .field f⟩
  | index i => exact ⟨_, .index i⟩
  | anyIndex => exact ⟨_, .anyIndex 0⟩
  | deref => exact ⟨_, .deref⟩

abbrev Spell (as : List Access) (u : List Spot) : Prop := List.Forall₂ Stands as u

theorem exists_spell (as : List Access) : ∃ u, Spell as u := by
  induction as with
  | nil => exact ⟨[], .nil⟩
  | cons a as ih =>
    obtain ⟨x, hx⟩ := a.exists_stands
    obtain ⟨u, hu⟩ := ih
    exact ⟨x :: u, .cons hx hu⟩

theorem forall_spell_cons {P : List Spot → List Spot → Prop} :
    (∀ u v, Spell (a :: as) u → Spell (b :: bs) v → P u v) ↔
      ∀ x y, a.Stands x → b.Stands y → ∀ u v, Spell as u → Spell bs v → P (x :: u) (y :: v) := by
  refine ⟨fun h x y hx hy u v hu hv => h _ _ (.cons hx hu) (.cons hy hv), fun h u v hu hv => ?_⟩
  cases hu with
  | cons hx hu =>
    cases hv with
    | cons hy hv => exact h _ _ hx hy _ _ hu hv

variable {x : Spot}

theorem stands_field : (Access.field f).Stands x ↔ x = .field f :=
  ⟨fun h => by cases h; rfl, fun h => h ▸ .field f⟩

theorem stands_index : (Access.index i).Stands x ↔ x = .index i.toInt :=
  ⟨fun h => by cases h; rfl, fun h => h ▸ .index i⟩

theorem stands_deref : Access.deref.Stands x ↔ x = .deref :=
  ⟨fun h => by cases h; rfl, fun h => h ▸ .deref⟩

theorem stands_anyIndex : Access.anyIndex.Stands x ↔ ∃ i, x = .index i :=
  ⟨fun h => by cases h; exact ⟨_, rfl⟩, fun ⟨i, h⟩ => h ▸ .anyIndex i⟩

theorem forall_spell_same {P : List Spot → List Spot → Prop} (ha : ∀ {y}, a.Stands y ↔ y = x) :
    (∀ u v, Spell (a :: as) u → Spell (a :: bs) v → P u v) ↔
      ∀ u v, Spell as u → Spell bs v → P (x :: u) (x :: v) := by
  simp only [forall_spell_cons, ha, forall_eq_apply_imp_iff, forall_eq]

theorem loose {a b : Access} (hn : ∀ i j, a = .index i → b = .index j → False)
    (h : (a.isIndex && b.isIndex) = true) :
    (∀ {x}, a.Stands x → ∃ i, x = .index i) ∧ (∀ {x}, b.Stands x → ∃ i, x = .index i) ∧
    ∃ i j, a.Stands (.index i) ∧ b.Stands (.index i) ∧ j ≠ i ∧
      (a.Stands (.index j) ∨ b.Stands (.index j)) := by
  obtain ⟨ha, hb⟩ := Bool.and_eq_true_iff.1 h
  cases a with
  | field | deref => cases ha
  | index i =>
    cases b with
    | field | deref => cases hb
    | index j => exact (hn i j rfl rfl).elim
    | anyIndex =>
      exact ⟨fun h => ⟨_, stands_index.1 h⟩, stands_anyIndex.1, i.toInt, i.toInt + 1, .index i,
        .anyIndex _, by omega, .inr (.anyIndex _)⟩
  | anyIndex =>
    cases b with
    | field | deref => cases hb
    | index j =>
      exact ⟨stands_anyIndex.1, fun h => ⟨_, stands_index.1 h⟩, j.toInt, j.toInt + 1, .anyIndex _,
        .index j, by omega, .inl (.anyIndex _)⟩
    | anyIndex =>
      exact ⟨stands_anyIndex.1, stands_anyIndex.1, 0, 1, .anyIndex _, .anyIndex _, by omega,
        .inl (.anyIndex _)⟩

theorem isIndex_of_stands {a : Access} (h : a.Stands (.index i)) : a.isIndex = true := by
  cases a with
  | field | deref => cases h
  | index | anyIndex => rfl

theorem mixed {a b : Access} {x y : Spot} (hf : ∀ f g, a = .field f → b = .field g → False)
    (hd : a = .deref → b = .deref → False) (hi : ¬ (a.isIndex && b.isIndex) = true)
    (hx : a.Stands x) (hy : b.Stands y) : x ≠ y ∧ ∀ u v, ¬ Spot.Part (x :: u) (y :: v) := by
  have hne : x ≠ y := by
    rintro rfl
    cases x with
    | field f => cases hx; cases hy; exact hf _ _ rfl rfl
    | index i => exact hi (by rw [isIndex_of_stands hx, isIndex_of_stands hy]; rfl)
    | deref => cases hx; cases hy; exact hd rfl rfl
  refine ⟨hne, fun u v h => ?_⟩
  cases h with
  | field => cases hx; cases hy; exact hf _ _ rfl rfl
  | index => exact hi (by rw [isIndex_of_stands hx, isIndex_of_stands hy]; rfl)
  | later => exact hne rfl

end Access

namespace AccessPath

open Access Spot

theorem compare_cases {motive : Bool → List Access → List Access → Alias → Prop}
    (sure : ∀ bs, motive true [] bs .yes) (unsure : ∀ bs, motive false [] bs .maybe)
    (short : ∀ s a as, motive s (a :: as) [] .maybe)
    (field : ∀ s f as bs, motive s as bs (compare s as bs) →
      motive s (.field f :: as) (.field f :: bs) (compare s as bs))
    (fields : ∀ s f g as bs, f ≠ g → motive s (.field f :: as) (.field g :: bs) .no)
    (index : ∀ s i as bs, motive s as bs (compare s as bs) →
      motive s (.index i :: as) (.index i :: bs) (compare s as bs))
    (indices : ∀ s i j as bs, i ≠ j → motive s (.index i :: as) (.index j :: bs) .no)
    (deref : ∀ s as bs, motive s as bs (compare s as bs) →
      motive s (.deref :: as) (.deref :: bs) (compare s as bs))
    (loose : ∀ s a b as bs, (∀ i j, a = .index i → b = .index j → False) →
      (a.isIndex && b.isIndex) = true → motive false as bs (compare false as bs) →
      motive s (a :: as) (b :: bs) (compare false as bs))
    (mixed : ∀ s a b as bs, (∀ f g, a = .field f → b = .field g → False) →
      (a = .deref → b = .deref → False) → ¬ (a.isIndex && b.isIndex) = true →
      motive s (a :: as) (b :: bs) .maybe)
    (s : Bool) (as bs : List Access) : motive s as bs (compare s as bs) := by
  induction as generalizing s bs with
  | nil =>
    cases s with
    | false => exact unsure bs
    | true => exact sure bs
  | cons a as ih =>
    cases bs with
    | nil => exact short s a as
    | cons b bs =>
      cases a with
      | field f =>
        cases b with
        | field g =>
          show motive s _ _ (if f = g then compare s as bs else .no)
          by_cases h : f = g
          · subst h
            simpa only [if_true] using field s f as bs (ih s bs)
          · simpa only [if_neg h] using fields s f g as bs h
        | index | anyIndex | deref => exact mixed s _ _ as bs nofun nofun nofun
      | index i =>
        cases b with
        | field | deref => exact mixed s _ _ as bs nofun nofun nofun
        | index j =>
          show motive s _ _ (if i = j then compare s as bs else .no)
          by_cases h : i = j
          · subst h
            simpa only [if_true] using index s i as bs (ih s bs)
          · simpa only [if_neg h] using indices s i j as bs h
        | anyIndex => exact loose s _ _ as bs nofun rfl (ih false bs)
      | anyIndex =>
        cases b with
        | field | deref => exact mixed s _ _ as bs nofun nofun nofun
        | index | anyIndex => exact loose s _ _ as bs nofun rfl (ih false bs)
      | deref =>
        cases b with
        | field | index | anyIndex => exact mixed s _ _ as bs nofun nofun nofun
        | deref => exact deref s as bs (ih s bs)

/-- Steps are kept apart just when all ways that they can be part at two fields or two indices. -/
theorem compare_eq_no (sure : Bool) (as bs : List Access) :
    compare sure as bs = .no ↔ ∀ u v, Spell as u → Spell bs v → Part u v := by
  induction sure, as, bs using compare_cases with
  | sure bs | unsure bs =>
    obtain ⟨v, hv⟩ := exists_spell bs
    simp only [reduceCtorEq, false_iff]
    exact fun h => by cases h [] v .nil hv
  | short _ a as =>
    obtain ⟨u, hu⟩ := exists_spell (a :: as)
    simp only [reduceCtorEq, false_iff]
    exact fun h => by cases h u [] hu .nil
  | field _ f as bs ih => simp only [ih, forall_spell_same stands_field, part_cons]
  | fields _ f g as bs h =>
    simp only [forall_spell_cons, stands_field, true_iff]
    rintro _ _ rfl rfl u v - -
    exact .field h
  | index _ i as bs ih => simp only [ih, forall_spell_same stands_index, part_cons]
  | indices _ i j as bs h =>
    simp only [forall_spell_cons, stands_index, true_iff]
    rintro _ _ rfl rfl u v - -
    exact .index (mt Int64.toInt_inj.1 h)
  | deref _ as bs ih => simp only [ih, forall_spell_same stands_deref, part_cons]
  | loose _ a b as bs hn h ih =>
    obtain ⟨ha, hb, i, -, hia, hib, -⟩ := loose hn h
    rw [ih, forall_spell_cons]
    refine ⟨fun hp x y hx hy u v hu hv => ?_, fun hp u v hu hv => ?_⟩
    · obtain ⟨m, rfl⟩ := ha hx
      obtain ⟨n, rfl⟩ := hb hy
      by_cases hmn : m = n
      · exact hmn ▸ .later (hp u v hu hv)
      · exact .index hmn
    · exact part_cons.1 (hp _ _ hia hib u v hu hv)
  | mixed _ a b as bs hf hd h =>
    obtain ⟨x, hx⟩ := a.exists_stands
    obtain ⟨y, hy⟩ := b.exists_stands
    obtain ⟨u, hu⟩ := exists_spell as
    obtain ⟨v, hv⟩ := exists_spell bs
    simp only [reduceCtorEq, false_iff]
    exact fun hp => (mixed hf hd h hx hy).2 u v (hp _ _ (.cons hx hu) (.cons hy hv))

theorem not_prefix_of_ne (as bs : List Access) (hx : a.Stands x) (hy : b.Stands y) (hne : x ≠ y) :
    ¬ ∀ u v, Spell (a :: as) u → Spell (b :: bs) v → u <+: v := by
  obtain ⟨u, hu⟩ := exists_spell as
  obtain ⟨v, hv⟩ := exists_spell bs
  exact fun h => hne (List.cons_prefix_cons.1 (h _ _ (.cons hx hu) (.cons hy hv))).1

/-- One location surely lies within another just when its steps lead to it, whatever the indices. -/
theorem compare_eq_yes (sure : Bool) (as bs : List Access) :
    compare sure as bs = .yes ↔ sure = true ∧ ∀ u v, Spell as u → Spell bs v → u <+: v := by
  induction sure, as, bs using compare_cases with
  | sure bs =>
    simp only [true_and, true_iff]
    rintro _ v ⟨⟩ -
    exact List.nil_prefix
  | unsure bs => simp
  | short _ a as =>
    obtain ⟨u, hu⟩ := exists_spell (a :: as)
    simp only [reduceCtorEq, false_iff]
    rintro ⟨-, hp⟩
    obtain rfl := List.prefix_nil.1 (hp u [] hu .nil)
    cases hu
  | field _ f as bs ih => simp only [ih, forall_spell_same stands_field, List.prefix_cons_inj]
  | fields _ f g as bs h =>
    have := not_prefix_of_ne as bs (.field f) (.field g) (by simpa using h)
    simp [this]
  | index _ i as bs ih => simp only [ih, forall_spell_same stands_index, List.prefix_cons_inj]
  | indices _ i j as bs h =>
    have := not_prefix_of_ne as bs (.index i) (.index j) (by simpa [Int64.toInt_inj] using h)
    simp [this]
  | deref _ as bs ih => simp only [ih, forall_spell_same stands_deref, List.prefix_cons_inj]
  | loose _ a b as bs hn h ih =>
    obtain ⟨-, -, i, j, hia, hib, hne, hj⟩ := loose hn h
    have : ¬ ∀ u v, Spell (a :: as) u → Spell (b :: bs) v → u <+: v := by
      rcases hj with hja | hjb
      · exact not_prefix_of_ne as bs hja hib (by simpa using hne)
      · exact not_prefix_of_ne as bs hia hjb (by simpa using hne.symm)
    simp [ih, this]
  | mixed _ a b as bs hf hd h =>
    obtain ⟨x, hx⟩ := a.exists_stands
    obtain ⟨y, hy⟩ := b.exists_stands
    have := not_prefix_of_ne as bs hx hy (mixed hf hd h hx hy).1
    simp [this]

end AccessPath

/-! ## Locations -/

namespace Node

/-- The places that an expression can stand for: a root and the way from it. -/
inductive Denotes : Node → Option SymRef → List Spot → Prop
  | sym {h : Head} {ks : List Node} (hk : h.kind = .sym) : Denotes (.node h ks) h.sym []
  | dot {h hf : Head} {k : Node} {fs ks : List Node} {r : Option SymRef} {u : List Spot}
      (hk : h.kind = .dot) (hd : Denotes k r u) :
      Denotes (.node h (k :: .node hf fs :: ks)) r (u ++ [.field hf.sym])
  /-- A literal index is what it says, any other can be every number. -/
  | index {h hi : Head} {k : Node} {is ks : List Node} {r : Option SymRef} {u : List Spot} {i : Int}
      (hk : h.kind = .index) (hd : Denotes k r u) (hl : hi.kind = .intLit → i = hi.int.toInt) :
      Denotes (.node h (k :: .node hi is :: ks)) r (u ++ [.index i])
  | deref {h : Head} {k : Node} {ks : List Node} {r : Option SymRef} {u : List Spot}
      (hk : h.kind = .deref) (hd : Denotes k r u) : Denotes (.node h (k :: ks)) r (u ++ [.deref])
  | operand {h : Head} {k : Node} {ks : List Node} {r : Option SymRef} {u : List Spot}
      (hk : addsNoStep h.kind = true) (hd : Denotes k r u) : Denotes (.node h (k :: ks)) r u

/-- The tree denotes some place. -/
def IsLocation (n : Node) : Prop := ∃ r u, n.Denotes r u

variable {n a b c : Node} {r : Option SymRef} {u : List Spot}

theorem pathFrom_operand {inner : List Access}
    (hk : addsNoStep h.kind = true) :
    (Node.node h (k :: ks)).pathFrom inner = k.pathFrom inner := by
  rw [pathFrom]
  split <;> simp_all [addsNoStep]

theorem pathFrom_of_denotes (h : n.Denotes r u) :
    ∃ s, Access.Spell s u ∧ ∀ inner, n.pathFrom inner = .ok (some ⟨r, s ++ inner⟩) := by
  induction h with
  | @sym h ks hk => exact ⟨[], .nil, fun inner => by cases ks <;> simp [pathFrom, hk]⟩
  | @dot h hf k fs ks r u hk _ ih =>
    obtain ⟨s, hs, hp⟩ := ih
    refine ⟨s ++ [.field hf.sym], List.rel_append hs (.cons (.field _) .nil), fun inner => ?_⟩
    simp [pathFrom, hk, orAbsent, info, hp, bind, Except.bind]
  | @index h hi k is ks r u i hk _ hl ih =>
    obtain ⟨s, hs, hp⟩ := ih
    refine ⟨s ++ [if hi.kind = .intLit then .index hi.int else .anyIndex],
      List.rel_append hs (.cons ?_ .nil), fun inner => ?_⟩
    · split_ifs with hlit
      · rw [hl hlit]
        exact .index _
      · exact .anyIndex i
    · simp [pathFrom, hk, orAbsent, info, hp, bind, Except.bind]
  | @deref h k ks r u hk _ ih =>
    obtain ⟨s, hs, hp⟩ := ih
    refine ⟨s ++ [.deref], List.rel_append hs (.cons .deref .nil), fun inner => ?_⟩
    simp [pathFrom, hk, hp]
  | @operand h k ks r u hk _ ih =>
    obtain ⟨s, hs, hp⟩ := ih
    exact ⟨s, hs, fun inner => by rw [pathFrom_operand hk, hp]⟩

theorem spell_snoc {a : Access} (h : Access.Spell (s ++ [a]) w) :
    ∃ u x, w = u ++ [x] ∧ Access.Spell s u ∧ a.Stands x := by
  induction s generalizing w with
  | nil =>
    cases h with
    | cons hx hn =>
      cases hn
      exact ⟨[], _, rfl, .nil, hx⟩
  | cons b s ih =>
    cases h with
    | cons hy hw =>
      obtain ⟨u, x, rfl, hu, hx⟩ := ih hw
      exact ⟨_ :: u, x, rfl, .cons hy hu, hx⟩

theorem eq_cons_of_info {α : Type} {ks : List Node} {g : Head → Except Fault α} {x : α}
    (h : (do g (← (← orAbsent ks.head?).info)) = .ok x) :
    ∃ f fs rest, ks = .node f fs :: rest ∧ g f = .ok x := by
  rcases ks with _ | ⟨_ | ⟨f, fs⟩, rest⟩
  · cases h
  · cases h
  · exact ⟨f, fs, rest, rfl, h⟩

theorem denotes_of_pathFrom {inner : List Access} (h : n.pathFrom inner = .ok (some p)) :
    ∃ s, p.steps = s ++ inner ∧ ∀ u, Access.Spell s u → n.Denotes p.root u := by
  fun_induction pathFrom inner n with
  | case1 | case3 | case4 => cases h
  | case2 inner h hk =>
    cases h
    refine ⟨[], rfl, fun u hu => ?_⟩
    cases hu
    exact .sym hk
  | case5 inner h k ks hk =>
    cases h
    refine ⟨[], rfl, fun u hu => ?_⟩
    cases hu
    exact .sym hk
  | case6 inner h k ks hk ih =>
    obtain ⟨f, fs, rest, rfl, hp⟩ := eq_cons_of_info h
    obtain ⟨s, hs, hd⟩ := ih f hp
    refine ⟨s ++ [.field f.sym], by simp [hs], fun w hw => ?_⟩
    obtain ⟨u, x, rfl, hu, hx⟩ := spell_snoc hw
    cases hx
    exact .dot hk (hd u hu)
  | case7 inner h k ks hk ih =>
    obtain ⟨i, is, rest, rfl, hp⟩ := eq_cons_of_info h
    obtain ⟨s, hs, hd⟩ := ih i hp
    refine ⟨s ++ [if i.kind = .intLit then .index i.int else .anyIndex], by simp [hs],
      fun w hw => ?_⟩
    obtain ⟨u, x, rfl, hu, hx⟩ := spell_snoc hw
    split_ifs at hx with hlit
    · rw [Access.stands_index.1 hx]
      exact .index hk (hd u hu) fun _ => rfl
    · obtain ⟨m, rfl⟩ := Access.stands_anyIndex.1 hx
      exact .index hk (hd u hu) fun h => absurd h hlit
  | case8 inner h k ks hk ih =>
    obtain ⟨s, hs, hd⟩ := ih h
    refine ⟨s ++ [.deref], by simp [hs], fun w hw => ?_⟩
    obtain ⟨u, x, rfl, hu, hx⟩ := spell_snoc hw
    cases hx
    exact .deref hk (hd u hu)
  | case9 inner h k ks _ _ _ _ hk ih =>
    obtain ⟨s, hs, hd⟩ := ih h
    exact ⟨s, hs, fun u hu => .operand hk (hd u hu)⟩
  | case10 => cases h

theorem IsLocation.path (h : n.IsLocation) : ∃ p, n.path? = .ok (some p) ∧
    ∀ r u, n.Denotes r u ↔ r = p.root ∧ Access.Spell p.steps u := by
  obtain ⟨r, u, hd⟩ := h
  obtain ⟨s, -, hp⟩ := pathFrom_of_denotes hd
  have hpath : n.path? = .ok (some ⟨r, s⟩) := by simpa [path?] using hp []
  obtain ⟨s', hs, hall⟩ := denotes_of_pathFrom hpath
  obtain rfl : s = s' := by simpa using hs
  refine ⟨_, hpath, fun r' u' => ⟨fun hd' => ?_, ?_⟩⟩
  · obtain ⟨s', hspell, hp'⟩ := pathFrom_of_denotes hd'
    have := hpath.symm.trans (hp' [])
    simp only [List.append_nil, Except.ok.injEq, Option.some.injEq, AccessPath.mk.injEq] at this
    exact ⟨this.1.symm, this.2 ▸ hspell⟩
  · rintro ⟨rfl, hspell⟩
    exact hall u' hspell

theorem aliases_eq (ha : a.path? = .ok (some p)) (hb : b.path? = .ok (some q)) :
    a.aliases b = .ok (p.relation q) := by
  rw [aliases, ha, hb]
  rfl

end Node

namespace AccessPath

variable {p q : AccessPath}

theorem relation_eq_yes : p.relation q = .yes ↔ p.root = q.root ∧
    ∀ u v, Access.Spell p.steps u → Access.Spell q.steps v → u <+: v := by
  rw [relation]
  split_ifs with h
  · simp [h, compare_eq_yes]
  · simp [h]

theorem relation_eq_no : p.relation q = .no ↔ (p.root = q.root →
    ∀ u v, Access.Spell p.steps u → Access.Spell q.steps v → Spot.Part u v) := by
  rw [relation]
  split_ifs with h
  · simp [h, compare_eq_no]
  · simp [h]

theorem relation_eq_no_comm : p.relation q = .no ↔ q.relation p = .no := by
  rw [relation_eq_no, relation_eq_no]
  exact ⟨fun h hr u v hu hv => (h hr.symm v u hv hu).symm,
    fun h hr u v hu hv => (h hr.symm v u hv hu).symm⟩

end AccessPath

namespace Node

variable {a b c : Node}

theorem overlaps_eq (ha : a.path? = .ok (some p)) (hb : b.path? = .ok (some q)) :
    a.overlaps b = .ok (decide (p.relation q ≠ .no)) := by
  rw [overlaps, aliases_eq ha hb, aliases_eq hb ha]
  by_cases h : p.relation q = .no
  · simp [bind, Except.bind, pure, Except.pure, h, AccessPath.relation_eq_no_comm.1 h]
  · simp [bind, Except.bind, pure, Except.pure, h]

/-- What the answers about two locations say of the places that they stand for, whatever the indices
are. `yes`: they have one root, and the way to the first leads on to the second. `no`: from one root
their ways always part at two fields or at two indices, so neither leads on to the other. -/
theorem aliases_denotes (ha : a.IsLocation) (hb : b.IsLocation) (hc : c.IsLocation) :
    (∃ x, a.aliases b = .ok x ∧ a.overlaps b = .ok (decide (x ≠ .no))) ∧
    (a.aliases b = .ok .yes ↔
      ∀ r u s v, a.Denotes r u → b.Denotes s v → r = s ∧ u <+: v) ∧
    (a.aliases b = .ok .no ↔ ∀ r u v, a.Denotes r u → b.Denotes r v → Spot.Part u v) ∧
    (a.aliases b = .ok .no →
      ∀ r u v, a.Denotes r u → b.Denotes r v → ¬ u <+: v ∧ ¬ v <+: u) ∧
    (a.aliases b = .ok .no ↔ b.aliases a = .ok .no) ∧
    (a.aliases b = .ok .yes → b.aliases c = .ok .yes → a.aliases c = .ok .yes) := by
  obtain ⟨p, hp, hdp⟩ := ha.path
  obtain ⟨q, hq, hdq⟩ := hb.path
  obtain ⟨t, ht, hdt⟩ := hc.path
  have hno : a.aliases b = .ok .no ↔ ∀ r u v, a.Denotes r u → b.Denotes r v → Spot.Part u v := by
    simp only [aliases_eq hp hq, Except.ok.injEq, AccessPath.relation_eq_no, hdp, hdq]
    refine ⟨fun h r u v hu hv => h (hu.1.symm.trans hv.1) u v hu.2 hv.2, fun h hr u v hu hv => ?_⟩
    exact h p.root u v ⟨rfl, hu⟩ ⟨hr, hv⟩
  have hcomm : a.aliases b = .ok .no ↔ b.aliases a = .ok .no := by
    simp only [aliases_eq hp hq, aliases_eq hq hp, Except.ok.injEq, AccessPath.relation_eq_no_comm]
  obtain ⟨u0, hu0⟩ := Access.exists_spell p.steps
  obtain ⟨v0, hv0⟩ := Access.exists_spell q.steps
  refine ⟨⟨_, aliases_eq hp hq, ?_⟩, ?_, hno, fun h r u v hu hv => ?_, hcomm, ?_⟩
  · exact overlaps_eq hp hq
  · simp only [aliases_eq hp hq, Except.ok.injEq, AccessPath.relation_eq_yes, hdp, hdq]
    refine ⟨fun h r u s v hu hv => ⟨?_, h.2 u v hu.2 hv.2⟩, fun h => ⟨?_, fun u v hu hv => ?_⟩⟩
    · rw [hu.1, hv.1, h.1]
    · exact (h _ u0 _ v0 ⟨rfl, hu0⟩ ⟨rfl, hv0⟩).1
    · exact (h _ u _ v ⟨rfl, hu⟩ ⟨rfl, hv⟩).2
  · have hpart := hno.1 h r u v hu hv
    exact ⟨hpart.not_prefix, hpart.symm.not_prefix⟩
  · simp only [aliases_eq hp hq, aliases_eq hq ht, aliases_eq hp ht, Except.ok.injEq,
      AccessPath.relation_eq_yes]
    rintro ⟨hr, hpq⟩ ⟨hr', hqt⟩
    exact ⟨hr.trans hr', fun u w hu hw => (hpq u v0 hu hv0).trans (hqt v0 w hv0 hw)⟩

end Node

/-! ## Fields of rows -/

namespace Rows

def name (r : SymRef) : Node := .node { kind := .sym, sym := some r } []

/-- The field of a row, by a literal index or by the variable `i`. -/
def field (f : SymRef) (i : Option Int64) : Node :=
  .node { kind := .dot } [.node { kind := .index } [name 0,
    match i with
    | some v => .node { kind := .intLit, int := v } []
    | none => name 1], name f]

theorem isLocation_name (r : SymRef) : (name r).IsLocation := ⟨_, _, .sym rfl⟩

theorem isLocation_field (f : SymRef) (i : Option Int64) : (field f i).IsLocation := by
  cases i with
  | none => exact ⟨_, _, .dot rfl (.index (i := 0) rfl (.sym rfl) nofun)⟩
  | some v => exact ⟨_, _, .dot rfl (.index rfl (.sym rfl) fun _ => rfl)⟩

end Rows

/-- The names of all rows are apart from the size of the first, whichever row it is. -/
theorem aliases_denotes_rows : (Rows.field 2 none).IsLocation ∧ (Rows.field 3 (some 0)).IsLocation ∧
    (Rows.name 0).IsLocation ∧ (Rows.field 2 none).aliases (Rows.field 3 (some 0)) = .ok .no ∧
    ∀ r u v, (Rows.field 2 none).Denotes r u → (Rows.field 3 (some 0)).Denotes r v →
      ¬ u <+: v ∧ ¬ v <+: u := by
  have ha := Rows.isLocation_field 2 none
  have hb := Rows.isLocation_field 3 (some 0)
  have hc := Rows.isLocation_name 0
  have hno : (Rows.field 2 none).aliases (Rows.field 3 (some 0)) = .ok .no := by decide
  exact ⟨ha, hb, hc, hno, (Node.aliases_denotes ha hb hc).2.2.2.1 hno⟩

end Lifecycle
