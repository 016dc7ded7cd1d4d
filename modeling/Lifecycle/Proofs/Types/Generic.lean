import Lifecycle.Proofs.Operators.Lifetime

/-!
# Types that mention a generic parameter

The search for a generic parameter answers no when it meets a type again, whether it is done with
that type or still inside it. What makes the answer right in the end is that the types it is done
with are closed: what they are made of was met too (`Explored`). Only the types on the way down may
lack this, and after the search there are none. The way down has no type twice, so the fuel is never
used up.
-/

namespace Lifecycle

namespace TypeTable

open Relation

/-- A type that the type `a` is made of, or refers to. -/
inductive Mentions (t : TypeTable) (a : TypeId) : TypeId → Prop
  | elem {d : TypeDesc} (hl : t.lookup a = some d) (hk : d.kind.hasElem = true) :
    Mentions t a d.elem
  | member {d : TypeDesc} {ts : Listed TypeId} {b : TypeId} (hl : t.lookup a = some d)
      (hk : d.kind = .tuple) (ht : t.tuples[d.payload.toNat]? = some ts) (hb : b ∈ ts.items) :
      Mentions t a b
  | field {d : TypeDesc} {o : ObjectInfo} {f : Field} (hl : t.lookup a = some d)
      (hk : d.kind = .object) (ho : t.objects[d.payload.toNat]? = some o) (hf : f ∈ o.fields.items)
      (hc : f.cursor = false) : Mentions t a f.type

/-- Some type with the property can be reached. -/
def Reaches (t : TypeTable) (P : TypeId → Prop) (a : TypeId) : Prop :=
  ∃ b, ReflTransGen t.Mentions a b ∧ P b

def IsGeneric (t : TypeTable) (a : TypeId) : Prop := t.kindOf a = .genericParam

/-- An object or a tuple whose members are nowhere in the table. -/
def Lacking (t : TypeTable) (a : TypeId) : Prop := ∀ ts, t.components a ≠ .ok ts

/-- What the search goes on to from a type. -/
def nexts (t : TypeTable) (a : TypeId) : Except Fault (List TypeId) :=
  match t.lookup a with
  | none => .ok []
  | some d =>
    match d.kind with
    | .seq | .ref | .ptr | .var | .openArray | .closure => .ok [d.elem]
    | _ => t.components a

variable {t : TypeTable} {a b : TypeId} {ids path seen seen' : List TypeId} {n : Nat}

theorem mem_nexts {ts : List TypeId} (h : t.nexts a = .ok ts) : b ∈ ts ↔ t.Mentions a b := by
  constructor
  · intro hb
    unfold nexts components at h
    rcases hl : t.lookup a with _ | d
    · simp only [hl] at h
      cases h
      cases hb
    · have helem : d.kind.hasElem = true → b ∈ [d.elem] → t.Mentions a b := by
        intro hk hb
        rw [List.mem_singleton.1 hb]
        exact .elem hl hk
      simp only [hl] at h
      split at h
      all_goals first
        | (rename_i hk; cases h; exact helem (by rw [hk]; rfl) hb)
        | skip
      split at h
      · rename_i hk
        rcases ho : t.objects[d.payload.toNat]? with _ | o <;> rw [ho] at h <;> cases h
        obtain ⟨f, hf, rfl⟩ := List.mem_map.1 hb
        obtain ⟨hf, hc⟩ := List.mem_filter.1 hf
        exact .field hl hk ho hf (by simpa using hc)
      · rename_i hk
        rcases ht : t.tuples[d.payload.toNat]? with _ | ts <;> rw [ht] at h <;> cases h
        exact .member hl hk ht hb
      all_goals first
        | (rename_i hk; cases h; exact helem (by rw [hk]; rfl) hb)
        | (cases h; cases hb)
  · intro hm
    unfold nexts components at h
    cases hm with
    | elem hl hk =>
      rename_i d
      simp only [hl] at h
      rcases d with ⟨kind, _⟩
      cases kind <;> cases hk <;> cases h <;> exact List.mem_singleton_self _
    | member hl hk ht hb =>
      simp only [hl, hk, ht] at h
      cases h
      exact hb
    | field hl hk ho hf hc =>
      simp only [hl, hk, ho] at h
      cases h
      exact List.mem_map.2 ⟨_, List.mem_filter.2 ⟨hf, by simpa using hc⟩, rfl⟩

theorem lacking_of_nexts {e : Fault} (h : t.nexts a = .error e) : t.Lacking a := by
  intro ts hts
  unfold nexts at h
  split at h
  · cases h
  · split at h <;> first | cases h | (rw [hts] at h; cases h)

theorem tryEach_singleton (visit : Search) (a : TypeId) (seen : List TypeId) :
    tryEach visit [a] seen = visit a seen := by
  rw [tryEach]
  rcases visit a seen with e | ⟨_ | _, s⟩ <;> rfl

/-- One step of the search, where the type is new and no generic parameter. -/
theorem genericWithin_succ {d : TypeDesc} (ha : a ∉ seen) (hl : t.lookup a = some d)
    (hg : d.kind ≠ .genericParam) : t.genericWithin (n + 1) a seen =
      (t.nexts a).bind fun ts => tryEach (t.genericWithin n) ts (a :: seen) := by
  rw [genericWithin, if_neg (by simpa using ha), nexts, hl]
  rcases d with ⟨kind, _⟩
  cases kind with
  | genericParam => contradiction
  | seq | ref | ptr | var | openArray | closure => exact (tryEach_singleton _ _ _).symm
  | _ => rfl

/-! ## What the search has seen -/

/-- The types seen and not on the way down are no generic parameters, and what they mention was
seen. -/
def Explored (t : TypeTable) (path seen : List TypeId) : Prop :=
  ∀ a ∈ seen, a ∈ path ∨ ¬ t.IsGeneric a ∧ ∀ b, t.Mentions a b → b ∈ seen

/-- What a search from the types `ids` has found. -/
def Sought (t : TypeTable) (path seen ids : List TypeId) :
    Except Fault (Bool × List TypeId) → Prop
  | .error _ => ∃ a ∈ ids, t.Reaches t.Lacking a
  | .ok (true, _) => ∃ a ∈ ids, t.Reaches t.IsGeneric a
  | .ok (false, seen') => t.Explored path seen' ∧ seen ⊆ seen' ∧ ids ⊆ seen'

theorem Explored.mono (h : t.Explored path seen) (a : TypeId) :
    t.Explored (a :: path) (a :: seen) := by
  intro b hb
  rcases List.mem_cons.1 hb with rfl | hb
  · exact .inl List.mem_cons_self
  · rcases h b hb with hp | ⟨hg, hm⟩
    · exact .inl (List.mem_cons_of_mem _ hp)
    · exact .inr ⟨hg, fun c hc => List.mem_cons_of_mem _ (hm c hc)⟩

/-- The search is done with the last type on the way down. -/
theorem Explored.pop (h : t.Explored (a :: path) seen) (hg : ¬ t.IsGeneric a)
    (hm : ∀ b, t.Mentions a b → b ∈ seen) : t.Explored path seen := by
  intro b hb
  rcases h b hb with hp | hb
  · rcases List.mem_cons.1 hp with rfl | hp
    · exact .inr ⟨hg, hm⟩
    · exact .inl hp
  · exact .inr hb

/-- Nothing that can be reached from what a whole search saw is a generic parameter. -/
theorem Explored.not_reaches (h : t.Explored [] seen) (ha : a ∈ seen) :
    ¬ t.Reaches t.IsGeneric a := by
  rintro ⟨b, hab, hb⟩
  have hseen : b ∈ seen := by
    clear hb
    induction hab with
    | refl => exact ha
    | tail _ hm ih =>
      rcases h _ ih with hp | ⟨_, hnext⟩
      · cases hp
      · exact hnext _ hm
  rcases h b hseen with hp | ⟨hg, _⟩
  · cases hp
  · exact hg hb

/-- The types of a list are looked through one after another. -/
theorem sought_tryEach {visit : Search} : ∀ {ids seen : List TypeId}, t.Explored path seen →
    (∀ a ∈ ids, ∀ s, seen ⊆ s → t.Explored path s → t.Sought path s [a] (visit a s)) →
    t.Sought path seen ids (tryEach visit ids seen)
  | [], seen, h, _ => ⟨h, List.Subset.refl _, List.nil_subset _⟩
  | a :: ids, seen, h, hv => by
    have ha := hv a List.mem_cons_self seen (List.Subset.refl _) h
    rw [tryEach]
    rcases hr : visit a seen with e | ⟨_ | _, s⟩ <;> rw [hr] at ha
    · obtain ⟨b, hb, hlack⟩ := ha
      exact ⟨b, List.mem_cons.2 (.inl (List.mem_singleton.1 hb)), hlack⟩
    · obtain ⟨hs, hsub, has⟩ := ha
      have hrest : t.Sought path s ids (tryEach visit ids s) := sought_tryEach hs fun b hb u hu =>
        hv b (List.mem_cons_of_mem _ hb) u (List.Subset.trans hsub hu)
      show t.Sought path seen (a :: ids) (tryEach visit ids s)
      rcases hr : tryEach visit ids s with e | ⟨_ | _, u⟩ <;> rw [hr] at hrest
      · obtain ⟨b, hb, hlack⟩ := hrest
        exact ⟨b, List.mem_cons_of_mem _ hb, hlack⟩
      · obtain ⟨hu, hsu, hids⟩ := hrest
        exact ⟨hu, List.Subset.trans hsub hsu, List.cons_subset.2 ⟨hsu (has List.mem_cons_self),
          hids⟩⟩
      · obtain ⟨b, hb, hgen⟩ := hrest
        exact ⟨b, List.mem_cons_of_mem _ hb, hgen⟩
    · obtain ⟨b, hb, hgen⟩ := ha
      exact ⟨b, List.mem_cons.2 (.inl (List.mem_singleton.1 hb)), hgen⟩

/-- A type that mentions one from which the property can be reached reaches it too. -/
theorem Reaches.step {P : TypeId → Prop} (hm : t.Mentions a b) (h : t.Reaches P b) :
    t.Reaches P a := by
  obtain ⟨c, hbc, hc⟩ := h
  exact ⟨c, hbc.head hm, hc⟩

/-- The fuel left and the length of the way down are together more than the table has types. -/
theorem sought_genericWithin : ∀ (n : Nat) {a : TypeId} {path seen : List TypeId},
    path.Nodup → (∀ b ∈ path, (t.lookup b).isSome = true) → path ⊆ seen →
    t.size < n + path.length → t.Explored path seen →
    t.Sought path seen [a] (t.genericWithin n a seen)
  | 0, a, path, seen, hn, hk, _, hfuel, _ => by
    have hle := length_le_size hn hk
    omega
  | n + 1, a, path, seen, hn, hk, hsub, hfuel, h => by
    by_cases ha : a ∈ seen
    · rw [genericWithin, if_pos (by simpa using ha)]
      exact ⟨h, List.Subset.refl _, List.cons_subset.2 ⟨ha, List.nil_subset _⟩⟩
    · rcases hl : t.lookup a with _ | d
      · have hm : ∀ b, ¬ t.Mentions a b := by
          intro b hm
          cases hm <;> simp_all
        rw [genericWithin, if_neg (by simpa using ha), hl]
        exact ⟨(h.mono a).pop (by simp [IsGeneric, kindOf, hl]) fun b hb => absurd hb (hm b),
          List.subset_cons_self _ _, by simp⟩
      · by_cases hg : d.kind = .genericParam
        · rw [genericWithin, if_neg (by simpa using ha), hl]
          simp only [hg]
          exact ⟨a, List.mem_singleton_self _, a, .refl, by simp [IsGeneric, kindOf, hl, hg]⟩
        · rw [genericWithin_succ ha hl hg]
          rcases hts : t.nexts a with e | ts
          · exact ⟨a, List.mem_singleton_self _, a, .refl, lacking_of_nexts hts⟩
          · have hpath : a ∉ path := fun hp => ha (hsub hp)
            have hrest : t.Sought (a :: path) (a :: seen) ts
                (tryEach (t.genericWithin n) ts (a :: seen)) := by
              refine sought_tryEach (h.mono a) fun b _ s hs hexp => sought_genericWithin n
                (List.nodup_cons.2 ⟨hpath, hn⟩) ?_
                (List.Subset.trans (List.cons_subset_cons a hsub) hs) ?_ hexp
              · exact List.forall_mem_cons.2 ⟨by simp [hl], hk⟩
              · simp only [List.length_cons]
                omega
            show t.Sought path seen [a] (tryEach (t.genericWithin n) ts (a :: seen))
            rcases hr : tryEach (t.genericWithin n) ts (a :: seen) with e | ⟨_ | _, s⟩ <;>
              rw [hr] at hrest
            · obtain ⟨b, hb, hlack⟩ := hrest
              exact ⟨a, List.mem_singleton_self _, hlack.step ((mem_nexts hts).1 hb)⟩
            · obtain ⟨hs, hseen, hall⟩ := hrest
              refine ⟨hs.pop (by simp [IsGeneric, kindOf, hl, hg]) fun b hb =>
                hall ((mem_nexts hts).2 hb), List.Subset.trans (List.subset_cons_self _ _) hseen,
                  ?_⟩
              exact List.cons_subset.2 ⟨hseen List.mem_cons_self, List.nil_subset _⟩
            · obtain ⟨b, hb, hgen⟩ := hrest
              exact ⟨a, List.mem_singleton_self _, hgen.step ((mem_nexts hts).1 hb)⟩

/-- The search always ends. It gives an answer where all objects and tuples that can be reached have
their members in the table, and every answer it gives says whether a generic parameter can be
reached. -/
theorem containsGenericParam_iff (t : TypeTable) (a : TypeId) :
    (∀ found, t.containsGenericParam a = .ok found →
      (found = true ↔ ∃ b, ReflTransGen t.Mentions a b ∧ t.kindOf b = .genericParam)) ∧
    ((∀ b, ReflTransGen t.Mentions a b → ∃ ts, t.components b = .ok ts) →
      ∃ found, t.containsGenericParam a = .ok found) := by
  have hs : t.Sought [] [] [a] (t.genericWithin (t.size + 1) a []) :=
    sought_genericWithin _ .nil (by simp) (List.nil_subset _) (by simp) (by simp [Explored])
  unfold containsGenericParam
  rcases hr : t.genericWithin (t.size + 1) a [] with e | ⟨_ | _, seen⟩ <;> rw [hr] at hs
  · refine ⟨nofun, fun hall => ?_⟩
    obtain ⟨b, hb, c, hc, hlack⟩ := hs
    rw [List.mem_singleton.1 hb] at hc
    obtain ⟨ts, hts⟩ := hall c hc
    exact absurd hts (hlack ts)
  · refine ⟨fun _ h => ?_, fun _ => ⟨_, rfl⟩⟩
    cases h
    exact ⟨nofun, fun h => absurd h (hs.1.not_reaches (hs.2.2 List.mem_cons_self))⟩
  · refine ⟨fun _ h => ?_, fun _ => ⟨_, rfl⟩⟩
    cases h
    obtain ⟨b, hb, hgen⟩ := hs
    rw [List.mem_singleton.1 hb] at hgen
    exact ⟨fun _ => hgen, fun _ => rfl⟩

end TypeTable

end Lifecycle
