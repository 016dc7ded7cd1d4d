import Mathlib.Algebra.Group.Nat.Defs
import Lifecycle.Proofs.Types.Flat

/-!
# One number for each shape

Structural types are numbered by what they are made of: in a run of declarations two of them give
the same number just when they are the same, whatever comes between (`declareAll_canonical`). The
number is the place of the first type that fits, and this place never changes. Every other type gets
a number that was not given before.
-/

namespace Lifecycle

namespace Declaration

def isStructural : Declaration → Bool
  | .tuple _ => true
  | d => d.shape?.isSome

/-- The declaration is one of an object that is there. -/
def changes : Declaration → Bool
  | .setFields _ _ | .setVariant _ _ | .markAcyclic _ => true
  | _ => false

/-- Each such declaration makes a type of its own. -/
def isNominal (d : Declaration) : Bool := !d.isStructural && !d.changes

/-- The constructor and its arguments. An empty list of elements may be left out. -/
def plain : Declaration → Declaration
  | .tuple elems => .tuple (some elems.items)
  | d => d

/-- The types that the declaration is content with. -/
def fits (t : TypeTable) : Declaration → TypeDesc → Bool
  | .tuple elems => t.isTuple elems.items
  | d => fun s => d.shape? = some s

variable {d e : Declaration} {t : TypeTable} {s : TypeDesc}

theorem fits_shape (h : d.shape? = some s) : d.fits t = fun x => decide (x = s) := by
  cases d with
  | tuple => cases h
  | _ => funext x; simp only [fits, h, Option.some.injEq, eq_comm]

theorem fits_plain (h : d.plain = e.plain) : d.fits t = e.fits t := by
  have hplain : ∀ d : Declaration, d.plain.fits t = d.fits t := fun d => by cases d <;> rfl
  rw [← hplain d, h, hplain]

theorem kind_of_fits (h : d.fits t s = true) : (∃ elems, d = .tuple elems ∧ s.kind = .tuple ∧
      (t.tuples[s.payload.toNat]?).map Listed.items = some elems.items) ∨ d.shape? = some s := by
  cases d with
  | tuple elems => exact .inl ⟨elems, rfl, by simpa [fits, TypeTable.isTuple] using h⟩
  | _ => exact .inr (of_decide_eq_true h)

theorem shape?_inj (h : d.shape? = some s) (he : e.shape? = some s) : d = e := by
  cases d <;> cases h <;> cases e <;> simp_all [shape?, TypeFlags.constSeq, TypeFlags.acyclic]

/-- What a type is content with says what it is made of. -/
theorem plain_of_fits (h : d.fits t s = true) (he : e.fits t s = true) : d.plain = e.plain := by
  rcases kind_of_fits h with ⟨elems, rfl, hk, hd⟩ | hd <;>
    rcases kind_of_fits he with ⟨elems', rfl, hk', he⟩ | he
  · rw [hd] at he
    exact congrArg (fun l => Declaration.tuple (some l)) (Option.some.inj he)
  · have := structural_shape he
    rw [hk] at this
    cases this
  · have := structural_shape hd
    rw [hk'] at this
    cases this
  · rw [shape?_inj hd he]

end Declaration

namespace TypeTable

open Declaration

variable {t u v : TypeTable} {d e : Declaration} {s : TypeDesc} {ds : List Declaration}
  {ids : List (Option TypeId)} {x : Option TypeId}

/-! ## What becomes of the types that are there -/

/-- The types of `t` are those of `u` at the same places, but for objects that were marked since. -/
structure Kept (t u : TypeTable) : Prop where
  types : ∀ {i : Nat} {s : TypeDesc}, t.types[i]? = some s → u.types[i]? = some s ∨
    s.kind = .object ∧ u.types[i]? = some { s with flags := s.flags.union .acyclic }
  tuples : ∀ {i : Nat} {x : Listed TypeId}, t.tuples[i]? = some x → u.tuples[i]? = some x

theorem Kept.refl (t : TypeTable) : Kept t t := ⟨.inl, id⟩

theorem Kept.trans (h : Kept t u) (h' : Kept u v) : Kept t v where
  types {i s} hs := by
    rcases h.types hs with hu | ⟨hk, hu⟩
    · exact h'.types hu
    · rcases h'.types hu with hv | ⟨-, hv⟩
      · exact .inr ⟨hk, hv⟩
      · refine .inr ⟨hk, hv.trans ?_⟩
        simp [TypeFlags.union, UInt8.or_assoc]
  tuples hx := h'.tuples (h.tuples hx)

theorem Kept.size_le (h : Kept t u) : t.size ≤ u.size := by
  by_contra hlt
  have hlt' : u.size < t.types.size := Nat.not_le.1 hlt
  have hs : t.types[u.size]? = some t.types[u.size] := Array.getElem?_eq_getElem hlt'
  have hnone : u.types[u.size]? = none := Array.getElem?_eq_none (Nat.le_refl _)
  rcases h.types hs with hu | ⟨-, hu⟩ <;> rw [hnone] at hu <;> cases hu

theorem Declares.kept (h : Declares t d u) : Kept t u := by
  cases h with
  | @added v s hv ht _ =>
    refine ⟨fun {i s'} hi => .inl ?_, fun {i x} hi => ?_⟩
    · have hlt : i < t.types.size := (Array.getElem?_eq_some_iff.1 hi).1
      simp only [push, hv, Array.getElem?_push, if_neg (Nat.ne_of_lt hlt), hi]
    · have hlt : i < t.tuples.size := (Array.getElem?_eq_some_iff.1 hi).1
      rcases ht with ht | ⟨x, ht⟩
      · simp only [push, ht, hi]
      · simp only [push, ht, Array.getElem?_push, if_neg (Nat.ne_of_lt hlt), hi]
  | same hv ht => exact ⟨fun hi => .inl (hv ▸ hi), fun hi => ht ▸ hi⟩
  | marked id =>
    refine ⟨fun {i s} hi => ?_, fun hi => hi⟩
    simp only [markAcyclic, Array.getElem?_modify, hi, Option.map_some]
    split_ifs with hid hk
    · exact .inr ⟨hk, rfl⟩
    · exact .inl rfl
    · exact .inl rfl

theorem Kept.fits_eq (h : Kept t u) (hs : t.Sound) {i : Nat}
    (hi : t.types[i]? = some s) (hi' : u.types[i]? = some s') : d.fits u s' = d.fits t s := by
  have hobject : ∀ {v : TypeTable} {x : TypeDesc}, x.kind = .object → d.fits v x = false := by
    intro v x hx
    refine Bool.eq_false_iff.2 fun hf => ?_
    rcases kind_of_fits hf with ⟨_, -, hk, -⟩ | hd
    · rw [hx] at hk
      cases hk
    · have := structural_shape hd
      rw [hx] at this
      cases this
  rcases h.types hi with he | ⟨hk, he⟩ <;> obtain rfl := Option.some.inj (hi'.symm.trans he)
  · cases d with
    | tuple elems =>
      simp only [fits, isTuple]
      by_cases hk : s'.kind = .tuple
      · have hlt : s'.payload.toNat < t.tuples.size :=
          hs.slots s' (List.mem_of_getElem? (by simpa using hi)) _ (by rw [hk]; rfl)
        have hx : t.tuples[s'.payload.toNat]? = some t.tuples[s'.payload.toNat] :=
          Array.getElem?_eq_getElem hlt
        rw [hx, h.tuples hx]
      · simp [hk]
    | _ => rfl
  · rw [hobject hk, hobject (v := u) (by exact hk)]

theorem findIdx?_of_forall {α : Type} {p q : α → Bool} : ∀ {as bs : List α} {i : Nat},
    (∀ (j : Nat) a, as[j]? = some a → ∃ b, bs[j]? = some b ∧ q b = p a) → as.findIdx? p = some i →
      bs.findIdx? q = some i
  | [], _, _, _, hi => by cases hi
  | a :: as, bs, i, h, hi => by
    obtain ⟨b, hb, hq⟩ := h 0 a rfl
    cases bs with
    | nil => cases hb
    | cons b' bs =>
      obtain rfl := Option.some.inj hb
      have ih := fun j => findIdx?_of_forall (i := j) fun k => h (k + 1)
      rw [List.findIdx?_cons] at hi ⊢
      rw [hq]
      split_ifs at hi ⊢
      · exact hi
      · obtain ⟨j, hj, rfl⟩ := Option.map_eq_some_iff.1 hi
        rw [ih j hj]
        rfl

/-- The first type that fits stays the first one. -/
theorem Kept.first (h : Kept t u) (hs : t.Sound) {i : Nat}
    (hi : t.types.toList.findIdx? (d.fits t) = some i) :
    u.types.toList.findIdx? (d.fits u) = some i := by
  refine findIdx?_of_forall (fun j s hj => ?_) hi
  rw [Array.getElem?_toList] at hj
  simp only [Array.getElem?_toList]
  rcases h.types hj with hu | ⟨-, hu⟩ <;> exact ⟨_, hu, h.fits_eq hs hj hu⟩

/-! ## The number of a type -/

theorem first_intern (ht : Reached t) (hs : s.kind.isStructural = true)
    (h : given (t.intern s) = .ok (x, u)) : ∃ k,
      x = some (.ofNat k) ∧ u.types.toList.findIdx? (· = s) = some k := by
  have hk : s.kind ≠ .invalid := by
    rintro hk
    rw [hk] at hs
    cases hs
  rw [intern, if_neg hk] at h
  rcases hi : t.index.get? s with _ | a
  · simp only [hi, given_append ht.whole] at h
    split_ifs at h with hlt
    cases h
    rw [ht.index s hs, Option.map_eq_none_iff] at hi
    refine ⟨t.size, rfl, ?_⟩
    rw [push, Array.toList_push, List.findIdx?_append, hi]
    simp [size]
  · simp only [hi] at h
    obtain ⟨rfl, rfl⟩ := same_of_given h
    rw [ht.index s hs] at hi
    obtain ⟨k, hfirst, rfl⟩ := Option.map_eq_some_iff.1 hi
    exact ⟨k, rfl, hfirst⟩

theorem findIdx?_isTuple (ht : t.Sound) (elems : List TypeId) :
    t.types.toList.findIdx? (t.isTuple elems) =
    ((t.types.toList.drop 1).findIdx? (t.isTuple elems)).map (· + 1) := by
  obtain ⟨rest, hr, -⟩ := ht.types
  rw [hr]
  exact List.findIdx?_cons

theorem first_tuple (ht : Reached t) (h : (Declaration.tuple elems).run t = .ok (x, u)) :
    ∃ k, x = some (.ofNat k) ∧ u.types.toList.findIdx? (u.isTuple elems.items) = some k := by
  have hkept : Kept t u := (run_declares h).kept
  have hfind := findTuple_eq (t := t) elems.items (t.types.toList.drop 1) 1
    fun d hd => ht.slots d (List.mem_of_mem_drop hd)
  obtain ⟨r, hr, h⟩ := bind_eq_ok.1 h
  rcases tuple_cases hr with ⟨id, hid, rfl⟩ | ⟨hnone, rfl⟩
  · obtain ⟨rfl, rfl⟩ := same_of_given h
    rw [hfind] at hid
    obtain ⟨i, hi, rfl⟩ := Option.map_eq_some_iff.1 (Except.ok.inj hid)
    refine ⟨i + 1, ?_, by rw [findIdx?_isTuple ht.toSound, hi]; rfl⟩
    simp [UInt32.add_comm]
  · have hroom : t.tuples.size < UInt32.size :=
      Nat.lt_of_lt_of_le (ht.below .tuple _ rfl) ht.numbers
    rw [given_appendAt (t := { t with tuples := t.tuples.push elems }) ht.whole hroom] at h
    split_ifs at h
    obtain ⟨rfl, rfl⟩ := Prod.mk.inj (Except.ok.inj h)
    rw [hfind] at hnone
    have hno := Option.map_eq_none_iff.1 (Except.ok.inj hnone)
    rw [← Option.map_eq_none_iff (f := (· + 1)), ← findIdx?_isTuple ht.toSound,
      List.findIdx?_eq_none_iff] at hno
    set s : TypeDesc := { kind := .tuple, payload := .ofNat t.tuples.size }
    set u := { t with tuples := t.tuples.push elems }.push s
    have htypes : u.types.toList = t.types.toList ++ [s] := Array.toList_push
    have hold : t.types.toList.findIdx? (u.isTuple elems.items) = none := by
      refine List.findIdx?_eq_none_iff.2 fun x hx => ?_
      obtain ⟨j, hj⟩ := List.mem_iff_getElem?.1 hx
      have hj' : u.types[j]? = some x := by
        rw [← Array.getElem?_toList, htypes,
          List.getElem?_append_left (List.getElem?_eq_some_iff.1 hj).1, hj]
      rw [Array.getElem?_toList] at hj
      exact (hkept.fits_eq (d := .tuple elems) ht.toSound hj hj').trans (hno x hx)
    have hnew : u.isTuple elems.items s = true := by
      have hslot : s.payload.toNat = t.tuples.size := UInt32.toNat_ofNat_of_lt' hroom
      simp [isTuple, u, push, hslot, s]
    refine ⟨t.size, rfl, ?_⟩
    rw [htypes, List.findIdx?_append, hold]
    simp [hnew, size]

theorem next_appendAt (ht : Reached t) (h : given (v.appendAt n s) = .ok (x, u))
    (hv : v.overrun = t.overrun) (htypes : v.types = t.types) (hk : t.slots? k = some n) :
    x = some (.ofNat t.size) ∧ t.size < u.size := by
  have hn : n < UInt32.size := Nat.lt_of_lt_of_le (ht.below k n hk) ht.numbers
  rw [given_appendAt (hv.trans ht.whole) hn] at h
  split_ifs at h
  cases h
  simp [push, size, htypes]

/-- A structural declaration gives the place of the first type that fits, any other new type the
next place. -/
theorem run_number (ht : Reached t) (h : d.run t = .ok (x, u)) :
    (d.isStructural = true → ∃ k, x = some (.ofNat k) ∧ u.types.toList.findIdx? (d.fits u) =
    some k) ∧
      (d.isNominal = true → x = some (.ofNat t.size) ∧ t.size < u.size) ∧
        (d.changes = true → x = none) := by
  rcases hd : d.shape? with _ | s
  · cases d with
    | tuple elems => exact ⟨fun _ => first_tuple ht h, fun hn => (by cases hn), fun hc =>
      (by cases hc)⟩
    | setFields | setVariant | markAcyclic =>
      cases h
      exact ⟨fun hs => (by cases hs), fun hn => (by cases hn), fun _ => rfl⟩
    | proc =>
      refine ⟨fun hs => (by cases hs), fun _ => ?_, fun hc => (by cases hc)⟩
      exact next_appendAt (k := .proc) ht h rfl rfl rfl
    | distinct | genericParam =>
      refine ⟨fun hs => (by cases hs), fun _ => ?_, fun hc => (by cases hc)⟩
      exact next_appendAt (k := .distinct) ht h rfl rfl rfl
    | instantiate =>
      refine ⟨fun hs => (by cases hs), fun _ => ?_, fun hc => (by cases hc)⟩
      exact next_appendAt (k := .genericInst) ht h rfl rfl rfl
    | declareObject =>
      refine ⟨fun hs => (by cases hs), fun _ => ?_, fun hc => (by cases hc)⟩
      exact next_appendAt (k := .object) ht h rfl rfl rfl
    | _ => cases hd
  · rw [run_shape hd] at h
    obtain ⟨k, hk, hfirst⟩ := first_intern ht (structural_shape hd) h
    refine ⟨fun _ => ⟨k, hk, by rw [fits_shape hd]; exact hfirst⟩, fun hn => ?_, fun hc => ?_⟩
    · cases d <;> cases hd <;> cases hn
    · cases d <;> cases hd <;> cases hc

theorem lt_of_first {α : Type} {p : α → Bool} {as : Array α} {k : Nat}
    (h : as.toList.findIdx? p = some k) : k < as.size :=
  (List.findIdx?_eq_some_iff_getElem.1 h).1

theorem issued_lt (ht : Reached t) (h : d.run t = .ok (some a, u)) : a.toNat < u.size := by
  obtain ⟨hs, hn, hc⟩ := run_number ht h
  have hof : ∀ {k}, some a = some (UInt32.ofNat k) → k < u.size → a.toNat < u.size := by
    intro k hk hlt
    rw [Option.some.inj hk]
    exact Nat.lt_of_le_of_lt (Nat.mod_le _ _) hlt
  cases hd : d.isStructural with
  | true =>
    obtain ⟨k, hk, hfirst⟩ := hs hd
    exact hof hk (lt_of_first hfirst)
  | false =>
    cases hd' : d.changes with
    | true => cases hc hd'
    | false =>
      obtain ⟨hk, hlt⟩ := hn (by simp [isNominal, hd, hd'])
      exact hof hk hlt

/-! ## Runs -/

theorem declareAll_cons (h : declareAll (d :: ds) t = .ok (ids, u)) : ∃ x v ids',
    d.run t = .ok (x, v) ∧ declareAll ds v = .ok (ids', u) ∧ ids = x :: ids' := by
  obtain ⟨⟨x, v⟩, hd, h⟩ := bind_eq_ok.1 h
  obtain ⟨⟨ids', u'⟩, hds, h⟩ := bind_eq_ok.1 h
  cases h
  exact ⟨x, v, ids', hd, hds, rfl⟩

theorem declareAll_kept : ∀ {ds : List Declaration} {ids : List (Option TypeId)} {t : TypeTable},
    declareAll ds t = .ok (ids, u) → Kept t u
  | [], _, _, h => by
    cases h
    exact .refl _
  | d :: ds, _, t, h => by
    obtain ⟨x, v, ids, hd, hds, rfl⟩ := declareAll_cons h
    exact (run_declares hd).kept.trans (declareAll_kept hds)

/-- A run up to some point and from there on. -/
theorem declareAll_split :
    ∀ {ds : List Declaration} {ids : List (Option TypeId)} {t : TypeTable} (k : Nat),
    Reached t → declareAll ds t = .ok (ids, u) → ∃ v, Reached v ∧
      declareAll (ds.take k) t = .ok (ids.take k, v) ∧
    declareAll (ds.drop k) v = .ok (ids.drop k, u)
  | ds, ids, t, 0, ht, h => ⟨t, ht, rfl, h⟩
  | [], _, t, k + 1, ht, h => by
    cases h
    exact ⟨_, ht, rfl, rfl⟩
  | d :: ds, _, t, k + 1, ht, h => by
    obtain ⟨x, w, ids, hd, hds, rfl⟩ := declareAll_cons h
    obtain ⟨v, hv, htake, hdrop⟩ := declareAll_split k (ht.run hd) hds
    refine ⟨v, hv, ?_, hdrop⟩
    simp [declareAll, hd, htake, bind, Except.bind, pure, Except.pure]

/-- One declaration in a run: the table it meets, what it gives and the table it leaves. -/
theorem declareAll_at (ht : Reached t) (h : declareAll ds t = .ok (ids, u))
    (hi : ids[i]? = some x) : ∃ d v w, ds[i]? = some d ∧ Reached v ∧
      declareAll (ds.take i) t = .ok (ids.take i, v) ∧ d.run v = .ok (x, w) ∧ Reached w ∧
    Kept w u := by
  obtain ⟨v, hv, htake, hdrop⟩ := declareAll_split i ht h
  rw [← List.head?_drop] at hi
  rcases hds : ds.drop i with _ | ⟨d, rest⟩
  · rw [hds] at hdrop
    have hnil : [] = ids.drop i := congrArg Prod.fst (Except.ok.inj hdrop)
    rw [← hnil] at hi
    cases hi
  · rw [hds] at hdrop
    obtain ⟨y, w, ids', hd, hrest, he⟩ := declareAll_cons hdrop
    rw [he] at hi
    obtain rfl := Option.some.inj hi
    refine ⟨d, v, w, ?_, hv, htake, hd, hv.run hd, declareAll_kept hrest⟩
    rw [← List.head?_drop, hds]
    rfl

theorem ofNat_inj (hi : i < UInt32.size) (hj : j < UInt32.size) (h : UInt32.ofNat i = .ofNat j) :
    i = j := by
  have := congrArg UInt32.toNat h
  rwa [UInt32.toNat_ofNat_of_lt' hi, UInt32.toNat_ofNat_of_lt' hj] at this

/-- The numbers `ids` that the declarations `ds` gave: structural types have the same number just
when they are the same, and every other type has one that was not given before it and is none of the
plain types. -/
structure Canonical (ds : List Declaration) (ids : List (Option TypeId)) : Prop where
  given : ∀ {i : Nat} {d : Declaration}, ds[i]? = some d → d.changes = false →
    ∃ a, ids[i]? = some (some a)
  structural : ∀ {i j : Nat} {d e : Declaration} {a b : TypeId}, ds[i]? = some d → ds[j]? = some e →
    d.isStructural = true → e.isStructural = true → ids[i]? = some (some a) →
    ids[j]? = some (some b) → (a = b ↔ d.plain = e.plain)
  nominal : ∀ {j : Nat} {d : Declaration} {b : TypeId}, ds[j]? = some d → d.isNominal = true →
    ids[j]? = some (some b) → initial.size ≤ b.toNat ∧ ∀ i < j, ids[i]? ≠ some (some b)

theorem length_declareAll : ∀ {ds : List Declaration} {ids : List (Option TypeId)} {t : TypeTable},
    declareAll ds t = .ok (ids, u) → ids.length = ds.length
  | [], _, _, h => by
    cases h
    rfl
  | d :: ds, _, t, h => by
    obtain ⟨x, v, ids, -, hds, rfl⟩ := declareAll_cons h
    simp [length_declareAll hds]

theorem canonical_declareAll (h : declareAll ds initial = .ok (ids, t)) (ht : Reached t) :
    Canonical ds ids := by
  have hat : ∀ {i : Nat} {d : Declaration} {x : Option TypeId}, ds[i]? = some d → ids[i]? = some x →
      ∃ v w, declareAll (ds.take i) initial = .ok (ids.take i, v) ∧ Reached v ∧ Reached w ∧
      Kept w t ∧
        d.run v = .ok (x, w) := by
    intro i d x hd hi
    obtain ⟨d', v, w, hd', hv, htake, hrun, hw, hk⟩ := declareAll_at .initial h hi
    obtain rfl := Option.some.inj (hd.symm.trans hd')
    exact ⟨v, w, htake, hv, hw, hk, hrun⟩
  -- the first type that fits, in the table at the end
  have hfirst : ∀ {i : Nat} {d : Declaration} {a : TypeId}, ds[i]? = some d →
    ids[i]? = some (some a) →
      d.isStructural = true → ∃ k, a = .ofNat k ∧ k < UInt32.size ∧
        t.types.toList.findIdx? (d.fits t) = some k := by
    intro i d a hd hi hs
    obtain ⟨v, w, -, hv, hw, hk, hrun⟩ := hat hd hi
    obtain ⟨k, ha, hk'⟩ := (run_number hv hrun).1 hs
    have hlast := hk.first hw.toSound hk'
    exact ⟨k, Option.some.inj ha, Nat.lt_of_lt_of_le (lt_of_first hlast) ht.numbers, hlast⟩
  refine ⟨fun {i d} hd hc => ?_, fun {i j d e a b} hd he hds hes ha hb => ?_,
    fun {j d b} hd hn hb => ?_⟩
  · have hlt : i < ids.length := length_declareAll h ▸ (List.getElem?_eq_some_iff.1 hd).1
    obtain ⟨v, w, -, hv, -, -, hrun⟩ := hat hd (List.getElem?_eq_getElem hlt)
    obtain ⟨hs, hn, -⟩ := run_number hv hrun
    rw [List.getElem?_eq_getElem hlt]
    cases hstruct : d.isStructural with
    | true =>
      obtain ⟨k, hk, -⟩ := hs hstruct
      exact ⟨_, congrArg some hk⟩
    | false => exact ⟨_, congrArg some (hn (by simp [isNominal, hstruct, hc])).1⟩
  · obtain ⟨k, rfl, hk, hd'⟩ := hfirst hd ha hds
    obtain ⟨l, rfl, hl, he'⟩ := hfirst he hb hes
    constructor
    · intro hkl
      obtain rfl := ofNat_inj hk hl hkl
      obtain ⟨_, hp, -⟩ := List.findIdx?_eq_some_iff_getElem.1 hd'
      obtain ⟨_, hq, -⟩ := List.findIdx?_eq_some_iff_getElem.1 he'
      exact plain_of_fits hp hq
    · intro hde
      rw [fits_plain hde, he'] at hd'
      rw [Option.some.inj hd']
  · obtain ⟨v, w, htake, hv, hw, -, hrun⟩ := hat hd hb
    obtain ⟨hbv, hlt⟩ := (run_number hv hrun).2.1 hn
    have hnum : b.toNat = v.size := by
      rw [Option.some.inj hbv]
      exact UInt32.toNat_ofNat_of_lt' (Nat.lt_of_lt_of_le hlt hw.numbers)
    refine ⟨hnum ▸ (declareAll_kept htake).size_le, fun i hij hi => ?_⟩
    rw [← List.getElem?_take_of_lt hij] at hi
    obtain ⟨d', v', w', -, hv', -, hrun', -, hk'⟩ := declareAll_at .initial htake hi
    have := issued_lt hv' hrun'
    have := hk'.size_le
    omega

/-- Every run of declarations succeeds as long as there are numbers for all types. The numbers it
gives are canonical; and no descriptor changes from any point of the run to its end, but for objects
that are marked. -/
theorem declareAll_canonical (ds : List Declaration) :
    UInt32.size < initial.size + ds.length ∧ declareAll ds initial = .error .noRoom ∨
    ∃ ids t, declareAll ds initial = .ok (ids, t) ∧ t.size ≤ UInt32.size ∧ Canonical ds ids ∧
      ∀ k, ∃ u, declareAll (ds.take k) initial = .ok (ids.take k, u) ∧
        ∀ id s, u.lookup id = some s → t.lookup id = some s ∨
          s.kind = .object ∧ t.lookup id = some { s with flags := s.flags.union .acyclic } := by
  rcases (Alike.refl initial).declareAll ds .initial with ⟨hfull, he, -⟩
    | ⟨ids, t, _, hrun, -, -, ht⟩
  · exact .inl ⟨hfull, he⟩
  refine .inr ⟨ids, t, hrun, ht.numbers, canonical_declareAll hrun ht, fun k => ?_⟩
  obtain ⟨u, -, htake, hdrop⟩ := declareAll_split k .initial hrun
  refine ⟨u, htake, fun id s hs => ?_⟩
  rw [lookup] at hs ⊢
  split_ifs at hs ⊢
  exact (declareAll_kept hdrop).types hs

/-- A sequence, two tuples of it and a number, and two objects of one name. -/
def pairs : List Declaration :=
  [.seq 3, .tuple (some [8, 3]), .declareObject "node" none, .tuple (some [8, 3]),
    .declareObject "node" none]

theorem declareAll_canonical_pairs : ∃ ids t, declareAll pairs initial = .ok (ids, t) ∧
    t.size = 12 ∧ Canonical pairs ids := by
  have hsize : (declareAll pairs initial).map (·.2.size) = .ok 12 := by decide +kernel
  rcases declareAll_canonical pairs with ⟨hfull, -⟩ | ⟨ids, t, hrun, -, hcanon, -⟩
  · exact absurd hfull (by decide)
  · rw [hrun] at hsize
    exact ⟨ids, t, hrun, Except.ok.inj hsize, hcanon⟩

end TypeTable

end Lifecycle
