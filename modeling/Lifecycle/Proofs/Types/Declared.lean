import Mathlib.Tactic.Common
import Lifecycle.Proofs.Dict
import Lifecycle.Types.Flat
import Lifecycle.Types.Reach

/-!
# Declaring types

A table is built by declarations. `Declares` says what one of them does to the table, and `Reached`
is what all of them keep. A declaration that finds no number left ends in a fault.
-/

namespace Lifecycle

variable {d : Declaration}

namespace TypeKind

def isStructural : TypeKind → Bool
  | .seq | .ref | .ptr | .var | .openArray | .array | .closure => true
  | _ => false

def isPlain : TypeKind → Bool
  | .invalid | .void | .bool | .int | .float | .char | .nil | .string => true
  | _ => false

end TypeKind

/-- A request to the type table. -/
inductive Declaration where
  | seq (elem : TypeId)
  | constSeq (elem : TypeId)
  | ref (elem : TypeId)
  | acyclicRef (elem : TypeId)
  | ptr (elem : TypeId)
  | varOf (elem : TypeId)
  | openArray (elem : TypeId)
  | array (elem : TypeId) (count : UInt32)
  | closure (elem : TypeId)
  | tuple (elems : Listed TypeId)
  | proc (info : ProcInfo)
  | distinct (name : Text) (base : TypeId)
  | genericParam (name : Text)
  | instantiate (name : Text) (args : Listed TypeId) (body : TypeId)
  | declareObject (name : Text) (fields : Listed Field)
  | setFields (id : TypeId) (fields : Listed Field)
  | setVariant (id : TypeId) (v : Variant)
  | markAcyclic (id : TypeId)

namespace Declaration

def shape? : Declaration → Option TypeDesc
  | .seq elem => some { kind := .seq, elem }
  | .constSeq elem => some { kind := .seq, elem, flags := .constSeq }
  | .ref elem => some { kind := .ref, elem }
  | .acyclicRef elem => some { kind := .ref, elem, flags := .acyclic }
  | .ptr elem => some { kind := .ptr, elem }
  | .varOf elem => some { kind := .var, elem }
  | .openArray elem => some { kind := .openArray, elem }
  | .array elem count => some { kind := .array, elem, count }
  | .closure elem => some { kind := .closure, elem }
  | _ => none

def elem? : Declaration → Option TypeId
  | .distinct _ elem | .instantiate _ _ elem => some elem
  | d => d.shape?.map (·.elem)

def given (r : TypeId × TypeTable) : Except Fault (Option TypeId × TypeTable) :=
  if r.2.overrun then .error .noRoom else .ok (some r.1, r.2)

/-- The number that a declaration gives, and the table with what it declares. -/
def run (t : TypeTable) : Declaration → Except Fault (Option TypeId × TypeTable)
  | .seq elem => given (t.seq elem)
  | .constSeq elem => given (t.constSeq elem)
  | .ref elem => given (t.ref elem)
  | .acyclicRef elem => given (t.acyclicRef elem)
  | .ptr elem => given (t.ptr elem)
  | .varOf elem => given (t.varOf elem)
  | .openArray elem => given (t.openArray elem)
  | .array elem count => given (t.array elem count)
  | .closure elem => given (t.closure elem)
  | .tuple elems => do given (← t.tuple elems)
  | .proc info => given (t.proc info)
  | .distinct name base => given (t.distinct name base)
  | .genericParam name => given (t.genericParam name)
  | .instantiate name args body => given (t.instantiate name args body)
  | .declareObject name fields => given (t.declareObject name fields)
  | .setFields id fields => .ok (none, t.setFields id fields)
  | .setVariant id v => .ok (none, t.setVariant id v)
  | .markAcyclic id => .ok (none, t.markAcyclic id)

theorem run_shape (h : d.shape? = some s) (t : TypeTable) :
    d.run t = given (t.intern s) := by
  cases d <;> cases h <;> rfl

theorem structural_shape (h : d.shape? = some s) : s.kind.isStructural = true := by
  cases d <;> cases h <;> rfl

theorem elem?_shape (h : d.shape? = some s) : d.elem? = some s.elem := by
  cases d <;> cases h <;> rfl

end Declaration

namespace TypeTable

open Declaration

/-- The numbers that declarations give one after another. -/
def declareAll : List Declaration → TypeTable → Except Fault (List (Option TypeId) × TypeTable)
  | [], t => .ok ([], t)
  | d :: ds, t => do
    let (id, t) ← d.run t
    let (ids, t) ← declareAll ds t
    return (id :: ids, t)

/-! ## What declarations keep -/

section Lists

variable {α : Type} {f : α → α}

theorem findIdx?_modify (h : ∀ a, p (f a) = p a) : ∀ (as : List α) (i : Nat),
    (as.modify i f).findIdx? p = as.findIdx? p
  | [], i => by simp
  | a :: as, 0 => by simp [List.findIdx?_cons, h]
  | a :: as, i + 1 => by simp [List.findIdx?_cons, findIdx?_modify h as i]

theorem exists_modify (rest : List α) : ∀ (as : List α) (i : Nat), (∀ a ∈ as, f a = a) →
    ∃ rest', (as ++ rest).modify i f = as ++ rest' ∧ ∀ d ∈ rest', ∃ e ∈ rest, d = e ∨ d = f e
  | [], i, _ => by
    refine ⟨rest.modify i f, rfl, fun d hd => ?_⟩
    obtain ⟨j, hj⟩ := List.mem_iff_getElem?.1 hd
    rw [List.getElem?_modify] at hj
    obtain ⟨e, he, rfl⟩ := Option.map_eq_some_iff.1 hj
    refine ⟨e, List.mem_of_getElem? he, ?_⟩
    split_ifs
    · exact .inr rfl
    · exact .inl rfl
  | a :: as, 0, h => ⟨rest, by simp [h a], fun d hd => ⟨d, hd, .inl rfl⟩⟩
  | a :: as, i + 1, h => by
    obtain ⟨rest', he, hr⟩ := exists_modify rest as i fun b hb => h b (List.mem_cons_of_mem a hb)
    exact ⟨rest', by simp [he], hr⟩

end Lists

variable {t u : TypeTable} {s : TypeDesc}

/-- What holds of every table that declarations lead to: it begins with the plain types, every slot
that is pointed at is there, and the index knows the first type of each structural shape. -/
structure Sound (t : TypeTable) : Prop where
  types : ∃ rest, t.types.toList = initial.types.toList ++ rest ∧ ∀ d ∈ rest, d.kind.isPlain = false
  builtins : t.builtins = initial.builtins
  sides : ∀ k n, t.slots? k = some n → 0 < n
  slots : ∀ d ∈ t.types.toList, ∀ n, t.slots? d.kind = some n → d.payload.toNat < n
  index : ∀ s, s.kind.isStructural = true →
    t.index.get? s = (t.types.toList.findIdx? (· = s)).map UInt32.ofNat

/-- `u` is `t` but for what the side tables hold, and has at most one slot more in each. -/
structure Grows (t u : TypeTable) : Prop where
  types : u.types = t.types
  index : u.index = t.index
  builtins : u.builtins = t.builtins
  overrun : u.overrun = t.overrun
  objects : t.objects.size ≤ u.objects.size ∧ u.objects.size ≤ t.objects.size + 1
  tuples : t.tuples.size ≤ u.tuples.size ∧ u.tuples.size ≤ t.tuples.size + 1
  procs : t.procs.size ≤ u.procs.size ∧ u.procs.size ≤ t.procs.size + 1
  insts : t.insts.size ≤ u.insts.size ∧ u.insts.size ≤ t.insts.size + 1
  names : t.names.size ≤ u.names.size ∧ u.names.size ≤ t.names.size + 1

theorem Grows.slots (h : Grows t u) (hu : u.slots? k = some m) :
    ∃ n, t.slots? k = some n ∧ n ≤ m ∧ m ≤ n + 1 := by
  cases k <;> cases hu
  case object => exact ⟨_, rfl, h.objects⟩
  case tuple => exact ⟨_, rfl, h.tuples⟩
  case proc => exact ⟨_, rfl, h.procs⟩
  case genericInst => exact ⟨_, rfl, h.insts⟩
  case distinct | genericParam => exact ⟨_, rfl, h.names⟩

namespace Sound

theorem grow (h : t.Sound) (hg : Grows t u) : u.Sound := by
  refine ⟨by rw [hg.types]; exact h.types, by rw [hg.builtins, h.builtins], fun k m hm => ?_,
    ?_, ?_⟩
  · obtain ⟨n, hn, hle, -⟩ := hg.slots hm
    exact Nat.lt_of_lt_of_le (h.sides k n hn) hle
  · rw [hg.types]
    intro d hd m hm
    obtain ⟨n, hn, hle, -⟩ := hg.slots hm
    exact Nat.lt_of_lt_of_le (h.slots d hd n hn) hle
  · rw [hg.types, hg.index]
    exact h.index

theorem push (h : t.Sound) (hp : s.kind.isPlain = false)
    (hslot : ∀ n, t.slots? s.kind = some n → s.payload.toNat < n)
    (hnew : s.kind.isStructural = true → t.types.toList.findIdx? (· = s) = none) :
    (t.push s).Sound := by
  obtain ⟨rest, hr, hrest⟩ := h.types
  have hl : (t.push s).types.toList = t.types.toList ++ [s] := by simp [TypeTable.push]
  refine ⟨⟨rest ++ [s], by rw [hl, hr, List.append_assoc], ?_⟩, h.builtins, h.sides, ?_, fun d hd =>
    ?_⟩
  · simpa [or_imp, forall_and, hp] using hrest
  · rw [hl]
    intro d hd
    rcases List.mem_append.1 hd with hd | hd
    · exact h.slots d hd
    · rw [List.mem_singleton.1 hd]
      exact hslot
  · rw [hl, List.findIdx?_append, TypeTable.push, Dict.get?_insert, h.index d hd]
    split_ifs with he
    · subst he
      simp [hnew hd, size]
    · simp [he]

theorem pushStructural (h : t.Sound) (hs : s.kind.isStructural = true)
    (hi : t.index.get? s = none) : (t.push s).Sound := by
  rw [h.index s hs, Option.map_eq_none_iff] at hi
  refine h.push ?_ ?_ fun _ => hi
  · cases hc : s.kind <;> simp_all [TypeKind.isStructural, TypeKind.isPlain]
  · cases hc : s.kind <;> simp_all [TypeKind.isStructural, slots?]

theorem pushNominal (h : t.Sound) (hg : Grows t u) (hp : s.kind.isPlain = false)
    (hs : s.kind.isStructural = false) (hn : u.slots? s.kind = some (n + 1))
    (hslot : s.payload = .ofNat n) : (u.push s).Sound := by
  refine (h.grow hg).push hp (fun m hm => ?_) fun hk => by rw [hs] at hk; cases hk
  cases hn.symm.trans hm
  rw [hslot, UInt32.toNat_ofNat']
  exact Nat.lt_succ_of_le (Nat.mod_le _ _)

theorem markAcyclic (h : t.Sound) (id : TypeId) : (t.markAcyclic id).Sound := by
  obtain ⟨rest, hr, hrest⟩ := h.types
  rw [TypeTable.markAcyclic]
  set f : TypeDesc → TypeDesc :=
    fun d => if d.kind = .object then { d with flags := d.flags.union .acyclic } else d
  have hkind : ∀ d, (f d).kind = d.kind := fun d => by simp only [f]; split_ifs <;> rfl
  have hpay : ∀ d, (f d).payload = d.payload := fun d => by simp only [f]; split_ifs <;> rfl
  obtain ⟨rest', he, hrest'⟩ := exists_modify (f := f) rest initial.types.toList id.toNat
    (by decide)
  have hl : (t.types.modify id.toNat f).toList = initial.types.toList ++ rest' := by
    rw [Array.toList_modify, hr, he]
  refine ⟨⟨rest', hl, fun d hd => ?_⟩, h.builtins, h.sides, fun d hd => ?_, fun s hs => ?_⟩
  · obtain ⟨e, hmem, rfl | rfl⟩ := hrest' d hd
    · exact hrest d hmem
    · rw [hkind]
      exact hrest e hmem
  · rw [Array.toList_modify] at hd
    obtain ⟨_, rfl, hm⟩ := exists_modify (f := f) t.types.toList [] id.toNat (by simp)
    obtain ⟨e, hmem, rfl | rfl⟩ := hm d hd
    · exact h.slots d hmem
    · rw [hkind, hpay]
      exact h.slots e hmem
  · rw [h.index s hs, Array.toList_modify, findIdx?_modify]
    intro d
    simp only [f]
    split_ifs with ho
    · have hne : d.kind ≠ s.kind := by
        rintro hk
        rw [← hk, ho] at hs
        cases hs
      exact decide_eq_decide.2 (iff_of_false (fun he => hne (congrArg TypeDesc.kind he :))
        fun he => hne (congrArg TypeDesc.kind he :))
    · rfl

theorem initial : TypeTable.initial.Sound := by
  refine ⟨⟨[], rfl, by simp⟩, rfl, fun k n h => ?_, by decide, fun s hs => ?_⟩
  · cases k <;> cases h <;> decide
  · have hkeys : ∀ k ∈ TypeTable.initial.index.keys, k.kind.isStructural = false := by decide
    have htypes : ∀ d ∈ TypeTable.initial.types.toList, d.kind.isStructural = false := by decide
    have hne : ∀ d : TypeDesc, d.kind.isStructural = false → d ≠ s := by
      rintro d hd rfl
      rw [hs] at hd
      cases hd
    rw [Dict.get?_eq_none_iff.2 fun hk => hne s (hkeys s hk) rfl,
      List.findIdx?_eq_none_iff.2 fun d hd => decide_eq_false (hne d (htypes d hd))]
    rfl

end Sound

/-- What holds of every table that declarations lead to, with what they need of it: there are
numbers for all its types, and it has fewer slots of each kind than types. -/
structure Reached (t : TypeTable) : Prop extends Sound t where
  whole : t.overrun = false
  numbers : t.size ≤ UInt32.size
  below : ∀ k n, t.slots? k = some n → n < t.size

namespace Reached

theorem initial : Reached .initial := by
  refine ⟨Sound.initial, rfl, by decide, fun k n h => ?_⟩
  cases k <;> cases h <;> decide

theorem push (h : Reached t) (hg : Grows t u) (hlt : t.size < UInt32.size) (hs : (u.push s).Sound) :
    Reached (u.push s) := by
  have hsize : (u.push s).size = t.size + 1 := by simp [TypeTable.push, size, hg.types]
  refine ⟨hs, hg.overrun.trans h.whole, by omega, fun k m hm => ?_⟩
  obtain ⟨n, hn, -, hle⟩ := hg.slots hm
  have := h.below k n hn
  omega

theorem grow (h : Reached t) (hg : Grows t u) (hk : ∀ k, u.slots? k = t.slots? k) : Reached u := by
  refine ⟨h.toSound.grow hg, hg.overrun.trans h.whole, ?_, fun k n hn => ?_⟩
  · rw [size, hg.types]
    exact h.numbers
  · rw [size, hg.types]
    exact h.below k n (hk k ▸ hn)

theorem markAcyclic (h : Reached t) (id : TypeId) : Reached (t.markAcyclic id) := by
  refine ⟨h.toSound.markAcyclic id, h.whole, ?_, fun k n hn => ?_⟩
  · simpa [size, TypeTable.markAcyclic] using h.numbers
  · simpa [size, TypeTable.markAcyclic] using h.below k n hn

end Reached

/-! ## Numbers -/

/-- A type is declared just where a number is left. -/
theorem given_append (h : t.overrun = false) (s : TypeDesc) : given (t.append s) =
    if t.size < UInt32.size then .ok (some (.ofNat t.size), t.push s) else .error .noRoom := by
  rw [append]
  split_ifs with hlt
  · simp [given, push, h]
  · simp [given]

theorem given_appendAt (h : t.overrun = false) (hn : n < UInt32.size) (s : TypeDesc) :
    given (t.appendAt n s) = if t.size < UInt32.size then
      .ok (some (.ofNat t.size), t.push { s with payload := .ofNat n }) else .error .noRoom := by
  rw [appendAt, if_pos hn, given_append h]

def isTuple (t : TypeTable) (elems : List TypeId) (s : TypeDesc) : Bool :=
  s.kind = .tuple && (t.tuples[s.payload.toNat]?).map Listed.items = some elems

theorem findTuple_eq (elems : List TypeId) : ∀ (ds : List TypeDesc) (id : TypeId),
    (∀ d ∈ ds, ∀ n, t.slots? d.kind = some n → d.payload.toNat < n) →
    t.findTuple elems ds id = .ok ((ds.findIdx? (t.isTuple elems)).map fun i => id + .ofNat i)
  | [], _, _ => rfl
  | d :: ds, id, h => by
    have ih := findTuple_eq elems ds (id + 1) fun e he => h e (List.mem_cons_of_mem d he)
    have hnext : (Option.map (· + 1) (ds.findIdx? (t.isTuple elems))).map (fun i => id + .ofNat i) =
        (ds.findIdx? (t.isTuple elems)).map fun i => id + 1 + UInt32.ofNat i := by
      simp [Function.comp_def, UInt32.add_assoc, UInt32.add_comm 1]
    rw [findTuple, List.findIdx?_cons, ih]
    by_cases hk : d.kind = .tuple
    · have hlt : d.payload.toNat < t.tuples.size := h d (List.mem_cons_self ..) _ (by rw [hk]; rfl)
      rw [if_pos hk, Array.getElem?_eq_getElem hlt]
      by_cases he : (t.tuples[d.payload.toNat]).items = elems
      · have hd : t.isTuple elems d = true := by simp [isTuple, hk, hlt, he]
        simp only [orAbsent, he, hd, bind, Except.bind]
        simp [pure, Except.pure]
      · have hd : t.isTuple elems d = false := by simp [isTuple, hlt, he]
        simp only [orAbsent, he, hd, if_false, bind, Except.bind, Bool.false_eq_true, hnext]
    · have hd : t.isTuple elems d = false := by simp [isTuple, hk]
      rw [if_neg hk, hd, if_neg (by simp), hnext]

theorem grows_modifyObject (id : TypeId) (f : ObjectInfo → ObjectInfo) :
    Grows t (t.modifyObject id f) := by
  rw [modifyObject]
  split <;> constructor <;> simp

theorem slots_modifyObject (id : TypeId) (f : ObjectInfo → ObjectInfo) (k : TypeKind) :
    (t.modifyObject id f).slots? k = t.slots? k := by
  rw [modifyObject]
  split
  · cases k <;> simp [slots?]
  · rfl

/-! ## What one declaration does -/

/-- The table gets another type, or none, or an object of it is marked. -/
inductive Declares (t : TypeTable) (d : Declaration) : TypeTable → Prop
  | added {v : TypeTable} {s : TypeDesc} (hv : v.types = t.types)
      (ht : v.tuples = t.tuples ∨ ∃ x, v.tuples = t.tuples.push x)
      (he : s.kind.hasElem = true → d.elem? = some s.elem) : Declares t d (v.push s)
  | same {v : TypeTable} (hv : v.types = t.types) (ht : v.tuples = t.tuples) : Declares t d v
  | marked (id : TypeId) : Declares t d (t.markAcyclic id)

theorem push_of_append (h : given (t.append s) = .ok (x, u)) : u = t.push s := by
  rw [append] at h
  split_ifs at h with hlt
  · rw [given] at h
    split_ifs at h
    cases h
    rfl
  · cases h

theorem push_of_appendAt (h : given (t.appendAt n s) = .ok (x, u)) :
    u = t.push { s with payload := .ofNat n } := by
  rw [appendAt] at h
  split_ifs at h
  · exact push_of_append h
  · cases h

theorem intern_cases (t : TypeTable) (s : TypeDesc) :
    (∃ id, t.intern s = (id, t)) ∨ t.index.get? s = none ∧ t.intern s = t.append s := by
  rw [intern]
  split_ifs
  · exact .inl ⟨_, rfl⟩
  · split
    · exact .inl ⟨_, rfl⟩
    · exact .inr ⟨‹_›, rfl⟩

theorem tuple_cases (h : t.tuple elems = .ok r) :
    (∃ id, t.findTuple elems.items (t.types.toList.drop 1) 1 = .ok (some id) ∧ r = (id, t)) ∨
      t.findTuple elems.items (t.types.toList.drop 1) 1 = .ok none ∧
        r = { t with tuples := t.tuples.push elems }.appendAt t.tuples.size { kind := .tuple } := by
  obtain ⟨found, hf, hr⟩ := bind_eq_ok.1 h
  rcases found with _ | id
  · exact .inr ⟨hf, (pure_eq_ok.1 hr).symm⟩
  · exact .inl ⟨id, hf, (pure_eq_ok.1 hr).symm⟩

theorem same_of_given (h : given (a, t) = .ok (x, u)) : x = some a ∧ u = t := by
  rw [given] at h
  split_ifs at h
  cases h
  exact ⟨rfl, rfl⟩

theorem run_declares (h : d.run t = .ok (x, t')) : Declares t d t' := by
  rcases hd : d.shape? with _ | s
  · cases d with
    | tuple elems =>
      obtain ⟨r, hr, hgiven⟩ := bind_eq_ok.1 h
      rcases tuple_cases hr with ⟨id, -, rfl⟩ | ⟨-, rfl⟩
      · rw [(same_of_given hgiven).2]
        exact .same rfl rfl
      · rw [push_of_appendAt hgiven]
        exact .added rfl (.inr ⟨_, rfl⟩) (by simp [TypeKind.hasElem])
    | markAcyclic id =>
      cases h
      exact .marked id
    | setFields id fields | setVariant id v =>
      cases h
      refine .same (grows_modifyObject id _).types ?_
      simp only [setFields, setVariant, modifyObject]
      split <;> rfl
    | proc | distinct | genericParam | instantiate | declareObject =>
      rw [push_of_appendAt h]
      exact .added rfl (.inl rfl) (by simp [elem?, TypeKind.hasElem])
    | _ => cases hd
  · rw [run_shape hd] at h
    rcases intern_cases t s with ⟨id, hs⟩ | ⟨-, hs⟩
    · rw [hs] at h
      rw [(same_of_given h).2]
      exact .same rfl rfl
    · rw [hs] at h
      rw [push_of_append h]
      exact .added rfl (.inl rfl) fun _ => elem?_shape hd

end TypeTable

end Lifecycle
