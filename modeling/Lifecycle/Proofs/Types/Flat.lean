import Lifecycle.Proofs.Types.Declared

/-!
# Tables that are written and read back

The flat form of a table leaves out its index. The index that is made anew knows the first type of
each shape; the old one knows what was asked for, and objects as they were before they were marked.
Still no declaration tells the two tables apart (`TypeTable.ofFlat_declareAll`): only structural
types are looked for in the index, and on their shapes the two agree.
-/

namespace Lifecycle

variable {d : Declaration}

namespace TypeTable

open Declaration

/-- A table that was declared type by type, each made of types that were there. -/
inductive Built : TypeTable → Prop
  | initial : Built .initial
  | declare {t t' : TypeTable} {d : Declaration} {id : Option TypeId} (h : Built t)
      (helem : ∀ e, d.elem? = some e → e.toNat < t.size) (hrun : d.run t = .ok (id, t')) : Built t'

/-- Two tables that hold the same and answer every question about their types alike. -/
structure AnswerAlike (t u : TypeTable) : Prop where
  flat : u.flatten = t.flatten
  builtins : u.builtins = t.builtins
  lookup : u.lookup = t.lookup
  kindOf : u.kindOf = t.kindOf
  object : u.object? = t.object?
  tupleElems : u.tupleElems = t.tupleElems
  procInfo : u.procInfo? = t.procInfo?
  instInfo : u.instInfo? = t.instInfo?
  nominalName : u.nominalName = t.nominalName
  text : u.text = t.text
  containsGenericParam : u.containsGenericParam = t.containsGenericParam
  isCyclic : u.isCyclic = t.isCyclic

variable {t u : TypeTable} {s : TypeDesc}

/-! ## Two tables side by side -/

/-- Tables that differ in their index only, and there not on structural shapes. -/
def Alike (t u : TypeTable) : Prop :=
  ∃ index, u = { t with index } ∧ ∀ s, s.kind.isStructural = true → index.get? s = t.index.get? s

namespace Alike

theorem answer (h : Alike t u) : AnswerAlike t u := by
  obtain ⟨index, rfl, -⟩ := h
  have hskip : ∀ kinds n, { t with index }.skipWithin kinds n = t.skipWithin kinds n := by
    intro kinds n
    induction n with
    | zero => rfl
    | succ n ih => funext id; simp only [skipWithin, ih]; rfl
  have htext : ∀ n, { t with index }.textWithin n = t.textWithin n := by
    intro n
    induction n with
    | zero => rfl
    | succ n ih => funext id; rw [textWithin, textWithin, ih]; rfl
  have hgeneric : ∀ n, { t with index }.genericWithin n = t.genericWithin n := by
    intro n
    induction n with
    | zero => rfl
    | succ n ih => funext id seen; rw [genericWithin, genericWithin, ih]; rfl
  have hcycle : ∀ n, { t with index }.cycleWithin n = t.cycleWithin n := by
    intro n
    induction n with
    | zero => rfl
    | succ n ih =>
      funext id seen
      rw [cycleWithin, cycleWithin, ih]
      simp only [skipAbstract, skip, hskip]
      rfl
  refine ⟨rfl, rfl, rfl, rfl, rfl, rfl, rfl, rfl, rfl, ?_, ?_, ?_⟩
  · exact htext _
  · funext id
    simp only [containsGenericParam, hgeneric]
    rfl
  · funext id
    simp only [isCyclic, skipAbstract, skip, hskip, hcycle]
    rfl

theorem size_eq (h : Alike t u) : u.size = t.size := by
  obtain ⟨index, rfl, -⟩ := h
  rfl

theorem overrun_eq (h : Alike t u) : u.overrun = t.overrun := by
  obtain ⟨index, rfl, -⟩ := h
  rfl

theorem push (h : Alike t u) (s : TypeDesc) : Alike (t.push s) (u.push s) := by
  obtain ⟨index, rfl, hi⟩ := h
  refine ⟨_, rfl, fun d hd => ?_⟩
  simp only [TypeTable.push, Dict.get?_insert, hi d hd]
  rfl

end Alike

theorem findTuple_index {index : Dict TypeDesc TypeId} : ∀ (ds : List TypeDesc) (id : TypeId),
      { t with index }.findTuple elems ds id = t.findTuple elems ds id
  | [], _ => rfl
  | d :: ds, id => by simp only [findTuple, findTuple_index ds]

section Steps

variable {index : Dict TypeDesc TypeId}

/-- The same is given in two tables that stay alike, or in neither is a number left. -/
def Alike.Both (t : TypeTable) (x y : Except Fault (Option TypeId × TypeTable)) : Prop :=
  UInt32.size ≤ t.size ∧ x = .error .noRoom ∧ y = .error .noRoom ∨
    ∃ id t' u', x = .ok (id, t') ∧ y = .ok (id, u') ∧ Alike t' u' ∧ Reached t'

theorem Alike.both_push (h : Alike v w) (hsize : v.size = t.size)
    (hr : t.size < UInt32.size → Reached (v.push s)) : Both t
      (if v.size < UInt32.size then .ok (some (.ofNat v.size), v.push s) else .error .noRoom)
      (if w.size < UInt32.size then .ok (some (.ofNat w.size), w.push s) else .error .noRoom) := by
  rw [h.size_eq, hsize]
  split_ifs with hlt
  · exact .inr ⟨_, _, _, rfl, rfl, h.push s, hr hlt⟩
  · exact .inl ⟨Nat.le_of_not_lt hlt, rfl, rfl⟩

theorem Alike.nominal (hr : Reached t)
    (hi : ∀ s, s.kind.isStructural = true → index.get? s = t.index.get? s)
    (hg : Grows t v) (hp : s.kind.isPlain = false) (hk : s.kind.isStructural = false)
    (ht : t.slots? s.kind = some n) (hn : v.slots? s.kind = some (n + 1)) :
    Both t (given (v.appendAt n s)) (given ({ v with index }.appendAt n s)) := by
  have ha : Alike v { v with index } := ⟨index, rfl, by rw [hg.index]; exact hi⟩
  have hw : v.overrun = false := hg.overrun.trans hr.whole
  have hlt : n < UInt32.size := Nat.lt_of_lt_of_le (hr.below _ _ ht) hr.numbers
  rw [given_appendAt hw hlt, given_appendAt (t := { v with index }) hw hlt]
  refine ha.both_push (by simp only [size, hg.types]) fun hroom => ?_
  exact hr.push hg hroom (hr.toSound.pushNominal hg hp hk hn rfl)

theorem modifyObject_index (id : TypeId) (f : ObjectInfo → ObjectInfo) :
    { t with index }.modifyObject id f = { t.modifyObject id f with index } := by
  have hslot : { t with index }.objectSlot? id = t.objectSlot? id := rfl
  rw [modifyObject, modifyObject, hslot]
  split <;> rfl

/-- A declaration gives the same number in both of two tables and leaves them alike, as long as a
number is left. -/
theorem Alike.run (h : Alike t u) (hr : Reached t) (d : Declaration) :
    Both t (d.run t) (d.run u) := by
  have hsame : ∀ {a : TypeId}, Both t (given (a, t)) (given (a, u)) := by
    intro a
    rw [given, given, h.overrun_eq, hr.whole]
    exact .inr ⟨_, _, _, rfl, rfl, h, hr⟩
  rcases hd : d.shape? with _ | s
  · obtain ⟨index, rfl, hi⟩ := h
    have hobject : ∀ id f, Alike (t.modifyObject id f) ({ t with index }.modifyObject id f) ∧
        Reached (t.modifyObject id f) := fun id f =>
      ⟨⟨index, modifyObject_index id f, by rw [(grows_modifyObject id f).index]; exact hi⟩,
        hr.grow (grows_modifyObject id f) (slots_modifyObject id f)⟩
    cases d with
    | tuple elems =>
      simp only [Declaration.run, TypeTable.tuple, findTuple_index,
        findTuple_eq _ _ 1 fun d hd => hr.slots d (List.mem_of_mem_drop hd)]
      rcases (t.types.toList.drop 1).findIdx? (t.isTuple elems.items) with _ | i
      · exact Alike.nominal hr hi (v := { t with tuples := t.tuples.push elems })
          (by constructor <;> simp) rfl rfl rfl (by simp [slots?])
      · exact hsame
    | proc info =>
      exact Alike.nominal hr hi (v := { t with procs := t.procs.push info })
        (by constructor <;> simp) rfl rfl rfl (by simp [slots?])
    | distinct name _ | genericParam name =>
      exact Alike.nominal hr hi (v := { t with names := t.names.push name })
        (by constructor <;> simp) rfl rfl rfl (by simp [slots?])
    | instantiate name args _ =>
      exact Alike.nominal hr hi (v := { t with insts := t.insts.push { name, args } })
        (by constructor <;> simp) rfl rfl rfl (by simp [slots?])
    | declareObject name fields =>
      exact Alike.nominal hr hi (v := { t with objects := t.objects.push { name, fields } })
        (by constructor <;> simp) rfl rfl rfl (by simp [slots?])
    | setFields id fields => exact .inr ⟨_, _, _, rfl, rfl, hobject id _⟩
    | setVariant id v => exact .inr ⟨_, _, _, rfl, rfl, hobject id _⟩
    | markAcyclic id => exact .inr ⟨_, _, _, rfl, rfl, ⟨index, rfl, hi⟩, hr.markAcyclic id⟩
    | _ => cases hd
  · have hk := structural_shape hd
    have hi : u.index.get? s = t.index.get? s := by
      obtain ⟨index, rfl, hi⟩ := h
      exact hi s hk
    have hgrow : Grows t t := by constructor <;> simp
    rw [run_shape hd, run_shape hd, intern, intern, hi]
    split_ifs
    · exact hsame
    rcases hs : t.index.get? s with _ | id
    · simp only [given_append hr.whole, given_append (h.overrun_eq.trans hr.whole)]
      exact h.both_push rfl fun hlt => hr.push hgrow hlt (hr.toSound.pushStructural hk hs)
    · exact hsame

theorem run_size_le (h : d.run t = .ok (x, u)) : u.size ≤ t.size + 1 := by
  cases run_declares h with
  | added hv _ _ => simp [push, size, hv]
  | same hv _ => simp [size, hv]
  | marked id => simp [size, markAcyclic]

theorem Alike.declareAll : ∀ (ds : List Declaration) {t u : TypeTable}, Alike t u → Reached t →
    UInt32.size < t.size + ds.length ∧ TypeTable.declareAll ds t = .error .noRoom ∧
        TypeTable.declareAll ds u = .error .noRoom ∨
      ∃ ids t' u', TypeTable.declareAll ds t = .ok (ids, t') ∧
        TypeTable.declareAll ds u = .ok (ids, u') ∧ Alike t' u' ∧ Reached t'
  | [], t, u, h, hr => .inr ⟨[], t, u, rfl, rfl, h, hr⟩
  | d :: ds, t, u, h, hr => by
    rcases h.run hr d with ⟨hfull, ht, hu⟩ | ⟨id, t1, u1, ht, hu, h1, hr1⟩
    · refine .inl ⟨by simp only [List.length_cons]; omega, ?_, ?_⟩
      · simp only [TypeTable.declareAll, ht, bind, Except.bind]
      · simp only [TypeTable.declareAll, hu, bind, Except.bind]
    have hsize := run_size_le ht
    rcases Alike.declareAll ds h1 hr1 with ⟨hfull, ht', hu'⟩ | ⟨ids, t', u', ht', hu', h'⟩
    · refine .inl ⟨by simp only [List.length_cons]; omega, ?_, ?_⟩
      · simp only [TypeTable.declareAll, ht, ht', bind, Except.bind]
      · simp only [TypeTable.declareAll, hu, hu', bind, Except.bind]
    · refine .inr ⟨id :: ids, t', u', ?_, ?_, h'⟩
      · simp only [TypeTable.declareAll, ht, ht', bind, Except.bind]
        rfl
      · simp only [TypeTable.declareAll, hu, hu', bind, Except.bind]
        rfl

end Steps

/-! ## Reading a table back -/

theorem elem_run {id : Option TypeId} (h : d.run t = .ok (id, t')) :
    t.size ≤ t'.size ∧ ∀ s ∈ t'.types.toList, s.kind.hasElem = true →
      s ∈ t.types.toList ∨ d.elem? = some s.elem := by
  cases run_declares h with
  | @added v s hv _ he =>
    simp only [push, size, hv, Array.size_push, Array.toList_push, List.mem_append,
      List.mem_singleton]
    refine ⟨Nat.le_succ _, ?_⟩
    rintro x (hx | rfl) hk
    · exact .inl hx
    · exact .inr (he hk)
  | same hv _ =>
    rw [size, size, hv]
    exact ⟨Nat.le_refl _, fun s hs _ => .inl hs⟩
  | marked id =>
    refine ⟨by simp [size, markAcyclic], fun s hs hk => .inl ?_⟩
    rw [markAcyclic, Array.toList_modify] at hs
    obtain ⟨_, rfl, hm⟩ := exists_modify t.types.toList [] id.toNat (by simp)
    obtain ⟨e, he, rfl | rfl⟩ := hm s hs
    · exact he
    · split_ifs at hk ⊢ with ho
      · simp [ho, TypeKind.hasElem] at hk
      · exact he

theorem Alike.refl (t : TypeTable) : Alike t t := ⟨t.index, rfl, fun _ _ => rfl⟩

theorem Reached.run (h : Reached t) (hd : d.run t = .ok (x, u)) : Reached u := by
  rcases (Alike.refl t).run h d with ⟨-, hrun, -⟩ | ⟨_, t1, _, hrun, -, -, hr⟩
  · cases hd.symm.trans hrun
  · cases hd.symm.trans hrun
    exact hr

theorem Built.reached (h : Built t) : Reached t ∧
    ∀ s ∈ t.types.toList, s.kind.hasElem = true → s.elem.toNat < t.size := by
  induction h with
  | initial => exact ⟨.initial, by decide⟩
  | @declare t t' d id _ helem hrun ih =>
    obtain ⟨hr, he⟩ := ih
    obtain ⟨hsize, hnew⟩ := elem_run hrun
    refine ⟨hr.run hrun, fun s hmem hk => Nat.lt_of_lt_of_le ?_ hsize⟩
    rcases hnew s hmem hk with hold | hd
    · exact he s hold hk
    · exact helem _ hd

theorem defect?_eq_none {id : TypeId} {d : TypeDesc} : t.defect? id d = none ↔
    (d.kind.hasElem = true → d.elem.toNat < t.size) ∧
      ∀ n, t.slots? d.kind = some n → d.payload.toNat < n := by
  rw [defect?]
  rcases t.slots? d.kind with _ | n <;> by_cases hk : d.kind.hasElem = true <;>
    by_cases he : t.size ≤ d.elem.toNat <;> simp [hk, he] <;> omega

def notes (b : Builtins) : List TypeDesc → TypeId → Builtins
  | [], _ => b
  | d :: ds, id => notes (noteBuiltin b id d) ds (id + 1)

theorem notes_of_not_plain : ∀ {ds : List TypeDesc} {id : TypeId},
    (∀ d ∈ ds, d.kind.isPlain = false) → notes b ds id = b
  | [], _, _ => rfl
  | d :: ds, id, h => by
    have hd : noteBuiltin b id d = b := by
      rw [noteBuiltin]
      split_ifs
      · rfl
      · split <;> simp_all [TypeKind.isPlain]
    rw [notes, hd]
    exact notes_of_not_plain fun e he => h e (List.mem_cons_of_mem d he)

theorem noteAll_spec : ∀ (ds : List TypeDesc) (t : TypeTable) (id : TypeId),
    (∀ d ∈ ds, ∀ id, t.defect? id d = none) → ∃ index,
      t.noteAll ds id = ({ t with index, builtins := notes t.builtins ds id }, []) ∧
      ∀ s, index.get? s = (t.index.get? s).or ((ds.findIdx? (· = s)).map fun i => id + .ofNat i)
  | [], t, id, _ => ⟨t.index, rfl, by simp⟩
  | d :: ds, t, id, h => by
    obtain ⟨index, hn, hi⟩ := noteAll_spec ds (t.note id d) (id + 1)
      fun e he id => h e (List.mem_cons_of_mem d he) id
    refine ⟨index, ?_, fun s => ?_⟩
    · rw [noteAll, h d (List.mem_cons_self ..)]
      exact hn
    · have hnote : (t.note id d).index.get? s =
          (t.index.get? s).or (if d = s then some id else none) := by
        rw [note, Dict.contains]
        split_ifs with hc he he
        · subst he
          rw [Option.or_of_isSome hc]
        · rw [Option.or_none]
        · subst he
          rw [Dict.get?_insert_self, Option.not_isSome_iff_eq_none.1 hc, Option.none_or]
        · rw [Dict.get?_insert, if_neg he, Option.or_none]
      rw [hi, hnote, List.findIdx?_cons, Option.or_assoc]
      by_cases he : d = s
      · simp [he]
      · simp [he, Function.comp_def, UInt32.add_assoc, UInt32.add_comm 1]

def bare (t : TypeTable) : TypeTable := { t with index := {}, builtins := {}, overrun := false }

theorem ofFlat_flatten (hhead : t.types.toList.head?.map (·.kind) = some .invalid)
    (hsides : ∀ k n, t.slots? k = some n → 0 < n) (hsize : t.size < UInt32.size)
    (hnote : t.bare.noteAll t.types.toList 0 = (u, [])) : ofFlat t.flatten = .ok u := by
  have hfull : ∀ {α : Type} (a : Array α), 0 < a.size → a.toList.isEmpty = false := by
    intro α a ha
    rw [← Bool.not_eq_true, List.isEmpty_iff_length_eq_zero, Array.length_toList]
    omega
  have hempty : (t.objects.toList.isEmpty || t.tuples.toList.isEmpty || t.procs.toList.isEmpty ||
      t.insts.toList.isEmpty || t.names.toList.isEmpty) = false := by
    rw [hfull _ (hsides .object _ rfl), hfull _ (hsides .tuple _ rfl), hfull _ (hsides .proc _ rfl),
      hfull _ (hsides .genericInst _ rfl), hfull _ (hsides .distinct _ rfl)]
    rfl
  have hlen : ¬ UInt32.size ≤ t.types.toList.length := Nat.not_le.2 hsize
  rw [ofFlat, flatten, if_neg (by simp [hhead]), if_neg (by rw [hempty]; simp), if_neg hlen]
  dsimp only
  split
  · rename_i t' heq
    exact congrArg Except.ok (congrArg Prod.fst (heq.symm.trans hnote))
  · rename_i t' es hne heq
    exact absurd (congrArg Prod.snd (heq.symm.trans hnote)) (by simpa using hne)

/-- The flat form of a table is accepted, and the table of it is like the one it was made from. -/
theorem Built.ofFlat (h : Built t) (hsize : t.size < UInt32.size) :
    ∃ u, ofFlat t.flatten = .ok u ∧ Alike t u := by
  obtain ⟨hr, helem⟩ := h.reached
  obtain ⟨rest, hrest, hplain⟩ := hr.types
  have hdefect : ∀ d ∈ t.types.toList, ∀ id, t.bare.defect? id d = none := fun d hd _ =>
    defect?_eq_none.2 ⟨helem d hd, hr.slots d hd⟩
  have hbuiltins : notes {} t.types.toList 0 = t.builtins := by
    rw [hrest, hr.builtins]
    exact notes_of_not_plain hplain
  obtain ⟨index, hnote, hi⟩ := noteAll_spec t.types.toList t.bare 0 hdefect
  refine ⟨{ t with index }, ofFlat_flatten (by rw [hrest]; rfl) hr.sides hsize ?_, index, rfl,
    fun s hk => ?_⟩
  · rw [hnote, bare, hbuiltins, ← hr.whole]
  · rw [hi, hr.index s hk]
    simp [bare, Dict.get?]

end TypeTable

end Lifecycle
