import Lifecycle.Proofs.CompUnit.Encoding

/-!
# Reading a record back

The record of a unit is read without a complaint. Each symbol gets the place it has in the list of
the record; `place` says which.
-/

namespace Lifecycle

variable {a b e : OpEntry}

@[simp] theorem SymKind.ofCode_code (k : SymKind) : SymKind.ofCode k.code = k := by
  cases k with
  | other c h => simp [SymKind.code, SymKind.ofCode, h]
  | _ => rfl

@[simp] theorem Magic.ofCode_code (m : Magic) : Magic.ofCode m.code = m := by
  cases m with
  | other c h => simp [Magic.code, Magic.ofCode, h]
  | _ => rfl

@[simp] theorem OpKind.ofCode_code (k : OpKind) : OpKind.ofCode k.code = k := by
  cases k with
  | other c h => simp [OpKind.code, OpKind.ofCode, h]
  | _ => rfl

@[simp] theorem NodeKind.ofCode_code (k : NodeKind) : NodeKind.ofCode k.code = k := by
  cases k with
  | other c h => simp [NodeKind.code, NodeKind.ofCode, h]
  | _ => rfl

theorem OpKind.code_inj {k l : OpKind} (h : k.code = l.code) : k = l := by
  rw [← OpKind.ofCode_code k, h, OpKind.ofCode_code]

namespace TypeTable

theorem flatten_noteAll : ∀ (ds : List TypeDesc) (t : TypeTable) (id : TypeId),
    (t.noteAll ds id).1.flatten = t.flatten
  | [], _, _ => rfl
  | d :: ds, t, id => by
    rw [noteAll]
    split
    · exact flatten_noteAll ds t (id + 1)
    · exact flatten_noteAll ds (t.note id d) (id + 1)

theorem flatten_ofFlat (h : ofFlat f = .ok t) : t.flatten = f := by
  rw [ofFlat] at h
  split_ifs at h
  dsimp only at h
  split at h
  · rename_i t' hn
    cases h
    have := congrArg (fun p => p.1.flatten) hn
    rw [flatten_noteAll] at this
    rw [← this]
    simp [flatten]
  · cases h

end TypeTable

namespace Symbols

theorem get_add (ss : Symbols) (s : Symbol) (r : SymRef) :
    (ss.add s).2.get r = if r = ss.all.size then s else ss.get r := by
  simp only [add, get, Array.getElem?_push]
  split_ifs <;> rfl

theorem get_modify (ss : Symbols) (r q : SymRef) (f : Symbol → Symbol) (hr : r < ss.all.size) :
    (ss.modify r f).get q = if r = q then f (ss.get r) else ss.get q := by
  simp only [modify, get, Array.getElem?_modify]
  split_ifs with h
  · subst h
    rw [Array.getElem?_eq_getElem hr]
    rfl
  · rfl

@[simp] theorem size_modify (ss : Symbols) (r : SymRef) (f : Symbol → Symbol) :
    (ss.modify r f).all.size = ss.all.size := by
  simp [modify]

end Symbols

namespace DecodeM

variable {α β : Type} {d d' : Decoding}

theorem run_bind {m : DecodeM α} {f : α → DecodeM β} {a : α} (h : m d = .ok (a, d')) :
    (m >>= f) d = f a d' := by
  change (m d >>= fun p => f p.1 p.2) = _
  rw [h]
  rfl

theorem run_get {f : Decoding → DecodeM β} : (get >>= f) d = f d d := rfl

theorem forM_spec {g : α → β} {f : β → DecodeM Unit} {I : List α → Decoding → Prop} (xs : List α)
    (hstep : ∀ done x rest, done ++ x :: rest = xs → ∀ d, I done d →
      ∃ d', f (g x) d = .ok ((), d') ∧ I (done ++ [x]) d')
    (h : I [] d) : ∃ d', (xs.map g).forM f d = .ok ((), d') ∧ I xs d' := by
  have key : ∀ (rest done : List α) (d : Decoding), done ++ rest = xs → I done d →
      ∃ d', (rest.map g).forM f d = .ok ((), d') ∧ I xs d' := by
    intro rest
    induction rest with
    | nil =>
      intro done d he hd
      rw [List.append_nil] at he
      exact ⟨d, rfl, he ▸ hd⟩
    | cons x rest ih =>
      intro done d he hd
      obtain ⟨d1, h₁, hd1⟩ := hstep done x rest he d hd
      obtain ⟨d2, h₂, hd2⟩ := ih (done ++ [x]) d1 (by simpa using he) hd1
      refine ⟨d2, ?_, hd2⟩
      change (f (g x) >>= fun _ => (rest.map g).forM f) d = _
      rw [run_bind h₁, h₂]
  exact key xs [] d rfl h

theorem symbol_known {id : UInt32} (h : d.known.get? id = some r) :
    symbol id d = .ok (some r, d) := by
  rw [symbol, run_get, h]
  rfl

theorem checkType_ok {id : UInt32} (h : d.unit.HasType id) : checkType id d = .ok ((), d) := by
  rw [checkType, run_get, if_neg (Nat.not_le.2 h)]
  rfl

theorem checkSpan_ok (h : d.unit.Locates s) : checkSpan s d = .ok ((), d) := by
  rw [checkSpan]
  split_ifs with hs
  · rfl
  · rw [run_get, if_neg (Nat.not_le.2 (h (by simpa using hs)))]
    rfl

def symbolOf (r : SymbolRecord) : Symbol where
  id := r.id
  name := r.name
  kind := .ofCode r.kind
  type := r.type
  flags := ⟨r.flags⟩
  magic := .ofCode r.magic
  position := r.position.toInt64
  span := r.span

def enter (d : Decoding) (r : SymbolRecord) : Decoding :=
  { d with
    known := d.known.insert r.id d.unit.symbols.all.size
    unit.ops.symbols := {
      all := d.unit.symbols.all.push (symbolOf r)
      lastId := max d.unit.symbols.lastId r.id } }

theorem addSymbol_new (hid : r.id ≠ 0) (hk : d.known.get? r.id = none)
    (ht : d.unit.HasType r.type) (hs : d.unit.Locates r.span) :
    addSymbol r d = .ok ((), enter d r) := by
  have hc : d.known.contains r.id = false := by rw [Dict.contains, hk]; rfl
  rw [addSymbol, if_neg hid, run_get, hc]
  simp only [Bool.false_eq_true, if_false]
  rw [run_bind (checkType_ok ht), run_bind (checkSpan_ok hs)]
  rfl

theorem addOp_eq {r : OpRecord} (hk : OpKind.ofCode r.kind ∈ OpKind.named) :
    addOp r = (do
      checkType r.type
      if r.disabled then
        modify fun d => { d with unit.ops := d.unit.ops.disable r.type (.ofCode r.kind) }
      else if let some op ← symbol r.op then
        modify fun d => { d with unit.ops := d.unit.ops.register r.type (.ofCode r.kind) op }) := by
  simp only [OpKind.named, List.mem_cons, List.not_mem_nil, or_false] at hk
  rw [addOp]
  rcases hk with hk | hk | hk <;> rw [hk] <;> rfl

end DecodeM

namespace CompUnit

/-- Where a symbol stands in a list, told by its number. -/
def place (ss : Symbols) (rs : List SymRef) (r : SymRef) : SymRef :=
  rs.findIdx fun s => (ss.get s).id = (ss.get r).id

structure Written (u : CompUnit) (rs : List SymRef) : Prop where
  storable : u.Storable
  nodup : rs.Nodup
  mem : ∀ r, r ∈ rs ↔ u.Names r

namespace Written

variable {u : CompUnit} {rs : List SymRef} {r s : SymRef}

theorem fresh (h : u.Written rs) (he : done ++ r :: rest = rs) : r ∉ done := by
  have hn := h.nodup
  rw [← he] at hn
  exact fun hr => (List.nodup_append.1 hn).2.2 r hr r (by simp) rfl

theorem getElem?_place (h : u.Written rs) (hr : u.Names r) :
    rs[place u.symbols rs r]? = some r := by
  have hm : r ∈ rs := (h.mem r).2 hr
  have hlt : place u.symbols rs r < rs.length := List.findIdx_lt_length_of_exists ⟨r, hm, by simp⟩
  have hid := List.findIdx_getElem (w := hlt)
  rw [List.getElem?_eq_getElem hlt, Option.some.injEq]
  refine h.storable.distinct _ _ ((h.mem _).1 (List.getElem_mem _)) hr ?_
  exact of_decide_eq_true hid

theorem place_lt (h : u.Written rs) (hr : u.Names r) : place u.symbols rs r < rs.length :=
  (List.getElem?_eq_some_iff.1 (h.getElem?_place hr)).1

theorem place_inj (h : u.Written rs) (hr : u.Names r) (hs : u.Names s)
    (he : place u.symbols rs r = place u.symbols rs s) : r = s := by
  have hr' := h.getElem?_place hr
  rw [he, h.getElem?_place hs] at hr'
  exact (Option.some.inj hr').symm

theorem findIdx?_place (h : u.Written rs) (hr : u.Names r) :
    rs.findIdx? (fun s => (u.symbols.get s).id = (u.symbols.get r).id) =
      some (place u.symbols rs r) := by
  rw [List.findIdx?_eq_some_iff_findIdx_eq]
  exact ⟨h.place_lt hr, rfl⟩

end Written

/-! ## Symbols -/

def unowned (s : Symbol) : Symbol := { s with owner := none }

def renamed (f : SymRef → SymRef) (s : Symbol) : Symbol := { s with owner := s.owner.map f }

structure Reading (u : CompUnit) (d : Decoding) : Prop where
  wrong : d.wrong = []
  name : d.unit.name = u.name
  files : d.unit.files = u.files
  types : d.unit.types.flatten = u.types.flatten

variable {u : CompUnit} {d : Decoding}

theorem Reading.hasType (h : u.Reading d) (ht : u.HasType t) : d.unit.HasType t := by
  have hl : d.unit.types.types.toList = u.types.types.toList := congrArg FlatTypes.types h.types
  rw [HasType, TypeTable.size, ← Array.length_toList, hl, Array.length_toList]
  exact ht

theorem Reading.locates (h : u.Reading d) (hs : u.Locates s) : d.unit.Locates s := by
  rw [Locates, h.files]
  exact hs

/-- The symbols `done` of the record were read. -/
structure ReadSymbols (u : CompUnit) (done : List SymRef) (d : Decoding) : Prop
    extends u.Reading d where
  table : d.unit.ops.table = {}
  routines : d.unit.routines = []
  all : d.unit.symbols.all = (done.map fun r => unowned (u.symbols.get r)).toArray
  known : ∀ id, d.known.get? id = done.findIdx? fun r => (u.symbols.get r).id = id

theorem position_fits (h : -2147483648 ≤ p.toInt ∧ p.toInt ≤ 2147483647) :
    (Int32.ofInt p.toInt).toInt64 = p := by
  apply Int64.toInt_inj.1
  have hsize : (Int32.size : Int) = 4294967296 := rfl
  rw [Int32.toInt_toInt64, Int32.toInt_ofInt, Int.bmod_eq_of_le (by omega) (by omega)]

theorem ReadSymbols.step {done rest : List SymRef} (hw : u.Written rs)
    (he : done ++ r :: rest = rs) (h : u.ReadSymbols done d) :
    ∃ d', DecodeM.addSymbol (symbolFields u.symbols (u.symbols.get r)) d = .ok ((), d') ∧
      u.ReadSymbols (done ++ [r]) d' := by
  have hnames : ∀ s ∈ done ++ r :: rest, u.Names s := fun s hs => (hw.mem s).1 (he ▸ hs)
  have hs := hw.storable.symbols r (hnames r (by simp))
  have hnew : d.known.get? (u.symbols.get r).id = none := by
    rw [h.known, List.findIdx?_eq_none_iff]
    intro s hs'
    rw [decide_eq_false_iff_not]
    intro hid
    have hsr := hw.storable.distinct s r (hnames s (by simp [hs'])) (hnames r (by simp)) hid
    exact hw.fresh he (hsr ▸ hs')
  have hsym : DecodeM.symbolOf (symbolFields u.symbols (u.symbols.get r)) =
      unowned (u.symbols.get r) := by
    simp only [DecodeM.symbolOf, symbolFields, unowned, position_fits hs.position,
      SymKind.ofCode_code, Magic.ofCode_code]
  refine ⟨_, DecodeM.addSymbol_new hs.id hnew (h.hasType hs.type) (h.locates hs.span), ?_⟩
  refine ⟨{ h.toReading with }, h.table, h.routines, ?_, ?_⟩
  · change d.unit.symbols.all.push (DecodeM.symbolOf _) = _
    rw [hsym, h.all]
    simp
  · intro id
    have hsize : d.unit.symbols.all.size = done.length := by rw [h.all]; simp
    change (d.known.insert (u.symbols.get r).id d.unit.symbols.all.size).get? id = _
    rw [Dict.get?_insert, hsize, List.findIdx?_append, ← h.known]
    split_ifs with hid
    · subst hid
      rw [hnew]
      simp
    · cases hg : d.known.get? id <;> simp [hid]

/-- Every reference that the unit makes is known by its number. -/
def Knows (u : CompUnit) (rs : List SymRef) (d : Decoding) : Prop :=
  ∀ r, u.Names r → d.known.get? (u.symbols.get r).id = some (place u.symbols rs r)

/-- All symbols were read, and the owners of those in `done` were linked. -/
structure Linked (u : CompUnit) (rs done : List SymRef) (d : Decoding) : Prop
    extends u.Reading d where
  knows : u.Knows rs d
  size : d.unit.symbols.all.size = rs.length
  table : d.unit.ops.table = {}
  routines : d.unit.routines = []
  symbols : ∀ r, u.Names r → d.unit.symbols.get (place u.symbols rs r) =
    if r ∈ done then renamed (place u.symbols rs) (u.symbols.get r)
    else unowned (u.symbols.get r)

theorem ReadSymbols.linked (hw : u.Written rs) (h : u.ReadSymbols rs d) : u.Linked rs [] d where
  toReading := h.toReading
  knows := fun r hr => by rw [h.known, hw.findIdx?_place hr]
  size := by rw [h.all]; simp
  table := h.table
  routines := h.routines
  symbols := by
    intro r hr
    rw [Symbols.get, h.all, if_neg (by simp)]
    simp [hw.getElem?_place hr]

theorem Linked.step {done rest : List SymRef} (hw : u.Written rs) (he : done ++ r :: rest = rs)
    (h : u.Linked rs done d) :
    ∃ d', DecodeM.linkOwner (symbolFields u.symbols (u.symbols.get r)) d = .ok ((), d') ∧
      u.Linked rs (done ++ [r]) d' := by
  have hr : u.Names r := (hw.mem r).1 (by rw [← he]; simp)
  have hdone : r ∉ done := hw.fresh he
  rcases ho : (u.symbols.get r).owner with _ | o
  · have hz : (symbolFields u.symbols (u.symbols.get r)).owner = 0 := by
      simp [symbolFields, wireId, ho]
    refine ⟨d, by rw [DecodeM.linkOwner, if_pos hz]; rfl, h.toReading, h.knows, h.size, h.table,
      h.routines, fun s hs => ?_⟩
    rw [h.symbols s hs]
    by_cases hsr : s = r
    · subst hsr
      simp [hdone, renamed, unowned, ho]
    · simp [hsr]
  · have hon : u.Names o := .owner hr ho
    have hz : (symbolFields u.symbols (u.symbols.get r)).owner = (u.symbols.get o).id := by
      simp [symbolFields, wireId, ho]
    have hne : (symbolFields u.symbols (u.symbols.get r)).owner ≠ 0 := by
      rw [hz]
      exact (hw.storable.symbols o hon).id
    refine ⟨{ d with unit.ops.symbols := d.unit.ops.symbols.modify (place u.symbols rs r) fun s =>
      { s with owner := some (place u.symbols rs o) } }, ?_, { h.toReading with },
      h.knows, ?_, h.table, h.routines, fun s hs => ?_⟩
    · rw [DecodeM.linkOwner, if_neg hne, DecodeM.run_get]
      have hk : d.known.get? (symbolFields u.symbols (u.symbols.get r)).id =
        some (place u.symbols rs r) := h.knows r hr
      have hso := DecodeM.symbol_known (d := d) (h.knows o hon)
      rw [← hz] at hso
      simp only [hk]
      rw [DecodeM.run_bind hso]
      rfl
    · change (d.unit.ops.symbols.modify _ _).all.size = _
      rw [Symbols.size_modify]
      exact h.size
    · change (d.unit.symbols.modify _ _).get _ = _
      rw [Symbols.get_modify _ _ _ _ (by rw [h.size]; exact hw.place_lt hr)]
      by_cases hsr : s = r
      · subst hsr
        rw [if_pos rfl, h.symbols s hs, if_neg hdone, if_pos (by simp)]
        simp [renamed, unowned, ho]
      · rw [if_neg fun he => hsr (hw.place_inj hr hs he).symm, h.symbols s hs]
        simp [hsr]

end CompUnit

/-! ## Operators -/

namespace OpEntry

def user? (f : SymRef → SymRef) (e : OpEntry) : Option (OpKey × SymRef) :=
  e.op.map fun r => ((e.type, e.kind), f r)

def disabled? (e : OpEntry) : Option (OpKey × Unit) :=
  if e.disabled then some ((e.type, e.kind), ()) else none

def rename (f : SymRef → SymRef) (e : OpEntry) : OpEntry := { e with op := e.op.map f }

def rank (e : OpEntry) : Nat :=
  e.type.toNat * 512 + e.kind.code.toNat * 2 + if e.disabled then 1 else 0

theorem le_iff_rank : a.le b = true ↔ a.rank ≤ b.rank := by
  have ha := a.kind.code.toNat_lt
  have hb := b.kind.code.toNat_lt
  rw [le, rank, rank]
  by_cases ht : a.type = b.type
  · by_cases hk : a.kind.code = b.kind.code
    · rw [if_neg (by simp [ht]), if_neg (by simp [hk]), ht, hk]
      cases a.disabled <;> cases b.disabled <;> simp
    · have hk' : a.kind.code.toNat ≠ b.kind.code.toNat := fun h => hk (UInt8.toNat_inj.1 h)
      rw [if_neg (by simp [ht]), if_pos hk, decide_eq_true_eq, UInt8.lt_iff_toNat_lt, ht]
      split_ifs <;> omega
  · have ht' : a.type.toNat ≠ b.type.toNat := fun h => ht (UInt32.toNat_inj.1 h)
    rw [if_pos ht, decide_eq_true_eq, UInt32.lt_iff_toNat_lt]
    split_ifs <;> omega

theorem rank_inj (h : a.rank = b.rank) :
    a.type = b.type ∧ a.kind = b.kind ∧ a.disabled = b.disabled := by
  have ha := a.kind.code.toNat_lt
  have hb := b.kind.code.toNat_lt
  rw [rank, rank] at h
  refine ⟨UInt32.toNat_inj.1 ?_, OpKind.code_inj (UInt8.toNat_inj.1 ?_), ?_⟩
  · split_ifs at h <;> omega
  · split_ifs at h <;> omega
  · rw [Bool.eq_iff_iff]
    split_ifs at h with h1 h2 h2
    · simp [h1, h2]
    · omega
    · omega
    · simp [h1, h2]

theorem rank_rename (f : SymRef → SymRef) (e : OpEntry) : (e.rename f).rank = e.rank := rfl

end OpEntry

namespace OperatorTable

variable {t : OperatorTable} {f : SymRef → SymRef}

def unsorted (t : OperatorTable) : List OpEntry :=
  t.user.entries.map (fun e => OpEntry.mk e.1.1 e.1.2 (some e.2) false) ++
    t.disabled.entries.map fun e => OpEntry.mk e.1.1 e.1.2 none true

theorem entries_perm (t : OperatorTable) : t.entries.Perm t.unsorted := List.mergeSort_perm _ _

theorem filterMap_user : t.unsorted.filterMap (OpEntry.user? f) =
    t.user.entries.map fun e => (e.1, f e.2) := by
  have hd : t.disabled.entries.filterMap
      (OpEntry.user? f ∘ fun e => OpEntry.mk e.1.1 e.1.2 none true) = [] :=
    List.filterMap_eq_nil_iff.2 fun _ _ => rfl
  rw [unsorted, List.filterMap_append, List.filterMap_map, List.filterMap_map, hd,
    List.append_nil, ← List.filterMap_eq_map]
  rfl

theorem filterMap_disabled : t.unsorted.filterMap OpEntry.disabled? = t.disabled.entries := by
  have hu : t.user.entries.filterMap
      (OpEntry.disabled? ∘ fun e => OpEntry.mk e.1.1 e.1.2 (some e.2) false) = [] :=
    List.filterMap_eq_nil_iff.2 fun _ _ => rfl
  have hd : t.disabled.entries.filterMap
      (OpEntry.disabled? ∘ fun e => OpEntry.mk e.1.1 e.1.2 none true) =
        t.disabled.entries.filterMap some := rfl
  rw [unsorted, List.filterMap_append, List.filterMap_map, List.filterMap_map, hu,
    List.nil_append, hd, List.filterMap_some]

theorem entry_cases (h : e ∈ t.entries) :
    e.disabled = false ∧ (∃ r, e.op = some r) ∨ e.disabled = true ∧ e.op = none := by
  rcases List.mem_append.1 (t.entries_perm.mem_iff.1 h) with h | h
  · obtain ⟨x, -, rfl⟩ := List.mem_map.1 h
    exact .inl ⟨rfl, _, rfl⟩
  · obtain ⟨x, -, rfl⟩ := List.mem_map.1 h
    exact .inr ⟨rfl, rfl⟩

theorem nodup_user (h : t.user.keys.Nodup) :
    ((t.entries.filterMap (OpEntry.user? f)).map (·.1)).Nodup := by
  rw [((t.entries_perm.filterMap _).map _).nodup_iff, filterMap_user, List.map_map]
  exact h

theorem nodup_disabled (h : t.disabled.keys.Nodup) :
    ((t.entries.filterMap OpEntry.disabled?).map (·.1)).Nodup := by
  rw [((t.entries_perm.filterMap _).map _).nodup_iff, filterMap_disabled]
  exact h

theorem entries_pairwise (t : OperatorTable) : t.entries.Pairwise fun a b => a.rank ≤ b.rank := by
  have hs : t.entries.Pairwise fun a b => a.le b = true :=
    List.pairwise_mergeSort (fun a b c => by simpa only [OpEntry.le_iff_rank] using Nat.le_trans)
      (fun a b => by simpa only [Bool.or_eq_true, OpEntry.le_iff_rank] using Nat.le_total _ _) _
  simpa only [OpEntry.le_iff_rank] using hs

theorem entry_unique (hu : t.user.keys.Nodup) (ha : a ∈ t.entries) (hb : b ∈ t.entries)
    (h : a.rank = b.rank) : a = b := by
  obtain ⟨htype, hkind, hdis⟩ := OpEntry.rank_inj h
  have hop : a.op = b.op := by
    rcases entry_cases ha with ⟨had, r, hr⟩ | ⟨had, hr⟩
    · rcases entry_cases hb with ⟨hbd, s, hs⟩ | ⟨hbd, hs⟩
      · have hra : ((a.type, a.kind), r) ∈ t.entries.filterMap (OpEntry.user? id) :=
          List.mem_filterMap.2 ⟨a, ha, by simp [OpEntry.user?, hr]⟩
        have hsb : ((b.type, b.kind), s) ∈ t.entries.filterMap (OpEntry.user? id) :=
          List.mem_filterMap.2 ⟨b, hb, by simp [OpEntry.user?, hs]⟩
        have := List.inj_on_of_nodup_map (nodup_user hu) hra hsb (by rw [htype, hkind])
        rw [hr, hs, (Prod.mk.inj this).2]
      · rw [had, hbd] at hdis
        cases hdis
    · rcases entry_cases hb with ⟨hbd, s, hs⟩ | ⟨hbd, hs⟩
      · rw [had, hbd] at hdis
        cases hdis
      · rw [hr, hs]
  rcases a with ⟨at', ak, ao, ad⟩
  simp_all

theorem parts_perm (es : List OpEntry)
    (h : ∀ e ∈ es, e.disabled = false ∧ (∃ r, e.op = some r) ∨ e.disabled = true ∧ e.op = none) :
    ((es.filterMap (OpEntry.user? f)).map (fun e => OpEntry.mk e.1.1 e.1.2 (some e.2) false) ++
      (es.filterMap OpEntry.disabled?).map fun e => OpEntry.mk e.1.1 e.1.2 none true).Perm
        (es.map (OpEntry.rename f)) := by
  induction es with
  | nil => simp
  | cons e es ih =>
    have ih := ih fun x hx => h x (by simp [hx])
    rcases h e (by simp) with ⟨hd, r, hr⟩ | ⟨hd, hr⟩
    · have he : e.rename f = OpEntry.mk e.type e.kind (some (f r)) false := by
        simp [OpEntry.rename, hr, hd]
      simpa [OpEntry.user?, OpEntry.disabled?, hr, hd, he] using ih
    · have he : e.rename f = OpEntry.mk e.type e.kind none true := by
        simp [OpEntry.rename, hr, hd]
      simpa [OpEntry.user?, OpEntry.disabled?, hr, hd, he] using List.perm_middle.trans (ih.cons _)

/-- The order in which operators were registered and ruled out does not show in the entries. -/
theorem entries_of_perm {t' : OperatorTable} (hu : t.user.keys.Nodup)
    (h : t'.unsorted.Perm (t.unsorted.map (OpEntry.rename f))) :
    t'.entries = t.entries.map (OpEntry.rename f) := by
  have hperm : t'.entries.Perm (t.entries.map (OpEntry.rename f)) :=
    t'.entries_perm.trans (h.trans (t.entries_perm.map _).symm)
  refine List.Perm.eq_of_pairwise ?_ t'.entries_pairwise ?_ hperm
  · intro a b ha hb hab hba
    obtain ⟨x, hx, rfl⟩ := List.mem_map.1 (hperm.mem_iff.1 ha)
    obtain ⟨y, hy, rfl⟩ := List.mem_map.1 hb
    rw [entry_unique hu hx hy (Nat.le_antisymm hab hba)]
  · refine List.pairwise_map.2 (t.entries_pairwise.imp fun hab => ?_)
    simpa only [OpEntry.rank_rename] using hab

/-- A table that was put together from the entries of another, with operators renamed, has the
entries of that table, renamed. -/
theorem entries_of_parts {t' : OperatorTable} (hu : t.user.keys.Nodup)
    (hu' : t'.user.entries = t.entries.filterMap (OpEntry.user? f))
    (hd' : t'.disabled.entries = t.entries.filterMap OpEntry.disabled?) :
    t'.entries = t.entries.map (OpEntry.rename f) := by
  refine entries_of_perm hu ?_
  rw [unsorted, hu', hd']
  exact (parts_perm t.entries fun e he => entry_cases he).trans (t.entries_perm.map _)

end OperatorTable

namespace CompUnit

/-- The symbols were read, with their owners. -/
structure Settled (u : CompUnit) (rs : List SymRef) (d : Decoding) : Prop extends u.Reading d where
  knows : u.Knows rs d
  size : d.unit.symbols.all.size = rs.length
  symbols : ∀ r, u.Names r → d.unit.symbols.get (place u.symbols rs r) =
    renamed (place u.symbols rs) (u.symbols.get r)

structure ReadOps (u : CompUnit) (rs : List SymRef) (done : List OpEntry) (d : Decoding) : Prop
    extends u.Settled rs d where
  routines : d.unit.routines = []
  user : d.unit.ops.table.user.entries = done.filterMap (OpEntry.user? (place u.symbols rs))
  disabled : d.unit.ops.table.disabled.entries = done.filterMap OpEntry.disabled?

variable {u : CompUnit} {rs : List SymRef} {d : Decoding}

theorem Linked.readOps (hw : u.Written rs) (h : u.Linked rs rs d) : u.ReadOps rs [] d where
  toReading := h.toReading
  knows := h.knows
  size := h.size
  routines := h.routines
  symbols := fun r hr => by rw [h.symbols r hr, if_pos ((hw.mem r).2 hr)]
  user := by rw [h.table]; rfl
  disabled := by rw [h.table]; rfl

theorem or_of_and {x : UInt32} (h : x &&& 0x80 ≠ 0) : x ||| 0x80 = x := by
  have hand : x &&& 0x80 = 0x80 := by
    have hb := BitVec.and_twoPow x.toBitVec 7
    split_ifs at hb
    · exact UInt32.toBitVec_inj.1 hb
    · exact absurd (UInt32.toBitVec_inj.1 hb) h
  rw [← hand]
  apply UInt32.toBitVec_inj.1
  ext i
  simp +contextual

theorem union_overridden {s : Symbol} (h : s.has .overridden = true) :
    { s with flags := s.flags.union .overridden } = s := by
  have hb : s.flags.bits &&& 0x80 ≠ 0 := by
    simpa [Symbol.has, SymFlags.has, SymFlags.overridden] using h
  have hf : s.flags.union .overridden = s.flags := by
    rw [SymFlags.union, SymFlags.overridden, or_of_and hb]
  rw [hf]

theorem ReadOps.step {done rest : List OpEntry} (hw : u.Written rs)
    (he : done ++ e :: rest = u.ops.table.entries) (h : u.ReadOps rs done d) :
    ∃ d', DecodeM.addOp (opRecord u.symbols e) d = .ok ((), d') ∧
      u.ReadOps rs (done ++ [e]) d' := by
  have hmem : e ∈ u.ops.table.entries := by rw [← he]; simp
  have hop := hw.storable.ops e hmem
  have hc : OpKind.ofCode (opRecord u.symbols e).kind = e.kind := OpKind.ofCode_code e.kind
  have hcheck : DecodeM.checkType (opRecord u.symbols e).type d = .ok ((), d) :=
    DecodeM.checkType_ok (h.hasType hop.type)
  rw [DecodeM.addOp_eq (hc ▸ hop.kind), hc, DecodeM.run_bind hcheck]
  rcases OperatorTable.entry_cases hmem with ⟨hd, r, hr⟩ | ⟨hd, hr⟩
  · have hn : u.Names r := .mention (List.mem_append_left _ (List.mem_map.2 ⟨e, hmem, hr⟩))
    have hdecl : (d.unit.symbols.get (place u.symbols rs r)).has .overridden = true := by
      rw [h.symbols r hn]
      exact hop.declared r hr
    have hnew : d.unit.ops.table.user.get? (e.type, e.kind) = none := by
      have hnd := OperatorTable.nodup_user (f := place u.symbols rs) hw.storable.user
      rw [← he, List.filterMap_append, List.map_append, List.nodup_append] at hnd
      rw [Dict.get?_eq_none_iff, Dict.keys, h.user]
      intro hk
      exact hnd.2.2 _ hk (e.type, e.kind) (by simp [OpEntry.user?, hr]) rfl
    have hsym : DecodeM.symbol (opRecord u.symbols e).op d =
        .ok (some (place u.symbols rs r), d) := by
      rw [opRecord, hr]
      exact DecodeM.symbol_known (h.knows r hn)
    have hall : (d.unit.symbols.setFlags (place u.symbols rs r) .overridden).get =
        d.unit.symbols.get := by
      funext q
      rw [Symbols.setFlags, Symbols.get_modify _ _ _ _ (by rw [h.size]; exact hw.place_lt hn)]
      split_ifs with hq
      · rw [union_overridden hdecl, hq]
      · rfl
    rw [if_neg (by simp [opRecord, hd]), DecodeM.run_bind hsym]
    refine ⟨_, rfl, ⟨{ h.toReading with }, h.knows, ?_, ?_⟩, h.routines, ?_, ?_⟩
    · exact (Symbols.size_modify _ _ _).trans h.size
    · intro s hs
      change (d.unit.symbols.setFlags _ _).get _ = _
      rw [hall]
      exact h.symbols s hs
    · change (d.unit.ops.table.user.insert (e.type, _) _).entries = _
      rw [Dict.entries_insert hnew, h.user, List.filterMap_append]
      simp [OpEntry.user?, hr]
    · change d.unit.ops.table.disabled.entries = _
      rw [h.disabled, List.filterMap_append]
      simp [OpEntry.disabled?, hd]
  · have hnew : d.unit.ops.table.disabled.get? (e.type, e.kind) = none := by
      have hnd := OperatorTable.nodup_disabled hw.storable.disabled
      rw [← he, List.filterMap_append, List.map_append, List.nodup_append] at hnd
      rw [Dict.get?_eq_none_iff, Dict.keys, h.disabled]
      intro hk
      exact hnd.2.2 _ hk (e.type, e.kind) (by simp [OpEntry.disabled?, hd]) rfl
    rw [if_pos (by simp [opRecord, hd])]
    refine ⟨_, rfl, ⟨{ h.toReading with }, h.knows, h.size, h.symbols⟩, h.routines,
      ?_, ?_⟩
    · change d.unit.ops.table.user.entries = _
      rw [h.user, List.filterMap_append]
      simp [OpEntry.user?, hr]
    · change (d.unit.ops.table.disabled.insert (e.type, _) _).entries = _
      rw [Dict.entries_insert hnew, h.disabled, List.filterMap_append]
      simp [OpEntry.disabled?, hd]

/-! ## Routines -/

structure Readable (u : CompUnit) (h : Head) : Prop where
  kind : ∀ c hc, h.kind ≠ .other c hc
  type : u.HasType h.type
  span : u.Locates h.span
  sym : ∀ r, h.sym = some r → u.Names r

theorem symbol_names (hk : u.Knows rs d) (hr : u.Names r) :
    DecodeM.symbol (wireId u.symbols (some r)) d = .ok (some (place u.symbols rs r), d) :=
  DecodeM.symbol_known (hk r hr)

theorem symbol_wireId {α : Type}
    (hw : u.Written rs) (hk : u.Knows rs d) {r : Option SymRef} (hr : ∀ s, r = some s → u.Names s)
    (f : Option SymRef → DecodeM α) : (if wireId u.symbols r = 0 then pure none >>= f
      else DecodeM.symbol (wireId u.symbols r) >>= f) d = f (r.map (place u.symbols rs)) d := by
  cases r with
  | none => rfl
  | some s =>
    have hs := hr s rfl
    have hid : wireId u.symbols (some s) ≠ 0 := (hw.storable.symbols s hs).id
    rw [if_neg hid]
    exact DecodeM.run_bind (symbol_names hk hs)

mutual

theorem node_spec (hw : u.Written rs) (hd : u.Reading d)
    (hk : u.Knows rs d) : ∀ (n : Node), (∀ h ∈ n.heads, u.Readable h) →
    DecodeM.node (nodeRecord u.symbols n) d = .ok (n.rename (place u.symbols rs), d)
  | .hole, _ => rfl
  | .node h ks, hr => by
    have hh := hr h (by simp)
    have hrest : (do
        DecodeM.checkType h.type
        DecodeM.checkSpan h.span
        let sym ← if wireId u.symbols h.sym = 0 then pure none
          else DecodeM.symbol (wireId u.symbols h.sym)
        return .node { h with sym, site := 0 } (← DecodeM.nodes (nodeRecords u.symbols ks)) :
          DecodeM Node) d = .ok (Node.rename (place u.symbols rs) (.node h ks), d) := by
      rw [DecodeM.run_bind (DecodeM.checkType_ok (hd.hasType hh.type)),
        DecodeM.run_bind (DecodeM.checkSpan_ok (hd.locates hh.span)), symbol_wireId hw hk hh.sym]
      exact DecodeM.run_bind (nodes_spec hw hd hk ks fun x hx => hr x (by simp [hx]))
    rcases h with ⟨kind, type, span, sym, int, str, site⟩
    cases kind with
    | other c hc => exact absurd rfl (hh.kind c hc)
    | _ => exact hrest

theorem nodes_spec (hw : u.Written rs) (hd : u.Reading d) (hk : u.Knows rs d) : ∀ (ns : List Node),
    (∀ h ∈ Node.headsAll ns, u.Readable h) → DecodeM.nodes (nodeRecords u.symbols ns) d =
      .ok (Node.renameAll (place u.symbols rs) ns, d)
  | [], _ => rfl
  | n :: ns, hr => by
    rw [nodeRecords, DecodeM.nodes,
      DecodeM.run_bind (node_spec hw hd hk n fun h hh => hr h (by simp [hh])),
      DecodeM.run_bind (nodes_spec hw hd hk ns fun h hh => hr h (by simp [hh]))]
    rfl

end

theorem Storable.readable (hs : u.Storable) (hx : x ∈ u.routines) :
    ∀ h ∈ x.body.heads, u.Readable h := by
  have hr := hs.routines x hx
  intro h hh
  refine ⟨?_, hr.types h hh, hr.spans h hh, fun r hsym => .mention ?_⟩
  · rcases hr.body with hb | hb
    · rw [hb] at hh
      simp at hh
    · exact hb.known_kind h hh
  · refine List.mem_append_right _ (List.mem_flatMap.2 ⟨x, hx, ?_⟩)
    exact Routine.mem_mentions.2 (.inr (.inl ⟨h, hh, hsym⟩))

structure ReadRoutines (u : CompUnit) (rs : List SymRef) (done : List Routine) (d : Decoding) : Prop
    extends u.Settled rs d where
  entries : d.unit.ops.table.entries =
    u.ops.table.entries.map (OpEntry.rename (place u.symbols rs))
  routines : d.unit.routines.map (Routine.rename id) =
    done.map (Routine.rename (place u.symbols rs))

theorem params_spec (hk : u.Knows rs d) :
    ∀ ps : List (Option SymRef), (∀ p ∈ ps, ∃ r, p = some r ∧ u.Names r) →
    (ps.map (wireId u.symbols)).mapM DecodeM.symbol d = .ok (ps.map (·.map (place u.symbols rs)), d)
  | [], _ => rfl
  | p :: ps, hp => by
    obtain ⟨r, rfl, hr⟩ := hp p (by simp)
    rw [List.map_cons, List.mapM_cons, DecodeM.run_bind (symbol_names hk hr),
      DecodeM.run_bind (params_spec hk ps fun p hp' => hp p (by simp [hp']))]
    rfl

theorem ReadRoutines.step {done : List Routine} {x : Routine}
    (hw : u.Written rs) (hx : x ∈ u.routines) (h : u.ReadRoutines rs done d) :
    ∃ d', DecodeM.addRoutine (routineRecord u.symbols x) d = .ok ((), d') ∧
      u.ReadRoutines rs (done ++ [x]) d' := by
  have hr := hw.storable.routines x hx
  have hnames : ∀ r, some r ∈ x.mentions → u.Names r := fun r hm =>
    .mention (List.mem_append_right _ (List.mem_flatMap.2 ⟨x, hx, hm⟩))
  obtain ⟨f, hf⟩ := Option.ne_none_iff_exists'.1 hr.sym
  have hsym : DecodeM.symbol (routineRecord u.symbols x).sym d =
      .ok (x.sym.map (place u.symbols rs), d) := by
    rw [routineRecord, hf]
    exact symbol_names h.knows (hnames f (by simp [Routine.mentions, hf]))
  have hbody := node_spec hw h.toReading h.knows x.body (hw.storable.readable hx)
  have hparams := params_spec h.knows x.params fun p hp => by
    obtain ⟨r, rfl⟩ := Option.ne_none_iff_exists'.1 fun hn => hr.params (hn ▸ hp)
    exact ⟨r, rfl, hnames r (by simp [Routine.mentions, hp])⟩
  have hkinds : Node.SameKinds (place u.symbols rs) u.symbols d.unit.symbols x.body.heads := by
    intro hd hhd r hsr
    rw [h.symbols r ((hw.storable.readable hx hd hhd).sym r hsr)]
    rfl
  have hresult : ∀ s, x.result = some s → u.Names s := fun s hs =>
    hnames s (by simp [Routine.mentions, hs])
  have hadd : DecodeM.addRoutine (routineRecord u.symbols x) d = .ok ((), { d with
      unit := d.unit.addFresh (x.rename (place u.symbols rs)) }) := by
    rw [DecodeM.addRoutine, DecodeM.run_bind hsym]
    have hb : DecodeM.node (routineRecord u.symbols x).body d = _ := hbody
    have hp : (routineRecord u.symbols x).params.mapM DecodeM.symbol d = _ := hparams
    rw [DecodeM.run_bind hb, DecodeM.run_bind hp]
    have hres := fun f => symbol_wireId (α := Unit) hw h.knows hresult f
    rw [routineRecord, hres]
    dsimp only
    rw [DecodeM.run_get]
    rcases hr.body with hb | hb
    · simp [hb, Node.rename, Node.isHole, Routine.rename]
      rfl
    · have hdef : (liftM ((x.body.rename (place u.symbols rs)).defects d.unit.symbols) :
          DecodeM (List TreeDefect)) d = .ok ([], d) := by
        have hd : (x.body.rename (place u.symbols rs)).defects d.unit.symbols = .ok [] := by
          rw [Node.defects_rename hkinds]
          exact hb
        rw [hd]
        rfl
      have hhole : (x.body.rename (place u.symbols rs)).isHole = false := by
        rw [Node.isHole_rename]
        exact hb.isHole
      rw [hhole]
      simp only [Bool.not_false, if_true]
      rw [DecodeM.run_bind hdef]
      rfl
  refine ⟨_, hadd, ⟨{ h.toReading with }, h.knows, h.size, h.symbols⟩, h.entries, ?_⟩
  change (d.unit.routines ++ [_]).map _ = _
  rw [List.map_append, List.map_append, h.routines]
  simp only [List.map_cons, List.map_nil, Routine.rename, Node.rename_relabel, Node.rename_rename,
    Option.map_id, List.map_map, Function.comp_def, id]

theorem all_recordOf (hw : u.Written rs)
    (h : u.ReadSymbols [] d) : ∃ d', DecodeM.all (u.recordOf rs) d = .ok ((), d') ∧
      u.ReadRoutines rs u.routines d' := by
  obtain ⟨d1, h₁, hd1⟩ := DecodeM.forM_spec
    (g := fun r => symbolFields u.symbols (u.symbols.get r)) rs
    (fun _ _ _ he _ hd => ReadSymbols.step hw he hd) h
  obtain ⟨d2, h₂, hd2⟩ := DecodeM.forM_spec
    (g := fun r => symbolFields u.symbols (u.symbols.get r)) rs
    (fun _ _ _ he _ hd => Linked.step hw he hd) (hd1.linked hw)
  obtain ⟨d3, h3, hd3⟩ := DecodeM.forM_spec (g := opRecord u.symbols) u.ops.table.entries
    (fun _ _ _ he _ hd => ReadOps.step hw he hd) (hd2.readOps hw)
  have hstart : u.ReadRoutines rs [] d3 :=
    ⟨hd3.toSettled, OperatorTable.entries_of_parts hw.storable.user hd3.user hd3.disabled,
      by rw [hd3.routines]; rfl⟩
  obtain ⟨d4, h4, hd4⟩ := DecodeM.forM_spec (g := routineRecord u.symbols)
    (I := fun done d => u.ReadRoutines rs done d) u.routines
    (fun _ _ _ he _ hd => ReadRoutines.step hw (by rw [← he]; simp) hd) hstart
  refine ⟨d4, ?_, hd4⟩
  rw [DecodeM.all, recordOf]
  rw [DecodeM.run_bind h₁, DecodeM.run_bind h₂, DecodeM.run_bind h3]
  exact h4

/-- The record of a unit is read back as a unit of the same contents. -/
theorem unit_recordOf (hw : u.Written rs) :
    ∃ d, (u.recordOf rs).unit = .ok (.ok d.unit) ∧ u.ReadRoutines rs u.routines d := by
  obtain ⟨types, ht⟩ := hw.storable.types
  have hstart : u.ReadSymbols []
      { unit := { name := u.name, files := .ofList u.files.paths, types } } :=
    ⟨⟨rfl, rfl, hw.storable.files.ofList_paths, TypeTable.flatten_ofFlat ht⟩, rfl, rfl, rfl,
      fun _ => rfl⟩
  obtain ⟨d, hd, hr⟩ := all_recordOf hw hstart
  refine ⟨d, ?_, hr⟩
  have ht' : TypeTable.ofFlat (u.recordOf rs).types = .ok types := ht
  rw [UnitRecord.unit, ht']
  refine bind_eq_ok.2 ⟨((), d), hd, ?_⟩
  simp [hr.wrong]
  rfl

end CompUnit

end Lifecycle
