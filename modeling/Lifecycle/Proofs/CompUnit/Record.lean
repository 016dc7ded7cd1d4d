import Lifecycle.CompUnit.Codec
import Lifecycle.Proofs.Packed.Bytes

/-!
# Records and their packed form

Every record of a unit file is loaded back from what it is packed as, and its packed form holds only
numbers that their forms hold. So the bytes of a unit's record give the record back.
-/

namespace Lifecycle

theorem mapM_map_some {α β γ : Type} {f : β → Option γ} {g : α → β} {h : α → γ} :
    ∀ (xs : List α), (∀ x ∈ xs, f (g x) = some (h x)) → (xs.map g).mapM f = some (xs.map h)
  | [], _ => rfl
  | x :: xs, hx => by
    rw [List.map_cons, List.mapM_cons, hx x (by simp),
      mapM_map_some xs fun y hy => hx y (by simp [hy])]
    rfl

@[simp] theorem TypeKind.ofCode_code (k : TypeKind) : TypeKind.ofCode k.code = k := by
  cases k with
  | other c h => simp [TypeKind.code, TypeKind.ofCode, h]
  | _ => rfl

theorem toInt32_low (n : Int32) : n.toInt64.toUInt64.toUInt32.toInt32 = n := by
  apply Int32.toBitVec_inj.1
  apply BitVec.eq_of_getLsbD_eq
  intro i hi
  simp [BitVec.getLsbD_signExtend, hi]
  omega

namespace Loader

variable {α β : Type} {elem : Loader α} {f : α → Packed}

theorem lastRun_one {f : Loader α} (h : isReset v = false) : lastRun isReset f [v] = f [v] := by
  rw [lastRun, runs, runs, h]
  cases hv : f [v] <;> simp [hv]

theorem zipOver_nil (vs : List Packed) : zipOver [] vs = vs.map fun v => [v] := by
  induction vs with
  | nil => rfl
  | cons v vs ih => rw [zipOver, ih, List.map_cons]

theorem list_arr {f : β → Packed} (xs : List β) (h : ∀ x ∈ xs, elem [f x] = some (g x)) :
    list elem [.arr (xs.map f)] = some (some (xs.map g)) := by
  have hm : ((xs.map f).map fun v => [v]).mapM elem = some (xs.map g) := by
    rw [List.map_map]
    exact mapM_map_some xs h
  have hz : ([some (xs.map f)].map Listed.items).foldl zipOver [] =
      (xs.map f).map fun v => [v] := zipOver_nil _
  rw [list, lastRun_one rfl, listRun]
  simp only [List.mapM_cons, List.mapM_nil, Packed.items?, Option.pure_def, Option.bind_eq_bind,
    Option.bind_some, hz, hm]
  simp [Listed.items, List.take_of_length_le]

theorem list_nil (elem : Loader α) : list elem [.nil] = some none := by
  rfl

theorem list_listed (l : Listed α)
    (h : ∀ x ∈ l.items, elem [f x] = some x) : list elem [Packed.listed f l] = some l := by
  cases l with
  | none => exact list_nil elem
  | some xs => simpa [Packed.listed] using list_arr (g := id) xs h

theorem plainList_listed (xs : List α) (h : ∀ x ∈ xs, elem [f x] = some x) :
    plainList elem [Packed.listed f (Listed.ofList xs)] = some xs := by
  rw [plainList, list_listed _ (by simpa using h)]
  simp

theorem plainList_arr (xs : List α)
    (h : ∀ x ∈ xs, elem [f x] = some x) : plainList elem [.arr (xs.map f)] = some xs := by
  rw [plainList, list_arr (g := id) xs h]
  simp [Listed.items]

theorem texts_arr (ts : List Text) : texts [.arr (ts.map .str)] = some (some ts) := by
  have hm : (ts.map Packed.str).mapM Packed.text? = some (ts.map id) :=
    mapM_map_some ts fun t _ => rfl
  rw [texts]
  simp only [List.mapM_cons, List.mapM_nil, Packed.items?, Option.pure_def, Option.bind_eq_bind,
    Option.bind_some, hm]
  simp

theorem optional_nil (f : Loader α) : optional f [.nil] = some none := by
  rfl

theorem optional_one {f : Loader α} (hv : isNil v = false)
    (h : f [v] = some a) : optional f [v] = some (some a) := by
  rw [optional, lastRun_one hv]
  simp [h]

theorem record_one (names : List String) (f : Fields → Option α) (fields : List (String × Packed)) :
    record names f [Packed.record fields] =
      f fun name => (fields.filter fun e => e.1 = name).map (·.2) := by
  have hf : fieldsOf names (Packed.record fields) =
      some (fields.map fun e => ((e.1 : Text), e.2)) := mapM_map_some fields fun e _ => rfl
  rw [record, lastRun_one rfl]
  simp only [List.mapM_cons, hf]
  simp [List.filter_map, Function.comp_def]

@[simp] theorem word8_one (n : UInt8) : word8 [Packed.word8 n] = some n := by
  simp [word8, bits, last, Packed.word8, Packed.bits?]

@[simp] theorem word16_one (n : UInt16) : word16 [Packed.word16 n] = some n := by
  simp [word16, bits, last, Packed.word16, Packed.bits?]

@[simp] theorem word32_one (n : UInt32) : word32 [Packed.word32 n] = some n := by
  simp [word32, bits, last, Packed.word32, Packed.bits?]

@[simp] theorem int32_one (n : Int32) : int32 [Packed.int32 n] = some n := by
  simp [int32, bits, last, Packed.int32, Packed.bits?, toInt32_low]

@[simp] theorem int64_one (n : Int64) : int64 [Packed.int64 n] = some n := by
  simp [int64, bits, last, Packed.int64, Packed.bits?]

@[simp] theorem int64_shortest (n : Int64) : int64 [Packed.shortest n] = some n := by
  simp [int64, bits, last, Packed.shortest, Packed.bits?]

@[simp] theorem text_one (t : Text) : text [.str t] = some t := by
  simp [text, last, Packed.text?]

@[simp] theorem bool_one (b : Bool) : bool [.bool b] = some b := by
  simp [bool, last, Packed.bool?]

@[simp] theorem span_one (s : Span) : span [Packed.span s] = some s := by
  simp [span, Packed.span, record_one]

@[simp] theorem typeDesc_one (d : TypeDesc) : typeDesc [Packed.typeDesc d] = some d := by
  simp [typeDesc, Packed.typeDesc, record_one]

@[simp] theorem field_one (f : Field) : field [Packed.field f] = some f := by
  simp [field, Packed.field, record_one]

@[simp] theorem variantArm_one (a : VariantArm) : variantArm [Packed.variantArm a] = some a := by
  simp [variantArm, Packed.variantArm, record_one, list_listed]

@[simp] theorem variant_one (v : Variant) : variant [Packed.variant v] = some v := by
  simp [variant, Packed.variant, record_one, list_listed]

@[simp] theorem objectInfo_one (o : ObjectInfo) : objectInfo [Packed.objectInfo o] = some o := by
  rcases o with ⟨name, fields, _ | v⟩
  · simp [objectInfo, Packed.objectInfo, record_one, list_listed, optional_nil]
  · have hv : optional variant [Packed.variant v] = some (some v) :=
      optional_one rfl (variant_one v)
    simp [objectInfo, Packed.objectInfo, record_one, list_listed, hv]

@[simp] theorem param_one (p : Param) : param [Packed.param p] = some p := by
  simp [param, Packed.param, record_one]

@[simp] theorem procInfo_one (p : ProcInfo) : procInfo [Packed.procInfo p] = some p := by
  simp [procInfo, Packed.procInfo, record_one, list_listed]

@[simp] theorem instInfo_one (i : InstInfo) : instInfo [Packed.instInfo i] = some i := by
  simp [instInfo, Packed.instInfo, record_one, list_listed]

@[simp] theorem flatTypes_one (f : FlatTypes) : flatTypes [Packed.flatTypes f] = some f := by
  have ht : plainList (list word32) [.arr (f.tuples.map (Packed.listed Packed.word32))] =
      some f.tuples := plainList_arr _ fun l _ => list_listed l fun n _ => word32_one n
  simp [flatTypes, Packed.flatTypes, record_one, plainList_arr, ht, texts_arr, Listed.items]

@[simp] theorem symbol_one (s : SymbolRecord) : symbol [Packed.symbol s] = some s := by
  simp [symbol, Packed.symbol, record_one]

@[simp] theorem op_one (o : OpRecord) : op [Packed.op o] = some o := by
  simp [op, Packed.op, record_one]

end Loader

/-! ## Trees -/

namespace NodeRecord

mutual

def depth : NodeRecord → Nat
  | .absent => 1
  | .node _ ks => 1 + depths ks

def depths : List NodeRecord → Nat
  | [] => 0
  | k :: ks => max k.depth (depths ks)

end

end NodeRecord

namespace Packed

theorem length_le_itemBytes (h : v ∈ vs) : v.bytes.length ≤ (itemBytes vs).length := by
  induction vs with
  | nil => simp at h
  | cons w vs ih =>
    rw [itemBytes, List.length_append]
    rcases List.mem_cons.1 h with rfl | h
    · omega
    · exact le_trans (ih h) (by omega)

theorem length_le_arr (h : v ∈ vs) : v.bytes.length ≤ (arr vs).bytes.length := by
  rw [bytes, List.length_append]
  exact le_trans (length_le_itemBytes h) (by omega)

theorem length_lt_record (h : e ∈ fields)
    (hf : fields.length < 16) : e.2.bytes.length < (record fields).bytes.length := by
  have hs : mapStart fields.length = [0x80 + .ofNat fields.length] := by
    rw [mapStart, lengthBytes, if_pos hf]
  have key : ∀ es : List (String × Packed), e ∈ es →
      e.2.bytes.length ≤ (entryBytes (es.map fun e => (.str e.1, e.2))).length := by
    intro es
    induction es with
    | nil => simp
    | cons f es ih =>
      intro h
      rw [List.map_cons, entryBytes, List.length_append, List.length_append]
      rcases List.mem_cons.1 h with rfl | h
      · omega
      · exact le_trans (ih h) (by omega)
  rw [record, bytes, List.length_append, List.length_map, hs]
  have := key fields h
  simp only [List.length_cons]
  omega

theorem length_lt_nodeFields (f : NodeFields) (kids : Packed) :
    kids.bytes.length < (nodeFields f kids).bytes.length :=
  length_lt_record (e := ("Kids", kids)) (by simp) (by simp)

mutual

theorem depth_le_length : ∀ n : NodeRecord, n.depth ≤ (node n).bytes.length
  | .absent => by simp [NodeRecord.depth, node, bytes]
  | .node f [] => by
    have := length_lt_nodeFields f .nil
    rw [node, NodeRecord.depth, NodeRecord.depths]
    omega
  | .node f (k :: ks) => by
    have hf := length_lt_nodeFields f (.arr (node k :: nodes ks))
    have hk := depths_le_length (k :: ks)
    rw [bytes, List.length_append] at hf
    rw [nodes] at hk
    rw [node, NodeRecord.depth]
    omega

theorem depths_le_length : ∀ ns : List NodeRecord,
    NodeRecord.depths ns ≤ (itemBytes (nodes ns)).length
  | [] => by simp [NodeRecord.depths]
  | n :: ns => by
    have h := depth_le_length n
    have hs := depths_le_length ns
    rw [NodeRecord.depths, nodes, itemBytes, List.length_append]
    omega

end

theorem nodes_eq_map (ns : List NodeRecord) : nodes ns = ns.map node := by
  induction ns with
  | nil => rfl
  | cons n ns ih => rw [nodes, ih, List.map_cons]

end Packed

theorem NodeRecord.depth_le_depths (h : n ∈ ns) : n.depth ≤ NodeRecord.depths ns := by
  induction ns with
  | nil => simp at h
  | cons m ns ih =>
    rw [NodeRecord.depths]
    rcases List.mem_cons.1 h with rfl | h
    · omega
    · have := ih h
      omega

namespace Loader

theorem node_fields (hk : plainList (node d) [kids] = some ks) :
    node (d + 1) [Packed.nodeFields f kids] = some (.node f ks) := by
  simp only [node]
  rw [optional_one (a := NodeRecord.node f ks) rfl]
  · rfl
  · simp [Packed.nodeFields, record_one, hk]

theorem node_one : ∀ {d : Nat} (n : NodeRecord), n.depth ≤ d → node d [Packed.node n] = some n
  | 0, .absent, h => by simp [NodeRecord.depth] at h
  | 0, .node f ks, h => by simp [NodeRecord.depth] at h
  | d + 1, .absent, _ => by simp [node, Packed.node, optional_nil]
  | d + 1, .node f [], _ => by
    refine node_fields ?_
    rfl
  | d + 1, .node f (k :: ks), h => by
    rw [Packed.node, ← Packed.nodes, Packed.nodes_eq_map]
    rw [NodeRecord.depth] at h
    refine node_fields (plainList_arr (k :: ks) fun n hn => node_one n ?_)
    have := NodeRecord.depth_le_depths hn
    omega

theorem routine_one (h : r.body.depth ≤ d) : routine d [Packed.routine r] = some r := by
  simp [routine, Packed.routine, record_one, plainList_listed, node_one r.body h]

theorem unit_one (h : ∀ r ∈ u.routines, r.body.depth ≤ d) : unit d [Packed.unit u] = some u := by
  have hr : plainList (routine d) [Packed.listed Packed.routine (Listed.ofList u.routines)] =
      some u.routines := plainList_listed _ fun r hr => routine_one (h r hr)
  simp [unit, Packed.unit, record_one, plainList_listed, texts_arr, hr, Listed.items]

end Loader

/-! ## Numbers and lengths -/

namespace Packed

variable {p : Packed → Prop}

theorem allItems_iff : AllItems p vs ↔ ∀ v ∈ vs, v.All p := by
  induction vs with
  | nil => simp [AllItems]
  | cons v vs ih => simp [AllItems, ih]

theorem allEntries_iff : AllEntries p es ↔ ∀ e ∈ es, e.1.All p ∧ e.2.All p := by
  induction es with
  | nil => simp [AllEntries]
  | cons e es ih => simp [AllEntries, ih, and_assoc]

@[simp] theorem exact_nil : Exact .nil := trivial

@[simp] theorem exact_bool (b : Bool) : Exact (.bool b) := trivial

@[simp] theorem exact_str (t : Text) : Exact (.str t) := trivial

theorem exact_arr (h : ∀ v ∈ vs, Exact v) : Exact (.arr vs) :=
  ⟨trivial, allItems_iff.2 h⟩

theorem exact_map {α : Type} {f : α → Packed} {xs : List α} (h : ∀ x ∈ xs, Exact (f x)) :
    Exact (.arr (xs.map f)) :=
  exact_arr fun v hv => by
    obtain ⟨x, hx, rfl⟩ := List.mem_map.1 hv
    exact h x hx

theorem exact_listed {α : Type} {f : α → Packed} {l : Listed α} (h : ∀ x, Exact (f x)) :
    Exact (listed f l) := by
  cases l with
  | none => trivial
  | some xs => exact exact_map fun x _ => h x

theorem exact_record {fields : List (String × Packed)} (h : ∀ e ∈ fields, Exact e.2) :
    Exact (record fields) := by
  refine ⟨trivial, allEntries_iff.2 fun e he => ?_⟩
  obtain ⟨f, hf, rfl⟩ := List.mem_map.1 he
  exact ⟨trivial, h f hf⟩

@[simp] theorem exact_word8 (n : UInt8) : Exact (word8 n) := by
  exact n.toNat_lt

@[simp] theorem exact_word16 (n : UInt16) : Exact (word16 n) := by
  exact n.toNat_lt

@[simp] theorem exact_word32 (n : UInt32) : Exact (word32 n) := by
  exact n.toNat_lt

@[simp] theorem exact_int32 (n : Int32) : Exact (int32 n) := by
  change n.toInt64.toUInt64.toUInt32.toInt32.toInt64.toUInt64 = n.toInt64.toUInt64
  rw [toInt32_low]

@[simp] theorem exact_int64 (n : Int64) : Exact (int64 n) := rfl

theorem extendSign_of_range (width : Nat) {n : Int64} (hw : width = 1 ∨ width = 2 ∨ width = 4)
    (h : -(2 ^ (8 * width - 1)) ≤ n.toInt) (h' : n.toInt < 2 ^ (8 * width - 1)) :
    extendSign width n.toUInt64 = n.toUInt64 := by
  rcases hw with rfl | rfl | rfl
  · have hlow : n.toUInt64.toUInt8.toInt8 = n.toInt8 :=
      Int8.toBitVec_inj.1 (by simp [BitVec.signExtend_eq_setWidth_of_le])
    have hn : n.toInt8.toInt64 = n := by
      apply Int64.toInt_inj.1
      rw [Int8.toInt_toInt64, Int64.toInt_toInt8, Int.bmod_eq_of_le (by omega) (by omega)]
    rw [extendSign, hlow, hn]
  · have hlow : n.toUInt64.toUInt16.toInt16 = n.toInt16 :=
      Int16.toBitVec_inj.1 (by simp [BitVec.signExtend_eq_setWidth_of_le])
    have hn : n.toInt16.toInt64 = n := by
      apply Int64.toInt_inj.1
      rw [Int16.toInt_toInt64, Int64.toInt_toInt16, Int.bmod_eq_of_le (by omega) (by omega)]
    rw [extendSign, hlow, hn]
  · have hlow : n.toUInt64.toUInt32.toInt32 = n.toInt32 :=
      Int32.toBitVec_inj.1 (by simp [BitVec.signExtend_eq_setWidth_of_le])
    have hn : n.toInt32.toInt64 = n := by
      apply Int64.toInt_inj.1
      rw [Int32.toInt_toInt64, Int64.toInt_toInt32, Int.bmod_eq_of_le (by omega) (by omega)]
    rw [extendSign, hlow, hn]

theorem toNat_toUInt64 (n : Int64) : (n.toUInt64.toNat : Int) = n.toInt % 2 ^ 64 := by
  have hi : n.toInt = (n.toUInt64.toNat : Int).bmod (2 ^ 64) := n.toBitVec.toInt_eq_toNat_bmod
  have hm : (n.toUInt64.toNat : Int).bmod (2 ^ 64) % (2 ^ 64 : Nat) =
    (n.toUInt64.toNat : Int) % (2 ^ 64 : Nat) := Int.bmod_emod
  have hb := n.toUInt64.toNat_lt
  omega

@[simp] theorem exact_shortest (n : Int64) : Exact (shortest n) := by
  have hn := toNat_toUInt64 n
  unfold shortest
  dsimp only
  split_ifs with h1 h2 h3 h4 h5 h6 h7 h8
  · refine ⟨?_, extendSign_of_range 1 (.inl rfl) (by norm_num; omega) (by norm_num; omega)⟩
    rw [UInt8.lt_iff_toNat_lt, UInt8.le_iff_toNat_le, UInt64.toNat_toUInt8]
    simp only [UInt8.toNat_ofNat]
    omega
  · change n.toUInt64.toNat < 256 ^ 1
    omega
  · change n.toUInt64.toNat < 256 ^ 2
    omega
  · change n.toUInt64.toNat < 256 ^ 4
    omega
  · exact n.toUInt64.toNat_lt
  · exact extendSign_of_range 1 (by decide) (by norm_num; omega) (by norm_num; omega)
  · exact extendSign_of_range 2 (by decide) (by norm_num; omega) (by norm_num; omega)
  · exact extendSign_of_range 4 (by decide) (by norm_num; omega) (by norm_num; omega)
  · rfl

theorem exact_span (s : Span) : Exact (span s) := exact_record (by simp)

theorem exact_typeDesc (d : TypeDesc) : Exact (typeDesc d) := exact_record (by simp)

theorem exact_field (f : Field) : Exact (field f) := exact_record (by simp)

theorem exact_variantArm (a : VariantArm) : Exact (variantArm a) :=
  exact_record (by simp [exact_listed])

theorem exact_variant (v : Variant) : Exact (variant v) :=
  exact_record (by simp [exact_listed, exact_variantArm])

theorem exact_objectInfo (o : ObjectInfo) : Exact (objectInfo o) := by
  refine exact_record ?_
  cases o.variant <;> simp [exact_listed, exact_field, exact_variant]

theorem exact_param (p : Param) : Exact (param p) := exact_record (by simp)

theorem exact_procInfo (p : ProcInfo) : Exact (procInfo p) :=
  exact_record (by simp [exact_listed, exact_param])

theorem exact_instInfo (i : InstInfo) : Exact (instInfo i) :=
  exact_record (by simp [exact_listed])

theorem exact_flatTypes (f : FlatTypes) : Exact (flatTypes f) :=
  exact_record (by
    simp [exact_map, exact_listed, exact_typeDesc, exact_objectInfo, exact_procInfo,
      exact_instInfo])

theorem exact_symbol (s : SymbolRecord) : Exact (symbol s) :=
  exact_record (by simp [exact_span])

theorem exact_nodeFields (h : Exact kids) : Exact (nodeFields f kids) :=
  exact_record (by simp [exact_span, h])

mutual

theorem exact_node : ∀ n : NodeRecord, Exact (node n)
  | .absent => trivial
  | .node _ [] => exact_nodeFields exact_nil
  | .node f (k :: ks) => by
    exact exact_nodeFields (exact_arr (exact_nodes (k :: ks)))

theorem exact_nodes : ∀ ns : List NodeRecord, ∀ v ∈ nodes ns, Exact v
  | [] => by simp [nodes]
  | n :: ns => by
    have hn := exact_node n
    have hs := exact_nodes ns
    simp only [nodes, List.mem_cons]
    rintro v (rfl | hv)
    · exact hn
    · exact hs v hv

end

theorem exact_routine (r : RoutineRecord) : Exact (routine r) :=
  exact_record (by simp [exact_listed, exact_node])

theorem exact_op (o : OpRecord) : Exact (op o) := exact_record (by simp)

theorem exact_unit (u : UnitRecord) : Exact (unit u) :=
  exact_record (by
    simp [exact_map, exact_listed, exact_flatTypes, exact_symbol, exact_op, exact_routine])

theorem depth_le_unit (h : r ∈ u.routines) : r.body.depth ≤ (unit u).bytes.length := by
  have hb : (node r.body).bytes.length < (routine r).bytes.length :=
    length_lt_record (e := ("Body", node r.body)) (by simp) (by simp)
  have hr : (routine r).bytes.length ≤
      (listed routine (Listed.ofList u.routines)).bytes.length := by
    have hne : u.routines ≠ [] := List.ne_nil_of_mem h
    have hl : Listed.ofList u.routines = some u.routines := by
      simp [Listed.ofList, hne]
    rw [hl]
    exact length_le_arr (List.mem_map_of_mem h)
  have hu : (listed routine (Listed.ofList u.routines)).bytes.length < (unit u).bytes.length :=
    length_lt_record (e := ("Routines", listed routine (Listed.ofList u.routines))) (by simp)
      (by simp)
  have := depth_le_length r.body
  omega

end Packed

/-- The record of a unit is read back from its bytes, if none of its texts and lists is too long for
the format. -/
theorem UnitRecord.parse?_bytes (h : (Packed.unit u).Short) :
    UnitRecord.parse? (.ofList (Packed.unit u).bytes) = some u := by
  have hp := Packed.parse_bytes h (Packed.exact_unit u)
  have hl := Loader.unit_one (u := u) fun r hr => Packed.depth_le_unit hr
  rw [UnitRecord.parse?, Text.toList_ofList, hp, ← Text.length_toList, Text.toList_ofList]
  exact hl

end Lifecycle
