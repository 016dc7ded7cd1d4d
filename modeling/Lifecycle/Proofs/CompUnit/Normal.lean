import Lifecycle.Proofs.CompUnit.Reading
import Lifecycle.Proofs.CompUnit.RoundTrip

/-!
# The normal form of a unit file

What is written of a unit depends neither on where its symbols stand nor on the order in which its
operators were registered. So a file that was written is written again byte for byte when it is read
back, and a file that is accepted comes to its normal form in one round.
-/

namespace Lifecycle

/-! ## Collecting symbols that stand elsewhere -/

namespace Encoding

variable {ss ss' : Symbols} {f : SymRef → SymRef} {P : SymRef → Prop}

def moved (f : SymRef → SymRef) (e : Encoding) : Encoding :=
  { e with known := ⟨e.known.entries.map fun x => (x.1, f x.2)⟩ }

theorem get?_moved (e : Encoding) (id : UInt32) :
    (e.moved f).known.get? id = (e.known.get? id).map f := by
  simp [moved, Dict.get?, Function.comp_def]

theorem moved_insert {e : Encoding} {id : UInt32} (hk : e.known.get? id = none) :
    Encoding.moved f { e with known := e.known.insert id r } =
      { e.moved f with known := (e.moved f).known.insert id (f r) } := by
  have hk' : (e.moved f).known.get? id = none := by
    rw [get?_moved, hk]
    rfl
  have hd : ((e.known.insert id r).entries.map fun x => (x.1, f x.2)) =
      ((e.moved f).known.insert id (f r)).entries := by
    rw [Dict.entries_insert hk, Dict.entries_insert hk', List.map_append]
    rfl
  exact congrArg (fun l => (⟨⟨l⟩, e.error⟩ : Encoding)) hd

/-- The symbols of `ss` with the property `P` stand in `ss'` where `f` says, each at a place of its
own. -/
structure Carries (f : SymRef → SymRef) (ss ss' : Symbols) (P : SymRef → Prop) : Prop where
  get : ∀ r, P r → ss'.get (f r) = CompUnit.renamed f (ss.get r)
  injective : ∀ r s, P r → P s → f r = f s → r = s
  owner : ∀ r o, P r → (ss.get r).owner = some o → P o

theorem Good.moved {e : Encoding} (hc : Carries f ss ss' P)
    (h : e.Good ss fun r => P r ∧ (ss.get r).id ≠ 0) :
    (e.moved f).Good ss' fun q => (ss'.get q).id ≠ 0 where
  nodup := by simpa [Encoding.moved, Dict.keys, Function.comp_def] using h.nodup
  entries x hx := by
    obtain ⟨y, hy, rfl⟩ := List.mem_map.1 hx
    obtain ⟨hid, hp, h0⟩ := h.entries y hy
    simp only [hc.get y.2 hp]
    exact ⟨hid, h0⟩

/-- The walks along the owners in `ss` and in `ss'` take the same steps. Both are given as many as
there are symbols. -/
theorem noteWithin_moved (hc : Carries f ss ss' P) : ∀ (n m : Nat) (e : Encoding)
    (next : Option SymRef), e.Good ss (fun r => P r ∧ (ss.get r).id ≠ 0) →
    (∀ r, next = some r → P r) → ss.all.size - e.known.entries.length < n →
    ss'.all.size - e.known.entries.length < m →
    noteWithin ss' m (e.moved f) (next.map f) = (noteWithin ss n e next).moved f ∧
      (noteWithin ss n e next).Good ss fun r => P r ∧ (ss.get r).id ≠ 0
  | 0, _, _, _, _, _, hn, _ => absurd hn (by omega)
  | _, 0, _, _, _, _, _, hm => absurd hm (by omega)
  | n + 1, m + 1, e, none, hg, _, _, _ => ⟨rfl, hg⟩
  | n + 1, m + 1, e, some r, hg, hp, hn, hm => by
    have hr := hp r rfl
    rw [Option.map_some, noteWithin, noteWithin]
    have hid : (CompUnit.renamed f (ss.get r)).id = (ss.get r).id := rfl
    simp only [hc.get r hr, get?_moved, hid]
    split_ifs with h0
    · exact ⟨rfl, hg.nodup, hg.entries⟩
    rcases hk : e.known.get? (ss.get r).id with _ | prev
    · have hg' := hg.insert ⟨hr, h0⟩ hk
      have hl := hg'.length_le fun r hr => hr.2
      have hl' := (hg'.moved hc).length_le fun q hq => hq
      simp only [moved, List.length_map, Dict.entries_insert hk, List.length_append,
        List.length_cons] at hl hl'
      have ih := noteWithin_moved hc n m { e with known := e.known.insert (ss.get r).id r }
        (ss.get r).owner hg' (fun o ho => hc.owner r o hr ho)
        (by simp only [Dict.entries_insert hk, List.length_append, List.length_singleton]; omega)
        (by simp only [Dict.entries_insert hk, List.length_append, List.length_singleton]; omega)
      rw [moved_insert hk] at ih
      exact ih
    · have hprev := (hg.entries _ (Dict.mem_of_get? hk)).2.1
      simp only [Option.map_some, hc.get prev hprev]
      by_cases he : prev = r
      · simp only [he, if_true, true_and]
        exact hg
      · have hf : f prev ≠ f r := fun h => he (hc.injective _ _ hprev hr h)
        simp only [he, hf]
        exact ⟨rfl, hg.nodup, hg.entries⟩

theorem foldl_note_moved (hc : Carries f ss ss' P) : ∀ (rs : List (Option SymRef)) (e : Encoding),
    e.Good ss (fun r => P r ∧ (ss.get r).id ≠ 0) → (∀ r, some r ∈ rs → P r) →
    (rs.map (Option.map f)).foldl (note ss') (e.moved f) = (rs.foldl (note ss) e).moved f ∧
      (rs.foldl (note ss) e).Good ss fun r => P r ∧ (ss.get r).id ≠ 0
  | [], _, hg, _ => ⟨rfl, hg⟩
  | next :: rs, e, hg, hp => by
    obtain ⟨he, hg'⟩ := noteWithin_moved hc (ss.all.size + 1) (ss'.all.size + 1) e next hg
      (fun r hr => hp r (by simp [hr])) (by omega) (by omega)
    rw [List.map_cons, List.foldl_cons, List.foldl_cons, note, he]
    exact foldl_note_moved hc rs _ hg' fun r hr => hp r (by simp [hr])

end Encoding

namespace CompUnit

/-- Two units that differ in where their symbols stand, in what they do not refer to, and in the
order of their registrations: `f` says where a symbol of the first stands in the second. -/
structure Mirrors (f : SymRef → SymRef) (u u' : CompUnit) : Prop where
  name : u'.name = u.name
  files : u'.files.paths = u.files.paths
  types : u'.types.flatten = u.types.flatten
  ops : u'.ops.table.unsorted.Perm (u.ops.table.unsorted.map (OpEntry.rename f))
  routines : u'.routines.map (Routine.rename id) = u.routines.map (Routine.rename f)
  symbols : ∀ r, u.Names r → u'.symbols.get (f r) = renamed f (u.symbols.get r)
  injective : ∀ r s, u.Names r → u.Names s → f r = f s → r = s

variable {f : SymRef → SymRef} {u u' : CompUnit}

theorem SameUpTo.mirrors (h : u.SameUpTo f u') : u.Mirrors f u' where
  name := h.name
  files := by rw [h.files]
  types := h.types
  ops := by
    have he := u'.ops.table.entries_perm
    rw [h.entries] at he
    exact he.symm.trans (u.ops.table.entries_perm.map _)
  routines := h.routines
  symbols := h.symbols
  injective := h.injective

theorem mentions_rename (x : Routine) :
    (Routine.rename f x).mentions = x.mentions.map (Option.map f) := by
  have hbody : (x.body.rename f).preorder.map (fun m => m.head?.bind (·.sym)) =
      (x.body.preorder.map fun m => m.head?.bind (·.sym)).map (Option.map f) := by
    rw [Node.preorder_rename, List.map_map, List.map_map]
    refine List.map_congr_left fun m _ => ?_
    cases m <;> rfl
  simp [Routine.mentions, Routine.rename, hbody]

namespace Mirrors

theorem entries (h : u.Mirrors f u') (hu : u.ops.table.user.keys.Nodup) :
    u'.ops.table.entries = u.ops.table.entries.map (OpEntry.rename f) :=
  OperatorTable.entries_of_perm hu h.ops

theorem mentions (h : u.Mirrors f u') (hu : u.ops.table.user.keys.Nodup) :
    u'.mentions = u.mentions.map (Option.map f) := by
  have hr := congrArg (List.flatMap Routine.mentions) h.routines
  simp only [List.flatMap_map, mentions_rename, Option.map_id_fun, List.map_id_fun, id_eq] at hr
  rw [CompUnit.mentions, CompUnit.mentions, h.entries hu, List.map_append, List.map_map,
    List.map_map, hr, List.map_flatMap]
  rfl

theorem wireId_map (h : u.Mirrors f u') (ho : ∀ r, o = some r → u.Names r) :
    wireId u'.symbols (o.map f) = wireId u.symbols o := by
  cases o with
  | none => rfl
  | some r =>
    change (u'.symbols.get (f r)).id = (u.symbols.get r).id
    rw [h.symbols r (ho r rfl)]
    rfl

end Mirrors

/-! ## Records -/

mutual

theorem nodeRecord_rename : ∀ n : Node,
    (∀ m ∈ n.preorder,
      wireId ss' ((m.head?.bind (·.sym)).map f) = wireId ss (m.head?.bind (·.sym))) →
    nodeRecord ss' (n.rename f) = nodeRecord ss n
  | .hole, _ => rfl
  | .node h ks, hw => by
    rw [Node.rename, nodeRecord, nodeRecord,
      nodeRecords_rename ks fun m hm => hw m (List.mem_cons_of_mem _ hm)]
    have hs : wireId ss' (h.sym.map f) = wireId ss h.sym :=
      hw (.node h ks) (by simp [Node.preorder])
    rw [hs]

theorem nodeRecords_rename : ∀ ns : List Node, (∀ m ∈ Node.preorderAll ns,
      wireId ss' ((m.head?.bind (·.sym)).map f) = wireId ss (m.head?.bind (·.sym))) →
    nodeRecords ss' (Node.renameAll f ns) = nodeRecords ss ns
  | [], _ => rfl
  | n :: ns, hw => by
    rw [Node.renameAll, nodeRecords, nodeRecords,
      nodeRecord_rename n fun m hm => hw m (by simp [Node.preorderAll, hm]),
      nodeRecords_rename ns fun m hm => hw m (by simp [Node.preorderAll, hm])]

end

theorem routineRecord_rename (hw : ∀ o ∈ x.mentions, wireId ss' (o.map f) = wireId ss o) :
    routineRecord ss' (x.rename f) = routineRecord ss x := by
  have hbody : nodeRecord ss' (x.body.rename f) = nodeRecord ss x.body :=
    nodeRecord_rename x.body fun m hm => hw _ (by
      simp only [Routine.mentions]
      grind)
  have hparams : (x.params.map (Option.map f)).map (wireId ss') = x.params.map (wireId ss) := by
    rw [List.map_map]
    exact List.map_congr_left fun o ho => hw o (by simp [Routine.mentions, ho])
  simp only [routineRecord, Routine.rename, hbody, hparams, hw x.sym (by simp [Routine.mentions]),
    hw x.result (by simp [Routine.mentions])]

namespace Mirrors

theorem carries (h : u.Mirrors f u') : Encoding.Carries f u.symbols u'.symbols u.Names :=
  ⟨h.symbols, h.injective, fun _ _ hr ho => .owner hr ho⟩

theorem ops_eq (h : u.Mirrors f u') (hu : u.ops.table.user.keys.Nodup) :
    u'.ops.table.entries.map (opRecord u'.symbols) =
      u.ops.table.entries.map (opRecord u.symbols) := by
  rw [h.entries hu, List.map_map]
  refine List.map_congr_left fun e he => ?_
  have hw := h.wireId_map (o := e.op) fun r hr =>
    .mention (List.mem_append_left _ (List.mem_map.2 ⟨e, he, hr⟩))
  simp only [Function.comp_apply, opRecord, OpEntry.rename, hw]

theorem routines_eq (h : u.Mirrors f u') :
    u'.routines.map (routineRecord u'.symbols) = u.routines.map (routineRecord u.symbols) := by
  have hid : ∀ x : Routine, routineRecord u'.symbols (x.rename id) = routineRecord u'.symbols x :=
    fun x => routineRecord_rename (f := id) (by simp)
  have hr := congrArg (List.map (routineRecord u'.symbols)) h.routines
  simp only [List.map_map, Function.comp_def, hid] at hr
  rw [hr]
  refine List.map_congr_left fun x hx => routineRecord_rename fun o ho => h.wireId_map ?_
  rintro r rfl
  exact .mention (List.mem_append_right _ (List.mem_flatMap.2 ⟨x, hx, ho⟩))

theorem symbolRecord_eq (h : u.Mirrors f u') (hr : u.Names r) :
    symbolRecord u'.symbols (u'.symbols.get (f r)) = symbolRecord u.symbols (u.symbols.get r) := by
  have ho := h.wireId_map (o := (u.symbols.get r).owner) fun o ho => .owner hr ho
  rw [h.symbols r hr]
  simp only [symbolRecord, renamed, ho]

theorem mapM_symbolRecord (h : u.Mirrors f u') : ∀ l : List (UInt32 × SymRef),
    (∀ x ∈ l, u.Names x.2) →
    (l.map fun x => (x.1, f x.2)).mapM (fun x => symbolRecord u'.symbols (u'.symbols.get x.2)) =
      l.mapM fun x => symbolRecord u.symbols (u.symbols.get x.2)
  | [], _ => by rw [List.map_nil, List.mapM_nil, List.mapM_nil]
  | x :: l, hl => by
    rw [List.map_cons, List.mapM_cons, List.mapM_cons, h.symbolRecord_eq (hl x (by simp)),
      h.mapM_symbolRecord l fun y hy => hl y (by simp [hy])]

theorem record_eq (h : u.Mirrors f u') (hu : u.ops.table.user.keys.Nodup) :
    u'.record = u.record := by
  obtain ⟨he, hg⟩ := Encoding.foldl_note_moved h.carries u.mentions {}
    ⟨by simp [Dict.keys], by simp⟩ fun r hr => .mention hr
  rw [record, record, encoding_eq, encoding_eq, h.mentions hu, h.ops_eq hu, h.routines_eq, h.name,
    h.files, h.types, show (u.mentions.map (Option.map f)).foldl (Encoding.note u'.symbols) {} = _
      from he]
  generalize u.mentions.foldl (Encoding.note u.symbols) {} = e at hg
  have hsort := List.map_mergeSort (r := fun a b => decide (a.1 ≤ b.1))
    (s := fun a b => decide (a.1 ≤ b.1)) (f := fun x : UInt32 × SymRef => (x.1, f x.2))
    (l := e.known.entries) (by simp)
  have hsyms := h.mapM_symbolRecord (e.known.entries.mergeSort fun a b => decide (a.1 ≤ b.1))
    fun x hx => (hg.entries x ((List.mergeSort_perm _ _).mem_iff.1 hx)).2.1
  rw [hsort] at hsyms
  simp only [Encoding.moved, hsyms]

end Mirrors

/-- A file that is accepted is written again without an error. If nothing in what is written is too
long for the format, as in any file below four gigabytes, it is accepted too and written again as it
is. What is written does not depend on where the symbols stand nor on the order of the
registrations. -/
theorem encode_normal :
    (∀ (t : Text) (u : CompUnit), decode t = .ok (.ok u) → ∃ bytes, u.encode = .ok bytes ∧
      (bytes.size < UInt32.size → u.Compact) ∧
      (u.Compact → ∃ w, decode bytes = .ok (.ok w) ∧ w.encode = .ok bytes)) ∧
    ∀ (f : SymRef → SymRef) (u u' : CompUnit), u.ops.table.user.keys.Nodup → u.Mirrors f u' →
      u'.encode = u.encode := by
  refine ⟨fun t u ht => ?_, fun f u u' hu h => by rw [encode, h.record_eq hu, encode]⟩
  have hw := workable_of_decode ht
  obtain ⟨rs, -, -, hr⟩ := hw.storable.record
  have hb : u.encode = .ok (.ofList (Packed.unit (u.recordOf rs)).bytes) := by rw [encode, hr]; rfl
  refine ⟨_, hb, compact_of_encode hb, fun hc => ?_⟩
  obtain ⟨bytes, rs', d, hrs, he, hd, hread⟩ := hw.storable.readBack hc
  cases he.symm.trans hb
  refine ⟨d.unit, hd, ?_⟩
  rw [← he, encode, (hread.sameUpTo hrs).mirrors.record_eq hw.user, encode]

/-- The sample unit, written, read, and written again. -/
theorem encode_normal_sample : ∃ bytes u f, sample.Mirrors f u ∧ sample.encode = .ok bytes ∧
    decode bytes = .ok (.ok u) ∧ u.Compact ∧ u.encode = sample.encode ∧
    ∃ bytes', u.encode = .ok bytes' ∧ ∃ w, decode bytes' = .ok (.ok w) ∧ w.encode = .ok bytes' := by
  obtain ⟨bytes, rs, d, hrs, he, hd, hread⟩ := storable_sample.readBack compact_sample
  have hm := (hread.sameUpTo hrs).mirrors
  have hc : d.unit.Compact := by
    rw [Compact, hm.record_eq storable_sample.user]
    exact compact_sample
  obtain ⟨bytes', he', -, hw⟩ := encode_normal.1 bytes d.unit hd
  exact ⟨bytes, d.unit, _, hm, he, hd, hc, encode_normal.2 _ _ _ storable_sample.user hm, bytes',
    he', hw hc⟩

end CompUnit

end Lifecycle
