import Lifecycle.Proofs.CompUnit.Decoding
import Lifecycle.Proofs.CompUnit.Workable

/-!
# Units that were read

A file that is read without a complaint gives a unit that can be worked through and written. What is
read is checked on the way: `Quiet` says what follows when a look at the file ends without a
complaint.
-/

namespace Lifecycle

namespace TypeTable

theorem bool_noteAll : ∀ (ds : List TypeDesc) (t : TypeTable) (id : TypeId) (n : Nat),
    id.toNat ≤ n → n + ds.length ≤ t.size → t.builtins.bool.toNat < t.size →
    (t.noteAll ds id).1.builtins.bool.toNat < t.size
  | [], _, _, _, _, _, hb => hb
  | d :: ds, t, id, n, hid, hn, hb => by
    have hnext : (id + 1).toNat ≤ n + 1 := by
      exact Nat.le_trans (Nat.mod_le _ _) (Nat.add_le_add_right hid 1)
    rw [List.length_cons] at hn
    rw [noteAll]
    split
    · exact bool_noteAll ds t (id + 1) (n + 1) hnext (by omega) hb
    · have hsize : (t.note id d).size = t.size := rfl
      refine bool_noteAll ds (t.note id d) (id + 1) (n + 1) hnext (by rw [hsize]; omega) ?_
      rw [hsize]
      simp only [note, noteBuiltin]
      split_ifs
      · exact hb
      · split <;> first | exact hb | exact Nat.lt_of_le_of_lt hid (by omega)

theorem of_ofFlat (h : ofFlat f = .ok t) :
    ofFlat t.flatten = .ok t ∧ t.builtins.bool.toNat < t.size := by
  have hf := flatten_ofFlat h
  refine ⟨by rw [hf, h], ?_⟩
  rw [ofFlat] at h
  split_ifs at h with hk
  have hpos : 0 < f.types.length := by
    rw [List.length_pos_iff]
    rintro hn
    simp [hn] at hk
  dsimp only at h
  split at h
  · rename_i t' hn
    cases h
    have hb := bool_noteAll f.types { types := f.types.toArray, objects := f.objects.toArray
                                      tuples := f.tuples.toArray, procs := f.procs.toArray
                                      insts := f.insts.toArray, names := f.names.toArray } 0 0
      (Nat.le_refl _) (by simp [size]) (by simpa [size] using hpos)
    rw [hn] at hb
    have hs : t.size = f.types.length := by
      rw [← hf, flatten, size, Array.length_toList]
    rw [hs]
    simpa [size] using hb
  · cases h

end TypeTable

mutual

def NodeRecord.spans : NodeRecord → List Span
  | .absent => []
  | .node f ks => f.span :: NodeRecord.spansAll ks

def NodeRecord.spansAll : List NodeRecord → List Span
  | [] => []
  | r :: rs => r.spans ++ NodeRecord.spansAll rs

end

namespace DecodeM

variable {α β : Type} {d d' : Decoding}

theorem bind_eq {m : DecodeM α} {f : α → DecodeM β} {b : β} :
    (m >>= f) d = .ok (b, d') ↔ ∃ a d1, m d = .ok (a, d1) ∧ f a d1 = .ok (b, d') := by
  have hb : (m >>= f) d = (m d >>= fun p => f p.1 p.2) := rfl
  rw [hb, bind_eq_ok]
  exact ⟨fun ⟨p, h, hf⟩ => ⟨p.1, p.2, h, hf⟩, fun ⟨a, d1, h, hf⟩ => ⟨(a, d1), h, hf⟩⟩

theorem of_complain (h : complain c d = .ok (a, d')) : d'.wrong ≠ [] := by
  cases h
  simp

/-- The computation looks at what was read so far and changes nothing, unless there is something to
complain of. -/
def Quiet (m : DecodeM α) (Q : Decoding → α → Prop) : Prop :=
  ∀ d a d', m d = .ok (a, d') → d'.wrong = [] → d' = d ∧ Q d a

namespace Quiet

variable {m : DecodeM α} {f : α → DecodeM β} {P : Decoding → α → Prop} {Q : Decoding → β → Prop}

theorem pure (h : ∀ d, P d a) : Quiet (Pure.pure a) P := by
  intro d b d' hb _
  cases hb
  exact ⟨rfl, h d⟩

theorem bind (hm : Quiet m P) (hf : ∀ a, Quiet (f a) fun d b => P d a → Q d b) :
    Quiet (m >>= f) Q := by
  intro d b d' h hw
  obtain ⟨a, d1, hm', hf'⟩ := bind_eq.1 h
  obtain ⟨rfl, hq⟩ := hf a d1 b d' hf' hw
  obtain ⟨rfl, hp⟩ := hm d a d' hm' hw
  exact ⟨rfl, hq hp⟩

theorem mono (hm : Quiet m P) (h : ∀ d a, P d a → R d a) : Quiet m R :=
  fun d a d' hd hw => (hm d a d' hd hw).imp_right (h d a)

theorem get : Quiet MonadState.get fun d a => a = d := by
  intro d a d' h _
  cases h
  exact ⟨rfl, rfl⟩

theorem complain : Quiet (DecodeM.complain c) R :=
  fun _ _ _ h hw => absurd hw (of_complain h)

end Quiet

theorem quiet_symbol (id : UInt32) :
    Quiet (symbol id) fun d r => ∃ s, r = some s ∧ d.known.get? id = some s := by
  refine Quiet.get.bind fun x => ?_
  rcases hk : x.known.get? id with _ | s
  · exact Quiet.complain.bind (P := fun _ _ => False) fun _ => .pure fun _ h => h.elim
  · exact .pure fun d hx => ⟨s, rfl, hx ▸ hk⟩

theorem quiet_checkType (t : TypeId) : Quiet (checkType t) fun d _ => d.unit.HasType t := by
  refine Quiet.get.bind fun x => ?_
  split_ifs with ht
  · exact .complain
  · exact .pure fun d hx => hx ▸ Nat.not_le.1 ht

theorem quiet_checkSpan (s : Span) : Quiet (checkSpan s) fun d _ => d.unit.Locates s := by
  rw [checkSpan]
  split_ifs with hs
  · exact .pure fun d hn => by rw [hs] at hn; cases hn
  · refine Quiet.get.bind fun x => ?_
    split_ifs with ht
    · exact .complain
    · exact .pure fun d hx _ => hx ▸ Nat.not_le.1 ht

theorem quiet_reference (id : UInt32) :
    Quiet (if id = 0 then pure none else symbol id) fun d r => ∀ s, r = some s →
      d.known.get? id = some s := by
  split_ifs
  · exact .pure (by simp)
  · refine (quiet_symbol id).mono ?_
    rintro d r ⟨s, rfl, hs⟩ s' hs'
    cases hs'
    exact hs

theorem reference_bind {id : UInt32} {f : Option SymRef → DecodeM β} :
    (if id = 0 then pure none >>= f else symbol id >>= f) =
      (if id = 0 then pure none else symbol id) >>= f := by
  split_ifs <;> rfl

structure Checked (d : Decoding) (h : Head) : Prop where
  type : d.unit.HasType h.type
  span : d.unit.Locates h.span
  sym : ∀ s, h.sym = some s → ∃ id, d.known.get? id = some s

mutual

theorem quiet_node : ∀ r : NodeRecord, Quiet (node r) fun d n =>
    (∀ h ∈ n.heads, Checked d h) ∧ ∀ s ∈ r.spans, d.unit.Locates s
  | .absent => .pure fun d => by simp [NodeRecord.spans]
  | .node f ks => by
    rw [node]
    have hrest : ∀ kind : NodeKind, Quiet (do
        checkType f.type
        checkSpan f.span
        let sym ← if f.sym = 0 then pure none else symbol f.sym
        return Node.node { kind, type := f.type, span := f.span, sym, int := f.int, str := f.str }
          (← nodes ks)) fun d n =>
          (∀ h ∈ n.heads, Checked d h) ∧ ∀ s ∈ f.span :: NodeRecord.spansAll ks,
            d.unit.Locates s := by
      intro kind
      refine (quiet_checkType f.type).bind fun _ => (quiet_checkSpan f.span).bind fun _ => ?_
      rw [reference_bind]
      refine (quiet_reference f.sym).bind fun sym => (quiet_nodes ks).bind fun ns => .pure ?_
      rintro d ⟨hks, hspans⟩ hsym hspan htype
      exact ⟨List.forall_mem_cons.2 ⟨⟨htype, hspan, fun s hs => ⟨_, hsym s hs⟩⟩, hks⟩,
        List.forall_mem_cons.2 ⟨hspan, hspans⟩⟩
    split
    · exact Quiet.complain.bind (P := fun _ _ => True) fun _ => (hrest _).mono fun _ _ h _ => h
    · exact hrest _

theorem quiet_nodes : ∀ rs : List NodeRecord, Quiet (nodes rs) fun d ns =>
    (∀ h ∈ Node.headsAll ns, Checked d h) ∧ ∀ s ∈ NodeRecord.spansAll rs, d.unit.Locates s
  | [] => .pure fun d => by simp [NodeRecord.spansAll]
  | r :: rs => by
    refine (quiet_node r).bind fun n => (quiet_nodes rs).bind fun ns => .pure ?_
    rintro d ⟨hns, hrs⟩ ⟨hn, hr⟩
    rw [Node.headsAll_cons, NodeRecord.spansAll]
    exact ⟨List.forall_mem_append.2 ⟨hn, hns⟩, List.forall_mem_append.2 ⟨hr, hrs⟩⟩

end

theorem quiet_params : ∀ ids : List UInt32, Quiet (ids.mapM symbol) fun d ps =>
    ∀ p ∈ ps, ∃ s id, p = some s ∧ d.known.get? id = some s
  | [] => .pure fun d => by simp
  | id :: ids => by
    rw [List.mapM_cons]
    refine (quiet_symbol id).bind fun p => (quiet_params ids).bind fun ps => .pure ?_
    rintro d hps ⟨s, rfl, hs⟩
    exact List.forall_mem_cons.2 ⟨⟨s, id, rfl, hs⟩, hps⟩

end DecodeM

theorem OperatorTable.mem_entries {t : OperatorTable} : e ∈ t.entries ↔
    (∃ x ∈ t.user.entries, OpEntry.mk x.1.1 x.1.2 (some x.2) false = e) ∨
      ∃ x ∈ t.disabled.entries, OpEntry.mk x.1.1 x.1.2 none true = e := by
  rw [t.entries_perm.mem_iff, unsorted, List.mem_append, List.mem_map, List.mem_map]

namespace Decoding

/-- What is known of a unit whose symbols are being read: they are found by their numbers, and all
of them can be written. -/
structure Sane (d : Decoding) : Prop where
  files : d.unit.files.Registered
  types : ∃ t, TypeTable.ofFlat d.unit.types.flatten = .ok t
  bool : d.unit.HasType d.unit.types.builtins.bool
  known : ∀ id r, d.known.get? id = some r ↔
    r < d.unit.symbols.all.size ∧ (d.unit.symbols.get r).id = id
  le : ∀ r < d.unit.symbols.all.size, (d.unit.symbols.get r).id ≤ d.unit.symbols.lastId
  holds : ∀ r < d.unit.symbols.all.size, d.unit.Holds (d.unit.symbols.get r)
  owner : ∀ r < d.unit.symbols.all.size, ∀ o, (d.unit.symbols.get r).owner = some o →
    o < d.unit.symbols.all.size

namespace Sane

variable {d d' : Decoding} {r : SymRef}

theorem counted (h : d.Sane) : CompUnit.Counted d.unit.symbols where
  id r hr := (h.holds r hr).id
  le := h.le
  distinct r hr s hs he := by
    have hr' := (h.known _ r).2 ⟨hr, rfl⟩
    have hs' := (h.known _ s).2 ⟨hs, he.symm⟩
    exact Option.some.inj (hr'.symm.trans hs')

theorem sturdy (h : d.Sane) (hr : r < d.unit.symbols.all.size) : d.unit.Sturdy r := by
  intro o ho
  have hlt : o < d.unit.symbols.all.size := by
    induction ho with
    | refl => exact hr
    | tail _ hb ih => exact h.owner _ ih _ hb
  exact h.holds o hlt

theorem sturdy_of_known (h : d.Sane) {id : UInt32} (hk : d.known.get? id = some r) :
    d.unit.Sturdy r :=
  h.sturdy ((h.known id r).1 hk).1

theorem enter (h : d.Sane) {r : SymbolRecord} (hid : r.id ≠ 0) (hk : d.known.get? r.id = none)
    (ht : d.unit.HasType r.type) (hs : d.unit.Locates r.span) : (DecodeM.enter d r).Sane := by
  have hget : ∀ q, (DecodeM.enter d r).unit.symbols.get q =
      if q = d.unit.symbols.all.size then DecodeM.symbolOf r else d.unit.symbols.get q :=
    Symbols.get_add d.unit.symbols (DecodeM.symbolOf r)
  have hsize : (DecodeM.enter d r).unit.symbols.all.size = d.unit.symbols.all.size + 1 :=
    Array.size_push _
  have hnew : d.unit.Holds (DecodeM.symbolOf r) := by
    refine ⟨hid, ?_, ht, hs⟩
    change _ ≤ r.position.toInt64.toInt ∧ r.position.toInt64.toInt ≤ _
    rw [Int32.toInt_toInt64]
    exact ⟨r.position.le_toInt, Int.le_of_lt_add_one r.position.toInt_lt⟩
  have hcases : ∀ q < (DecodeM.enter d r).unit.symbols.all.size,
      q = d.unit.symbols.all.size ∧ (DecodeM.enter d r).unit.symbols.get q = DecodeM.symbolOf r ∨
      q < d.unit.symbols.all.size ∧
        (DecodeM.enter d r).unit.symbols.get q = d.unit.symbols.get q := by
    intro q hq
    rw [hsize] at hq
    rw [hget]
    split_ifs with he
    · exact .inl ⟨he, rfl⟩
    · exact .inr ⟨Nat.lt_of_le_of_ne (Nat.le_of_lt_succ hq) he, rfl⟩
  have hmax : (DecodeM.enter d r).unit.symbols.lastId =
      if d.unit.symbols.lastId ≤ r.id then r.id else d.unit.symbols.lastId := rfl
  refine ⟨h.files, h.types, h.bool, fun id q => ?_, fun q hq => ?_, fun q hq => ?_, fun q hq => ?_⟩
  · change (d.known.insert r.id d.unit.symbols.all.size).get? id = some q ↔ _
    rw [Dict.get?_insert]
    split_ifs with he
    · subst he
      constructor
      · rintro ⟨⟩
        rw [hget, if_pos rfl, hsize]
        exact ⟨Nat.lt_succ_self _, rfl⟩
      · rintro ⟨hq, hqid⟩
        rcases hcases q hq with ⟨rfl, -⟩ | ⟨hlt, hg⟩
        · rfl
        · rw [hg] at hqid
          rw [(h.known r.id q).2 ⟨hlt, hqid⟩] at hk
          cases hk
    · rw [h.known]
      constructor
      · rintro ⟨hq, hqid⟩
        rw [hget, if_neg (Nat.ne_of_lt hq), hsize]
        exact ⟨Nat.lt_succ_of_lt hq, hqid⟩
      · rintro ⟨hq, hqid⟩
        rcases hcases q hq with ⟨-, hg⟩ | ⟨hlt, hg⟩
        · rw [hg] at hqid
          exact absurd hqid he
        · rw [hg] at hqid
          exact ⟨hlt, hqid⟩
  · rw [hmax]
    rcases hcases q hq with ⟨-, hg⟩ | ⟨hlt, hg⟩
    · rw [hg]
      split_ifs with hle
      · exact UInt32.le_refl _
      · exact UInt32.le_of_lt (UInt32.not_le.1 hle)
    · rw [hg]
      split_ifs with hle
      · exact UInt32.le_trans (h.le q hlt) hle
      · exact h.le q hlt
  · rcases hcases q hq with ⟨-, hg⟩ | ⟨hlt, hg⟩
    · rw [hg]
      exact { hnew with }
    · rw [hg]
      exact { h.holds q hlt with }
  · intro o ho
    rw [hsize]
    rcases hcases q hq with ⟨-, hg⟩ | ⟨hlt, hg⟩
    · rw [hg] at ho
      cases ho
    · rw [hg] at ho
      exact Nat.lt_succ_of_lt (h.owner q hlt o ho)

theorem update (h : d.Sane) (hf : d'.unit.files = d.unit.files) (ht : d'.unit.types = d.unit.types)
    (hk : d'.known = d.known) (hl : d'.unit.symbols.lastId = d.unit.symbols.lastId)
    (hz : d'.unit.symbols.all.size = d.unit.symbols.all.size)
    (hs : ∀ r < d.unit.symbols.all.size, ∃ o f,
      d'.unit.symbols.get r = { d.unit.symbols.get r with owner := o, flags := f } ∧
        ∀ x, o = some x → x < d.unit.symbols.all.size) : d'.Sane where
  files := hf ▸ h.files
  types := ht ▸ h.types
  bool := by
    rw [CompUnit.HasType, ht]
    exact h.bool
  known id r := by
    rw [hk, h.known, hz]
    refine and_congr_right fun hr => ?_
    obtain ⟨o, f, hg, -⟩ := hs r hr
    rw [hg]
  le r hr := by
    rw [hz] at hr
    obtain ⟨o, f, hg, -⟩ := hs r hr
    rw [hg, hl]
    exact h.le r hr
  holds r hr := by
    rw [hz] at hr
    obtain ⟨o, f, hg, -⟩ := hs r hr
    have hh := h.holds r hr
    rw [hg]
    refine ⟨hh.id, hh.position, ?_, ?_⟩
    · rw [CompUnit.HasType, ht]
      exact hh.type
    · rw [CompUnit.Locates, hf]
      exact hh.span
  owner r hr x hx := by
    rw [hz] at hr ⊢
    obtain ⟨o, f, hg, ho⟩ := hs r hr
    rw [hg] at hx
    exact ho x hx

end Sane

structure SaneOps (d : Decoding) : Prop extends d.Sane where
  user : d.unit.ops.table.user.keys.Nodup
  disabled : d.unit.ops.table.disabled.keys.Nodup
  ops : ∀ e ∈ d.unit.ops.table.entries, d.unit.HoldsOp e
  operators : ∀ op, d.unit.ops.IsOperator op → op < d.unit.symbols.all.size

namespace SaneOps

variable {d : Decoding} {t : TypeId} {kind : OpKind}

theorem disable (h : d.SaneOps) (ht : d.unit.HasType t) (hk : kind ∈ OpKind.named) :
    SaneOps { d with unit.ops := d.unit.ops.disable t kind } where
  toSane := { h.toSane with holds := fun r hr => { h.holds r hr with } }
  user := h.user
  disabled := Dict.nodup_insert h.disabled
  ops := by
    intro e he
    rcases OperatorTable.mem_entries.1 he with ⟨x, hx, rfl⟩ | ⟨x, hx, rfl⟩
    · exact { h.ops _ (OperatorTable.mem_entries.2 (.inl ⟨x, hx, rfl⟩)) with }
    · rcases Dict.mem_of_mem_insert hx with rfl | hx
      · exact ⟨ht, hk, nofun⟩
      · exact { h.ops _ (OperatorTable.mem_entries.2 (.inr ⟨x, hx, rfl⟩)) with }
  operators := by
    rintro op (hop | ⟨k, hk⟩ | hop | hop)
    · exact h.operators op (.inl hop)
    · cases hk
    · exact h.operators op (.inr (.inr (.inl hop)))
    · exact h.operators op (.inr (.inr (.inr hop)))

theorem register (h : d.SaneOps) (ht : d.unit.HasType t) (hk : kind ∈ OpKind.named) {op : SymRef}
    (hop : op < d.unit.symbols.all.size) :
    SaneOps { d with unit.ops := d.unit.ops.register t kind op } := by
  have hget := fun q => Symbols.get_modify d.unit.symbols op q
    (fun s => { s with flags := s.flags.union .overridden }) hop
  have hsize := Symbols.size_modify d.unit.symbols op
    (fun s => { s with flags := s.flags.union .overridden })
  have hsane : Sane { d with unit.ops := d.unit.ops.register t kind op } := by
    refine h.toSane.update rfl rfl rfl rfl hsize fun q hq => ?_
    have hg := hget q
    split_ifs at hg with he
    · subst he
      exact ⟨_, _, hg, h.owner op hop⟩
    · exact ⟨_, _, hg, h.owner q hq⟩
  -- an operator that was declared still is
  have hdeclared : ∀ q, (d.unit.symbols.get q).has .overridden = true ∨ q = op →
      ((d.unit.ops.register t kind op).symbols.get q).has .overridden = true := by
    intro q hq
    change ((d.unit.symbols.modify op _).get q).has _ = true
    rw [hget]
    split_ifs with he
    · have ho : SymFlags.overridden.has .overridden = true := by decide
      simp [Symbol.has, SymFlags.has_union, ho]
    · exact hq.resolve_right (Ne.symm he)
  refine ⟨hsane, Dict.nodup_insert h.user, h.disabled, fun e he => ?_, ?_⟩
  · rcases OperatorTable.mem_entries.1 he with ⟨x, hx, rfl⟩ | ⟨x, hx, rfl⟩
    · rcases Dict.mem_of_mem_insert hx with rfl | hx
      · refine ⟨ht, hk, fun r hr => ?_⟩
        cases hr
        exact hdeclared _ (.inr rfl)
      · have := h.ops _ (OperatorTable.mem_entries.2 (.inl ⟨x, hx, rfl⟩))
        exact ⟨this.type, this.kind, fun r hr => hdeclared r (.inl (this.declared r hr))⟩
    · have := h.ops _ (OperatorTable.mem_entries.2 (.inr ⟨x, hx, rfl⟩))
      exact ⟨this.type, this.kind, by simp⟩
  · rintro q hq
    change q < (d.unit.symbols.modify op _).all.size
    rw [hsize]
    rcases hq with ⟨k, hq⟩ | ⟨k, hq⟩ | hq | hq
    · have hq : (d.unit.ops.table.user.insert (t, kind) op).get? k = some q := hq
      rw [Dict.get?_insert] at hq
      split_ifs at hq
      · cases hq
        exact hop
      · exact h.operators q (.inl ⟨k, hq⟩)
    · cases hq
    · exact h.operators q (.inr (.inr (.inl hq)))
    · exact h.operators q (.inr (.inr (.inr hq)))

end SaneOps

end Decoding

namespace DecodeM

open Decoding

variable {x : Routine}

def Keeps (I : Decoding → Prop) (m : DecodeM Unit) : Prop :=
  ∀ d d', m d = .ok ((), d') → d'.wrong = [] → d.wrong = [] ∧ (I d → I d')

theorem keeps_forM {α : Type} {I : Decoding → Prop} {f : α → DecodeM Unit}
    (h : ∀ x, Keeps I (f x)) (xs : List α) : Keeps I (xs.forM f) := by
  induction xs with
  | nil =>
    intro d d' hd hw
    cases hd
    exact ⟨hw, fun h => h⟩
  | cons x xs ih =>
    intro d d' hd hw
    obtain ⟨⟨⟩, d1, h1, h2⟩ := bind_eq.1 hd
    obtain ⟨hw1, hi1⟩ := ih d1 d' h2 hw
    obtain ⟨hw0, hi0⟩ := h x d d1 h1 hw1
    exact ⟨hw0, fun hi => hi1 (hi0 hi)⟩

theorem addSymbol_cases (h : addSymbol r d = .ok ((), d')) (hw : d'.wrong = []) :
    d' = enter d r ∧ r.id ≠ 0 ∧ d.known.get? r.id = none ∧
      d.unit.HasType r.type ∧ d.unit.Locates r.span := by
  rw [addSymbol] at h
  split_ifs at h with hid
  · exact absurd hw (of_complain h)
  · obtain ⟨x, d1, hx, h⟩ := bind_eq.1 h
    cases hx
    split_ifs at h with hk
    · exact absurd hw (of_complain h)
    · obtain ⟨_, d1, ht, h⟩ := bind_eq.1 h
      obtain ⟨_, d2, hs, h⟩ := bind_eq.1 h
      have he : d' = enter d2 r := by
        cases h
        rfl
      have hw2 : d2.wrong = [] := by
        rw [he] at hw
        exact hw
      obtain ⟨rfl, hs⟩ := quiet_checkSpan r.span _ _ _ hs hw2
      obtain ⟨rfl, ht⟩ := quiet_checkType r.type _ _ _ ht hw2
      rw [Dict.contains, Bool.not_eq_true, Option.isSome_eq_false_iff, Option.isNone_iff_eq_none]
        at hk
      exact ⟨he, hid, hk, ht, hs⟩

theorem keeps_addSymbol (r : SymbolRecord) :
    Keeps (fun d => d.Sane ∧ d.unit.ops.table = {} ∧ d.unit.routines = []) (addSymbol r) := by
  intro d d' h hw
  obtain ⟨rfl, hid, hk, ht, hs⟩ := addSymbol_cases h hw
  exact ⟨hw, fun ⟨hd, htable, hroutines⟩ => ⟨hd.enter hid hk ht hs, htable, hroutines⟩⟩

theorem linkOwner_cases (h : linkOwner r d = .ok ((), d')) (hw : d'.wrong = []) :
    d' = d ∨ ∃ ref s, d.known.get? r.id = some ref ∧ d.known.get? r.owner = some s ∧ d' = { d with
        unit.ops.symbols := d.unit.symbols.modify ref fun s' => { s' with owner := some s } } := by
  rw [linkOwner] at h
  split_ifs at h with hid
  · cases h
    exact .inl rfl
  · obtain ⟨x, d1, hx, h⟩ := bind_eq.1 h
    cases hx
    rcases hk : d.known.get? r.id with _ | ref
    · rw [hk] at h
      cases h
      exact .inl rfl
    · rw [hk] at h
      obtain ⟨o, d1, ho, h⟩ := bind_eq.1 h
      have hw1 : d1.wrong = [] := by
        cases h
        exact hw
      obtain ⟨rfl, s, rfl, hs⟩ := quiet_symbol r.owner _ _ _ ho hw1
      cases h
      exact .inr ⟨ref, s, rfl, hs, rfl⟩

theorem keeps_linkOwner (r : SymbolRecord) :
    Keeps (fun d => d.Sane ∧ d.unit.ops.table = {} ∧ d.unit.routines = []) (linkOwner r) := by
  intro d d' h hw
  obtain rfl | ⟨ref, s, hk, hs, rfl⟩ := linkOwner_cases h hw
  · exact ⟨hw, fun h => h⟩
  · refine ⟨hw, fun ⟨hd, htable, hroutines⟩ => ⟨?_, htable, hroutines⟩⟩
    have href := ((hd.known _ _).1 hk).1
    refine hd.update rfl rfl rfl rfl (Symbols.size_modify _ _ _) fun q hq => ?_
    have hg := Symbols.get_modify d.unit.symbols ref q (fun s' => { s' with owner := some s }) href
    split_ifs at hg with he
    · subst he
      exact ⟨some s, _, hg, fun x hx => by cases hx; exact ((hd.known _ _).1 hs).1⟩
    · exact ⟨_, _, hg, fun x hx => hd.owner q hq x hx⟩

theorem addOp_cases (h : addOp r d = .ok ((), d')) (hw : d'.wrong = []) :
    ∃ kind ∈ OpKind.named, d.unit.HasType r.type ∧
      (d' = { d with unit.ops := d.unit.ops.disable r.type kind } ∨
        ∃ s, d.known.get? r.op = some s ∧
          d' = { d with unit.ops := d.unit.ops.register r.type kind s }) := by
  by_cases hk : OpKind.ofCode r.kind ∈ OpKind.named
  · refine ⟨_, hk, ?_⟩
    rw [addOp_eq hk] at h
    obtain ⟨_, d1, ht, h1⟩ := bind_eq.1 h
    split_ifs at h1
    · cases h1
      obtain ⟨rfl, ht⟩ := quiet_checkType r.type _ _ _ ht hw
      exact ⟨ht, .inl rfl⟩
    · obtain ⟨op, d2, hop, h2⟩ := bind_eq.1 h1
      have hw2 : d2.wrong = [] := by
        cases op <;> cases h2 <;> exact hw
      obtain ⟨rfl, s, rfl, hs⟩ := quiet_symbol r.op _ _ _ hop hw2
      obtain ⟨rfl, ht⟩ := quiet_checkType r.type _ _ _ ht hw2
      cases h2
      exact ⟨ht, .inr ⟨s, hs, rfl⟩⟩
  · unfold addOp at h
    cases hc : OpKind.ofCode r.kind with
    | other c _ =>
      rw [hc] at h
      exact absurd hw (of_complain h)
    | _ => exact absurd (by rw [hc]; decide) hk

theorem keeps_addOp (r : OpRecord) :
    Keeps (fun d => d.SaneOps ∧ d.unit.routines = []) (addOp r) := by
  intro d d' h hw
  obtain ⟨kind, hkind, ht, rfl | ⟨s, hs, rfl⟩⟩ := addOp_cases h hw
  · exact ⟨hw, fun ⟨hd, hroutines⟩ => ⟨hd.disable ht hkind, hroutines⟩⟩
  · exact ⟨hw, fun ⟨hd, hroutines⟩ => ⟨hd.register ht hkind ((hd.known _ _).1 hs).1, hroutines⟩⟩

structure CheckedRoutine (d : Decoding) (x : Routine) : Prop where
  sym : ∃ s id, x.sym = some s ∧ d.known.get? id = some s
  params : ∀ p ∈ x.params, ∃ s id, p = some s ∧ d.known.get? id = some s
  result : ∀ s, x.result = some s → ∃ id, d.known.get? id = some s
  heads : ∀ h ∈ x.body.heads, Checked d h
  body : x.body = .hole ∨ x.body.WellFormed d.unit.symbols

theorem CheckedRoutine.lasting (h : CheckedRoutine d x) (hd : d.Sane) : d.unit.Lasting x := by
  refine ⟨⟨?_, ?_, h.body, fun a ha => (h.heads a ha).type, fun a ha => (h.heads a ha).span⟩, ?_⟩
  · obtain ⟨s, id, hs, -⟩ := h.sym
    simp [hs]
  · intro hn
    obtain ⟨s, id, hs, -⟩ := h.params _ hn
    cases hs
  · intro r hr
    rcases Routine.mem_mentions.1 hr with hr | ⟨a, ha, hs⟩ | hr | hr
    · obtain ⟨s, id, hs, hk⟩ := h.sym
      cases hr.symm.trans hs
      exact hd.sturdy_of_known hk
    · obtain ⟨id, hk⟩ := (h.heads a ha).sym r hs
      exact hd.sturdy_of_known hk
    · obtain ⟨s, id, hs, hk⟩ := h.params _ hr
      cases hs
      exact hd.sturdy_of_known hk
    · obtain ⟨id, hk⟩ := h.result r hr
      exact hd.sturdy_of_known hk

theorem CheckedRoutine.relabel (h : CheckedRoutine d x) (next : Nat) :
    CheckedRoutine d { x with body := (x.body.relabel next).1 } := by
  refine ⟨h.sym, h.params, h.result, Node.heads_relabel (fun a s ha => ⟨ha.type, ha.span, ha.sym⟩)
    h.heads, h.body.imp (fun hb => ?_) fun hb => Node.wellFormed_relabel.2 hb⟩
  rw [hb]
  rfl

theorem CheckedRoutine.workable (h : CheckedRoutine d x) (hd : d.Sane) (hu : d.unit.Workable) :
    (d.unit.addFresh x).Workable := by
  have hl : d.unit.Later (d.unit.addFresh x) := ⟨rfl, rfl, .refl _⟩
  have hroom : d.unit.HasRoom (d.unit.addFresh x) := by
    change _ + (d.unit.symbols.all.size - d.unit.symbols.all.size) < _
    rw [Nat.sub_self]
    exact d.unit.symbols.lastId.toNat_lt
  refine hl.workable hroom hu fun y hy => ?_
  rcases List.mem_append.1 hy with hy | hy
  · exact hl.lasting (hu.routines y hy)
  · rw [List.mem_singleton.1 hy]
    exact hl.lasting ((h.relabel d.unit.sites).lasting hd)

theorem addRoutine_cases (h : addRoutine r d = .ok ((), d'))
    (hw : d'.wrong = []) : ∃ x, CheckedRoutine d x ∧ (∀ s ∈ r.body.spans, d.unit.Locates s) ∧
      d' = { d with unit := d.unit.addFresh x } := by
  obtain ⟨sym, d1, h1, h⟩ := bind_eq.1 h
  obtain ⟨body, d2, h2, h⟩ := bind_eq.1 h
  obtain ⟨params, d3, h3, h⟩ := bind_eq.1 h
  rw [reference_bind] at h
  obtain ⟨result, d4, h4, h⟩ := bind_eq.1 h
  obtain ⟨x, d5, hx, h⟩ := bind_eq.1 h
  cases hx
  -- the tree is looked at last; then the routine is added to what was read before
  have hlast : (body = .hole ∨ body.WellFormed d4.unit.symbols) ∧
      d' = { d4 with unit := d4.unit.addFresh { sym, params, result, body } } := by
    split_ifs at h with hhole
    · obtain ⟨defects, d5, hdef, h⟩ := bind_eq.1 h
      rcases hb : body.defects d4.unit.symbols with e | ds
      · rw [hb] at hdef
        cases hdef
      · rw [hb] at hdef
        cases hdef
        split_ifs at h with hds
        · obtain ⟨_, d5, hc, h⟩ := bind_eq.1 h
          cases hc
          cases h
          simp at hw
        · cases h
          refine ⟨.inr ?_, rfl⟩
          rw [Node.WellFormed, hb]
          simpa using hds
    · cases h
      refine ⟨.inl ?_, rfl⟩
      cases body with
      | hole => rfl
      | node hd ks => exact absurd rfl hhole
  obtain ⟨hwf, rfl⟩ := hlast
  obtain ⟨rfl, hresult⟩ := quiet_reference r.result _ _ _ h4 hw
  obtain ⟨rfl, hparams⟩ := quiet_params r.params _ _ _ h3 hw
  obtain ⟨rfl, hbody, hspans⟩ := quiet_node r.body _ _ _ h2 hw
  obtain ⟨rfl, s, rfl, hsym⟩ := quiet_symbol r.sym _ _ _ h1 hw
  exact ⟨_, ⟨⟨s, _, rfl, hsym⟩, hparams, fun q hq => ⟨_, hresult q hq⟩, hbody, hwf⟩, hspans, rfl⟩

theorem keeps_addRoutine (r : RoutineRecord) :
    Keeps (fun d => d.Sane ∧ d.unit.Workable) (addRoutine r) := by
  intro d d' h hw
  obtain ⟨x, hx, -, rfl⟩ := addRoutine_cases h hw
  exact ⟨hw, fun ⟨hd, hu⟩ => ⟨{ hd with holds := fun q hq => { hd.holds q hq with } },
    hx.workable hd hu⟩⟩

theorem keeps_all (r : UnitRecord) (h : all r d = .ok ((), d')) (hw : d'.wrong = []) (hd : d.Sane)
    (ht : d.unit.ops.table = {}) (hr : d.unit.routines = []) : d'.unit.Workable := by
  obtain ⟨⟨⟩, d1, h1, h⟩ := bind_eq.1 h
  obtain ⟨⟨⟩, d2, h2, h⟩ := bind_eq.1 h
  obtain ⟨⟨⟩, d3, h3, h4⟩ := bind_eq.1 h
  obtain ⟨hw3, k4⟩ := keeps_forM keeps_addRoutine r.routines d3 d' h4 hw
  obtain ⟨hw2, k3⟩ := keeps_forM keeps_addOp r.ops d2 d3 h3 hw3
  obtain ⟨hw1, k2⟩ := keeps_forM keeps_linkOwner r.symbols d1 d2 h2 hw2
  obtain ⟨-, k1⟩ := keeps_forM keeps_addSymbol r.symbols d d1 h1 hw1
  obtain ⟨hs2, ht2, hr2⟩ := k2 (k1 ⟨hd, ht, hr⟩)
  have hops : d2.SaneOps := by
    refine ⟨hs2, ?_, ?_, ?_, ?_⟩
    · rw [ht2]
      exact List.nodup_nil
    · rw [ht2]
      exact List.nodup_nil
    · intro e he
      rw [OperatorTable.mem_entries, ht2] at he
      rcases he with ⟨x, hx, -⟩ | ⟨x, hx, -⟩ <;> cases hx
    · rintro op (⟨k, hk⟩ | ⟨k, hk⟩ | ⟨k, hk⟩ | ⟨k, hk⟩)
      all_goals
        rw [ht2] at hk
        cases hk
  obtain ⟨hs3, hr3⟩ := k3 ⟨hops, hr2⟩
  refine (k4 ⟨hs3.toSane, ?_⟩).2
  exact ⟨hs3.files, hs3.types, hs3.bool, hs3.counted, hs3.user, hs3.disabled, hs3.ops,
    fun op hop => hs3.sturdy (hs3.operators op hop), by simp [hr3]⟩

end DecodeM

theorem UnitRecord.unit_cases (h : r.unit = .ok (.ok u)) :
    ∃ types d, TypeTable.ofFlat r.types = .ok types ∧
      DecodeM.all r { unit := { name := r.name, files := .ofList r.files, types } } = .ok ((), d) ∧
      d.wrong = [] ∧ u = d.unit := by
  rw [UnitRecord.unit] at h
  rcases ht : TypeTable.ofFlat r.types with ds | types
  · rw [ht] at h
    cases h
  · rw [ht] at h
    obtain ⟨⟨⟨⟩, d⟩, hd, h⟩ := bind_eq_ok.1 h
    have h := pure_eq_ok.1 h
    split_ifs at h with hw
    cases h
    exact ⟨types, d, rfl, hd, List.isEmpty_iff.1 hw, rfl⟩

namespace CompUnit

/-- A file that is accepted gives a unit that can be worked through and written. -/
theorem workable_of_decode (h : decode t = .ok (.ok u)) : u.Workable := by
  rw [decode] at h
  rcases hp : UnitRecord.parse? t with _ | r
  · rw [hp] at h
    cases h
  · rw [hp] at h
    dsimp only at h
    split_ifs at h
    · obtain ⟨types, d, ht, hd, hw, rfl⟩ := UnitRecord.unit_cases h
      obtain ⟨hflat, hbool⟩ := TypeTable.of_ofFlat ht
      refine DecodeM.keeps_all r hd hw ?_ rfl rfl
      have hnone : ∀ s, ¬ s < (0 : Nat) := Nat.not_lt_zero
      exact ⟨FileSet.registered_ofList _, ⟨types, hflat⟩, hbool,
        fun _ s => iff_of_false nofun fun hk => hnone s hk.1,
        fun s hs => (hnone s hs).elim, fun s hs => (hnone s hs).elim,
        fun s hs => (hnone s hs).elim⟩
    · cases h

end CompUnit

end Lifecycle
