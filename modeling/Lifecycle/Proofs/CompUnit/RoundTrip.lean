import Lifecycle.Proofs.CompUnit.Decoding
import Lifecycle.Proofs.CompUnit.Record

/-!
# Written units and read units

A unit that can be stored is written, and reading the bytes gives the unit back. Symbols are found
again by their numbers: each gets one place in the unit that is read, and every reference to the
symbol becomes a reference to that place.
-/

namespace Lifecycle

namespace CompUnit

/-- No text and no list of what is written of a unit is longer than the format can say. -/
def Compact (u : CompUnit) : Prop := ∀ r ∈ u.record.toOption, (Packed.unit r).Short

theorem compact_of_encode {u : CompUnit} {bytes : Text} (h : u.encode = .ok bytes)
    (hb : bytes.size < UInt32.size) : u.Compact := by
  intro r hr
  rw [encode] at h
  cases hrec : u.record <;> rw [hrec] at h hr <;> cases hr
  cases h
  refine Packed.short_of_bytes _ ?_
  rwa [← Text.length_toList, Text.toList_ofList] at hb

/-- Two units that differ only in where their symbols stand: `f` says where a symbol of the first
stands in the second. The second has no symbols but those. -/
structure SameUpTo (f : SymRef → SymRef) (u u' : CompUnit) : Prop where
  name : u'.name = u.name
  files : u'.files = u.files
  types : u'.types.flatten = u.types.flatten
  entries : u'.ops.table.entries = u.ops.table.entries.map (OpEntry.rename f)
  routines : u'.routines.map (Routine.rename id) = u.routines.map (Routine.rename f)
  symbols : ∀ r, u.Names r → u'.symbols.get (f r) = renamed f (u.symbols.get r)
  injective : ∀ r s, u.Names r → u.Names s → f r = f s → r = s
  surjective : ∀ s < u'.symbols.all.size, ∃ r, u.Names r ∧ f r = s

variable {u : CompUnit}

theorem ReadRoutines.sameUpTo (hw : u.Written rs)
    (h : u.ReadRoutines rs u.routines d) : SameUpTo (place u.symbols rs) u d.unit where
  name := h.name
  files := h.files
  types := h.types
  entries := h.entries
  routines := h.routines
  symbols := h.symbols
  injective := fun _ _ hr hs he => hw.place_inj hr hs he
  surjective := by
    intro s hs
    rw [h.size] at hs
    have hr : u.Names rs[s] := (hw.mem _).1 (List.getElem_mem hs)
    refine ⟨rs[s], hr, ?_⟩
    have hp : rs[s]? = rs[place u.symbols rs rs[s]]? := by
      rw [hw.getElem?_place hr, List.getElem?_eq_getElem hs]
    exact ((List.getElem?_inj hs hw.nodup).1 hp).symm

theorem Storable.readBack (h : u.Storable) (hc : u.Compact) :
    ∃ bytes rs d, u.Written rs ∧ u.encode = .ok bytes ∧ CompUnit.decode bytes = .ok (.ok d.unit) ∧
      u.ReadRoutines rs u.routines d := by
  obtain ⟨rs, hn, hm, hr⟩ := h.record
  have hw : u.Written rs := ⟨h, hn, hm⟩
  obtain ⟨d, hd, hread⟩ := unit_recordOf hw
  have hshort : (Packed.unit (u.recordOf rs)).Short := hc _ (by rw [hr]; rfl)
  refine ⟨.ofList (Packed.unit (u.recordOf rs)).bytes, rs, d, hw, ?_, ?_, hread⟩
  · rw [encode, hr]
    rfl
  · rw [decode, UnitRecord.parse?_bytes hshort]
    exact hd

/-- A unit that can be stored is written without an error, and reading the bytes gives back a unit
that is the same up to the places of its symbols. -/
theorem decode_encode (h : u.Storable) (hc : u.Compact) :
    ∃ bytes u' f, u.encode = .ok bytes ∧ CompUnit.decode bytes = .ok (.ok u') ∧
      SameUpTo f u u' := by
  obtain ⟨bytes, rs, d, hw, he, hd, hread⟩ := h.readBack hc
  exact ⟨bytes, d.unit, place u.symbols rs, he, hd, hread.sameUpTo hw⟩

/-! ## A unit with an operator and a routine -/

def sample : CompUnit where
  name := "sample"
  files := .ofList ["lib/../f.nim"]
  ops.symbols.all := #[
    { id := 7, name := "f", kind := .proc, span := ⟨0, 1, 1⟩ },
    { id := 9, name := "x", kind := .param, owner := some 0, type := 7, flags := .sink },
    { id := 3, name := "=destroy", kind := .proc, flags := .overridden }]
  ops.table.user := ⟨[((7, .destroy), 2)]⟩
  ops.table.disabled := ⟨[((7, .copy), ())]⟩
  routines := [{ sym := some 0, params := [some 1]
                 body := .node { kind := .discardStmt, span := ⟨0, 1, 8⟩ }
                   [.node { kind := .sym, type := 7, sym := some 1 } []] }]

theorem entries_sample : sample.ops.table.entries =
    [⟨7, .destroy, some 2, false⟩, ⟨7, .copy, none, true⟩] :=
  List.mergeSort_of_pairwise (by decide)

theorem mentions_sample : sample.mentions = [some 2, none, some 0, none, some 1, some 1, none] := by
  rw [mentions, entries_sample]
  rfl

theorem names_sample (h : sample.Names r) : r = 0 ∨ r = 1 ∨ r = 2 := by
  induction h with
  | mention hm =>
    simp only [mentions_sample, List.mem_cons, Option.some.injEq] at hm
    tauto
  | owner _ ho ih =>
    rcases ih with rfl | rfl | rfl
    · cases ho
    · cases ho
      exact .inl rfl
    · cases ho

theorem storable_sample : sample.Storable where
  files := FileSet.registered_ofList _
  types := ⟨_, rfl⟩
  user := by decide
  disabled := by decide
  symbols := by
    intro r hr
    rcases names_sample hr with rfl | rfl | rfl
    all_goals exact ⟨by decide, by decide, by unfold HasType; decide, by unfold Locates; decide⟩
  distinct := by
    intro r s hr hs
    rcases names_sample hr with rfl | rfl | rfl <;> rcases names_sample hs with rfl | rfl | rfl <;>
      decide
  ops := by
    rw [entries_sample]
    intro e he
    simp only [List.mem_cons, List.not_mem_nil, or_false] at he
    rcases he with rfl | rfl
    · exact ⟨by unfold HasType; decide, by decide, by rintro r ⟨⟩; decide⟩
    · exact ⟨by unfold HasType; decide, by decide, by rintro r ⟨⟩⟩
  routines := by
    intro x hx
    rw [List.mem_singleton.1 hx]
    refine ⟨by simp, by simp, .inr rfl, ?_, ?_⟩
    · unfold HasType
      decide
    · unfold Locates
      decide

theorem record_sample : sample.record = .ok (sample.recordOf [2, 0, 1]) := by
  have he : sample.mentions.foldl (Encoding.note sample.symbols) {} =
      { known := ⟨[(3, 2), (7, 0), (9, 1)]⟩ } := by
    rw [mentions_sample]
    rfl
  have hk : List.mergeSort [((3 : UInt32), (2 : SymRef)), (7, 0), (9, 1)]
      (fun a b => decide (a.1 ≤ b.1)) = [(3, 2), (7, 0), (9, 1)] :=
    List.mergeSort_of_pairwise (by decide)
  unfold record
  simp only [encoding_eq, he, hk]
  rfl

theorem compact_sample : sample.Compact := by
  intro r hr
  rw [record_sample] at hr
  cases hr
  rw [recordOf, entries_sample]
  exact Packed.short_of_bytes _ (by decide +kernel)

/-- The sample unit is written and read back. -/
theorem decode_encode_sample : sample.Storable ∧ sample.Compact ∧
    ∃ bytes u' f, sample.encode = .ok bytes ∧ CompUnit.decode bytes = .ok (.ok u') ∧
      SameUpTo f sample u' :=
  ⟨storable_sample, compact_sample, decode_encode storable_sample compact_sample⟩

end CompUnit

end Lifecycle
