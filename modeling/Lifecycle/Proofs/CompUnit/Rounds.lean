import Lifecycle.Proofs.CompUnit.Reading
import Lifecycle.Proofs.CompUnit.RoundTrip

/-!
# Round after round

A unit that was read can be worked through, written and read again, any number of times. Only the
numbers of its symbols can run out.
-/

namespace Lifecycle

namespace CompUnit

/-- What comes of a unit by working through it, round after round. In between it may be written and
read back. -/
inductive Reworked (u : CompUnit) : CompUnit → Prop
  | start : Reworked u u
  | round {v : CompUnit} {options : RunOptions} {trace : TraceLog} {res : UnitResult} :
      Reworked u v → v.run options trace = .ok res → v.HasRoom res.unit → Reworked u res.finished
  | reread {v w : CompUnit} {bytes : Text} :
      Reworked u v → v.encode = .ok bytes → CompUnit.decode bytes = .ok (.ok w) → Reworked u w

variable {t : Text} {u v : CompUnit}

theorem Reworked.workable (hu : u.Workable) (h : u.Reworked v) : v.Workable := by
  induction h with
  | start => exact hu
  | round _ hr hroom ih => exact ih.finished hr hroom
  | reread _ _ hd _ => exact workable_of_decode hd

/-- A unit that was read and worked through, however often, can be worked through again, and it is
written to a file that is accepted if nothing in it is too long for the format. -/
theorem accepted_of_reworked (h : CompUnit.decode t = .ok (.ok u)) (hv : u.Reworked v) :
    (∀ options trace, (∀ name, options.expand name = false) →
      ∃ res, v.run options trace = .ok res) ∧
    ∃ bytes, v.encode = .ok bytes ∧ (bytes.size < UInt32.size → v.Compact) ∧
      (v.Compact → ∃ w, CompUnit.decode bytes = .ok (.ok w)) := by
  have hw := hv.workable (workable_of_decode h)
  refine ⟨fun options trace he => hw.exists_run trace he, ?_⟩
  obtain ⟨rs, -, -, hr⟩ := hw.storable.record
  have hb : v.encode = .ok (.ofList (Packed.unit (v.recordOf rs)).bytes) := by rw [encode, hr]; rfl
  refine ⟨_, hb, compact_of_encode hb, fun hc => ?_⟩
  obtain ⟨bytes, -, d, -, he, hd, -⟩ := hw.storable.readBack hc
  cases he.symm.trans hb
  exact ⟨d.unit, hd⟩

/-! ## Two rounds -/

def callerRecord : UnitRecord where
  schema := schemaVersion
  name := "caller"
  files := ["f.nim"]
  types := TypeTable.initial.flatten
  symbols := [{ id := 3, name := "=destroy", kind := SymKind.proc.code },
    { id := 7, name := "f", kind := SymKind.proc.code, span := ⟨0, 1, 1⟩ }]
  ops := [{ type := 7, kind := OpKind.destroy.code, op := 3 }]
  routines := [⟨7, [], 0, .node { kind := NodeKind.discardStmt.code }
    [.node { kind := NodeKind.call.code, type := 7 }
      [.node { kind := NodeKind.sym.code, sym := 7 } []]]⟩]

def callerFile : Text := .ofList (Packed.unit callerRecord).bytes

theorem decode_callerFile : CompUnit.decode callerFile = callerRecord.unit := by
  rw [decode, callerFile, UnitRecord.parse?_bytes (Packed.short_of_bytes _ (by decide +kernel))]
  rfl

/-- The first round makes up a symbol for the text, and both rounds come to an end. -/
theorem caller_rounds : ∃ u res res', callerRecord.unit = .ok (.ok u) ∧ u.run {} {} = .ok res ∧
    u.symbols.all.size < res.unit.symbols.all.size ∧ u.HasRoom res.unit ∧
    res.finished.run {} {} = .ok res' ∧ res.finished.HasRoom res'.unit := by
  obtain ⟨x, hx, h⟩ := exists_ok (x := callerRecord.unit) (p := fun x => x.toOption.any fun u =>
    (u.run {} {}).toOption.any fun res => (res.finished.run {} {}).toOption.any fun res' => decide
      (u.symbols.all.size < res.unit.symbols.all.size ∧ u.HasRoom res.unit ∧
        res.finished.HasRoom res'.unit)) (by decide +kernel)
  obtain ⟨u, rfl, hu⟩ := exists_ok h
  obtain ⟨res, hres, h⟩ := exists_ok hu
  obtain ⟨res', hres', h⟩ := exists_ok h
  obtain ⟨hnew, hroom, hroom'⟩ := of_decide_eq_true h
  exact ⟨u, res, res', hx, hres, hnew, hroom, hres', hroom'⟩

/-- The file is accepted, and after two rounds the unit can be worked through and written. -/
theorem accepted_of_reworked_caller : ∃ u v, CompUnit.decode callerFile = .ok (.ok u) ∧
    u.Reworked v ∧
    (∀ options trace, (∀ name, options.expand name = false) →
      ∃ res, v.run options trace = .ok res) ∧
    ∃ bytes, v.encode = .ok bytes ∧ (bytes.size < UInt32.size → v.Compact) ∧
      (v.Compact → ∃ w, CompUnit.decode bytes = .ok (.ok w)) := by
  obtain ⟨u, res, res', hu, hres, -, hroom, hres', hroom'⟩ := caller_rounds
  have hd := decode_callerFile.trans hu
  have hv : u.Reworked res'.finished := .round (.round .start hres hroom) hres' hroom'
  exact ⟨u, res'.finished, hd, hv, accepted_of_reworked hd hv⟩

end CompUnit

end Lifecycle
