import Lifecycle.Proofs.CompUnit.Rounds

/-!
# The numbers of new symbols

A run numbers the symbols that it makes up one after another, from the largest number in the file
on. Numbers are words, so the numbers are new just as long as there is room for all of them: the
first one too many is zero, and the next ones are given out a second time.
-/

namespace Lifecycle

namespace CompUnit

variable {t : Text} {u u' : CompUnit} {options : RunOptions} {trace : TraceLog} {res : UnitResult}

/-- The symbols from `n` on have numbers of their own. -/
def NumberedFrom (ss : Symbols) (n : Nat) : Prop :=
  ∀ r, n ≤ r → r < ss.all.size →
    (ss.get r).id ≠ 0 ∧ ∀ s < ss.all.size, (ss.get s).id = (ss.get r).id → s = r

/-- Without room, one of the new symbols has the number zero. -/
theorem Later.exists_zero (h : u.Later u') (hroom : ¬ u.HasRoom u') :
    ∃ r, u.symbols.all.size ≤ r ∧ r < u'.symbols.all.size ∧ (u'.symbols.get r).id = 0 := by
  have hlast := u.symbols.lastId.toNat_lt
  unfold HasRoom at hroom
  let r := u.symbols.all.size + (4294967295 - u.symbols.lastId.toNat)
  have hge : u.symbols.all.size ≤ r := Nat.le_add_right _ _
  have hlt : r < u'.symbols.all.size := by omega
  refine ⟨r, hge, hlt, UInt32.toNat_inj.1 ?_⟩
  have hid : (u'.symbols.get r).id = u.symbols.lastId + UInt32.ofNat (r + 1 - u.symbols.all.size) :=
    h.ops.symbols.id hge hlt
  rw [hid, UInt32.toNat_add, UInt32.toNat_ofNat']
  change _ = 0
  omega

theorem Later.numberedFrom_iff (h : u.Later u') (hc : Counted u.symbols) :
    NumberedFrom u'.symbols u.symbols.all.size ↔ u.HasRoom u' := by
  constructor
  · intro hn
    by_contra hroom
    obtain ⟨r, hge, hlt, hz⟩ := h.exists_zero hroom
    exact (hn r hge hlt).1 hz
  · intro hroom r _ hlt
    have hc' := h.counted hroom hc
    exact ⟨hc'.id r hlt, fun s hs he => hc'.distinct s hs r hlt he⟩

/-- The symbols that a run over a file makes up are numbered one after another. Their numbers are
new, and none of them is zero, just where the largest number in the file leaves room for all of
them. -/
theorem numberedFrom_run (h : CompUnit.decode t = .ok (.ok u))
    (hr : u.run options trace = .ok res) :
    (∀ r, u.symbols.all.size ≤ r → r < res.unit.symbols.all.size →
      (res.unit.symbols.get r).id = u.symbols.lastId + .ofNat (r + 1 - u.symbols.all.size)) ∧
    (NumberedFrom res.unit.symbols u.symbols.all.size ↔
      u.symbols.lastId.toNat + (res.unit.symbols.all.size - u.symbols.all.size) < 2 ^ 32) := by
  have hu := workable_of_decode h
  have hl := (hu.of_run hr).1
  exact ⟨fun r hge hlt => hl.ops.symbols.id hge hlt, hl.numberedFrom_iff hu.symbols⟩

/-- There is room for the temporary and the operator that the routine needs. -/
theorem numberedFrom_run_caller : ∃ u res, CompUnit.decode callerFile = .ok (.ok u) ∧
    u.run {} {} = .ok res ∧ u.symbols.all.size < res.unit.symbols.all.size ∧
    NumberedFrom res.unit.symbols u.symbols.all.size := by
  obtain ⟨u, res, -, hu, hres, hnew, hroom, -⟩ := caller_rounds
  have hd := decode_callerFile.trans hu
  exact ⟨u, res, hd, hres, hnew, (numberedFrom_run hd hres).2.2 hroom⟩

/-! ## A file with the largest number -/

def fullRecord : UnitRecord :=
  { callerRecord with
    symbols := [{ id := 1, name := "f", kind := SymKind.proc.code, span := ⟨0, 1, 1⟩ },
      { id := 4294967295, name := "g", kind := SymKind.proc.code }]
    ops := []
    routines := [⟨1, [], 0, .node { kind := NodeKind.discardStmt.code }
      [.node { kind := NodeKind.call.code, type := 7 }
        [.node { kind := NodeKind.sym.code, sym := 4294967295 } []]]⟩] }

def fullFile : Text := .ofList (Packed.unit fullRecord).bytes

/-- The temporary has no number, and the operator has that of the routine. -/
theorem numberedFrom_run_full : ∃ u res, CompUnit.decode fullFile = .ok (.ok u) ∧
    u.run {} {} = .ok res ∧
    res.unit.symbols.all.toList.map (·.id) = [1, 4294967295, 0, 1] ∧
    ¬ NumberedFrom res.unit.symbols u.symbols.all.size := by
  have hd : CompUnit.decode fullFile = fullRecord.unit := by
    rw [decode, fullFile, UnitRecord.parse?_bytes (Packed.short_of_bytes _ (by decide +kernel))]
    rfl
  obtain ⟨x, hx, h⟩ := exists_ok (x := fullRecord.unit) (p := fun x => x.toOption.any fun u =>
    (u.run {} {}).toOption.any fun res => decide
      (res.unit.symbols.all.toList.map (·.id) = [1, 4294967295, 0, 1] ∧ ¬ u.HasRoom res.unit))
    (by decide +kernel)
  obtain ⟨u, rfl, hu⟩ := exists_ok h
  obtain ⟨res, hres, h⟩ := exists_ok hu
  obtain ⟨hids, hroom⟩ := of_decide_eq_true h
  have hw := workable_of_decode (hd.trans hx)
  exact ⟨u, res, hd.trans hx, hres, hids,
    fun hn => hroom (((hw.of_run hres).1.numberedFrom_iff hw.symbols).1 hn)⟩

end CompUnit

end Lifecycle
