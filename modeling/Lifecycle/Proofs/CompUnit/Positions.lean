import Mathlib.Data.List.Dedup
import Mathlib.Data.List.Induction
import Lifecycle.Proofs.CompUnit.Reading

/-!
# The files of the positions that were read

A position names its file by the place that the file has in the written list. The list that is read
is cleaned, and a path that comes again is left out, so the files behind it move up. A position that
is accepted keeps its file exactly when no path up to its own comes twice
(`UnitRecord.path_span_iff`).
-/

namespace Lifecycle

namespace FileSet

theorem paths_add (fs : FileSet) (p : Text) :
    (fs.add p).2.paths = fs.paths ++ [Path.clean p].removeAll fs.paths := by
  rw [add, List.removeAll]
  rcases hf : fs.paths.findIdx? (· = Path.clean p) with _ | j
  · have hn : Path.clean p ∉ fs.paths := fun hp => by
      simpa using List.findIdx?_eq_none_iff.1 hf _ hp
    simp [hn]
  · have hp : Path.clean p ∈ fs.paths := by
      obtain ⟨hj, he, -⟩ := List.findIdx?_eq_some_iff_getElem.1 hf
      rw [← of_decide_eq_true he]
      exact List.getElem_mem hj
    simp [hp]

theorem paths_ofList (ps : List Text) : (ofList ps).paths = (ps.map Path.clean).eraseDups := by
  induction ps using List.reverseRecOn with
  | nil => rfl
  | append_singleton ps p ih =>
    have hl : ofList (ps ++ [p]) = ((ofList ps).add p).2 := by simp [ofList]
    rw [hl, paths_add, ih, List.map_append, List.eraseDups_append]
    simp only [List.removeAll, List.map_cons, List.filter_cons,
      List.elem_eq_mem, List.mem_eraseDups]
    split_ifs
    · simp [List.eraseDups_cons]
    · rfl

theorem perm_dedup (ps : List Text) : (ofList ps).paths.Perm (ps.map Path.clean).dedup := by
  refine (List.perm_ext_iff_of_nodup (registered_ofList ps).nodup (List.nodup_dedup _)).2 fun p =>
    ?_
  rw [paths_ofList, List.mem_eraseDups, List.mem_dedup]

theorem length_ofList_le (ps : List Text) : (ofList ps).paths.length ≤ ps.length := by
  simpa [(perm_dedup ps).length_eq] using (List.dedup_sublist (ps.map Path.clean)).length_le

theorem length_ofList_lt (h : ¬ (ps.map Path.clean).Nodup) :
    (ofList ps).paths.length < ps.length := by
  refine Nat.lt_of_le_of_ne (length_ofList_le ps) fun he => h ?_
  rw [← List.dedup_eq_self]
  refine (List.dedup_sublist _).eq_of_length ?_
  rw [← (perm_dedup ps).length_eq, he, List.length_map]

theorem paths_of_nodup (h : (ps.map Path.clean).Nodup) : (ofList ps).paths = ps.map Path.clean := by
  have hr : Registered ⟨ps.map Path.clean⟩ := ⟨by simp [Path.clean_clean], h⟩
  have he := congrArg FileSet.paths hr.ofList_paths
  rw [paths_ofList, List.map_map] at he
  rw [paths_ofList]
  simpa [Function.comp_def, Path.clean_clean] using he

/-- A file keeps its place exactly when no path up to its own comes twice: else the path there is
one that first comes later. -/
theorem getElem?_ofList_iff (hp : ps[i]? = some p) : (ofList ps).paths[i]? = some (Path.clean p) ↔
      ((ps.take (i + 1)).map Path.clean).Nodup := by
  have hlt : i < ps.length := (List.getElem?_eq_some_iff.1 hp).1
  have hlen : (ps.take (i + 1)).length = i + 1 := by simp; omega
  have hmem : p ∈ ps.take (i + 1) :=
    List.mem_of_getElem? (i := i) (by rw [List.getElem?_take_of_lt (by omega), hp])
  -- the paths that come first among the others follow those of the first files
  have hsplit : (ofList ps).paths = (ofList (ps.take (i + 1))).paths ++
      (((ps.drop (i + 1)).map Path.clean).removeAll
        ((ps.take (i + 1)).map Path.clean)).eraseDups := by
    rw [paths_ofList, paths_ofList, ← List.eraseDups_append, ← List.map_append,
      List.take_append_drop]
  constructor
  · intro he
    by_contra hn
    have hshort := length_ofList_lt hn
    rw [hsplit, List.getElem?_append_right (by omega)] at he
    have hlater := List.mem_eraseDups.1 (List.mem_of_getElem? he)
    rw [List.removeAll, List.mem_filter, List.elem_eq_mem, Bool.not_eq_true',
      decide_eq_false_iff_not] at hlater
    exact hlater.2 (List.mem_map_of_mem hmem)
  · intro hn
    rw [hsplit, paths_of_nodup hn, List.getElem?_append_left (by simp; omega), List.getElem?_map,
      List.getElem?_take_of_lt (by omega), hp]
    rfl

end FileSet

def UnitRecord.spans (r : UnitRecord) : List Span :=
  r.symbols.map (·.span) ++ r.routines.flatMap (·.body.spans)

namespace DecodeM

/-- A step that keeps the files and ends without a complaint only if `P` holds of them. -/
def Inspects (P : FileSet → Prop) (m : DecodeM Unit) : Prop :=
  ∀ d d', m d = .ok ((), d') → d'.wrong = [] →
    d.wrong = [] ∧ d'.unit.files = d.unit.files ∧ P d.unit.files

theorem Inspects.bind {P Q : FileSet → Prop} {m n : DecodeM Unit} (hm : Inspects P m)
    (hn : Inspects Q n) : Inspects (fun fs => P fs ∧ Q fs) (m >>= fun _ => n) := by
  intro d d' h hw
  obtain ⟨⟨⟩, d1, h1, h2⟩ := bind_eq.1 h
  obtain ⟨hw1, hf1, hq⟩ := hn d1 d' h2 hw
  obtain ⟨hw0, hf0, hp⟩ := hm d d1 h1 hw1
  exact ⟨hw0, hf1.trans hf0, hp, hf0 ▸ hq⟩

theorem Inspects.forM {α : Type} {P : α → FileSet → Prop} {f : α → DecodeM Unit}
    (h : ∀ x, Inspects (P x) (f x)) (xs : List α) :
    Inspects (fun fs => ∀ x ∈ xs, P x fs) (xs.forM f) := by
  induction xs with
  | nil =>
    intro d d' hd hw
    cases hd
    exact ⟨hw, rfl, by simp⟩
  | cons x xs ih =>
    intro d d' hd hw
    obtain ⟨hw0, hf, hx⟩ := (h x).bind ih d d' hd hw
    exact ⟨hw0, hf, List.forall_mem_cons.2 hx⟩

theorem inspects_all (r : UnitRecord) : Inspects
    (fun fs => ∀ s ∈ r.spans, s.isUnknown = false → s.file.toNat < fs.size) (all r) := by
  have hs : ∀ x, Inspects (fun fs => x.span.isUnknown = false → x.span.file.toNat < fs.size)
      (addSymbol x) := by
    intro x d d' h hw
    obtain ⟨rfl, -, -, -, hs⟩ := addSymbol_cases h hw
    exact ⟨hw, rfl, hs⟩
  have hl : ∀ x, Inspects (fun _ => True) (linkOwner x) := by
    intro x d d' h hw
    obtain rfl | ⟨ref, s, -, -, rfl⟩ := linkOwner_cases h hw <;> exact ⟨hw, rfl, trivial⟩
  have ho : ∀ x, Inspects (fun _ => True) (addOp x) := by
    intro x d d' h hw
    obtain ⟨kind, -, -, rfl | ⟨s, -, rfl⟩⟩ := addOp_cases h hw <;> exact ⟨hw, rfl, trivial⟩
  have hr : ∀ x, Inspects (fun fs => ∀ s ∈ x.body.spans, s.isUnknown = false →
      s.file.toNat < fs.size) (addRoutine x) := by
    intro x d d' h hw
    obtain ⟨y, -, hs, rfl⟩ := addRoutine_cases h hw
    exact ⟨hw, rfl, hs⟩
  intro d d' h hw
  obtain ⟨hw0, hf, hss, -, -, hrs⟩ := (Inspects.forM hs r.symbols).bind
    ((Inspects.forM hl r.symbols).bind
    ((Inspects.forM ho r.ops).bind (Inspects.forM hr r.routines))) d d' h hw
  refine ⟨hw0, hf, fun s hs => ?_⟩
  rcases List.mem_append.1 hs with hs | hs
  · obtain ⟨x, hx, rfl⟩ := List.mem_map.1 hs
    exact hss x hx
  · obtain ⟨x, hx, hs⟩ := List.mem_flatMap.1 hs
    exact hrs x hx s hs

end DecodeM

/-- The files of a unit that is accepted are the cleaned paths of its record, each where it first
comes. Every known position of the record names a file of the record. It names the same file in the
unit exactly when no path of the record up to that one comes twice, in whatever spelling. -/
theorem UnitRecord.path_span_iff {r : UnitRecord} {u : CompUnit} (h : r.unit = .ok (.ok u)) :
    u.files.paths = (r.files.map Path.clean).eraseDups ∧
      ∀ s ∈ r.spans, s.isUnknown = false → ∃ p, r.files[s.file.toNat]? = some p ∧
        (u.files.path s.file = Path.clean p ↔
          ((r.files.take (s.file.toNat + 1)).map Path.clean).Nodup) := by
  obtain ⟨types, d, -, hd, hw, rfl⟩ := unit_cases h
  obtain ⟨-, hf, hs⟩ := DecodeM.inspects_all r _ _ hd hw
  rw [hf]
  refine ⟨FileSet.paths_ofList r.files, fun s hmem hknown => ?_⟩
  have hlt : s.file.toNat < (FileSet.ofList r.files).paths.length := hs s hmem hknown
  obtain ⟨p, hp⟩ : ∃ p, r.files[s.file.toNat]? = some p :=
    ⟨_, List.getElem?_eq_getElem (Nat.lt_of_lt_of_le hlt (FileSet.length_ofList_le r.files))⟩
  refine ⟨p, hp, ?_⟩
  rw [← FileSet.getElem?_ofList_iff hp, FileSet.path, List.getElem?_eq_getElem hlt]
  simp

/-- A record that lists one file in two spellings, and a symbol in the second of them. -/
def UnitRecord.respelled : UnitRecord where
  schema := schemaVersion
  name := "u"
  files := ["t", "./t", "s"]
  types := TypeTable.initial.flatten
  symbols := [{ id := 1, name := "f", span := ⟨1, 2, 1⟩ }]

theorem UnitRecord.path_span_respelled : ∃ u, respelled.unit = .ok (.ok u) ∧
    u.files.paths = (respelled.files.map Path.clean).eraseDups ∧
      ∀ s ∈ respelled.spans, s.isUnknown = false → ∃ p, respelled.files[s.file.toNat]? = some p ∧
        (u.files.path s.file = Path.clean p ↔
          ((respelled.files.take (s.file.toNat + 1)).map Path.clean).Nodup) :=
  ⟨_, rfl, path_span_iff rfl⟩

/-- The symbol of that record comes to lie in the file behind its own. -/
theorem UnitRecord.path_span_moves : ¬ ∀ (r : UnitRecord) (u : CompUnit), r.unit = .ok (.ok u) →
    ∀ s ∈ r.spans, s.isUnknown = false →
      ∃ p, r.files[s.file.toNat]? = some p ∧ u.files.path s.file = Path.clean p := by
  intro h
  obtain ⟨p, hp, hpath⟩ := h respelled _ rfl ⟨1, 2, 1⟩ (by decide) rfl
  cases hp
  revert hpath
  decide

end Lifecycle
