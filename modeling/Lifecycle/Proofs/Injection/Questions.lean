import Lifecycle.Proofs.Flow.SameLocation
import Lifecycle.Proofs.Injection.Logs

/-!
# Reports, and which values can be moved

Reports and the tests on values leave no notes. What is moved as it stands is a place: a name, or
what is reached from a place. It lies within a variable that the routine may empty.
-/

namespace Lifecycle

namespace Node

def type (n : Node) : TypeId := (n.head?.map (·.type)).getD 0

theorem info_eq {n : Node} (hn : n.info = .ok h) :
    n.span = h.span ∧ n.type = h.type ∧ ∃ ks, n = .node h ks := by
  cases n with
  | hole => cases hn
  | node hd ks =>
    cases hn
    exact ⟨rfl, rfl, ks, rfl⟩

/-- The parameters of what is called, as its type tells them. -/
def calleeParams (types : TypeTable) (callee : Node) : List Param :=
  match callee.head? with
  | none => []
  | some h =>
    match InjectM.signature? types h.type with
    | .ok sig => (sig.map (·.params.items)).getD []
    | .error _ => []

theorem calleeParams_eq {types : TypeTable} {sig : Option ProcInfo} {n : Node} (hn : n.info = .ok h)
    (hs : InjectM.signature? types h.type = .ok sig) :
    n.calleeParams types = (sig.map (·.params.items)).getD [] := by
  cases n with
  | hole => cases hn
  | node h' ks =>
    cases hn
    simp only [calleeParams, head?, hs]

end Node

inductive Node.IsPlace : Node → Prop
  | name {h : Head} {ks : List Node} (hk : h.kind = .sym) : IsPlace (.node h ks)
  | part {h : Head} {n : Node} {ks : List Node} (hk : Node.stepsInto h.kind = true)
      (hn : IsPlace n) : IsPlace (.node h (n :: ks))

theorem Node.stepsInto_of_staysWithin (h : staysWithin kind = true) : stepsInto kind = true := by
  cases kind <;> first | rfl | cases h

theorem Node.isPlace_of_isKind {n : Node} (h : n.isKind .sym = true) : n.IsPlace := by
  cases n with
  | hole => cases h
  | node hd ks => exact .name (by simpa using h)

inductive Node.Within (P : SymRef → Prop) : Node → Prop
  | name {h : Head} {ks : List Node} {r : SymRef} (hk : h.kind = .sym) (hr : h.sym = some r)
      (hp : P r) : Within P (.node h ks)
  | part {h : Head} {n : Node} {ks : List Node} (hk : Node.staysWithin h.kind = true)
      (hn : Within P n) : Within P (.node h (n :: ks))

theorem Node.Within.isPlace {P : SymRef → Prop} {n : Node} (h : n.Within P) : n.IsPlace := by
  induction h with
  | name hk _ _ => exact .name hk
  | part hk _ ih => exact .part (stepsInto_of_staysWithin hk) ih

theorem Node.Within.mono (hpq : ∀ r, P r → Q r) {n : Node} (h : n.Within P) : n.Within Q := by
  induction h with
  | name hk hr hp => exact .name hk hr (hpq _ hp)
  | part hk _ ih => exact .part hk ih

/-- The routine may take the value out of the variable: it is its own, a parameter that is taken
over, or a temporary. -/
def Symbol.MayEmpty (x : Symbol) (routine : Option SymRef) : Prop :=
  x.owner = routine ∧ (x.kind = .varLocal ∨ x.kind = .letLocal ∨ x.kind = .result) ∨
    x.kind = .param ∧ x.has .sink = true ∨ x.kind = .temp

variable {routine : Option SymRef}

theorem Symbol.Marked.mayEmpty {x x' : Symbol} (h : x.Marked x')
    (hx : x'.MayEmpty routine) : x.MayEmpty routine := by
  unfold Symbol.MayEmpty at hx ⊢
  rwa [h.owner, h.kind, h.has_eq (by decide)] at hx

theorem Node.within_of_isOwnPlace : ∀ {n : Node},
    n.isOwnPlace ss routine = .ok true → n.Within fun r => (ss.get r).MayEmpty routine
  | .hole, h => by cases h
  | .node hd ks, h => by
    rw [isOwnPlace.eq_def] at h
    dsimp only at h
    by_cases hs : staysWithin hd.kind = true
    · rw [if_pos hs] at h
      cases ks with
      | nil => cases h
      | cons a ks => exact .part hs (within_of_isOwnPlace h)
    split_ifs at h with hk
    · cases h
    rcases hr : hd.sym with _ | r
    · rw [hr] at h
      cases h
    rw [hr] at h
    refine .name (not_not.1 hk) hr ?_
    dsimp only at h
    split_ifs at h with ho
    · cases h
    unfold Symbol.MayEmpty
    cases hkind : (ss.get r).kind <;> simp_all

/-- A location that the routine owns later on was its own at the outset, or its variable came
later. -/
theorem Node.isOwnPlace_grown (hg : ss.Grown ss') :
    ∀ {n : Node}, n.isOwnPlace ss' routine = .ok true → n.isOwnPlace ss routine = .ok true ∨
      ∃ r, n.root? = .ok (some r) ∧ ss.all.size ≤ r
  | .hole, hn => by cases hn
  | .node h ks, hn => by
    unfold isOwnPlace at hn ⊢
    split_ifs at hn ⊢ with hw hk
    · cases ks with
      | nil => cases hn
      | cons k ks =>
        have hroot : (node h (k :: ks)).root? = k.root? := by
          rw [root?]
          revert hw
          cases h.kind <;> simp [staysWithin, stepsInto]
        rw [hroot]
        exact isOwnPlace_grown hg hn
    · cases hn
    · have hk : h.kind = .sym := not_not.1 hk
      cases hs : h.sym with
      | none =>
        rw [hs] at hn
        cases hn
      | some r =>
        rw [hs] at hn
        rcases Nat.lt_or_ge r ss.all.size with hlt | hge
        · have hm := hg.marked hlt
          simp only [hm.owner, hm.kind, hm.has_eq (g := .cursor) (by decide),
            hm.has_eq (g := .threadVar) (by decide), hm.has_eq (g := .sink) (by decide)] at hn
          exact .inl hn
        · exact .inr ⟨r, by cases ks <;> simp [root?, hk, hs], hge⟩

theorem Node.isDiscriminantField_grown (hg : ss.Grown ss') {n : Node}
    (hn : n.isDiscriminantField ss' = .ok true) :
    n.isKind .dot = true ∧ n.isDiscriminantField ss = .ok true := by
  unfold isDiscriminantField at hn ⊢
  obtain ⟨h, hi, hn⟩ := bind_eq_ok.1 hn
  split_ifs at hn with hk
  · cases hn
  obtain ⟨o, ho, hn⟩ := bind_eq_ok.1 hn
  have hhas : ss.has o .discriminant = true := by
    rcases o with _ | r
    · exact pure_eq_ok.1 hn
    · rcases Nat.lt_or_ge r ss.all.size with hlt | hge
      · exact ((hg.marked hlt).has_eq (by decide)).symm.trans (pure_eq_ok.1 hn)
      · exact absurd (pure_eq_ok.1 hn) (Bool.eq_false_iff.1 (hg.late hge).2)
  obtain ⟨-, -, ks, rfl⟩ := info_eq hi
  refine ⟨by simpa using hk, ?_⟩
  rw [hi, ho]
  simp only [bind, Except.bind, if_neg hk, hhas, pure, Except.pure]

theorem Node.Pinned.isPlace {n : Node} (h : n.Pinned r s) : n.IsPlace := by
  induction h with
  | sym hk => exact .name hk
  | dot hk _ ih | index hk _ _ ih => exact .part (by simp [stepsInto, hk]) ih
  | @through h _ _ _ _ hk _ ih =>
    refine .part ?_ ih
    revert hk
    cases h.kind <;> simp [isTransparent, stepsInto]

theorem Node.isPlace_of_sameWithin (h : sameWithin fuel a b = .ok true) : b.IsPlace := by
  obtain ⟨r, s, -, hb⟩ := (shared_of_sameWithin h).1 rfl
  exact hb.isPlace

namespace Ground

variable (k : Ground)

def MayEmpty (r : SymRef) : Prop :=
  r < k.size → (k.ops.symbols.get r).MayEmpty k.routine.sym

/-- A location that the routine may take the value out of: a name, or one that it owns. -/
structure Movable (n : Node) : Prop where
  within : n.Within k.MayEmpty
  own : n.isKind .sym = true ∨ n.isOwnPlace k.ops.symbols k.routine.sym = .ok true ∨
    ∃ r, n.root? = .ok (some r) ∧ k.size ≤ r

theorem Movable.isPlace (h : k.Movable n) : n.IsPlace := h.within.isPlace

theorem Movable.name {k : Ground} {h : Head} {ks : List Node} {r : SymRef} (hk : h.kind = .sym)
    (hr : h.sym = some r) (hm : k.MayEmpty r) : k.Movable (.node h ks) :=
  ⟨.name hk hr hm, .inl (by simp [hk])⟩

def NamesTemp (n : Node) : Prop :=
  ∃ h ks r, n = .node h ks ∧ h.kind = .sym ∧ h.sym = some r ∧
    (r < k.size → (k.ops.symbols.get r).kind = .temp)

theorem NamesTemp.movable {k : Ground} {n : Node} (h : k.NamesTemp n) : k.Movable n := by
  obtain ⟨h, ks, r, rfl, hk, hr, ht⟩ := h
  exact .name hk hr fun hlt => .inr (.inr (ht hlt))

end Ground

namespace InjectM

variable {k : Ground} {T : Note → Prop} {d : Nat} {c : InjectContext} {n : Node} {t : TypeId}

/-! ## Reports -/

theorem asks_trace {scope : TraceScope} : Asks k T d c (trace scope name detail) fun _ => True := by
  exact .bind .read fun x _ => .update fun _ => ⟨rfl, rfl⟩

theorem asks_report : Asks k T d c (report severity code span message notes) fun _ => True := by
  refine .bind asks_owner fun own _ => ?_
  rcases own with _ | own
  · exact .throw
  · exact .bind asks_symbols fun ss _ => .update fun _ => ⟨rfl, rfl⟩

theorem asks_reportError : Asks k T d c (reportError code span message notes) fun _ => True := by
  refine .bind (.update fun _ => ⟨rfl, rfl⟩) fun _ _ => ?_
  exact .bind asks_report fun _ _ => asks_trace

theorem asks_decision : Asks k T d c (decision name n) fun _ => True := by
  refine .bind .get fun st _ => .ite (fun _ => ?_) fun _ => .pure trivial
  exact .bind asks_printer fun p _ => .lift_bind fun _ _ => asks_trace

theorem asks_copyNotes : Asks k T d c (copyNotes src) fun _ => True := by
  refine .bind .get fun st _ => ?_
  rcases st.otherRead with _ | r
  · refine .lift_bind fun h _ => .ite (fun _ => .pure trivial) fun _ => ?_
    refine .bind asks_symbols fun ss _ => .lift_bind fun s _ => ?_
    exact .ite (fun _ => .pure trivial) fun _ => .pure trivial
  · exact .pure trivial

theorem asks_reportOp : Asks k T d c (reportOp e t kind n src) fun _ => True := by
  refine .bind .read fun x _ => .lift_bind fun text _ => ?_
  dsimp only
  split
  · refine .bind asks_printer fun p _ => .lift_bind fun text _ => ?_
    refine .bind asks_copyNotes fun _ _ => .bind (P := fun _ => True) (.pure trivial) fun _ _ => ?_
    refine .lift_bind fun h _ => .bind asks_routineName fun name _ => ?_
    exact asks_reportError
  · refine .bind (P := fun _ => True) (.pure trivial) fun _ _ => ?_
    refine .lift_bind fun h _ => ?_
    exact .bind asks_routineName fun name _ => asks_reportError

/-! ## Which values can be moved -/

theorem symbolOf_eq (hx : Node.symbolOf ss h = .ok x) : ∃ r, h.sym = some r ∧ x = ss.get r := by
  obtain ⟨r, hr, hx⟩ := bind_eq_ok.1 hx
  exact ⟨r, Node.orAbsent_eq_ok hr, (pure_eq_ok.1 hx).symm⟩

theorem asks_isUnpackedTuple :
    Asks k T d c (isUnpackedTuple n) fun b => b = true → k.NamesTemp n := by
  refine .lift_bind fun h hh => .ite (fun _ => .pure (by simp)) fun hk => .bind asks_symbols ?_
  rintro ss ⟨s, hs, -, rfl⟩
  refine .lift_bind fun x hx => .bind asks_shapeOf fun sh _ => .pure fun hb => ?_
  obtain ⟨-, -, ks, rfl⟩ := Node.info_eq hh
  obtain ⟨r, hr, rfl⟩ := symbolOf_eq hx
  refine ⟨h, ks, r, rfl, not_not.1 hk, hr, fun hlt => ?_⟩
  simp only [Bool.and_eq_true, decide_eq_true_eq] at hb
  rw [← (hs.symbols.marked hlt).kind]
  exact hb.1

theorem asks_isOwnPlace : Asks k T d c (isOwnPlace n) fun b => b = true → k.Movable n := by
  refine .bind asks_symbols ?_
  rintro ss ⟨s, hs, -, rfl⟩
  refine .bind asks_owner fun r hr => .lift fun b hb h => ?_
  subst hr h
  exact ⟨(Node.within_of_isOwnPlace hb).mono fun r hr hlt => (hs.symbols.marked hlt).mayEmpty hr,
    .inr (Node.isOwnPlace_grown hs.symbols hb)⟩

theorem asks_isSinkParam : Asks k T d c (isSinkParam n) fun b => b = true → k.Movable n := by
  refine .bind asks_symbols ?_
  rintro ss ⟨s, hs, -, rfl⟩
  refine .lift fun b hb h => ?_
  subst h
  obtain ⟨hd, hi, hb⟩ := bind_eq_ok.1 hb
  split_ifs at hb with hk
  · cases hb
  obtain ⟨x, hx, hb⟩ := bind_eq_ok.1 hb
  obtain ⟨-, -, ks, rfl⟩ := Node.info_eq hi
  obtain ⟨r, hr, rfl⟩ := symbolOf_eq hx
  refine .name (not_not.1 hk) hr fun hlt => (hs.symbols.marked hlt).mayEmpty (.inr (.inl ?_))
  simpa using pure_eq_ok.1 hb

theorem asks_isCursor : Asks k T d c (isCursor n) fun _ => True := by
  exact .bind asks_symbols fun ss _ => .lift fun _ _ => trivial

theorem asks_ownsStorage :
    Asks k T d c (ownsStorage r) fun b => b = true → ∃ q, r = some q ∧ k.MayEmpty q := by
  refine .bind asks_symbols ?_
  rintro ss ⟨s, hs, -, rfl⟩
  rcases r with _ | r
  · exact .pure (by simp)
  refine .bind asks_owner fun o ho => .pure fun hb => ⟨r, rfl, fun hlt => ?_⟩
  refine (hs.symbols.marked hlt).mayEmpty ?_
  simp only [Symbol.isLocal] at hb
  unfold Symbol.MayEmpty
  cases hkind : (s.symbols.get r).kind <;> simp_all [SymKind.isStorage]

theorem asks_isFirstWrite : Asks k T d c (isFirstWrite n) fun _ => True := by
  exact .bind .get fun st _ => .lift fun _ _ => trivial

theorem asks_oracle : Asks k T d c (do
    let (last, oracle) ← (← get).oracle.isLastRead n
    modify fun s => { s with oracle, otherRead := if last then none else oracle.otherRead }
    return last : InjectM Bool) fun _ => True := by
  refine .bind .get fun st _ => .lift_bind fun _ _ => ?_
  exact .bind (.update fun _ => ⟨rfl, rfl⟩) fun _ _ => .pure trivial

theorem asks_isLastRead : Asks k T d c (isLastRead n) fun _ => True := by
  refine .bind (.update fun _ => ⟨rfl, rfl⟩) fun _ _ => ?_
  refine .lift_bind fun h _ => .bind asks_isOwning fun b _ => ?_
  refine .ite (fun _ => .pure trivial) fun _ => ?_
  refine .lift_bind fun m _ => .lift_bind fun h _ => ?_
  exact .bind asks_symbols fun ss _ => .ite (fun _ => .pure trivial) fun _ => asks_oracle

theorem asks_isInLoopBody : Asks k T d c isInLoopBody fun _ => True := by
  exact .bind .get fun st _ => .pure trivial

theorem asks_isFresh : Asks k T d c (isFresh dest decl) fun _ => True := by
  refine .ite (fun _ => .pure trivial) fun _ => .bind asks_isUnpackedTuple fun t _ => ?_
  refine .ite (fun _ => .pure trivial) fun _ => .bind asks_isOwnPlace fun p _ => ?_
  exact .ite (fun _ => asks_isFirstWrite) fun _ => .pure trivial

theorem asks_storesPlainly : Asks k T d c (storesPlainly dest decl) fun _ => True := by
  refine .bind asks_isFresh fun fresh _ => .bind .get fun st _ => .ite (fun _ => .pure trivial) ?_
  exact fun _ => .bind asks_symbols fun ss _ => .lift fun _ _ => trivial

theorem asks_canTakeOver : Asks k T d c (canTakeOver n) fun b => b = true → k.Movable n := by
  refine .bind asks_isSinkParam fun p hp => .ite (fun hnp => ?_) fun hnp => ?_
  · refine .bind asks_isOwnPlace fun o ho => .ite (fun _ => .pure (by simp)) fun hno => ?_
    refine .bind asks_isCursor fun b _ => .ite (fun _ => .pure (by simp)) fun _ => ?_
    exact asks_isLastRead.mono fun _ _ _ => ho (by simpa using hno)
  · refine .bind asks_isCursor fun b _ => .ite (fun _ => .pure (by simp)) fun _ => ?_
    exact asks_isLastRead.mono fun _ _ _ => hp (by simpa using hnp)

theorem asks_canMoveName (hk : h.kind = .sym) :
    Asks k T d c (canMoveName (.node h ks) h t) fun b => b = true → k.Movable (.node h ks) := by
  refine .bind asks_symbols ?_
  rintro ss ⟨s, hs, -, rfl⟩
  refine .lift_bind fun x hx => .bind asks_owner fun o ho => .ite (fun _ => .pure (by simp)) ?_
  intro hown
  obtain ⟨r, hr, rfl⟩ := symbolOf_eq hx
  have hm : k.Movable (.node h ks) := by
    refine .name hk hr fun hlt => (hs.symbols.marked hlt).mayEmpty ?_
    simp only [Symbol.isLocal] at hown
    unfold Symbol.MayEmpty
    cases hkind : (s.symbols.get r).kind <;> simp_all [SymKind.isStorage]
  refine .bind asks_isCursor fun b _ => .ite (fun _ => .pure (by simp)) fun _ => ?_
  refine .bind asks_isLastRead fun b _ => .ite (fun _ => ?_) fun _ => .pure (by simp)
  exact asks_canMove.mono fun _ _ _ => hm

theorem asks_canMovePart :
    Asks k T d c (canMovePart dest ri t) fun b => b = true → k.Movable ri := by
  refine .bind asks_isOwnPlace fun o ho => .ite (fun _ => .pure (by simp)) fun hno => ?_
  have hp : k.Movable ri := ho (by simpa using hno)
  refine .bind asks_isCursor fun b _ => .ite (fun _ => .pure (by simp)) fun _ => ?_
  refine .bind asks_isLastRead fun b _ => .ite (fun _ => .pure (by simp)) fun _ => ?_
  refine .lift_bind fun a _ => .ite (fun _ => .pure (by simp)) fun _ => ?_
  exact asks_canMove.mono fun _ _ _ => hp

theorem asks_declScope : Asks k T d c (declScope sym s) fun _ => True := by
  refine .bind .get fun st _ => ?_
  split <;> exact .pure trivial

theorem asks_needsDefault : Asks k T d c (needsDefault sym) fun _ => True := by
  refine .bind asks_symbols fun ss _ => .bind asks_isInLoopBody fun b _ => ?_
  have hrest : Asks k T d c (do return (← get).oracle.mayBeUninit ss sym : InjectM Bool)
      fun _ => True := .bind .get fun st _ => .pure trivial
  refine .ite (fun _ => ?_) fun _ => hrest
  exact .bind asks_isOwning fun b _ => .ite (fun _ => .pure trivial) fun _ => hrest

theorem asks_checkCycle : Asks k T d c (checkCycle n) fun _ => True := by
  refine .bind .read fun x _ => .ite (fun _ => .pure trivial) fun _ => .bind .read fun x _ => ?_
  refine .lift_bind fun v _ => .lift_bind fun h _ => ?_
  extract_lets jp
  have hjp : ∀ v, Asks k T d c (jp v) fun _ => True := by
    intro v
    refine .lift_bind fun vh _ => .ite (fun _ => .pure trivial) fun _ => ?_
    refine .lift_bind fun _ _ => .lift_bind fun dh _ => ?_
    refine .ite (fun _ => .pure trivial) fun _ => .lift_bind fun b _ => ?_
    refine .ite (fun _ => .pure trivial) fun _ => .bind asks_symbols fun ss _ => ?_
    refine .lift_bind fun o _ => ?_
    rcases o with _ | field
    · exact .pure trivial
    · refine .bind asks_printer fun p _ => .lift_bind fun text _ => ?_
      extract_lets msg jp'
      have hjp' : ∀ advice, Asks k T d c (jp' advice) fun _ => True := fun _ =>
        .lift_bind fun nh _ => asks_report
      rcases field with _ | f
      · exact hjp' _
      · refine .bind asks_symbols fun ss _ => .lift_bind fun fh _ => ?_
        exact .lift_bind fun sym _ => hjp' _
  exact .ite (fun _ => .lift_bind fun v _ => hjp v) fun _ => hjp _

theorem asks_copyDeservesHint : Asks k T d c (copyDeservesHint n t) fun _ => True := by
  refine .bind .read fun x _ => .ite (fun _ => .pure trivial) fun _ => ?_
  refine .bind asks_symbols fun ss _ => .lift_bind fun b _ => ?_
  refine .ite (fun _ => .pure trivial) fun _ => .bind asks_symbols fun ss _ => ?_
  refine .lift_bind fun r _ => .ite (fun _ => .pure trivial) fun _ => ?_
  exact .bind asks_shapeOf fun _ _ => .pure trivial

end InjectM

end Lifecycle
