import Lifecycle.Injection.Rules
import Lifecycle.Proofs.Operators.Lifetime

/-!
# Calls that raise

Two places look a callee's signature up. Arguments are sorted by the signature behind wrappers and
closures; whether a call raises is read off the type of the callee as it stands.
`mayRaise_eq_signature` says where the two agree.
-/

namespace Lifecycle

open InjectM

variable {types : TypeTable} {t : TypeId}

namespace TypeTable

/-- A routine type, or the type of closures of one. -/
def isDirect (types : TypeTable) (t : TypeId) : Bool :=
  match types.lookup t with
  | some d => d.kind = .proc || (d.kind = .closure && types.kindOf d.elem = .proc)
  | none => false

def raises (info : Option ProcInfo) : Bool := (info.map (·.raises)).getD false

theorem procInfo?_of_not_direct (h : types.isDirect t = false) : types.procInfo? t = .ok none := by
  rw [isDirect] at h
  rw [procInfo?]
  rcases hl : types.lookup t with _ | d
  · rfl
  · simp only [hl, Bool.or_eq_false_iff, decide_eq_false_iff_not] at h
    dsimp only [Option.bind]
    split_ifs with hk
    · rw [kindOf] at h
      rcases he : types.lookup d.elem with _ | e
      · rfl
      · have hp : e.kind ≠ .proc := by simpa [hk, he] using h
        exact if_neg hp
    · exact if_neg h.1

end TypeTable

theorem signature?_eq (ha : (types.kindOf t).isAbstract = false) (hc : types.kindOf t ≠ .closure) :
    signature? types t = types.procInfo? t := by
  rw [signature?, TypeTable.skipAbstract, TypeTable.skip_eq ha]
  rw [TypeTable.kindOf] at hc
  rcases hl : types.lookup t with _ | d
  · rfl
  · rw [hl] at hc
    simp [hc]

theorem procInfo?_zero (types : TypeTable) : types.procInfo? 0 = .ok none := by
  rfl

theorem signature?_zero (types : TypeTable) : signature? types 0 = .ok none := by
  have hk : types.kindOf 0 = .invalid := by rw [TypeTable.kindOf, TypeTable.lookup, if_pos rfl]
  rw [signature?_eq (by rw [hk]; rfl) (by rw [hk]; decide), procInfo?_zero]

theorem signature?_of_direct (h : types.isDirect t = true) :
    signature? types t = types.procInfo? t := by
  rw [TypeTable.isDirect] at h
  rcases hl : types.lookup t with _ | d
  · simp [hl] at h
  · simp only [hl, Bool.or_eq_true, decide_eq_true_eq, Bool.and_eq_true] at h
    have hkind : types.kindOf t = d.kind := by rw [TypeTable.kindOf, hl]
    rcases h with hk | ⟨hk, he⟩
    · exact signature?_eq (by rw [hkind, hk]; rfl) (by rw [hkind, hk]; decide)
    · have hskip : types.skipAbstract t = t := TypeTable.skip_eq (by rw [hkind, hk]; rfl)
      rw [TypeTable.kindOf] at he
      rcases hle : types.lookup d.elem with _ | e
      · simp [hle] at he
      · simp_all [signature?, TypeTable.procInfo?]

variable {ss : Symbols} {c : Head}

/-- A callee that is marked as raising. -/
def Symbols.marked (ss : Symbols) (c : Head) : Bool := c.kind = .sym && ss.has c.sym .canRaise

theorem mayRaise_call {h : Head} :
    mayRaise ss types (.node { h with kind := .call } (.node c cs :: args)) =
      if ss.marked c then .ok true else TypeTable.raises <$> types.procInfo? c.type := by
  rw [Symbols.marked]
  split_ifs with hm
  · exact bind_eq_ok.2 ⟨_, rfl, bind_eq_ok.2 ⟨_, rfl, bind_eq_ok.2 ⟨c, rfl, if_pos hm⟩⟩⟩
  · change (if (decide (c.kind = .sym) && ss.has c.sym .canRaise) = true then _ else _) = _
    rw [if_neg hm]
    rfl

/-- A call raises if its callee is marked, or else if its signature says so and the callee is itself
of a routine type or a closure of one. So the signature that sorts the arguments has the say unless
it is behind a wrapper or a second closure and says that the call raises. -/
theorem mayRaise_eq_signature (ss : Symbols) (types : TypeTable) (h c : Head)
    (cs args : List Node) :
    let raises := mayRaise ss types (.node { h with kind := .call } (.node c cs :: args))
    let stated := TypeTable.raises <$> signature? types c.type
    raises =
      (if ss.marked c then .ok true else if types.isDirect c.type then stated else .ok false) ∧
    (raises = (if ss.marked c then .ok true else stated) ↔
      ss.marked c ∨ types.isDirect c.type ∨ stated = .ok false) := by
  intro raises stated
  have heq : raises =
      if ss.marked c then .ok true else if types.isDirect c.type then stated else .ok false := by
    simp only [raises, stated, mayRaise_call]
    rcases hd : types.isDirect c.type with _ | _
    · simp only [TypeTable.procInfo?_of_not_direct hd]
      rfl
    · rw [signature?_of_direct hd, if_pos rfl]
  rw [heq]
  split_ifs with hm hd
  · simp [hm]
  · simp [hd]
  · simpa [hm, hd] using eq_comm

/-- A distinct type of a routine that raises, and closures of closures of it. -/
def wrapped : TypeTable :=
  let (proc, t) := TypeTable.initial.proc { raises := true }
  let (_, t) := t.distinct "handler" proc
  let (once, t) := t.closure proc
  (t.closure once).2

/-- Neither of them is taken to raise, although the signature says so. -/
theorem wrapped_not_raising :
    [9, 11].map (TypeTable.raises <$> signature? wrapped ·) = [.ok true, .ok true] ∧
      [9, 11].map (fun type => mayRaise {} wrapped
        (.node { kind := .call } [.node { kind := .sym, type } []])) = [.ok false, .ok false] := by
  decide

end Lifecycle
