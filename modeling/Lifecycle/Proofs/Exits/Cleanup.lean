import Lifecycle.Proofs.Exits.Noted
import Lifecycle.Proofs.Injection.Run

/-!
# Cleanup covers every exit

Whatever has a scope of its own is a region: the whole body, an arm of a construct, the body of a
loop or of a `finally`. Where the source of a region has an exit, all that the scope has scheduled
by the time it is closed stands in the `finally` of a `try` around the code of the region.
-/

namespace Lifecycle

open Node

namespace InjectM

def Built (kind : NodeKind) (kids : List Node) (out : Node) : Prop :=
  ∃ h, h.kind = kind ∧ out = .node h kids

theorem built_of_is {h : Head} {kids : List Node} {out : Node} (hn : Is h kids out) :
    Built h.kind kids out := by
  obtain ⟨site, rfl⟩ := hn
  exact ⟨{ h with site }, rfl, rfl⟩

def around (sc : Scope) (code : Node) : InjectM Node := do
  if sc.vars.isEmpty && sc.isIdle then return code
  let span := code.span
  let decls ← if sc.vars.isEmpty then pure [] else do pure [← declarations sc.vars span]
  let rest ← if sc.isIdle then pure [code]
    else if sc.leftEarly then do pure [← tryFinally code (← cleanup sc span) 0]
    else do pure [code, ← cleanup sc span]
  stmts span (decls ++ rest)

variable {i : ScopeId}

theorem closeAround_eq : closeAround i code = closeScope i >>= fun sc => around sc code := rfl

/-- Code that is cleaned up after however it is left. What the scope has scheduled stands in the
`finally` of a `try` around the code, and what comes before cannot be left. -/
def Sheltered (o : Outset) (sc : Scope) (code out : Node) : Prop :=
  ∃ kind decls t f fin, Built kind (decls ++ [t]) out ∧ o.exitsAll decls = false ∧
    Built .tryStmt [code, f] t ∧ Built .finallyBranch [fin] f ∧
    Built .stmtList (sc.resets ++ sc.finals.reverse) fin

structure ValueTemp where
  head : Head
  parent : ScopeId
  name : Node

def valueTemp (i : ScopeId) (n : Node) : InjectM ValueTemp := do
  let some parent := (← scope i).parent | throw (.fault .absent)
  let head ← n.info
  let v ← newTemp parent head.type head.span
  let name ← symNode v head.span
  modify fun s => { s with ops := s.ops.modifyFlags v fun f => f.union .singleUsedTemp }
  return { head, parent, name }

def keepValue (r : Rules) (i : ScopeId) (n : Node) (t : ValueTemp) : InjectM Node := do
  if ← isOwning t.head.type then do
    addFinal t.parent (← destroy t.name)
    r.store t.name n i true
  else do fastAsgn t.name (← r.eval n i .normal)

def aroundValue (r : Rules) (u : Use) (sc : Scope) (t : ValueTemp) (stored : Node) :
    InjectM Node := do
  let result ← r.yield u t.name t.parent
  let decls ← if sc.vars.isEmpty then pure [] else do pure [← declarations sc.vars t.head.span]
  let rest ← if sc.isIdle then pure [stored, result]
    else if sc.leftEarly then do
      let body ← tree .stmtListExpr t.head.type [stored, result]
      pure [← tryFinally body (← cleanup sc t.head.span) t.head.type]
    else do pure [stored, ← cleanup sc t.head.span, result]
  node { kind := .stmtListExpr, span := t.head.span, type := t.head.type } (decls ++ rest)

theorem closeAroundValue_eq : closeAroundValue r i n u = (do
    let t ← valueTemp i n
    let stored ← keepValue r i n t
    let sc ← closeScope i
    aroundValue r u sc t stored) := by
  unfold closeAroundValue valueTemp keepValue
  simp only [bind_assoc]
  refine bind_congr fun sc => ?_
  rcases sc.parent with _ | parent
  · rfl
  · simp only [bind_assoc, pure_bind]
    refine bind_congr fun h => bind_congr fun v => bind_congr fun tmp => bind_congr fun _ => ?_
    refine bind_congr fun b => ?_
    cases b <;> simp only [Bool.false_eq_true, if_true, if_false, bind_assoc] <;> rfl

variable {o : Outset} {k : Ground} {T : Note → Prop} {d : Nat} {c : InjectContext}

theorem exits_opening {span : Span} (h : Opening vars span decls) : o.exitsAll decls = false := by
  cases h with
  | none => rfl
  | @some ds n hd hn =>
    obtain ⟨site, rfl⟩ := hn
    have hds : o.exitsAll ds = false := by
      induction hd with
      | nil => rfl
      | cons hone _ ih =>
        obtain ⟨a, e, -, ⟨se, rfl⟩, sd, rfl⟩ := hone
        simp [Outset.exits, ih]
    simp [Outset.exits, hds]

def Declared (e : Note) : Prop := ∃ r, e = .var 0 r none

theorem logs_decls {α : Type} {vars : List SymRef} {span : Span} {f : List Node → InjectM α}
    {R : α → Log → Prop}
    (hf : ∀ decls, o.exitsAll decls = false → Logs k Declared d c (f decls) R) :
    Logs k Declared d c (if vars.isEmpty = true then pure [] >>= f
      else do f (← pure [← declarations vars span])) R := by
  refine logs_opening 0 (vars.map fun r => .var 0 r none) ?_ (fun e he => ?_)
    fun decls hd => hf decls (exits_opening hd)
  · simp [Log.vars, Function.comp_def]
  · obtain ⟨r, -, rfl⟩ := List.mem_map.1 he
    exact ⟨r, rfl⟩

variable {sc : Scope} {code : Node}

theorem logs_around : Logs k Declared d c (around sc code) fun out _ =>
    sc.isIdle = false → sc.leftEarly = true → Sheltered o sc code out := by
  unfold around
  refine .ite (fun hidle => .pure fun hbusy => ?_) fun _ => logs_decls (o := o) fun decls hdecls =>
    ?_
  · simp [hbusy] at hidle
  beta_reduce
  extract_lets jp
  have hjp : ∀ rest, (sc.isIdle = false → sc.leftEarly = true → ∃ fin t, rest = [t] ∧
      Is { kind := .stmtList, span := code.span } (sc.resets ++ sc.finals.reverse) fin ∧
      Guarded code fin 0 t) → Logs k Declared d c (jp rest) fun out _ =>
        sc.isIdle = false → sc.leftEarly = true → Sheltered o sc code out := by
    refine fun rest hrest => asks_stmts.logs fun out hout hbusy hleft => ?_
    obtain ⟨fin, t, rfl, hfin, f, hf, ht⟩ := hrest hbusy hleft
    exact ⟨_, decls, t, f, fin, built_of_is hout, hdecls, built_of_is ht, built_of_is hf,
      built_of_is hfin⟩
  clear_value jp
  refine .ite (fun hidle => hjp _ fun hbusy => ?_) fun _ => .ite (fun _ => ?_) fun hleft => ?_
  · simp [hbusy] at hidle
  · refine .ask asks_stmts fun fin hfin => .ask asks_tryFinally fun t ht => ?_
    exact hjp _ fun _ _ => ⟨fin, t, rfl, hfin, ht⟩
  · exact .ask asks_stmts fun fin _ => hjp _ fun _ h => absurd h hleft

theorem logs_aroundValue {r : Rules} {B : Behaviour} {u : Use} {t : ValueTemp} {stored : Node}
    (hr : r.Follows k B) (ht : k.Sound t.name) :
    Logs k Declared d c (aroundValue r u sc t stored) fun out _ =>
      sc.isIdle = false → sc.leftEarly = true →
        ∃ result code, Built .stmtListExpr [stored, result] code ∧ Sheltered o sc code out := by
  unfold aroundValue
  refine .bind (logs_yield hr ht) fun result _ _ => logs_decls (o := o) fun decls hdecls => ?_
  beta_reduce
  extract_lets jp
  have hjp : ∀ rest, (sc.isIdle = false → sc.leftEarly = true → ∃ fin code tr, rest = [tr] ∧
      Is { kind := .stmtList, span := t.head.span } (sc.resets ++ sc.finals.reverse) fin ∧
      Tree .stmtListExpr t.head.type [stored, result] code ∧ Guarded code fin t.head.type tr) →
      Logs k Declared d c (jp rest) fun out _ => sc.isIdle = false → sc.leftEarly = true →
        ∃ result code, Built .stmtListExpr [stored, result] code ∧ Sheltered o sc code out := by
    refine fun rest hrest => asks_node.logs fun out hout hbusy hleft => ?_
    obtain ⟨fin, code, tr, rfl, hfin, hcode, f, hf, htr⟩ := hrest hbusy hleft
    exact ⟨result, code, built_of_is hcode, _, decls, tr, f, fin, built_of_is hout, hdecls,
      built_of_is htr, built_of_is hf, built_of_is hfin⟩
  clear_value jp
  refine .ite (fun hidle => hjp _ fun hbusy => ?_) fun _ => .ite (fun _ => ?_) fun hleft => ?_
  · simp [hbusy] at hidle
  · refine .ask asks_tree fun code hcode => .ask asks_stmts fun fin hfin => ?_
    refine .ask asks_tryFinally fun tr htr => ?_
    exact hjp _ fun _ _ => ⟨fin, code, tr, rfl, hfin, hcode, htr⟩
  · exact .ask asks_stmts fun fin _ => hjp _ fun _ h => absurd h hleft

theorem logs_valueTemp : Logs k T d c (valueTemp i n) fun t _ => k.Sound t.name := by
  unfold valueTemp
  refine .ask asks_scope fun sc _ => ?_
  rcases sc.parent with _ | parent
  · exact .throw
  refine .lift_bind fun h _ => .bindKnown (logs_newTemp false) ?_
  rintro v l ⟨x, -, rfl⟩
  refine .ask (asks_symNode false (x := x) (.inr (by simp))) fun name hname => ?_
  exact .ask asks_markTemp fun _ _ => .pure (Ground.sound_refers hname)

theorem logs_keepValue (hr : r.Follows k B) (hB : o.Noted B) (hs : k.Sound n) (hn : o.Accepts n) :
    Logs k T d c (keepValue r i n t) fun _ l => o.exits n = true → .left i ∈ l := by
  unfold keepValue
  refine .bind logs_isOwning fun b l _ => .ite (fun _ => ?_) fun _ => ?_
  · refine .bind logs_destroy fun _ _ _ => .bind logs_addFinal fun _ _ _ => ?_
    refine (hr.store i true hs).mono fun _ l h hx => ?_
    simp [hB.store h hn hx]
  · refine .bind (hr.eval i .normal hs) fun v l h => asks_fastAsgn.logs fun _ _ hx => ?_
    simp [hB.eval h hn hx]

end InjectM

open InjectM

/-- A part of the routine with a scope of its own. -/
inductive Region where
  | whole
  /-- A branch, a block, a handler or what a `try` guards. -/
  | arm (u : Use) (s : ScopeId) (isStmt : Bool) (n : Node)
  /-- What a loop repeats, or a `finally`. -/
  | own (s : ScopeId) (n : Node)

/-- A region whose scope is still open. -/
inductive Pending where
  | stmt (code : Node)
  | value (u : Use) (t : ValueTemp) (stored : Node)

/-- The code of a region. A value is used once it is stored. -/
def Pending.Has : Pending → Node → Prop
  | .stmt code', code => code' = code
  | .value _ _ stored, code => ∃ result, Built .stmtListExpr [stored, result] code

def Pending.around (r : Rules) (sc : Scope) : Pending → InjectM Node
  | .stmt code => InjectM.around sc code
  | .value u t stored => aroundValue r u sc t stored

def Pending.Sound (k : Ground) : Pending → Prop
  | .stmt _ => True
  | .value _ t _ => k.Sound t.name

namespace Region

def source (c : InjectContext) : Region → Node
  | whole => c.routine.body
  | arm _ _ _ n | own _ n => n

def parent : Region → Option ScopeId
  | whole => none
  | arm _ s _ _ | own s _ => some s

def inject (r : Rules) : Region → InjectM Node
  | whole => body
  | arm u s isStmt n => InjectM.arm r u s isStmt n
  | own s n => inOwnScope r s n

/-- What is done while the scope is open. -/
def work (r : Rules) (i : ScopeId) : Region → InjectM Pending
  | whole => do
    let x := (← read).routine
    let code ← (rules (ruleDepth x.body)).eval x.body i .normal
    sinkParams i x.params
    return .stmt code
  | arm u _ isStmt n => do
    let plain ← if isStmt || u.isStmt then pure true else do isVoid (← n.info).type
    if plain then return .stmt (← evalOrYield r u n i)
    let t ← valueTemp i n
    return .value u t (← keepValue r i n t)
  | own _ n => return .stmt (← r.eval n i .normal)

theorem inject_eq (g : Region) : g.inject r = (do
    let i ← openScope g.parent
    let p ← g.work r i
    let sc ← closeScope i
    p.around r sc) := by
  cases g with
  | whole =>
    funext c
    simp only [inject, body, work, closeAround_eq, bind_assoc, pure_bind]
    rfl
  | arm u s isStmt n =>
    simp only [inject, InjectM.arm, work, closeAroundValue_eq, closeAround_eq]
    refine bind_congr fun i => ?_
    have hrest : ∀ plain : Bool, (if plain then do
          let code ← evalOrYield r u n i
          closeScope i >>= fun sc => InjectM.around sc code
        else do
          let t ← valueTemp i n
          let stored ← keepValue r i n t
          let sc ← closeScope i
          aroundValue r u sc t stored) = ((do
            if plain then return .stmt (← evalOrYield r u n i)
            let t ← valueTemp i n
            return .value u t (← keepValue r i n t)) >>= fun p : Pending =>
              closeScope i >>= fun sc => p.around r sc) := by
      intro plain
      cases plain <;> simp only [Bool.false_eq_true, if_true, if_false, bind_assoc, pure_bind] <;>
        rfl
    split_ifs
    · exact hrest true
    · simp only [bind_assoc]
      exact bind_congr fun h => bind_congr fun plain => hrest plain
  | own s n =>
    simp only [inject, inOwnScope, work, closeAround_eq, bind_assoc, pure_bind]
    rfl

variable {o : Outset} {c : InjectContext} {st : InjectState} {i : ScopeId} {k : Nat}

section Work

variable {g : Ground} {T : Note → Prop} {d : Nat}

theorem logs_work (x : Region) (hg : o.Holds g.types g.ops.symbols) (hs : g.Sound (x.source c))
    (hn : o.Accepts (x.source c)) : Logs g T d c (x.work (rules k) i) fun p l =>
      (o.exits (x.source c) = true → .left i ∈ l) ∧ p.Sound g := by
  cases x with
  | whole =>
    refine .ask .read fun y hy => ?_
    obtain ⟨rfl, -, -⟩ := hy
    refine .bind ((follows_ruled g _).eval i .normal hs) fun code l h => ?_
    refine .bind logs_sinkParams fun _ _ _ => .pure ⟨fun hx => ?_, trivial⟩
    simp [(Outset.noted_ruled hg _).eval h hn hx]
  | arm u s isStmt n =>
    have hrest : ∀ plain : Bool, Logs g T d c (do
        if plain then return Pending.stmt (← evalOrYield (rules k) u n i)
        let t ← valueTemp i n
        return Pending.value u t (← keepValue (rules k) i n t)) fun p l =>
          (o.exits n = true → .left i ∈ l) ∧ p.Sound g := by
      intro plain
      cases plain with
      | true =>
        refine .bind (logs_evalOrYield (follows_ruled g k) hs) fun code l h =>
          .pure ⟨fun hx => ?_, trivial⟩
        simp [Outset.noted_continues (Outset.noted_ruled hg _) h hn hx]
      | false =>
        refine .bind logs_valueTemp fun t _ ht => ?_
        refine .bind (logs_keepValue (follows_ruled g k) (Outset.noted_ruled hg k) hs hn)
          fun stored l h => .pure ⟨fun hx => ?_, ht⟩
        simp [h hx]
    simp only [work]
    split_ifs
    · exact hrest true
    · exact .lift_bind fun h _ => .ask asks_isVoid fun b _ => hrest b
  | own s n =>
    refine .bind ((follows_ruled g k).eval i .normal hs) fun code l h =>
      .pure ⟨fun hx => ?_, trivial⟩
    simp [(Outset.noted_ruled hg k).eval h hn hx]

theorem logs_pending {p : Pending} (hp : p.Sound g) :
    Logs g Declared d c (p.around (rules k) sc) fun out _ => sc.isIdle = false →
      sc.leftEarly = true → ∃ code, p.Has code ∧ Sheltered o sc code out := by
  cases p with
  | stmt code =>
    exact logs_around.mono fun out _ hout hbusy hleft => ⟨code, rfl, hout hbusy hleft⟩
  | value u t stored =>
    refine (logs_aroundValue (o := o) (follows_ruled g k) hp).mono fun out _ hout hbusy hleft => ?_
    obtain ⟨result, code, hcode, hs⟩ := hout hbusy hleft
    exact ⟨code, ⟨result, hcode⟩, hs⟩

end Work

/-- Where the source of a region has an exit, what its scope has scheduled when it is closed is done
however the code of the region is left. -/
theorem sheltered_of_exits (g : Region) (hst : o.Holds c.types st.ops.symbols)
    (hn : o.Accepts (g.source c))
    (hx : o.exits (g.source c) = true) {out : Node} {st' : InjectState}
    (hrun : g.inject (rules k) c st = .ok out st') :
    ∃ p st₁ sc, g.work (rules k) st.scopes.length c
        { st with scopes := st.scopes ++ [{ parent := g.parent }] } = .ok p st₁ ∧
      st₁.scopes[st.scopes.length]? = some sc ∧
      (sc.isIdle = false → ∃ code, p.Has code ∧ Sheltered o sc code out) := by
  let gr : Ground := { types := c.types, routine := c.routine, ops := st.ops
                       regular := False, known := False.elim, inside := False.elim }
  have hsound : gr.Sound (g.source c) := by
    refine ⟨hn.wellFormed.of_fields fun hd _ r _ hf => ?_, False.elim⟩
    rcases Nat.lt_or_ge r o.ops.symbols.all.size with hlt | hge
    · exact (hst.marked hlt).kind.trans hf
    · rw [Symbols.get_of_le hge] at hf
      cases hf
  have hopen : gr.Holds c { st with scopes := st.scopes ++ [{ parent := g.parent }] } :=
    ⟨rfl, rfl, .refl _⟩
  have hwork := logs_work (k := k) (i := st.scopes.length) (T := fun _ => False) g hst hsound hn
    _ hopen (fun _ h => h.elim) rfl
  suffices h : Leads (fun _ => True) (g.inject (rules k) c st) fun out _ => ∃ p st₁ sc,
      g.work (rules k) st.scopes.length c
        { st with scopes := st.scopes ++ [{ parent := g.parent }] } = .ok p st₁ ∧
      st₁.scopes[st.scopes.length]? = some sc ∧
      (sc.isIdle = false → ∃ code, p.Has code ∧ Sheltered o sc code out) by
    rw [hrun] at h
    exact h
  rw [inject_eq, leads_bind]
  change Leads _ ((g.work (rules k) st.scopes.length >>= _) c
    { st with scopes := st.scopes ++ [({ parent := g.parent } : Scope)] }) _
  rw [leads_bind]
  cases hw : g.work (rules k) st.scopes.length c
    { st with scopes := st.scopes ++ [({ parent := g.parent } : Scope)] } with
  | error e st₁ => trivial
  | ok p st₁ =>
    rw [hw] at hwork
    obtain ⟨l, hl, hleft, hp⟩ := hwork
    refine leads_bind.2 (leads_closeScope (fun _ => trivial) fun sc scopes hsc hlen _ _ => ?_)
    have hopen : (st.scopes ++ [({ parent := g.parent } : Scope)])[st.scopes.length]? =
        some { parent := g.parent } := by simp
    obtain ⟨sc', hsc', htook⟩ := hl.scope hopen
    obtain rfl : sc = sc' := Option.some.inj (hsc.symm.trans hsc')
    have hearly : sc.leftEarly = true := by
      rw [htook.eq, Log.mem_left.2 (hleft hx), Bool.or_true]
    have hst₂ : gr.Holds c { st₁ with scopes } := ⟨rfl, rfl, hl.ops⟩
    have hknows : st₁.ops.Knows gr.types Declared := by
      rintro _ ⟨r, rfl⟩ y hy
      cases hy
    refine (logs_pending (o := o) (k := k) hp _ hst₂ hknows hlen).mono (fun _ _ => trivial) ?_
    rintro out _ ⟨-, -, hout⟩
    exact ⟨p, st₁, sc, rfl, hsc, fun hbusy => hout hbusy hearly⟩

end Region

namespace FoundPlace

open Sample

def types : TypeTable where
  types := #[{}, { kind := .string }, { kind := .bool }, { kind := .object, payload := 1 },
    { kind := .ptr, elem := 3 }, { kind := .proc, payload := 1 }, { kind := .proc, payload := 2 }]
  objects := #[{}, { name := "R", fields := some [{ name := "s", type := 1 }] }]
  procs := #[{}, { result := 4, raises := true }, { params := some [{ type := 1 }], result := 1 }]

def shared : Shared where
  ops.symbols.all := #[{ name := "f", kind := .proc }, { name := "find", kind := .proc, type := 5 },
    { name := "trim", kind := .proc, type := 6 },
    { name := "c", kind := .param, owner := some 0, type := 2 },
    { name := "s", kind := .field, type := 1 },
    { name := "x", kind := .varLocal, owner := some 0, type := 1 }]

/-- `find()[].s` -/
def place (site : Nat) : Node :=
  node .dot 1 site [node .deref 3 (site + 1) [node .call 4 (site + 2) [sym 1 5 (site + 3)]],
    sym 4 1 (site + 4)]

/-- `var x = "a"; trim(x)` -/
def trimmed : Node :=
  node .stmtListExpr 1 10 [
    node .varSection 0 11 [node .identDefs 0 12 [sym 5 1 13, node .strLit 1 14 []]],
    node .call 1 15 [sym 2 6 16, sym 5 1 17]]

/-- `find()[].s = if c: (var x = "a"; trim(x)) else: ""` -/
def storing : Routine where
  sym := some 0
  params := [some 3]
  body := node .asgn 0 1 [place 2, node .ifStmt 1 20 [
    node .elifBranch 0 21 [sym 3 2 22, trimmed], node .elseBranch 0 23 [node .strLit 1 24 []]]]

/-- `var x = "a"; find()[].s = trim(x)` -/
def plain : Routine where
  sym := some 0
  body := node .stmtList 0 1 [
    node .varSection 0 11 [node .identDefs 0 12 [sym 5 1 13, node .strLit 1 14 []]],
    node .asgn 0 18 [place 2, node .call 1 15 [sym 2 6 16, sym 5 1 17]]]

def outset : Outset := ⟨types, shared.ops⟩

def isBare (n : Node) : Bool :=
  match n.kids with
  | [_, code, .node _ [.node _ [_, x]]] => outset.exits code && x.isSym (some 5)
  | _ => false

theorem accepts (hw : n.WellFormed outset.ops.symbols)
    (hi : n.preorder.all (!·.isKind .index) = true) : outset.Accepts n := by
  refine ⟨hw, fun m hm hidx => ?_⟩
  have hno := List.all_eq_true.1 hi m hm
  rw [hidx] at hno
  cases hno

def context : InjectContext := { types, routine := plain }

def start : InjectState :=
  { shared with
    oracle := { graph := (plain.graph shared.ops.symbols types).toOption.getD default } }

end FoundPlace

open FoundPlace Sample in
/-- The place is found twice in the branch. If that raises, `x` is not destroyed. -/
theorem exits_uncovered : outset.Accepts storing.body ∧
    ∃ res out, (storing.inject { types } shared).1 = .ok res ∧ res.error.isNone = true ∧
      res.body = some out ∧ (∃ b ∈ out.preorder, isBare b = true) ∧
      ∀ n ∈ out.preorder, n.isKind .tryStmt = false := by
  refine ⟨accepts (by rfl) (by decide), ?_⟩
  obtain ⟨res, hres, hrun⟩ := exists_ok (x := (storing.inject { types } shared).1)
    (p := fun res => res.error.isNone && res.body.any fun out =>
      out.preorder.any isBare && out.preorder.all (!·.isKind .tryStmt)) (by decide +kernel)
  simp only [Bool.and_eq_true, Option.any_eq_true, List.any_eq_true, List.all_eq_true,
    Bool.not_eq_true'] at hrun
  obtain ⟨he, out, hout, hbare, htry⟩ := hrun
  exact ⟨res, out, hres, he, hout, hbare, htry⟩

open FoundPlace Sample in
/-- In the whole body the place is found in a `try`. -/
theorem sheltered_of_exits_plain : ∃ out st' p st₁ sc code,
    Region.whole.inject (rules 0) context start = .ok out st' ∧
    Region.whole.work (rules 0) 0 context { start with scopes := [{ parent := none }] } =
      .ok p st₁ ∧
    st₁.scopes[0]? = some sc ∧ sc.finals.length = 1 ∧ p.Has code ∧
    Sheltered outset sc code out := by
  have hrun : (match Region.whole.inject (rules 0) context start,
        Region.whole.work (rules 0) 0 context { start with scopes := [{ parent := none }] } with
      | .ok _ _, .ok _ st₁ => st₁.scopes[0]?.any fun sc => sc.finals.length == 1
      | _, _ => false) = true := by decide +kernel
  rcases hin : Region.whole.inject (rules 0) context start with ⟨out, st'⟩ | ⟨e, st'⟩
  · have hholds : outset.Holds context.types start.ops.symbols :=
      ⟨rfl, Nat.le_refl _, fun _ => .refl _⟩
    obtain ⟨p, st₁, sc, hwork, hsc, hs⟩ := Region.sheltered_of_exits .whole hholds
      (accepts (by rfl) (by decide)) (by decide) hin
    have hwork : Region.whole.work (rules 0) 0 context
      { start with scopes := [{ parent := none }] } =
        .ok p st₁ := hwork
    have hsc : st₁.scopes[0]? = some sc := hsc
    rw [hin, hwork] at hrun
    have hone : sc.finals.length = 1 := by simpa [hsc] using hrun
    obtain ⟨code, hcode, hs⟩ := hs (by
      rw [Scope.isIdle, Bool.and_eq_false_iff]
      exact .inr (by cases hf : sc.finals <;> simp [hf] at hone ⊢))
    exact ⟨out, st', p, st₁, sc, code, rfl, hwork, hsc, hone, hcode, hs⟩
  · rw [hin] at hrun
    cases hrun

end Lifecycle
