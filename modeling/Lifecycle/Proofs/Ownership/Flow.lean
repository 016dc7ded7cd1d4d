import Lifecycle.Proofs.Ownership.Fragment

/-!
# The flow of string routines

The plan of a routine has the code that the syntax says (`plans`). It is structured, nobody leaves
it early, and its accesses are to names (`plain_graph`).
-/

namespace Lifecycle

open Lifecycle.Graph Lowering

namespace Fragment

variable {S : Setting} {Γ : List SymRef} {s : Surroundings} {h c : Head} {x f : SymRef}
  {a b : List Instr} {i : Instr}

def Plans (r : Except Fault Plan) (c : List Instr) : Prop := ∃ p, r = .ok p ∧ p.code = c

theorem plans_named : Plans (S.lowering.plan s (named h x)) (readCode S h x) := by
  refine ⟨if S.symbols.isLocal (some x) S.routine.sym then .access false (named h x) else .skip,
    rfl, ?_⟩
  unfold readCode
  split_ifs <;> rfl

theorem isCallee_iff : S.isCallee c f = true ↔ S.isKnown f = true ∧
    (S.symbols.get f).kind = .proc ∧ (S.symbols.get f).magic = .none ∧
    (S.symbols.get f).has .generated = false ∧ (S.symbols.get f).has .canRaise = false ∧
    S.types.kindOf c.type = .proc ∧ ∃ p, S.types.procInfo? c.type = .ok (some p) ∧
      p.raises = false ∧ ∀ q ∈ p.params.items, q.compileTime = false := by
  unfold Setting.isCallee
  rcases S.types.procInfo? c.type with e | _ | p
  · simp
  · simp
  · simp [and_assoc]

theorem readCode_callee (hf : S.isCallee c f = true) : readCode S h f = [] := by
  obtain ⟨-, hk, -⟩ := isCallee_iff.1 hf
  simp [readCode, Symbols.isLocal, Symbol.isLocal, hk, SymKind.isStorage]

theorem isShortCircuit_callee (hf : S.isCallee c f = true) (args : List Node) :
    S.lowering.isShortCircuit (named c f) args = .ok false := by
  obtain ⟨-, -, hm, -⟩ := isCallee_iff.1 hf
  have hget : S.lowering.symbols.get f = S.symbols.get f := rfl
  have hinfo : (named c f).info = .ok { c with kind := .sym, sym := some f } := rfl
  unfold isShortCircuit
  change (if _ then _ else _) = _
  split_ifs
  · change Except.ok _ = _
    rw [hget, hm]
    rfl
  · rfl

mutual

theorem Expr.plans (hs : s.inTry = false) : ∀ e : Expr, e.fits S Γ = true →
    Plans (S.lowering.plan s e.node) (e.code S)
  | .name h x, _ => plans_named
  | .text h, _ => by
    exact ⟨.skip, rfl, rfl⟩
  | .call h c f as, hf => by
    simp only [Expr.fits, Bool.and_eq_true] at hf
    obtain ⟨p, hp, hcallee⟩ := plans_named (S := S) (s := s) (h := c) (x := f)
    obtain ⟨q, hq, hargs⟩ := as.plans hs hf.2
    rw [Expr.node, plan]
    rw [isShortCircuit_callee hf.1.1, hp, hq, unwinds, hs]
    refine ⟨.seq p q, rfl, ?_⟩
    rw [Plan.code, hcallee, hargs, readCode_callee hf.1.1]
    rfl

theorem Args.plans (hs : s.inTry = false) : ∀ as : Args, as.fits S Γ = true →
    Plans (S.lowering.planAll s as.nodes) (as.code S)
  | .nil, _ => by
    exact ⟨.skip, rfl, rfl⟩
  | .cons e as, hf => by
    simp only [Args.fits, Bool.and_eq_true] at hf
    obtain ⟨p, hp, he⟩ := e.plans hs hf.1
    obtain ⟨q, hq, has⟩ := as.plans hs hf.2
    rw [Args.nodes, planAll, hp, hq]
    exact ⟨.seq p q, rfl, by rw [Plan.code, he, has]; rfl⟩

end

/-! ## Structure -/

structure Smooth (c : List Instr) : Prop where
  tidy : Tidy c
  stays : Stays c
  named : ∀ i ∈ c, ∀ n, i.access? = some n → ∃ v, n.isSym (some v) = true

theorem smooth_nil : Smooth [] where
  tidy := .nil
  stays _ h := by cases h
  named _ h := by cases h

theorem isSym_named : (named h x).isSym (some x) = true := by simp [named]

theorem smooth_access (hi : i.access? = some (named h x)) : Smooth [i] where
  tidy := .access hi
  stays n hn := by
    obtain rfl := List.mem_singleton.1 hn
    cases hi
  named j hj n hn := by
    obtain rfl := List.mem_singleton.1 hj
    rw [hi] at hn
    cases hn
    exact ⟨x, isSym_named⟩

theorem Smooth.append (ha : Smooth a) (hb : Smooth b) : Smooth (a ++ b) where
  tidy := ha.tidy.append hb.tidy
  stays n hn := (List.mem_append.1 hn).elim (ha.stays n) (hb.stays n)
  named i hi := (List.mem_append.1 hi).elim (ha.named i) (hb.named i)

theorem Smooth.skip {a : List Instr} (n : Node) (ha : Smooth a) :
    Smooth (.fork n (a.length + 1) :: a) where
  tidy := .skip n ha.tidy
  stays m hm := ha.stays m (by simpa using hm)
  named i hi m hm := by
    rcases List.mem_cons.1 hi with rfl | hi
    · cases hm
    · exact ha.named i hi m hm

theorem Smooth.arm (n : Node) (ha : Smooth a) (hb : Smooth b) : Smooth (armCode n a b) where
  tidy := .arm n ha.tidy hb.tidy
  stays m hm := by
    simp only [armCode, List.mem_cons, List.mem_append, reduceCtorEq,
      Instr.goto.injEq, false_or, and_false] at hm
    exact hm.elim (ha.stays m) (hb.stays m)
  named i hi m hm := by
    simp only [armCode, List.cons_append, List.mem_cons, List.mem_append] at hi
    rcases hi with rfl | hi | rfl | hi
    · cases hm
    · exact ha.named i hi m hm
    · cases hm
    · exact hb.named i hi m hm

theorem Smooth.rounds (n : Node) (ha : Smooth a) (hb : Smooth b) : ∀ k, Smooth (roundsCode n a b k)
  | 0 => smooth_nil
  | k + 1 => by
    have := ha.append ((hb.append (Smooth.rounds n ha hb k)).skip n)
    simpa only [roundsCode, List.length_append, List.append_assoc, List.cons_append] using this

theorem smooth_readCode : Smooth (readCode S h x) := by
  unfold readCode
  split_ifs
  · exact smooth_access rfl
  · exact smooth_nil

mutual

theorem Expr.smooth : ∀ e : Expr, Smooth (e.code S)
  | .name _ _ => smooth_readCode
  | .text _ => smooth_nil
  | .call _ _ _ as => as.smooth

theorem Args.smooth : ∀ as : Args, Smooth (as.code S)
  | .nil => smooth_nil
  | .cons e as => e.smooth.append as.smooth

end

mutual

theorem Stmt.smooth : ∀ t : Stmt, Smooth (t.code S)
  | .seq _ b => b.smooth
  | .declare _ _ _ _ _ => smooth_nil
  | .define _ _ _ _ e => e.smooth.append (smooth_access rfl)
  | .assign _ _ _ e => e.smooth.append (smooth_access rfl)
  | .eval e => e.smooth
  | .discard _ e => e.smooth
  | .cond _ a => a.smooth
  | .loop _ _ _ body => smooth_readCode.rounds _ body.smooth 3

theorem Block.smooth : ∀ b : Block, Smooth (b.code S)
  | .nil => smooth_nil
  | .cons t b => t.smooth.append b.smooth

theorem Arms.smooth : ∀ a : Arms, Smooth (a.code S)
  | .nil => smooth_nil
  | .other _ body => body.smooth
  | .test _ _ _ body rest => smooth_readCode.append (body.smooth.arm _ rest.smooth)

end

/-! ## Lowering of statements -/

theorem planWrite_named (hx : S.isLocal x = true) {read operands : Unit → Except Fault Plan}
    (ho : operands () = .ok .skip) : S.lowering.planWrite (named h x) read operands =
      .ok (.seq .skip (.access true (named h x))) := by
  have hp : (named h x).path? = .ok (some ⟨some x, []⟩) := rfl
  have ht : S.lowering.tracks (some x) = true := by
    simp only [Setting.isLocal, Bool.and_eq_true, decide_eq_true_eq] at hx
    obtain ⟨⟨⟨⟨-, hk⟩, ho⟩, -⟩, -⟩ := hx
    simp [tracks, Setting.lowering, Symbols.isLocal, Symbol.isLocal, hk, ho, SymKind.isStorage]
  unfold planWrite
  change (if _ then _ else _) = _
  rw [if_pos ht, ho]
  rfl

theorem planOperands_named : S.lowering.planOperands s (named h x) = .ok .skip := by
  rfl

theorem Expr.info_eq (e : Expr) : ∃ hd, e.node.info = .ok hd ∧ hd.kind ≠ .empty := by
  cases e <;> exact ⟨_, rfl, by simp⟩

mutual

theorem Stmt.plans : ∀ {s : Surroundings} (Γ : List SymRef) (t : Stmt), s.inTry = false →
    t.fits S Γ = true → Plans (S.lowering.plan s t.node) (t.code S)
  | s, Γ, .seq h b, hs, hf => by
    unfold plan
    exact b.plans Γ hs hf
  | s, Γ, .declare h d v i x, hs, hf => by
    rw [Stmt.node]
    unfold plan
    rw [planDefs]
    exact ⟨.skip, rfl, rfl⟩
  | s, Γ, .define h d v x e, hs, hf => by
    simp only [Stmt.fits, Expr.fitsIn, Bool.and_eq_true] at hf
    obtain ⟨⟨⟨hx, -⟩, he⟩, -⟩ := hf
    obtain ⟨hd, hi, hne⟩ := e.info_eq
    obtain ⟨p, hp, hcode⟩ := e.plans hs he
    rw [Stmt.node]
    unfold plan
    unfold planDefs
    dsimp only
    rw [hi]
    change Plans (if hd.kind = .empty then _ else _) _
    rw [if_neg hne, hp, planWrite_named hx planOperands_named, planDefs]
    refine ⟨_, rfl, ?_⟩
    simp only [Plan.code, hcode, List.nil_append, List.append_nil]
    rfl
  | s, Γ, .assign h v x e, hs, hf => by
    simp only [Stmt.fits, Expr.fitsIn, Bool.and_eq_true] at hf
    obtain ⟨⟨-, ⟨⟨hx, -⟩, he⟩, -⟩, -⟩ := hf
    obtain ⟨p, hp, hcode⟩ := e.plans hs he
    rw [Stmt.node]
    unfold plan
    dsimp only
    rw [hp, planWrite_named hx planOperands_named]
    exact ⟨_, rfl, by rw [Plan.code, hcode]; rfl⟩
  | s, Γ, .eval e, hs, hf => by
    simp only [Stmt.fits, Bool.and_eq_true] at hf
    exact e.plans hs hf.2
  | s, Γ, .discard h e, hs, hf => by
    simp only [Stmt.fits, Bool.and_eq_true] at hf
    unfold plan
    exact e.plans hs hf.2
  | s, Γ, .cond h a, hs, hf => by
    simp only [Stmt.fits, Bool.and_eq_true] at hf
    unfold plan
    exact a.plans Γ hs hf.2
  | s, Γ, .loop h c x body, hs, hf => by
    simp only [Stmt.fits, Bool.and_eq_true] at hf
    have hclosed := (Stmt.smooth (S := S) (.loop h c x body)).tidy.closeBlock_eq
    obtain ⟨p, hp, hbody⟩ := body.plans Γ (s := { s with labels := none :: s.labels }) hs hf.2
    obtain ⟨q, hq, hcond⟩ := plans_named (S := S) (s := { s with labels := none :: s.labels })
    rw [Stmt.node]
    unfold plan
    dsimp only
    rw [hp, hq]
    exact ⟨_, rfl, by rw [Plan.code, hbody, hcond]; exact hclosed⟩

theorem Block.plans : ∀ {s : Surroundings} (Γ : List SymRef) (b : Block), s.inTry = false →
    b.fits S Γ = true → Plans (S.lowering.planAll s b.nodes) (b.code S)
  | s, Γ, .nil, hs, hf => by
    exact ⟨.skip, rfl, rfl⟩
  | s, Γ, .cons t b, hs, hf => by
    simp only [Block.fits, Bool.and_eq_true] at hf
    obtain ⟨p, hp, ht⟩ := t.plans Γ hs hf.1
    obtain ⟨q, hq, hb⟩ := b.plans _ hs hf.2
    rw [Block.nodes, planAll, hp, hq]
    exact ⟨.seq p q, rfl, by rw [Plan.code, ht, hb]; rfl⟩

theorem Arms.plans : ∀ {s : Surroundings} (Γ : List SymRef) (a : Arms), s.inTry = false →
    a.fits S Γ = true → Plans (S.lowering.planElifs s a.nodes) (a.code S)
  | s, Γ, .nil, hs, hf => by
    exact ⟨.skip, rfl, rfl⟩
  | s, Γ, .other h body, hs, hf => by
    obtain ⟨p, hp, hbody⟩ := body.plans Γ hs hf
    rw [Arms.nodes]
    unfold planElifs
    dsimp only
    rw [hp, planElifs]
    exact ⟨.seq p .skip, rfl, by rw [Plan.code, hbody]; exact List.append_nil _⟩
  | s, Γ, .test h c x body rest, hs, hf => by
    simp only [Arms.fits, Bool.and_eq_true] at hf
    obtain ⟨p, hp, hcond⟩ := plans_named (S := S) (s := s) (h := c) (x := x)
    obtain ⟨q, hq, hbody⟩ := body.plans Γ hs hf.1.2
    obtain ⟨r, hr, hrest⟩ := rest.plans Γ hs hf.2
    rw [Arms.nodes]
    unfold planElifs
    dsimp only
    rw [hp, hq, hr]
    exact ⟨_, rfl, by rw [Plan.code, Plan.code, hcond, hbody, hrest]; rfl⟩

end

theorem plain_graph {t : Stmt} (hb : S.routine.body = t.node) (hf : t.fits S Γ = true) :
    S.routine.graph S.symbols S.types = .ok ⟨(t.code S).toArray⟩ ∧ Plain ⟨(t.code S).toArray⟩ := by
  have hcode := t.smooth (S := S)
  refine ⟨?_, ⟨hcode.tidy, hcode.stays, fun {pc i n} h ha => ?_⟩⟩
  · obtain ⟨p, hp, hplan⟩ := t.plans (s := {}) Γ rfl hf
    change (do return Graph.mk (← S.lowering.plan {} S.routine.body).code.toArray) = _
    rw [hb, hp, ← hplan]
    rfl
  · exact hcode.named i (by simpa using Array.mem_of_getElem? h) n ha

/-! ## Accesses -/

mutual

theorem Stmt.exports_sub (x : SymRef) : ∀ t : Stmt, x ∈ t.exports → x ∈ t.decls
  | .seq _ b, h => b.exports_sub x h
  | .declare _ _ _ _ _, h => h
  | .define _ _ _ _ _, h => h
  | .assign _ _ _ _, h => h
  | .eval _, h => h
  | .discard _ _, h => h
  | .cond _ _, h => by cases h
  | .loop _ _ _ _, h => by cases h

theorem Block.exports_sub (x : SymRef) : ∀ b : Block, x ∈ b.exports → x ∈ b.decls
  | .nil, h => h
  | .cons t b, h => by
    rw [Block.exports, List.mem_append] at h
    rw [Block.decls, List.mem_append]
    exact h.imp (t.exports_sub x) (b.exports_sub x)

end

mutual

theorem Expr.mem_code : ∀ e : Expr, i ∈ e.code S →
    ∃ h x, i = .use (named h x) ∧ x ∈ e.names ∧ h.site ∈ e.sites
  | .name h x, hi => by
    rw [Expr.code, readCode] at hi
    split_ifs at hi
    · obtain rfl := List.mem_singleton.1 hi
      exact ⟨h, x, rfl, by simp [Expr.names], by simp [Expr.sites]⟩
    · cases hi
  | .text _, hi => by cases hi
  | .call _ _ _ as, hi => as.mem_code hi

theorem Args.mem_code : ∀ as : Args, i ∈ as.code S →
    ∃ h x, i = .use (named h x) ∧ x ∈ as.names ∧ h.site ∈ as.sites
  | .nil, hi => by cases hi
  | .cons e as, hi => by
    rw [Args.code, List.mem_append] at hi
    rcases hi with hi | hi
    · obtain ⟨h, x, rfl, hx, hs⟩ := e.mem_code hi
      exact ⟨h, x, rfl, by simp [Args.names, hx], by simp [Args.sites, hs]⟩
    · obtain ⟨h, x, rfl, hx, hs⟩ := as.mem_code hi
      exact ⟨h, x, rfl, by simp [Args.names, hx], by simp [Args.sites, hs]⟩

end

theorem mem_readCode (hi : i ∈ readCode S h x) : i = .use (named h x) := by
  unfold readCode at hi
  split_ifs at hi
  · exact List.mem_singleton.1 hi
  · cases hi

theorem mem_armCode (hi : i ∈ armCode n a b) (ha : i.access? = some m) : i ∈ a ∨ i ∈ b := by
  simp only [armCode, List.cons_append, List.mem_cons, List.mem_append] at hi
  rcases hi with rfl | hi | rfl | hi
  · cases ha
  · exact .inl hi
  · cases ha
  · exact .inr hi

/-- An access to a name whose site is one of `sites`, which writes only what is in `dests`. -/
def Accesses (sites : List Nat) (dests : List SymRef) (i : Instr) : Prop :=
  ∀ n, i.access? = some n → ∃ h x, n = named h x ∧ h.site ∈ sites ∧ (i = .define n → x ∈ dests)

theorem Accesses.mono
    (h : Accesses sites dests i) (hs : ∀ s ∈ sites, s ∈ sites') (hd : ∀ x ∈ dests, x ∈ dests') :
    Accesses sites' dests' i := by
  intro n hn
  obtain ⟨hd', x, rfl, hs', hx⟩ := h n hn
  exact ⟨hd', x, rfl, hs _ hs', fun hi => hd x (hx hi)⟩

theorem accesses_cond (hi : i ∈ readCode S c x) : Accesses [c.site] [] i := by
  obtain rfl := mem_readCode hi
  intro n hn
  cases hn
  exact ⟨c, x, rfl, by simp, nofun⟩

/-! ## Places -/

def Avoids (sites : List Nat) (c : List Instr) : Prop :=
  ∀ y ∈ c, ∀ n, y.access? = some n → ∀ s ∈ sites, n.site ≠ some s

theorem avoids_of_accesses {c : List Instr}
    (hc : ∀ y ∈ c, Accesses sites dests y) (hd : ∀ s ∈ ss, s ∉ sites) : Avoids ss c := by
  rintro y hy n hn s hs he
  obtain ⟨h, x, rfl, hin, -⟩ := hc y hy n hn
  cases he
  exact hd _ hs hin

theorem avoids_nil : Avoids ss [] := nofun

theorem Avoids.append {ss : List Nat} {c d : List Instr} (hc : Avoids ss c) (hd : Avoids ss d) :
    Avoids ss (c ++ d) :=
  fun y hy => (List.mem_append.1 hy).elim (hc y) (hd y)

theorem Avoids.cons {c : List Instr} (hy : y.access? = none)
    (hc : Avoids ss c) : Avoids ss (y :: c) := by
  rintro z hz n hn
  rcases List.mem_cons.1 hz with rfl | hz
  · rw [hy] at hn
    cases hn
  · exact hc z hz n hn

/-- The code stands in the graph from `i` on and again from `j` on; its sites are not accessed
before `i` nor behind the code at `j`. A loop body has copies in between. -/
structure Stands (g : Graph) (i j : Nat) (c : List Instr) (ss : List Nat) : Prop where
  first : g.HasAt i c
  last : g.HasAt j c
  before : ∀ pc < i, ∀ y n, g.code[pc]? = some y → y.access? = some n → ∀ s ∈ ss, n.site ≠ some s
  after : ∀ pc, j + c.length ≤ pc → ∀ y n, g.code[pc]? = some y → y.access? = some n →
    ∀ s ∈ ss, n.site ≠ some s

def LastRead (g : Graph) (h : Head) (x : SymRef) : Prop :=
  ∃ pc, g.find? (named h x) = some pc ∧ ¬ g.Awaits x (pc + 1)

def FirstWrite (g : Graph) (v : Head) (x : SymRef) : Prop :=
  ∃ pc, g.findLast? (named v x) = some pc ∧ ¬ g.Touched x pc

section Stands

variable {g : Graph} {i j : Nat} {ss ss' : List Nat} {c p p' d q q' : List Instr}

theorem stands_self (c : List Instr) (ss : List Nat) : Stands ⟨c.toArray⟩ 0 0 c ss where
  first := by simpa using hasAt_self ⟨c.toArray⟩
  last := by simpa using hasAt_self ⟨c.toArray⟩
  before pc h := absurd h (Nat.not_lt_zero pc)
  after pc h y n hy := by
    rw [Array.getElem?_eq_none (by simpa using h)] at hy
    cases hy

/-- A part of the code. `p` is in front of its first copy, `q'` behind its last one. -/
theorem Stands.part (h : Stands g i j c ss) (hc : c = p ++ (d ++ q)) (hc' : c = p' ++ (d ++ q'))
    (hss : ∀ s ∈ ss', s ∈ ss) (hp : Avoids ss' p) (hq : Avoids ss' q') :
    Stands g (i + p.length) (j + p'.length) d ss' where
  first := HasAt.left (HasAt.right (hc ▸ h.first))
  last := HasAt.left (HasAt.right (hc' ▸ h.last))
  before pc hpc y n hy hn := by
    rcases Nat.lt_or_ge pc i with hlt | hge
    · exact fun s hs => h.before pc hlt y n hy hn s (hss s hs)
    · obtain ⟨o, rfl⟩ := Nat.exists_eq_add_of_le hge
      have hat : g.HasAt i p := HasAt.left (hc ▸ h.first)
      rw [hat.getElem? (by omega)] at hy
      exact hp y (List.mem_of_getElem? hy) n hn
  after pc hpc y n hy hn := by
    rcases Nat.lt_or_ge pc (j + c.length) with hlt | hge
    · have hat : g.HasAt (j + p'.length + d.length) q' := HasAt.right (HasAt.right (hc' ▸ h.last))
      obtain ⟨o, rfl⟩ := Nat.exists_eq_add_of_le hpc
      have hlen : o < q'.length := by
        rw [hc', List.length_append, List.length_append] at hlt
        omega
      rw [hat.getElem? hlen] at hy
      exact hq y (List.mem_of_getElem? hy) n hn
    · exact fun s hs => h.after pc hge y n hy hn s (hss s hs)

theorem Stands.mid (h : Stands g i j (p ++ (d ++ q)) ss) (hss : ∀ s ∈ ss', s ∈ ss)
    (hp : Avoids ss' p) (hq : Avoids ss' q) : Stands g (i + p.length) (j + p.length) d ss' :=
  h.part rfl rfl hss hp hq

theorem Stands.left (h : Stands g i j (c ++ d) ss) (hss : ∀ s ∈ ss', s ∈ ss)
    (hd : Avoids ss' d) : Stands g i j c ss' :=
  Stands.mid (p := []) h hss avoids_nil hd

theorem Stands.right (h : Stands g i j (c ++ d) ss) (hss : ∀ s ∈ ss', s ∈ ss)
    (hc : Avoids ss' c) : Stands g (i + c.length) (j + c.length) d ss' :=
  Stands.mid (q := []) (by simpa using h) hss hc avoids_nil

variable {y : Instr} {n : Node} {s : Nat}

theorem Stands.find?_eq (h : Stands g i j [y] ss) (hy : y.access? = some n) (hn : n.site = some s)
    (hs : s ∈ ss) : g.find? n = some i := by
  have hcode := h.first.head
  have hlt : i < g.code.toList.length := by
    exact (Array.getElem?_eq_some_iff.1 hcode).1
  refine List.findIdx?_eq_some_iff_getElem.2 ⟨hlt, ?_, fun k hk hat => ?_⟩
  · have : g.code.toList[i] = y := by
      rw [← Array.getElem?_toList] at hcode
      exact (List.getElem?_eq_some_iff.1 hcode).2
    rw [this, Instr.isAt, hy]
    simp [hn]
  · have hget : g.code[k]? = some g.code.toList[k] := by
      rw [← Array.getElem?_toList, List.getElem?_eq_getElem]
    rw [Instr.isAt] at hat
    rcases hm : Instr.access? g.code.toList[k] with _ | m
    · rw [hm] at hat
      cases hat
    · rw [hm] at hat
      refine h.before k hk _ m hget hm s hs ?_
      simp only [Bool.and_eq_true, decide_eq_true_eq] at hat
      rw [hat.2, hn]

theorem Stands.findLast?_eq (h : Stands g i j [y] ss) (hy : y.access? = some n)
    (hn : n.site = some s) (hs : s ∈ ss) : g.findLast? n = some j := by
  have hcode := h.last.head
  have hlt : j < g.size := (Array.getElem?_eq_some_iff.1 hcode).1
  have hlen : g.code.toList.length = g.size := Array.length_toList
  have hrev : ∀ k, k < g.size →
      g.code.toList.reverse[k]? = g.code[g.size - 1 - k]? := fun k hk => by
    rw [List.getElem?_reverse (by omega), hlen, Array.getElem?_toList]
  rw [Graph.findLast?, Option.map_eq_some_iff]
  refine ⟨g.size - 1 - j, List.findIdx?_eq_some_iff_getElem.2 ⟨?_, ?_, fun k hk hat => ?_⟩, ?_⟩
  · rw [List.length_reverse]
    omega
  · have := hrev (g.size - 1 - j) (by omega)
    rw [show g.size - 1 - (g.size - 1 - j) = j by omega, hcode] at this
    rw [(List.getElem?_eq_some_iff.1 this).2, Instr.isAt, hy]
    simp [hn]
  · have hb : k < g.code.toList.reverse.length := by
      rw [List.length_reverse]
      omega
    have hget := hrev k (by omega)
    rw [List.getElem?_eq_getElem hb] at hget
    rw [Instr.isAt] at hat
    rcases hm : Instr.access? g.code.toList.reverse[k] with _ | m
    · rw [hm] at hat
      cases hat
    · rw [hm] at hat
      refine h.after _ ?_ _ m hget.symm hm s hs ?_
      · simp only [List.length_singleton]
        omega
      · simp only [Bool.and_eq_true, decide_eq_true_eq] at hat
        rw [hat.2, hn]
  · omega

end Stands

end Fragment

end Lifecycle
