import Mathlib.Logic.Relation
import Lifecycle.Proofs.Flow.Ways

/-!
# Ways around a `finally`

The code of a `try` is its body, its handlers and its `finally`, one behind the other. What unwinds
out of the body goes to the handlers and from there to the `finally`. Other jumps out of the body or
the handlers lead to where the construct around ends: they go around the `finally`
(`Graph.bypassed_iff`).
-/

namespace Lifecycle

/-! ## Jumps within code -/

namespace Graph

variable {cs d : List Instr}

theorem Inward.rounds (hc : Inward cs) (hd : Inward d) (n : Node) :
    ∀ k, Inward (roundsCode n cs d k)
  | 0 => inward_nil
  | k + 1 => by
    have hrest := hd.append (Inward.rounds hc hd n k)
    rw [roundsCode, List.append_assoc]
    refine hc.append (hrest.fork n (by omega) (Nat.le_of_eq ?_))
    rw [List.length_append]

theorem Inward.tail (hc : Inward (x :: cs)) : Inward cs where
  goes {o y k} h hy := by
    have := hc.goes (o := o + 1) h hy
    rw [List.length_cons] at this
    omega

theorem Inward.head (hc : Inward (x :: cs)) (h : x.Goes k) : 0 < k ∧ k ≤ cs.length + 1 := by
  have := hc.goes (o := 0) rfl h
  rwa [List.length_cons, Nat.zero_add] at this

theorem Inward.jump (hc : Inward cs) (n : Node) : Inward (.goto n (.by (cs.length + 1)) :: cs) := by
  refine hc.cons fun h => ?_
  cases h with
  | access h => cases h
  | goto => omega

theorem Inward.closeBlock (hc : Inward cs) : Inward (closeBlock cs) := by
  induction cs with
  | nil => exact inward_nil
  | cons x cs ih =>
    have hrest := ih hc.tail
    have hx : ∀ {k}, x.Goes k → 0 < k ∧ k ≤ (Lifecycle.closeBlock cs).length + 1 := by
      rw [length_closeBlock]
      exact hc.head
    rcases x with ⟨n, d | _ | (_ | k) | _⟩ | ⟨n, d⟩ | n | n
    case goto.leave.zero =>
      have hjump := hrest.jump n
      rwa [length_closeBlock] at hjump
    case goto.leave.succ =>
      refine hrest.cons fun h => ?_
      cases h with
      | access h => cases h
    all_goals exact hrest.cons hx

theorem Inward.closeTry (hc : Inward cs) : Inward (closeTry cs) := by
  induction cs with
  | nil => exact inward_nil
  | cons x cs ih =>
    have hrest := ih hc.tail
    have hx : ∀ {k}, x.Goes k → 0 < k ∧ k ≤ (Lifecycle.closeTry cs).length + 1 := by
      rw [length_closeTry]
      exact hc.head
    rcases x with ⟨n, d | _ | k | _⟩ | ⟨n, d⟩ | n | n
    case goto.unwind =>
      have hjump := hrest.jump n
      rwa [length_closeTry] at hjump
    all_goals exact hrest.cons hx

end Graph

open Graph in
theorem Plan.Scoped.inward : ∀ {p : Plan} {d : Nat} {t : Bool}, p.Scoped d t → Inward p.code
  | .skip, _, _, _ => inward_nil
  | .access w n, _, _, _ => by
    refine inward_nil.cons fun h => ?_
    cases w <;> cases h <;> simp
  | .seq a b, _, _, hs => hs.1.inward.append hs.2.inward
  | .option o body, _, _, hs =>
    (Plan.Scoped.inward (p := body) hs).fork o (by omega) (Nat.le_refl _)
  | .arm o body rest, _, _, hs => hs.1.inward.arm hs.2.inward o
  | .jump o j, _, _, hs => by
    refine inward_nil.cons fun h => ?_
    cases h with
    | access h => cases h
    | goto => exact absurd rfl (hs.1 _)
  | .block body, _, _, hs => (Plan.Scoped.inward (p := body) hs).closeBlock
  | .loop o cond body, _, _, hs => (hs.1.inward.rounds hs.2.inward o 3).closeBlock
  | .forever body, _, _, hs =>
    have hb := Plan.Scoped.inward (p := body) hs
    ((hb.append hb).append hb).closeBlock
  | .guard body handlers final, _, _, hs =>
    (hs.1.inward.closeTry.append hs.2.1.inward).append hs.2.2.inward

/-! ## Where open jumps lead -/

namespace Landing

def of (L : Landing) (pc : Nat) : Jump → Nat
  | .leave k => L.leave k
  | .unwind => L.unwind
  | j => pc + j.dist pc

structure Beyond (L : Landing) (e : Nat) : Prop where
  leave : ∀ k, e ≤ L.leave k
  unwind : e ≤ L.unwind

variable {L : Landing} {e e' : Nat}

theorem Beyond.mono (h : L.Beyond e) (he : e' ≤ e) : L.Beyond e' :=
  ⟨fun k => Nat.le_trans he (h.leave k), Nat.le_trans he h.unwind⟩

theorem Beyond.push (h : L.Beyond e) : (L.push e).Beyond e where
  leave
    | 0 => Nat.le_refl _
    | k + 1 => h.leave k
  unwind := h.unwind

theorem Beyond.catching (h : L.Beyond e) (hm : m ≤ e) : (L.catching m).Beyond m :=
  ⟨fun k => Nat.le_trans hm (h.leave k), Nat.le_refl _⟩

theorem Beyond.of (h : L.Beyond e) (he : e ≤ exitTarget) (hj : ∀ d, j ≠ .by d)
    (pc : Nat) : e ≤ L.of pc j := by
  cases j with
  | «by» d => exact absurd rfl (hj d)
  | exit =>
    simp only [Landing.of, Jump.dist]
    omega
  | leave k => exact h.leave k
  | unwind => exact h.unwind

end Landing

namespace Graph

variable {g : Graph} {L : Landing} {i o next : Nat} {cs : List Instr} {n : Node} {j : Jump}

theorem Fits.step_of_goto (hf : g.Fits L i cs) (hj : cs[o]? = some (.goto n j)) :
    g.Step (i + o) (L.of (i + o) j) := by
  have h := hf.get hj
  cases j with
  | «by» d => exact .goto h
  | exit => exact .goto h
  | leave k =>
    obtain ⟨d, hd, he⟩ := h
    rw [Landing.of, ← he]
    exact .goto hd
  | unwind =>
    obtain ⟨d, hd, he⟩ := h
    rw [Landing.of, ← he]
    exact .goto hd

theorem Fits.step (hf : g.Fits L i cs) (hc : Inward cs) (ho : o < cs.length)
    (hs : g.Step (i + o) next) : i + o < next ∧ next ≤ i + cs.length ∨
      ∃ n j, .goto n j ∈ cs ∧ (∀ d, j ≠ .by d) ∧ next = L.of (i + o) j := by
  have hx : cs[o]? = some cs[o] := List.getElem?_eq_getElem ho
  have hmem : cs[o] ∈ cs := List.getElem_mem ho
  have hat := hf.get hx
  generalize cs[o] = x at hx hmem hat
  have hinner : g.code[i + o]? = some x → (∀ n j, x = .goto n j → ∃ d, j = .by d) →
      i + o < next ∧ next ≤ i + cs.length := fun hcode hj => by
    rcases hs.goes hcode with ⟨k, hk, rfl⟩ | ⟨n, j, rfl, hopen, -⟩
    · have := hc.goes hx hk
      omega
    · obtain ⟨d, rfl⟩ := hj n j rfl
      exact absurd rfl (hopen d)
  -- an open jump has been closed, so the step is known
  have hclosed : ∀ {n d e}, g.code[i + o]? = some (.goto n (.by d)) → i + o + d = e → next = e := by
    intro n d e hcode he
    rcases hs.goes hcode with ⟨k, hk, rfl⟩ | ⟨m, j, hj, hopen, -⟩
    · cases hk with
      | access h => cases h
      | goto => exact he
    · cases hj
      exact absurd rfl (hopen d)
  rcases x with ⟨n, d | _ | k | _⟩ | ⟨n, d⟩ | n | n
  case goto.exit =>
    refine .inr ⟨n, .exit, hmem, by simp, ?_⟩
    rcases hs.goes hat with ⟨k, hk, rfl⟩ | ⟨m, j, hj, -, he⟩
    · cases hk with
      | access h => cases h
    · cases hj
      exact he
  case goto.leave =>
    obtain ⟨d, hcode, he⟩ := hat
    exact .inr ⟨n, .leave k, hmem, by simp, hclosed hcode he⟩
  case goto.unwind =>
    obtain ⟨d, hcode, he⟩ := hat
    exact .inr ⟨n, .unwind, hmem, by simp, hclosed hcode he⟩
  case goto.by => exact .inl (hinner hat fun m j h => by cases h; exact ⟨d, rfl⟩)
  all_goals exact .inl (hinner hat nofun)

theorem Fits.lt_size (hf : g.Fits L i cs) (ho : o < cs.length) : i + o < g.size := by
  have hat := hf.get (List.getElem?_eq_getElem ho)
  have hsome : ∃ y, g.code[i + o]? = some y := by
    generalize cs[o] = x at hat
    rcases x with ⟨n, d | _ | k | _⟩ | ⟨n, d⟩ | n | n
    case goto.leave | goto.unwind =>
      obtain ⟨d, hd, -⟩ := hat
      exact ⟨_, hd⟩
    all_goals exact ⟨_, hat⟩
  obtain ⟨y, hy⟩ := hsome
  exact (Array.getElem?_eq_some_iff.1 hy).1

theorem Fits.round {cond body : List Instr} : ∀ {k r i : Nat},
    g.Fits L i (roundsCode n cond body k) →
    r < k → g.Fits L (i + r * (cond.length + 1 + body.length)) cond ∧
      g.Fits L (i + r * (cond.length + 1 + body.length) + cond.length + 1) body
  | k + 1, r, i, h, hr => by
    rw [roundsCode, List.append_assoc, fits_append, List.cons_append] at h
    obtain ⟨hc, -, h⟩ := h
    rw [fits_append] at h
    cases r with
    | zero => simpa using ⟨hc, h.1⟩
    | succ r =>
      have := h.2.round (Nat.lt_of_succ_lt_succ hr)
      rwa [show i + cond.length + 1 + body.length + r * (cond.length + 1 + body.length) =
        i + (r + 1) * (cond.length + 1 + body.length) by rw [Nat.succ_mul]; omega] at this

end Graph

/-! ## Parts of a plan -/

namespace Plan

open Graph

/-- The code of `q` stands in the code of `p`, `o` places behind its start. Each round of a loop has
code of its own. -/
inductive Occurs : Plan → Nat → Plan → Prop
  | self (p : Plan) : Occurs p 0 p
  | first {a q : Plan} {o : Nat} (b : Plan) (h : Occurs a o q) : Occurs (.seq a b) o q
  | second {b q : Plan} {o : Nat} (a : Plan) (h : Occurs b o q) :
    Occurs (.seq a b) (a.code.length + o) q
  | option {body q : Plan} {o : Nat} (n : Node) (h : Occurs body o q) :
    Occurs (.option n body) (1 + o) q
  | armBody {body q : Plan} {o : Nat} (n : Node) (rest : Plan) (h : Occurs body o q) :
    Occurs (.arm n body rest) (1 + o) q
  | armRest {rest q : Plan} {o : Nat} (n : Node) (body : Plan) (h : Occurs rest o q) :
    Occurs (.arm n body rest) (body.code.length + 2 + o) q
  | block {body q : Plan} {o : Nat} (h : Occurs body o q) : Occurs (.block body) o q
  | loopCond {cond q : Plan} {o r : Nat} (n : Node) (body : Plan) (hr : r < 3)
    (h : Occurs cond o q) :
    Occurs (.loop n cond body) (r * (cond.code.length + 1 + body.code.length) + o) q
  | loopBody {body q : Plan} {o r : Nat} (n : Node) (cond : Plan) (hr : r < 3)
    (h : Occurs body o q) :
    Occurs (.loop n cond body)
      (r * (cond.code.length + 1 + body.code.length) + cond.code.length + 1 + o) q
  | forever {body q : Plan} {o r : Nat} (hr : r < 3) (h : Occurs body o q) :
    Occurs (.forever body) (r * body.code.length + o) q
  | guardBody {body q : Plan} {o : Nat} (handlers final : Plan) (h : Occurs body o q) :
    Occurs (.guard body handlers final) o q
  | guardHandlers {handlers q : Plan} {o : Nat} (body final : Plan) (h : Occurs handlers o q) :
    Occurs (.guard body handlers final) (body.code.length + o) q
  | guardFinal {final q : Plan} {o : Nat} (body handlers : Plan) (h : Occurs final o q) :
    Occurs (.guard body handlers final) (body.code.length + handlers.code.length + o) q

def Placed (g : Graph) (i : Nat) (p : Plan) : Prop :=
  ∃ L d t, p.Scoped d t ∧ g.Fits L i p.code ∧ L.Beyond (i + p.code.length)

theorem Occurs.placed {p q : Plan} (h : p.Occurs o q) :
    ∀ {i}, p.Placed g i → q.Placed g (i + o) := by
  induction h with
  | self => exact fun h => h
  | @first a q o b _ ih =>
    rintro i ⟨L, d, t, hs, hf, hb⟩
    rw [code, List.length_append] at hb
    exact ih ⟨L, d, t, hs.1, (fits_append.1 hf).1, hb.mono (by omega)⟩
  | @second b q o a _ ih =>
    rintro i ⟨L, d, t, hs, hf, hb⟩
    rw [code, List.length_append] at hb
    rw [← Nat.add_assoc]
    exact ih ⟨L, d, t, hs.2, (fits_append.1 hf).2, hb.mono (by omega)⟩
  | @option body q o n _ ih =>
    rintro i ⟨L, d, t, hs, hf, hb⟩
    rw [code, List.length_cons] at hb
    rw [← Nat.add_assoc]
    exact ih ⟨L, d, t, hs, hf.2, hb.mono (by omega)⟩
  | @armBody body q o n rest _ ih =>
    rintro i ⟨L, d, t, hs, hf, hb⟩
    rw [code, armCode, List.cons_append] at hf hb
    rw [List.length_cons, List.length_append] at hb
    rw [← Nat.add_assoc]
    exact ih ⟨L, d, t, hs.1, (fits_append.1 hf.2).1, hb.mono (by omega)⟩
  | @armRest rest q o n body _ ih =>
    rintro i ⟨L, d, t, hs, hf, hb⟩
    rw [code, armCode, List.cons_append] at hf hb
    rw [List.length_cons, List.length_append, List.length_cons] at hb
    have hrest := (fits_append.1 hf.2).2.2
    rw [show i + 1 + body.code.length + 1 = i + (body.code.length + 2) by omega] at hrest
    rw [← Nat.add_assoc]
    exact ih ⟨L, d, t, hs.2, hrest, hb.mono (by omega)⟩
  | @block body q o _ ih =>
    rintro i ⟨L, d, t, hs, hf, hb⟩
    rw [code, length_closeBlock] at hb
    exact ih ⟨_, d + 1, t, hs, hf.closeBlock, hb.push⟩
  | @loopCond cond q o r n body hr _ ih =>
    rintro i ⟨L, d, t, hs, hf, hb⟩
    rw [code, length_closeBlock, length_roundsCode] at hb
    have hf := hf.closeBlock
    rw [length_roundsCode] at hf
    rw [← Nat.add_assoc]
    refine ih ⟨_, d + 1, t, hs.1, (hf.round hr).1, hb.push.mono ?_⟩
    have := Nat.mul_le_mul_right (cond.code.length + 1 + body.code.length) hr
    rw [Nat.succ_mul] at this
    omega
  | @loopBody body q o r n cond hr _ ih =>
    rintro i ⟨L, d, t, hs, hf, hb⟩
    rw [code, length_closeBlock, length_roundsCode] at hb
    have hf := hf.closeBlock
    rw [length_roundsCode] at hf
    rw [← Nat.add_assoc, ← Nat.add_assoc, ← Nat.add_assoc]
    refine ih ⟨_, d + 1, t, hs.2, (hf.round hr).2, hb.push.mono ?_⟩
    have := Nat.mul_le_mul_right (cond.code.length + 1 + body.code.length) hr
    rw [Nat.succ_mul] at this
    omega
  | @forever body q o r hr _ ih =>
    rintro i ⟨L, d, t, hs, hf, hb⟩
    rw [code, length_closeBlock] at hb
    have hf := hf.closeBlock
    simp only [List.length_append] at hb hf
    obtain ⟨⟨h0, h1⟩, h2⟩ := fits_append.1 hf |>.imp fits_append.1 id
    rw [List.length_append] at h2
    rw [← Nat.add_assoc]
    obtain rfl | rfl | rfl : r = 0 ∨ r = 1 ∨ r = 2 := by omega
    · rw [Nat.zero_mul]
      exact ih ⟨_, d + 1, t, hs, h0, hb.push.mono (by omega)⟩
    · rw [Nat.one_mul]
      exact ih ⟨_, d + 1, t, hs, h1, hb.push.mono (by omega)⟩
    · rw [Nat.two_mul]
      exact ih ⟨_, d + 1, t, hs, h2, hb.push.mono (by omega)⟩
  | @guardBody body q o handlers final _ ih =>
    rintro i ⟨L, d, t, hs, hf, hb⟩
    simp only [code, List.length_append, length_closeTry] at hb
    have hbody := (fits_append.1 (fits_append.1 hf).1).1.closeTry
    exact ih ⟨_, d, true, hs.1, hbody, hb.catching (by omega)⟩
  | @guardHandlers handlers q o body final _ ih =>
    rintro i ⟨L, d, t, hs, hf, hb⟩
    simp only [code, List.length_append, length_closeTry] at hb
    have hhand := (fits_append.1 (fits_append.1 hf).1).2
    rw [length_closeTry] at hhand
    rw [← Nat.add_assoc]
    exact ih ⟨L, d, t, hs.2.1, hhand, hb.mono (by omega)⟩
  | @guardFinal final q o body handlers _ ih =>
    rintro i ⟨L, d, t, hs, hf, hb⟩
    simp only [code, List.length_append, length_closeTry] at hb
    have hfin := (fits_append.1 hf).2
    rw [List.length_append, length_closeTry] at hfin
    rw [← Nat.add_assoc]
    exact ih ⟨L, d, t, hs.2.2, hfin, hb.mono (by omega)⟩

end Plan

/-! ## The `finally` -/

namespace Graph

variable {g : Graph} {body handlers final : Plan} {i : Nat}

/-- From the code between `start` and `fin` some way leads out of the code between `start` and
`stop` without passing the instruction at `fin`. -/
def Bypassed (g : Graph) (start fin stop : Nat) : Prop :=
  ∃ a z, start ≤ a ∧ a < fin ∧ (z < start ∨ stop ≤ z) ∧
    Relation.ReflTransGen (fun x y => x ≠ fin ∧ g.Step x y) a z

/-- A `break` in the body of a `try` that leads out of it, or any jump out of its handlers. -/
def Evades (body handlers : Plan) : Prop :=
  (∃ n j, .goto n j ∈ body.code ∧ n.isKind .breakStmt = true ∧ j ≠ .unwind ∧ ∀ d, j ≠ .by d) ∨
    ∃ n j, .goto n j ∈ handlers.code ∧ ∀ d, j ≠ .by d

/-- A step from the body or the handlers leads on to the `finally`, or it is a jump around it. -/
theorem step_guard (hp : (Plan.guard body handlers final).Placed g i) (hi : i ≤ x)
    (hx : x < i + body.code.length + handlers.code.length) (hs : g.Step x y) :
    i ≤ y ∧ y ≤ i + body.code.length + handlers.code.length ∨ Evades body handlers := by
  obtain ⟨L, d, t, hscope, hf, -⟩ := hp
  obtain ⟨hbody, hhand⟩ := fits_append.1 (fits_append.1 hf).1
  rw [length_closeTry] at hhand
  rcases Nat.lt_or_ge x (i + body.code.length) with hlt | hge
  · obtain ⟨o, rfl⟩ := Nat.exists_eq_add_of_le hi
    have ho : o < (closeTry body.code).length := by
      rw [length_closeTry]
      omega
    rcases hbody.step hscope.1.inward.closeTry ho hs with ⟨hlo, hle⟩ | ⟨n, j, hm, hj, -⟩
    · rw [length_closeTry] at hle
      exact .inl ⟨by omega, by omega⟩
    · rcases mem_closeTry hm with ⟨e, rfl⟩ | ⟨hne, hm⟩
      · exact absurd rfl (hj e)
      · refine .inr (.inl ⟨n, j, hm, ?_, hne, hj⟩)
        have := hscope.1.allowed hm
        cases j with
        | «by» d => exact absurd rfl (hj d)
        | exit => exact this.resolve_right (by simp)
        | leave k => exact this.2
        | unwind => exact absurd rfl hne
  · obtain ⟨o, rfl⟩ := Nat.exists_eq_add_of_le hge
    rcases hhand.step hscope.2.1.inward (by omega) hs with ⟨hlo, hle⟩ | ⟨n, j, hm, hj, -⟩
    · exact .inl ⟨by omega, by omega⟩
    · exact .inr (.inr ⟨n, j, hm, hj⟩)

theorem bypassed_of_goto
    (hf : g.Fits L i cs) (hm : .goto n j ∈ cs) (hj : ∀ d, j ≠ .by d) (hb : L.Beyond stop)
    (hexit : stop ≤ exitTarget) (hstart : start ≤ i) (hfin : i + cs.length ≤ fin) :
    g.Bypassed start fin stop := by
  obtain ⟨o, ho, he⟩ := List.mem_iff_getElem.1 hm
  have hget : cs[o]? = some (.goto n j) := by rw [List.getElem?_eq_getElem ho, he]
  exact ⟨i + o, L.of (i + o) j, by omega, by omega, .inr (hb.of hexit hj _),
    .single ⟨by omega, hf.step_of_goto hget⟩⟩

theorem mem_closeTry_of_mem (hj : j ≠ .unwind) : ∀ {cs : List Instr},
    .goto n j ∈ cs → .goto n j ∈ closeTry cs
  | x :: cs, h => by
    rcases List.mem_cons.1 h with rfl | h
    · cases j <;> simp_all [closeTry]
    · have := mem_closeTry_of_mem hj h
      rcases x with ⟨m, d | _ | k | _⟩ | ⟨m, d⟩ | m | m <;> exact List.mem_cons_of_mem _ this

/-- Ways around the `finally` of a `try` are the jumps that lead out of its handlers, and those of a
`break` out of its body. -/
theorem bypassed_iff {r : Routine} {ss : Symbols} {types : TypeTable} {p : Plan} {o : Nat}
    (hg : r.graph ss types = .ok g)
    (hp : Lowering.plan { symbols := ss, types, owner := r.sym } {} r.body = .ok p)
    (hsize : g.size ≤ exitTarget) (ho : p.Occurs o (.guard body handlers final))
    (hfinal : final.code ≠ []) :
    g.Bypassed o (o + body.code.length + handlers.code.length)
        (o + body.code.length + handlers.code.length + final.code.length) ↔
      Evades body handlers := by
  obtain ⟨p', hp', hcode, hw, hfits⟩ := fits_graph hg
  rw [hp] at hp'
  cases hp'
  have hplaced : (Plan.guard body handlers final).Placed g o := by
    have hall : p.Placed g 0 :=
      ⟨⟨fun _ => p.code.length, p.code.length⟩, _, _, hw.inScope, hfits _,
        fun _ => by simp, by simp⟩
    simpa using ho.placed hall
  have hpos := List.length_pos_iff.2 hfinal
  constructor
  · rintro ⟨a, z, ha, hafin, hz, hway⟩
    have hkeep : (o ≤ z ∧ z ≤ o + body.code.length + handlers.code.length) ∨
        Evades body handlers := by
      clear hz
      induction hway with
      | refl => exact .inl ⟨ha, by omega⟩
      | tail _ hs ih =>
        rcases ih with ⟨hlo, hhi⟩ | h
        · exact step_guard hplaced hlo (Nat.lt_of_le_of_ne hhi hs.1) hs.2
        · exact .inr h
    exact hkeep.resolve_left (by omega)
  · obtain ⟨L, d, t, -, hf, hb⟩ := hplaced
    obtain ⟨hf, hfin⟩ := fits_append.1 hf
    obtain ⟨hbody, hhand⟩ := fits_append.1 hf
    simp only [List.length_append, length_closeTry] at hfin hhand
    simp only [Plan.code, List.length_append, length_closeTry, ← Nat.add_assoc] at hb
    have hexit := hfin.lt_size (o := final.code.length - 1) (by omega)
    rintro (⟨n, j, hm, -, hne, hj⟩ | ⟨n, j, hm, hj⟩)
    · exact bypassed_of_goto hbody (mem_closeTry_of_mem hne hm) hj hb (by omega) (Nat.le_refl _)
        (by rw [length_closeTry]; omega)
    · exact bypassed_of_goto hhand hm hj hb (by omega) (by omega) (by omega)

end Graph

/-! ## A `break` out of a `try` -/

namespace BrokenTry

open Sample

def symbols : Symbols where
  all := #[{ name := "f", kind := .proc }, { name := "cs", owner := some 0 },
    { name := "x", kind := .varLocal, owner := some 0 }, { name := "use", kind := .proc }]

def leaves : Node := node .breakStmt 0 0 [node .empty 0 0 []]

/-- While `cs` holds, `x` is read and the loop is left, but not without another read of `x`. -/
def routine : Routine where
  sym := some 0
  params := [some 1]
  body := node .whileStmt 0 0 [sym 1 0 0, node .tryStmt 0 0 [
    node .stmtList 0 0 [node .call 0 0 [sym 3 0 0, sym 2 0 0], leaves],
    node .finallyBranch 0 0 [node .call 0 0 [sym 3 0 0, sym 2 0 0]]]]

def graph : Graph := graphOf routine symbols

def reading : Plan := .seq .skip (.seq (.access false (sym 2 0 0)) .skip)

def body : Plan := .seq reading (.seq (.jump leaves (.leave 0)) .skip)

theorem evades_body : Graph.Evades body .skip :=
  .inl ⟨leaves, .leave 0, by simp [body, reading, Plan.code], by decide, by simp, by simp⟩

end BrokenTry

open BrokenTry Sample in
/-- The second round of the loop. -/
theorem bypassed_iff_secondRound : routine.graph symbols {} = .ok graph ∧ graph.size ≤ exitTarget ∧
    Graph.Evades body .skip ∧ graph.Bypassed 7 9 10 := by
  have hg : routine.graph symbols {} = .ok graph := rfl
  have hp : Lowering.plan { symbols, types := {}, owner := routine.sym } {} routine.body =
      .ok (.loop routine.body (.access false (sym 1 0 0)) (.guard body .skip reading)) := rfl
  have hsize : graph.size ≤ exitTarget := by decide
  have ho : Plan.Occurs (.loop routine.body (.access false (sym 1 0 0)) (.guard body .skip reading))
    7
      (.guard body .skip reading) :=
    .loopBody (r := 1) routine.body (.access false (sym 1 0 0)) (by decide) (.self _)
  have hread : reading.code ≠ [] := by simp [reading, Plan.code]
  exact ⟨hg, hsize, evades_body, (Graph.bypassed_iff hg hp hsize ho hread).2 evades_body⟩

open BrokenTry Sample in
/-- From the read in the first round the way leads behind the loop, past the read that should come
between. -/
theorem finally_bypassed : routine.graph symbols {} = .ok graph ∧
    graph.code[2]? = some (.use (sym 2 0 0)) ∧ graph.code[4]? = some (.use (sym 2 0 0)) ∧
      graph.Bypassed 2 4 5 := by
  refine ⟨rfl, rfl, rfl, 2, 15, by decide, by decide, .inr (by decide), ?_⟩
  have hread : graph.Step 2 3 := .access (i := .use (sym 2 0 0)) rfl rfl
  have hbreak : graph.Step 3 15 := .goto (n := leaves) (j := .by 12) rfl
  exact .tail (.single ⟨by decide, hread⟩) ⟨by decide, hbreak⟩

end Lifecycle
