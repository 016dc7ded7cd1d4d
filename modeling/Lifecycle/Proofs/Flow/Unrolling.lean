import Mathlib.Data.List.Nodup
import Lifecycle.Proofs.Flow.Ways

/-!
# Three rounds stand for all

A graph has each loop written out three times. An execution can take any number of rounds (`Run`).
Whatever it does after a read it can also be seen to do from the first place where the graph has the
read: what comes behind in the same round stands behind it, and what comes in a later round stands
in the next copy (`Graph.contested_of_executes`).
-/

namespace Lifecycle

open Graph

namespace Plan

/-! ## Executions -/

/-- How an execution of a plan ends: behind it, by a jump out of a block, by leaving the routine, or
not yet. -/
inductive End where
  | done
  | leave (level : Nat)
  | exit
  | cut
deriving DecidableEq

def End.behind : End → End
  | .leave 0 => .done
  | .leave (k + 1) => .leave k
  | x => x

/-- The executions of a plan with the accesses that they perform. Loops take any number of rounds,
and every beginning of an execution counts as one. Guarded parts are not entered. -/
inductive Run : Plan → List Instr → End → Prop
  | cut (p : Plan) : Run p [] .cut
  | skip : Run .skip [] .done
  | access (w : Bool) (n : Node) : Run (.access w n) [.access w n] .done
  | seq {a b : Plan} {tr tr' : List Instr} {x : End} (ha : Run a tr .done) (hb : Run b tr' x) :
      Run (.seq a b) (tr ++ tr') x
  | seqLeft {a b : Plan} {tr : List Instr} {x : End} (ha : Run a tr x) (hx : x ≠ .done) :
      Run (.seq a b) tr x
  | passBy (o : Node) (p : Plan) : Run (.option o p) [] .done
  | option {o : Node} {p : Plan} {tr : List Instr} {x : End} (hp : Run p tr x) :
      Run (.option o p) tr x
  | armBody {o : Node} {p q : Plan} {tr : List Instr} {x : End} (hp : Run p tr x) :
      Run (.arm o p q) tr x
  | armRest {o : Node} {p q : Plan} {tr : List Instr} {x : End} (hq : Run q tr x) :
      Run (.arm o p q) tr x
  | leave (o : Node) (k : Nat) : Run (.jump o (.leave k)) [] (.leave k)
  | exit (o : Node) : Run (.jump o .exit) [] .exit
  | block {p : Plan} {tr : List Instr} {x : End} (hp : Run p tr x) : Run (.block p) tr x.behind
  | loopEnd {o : Node} {p q : Plan} {tr : List Instr} (hp : Run p tr .done) :
      Run (.loop o p q) tr .done
  | loopCond {o : Node} {p q : Plan} {tr : List Instr} {x : End} (hp : Run p tr x)
      (hx : x ≠ .done) : Run (.loop o p q) tr x.behind
  | loopBody {o : Node} {p q : Plan} {tr tr' : List Instr} {x : End} (hp : Run p tr .done)
      (hq : Run q tr' x) (hx : x ≠ .done) : Run (.loop o p q) (tr ++ tr') x.behind
  | loopNext {o : Node} {p q : Plan} {tr tr' tr'' : List Instr} {x : End} (hp : Run p tr .done)
      (hq : Run q tr' .done) (hr : Run (.loop o p q) tr'' x) :
      Run (.loop o p q) (tr ++ tr' ++ tr'') x
  | foreverBody {p : Plan} {tr : List Instr} {x : End} (hp : Run p tr x) (hx : x ≠ .done) :
      Run (.forever p) tr x.behind
  | foreverNext {p : Plan} {tr tr' : List Instr} {x : End} (hp : Run p tr .done)
      (hr : Run (.forever p) tr' x) : Run (.forever p) (tr ++ tr') x

def Confined (ns : List Node) (tr : List Instr) : Prop := ∀ y ∈ tr, ∃ n ∈ ns, y.access? = some n

theorem Confined.append {ns : List Node} {tr tr' : List Instr} (h : Confined ns tr)
    (h' : Confined ns tr') : Confined ns (tr ++ tr') := fun y hy =>
  (List.mem_append.1 hy).elim (h y) (h' y)

variable {ns ms : List Node} {tr : List Instr}

theorem Confined.left (h : Confined ns tr) : Confined (ns ++ ms) tr := fun y hy =>
  (h y hy).imp fun _ hn => ⟨List.mem_append_left _ hn.1, hn.2⟩

theorem Confined.right (h : Confined ms tr) : Confined (ns ++ ms) tr := fun y hy =>
  (h y hy).imp fun _ hn => ⟨List.mem_append_right _ hn.1, hn.2⟩

theorem Run.confined (h : Run p tr x) : Confined p.accesses tr := by
  induction h with
  | cut | skip | passBy | leave | exit => intro y hy; cases hy
  | access w n =>
    intro y hy
    obtain rfl := List.mem_singleton.1 hy
    exact ⟨n, List.mem_singleton.2 rfl, Instr.access?_access w n⟩
  | seq _ _ iha ihb => exact iha.left.append ihb.right
  | seqLeft _ _ ih | armBody _ ih | loopEnd _ ih | loopCond _ _ ih => exact ih.left
  | armRest _ ih => exact ih.right
  | option _ ih | block _ ih | foreverBody _ _ ih => exact ih
  | loopBody _ _ _ ihp ihq => exact ihp.left.append ihq.right
  | loopNext _ _ _ ihp ihq ihr => exact (ihp.left.append ihq.right).append ihr
  | foreverNext _ _ ihp ihr => exact ihp.append ihr

/-! ## Where a plan stands -/

def Forks (g : Graph) (o : Node) (i t : Nat) : Prop :=
  ∃ d, g.code[i]? = some (.fork o d) ∧ i + d = t

def RepeatsAt (B : Nat → Nat → Prop) (e : Nat) : Nat → Nat → Prop
  | 0, i => i = e
  | n + 1, i => ∃ m, B i m ∧ RepeatsAt B e n m

def RoundsAt (g : Graph) (o : Node) (C B : Nat → Nat → Prop) (e : Nat) : Nat → Nat → Prop :=
  RepeatsAt (fun i m' => ∃ m, C i m ∧ Forks g o m e ∧ B (m + 1) m') e

def Stands (g : Graph) : Plan → Nat → Nat → Landing → Prop
  | .skip, i, e, _ => i = e
  | .access w n, i, e, _ => g.code[i]? = some (.access w n) ∧ i + 1 = e
  | .seq a b, i, e, L => ∃ m, a.Stands g i m L ∧ b.Stands g m e L
  | .option o body, i, e, L => Forks g o i e ∧ body.Stands g (i + 1) e L
  | .arm o body rest, i, e, L => ∃ m, Forks g o i (m + 1) ∧ body.Stands g (i + 1) m L ∧
      (∃ d, g.code[m]? = some (.goto o (.by d)) ∧ m + d = e) ∧ rest.Stands g (m + 1) e L
  | .jump o j, i, e, L => g.Closes L i (.goto o j) ∧ i + 1 = e
  | .block body, i, e, L => body.Stands g i e (L.push e)
  | .loop o cond body, i, e, L =>
      RoundsAt g o (cond.Stands g · · (L.push e)) (body.Stands g · · (L.push e)) e 3 i
  | .forever body, i, e, L => RepeatsAt (body.Stands g · · (L.push e)) e 3 i
  | .guard body handlers final, i, e, L => ∃ m m', body.Stands g i m (L.catching m) ∧
      handlers.Stands g m m' L ∧ final.Stands g m' e L

def Ahead (g : Graph) : Plan → Nat → Nat → Landing → Prop
  | .loop o cond body, i, e, L => ∃ n,
      RoundsAt g o (cond.Stands g · · (L.push e)) (body.Stands g · · (L.push e)) e (n + 1) i
  | .forever body, i, e, L => ∃ n, RepeatsAt (body.Stands g · · (L.push e)) e (n + 1) i
  | p, i, e, L => p.Stands g i e L

section Stands

variable {g : Graph} {L : Landing} {i e : Nat} {n : Node}

theorem Stands.ahead : ∀ {p : Plan}, p.Stands g i e L → p.Ahead g i e L
  | .skip, h | .access _ _, h | .seq _ _, h | .option _ _, h | .arm _ _ _, h | .jump _ _, h
  | .block _, h | .guard _ _ _, h => h
  | .loop _ _ _, h => ⟨2, h⟩
  | .forever _, h => ⟨2, h⟩

theorem roundsAt_of_fits (hc : ∀ {i}, g.Fits L i c → C i (i + c.length))
    (hb : ∀ {i}, g.Fits L i b → B i (i + b.length)) : ∀ {n i : Nat},
      g.Fits L i (roundsCode o c b n) → i + (roundsCode o c b n).length = e → RoundsAt g o C B e n i
  | 0, i, _, he => he
  | n + 1, i, h, he => by
    rw [roundsCode, List.append_assoc, fits_append, List.cons_append] at h
    obtain ⟨hcond, hfork, hrest⟩ := h
    rw [fits_append] at hrest
    simp only [roundsCode, List.append_assoc, List.length_append, List.length_cons,
      List.cons_append] at he
    refine ⟨_, ⟨_, hc hcond, ⟨_, hfork, by omega⟩, hb hrest.1⟩, ?_⟩
    exact roundsAt_of_fits hc hb hrest.2 (by omega)

theorem stands_of_fits : ∀ {p : Plan} {i e : Nat} {L : Landing}, g.Fits L i p.code →
    i + p.code.length = e → p.Stands g i e L
  | .skip, i, e, L, _, he => he
  | .access w n, i, e, L, h, he => by
    refine ⟨?_, he⟩
    cases w <;> exact h.1
  | .seq a b, i, e, L, h, he => by
    rw [code, List.length_append] at he
    obtain ⟨ha, hb⟩ := fits_append.1 h
    exact ⟨_, stands_of_fits ha rfl, stands_of_fits hb (by omega)⟩
  | .option o body, i, e, L, h, he => by
    rw [code, List.length_cons] at he
    exact ⟨⟨_, h.1, he⟩, stands_of_fits h.2 (by omega)⟩
  | .arm o body rest, i, e, L, h, he => by
    obtain ⟨hfork, h⟩ := h
    obtain ⟨hbody, hjump, hrest⟩ := fits_append.1 h
    simp only [code, armCode, List.cons_append, List.length_cons, List.length_append] at he
    exact ⟨_, ⟨_, hfork, by omega⟩, stands_of_fits hbody rfl, ⟨_, hjump, by omega⟩,
      stands_of_fits hrest (by omega)⟩
  | .jump o j, i, e, L, h, he => ⟨h.1, he⟩
  | .block body, i, e, L, h, he => by
    rw [code, length_closeBlock] at he
    subst he
    exact stands_of_fits (p := body) h.closeBlock rfl
  | .loop o cond body, i, e, L, h, he => by
    rw [code, length_closeBlock] at he
    subst he
    exact roundsAt_of_fits (stands_of_fits · rfl) (stands_of_fits · rfl) h.closeBlock rfl
  | .forever body, i, e, L, h, he => by
    rw [code, length_closeBlock] at he
    subst he
    obtain ⟨h, h3⟩ := fits_append.1 h.closeBlock
    obtain ⟨h1, h2⟩ := fits_append.1 h
    refine ⟨_, stands_of_fits h1 rfl, _, stands_of_fits h2 rfl, _,
      stands_of_fits (i := i + body.code.length + body.code.length) ?_ rfl, ?_⟩
    · rwa [Nat.add_assoc, ← List.length_append]
    · simp only [RepeatsAt, List.length_append]
      omega
  | .guard body handlers final, i, e, L, h, he => by
    simp only [code, List.length_append, length_closeTry] at he
    obtain ⟨h, hfinal⟩ := fits_append.1 h
    obtain ⟨hbody, hhandlers⟩ := fits_append.1 h
    rw [length_closeTry] at hhandlers
    rw [List.length_append, length_closeTry, ← Nat.add_assoc] at hfinal
    exact ⟨_, _, stands_of_fits hbody.closeTry rfl, stands_of_fits hhandlers rfl,
      stands_of_fits hfinal (by omega)⟩

def Free (g : Graph) (n : Node) (i e : Nat) : Prop :=
  ∀ t, i ≤ t → t < e → ∀ x, g.code[t]? = some x → x.isAt n = false

theorem Free.trans (h : Free g n i m) (h' : Free g n m e) : Free g n i e :=
  fun t hi he => if hm : t < m then h t hi hm else h' t (Nat.le_of_not_lt hm) he

theorem free_nil (h : e ≤ i) : Free g n i e := fun t hi he => by omega

theorem free_one (h : g.code[i]? = some x) (hx : x.isAt n = false) : Free g n i (i + 1) := by
  intro t hi he y hy
  obtain rfl : t = i := by omega
  rw [h] at hy
  cases hy
  exact hx

theorem Forks.free (h : Forks g o i t) : Free g n i (i + 1) := by
  obtain ⟨d, hd, -⟩ := h
  exact free_one hd rfl

theorem closes_free (h : g.Closes L i (.goto o j)) : Free g n i (i + 1) := by
  cases j with
  | leave k =>
    obtain ⟨d, hd, -⟩ := h
    exact free_one hd rfl
  | unwind =>
    obtain ⟨d, hd, -⟩ := h
    exact free_one hd rfl
  | «by» d => exact free_one h rfl
  | exit => exact free_one h rfl

theorem RepeatsAt.free (hB : ∀ {i m}, B i m → Free g n i m) :
    ∀ {k i : Nat}, RepeatsAt B e k i → Free g n i e
  | 0, _, h => free_nil (Nat.le_of_eq (Eq.symm h))
  | _ + 1, _, ⟨_, hb, hr⟩ => (hB hb).trans (RepeatsAt.free hB hr)

theorem Stands.free : ∀ {p : Plan} {i e : Nat} {L : Landing}, p.Stands g i e L →
    (∀ m ∈ p.accesses, m.site ≠ n.site) → Free g n i e
  | .skip, _, _, _, h, _ => free_nil (Nat.le_of_eq (Eq.symm h))
  | .access w m, _, _, _, ⟨h, he⟩, hn => by
    subst he
    have hm : m.site ≠ n.site := hn m (List.mem_singleton.2 rfl)
    exact free_one h (by simp [Instr.isAt, hm])
  | .seq a b, _, _, _, ⟨_, ha, hb⟩, hn =>
    (ha.free fun m hm => hn m (List.mem_append_left _ hm)).trans
      (hb.free fun m hm => hn m (List.mem_append_right _ hm))
  | .option o body, _, _, _, ⟨hf, hb⟩, hn => hf.free.trans (hb.free hn)
  | .arm o body rest, _, _, _, ⟨_, hf, hb, ⟨_, hd, _⟩, hr⟩, hn =>
    hf.free.trans ((hb.free fun m hm => hn m (List.mem_append_left _ hm)).trans
      ((free_one hd rfl).trans (hr.free fun m hm => hn m (List.mem_append_right _ hm))))
  | .jump o j, _, _, _, ⟨h, he⟩, _ => by
    subst he
    exact closes_free h
  | .block body, _, _, _, h, hn => Stands.free (p := body) h hn
  | .loop o cond body, _, _, _, h, hn =>
    RepeatsAt.free (fun ⟨_, hc, hf, hb⟩ =>
      (hc.free fun m hm => hn m (List.mem_append_left _ hm)).trans
        (hf.free.trans (hb.free fun m hm => hn m (List.mem_append_right _ hm)))) h
  | .forever body, _, _, _, h, hn => RepeatsAt.free (fun h => Stands.free (p := body) h hn) h
  | .guard body handlers final, _, _, _, ⟨_, _, hb, hh, hf⟩, hn => by
    simp only [accesses, List.mem_append] at hn
    exact (hb.free fun m hm => hn m (.inl (.inl hm))).trans
      ((hh.free fun m hm => hn m (.inl (.inr hm))).trans (hf.free fun m hm => hn m (.inr hm)))

end Stands

/-! ## Following an execution -/

def End.landing (e : Nat) (L : Landing) : End → Option Nat
  | .done => some e
  | .leave k => some (L.leave k)
  | .exit | .cut => none

theorem End.landing_behind (e : Nat) (L : Landing) (x : End) :
    x.behind.landing e L = x.landing e (L.push e) := by
  rcases x with _ | (_ | k) | _ | _ <;> rfl

theorem End.landing_of_ne {x : End} (hx : x ≠ .done) (e e' : Nat) (L : Landing) :
    x.landing e L = x.landing e' L := by
  cases x with
  | done => exact absurd rfl hx
  | leave | exit | cut => rfl

/-- From `a` the graph has a way to each access of `tr` and to the end, as long as what comes before
has `P`. -/
structure Follows (g : Graph) (P : Instr → Prop) (a : Nat) (tr : List Instr) (last : Option Nat) :
    Prop where
  through : (∀ y ∈ tr, P y) → ∀ {l}, last = some l → g.Way P a l
  reach : ∀ {pre y post}, tr = pre ++ y :: post → (∀ z ∈ pre, P z) →
    ∃ l, g.Way P a l ∧ g.code[l]? = some y

theorem append_eq_mark {xs ys pre post : List Instr} {y : Instr} (h : xs ++ ys = pre ++ y :: post) :
    (∃ rest, xs = pre ++ y :: rest ∧ post = rest ++ ys) ∨
      ∃ start, pre = xs ++ start ∧ ys = start ++ y :: post := by
  rcases List.append_eq_append_iff.1 h with ⟨start, rfl, rfl⟩ | ⟨rest, rfl, h'⟩
  · exact .inr ⟨start, rfl, rfl⟩
  · rcases rest with _ | ⟨z, rest⟩
    · exact .inr ⟨[], by simp, h'.symm⟩
    · cases h'
      exact .inl ⟨rest, rfl, rfl⟩

section Follows

variable {g : Graph} {P : Instr → Prop} {a b : Nat} {tr tr' : List Instr} {last last' : Option Nat}

theorem follows_nil (h : ∀ {b}, l = some b → g.Way P a b) : Follows g P a [] l where
  through _ := h
  reach h := by simp at h

theorem follows_one (hy : g.code[a]? = some y) (ha : y.access? = some n) :
    Follows g P a [y] (some (a + 1)) where
  through hp := by
    rintro _ ⟨⟩
    exact way_one hy (hp y (by simp)) (.access ha)
  reach {pre z post} h _ := by
    rcases pre with _ | ⟨w, pre⟩
    · cases h
      exact ⟨a, .refl _, hy⟩
    · simp at h

theorem Follows.append (h : Follows g P a tr (some b)) (h' : Follows g P b tr' last) :
    Follows g P a (tr ++ tr') last where
  through hp l hl := (h.through (fun y hy => hp y (List.mem_append_left _ hy)) rfl).trans
    (h'.through (fun y hy => hp y (List.mem_append_right _ hy)) hl)
  reach {pre y post} he hp := by
    rcases append_eq_mark he with ⟨rest, rfl, -⟩ | ⟨start, rfl, rfl⟩
    · exact h.reach rfl hp
    · obtain ⟨l, hw, hl⟩ := h'.reach rfl fun z hz => hp z (List.mem_append_right _ hz)
      exact ⟨l, (h.through (fun y hy => hp y (List.mem_append_left _ hy)) rfl).trans hw, hl⟩

theorem Follows.again (h : Follows g P a tr last) (h' : Follows g P a tr' last') :
    Follows g P a (tr ++ tr') last' where
  through hp _ hl := h'.through (fun y hy => hp y (List.mem_append_right _ hy)) hl
  reach {pre y post} he hp := by
    rcases append_eq_mark he with ⟨rest, rfl, -⟩ | ⟨start, rfl, rfl⟩
    · exact h.reach rfl hp
    · exact h'.reach rfl fun z hz => hp z (List.mem_append_right _ hz)

theorem Follows.after (hw : g.Way P a b) (h : Follows g P b tr last) : Follows g P a tr last where
  through hp _ hl := hw.trans (h.through hp hl)
  reach he hp := (h.reach he hp).imp fun _ hl => ⟨hw.trans hl.1, hl.2⟩

theorem Follows.land {x : End} (h : Follows g P a tr (x.landing m L))
    (hw : g.Way P m e) : Follows g P a tr (x.landing e L) where
  through hp _ hl := by
    cases x with
    | done =>
      cases hl
      exact (h.through hp rfl).trans hw
    | leave | exit | cut => exact h.through hp hl
  reach := h.reach

variable {o : Node} {i t : Nat}

theorem Forks.stay (hP : ∀ x, x.access? = none → P x) (h : Forks g o i t) : g.Way P i (i + 1) := by
  obtain ⟨d, hd, -⟩ := h
  exact way_one hd (hP _ rfl) (.stay o d)

theorem Forks.branch (hP : ∀ x, x.access? = none → P x) (h : Forks g o i t) : g.Way P i t := by
  obtain ⟨d, hd, rfl⟩ := h
  exact way_one hd (hP _ rfl) (.branch o d)

end Follows

/-- From `i` on, the first access at the site of `n` is the read at `t`. -/
structure First (g : Graph) (n : Node) (i t : Nat) : Prop where
  read : g.code[t]? = some (.use n)
  free : Free g n i t

theorem First.after {g : Graph} {n : Node} {i m t : Nat} (h : First g n m t) (hf : Free g n i m) :
    First g n i t := ⟨h.read, hf.trans h.free⟩

def Sited (p : Plan) : Prop := (p.accesses.map Node.site).Nodup

theorem sited_append (h : ((ns ++ ms).map Node.site).Nodup) :
    (ns.map Node.site).Nodup ∧ (ms.map Node.site).Nodup ∧ ∀ n ∈ ns, ∀ m ∈ ms, n.site ≠ m.site := by
  rw [List.map_append, List.nodup_append] at h
  exact ⟨h.1, h.2.1, fun n hn m hm => h.2.2 _ (List.mem_map_of_mem hn) _ (List.mem_map_of_mem hm)⟩

theorem Run.mem_of_read (h : Run p (pre ++ .use n :: rest) x) : n ∈ p.accesses := by
  obtain ⟨m, hm, hn⟩ := h.confined (.use n) (by simp)
  cases hn
  exact hm

section Run

variable {g : Graph} {P : Instr → Prop} (hP : ∀ x, x.access? = none → P x)

include hP

theorem Run.follows {p : Plan} (h : Run p tr x) :
    ∀ {i e : Nat} {L : Landing}, p.Ahead g i e L → Follows g P i tr (x.landing e L) := by
  induction h with
  | cut => exact fun _ => follows_nil (by rintro _ ⟨⟩)
  | skip =>
    rintro i e L rfl
    exact follows_nil (by rintro _ ⟨⟩; exact .refl _)
  | access w n =>
    rintro i e L ⟨hi, rfl⟩
    exact follows_one hi (Instr.access?_access w n)
  | seq _ _ iha ihb =>
    rintro i e L ⟨m, ha, hb⟩
    exact (iha ha.ahead).append (ihb hb.ahead)
  | seqLeft _ hx ih =>
    rintro i e L ⟨m, ha, hb⟩
    rw [End.landing_of_ne hx e m]
    exact ih ha.ahead
  | passBy o p =>
    rintro i e L ⟨hf, hb⟩
    exact follows_nil (by rintro _ ⟨⟩; exact hf.branch hP)
  | option _ ih =>
    rintro i e L ⟨hf, hb⟩
    exact (ih hb.ahead).after (hf.stay hP)
  | armBody _ ih =>
    rintro i e L ⟨m, hf, hb, ⟨d, hd, rfl⟩, hr⟩
    exact ((ih hb.ahead).after (hf.stay hP)).land (way_one hd (hP _ rfl) (.goto _ d))
  | armRest _ ih =>
    rintro i e L ⟨m, hf, hb, hd, hr⟩
    exact (ih hr.ahead).after (hf.branch hP)
  | leave o k =>
    rintro i e L ⟨⟨d, hd, hk⟩, -⟩
    refine follows_nil ?_
    rintro _ ⟨⟩
    rw [← hk]
    exact way_one hd (hP _ rfl) (.goto o d)
  | exit => exact fun _ => follows_nil (by rintro _ ⟨⟩)
  | block _ ih =>
    intro i e L h
    rw [End.landing_behind]
    exact ih (Stands.ahead h)
  | loopEnd _ ih =>
    rintro i e L ⟨n, m', ⟨m, hc, hf, -⟩, -⟩
    exact (ih hc.ahead).land (x := .done) (hf.branch hP)
  | loopCond _ hx ih =>
    rintro i e L ⟨n, m', ⟨m, hc, -⟩, -⟩
    rw [End.landing_behind, End.landing_of_ne hx e m]
    exact ih hc.ahead
  | loopBody _ _ hx ihp ihq =>
    rintro i e L ⟨n, m', ⟨m, hc, hf, hb⟩, -⟩
    rw [End.landing_behind, End.landing_of_ne hx e m']
    exact (ihp hc.ahead).append ((ihq hb.ahead).after (hf.stay hP))
  | loopNext _ _ _ ihp ihq ihr =>
    rintro i e L ⟨n, m', ⟨m, hc, hf, hb⟩, hr⟩
    -- the rest of the execution is one of the loop as well
    exact ((ihp hc.ahead).append ((ihq hb.ahead).after (hf.stay hP))).again
      (ihr ⟨n, m', ⟨m, hc, hf, hb⟩, hr⟩)
  | foreverBody _ hx ih =>
    rintro i e L ⟨n, m, hb, -⟩
    rw [End.landing_behind, End.landing_of_ne hx e m]
    exact ih hb.ahead
  | foreverNext _ _ ihp ihr =>
    rintro i e L ⟨n, m, hb, hr⟩
    exact (ihp hb.ahead).again (ihr ⟨n, m, hb, hr⟩)

/-- The graph can follow an execution from the first place where it has a read that the execution
performs, whatever round that was in. -/
theorem Run.first {p : Plan} {tr : List Instr} {x : End} (h : Run p tr x) :
    ∀ {i e : Nat} {L : Landing} {pre rest : List Instr} {n : Node}, p.Stands g i e L → p.Sited →
      tr = pre ++ .use n :: rest →
      ∃ t, First g n i t ∧ Follows g P (t + 1) rest (x.landing e L) := by
  induction h with
  | cut | skip | passBy | leave | exit =>
    intro i e L pre rest n _ _ he
    simp at he
  | access w m =>
    rintro i e L pre rest n ⟨hi, rfl⟩ _ he
    rcases pre with _ | ⟨y, pre⟩
    · cases w with
      | true => cases he
      | false =>
        cases he
        exact ⟨i, ⟨hi, free_nil (Nat.le_refl _)⟩, follows_nil (by rintro _ ⟨⟩; exact .refl _)⟩
    · simp at he
  | seq ha hb iha ihb =>
    rintro i e L pre rest n ⟨m, hsa, hsb⟩ hs he
    obtain ⟨hna, hnb, hne⟩ := sited_append hs
    rcases append_eq_mark he with ⟨rest', rfl, rfl⟩ | ⟨start, rfl, rfl⟩
    · obtain ⟨t, ht, hf⟩ := iha hsa hna rfl
      exact ⟨t, ht, hf.append (hb.follows hP hsb.ahead)⟩
    · obtain ⟨t, ht, hf⟩ := ihb hsb hnb rfl
      exact ⟨t, ht.after (hsa.free fun k hk => hne k hk n hb.mem_of_read), hf⟩
  | seqLeft _ hx ih =>
    rintro i e L pre rest n ⟨m, hsa, hsb⟩ hs he
    rw [End.landing_of_ne hx e m]
    exact ih hsa (sited_append hs).1 he
  | option _ ih =>
    rintro i e L pre rest n ⟨hfork, hsb⟩ hs he
    obtain ⟨t, ht, hf⟩ := ih hsb hs he
    exact ⟨t, ht.after hfork.free, hf⟩
  | armBody _ ih =>
    rintro i e L pre rest n ⟨m, hfork, hsb, ⟨d, hd, rfl⟩, hsr⟩ hs he
    obtain ⟨t, ht, hf⟩ := ih hsb (sited_append hs).1 he
    exact ⟨t, ht.after hfork.free, hf.land (way_one hd (hP _ rfl) (.goto _ d))⟩
  | armRest hq ih =>
    rintro i e L pre rest n ⟨m, hfork, hsb, ⟨d, hd, -⟩, hsr⟩ hs he
    obtain ⟨hnb, hnr, hne⟩ := sited_append hs
    subst he
    obtain ⟨t, ht, hf⟩ := ih hsr hnr rfl
    have hfree := hsb.free fun k hk => hne k hk n hq.mem_of_read
    exact ⟨t, ht.after (hfork.free.trans (hfree.trans (free_one hd rfl))), hf⟩
  | block _ ih =>
    intro i e L pre rest n h hs he
    rw [End.landing_behind]
    exact ih h hs he
  | loopEnd _ ih =>
    rintro i e L pre rest n ⟨m', ⟨m, hc, hfork, -⟩, -⟩ hs he
    obtain ⟨t, ht, hf⟩ := ih hc (sited_append hs).1 he
    exact ⟨t, ht, hf.land (x := .done) (hfork.branch hP)⟩
  | loopCond _ hx ih =>
    rintro i e L pre rest n ⟨m', ⟨m, hc, -⟩, -⟩ hs he
    rw [End.landing_behind, End.landing_of_ne hx e m]
    exact ih hc (sited_append hs).1 he
  | loopBody hp hq hx ihp ihq =>
    rintro i e L pre rest n ⟨m', ⟨m, hc, hfork, hb⟩, -⟩ hs he
    obtain ⟨hnp, hnq, hne⟩ := sited_append hs
    rw [End.landing_behind, End.landing_of_ne hx e m']
    rcases append_eq_mark he with ⟨rest', rfl, rfl⟩ | ⟨start, rfl, rfl⟩
    · obtain ⟨t, ht, hf⟩ := ihp hc hnp rfl
      exact ⟨t, ht, hf.append ((hq.follows hP hb.ahead).after (hfork.stay hP))⟩
    · obtain ⟨t, ht, hf⟩ := ihq hb hnq rfl
      have hfree := hc.free fun k hk => hne k hk n hq.mem_of_read
      exact ⟨t, ht.after (hfree.trans hfork.free), hf⟩
  | loopNext hp hq hr ihp ihq ihr =>
    rintro i e L pre rest n ⟨m', ⟨m, hc, hfork, hb⟩, hnext⟩ hs he
    obtain ⟨hnp, hnq, hne⟩ := sited_append hs
    -- what later rounds do stands in the next copy
    have hlater := hr.follows hP (L := L) ⟨1, hnext⟩
    rcases append_eq_mark he with ⟨rest', h, rfl⟩ | ⟨start, rfl, rfl⟩
    · rcases append_eq_mark h with ⟨rest'', rfl, rfl⟩ | ⟨start, rfl, rfl⟩
      · obtain ⟨t, ht, hf⟩ := ihp hc hnp rfl
        exact ⟨t, ht, (hf.append ((hq.follows hP hb.ahead).after (hfork.stay hP))).append hlater⟩
      · obtain ⟨t, ht, hf⟩ := ihq hb hnq rfl
        have hfree := hc.free fun k hk => hne k hk n hq.mem_of_read
        exact ⟨t, ht.after (hfree.trans hfork.free), hf.append hlater⟩
    · exact ihr ⟨m', ⟨m, hc, hfork, hb⟩, hnext⟩ hs rfl
  | foreverBody _ hx ih =>
    rintro i e L pre rest n ⟨m, hb, -⟩ hs he
    rw [End.landing_behind, End.landing_of_ne hx e m]
    exact ih hb hs he
  | foreverNext hp hr ihp ihr =>
    rintro i e L pre rest n ⟨m, hb, hnext⟩ hs he
    rcases append_eq_mark he with ⟨rest', rfl, rfl⟩ | ⟨start, rfl, rfl⟩
    · obtain ⟨t, ht, hf⟩ := ihp hb hs rfl
      exact ⟨t, ht, hf.append (hr.follows hP (L := L) ⟨1, hnext⟩)⟩
    · exact ihr ⟨m, hb, hnext⟩ hs rfl

end Run

end Plan

/-! ## Sites -/

namespace Node

def Sited (n : Node) : Prop := (n.preorder.map site).Nodup

mutual

theorem isSome_site : ∀ {n m : Node}, m ∈ n.preorder → m.site.isSome = true
  | .hole, m, h => by cases h
  | .node hd ks, m, h => by
    rcases List.mem_cons.1 h with rfl | h
    · rfl
    · exact isSome_site_all h

theorem isSome_site_all : ∀ {ks : List Node} {m : Node}, m ∈ preorderAll ks → m.site.isSome = true
  | _ :: _, _, h => (List.mem_append.1 h).elim isSome_site isSome_site_all

end

mutual

theorem sites_relabel : ∀ (n : Node) (k : Nat), ∃ m, (n.relabel k).2 = k + m ∧
    (n.relabel k).1.preorder.map site = (List.range' k m).map some
  | .hole, k => ⟨0, rfl, rfl⟩
  | .node h ks, k => by
    obtain ⟨m, hm, hs⟩ := sites_relabelAll ks (k + 1)
    refine ⟨m + 1, ?_, ?_⟩
    · rw [relabel]
      dsimp only
      rw [hm]
      omega
    · rw [relabel, List.range'_succ, List.map_cons, ← hs]
      rfl

theorem sites_relabelAll : ∀ (ks : List Node) (k : Nat), ∃ m, (relabelAll ks k).2 = k + m ∧
    (preorderAll (relabelAll ks k).1).map site = (List.range' k m).map some
  | [], k => ⟨0, rfl, rfl⟩
  | n :: ks, k => by
    obtain ⟨m, hm, hs⟩ := sites_relabel n k
    obtain ⟨m', hm', hs'⟩ := sites_relabelAll ks (n.relabel k).2
    refine ⟨m + m', ?_, ?_⟩
    · rw [relabelAll]
      dsimp only
      rw [hm', hm]
      omega
    · rw [relabelAll]
      dsimp only
      rw [preorderAll, List.map_append, hs, hs', hm, ← List.map_append, List.range'_append_1]

end

theorem sited_relabel (n : Node) (k : Nat) : (n.relabel k).1.Sited := by
  obtain ⟨m, -, hs⟩ := sites_relabel n k
  rw [Sited, hs]
  exact List.Nodup.map (fun _ _ h => Option.some.inj h) List.nodup_range'

end Node

/-! ## Competing accesses -/

/-- An execution of the routine: the accesses that it performs, and how it ends. -/
def Routine.Executes (r : Routine) (ss : Symbols) (types : TypeTable) (tr : List Instr)
    (x : Plan.End) : Prop :=
  ∃ p, Lowering.plan { symbols := ss, types, owner := r.sym } {} r.body = .ok p ∧ p.Run tr x

theorem Graph.find?_of_first (hn : n.site.isSome = true)
    (h : Plan.First g n 0 t) : g.find? n = some t := by
  have hread := Array.getElem?_eq_some_iff.1 h.read
  rw [find?, List.findIdx?_eq_some_iff_getElem]
  refine ⟨by simpa using hread.1, ?_, fun j hj => ?_⟩
  · simp [hread.2, Instr.isAt, Instr.access?, hn]
  · have hlt : j < g.code.size := Nat.lt_trans hj hread.1
    have hfree := h.free j (Nat.zero_le _) hj _ (Array.getElem?_eq_getElem hlt)
    simp [hfree]

/-- If an execution performs a read and later, before a write that covers the location, an access
that competes with it, then the graph has a way from the read, where it is first, to such an
access. -/
theorem Graph.contested_of_executes {r : Routine} {ss : Symbols} {types : TypeTable} {g : Graph}
    (hg : r.graph ss types = .ok g) (hs : r.body.Sited) {pre mid post : List Instr} {n : Node}
    {y : Instr} {x : Plan.End}
    (hrun : r.Executes ss types (pre ++ .use n :: (mid ++ y :: post)) x)
    (hmid : ∀ z ∈ mid, ¬ Covers n z) (hy : Competes n y) :
    ∃ pc, g.find? n = some pc ∧ g.code[pc]? = some (.use n) ∧ g.Contested n (pc + 1) := by
  obtain ⟨p, hp, hcode, hw, hfits⟩ := fits_graph hg
  obtain ⟨p', hp', hrun⟩ := hrun
  rw [hp] at hp'
  cases hp'
  have hsub : p.accesses.Subperm r.body.preorder := by simpa [Node.preorderAll] using hw.accesses
  have hsited : p.Sited := by
    obtain ⟨l, hl, hsub⟩ := hsub
    exact (hl.map Node.site).nodup_iff.1 (hs.sublist (hsub.map Node.site))
  have hstands : p.Stands g 0 p.code.length ⟨fun _ => 0, 0⟩ :=
    Plan.stands_of_fits (hfits _) (Nat.zero_add _)
  obtain ⟨t, hfirst, hfollows⟩ := hrun.first (P := (¬ Covers n ·))
    (fun i hi ⟨m, hm, _⟩ => by subst hm; cases hi) hstands hsited rfl
  obtain ⟨l, hway, hl⟩ := hfollows.reach rfl hmid
  have hn : n.site.isSome = true := Node.isSome_site (hsub.subset hrun.mem_of_read)
  exact ⟨t, find?_of_first hn hfirst, hfirst.read, l, y, hway, hl, hy⟩

/-! ## A read in a loop -/

namespace ReadingLoop

open Sample

def symbols : Symbols where
  all := #[{ name := "f", kind := .proc }, { name := "c", owner := some 0 },
    { name := "d", owner := some 0 }, { name := "x", kind := .varLocal, owner := some 0 },
    { name := "use", kind := .proc }]

/-- While `c` holds, `x` is read and, if `d` holds, written. -/
def routine : Routine where
  sym := some 0
  params := [some 1, some 2]
  body := (Node.relabel (node .whileStmt 0 0 [sym 1 0 0, node .stmtList 0 0 [
    node .call 0 0 [sym 4 0 0, sym 3 0 0], node .ifStmt 0 0 [node .elifBranch 0 0 [sym 2 0 0,
      node .asgn 0 0 [sym 3 0 0, node .strLit 0 0 []]]]]]) 1).1

def graph : Graph := graphOf routine symbols

theorem executes_twice : routine.Executes symbols {} [.use (sym 1 0 2), .use (sym 3 0 6),
    .use (sym 2 0 9), .use (sym 1 0 2), .use (sym 3 0 6)] .cut := by
  refine ⟨_, rfl, ?_⟩
  have hcond : Plan.Run (.access false (sym 1 0 2)) [.use (sym 1 0 2)] .done := .access _ _
  have hcall : Plan.Run (.seq .skip (.seq (.access false (sym 3 0 6)) .skip)) [.use (sym 3 0 6)]
      .done := .seq .skip (.seq (.access _ _) .skip)
  have hround : ∀ o q, Plan.Run (.seq (.seq .skip (.seq (.access false (sym 3 0 6)) .skip))
      (.seq (.seq (.access false (sym 2 0 9)) (.arm o q .skip)) .skip))
      [.use (sym 3 0 6), .use (sym 2 0 9)] .done := fun o q =>
    hcall.seq (.seq (.seq (.access _ _) (.armRest .skip)) .skip)
  change Plan.Run _ ([.use (sym 1 0 2)] ++ [.use (sym 3 0 6), .use (sym 2 0 9)] ++
    ([.use (sym 1 0 2)] ++ ([.use (sym 3 0 6)] ++ []))) _
  exact .loopNext hcond (hround _ _) (.loopBody hcond (.seq hcall (.cut _)) (by simp))

end ReadingLoop

open ReadingLoop Sample in
/-- The read of the second round competes with that of the first. -/
theorem contested_of_executes_twice : routine.graph symbols {} = .ok graph ∧ routine.body.Sited ∧
    ∃ pc, graph.find? (sym 3 0 6) = some pc ∧ graph.code[pc]? = some (.use (sym 3 0 6)) ∧
      graph.Contested (sym 3 0 6) (pc + 1) := by
  have hg : routine.graph symbols {} = .ok graph := rfl
  have hs : routine.body.Sited := Node.sited_relabel _ _
  have hrun : routine.Executes symbols {} ([.use (sym 1 0 2)] ++ .use (sym 3 0 6) ::
    ([.use (sym 2 0 9), .use (sym 1 0 2)] ++ .use (sym 3 0 6) :: [])) .cut := executes_twice
  refine ⟨hg, hs, Graph.contested_of_executes hg hs hrun ?_ (.inl ⟨_, rfl, by decide⟩)⟩
  intro z hz
  simp only [List.mem_cons, List.not_mem_nil, or_false] at hz
  rcases hz with rfl | rfl <;> exact Graph.not_covers_of_goOn (by decide)

end Lifecycle
