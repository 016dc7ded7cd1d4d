import Mathlib.Data.List.Flatten
import Mathlib.Data.List.Perm.Subperm
import Lifecycle.Proofs.Flow.Tidy
import Lifecycle.Proofs.Tree.Heads

/-!
# Where code stands

The code of a plan has open jumps. Within a graph they are closed: a `Landing` says where each of
them leads, and code `Fits` at a place if the graph holds it there with its open jumps so closed.

The plan of a routine has no jump that stays open, and it accesses each node of the body at most
once (`plan_within`).
-/

namespace Lifecycle

@[simp] theorem Instr.access?_access (w : Bool) (n : Node) :
    (Instr.access w n).access? = some n := by
  cases w <;> rfl

structure Landing where
  leave : Nat → Nat
  unwind : Nat

namespace Landing

def push (L : Landing) (e : Nat) : Landing where
  leave
    | 0 => e
    | k + 1 => L.leave k
  unwind := L.unwind

def catching (L : Landing) (m : Nat) : Landing := { L with unwind := m }

end Landing

namespace Graph

def Closes (g : Graph) (L : Landing) (i : Nat) : Instr → Prop
  | .goto n (.leave k) => ∃ d, g.code[i]? = some (.goto n (.by d)) ∧ i + d = L.leave k
  | .goto n .unwind => ∃ d, g.code[i]? = some (.goto n (.by d)) ∧ i + d = L.unwind
  | x => g.code[i]? = some x

/-- The code stands from `i` on, with its open jumps closed. -/
def Fits (g : Graph) (L : Landing) : Nat → List Instr → Prop
  | _, [] => True
  | i, x :: c => g.Closes L i x ∧ g.Fits L (i + 1) c

variable {g : Graph} {L : Landing} {i o : Nat} {c d : List Instr} {x : Instr}

theorem add_length_cons (i : Nat) (x : Instr) (c : List Instr) :
    i + (x :: c).length = i + 1 + c.length := by
  rw [List.length_cons]
  omega

theorem fits_append : ∀ {c : List Instr} {i : Nat},
    g.Fits L i (c ++ d) ↔ g.Fits L i c ∧ g.Fits L (i + c.length) d
  | [], i => by simp [Fits]
  | x :: c, i => by
    rw [List.cons_append, Fits, Fits, fits_append, add_length_cons, and_assoc]

theorem Fits.get : ∀ {cs : List Instr} {i o : Nat}, g.Fits L i cs → cs[o]? = some x →
    g.Closes L (i + o) x
  | y :: cs, i, 0, h, hx => by
    cases hx
    exact h.1
  | y :: cs, i, o + 1, h, hx => by
    rw [Nat.add_comm o, ← Nat.add_assoc]
    exact h.2.get hx

theorem Fits.closeBlock : ∀ {c : List Instr} {i : Nat}, g.Fits L i (closeBlock c) →
    g.Fits (L.push (i + c.length)) i c
  | [], _, _ => trivial
  | x :: c, i, h => by
    rw [add_length_cons]
    rcases x with ⟨n, d | _ | (_ | k) | _⟩ | ⟨n, d⟩ | n | n
    case goto.leave.zero => exact ⟨⟨_, h.1, by simp only [Landing.push]; omega⟩, h.2.closeBlock⟩
    all_goals exact ⟨h.1, h.2.closeBlock⟩

theorem Fits.closeTry : ∀ {c : List Instr} {i : Nat}, g.Fits L i (closeTry c) →
    g.Fits (L.catching (i + c.length)) i c
  | [], _, _ => trivial
  | x :: c, i, h => by
    rw [add_length_cons]
    rcases x with ⟨n, d | _ | k | _⟩ | ⟨n, d⟩ | n | n
    case goto.unwind => exact ⟨⟨_, h.1, by simp only [Landing.catching]; omega⟩, h.2.closeTry⟩
    all_goals exact ⟨h.1, h.2.closeTry⟩

end Graph

@[simp] theorem length_closeBlock : ∀ c : List Instr, (closeBlock c).length = c.length
  | [] => rfl
  | x :: c => by
    rcases x with ⟨n, d | _ | (_ | k) | _⟩ | ⟨n, d⟩ | n | n <;>
      simp only [closeBlock, List.length_cons, length_closeBlock c]

@[simp] theorem length_closeTry : ∀ c : List Instr, (closeTry c).length = c.length
  | [] => rfl
  | x :: c => by
    rcases x with ⟨n, d | _ | k | _⟩ | ⟨n, d⟩ | n | n <;>
      simp only [closeTry, List.length_cons, length_closeTry c]

/-! ## Open jumps and accesses -/

/-- A jump of node `o` within `d` blocks and, if `t` holds, a `try`. Only `break` leads out of
blocks, and within a `try` nothing else leaves the routine at once. -/
def Jump.Allowed (o : Node) (d : Nat) (t : Bool) : Jump → Prop
  | .by _ => True
  | .leave k => k < d ∧ o.isKind .breakStmt = true
  | .exit => o.isKind .breakStmt = true ∨ t = false
  | .unwind => t = true

namespace Plan

/-- Every jump is open, and it is one that `d` blocks around and, if `t` holds, a `try` can
close. -/
def Scoped : Plan → Nat → Bool → Prop
  | .skip, _, _ => True
  | .access _ _, _, _ => True
  | .seq a b, d, t => a.Scoped d t ∧ b.Scoped d t
  | .option _ body, d, t => body.Scoped d t
  | .arm _ body rest, d, t => body.Scoped d t ∧ rest.Scoped d t
  | .jump o j, d, t => (∀ e, j ≠ .by e) ∧ j.Allowed o d t
  | .block body, d, t => body.Scoped (d + 1) t
  | .loop _ cond body, d, t => cond.Scoped (d + 1) t ∧ body.Scoped (d + 1) t
  | .forever body, d, t => body.Scoped (d + 1) t
  | .guard body handlers final, d, t =>
    body.Scoped d true ∧ handlers.Scoped d t ∧ final.Scoped d t

def accesses : Plan → List Node
  | .skip => []
  | .access _ n => [n]
  | .seq a b => a.accesses ++ b.accesses
  | .option _ body => body.accesses
  | .arm _ body rest => body.accesses ++ rest.accesses
  | .jump _ _ => []
  | .block body => body.accesses
  | .loop _ cond body => cond.accesses ++ body.accesses
  | .forever body => body.accesses
  | .guard body handlers final => body.accesses ++ handlers.accesses ++ final.accesses

/-- Every jump leaves the routine at once, and nothing is guarded. -/
def Plain : Plan → Prop
  | .skip => True
  | .access _ _ => True
  | .seq a b => a.Plain ∧ b.Plain
  | .option _ body => body.Plain
  | .arm _ body rest => body.Plain ∧ rest.Plain
  | .jump _ j => j = .exit
  | .block body => body.Plain
  | .loop _ cond body => cond.Plain ∧ body.Plain
  | .forever body => body.Plain
  | .guard _ _ _ => False

theorem Plain.tidy : ∀ {p : Plan}, p.Plain → Graph.Tidy p.code
  | .skip, _ => .nil
  | .access w _, _ => by cases w <;> exact .access rfl
  | .seq _ _, h => h.1.tidy.append h.2.tidy
  | .option o body, h => .skip o (Plain.tidy (p := body) h)
  | .arm o _ _, h => .arm o h.1.tidy h.2.tidy
  | .jump o _, h => by
    obtain rfl : _ = Jump.exit := h
    exact .exit o
  | .block body, h => by
    have hbody := Plain.tidy (p := body) h
    rw [code, hbody.closeBlock_eq]
    exact hbody
  | .loop o _ _, h => by
    have hall := Graph.Tidy.rounds o h.1.tidy h.2.tidy 3
    rw [code, hall.closeBlock_eq]
    exact hall
  | .forever body, h => by
    have hbody := Plain.tidy (p := body) h
    have hall := (hbody.append hbody).append hbody
    rw [code, hall.closeBlock_eq]
    exact hall

/-- The plan fits into the surroundings, and it accesses only nodes of the trees `ns`, each at most
as often as it stands there. Where these have neither `break` nor `try` it is plain. -/
structure Within (s : Surroundings) (ns : List Node) (p : Plan) : Prop where
  inScope : p.Scoped s.labels.length s.inTry
  accesses : p.accesses.Subperm (Node.preorderAll ns)
  plain : (∀ n ∈ ns, n.Structured) → s.inTry = false → p.Plain

end Plan

namespace Node

theorem preorderAll_append (ns ms : List Node) :
    preorderAll (ns ++ ms) = preorderAll ns ++ preorderAll ms := by
  simp only [preorderAll_eq_flatMap, List.flatMap_append]

theorem preorderAll_subperm (h : ns.Subperm ms) : (preorderAll ns).Subperm (preorderAll ms) := by
  obtain ⟨l, hl, hs⟩ := h
  simp only [preorderAll_eq_flatMap]
  exact (hl.flatMap_right _).symm.subperm.trans (hs.flatMap _).subperm

end Node

namespace Plan.Within

variable {s : Surroundings} {ns ms kids : List Node} {p q r : Plan} {h : Head} {n k l o : Node}
  {label : Option SymRef}

theorem sub (hp : Within s ns p) (hn : ns.Subperm ms) : Within s ms p :=
  ⟨hp.inScope, hp.accesses.trans (Node.preorderAll_subperm hn), fun hs =>
    hp.plain fun n h => hs n (hn.subset h)⟩

theorem up (hp : Within s n.kids p) : Within s [n] p := by
  refine ⟨hp.inScope, hp.accesses.trans ?_, fun hs => hp.plain (hs n (by simp)).kids⟩
  rw [Node.preorderAll, Node.preorderAll, List.append_nil]
  cases n with
  | hole => exact List.Subperm.refl _
  | node h kids => exact (List.sublist_cons_self _ _).subperm

theorem node (hp : Within s kids p) : Within s [.node h kids] p := up (n := .node h kids) hp

theorem mem (hp : Within s [k] p) (hk : k ∈ ns) : Within s ns p :=
  hp.sub (List.singleton_subperm_iff.2 hk)

theorem skip : Within s ns .skip := ⟨trivial, List.nil_subperm, fun _ _ => trivial⟩

theorem jump (hj : Plan.Scoped (.jump o j) s.labels.length s.inTry)
    (hp : (∀ n ∈ ns, n.Structured) → s.inTry = false → j = .exit) :
    Within s ns (.jump o j) := ⟨hj, List.nil_subperm, hp⟩

theorem seq (hp : Within s ns p) (hq : Within s ms q) : Within s (ns ++ ms) (.seq p q) := by
  refine ⟨⟨hp.inScope, hq.inScope⟩, ?_, fun hs ht => ⟨hp.plain (fun n h => hs n ?_) ht,
    hq.plain (fun n h => hs n ?_) ht⟩⟩
  · rw [Node.preorderAll_append]
    exact hp.accesses.append hq.accesses
  · exact List.mem_append_left _ h
  · exact List.mem_append_right _ h

theorem seq_swap (hp : Within s [l] p) (hq : Within s [k] q) :
    Within s (k :: l :: kids) (.seq p q) :=
  (hp.seq hq).sub ((List.Perm.swap k l []).subperm.trans
    (List.prefix_append [k, l] kids).sublist.subperm)

theorem option (hp : Within s ns p) : Within s ns (.option o p) :=
  ⟨hp.inScope, hp.accesses, hp.plain⟩

theorem arm (hp : Within s ns p) (hq : Within s ms q) : Within s (ns ++ ms) (.arm o p q) :=
  ⟨(hp.seq hq).inScope, (hp.seq hq).accesses, (hp.seq hq).plain⟩

theorem seq_arm (hp : Within s ns (.seq p q)) (hr : Within s ms r) :
    Within s (ns ++ ms) (.seq p (.arm o q r)) := by
  refine ⟨⟨hp.inScope.1, hp.inScope.2, hr.inScope⟩, ?_, fun hs ht => ?_⟩
  · have hall := (hp.seq hr).accesses
    rwa [Plan.accesses, Plan.accesses, List.append_assoc] at hall
  · obtain ⟨⟨hcond, hbody⟩, hrest⟩ := (hp.seq hr).plain hs ht
    exact ⟨hcond, hbody, hrest⟩

theorem access {w : Bool} (hp : Within s kids p) :
    Within s [.node h kids] (.seq p (.access w (.node h kids))) := by
  refine ⟨⟨hp.inScope, trivial⟩, ?_, fun hs ht => ⟨(node hp).plain hs ht, trivial⟩⟩
  rw [Node.preorderAll, Node.preorderAll, List.append_nil, Node.preorder]
  exact (List.perm_append_comm.subperm).trans ((List.subperm_cons _).2 hp.accesses)

theorem block (hp : Within { s with labels := label :: s.labels } ns p) : Within s ns (.block p) :=
  ⟨hp.inScope, hp.accesses, hp.plain⟩

theorem forever
    (hp : Within { s with labels := label :: s.labels } ns p) : Within s ns (.forever p) :=
  ⟨hp.inScope, hp.accesses, hp.plain⟩

theorem loop (hp : Within { s with labels := label :: s.labels } ns p)
    (hq : Within { s with labels := label :: s.labels } ms q) :
    Within s (ns ++ ms) (.loop o p q) :=
  ⟨(hp.seq hq).inScope, (hp.seq hq).accesses, (hp.seq hq).plain⟩

theorem guard (hp : Within { s with inTry := true } ns p) (hq : Within s ms q)
    (hr : Within s ls r) (hsub : (ns ++ ms ++ ls).Subperm kids) (hk : h.kind = .tryStmt) :
    Within s [.node h kids] (.guard p q r) := by
  refine ⟨⟨hp.inScope, hq.inScope, hr.inScope⟩, ?_, fun hs _ => ?_⟩
  · have hall := (hp.accesses.append hq.accesses).append hr.accesses
    rw [← Node.preorderAll_append, ← Node.preorderAll_append] at hall
    rw [Node.preorderAll, Node.preorderAll, List.append_nil, Node.preorder]
    exact (hall.trans (Node.preorderAll_subperm hsub)).trans (List.sublist_cons_self _ _).subperm
  · exact (Node.structured_node.1 (hs _ (List.mem_singleton_self _))).1.2 hk

end Plan.Within

namespace Lowering

variable {c : Lowering} {s : Surroundings}

theorem breakJump_scoped (ho : o.isKind .breakStmt = true) :
    Plan.Scoped (.jump o (breakJump s l)) s.labels.length s.inTry := by
  rw [breakJump]
  split
  · rename_i k hk
    refine ⟨by simp, ?_, ho⟩
    split_ifs at hk with hl he
    · exact (List.findIdx?_eq_some_iff_getElem.1 hk).1
    · cases hk
      exact List.length_pos_iff.2 (by simpa using he)
  · exact ⟨by simp, .inl ho⟩

/-- What is planned, if anything is, is within the trees. -/
def Planned (s : Surroundings) (ns : List Node) (x : Except Fault Plan) : Prop :=
  ∀ p, x = .ok p → p.Within s ns

namespace Planned

variable {s' : Surroundings} {ns ms : List Node} {x y : Except Fault Plan}

theorem ok (h : p.Within s ns) : Planned s ns (.ok p) := by
  rintro _ ⟨⟩
  exact h

theorem error : Planned s ns (.error e) := nofun

theorem ask {α : Type} {x : Except Fault α} {f : α → Except Fault Plan}
    (hf : ∀ a, x = .ok a → Planned s ns (f a)) : Planned s ns (x >>= f) := by
  intro p hp
  obtain ⟨a, ha, hp⟩ := bind_eq_ok.1 hp
  exact hf a ha p hp

theorem bind {f : Plan → Except Fault Plan} (hx : Planned s ns x)
    (hf : ∀ a, a.Within s ns → Planned s' ms (f a)) : Planned s' ms (x >>= f) :=
  ask fun a ha => hf a (hx a ha)

theorem sub (hx : Planned s ns x) (hn : ns.Subperm ms) : Planned s ms x := fun p hp =>
  (hx p hp).sub hn

theorem mem (hx : Planned s [k] x) (hk : k ∈ ns) : Planned s ns x := fun p hp => (hx p hp).mem hk

theorem node (hx : Planned s kids x) : Planned s [.node h kids] x := fun p hp => (hx p hp).node

theorem seq (hx : Planned s ns x) (hy : Planned s ms y) :
    Planned s (ns ++ ms) (do return Plan.seq (← x) (← y)) :=
  hx.bind fun _ ha => hy.bind fun _ hb => .ok (ha.seq hb)

theorem write {read operands : Unit → Except Fault Plan} (hr : Planned s [n] (read ()))
    (ho : Planned s n.kids (operands ())) : Planned s [n] (c.planWrite n read operands) := by
  refine .ask fun path hpath => ?_
  cases path with
  | none => exact hr
  | some path =>
    dsimp only
    split_ifs
    · refine ho.bind fun ops hops => ?_
      cases n with
      | hole => cases hpath
      | node h kids => exact .ok hops.access
    · exact hr

end Planned

mutual

theorem plan_within : ∀ {s : Surroundings} (n : Node), Planned s [n] (c.plan s n)
  | s, .hole => by
    rw [plan]
    exact .ok .skip
  | s, .node h kids => by
    unfold plan
    split
    -- a symbol
    case h_1 =>
      refine .ok ?_
      split
      · exact ⟨trivial, by simp [Plan.accesses, Node.preorderAll, Node.preorder], fun _ _ =>
          trivial⟩
      · exact .skip
    -- a field or a pointee
    case h_2 | h_3 =>
      refine .ask fun t _ => ?_
      rcases kids with _ | ⟨k, ks⟩
      · exact .error
      · dsimp only
        split_ifs
        · exact (planOperands_within k).bind fun a ha => .ok (ha.up.mem (by simp)).access
        · exact .node ((plan_within k).mem (by simp))
    -- an element
    case h_4 =>
      refine .ask fun t _ => ?_
      rcases kids with _ | ⟨k, _ | ⟨i, ks⟩⟩
      · exact .error
      · exact .error
      · dsimp only
        split_ifs
        · refine (plan_within i).bind fun a ha => (planOperands_within k).bind fun b hb => ?_
          exact .ok (ha.seq_swap hb.up).access
        · refine .node (((plan_within k).seq (plan_within i)).sub ?_)
          exact (List.prefix_append [k, i] ks).sublist.subperm
    -- what only passes its operand on
    case h_5 | h_6 | h_7 | h_8 | h_9 | h_10 =>
      rcases kids with _ | ⟨k, ks⟩
      · exact .error
      · exact .node ((plan_within k).mem (by simp))
    -- a call
    case h_11 =>
      rcases kids with _ | ⟨callee, args⟩
      · exact .error
      · refine .ask fun short _ => ?_
        split_ifs
        · exact .node ((planShort_within args).sub (List.sublist_cons_self _ _).subperm)
        · refine (plan_within callee).bind fun a ha => (planAll_within args).bind fun b hb => ?_
          have hcall : Plan.Within s (callee :: args) (.seq a b) := ha.seq hb
          refine .ask fun u hu => ?_
          cases u with
          | false => exact .ok hcall.node
          | true =>
            have ht : s.inTry = true := by
              by_contra hn
              rw [unwinds, if_neg hn] at hu
              cases hu
            have hjump : Plan.Within s [] (.option (.node h (callee :: args))
                (.jump (.node h (callee :: args)) .unwind)) :=
              .option (.jump ⟨by simp, ht⟩ fun _ hf => by simp [hf] at ht)
            exact .ok (by simpa only [List.append_nil] using (hcall.seq hjump).node)
    -- a field's value or a closure's environment
    case h_12 | h_13 =>
      rcases kids with _ | ⟨k, _ | ⟨v, ks⟩⟩
      · exact .error
      · exact .error
      · exact .node ((plan_within v).mem (by simp))
    case h_14 | h_15 | h_16 | h_17 | h_18 => exact .node (planAll_within kids)
    -- a block
    case h_19 =>
      rcases kids with _ | ⟨l, _ | ⟨body, ks⟩⟩
      · exact .error
      · exact .error
      · refine .ask fun l _ => (plan_within body).bind fun a ha => ?_
        exact .ok (ha.block.mem (by simp)).node
    case h_20 => exact .node (planElifs_within kids)
    -- a case
    case h_21 =>
      rcases kids with _ | ⟨sel, arms⟩
      · exact .error
      · exact .node ((plan_within sel).seq (planArms_within arms))
    -- a loop
    case h_22 =>
      rcases kids with _ | ⟨cond, _ | ⟨body, ks⟩⟩
      · exact .error
      · exact .error
      · refine .ask fun h' _ => (plan_within body).bind fun b hb => ?_
        split_ifs
        · exact .ok (hb.forever.mem (by simp)).node
        · refine (plan_within cond).bind fun a ha => .ok ((ha.loop hb).sub ?_).node
          exact (List.prefix_append [cond, body] ks).sublist.subperm
    -- a guarded part
    case h_23 hk =>
      rcases kids with _ | ⟨body, handlers⟩
      · exact .error
      · refine (plan_within body).bind fun b hb => (planHandlers_within handlers).bind fun a ha =>
          (planFinally_within handlers).bind fun f hf => .ok (hb.guard ha hf ?_ hk)
        refine (List.subperm_cons _).2 (List.Perm.subperm ?_)
        exact List.perm_append_comm.trans (List.filter_append_perm _ handlers)
    -- leaving the routine
    case h_24 | h_25 =>
      rcases kids with _ | ⟨v, ks⟩
      · exact .error
      · have hjump : Plan.Within s [] (.jump (.node h (v :: ks))
            (if s.inTry then .unwind else .exit)) := by
          refine .jump ?_ fun _ ht => by simp [ht]
          split_ifs with ht
          · exact ⟨by simp, ht⟩
          · exact ⟨by simp, .inr (by simpa using ht)⟩
        exact (plan_within v).bind fun a ha => .ok ((ha.seq hjump).mem (by simp)).node
    case h_26 hk =>
      rcases kids with _ | ⟨l, ks⟩
      · exact .error
      · refine .ask fun l _ => .ok (.jump (breakJump_scoped (by simp [hk])) fun hs _ => ?_)
        exact absurd hk (Node.structured_node.1 (hs _ (List.mem_singleton_self _))).1.1
    -- an assignment
    case h_27 | h_28 =>
      rcases kids with _ | ⟨dest, _ | ⟨src, ks⟩⟩
      · exact .error
      · exact .error
      · refine (plan_within src).bind fun a ha => ?_
        exact (Planned.write (plan_within dest) (planOperands_within dest)).bind fun b hb =>
          .ok (ha.seq_swap hb).node
    case h_29 => exact .node (planDefs_within kids)
    case h_30 => exact .ok .skip

theorem planAll_within : ∀ {s : Surroundings} (ks : List Node), Planned s ks (c.planAll s ks)
  | _, [] => .ok .skip
  | _, k :: ks => (plan_within k).seq (planAll_within ks)

theorem planShort_within : ∀ {s : Surroundings} {origin : Node} (ks : List Node),
    Planned s ks (c.planShort s origin ks)
  | s, origin, ks => by
    rcases ks with _ | ⟨a, _ | ⟨b, _ | ⟨d, ks⟩⟩⟩
    · exact .ok .skip
    · exact .ok .skip
    · exact (plan_within b).bind fun q hq => (plan_within a).bind fun r hr => .ok (hr.seq hq.option)
    · exact .ok .skip

theorem planOperands_within : ∀ {s : Surroundings} (n : Node),
    Planned s n.kids (c.planOperands s n)
  | _, .hole => .ok .skip
  | s, .node h [] => by
    rw [planOperands]
    split_ifs
    · exact .error
    · exact .ok .skip
  | s, .node h (k :: ks) => by
    unfold planOperands
    split_ifs
    · rcases ks with _ | ⟨i, ks⟩
      · exact .error
      · exact (plan_within i).bind fun a ha => (planOperands_within k).bind fun b hb =>
          .ok (ha.seq_swap hb.up)
    · exact fun p hp => (planOperands_within k p hp).up.mem (by simp [Node.kids])
    · exact .ok .skip

theorem planElifs_within : ∀ {s : Surroundings} (ks : List Node), Planned s ks (c.planElifs s ks)
  | _, [] => .ok .skip
  | _, .hole :: _ => .error
  | s, .node h kids :: rest => by
    unfold planElifs
    split_ifs
    · rcases kids with _ | ⟨body, ks⟩
      · exact .error
      · exact (Planned.node ((plan_within body).mem (by simp))).seq (planElifs_within rest)
    · rcases kids with _ | ⟨cond, _ | ⟨body, ks⟩⟩
      · exact .error
      · exact .error
      · refine (plan_within cond).bind fun a ha => (plan_within body).bind fun b hb => ?_
        have hfirst : Plan.Within s [.node h (cond :: body :: ks)] (.seq a b) :=
          .node ((ha.seq hb).sub (List.prefix_append [cond, body] ks).sublist.subperm)
        exact (planElifs_within rest).bind fun r hr => .ok (hfirst.seq_arm hr)

theorem planArms_within : ∀ {s : Surroundings} (ks : List Node), Planned s ks (c.planArms s ks)
  | _, [] => .ok .skip
  | _, .hole :: _ => .error
  | s, .node h kids :: rest => by
    refine (planLast_within kids).bind fun b hb => (planArms_within rest).bind fun r hr => ?_
    split_ifs
    · exact .ok (hb.node.seq hr)
    · exact .ok (hb.node.arm hr)

theorem planLast_within : ∀ {s : Surroundings} (ks : List Node), Planned s ks (c.planLast s ks)
  | _, [] => .error
  | _, [k] => plan_within k
  | s, k' :: k :: ks => by
    rw [planLast]
    · exact (planLast_within (k :: ks)).sub (List.sublist_cons_self _ _).subperm
    · simp

theorem planHandlers_within : ∀ {s : Surroundings} (ks : List Node),
    Planned s (ks.filter fun k => !k.isKind .finallyBranch) (c.planHandlers s ks)
  | _, [] => .ok .skip
  | _, .hole :: _ => .error
  | s, .node h kids :: rest => by
    unfold planHandlers
    split_ifs with hf
    · rw [List.filter_cons, if_neg (by simp [hf])]
      exact planHandlers_within rest
    · rw [List.filter_cons, if_pos (by simp [hf])]
      rcases kids with _ | ⟨body, ks⟩
      · exact .error
      · exact (plan_within body).bind fun b hb => (planHandlers_within rest).bind fun r hr =>
          .ok ((hb.mem (by simp)).node.arm hr)

theorem planFinally_within : ∀ {s : Surroundings} (ks : List Node),
    Planned s (ks.filter fun k => k.isKind .finallyBranch) (c.planFinally s ks)
  | _, [] => .ok .skip
  | _, .hole :: _ => .error
  | s, .node h kids :: rest => by
    unfold planFinally
    split_ifs with hf
    · rw [Bool.and_eq_true] at hf
      rcases kids with _ | ⟨body, ks⟩
      · exact .error
      · have hb : Planned s (body :: ks) _ := (plan_within body).mem (by simp)
        exact (hb.node (h := h)).mem (by simp [of_decide_eq_true hf.1])
    · refine (planFinally_within rest).sub (List.Sublist.subperm ?_)
      exact (List.sublist_cons_self _ _).filter _

theorem planDefs_within : ∀ {s : Surroundings} (ks : List Node), Planned s ks (c.planDefs s ks)
  | _, [] => .ok .skip
  | _, .hole :: _ => .error
  | s, .node h kids :: rest => by
    rcases kids with _ | ⟨v, _ | ⟨init, ks⟩⟩
    · exact .error
    · exact .error
    · refine .ask fun hi _ => ?_
      split_ifs
      · exact (planDefs_within rest).sub (List.sublist_cons_self _ _).subperm
      · refine (plan_within init).bind fun a ha => ?_
        refine (Planned.write (plan_within v) (planOperands_within v)).bind fun t ht => ?_
        exact (planDefs_within rest).bind fun r hr => .ok ((ha.seq_swap ht).node.seq hr)

end

end Lowering

/-! ## The graph of a routine -/

theorem mem_closeBlock : ∀ {c : List Instr}, .goto n j ∈ closeBlock c →
    (∃ d, j = .by d) ∨ (∃ k, j = .leave k ∧ .goto n (.leave (k + 1)) ∈ c) ∨
      (j = .exit ∨ j = .unwind) ∧ .goto n j ∈ c
  | x :: c, h => by
    have hrest : .goto n j ∈ closeBlock c → (∃ d, j = .by d) ∨
        (∃ k, j = .leave k ∧ .goto n (.leave (k + 1)) ∈ x :: c) ∨
          (j = .exit ∨ j = .unwind) ∧ .goto n j ∈ x :: c := fun h =>
      (mem_closeBlock h).imp id fun h => h.imp (fun ⟨k, hk, hm⟩ => ⟨k, hk, by simp [hm]⟩)
        fun ⟨hj, hm⟩ => ⟨hj, by simp [hm]⟩
    rcases x with ⟨m, d | _ | (_ | k) | _⟩ | ⟨m, d⟩ | m | m <;>
      rcases List.mem_cons.1 h with h | h <;> first | exact hrest h | cases h
    · exact .inl ⟨_, rfl⟩
    · exact .inr (.inr ⟨.inl rfl, by simp⟩)
    · exact .inl ⟨_, rfl⟩
    · exact .inr (.inl ⟨k, rfl, by simp⟩)
    · exact .inr (.inr ⟨.inr rfl, by simp⟩)

theorem mem_closeTry : ∀ {c : List Instr}, .goto n j ∈ closeTry c →
    (∃ d, j = .by d) ∨ j ≠ .unwind ∧ .goto n j ∈ c
  | x :: c, h => by
    have hrest : .goto n j ∈ closeTry c → (∃ d, j = .by d) ∨ j ≠ .unwind ∧ .goto n j ∈ x :: c :=
      fun h => (mem_closeTry h).imp id fun ⟨hj, hm⟩ => ⟨hj, by simp [hm]⟩
    rcases x with ⟨m, d | _ | k | _⟩ | ⟨m, d⟩ | m | m <;>
      rcases List.mem_cons.1 h with h | h <;> first | exact hrest h | cases h
    · exact .inl ⟨_, rfl⟩
    · exact .inr ⟨by simp, by simp⟩
    · exact .inr ⟨by simp, by simp⟩
    · exact .inl ⟨_, rfl⟩

theorem mem_roundsCode {i : Instr} {cond body : List Instr} (hi : ∀ d, i ≠ .fork o d) :
    ∀ {k : Nat}, i ∈ roundsCode o cond body k → i ∈ cond ∨ i ∈ body
  | k + 1, h => by
    simp only [roundsCode, List.append_assoc, List.mem_append, List.mem_cons, List.cons_append] at h
    rcases h with h | h | h | h
    · exact .inl h
    · exact absurd h (hi _)
    · exact .inr h
    · exact mem_roundsCode hi h

theorem allowed_closeBlock
    (hc : ∀ {j}, .goto n j ∈ c → j.Allowed n (d + 1) t) (h : .goto n j ∈ closeBlock c) :
    j.Allowed n d t := by
  rcases mem_closeBlock h with ⟨e, rfl⟩ | ⟨k, rfl, hm⟩ | ⟨rfl | rfl, hm⟩
  · trivial
  · exact ⟨Nat.lt_of_succ_lt_succ (hc hm).1, (hc hm).2⟩
  · exact hc hm
  · exact hc hm

theorem Plan.Scoped.allowed {n : Node} {j : Jump} : ∀ {p : Plan} {d : Nat} {t : Bool},
    p.Scoped d t → .goto n j ∈ p.code → j.Allowed n d t
  | .skip, _, _, _, h => by cases h
  | .access w m, _, _, _, h => by cases w <;> cases h <;> contradiction
  | .seq a b, _, _, hs, h => (List.mem_append.1 h).elim hs.1.allowed hs.2.allowed
  | .option o body, d, t, hs, h => by
    rcases List.mem_cons.1 h with h | h
    · cases h
    · exact Plan.Scoped.allowed (p := body) hs h
  | .arm o body rest, d, t, hs, h => by
    simp only [code, armCode, List.cons_append, List.mem_cons, List.mem_append] at h
    rcases h with h | h | h | h
    · cases h
    · exact hs.1.allowed h
    · cases h
      trivial
    · exact hs.2.allowed h
  | .jump o j', d, t, hs, h => by
    obtain ⟨rfl, rfl⟩ : n = o ∧ j = j' := by simpa [code] using h
    exact hs.2
  | .block body, d, t, hs, h => by
    exact allowed_closeBlock (fun h => Plan.Scoped.allowed (p := body) hs h) h
  | .loop o cond body, d, t, hs, h => by
    exact allowed_closeBlock
      (fun h => (mem_roundsCode (by simp) h).elim hs.1.allowed hs.2.allowed) h
  | .forever body, d, t, hs, h => by
    refine allowed_closeBlock (c := body.code ++ body.code ++ body.code) (fun {j} h => ?_) h
    have hm : .goto n j ∈ body.code := by simpa using h
    exact Plan.Scoped.allowed (p := body) hs hm
  | .guard body handlers final, d, t, hs, h => by
    rcases List.mem_append.1 h with h | h
    · rcases List.mem_append.1 h with h | h
      · rcases mem_closeTry h with ⟨e, rfl⟩ | ⟨hj, h⟩
        · trivial
        · have := hs.1.allowed h
          cases j with
          | unwind => exact absurd rfl hj
          | leave k => exact this
          | «by» d => trivial
          | exit => exact this.imp id (by simp)
      · exact hs.2.1.allowed h
    · exact hs.2.2.allowed h

namespace Graph

variable {g : Graph} {L : Landing}

theorem HasAt.fits : ∀ {c : List Instr} {i : Nat}, g.HasAt i c →
    (∀ {n j}, .goto n j ∈ c → j.Allowed n 0 false) → g.Fits L i c
  | [], _, _, _ => trivial
  | x :: c, i, h, ha => by
    refine ⟨?_, h.tail.fits fun hm => ha (List.mem_cons_of_mem _ hm)⟩
    rcases x with ⟨n, d | _ | k | _⟩ | ⟨n, d⟩ | n | n
    case goto.leave => exact absurd (ha (List.mem_cons_self ..)).1 (Nat.not_lt_zero k)
    case goto.unwind => cases ha (List.mem_cons_self ..)
    all_goals exact h.head

theorem fits_graph {r : Routine} (hg : r.graph ss types = .ok g) : ∃ p : Plan,
      Lowering.plan { symbols := ss, types, owner := r.sym } {} r.body = .ok p ∧
        g.code.toList = p.code ∧ p.Within {} [r.body] ∧ ∀ L, g.Fits L 0 p.code := by
  obtain ⟨p, hp, hg⟩ := bind_eq_ok.1 hg
  have hw := Lowering.plan_within _ p hp
  obtain rfl := pure_eq_ok.1 hg
  refine ⟨p, hp, rfl, hw, fun L => HasAt.fits ?_ hw.inScope.allowed⟩
  exact hasAt_self _

theorem graph_tidy {r : Routine}
    (hg : r.graph ss types = .ok g) (hr : r.body.Structured) : Tidy g.code.toList := by
  obtain ⟨p, -, hcode, hw, -⟩ := fits_graph hg
  rw [hcode]
  exact (hw.plain (by simpa using hr) rfl).tidy

end Graph

end Lifecycle
