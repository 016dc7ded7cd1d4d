import Lifecycle.Flow.Lower
import Lifecycle.Proofs.Flow.Scan

/-!
# Structured code

Without `break` and `try` the ways of a fork meet again where the construct of the fork ends, or
they leave the routine. Lowering makes such code (`graph_tidy`), and on it a scan drops no place
that it could still reach (`Tidy.dropped_far`).
-/

namespace Lifecycle

variable {n : Node}

namespace Graph

/-! ## Code within a graph -/

def HasAt (g : Graph) (i : Nat) (c : List Instr) : Prop := c <+: g.code.toList.drop i

section HasAt

variable {g : Graph} {i : Nat} {c d : List Instr} {x : Instr}

theorem hasAt_self (g : Graph) : g.HasAt 0 g.code.toList := by simp [HasAt]

theorem HasAt.le_size (h : g.HasAt i c) (hc : c ≠ []) : i + c.length ≤ g.size := by
  have hl := h.length_le
  rw [List.length_drop] at hl
  have := List.length_pos_iff.mpr hc
  have hs : g.size = g.code.toList.length := Array.length_toList.symm
  omega

theorem HasAt.head (h : g.HasAt i (x :: c)) : g.code[i]? = some x := by
  obtain ⟨t, ht⟩ := h
  have := congrArg (fun l => l[0]?) ht
  simpa using this.symm

theorem HasAt.tail (h : g.HasAt i (x :: c)) : g.HasAt (i + 1) c := by
  obtain ⟨t, ht⟩ := h
  refine ⟨t, ?_⟩
  have := congrArg List.tail ht
  simpa using this

theorem HasAt.left (h : g.HasAt i (c ++ d)) : g.HasAt i c :=
  (List.prefix_append c d).trans h

theorem HasAt.right : ∀ {c : List Instr} {i : Nat}, g.HasAt i (c ++ d) → g.HasAt (i + c.length) d
  | [], i, h => by simpa using h
  | x :: c, i, h => by
    have := HasAt.right (HasAt.tail h)
    rwa [List.length_cons, Nat.add_comm c.length, ← Nat.add_assoc]

theorem length_armCode : (armCode n body rest).length = body.length + 2 + rest.length := by
  simp only [armCode, List.length_cons, List.length_append]
  omega

theorem HasAt.arm {body rest : List Instr} (h : g.HasAt i (armCode n body rest)) :
    g.code[i]? = some (.fork n (body.length + 2)) ∧ g.HasAt (i + 1) body ∧
      g.code[i + 1 + body.length]? = some (.goto n (.by (rest.length + 1))) ∧
        g.HasAt (i + (body.length + 2)) rest := by
  have hlast : i + 1 + body.length + 1 = i + (body.length + 2) := by omega
  exact ⟨h.head, h.tail.left, h.tail.right.head, hlast ▸ h.tail.right.tail⟩

end HasAt

/-! ## Tidy code -/

/-- Code in which the ways of every fork meet again where the fork's construct ends, unless they
leave the routine. -/
inductive Tidy : List Instr → Prop
  | nil : Tidy []
  | access {i : Instr} {n : Node} (h : i.access? = some n) : Tidy [i]
  | exit (n : Node) : Tidy [.goto n .exit]
  | append {c d : List Instr} (hc : Tidy c) (hd : Tidy d) : Tidy (c ++ d)
  | skip (n : Node) {c : List Instr} (hc : Tidy c) : Tidy (.fork n (c.length + 1) :: c)
  | arm (n : Node) {body rest : List Instr} (hb : Tidy body) (hr : Tidy rest) :
      Tidy (armCode n body rest)

def LeavesPast (g : Graph) : Prop :=
  (∃ n, Instr.goto n .exit ∈ g.code.toList) → g.size ≤ exitTarget

/-- A scan that stays within `top` gives up the ways of a fork only where one of them is past the
bound, or both are at it; past `top` and past the end it always does. -/
structure Bounded (g : Graph) (q : Scan) (top : Nat) : Prop where
  top_le : top ≤ g.size
  sound : ∀ {a b u}, q.apart a b u = true → u < max a b ∨ g.size ≤ max a b ∨ u ≤ min a b
  past_top : ∀ {a b}, top < max a b → q.apart a b top = true
  past_end : ∀ {a b u}, u ≤ top → g.size ≤ max a b → q.apart a b u = true
  apart_comm : ∀ a b u, q.apart a b u = q.apart b a u

/-- Where a scan may leave off: past `top`, where it never looks, or past the end. -/
def Far (g : Graph) (top c : Nat) : Prop := top < c ∨ g.size ≤ c

/-- A scan that ends somewhere ends at a place with `R` and drops only far places. -/
def Clear (g : Graph) (q : Scan) (top k pc u : Nat) (R : Nat → Prop) : Prop :=
  ∀ e, g.scan q k pc u = .at e → R e ∧ ∀ c ∈ g.dropped q k pc u, g.Far top c

section Clear

variable {g : Graph} {q : Scan} {top k i u : Nat} {R : Nat → Prop} {a b : Nat}

theorem clear_of_le (hu : u ≤ i) (hr : R i) : g.Clear q top k i u R := by
  intro e he
  cases k with
  | zero => simp [scan] at he
  | succ k =>
    rw [scan, if_pos hu, ScanEnd.at.injEq] at he
    rw [dropped, if_pos hu]
    exact ⟨he ▸ hr, by simp⟩

theorem clear_start (hr : u ≤ i → R i) (h : i < u → g.Clear q top k i u R) :
    g.Clear q top k i u R :=
  (Nat.lt_or_ge i u).elim h fun hu => clear_of_le hu (hr hu)

theorem clear_access (hx : g.code[i]? = some x) (ha : x.access? = some n)
    (hend : R g.size) (hu : i < u) (hn : ∀ k, g.Clear q top k (i + 1) u R) :
    g.Clear q top k i u R := by
  intro e he
  cases k with
  | zero => simp [scan] at he
  | succ k =>
    rw [scan_access hx ha hu] at he
    rw [dropped_access hx ha hu]
    rcases hj : q.judge x with _ | _ | _ <;> rw [hj] at he
    · exact hn k e he
    · cases he
      exact ⟨hend, by simp⟩
    · cases he

theorem clear_goto (hx : g.code[i]? = some (.goto n j)) (hu : i < u)
    (hn : ∀ k, g.Clear q top k (i + j.dist i) u R) : g.Clear q top k i u R := by
  intro e he
  cases k with
  | zero => simp [scan] at he
  | succ k =>
    rw [scan, if_neg (by omega), hx] at he
    rw [dropped, if_neg (by omega), hx]
    exact hn k e he

def ClearFork (g : Graph) (q : Scan) (top k a b u : Nat) (R : Nat → Prop) : Prop :=
  ∀ e, g.scanFork q k a b u = .at e → R e ∧ ∀ c ∈ g.droppedFork q k a b u, g.Far top c

theorem clear_fork (hx : g.code[i]? = some (.fork n d)) (hu : i < u)
    (hf : ∀ k, g.ClearFork q top k (i + 1) (i + d) u J)
    (hn : ∀ e, J e → ∀ k, g.Clear q top k e u R) : g.Clear q top k i u R := by
  intro e he
  cases k with
  | zero => simp [scan] at he
  | succ k =>
    rw [scan, if_neg (by omega), hx] at he
    rw [dropped, if_neg (by omega), hx]
    rcases hs : g.scanFork q k (i + 1) (i + d) u with e' | w | _ <;> simp only [hs] at he ⊢
    · obtain ⟨h1, h2⟩ := hf k e' hs
      obtain ⟨h3, h4⟩ := hn e' h1 k e he
      refine ⟨h3, fun c hc => ?_⟩
      simp only [List.mem_append] at hc
      exact hc.elim (h2 c) (h4 c)
    · simp at he
    · simp at he

theorem clearFork_met (hr : R a) : g.ClearFork q top k a a u R := by
  intro e he
  cases k with
  | zero => simp [scanFork] at he
  | succ k =>
    rw [scanFork, if_pos rfl, ScanEnd.at.injEq] at he
    rw [droppedFork, if_pos rfl]
    exact ⟨he ▸ hr, by simp⟩

theorem clearFork_apart (hab : a ≠ b) (hap : q.apart a b u = true)
    (hfar : g.Far top (max a b)) (hr : R (min a b)) : g.ClearFork q top k a b u R := by
  intro e he
  cases k with
  | zero => simp [scanFork] at he
  | succ k =>
    rw [scanFork, if_neg hab, if_pos hap, ScanEnd.at.injEq] at he
    rw [droppedFork, if_neg hab, if_pos hap]
    exact ⟨he ▸ hr, by simpa using hfar⟩

theorem clearFork_left (hab : a < b) (hap : q.apart a b u = false)
    (hs : ∀ k, g.Clear q top k a (min b u) J)
    (hn : ∀ a', J a' → ∀ k, g.ClearFork q top k a' b u R) : g.ClearFork q top k a b u R := by
  intro e he
  cases k with
  | zero => simp [scanFork] at he
  | succ k =>
    rw [scanFork, if_neg (by omega), if_neg (by simp [hap]), if_pos hab] at he
    rw [droppedFork, if_neg (by omega), if_neg (by simp [hap]), if_pos hab]
    rcases hc : g.scan q k a (min b u) with a' | w | _ <;> simp only [hc] at he ⊢
    · obtain ⟨h1, h2⟩ := hs k a' hc
      obtain ⟨h3, h4⟩ := hn a' h1 k e he
      refine ⟨h3, fun c hm => ?_⟩
      simp only [List.mem_append] at hm
      exact hm.elim (h2 c) (h4 c)
    · simp at he
    · simp at he

theorem scanFork_comm (hq : g.Bounded q top) :
    ∀ k a b, g.scanFork q k a b u = g.scanFork q k b a u ∧
      g.droppedFork q k a b u = g.droppedFork q k b a u := by
  intro k
  induction k with
  | zero => exact fun a b => ⟨by rw [scanFork, scanFork], by rw [droppedFork, droppedFork]⟩
  | succ k ih =>
    have hstep : ∀ {a b}, a < b → g.scanFork q (k + 1) a b u = g.scanFork q (k + 1) b a u ∧
        g.droppedFork q (k + 1) a b u = g.droppedFork q (k + 1) b a u := by
      intro a b h
      simp only [scanFork, droppedFork, hq.apart_comm b a, Nat.min_comm b a, Nat.max_comm b a,
        if_pos h, if_neg (Nat.lt_asymm h), if_neg (Nat.ne_of_lt h), if_neg (Nat.ne_of_gt h)]
      cases g.scan q k a (min b u) with
      | «at» e => exact ⟨by simp only [(ih e b).1], by simp only [(ih e b).2]⟩
      | clash w => exact ⟨rfl, rfl⟩
      | lost => exact ⟨rfl, rfl⟩
    intro a b
    rcases Nat.lt_trichotomy a b with h | rfl | h
    · exact hstep h
    · exact ⟨rfl, rfl⟩
    · exact ⟨(hstep h).1.symm, (hstep h).2.symm⟩

theorem ClearFork.symm (hq : g.Bounded q top) (h : g.ClearFork q top k a b u R) :
    g.ClearFork q top k b a u R := by
  intro e he
  rw [(scanFork_comm hq k b a).1] at he
  rw [(scanFork_comm hq k b a).2]
  exact h e he

theorem Bounded.far_or_within (hq : g.Bounded q top) (hab : a < b) (hcase : b ≤ u ∨ u = top) :
    q.apart a b u = true ∧ g.Far top b ∨ q.apart a b u = false ∧ b ≤ u := by
  have hmax : max a b = b := by omega
  have hmin : min a b = a := by omega
  rcases hap : q.apart a b u with _ | _
  · refine .inr ⟨rfl, ?_⟩
    rcases hcase with h | rfl
    · exact h
    · by_contra hlt
      rw [hq.past_top (by omega)] at hap
      cases hap
  · refine .inl ⟨rfl, ?_⟩
    have := hq.sound hap
    simp only [Far]
    omega

theorem clearFork_past (hq : g.Bounded q top) (htop : u ≤ top) (hb : b ≤ g.size)
    (ha : g.size ≤ a) (hr : R b) : g.ClearFork q top k a b u R := by
  rcases Nat.eq_or_lt_of_le (show b ≤ a by omega) with rfl | hlt
  · exact clearFork_met hr
  · refine clearFork_apart (by omega) (hq.past_end htop (by omega)) (.inr (by omega)) ?_
    rwa [Nat.min_eq_right (by omega)]

theorem clearFork_meet (hq : g.Bounded q top) (hab : a ≤ b)
    (htop : u ≤ top) (hcase : b ≤ u ∨ u = top) (hb : b ≤ g.size)
    (hs : ∀ k, b ≤ u → g.Clear q top k a b fun e => e = b ∨ g.size ≤ e)
    (ha : R a) (hr : R b) : g.ClearFork q top k a b u R := by
  rcases Nat.eq_or_lt_of_le hab with rfl | hlt
  · exact clearFork_met ha
  rcases hq.far_or_within hlt hcase with ⟨hap, hfar⟩ | ⟨hap, hbu⟩
  · refine clearFork_apart (by omega) hap ?_ ?_
    · rwa [Nat.max_eq_right hab]
    · rwa [Nat.min_eq_left hab]
  · refine clearFork_left (J := fun e => e = b ∨ g.size ≤ e) hlt hap (fun k => ?_) ?_
    · rw [Nat.min_eq_left hbu]
      exact hs k hbu
    · rintro a' (rfl | ha') k
      · exact clearFork_met hr
      · exact clearFork_past hq htop hb ha' hr

theorem clearFork_over (hq : g.Bounded q top) (hab : a < b) (hbe : b ≤ e)
    (htop : u ≤ top) (hcase : e ≤ u ∨ u = top) (he : e ≤ g.size)
    (hsa : ∀ k, b ≤ u → g.Clear q top k a b fun x => x = e ∨ g.size ≤ x)
    (hsb : ∀ k, e ≤ u → g.Clear q top k b e fun x => x = e ∨ g.size ≤ x)
    (ha : R a) (hb : R b) (hr : R e) : g.ClearFork q top k a b u R := by
  rcases hq.far_or_within (u := u) hab (by omega) with ⟨hap, hfar⟩ | ⟨hap, hbu⟩
  · refine clearFork_apart (by omega) hap ?_ ?_
    · rwa [Nat.max_eq_right (by omega)]
    · rwa [Nat.min_eq_left (by omega)]
  · refine clearFork_left (J := fun x => x = e ∨ g.size ≤ x) hab hap (fun k => ?_) ?_
    · rw [Nat.min_eq_left hbu]
      exact hsa k hbu
    · rintro a' (rfl | ha') k
      · exact (clearFork_meet hq hbe htop hcase he hsb hb hr).symm hq
      · exact clearFork_past hq htop (by omega) ha' hb

end Clear

/-- A scan through tidy code from any place in it, up to a bound behind the code or up to `top`,
drops only far places. What it ends with is settled by what follows the code (`hnext`); it can also
end past the graph (`hend`), or at a bound within the code (`hstop`). -/
theorem Tidy.clear {g : Graph} (hq : g.Bounded q top) (hexit : g.LeavesPast) (hc : Tidy c) :
    ∀ {i u j : Nat} {R : Nat → Prop}, g.HasAt i c → j ≤ c.length → u ≤ top →
      (i + c.length ≤ u ∨ u = top) → (∀ e, g.size ≤ e → R e) →
      (u < i + c.length → ∀ e, u ≤ e → R e) → (∀ k, g.Clear q top k (i + c.length) u R) →
      ∀ k, g.Clear q top k (i + j) u R := by
  induction hc with
  | nil =>
    intro i u j R _ hj _ _ _ _ hnext
    obtain rfl : j = 0 := by simpa using hj
    exact hnext
  | @access x n ha =>
    intro i u j R hg hj _ _ hend hstop hnext k
    rw [List.length_singleton] at hj hstop hnext
    obtain rfl | rfl : j = 0 ∨ j = 1 := by omega
    · refine clear_start (fun hu => hstop (by omega) _ hu) fun hu => ?_
      exact clear_access hg.head ha (hend _ (Nat.le_refl _)) hu hnext
    · exact hnext k
  | exit n =>
    intro i u j R hg hj htop _ hend hstop hnext k
    have hsz := hg.le_size (by simp)
    have htl := hq.top_le
    have hpast := hexit ⟨n, Array.mem_toList_iff.2 (Array.mem_of_getElem? hg.head)⟩
    rw [List.length_singleton] at hj hstop hnext hsz
    obtain rfl | rfl : j = 0 ∨ j = 1 := by omega
    · refine clear_start (fun hu => hstop (by omega) _ hu) fun hu => ?_
      refine clear_goto hg.head hu fun k => ?_
      have hd : i + 0 + Jump.dist (i + 0) .exit = exitTarget := by
        simp only [Jump.dist]
        omega
      rw [hd]
      exact clear_of_le (by omega) (hend _ hpast)
    · exact hnext k
  | @append c d hc hd ihc ihd =>
    intro i u j R hg hj htop hcase hend hstop hnext k
    rw [List.length_append] at hj hcase hstop hnext
    rw [← Nat.add_assoc] at hnext
    have hrest : ∀ {l}, l ≤ d.length → ∀ k, g.Clear q top k (i + c.length + l) u R := fun hl =>
      ihd hg.right hl htop (by omega) hend (fun h => hstop (by omega)) hnext
    rcases Nat.lt_or_ge j c.length with hlt | hge
    · exact ihc hg.left (Nat.le_of_lt hlt) htop (by omega) hend (fun h => hstop (by omega))
        (hrest (Nat.zero_le _)) k
    · have := hrest (l := j - c.length) (by omega) k
      rwa [show i + c.length + (j - c.length) = i + j by omega] at this
  | @skip n c hc ih =>
    intro i u j R hg hj htop hcase hend hstop hnext k
    have hsz := hg.le_size (by simp)
    rw [List.length_cons] at hj hcase hstop hnext hsz
    have hlast : i + 1 + c.length = i + (c.length + 1) := by omega
    have hin : ∀ {l}, l ≤ c.length → ∀ k, g.Clear q top k (i + 1 + l) u R := fun hl =>
      ih hg.tail hl htop (by omega) hend (fun h => hstop (by omega)) (hlast ▸ hnext)
    rcases Nat.eq_zero_or_pos j with rfl | hj'
    · refine clear_start (fun hu => hstop (by omega) _ hu) fun hiu => ?_
      refine clear_fork (J := fun e => e = i + 1 ∨ e = i + (c.length + 1)) hg.head hiu
        (fun k => clearFork_meet hq (by omega) htop (by omega) (by omega) (fun k hle => ?_)
          (.inl rfl) (.inr rfl)) ?_
      · refine ih (j := 0) hg.tail (by omega) (by omega) (.inl (by omega))
          (fun e he => .inr he) (fun h => absurd h (by omega)) (fun k => ?_) k
        exact clear_of_le (by omega) (.inl hlast)
      · rintro e (rfl | rfl)
        · exact hin (Nat.zero_le _)
        · exact hnext
    · have := hin (l := j - 1) (by omega) k
      rwa [show i + 1 + (j - 1) = i + j by omega] at this
  | @arm n body rest hb hr ihb ihr =>
    intro i u j R hg hj htop hcase hend hstop hnext k
    have hsz := hg.le_size (by simp [armCode])
    rw [length_armCode] at hj hcase hstop hnext hsz
    obtain ⟨hfork, hbody, hgoto, hrest⟩ := hg.arm
    have hlast : i + (body.length + 2) + rest.length = i + (body.length + 2 + rest.length) := by
      omega
    have hjump : i + 1 + body.length + Jump.dist (i + 1 + body.length) (.by (rest.length + 1)) =
        i + (body.length + 2 + rest.length) := by
      simp only [Jump.dist]
      omega
    have hinBody : ∀ {l}, l ≤ body.length → ∀ k, g.Clear q top k (i + 1 + l) u R := fun hl =>
      ihb hbody hl htop (by omega) hend (fun h => hstop (by omega)) fun k =>
        clear_start (fun hu => hstop (by omega) _ hu) fun hu => clear_goto hgoto hu (hjump ▸ hnext)
    have hinRest : ∀ {l}, l ≤ rest.length →
        ∀ k, g.Clear q top k (i + (body.length + 2) + l) u R := fun hl =>
      ihr hrest hl htop (by omega) hend (fun h => hstop (by omega)) (hlast ▸ hnext)
    rcases Nat.eq_zero_or_pos j with rfl | hj'
    · refine clear_start (fun hu => hstop (by omega) _ hu) fun hiu => ?_
      refine clear_fork (J := fun e => e = i + 1 ∨ e = i + (body.length + 2) ∨
        e = i + (body.length + 2 + rest.length)) hfork hiu (fun k => ?_) ?_
      · refine clearFork_over hq (by omega) (by omega) htop hcase hsz (fun k hu => ?_)
          (fun k hu => ?_) (.inl rfl) (.inr (.inl rfl)) (.inr (.inr rfl))
        · refine ihb (j := 0) hbody (by omega) (by omega) (.inl (by omega))
            (fun e he => .inr he) (fun h => absurd h (by omega)) (fun k => ?_) k
          refine clear_goto hgoto (by omega) fun k => ?_
          rw [hjump]
          exact clear_of_le (by omega) (.inl rfl)
        · refine ihr (j := 0) hrest (by omega) (by omega) (.inl (by omega))
            (fun e he => .inr he) (fun h => absurd h (by omega)) (fun k => ?_) k
          exact clear_of_le (by omega) (.inl hlast)
      · rintro e (rfl | rfl | rfl)
        · exact hinBody (Nat.zero_le _)
        · exact hinRest (Nat.zero_le _)
        · exact hnext
    · rcases Nat.lt_or_ge j (body.length + 2) with hlt | hge
      · have := hinBody (l := j - 1) (by omega) k
        rwa [show i + 1 + (j - 1) = i + j by omega] at this
      · have := hinRest (l := j - (body.length + 2)) (by omega) k
        rwa [show i + (body.length + 2) + (j - (body.length + 2)) = i + j by omega] at this

/-- On tidy code a scan drops only what is out of its reach. -/
theorem Tidy.dropped_far {g : Graph} (hq : g.Bounded q top)
    (hexit : g.LeavesPast) (hc : Tidy g.code.toList)
    (he : g.scan q k pc top = .at e) : ∀ c ∈ g.dropped q k pc top, g.Far top c := by
  have htop := hq.top_le
  have hlen : g.code.toList.length = g.size := Array.length_toList
  have hclear : g.Clear q top k pc top fun _ => True := by
    rcases Nat.lt_or_ge pc top with hpc | hpc
    · have := hc.clear hq hexit (j := pc) (R := fun _ => True) g.hasAt_self (by omega)
        (Nat.le_refl _) (.inr rfl) (fun _ _ => trivial) (fun _ _ _ => trivial)
        (fun k => clear_of_le (by omega) trivial) k
      rwa [Nat.zero_add] at this
    · exact clear_of_le hpc trivial
  exact (hclear e he).2

end Graph

/-! ## What closing jumps does to tidy code -/

namespace Graph

theorem closeBlock_eq (h : ∀ n k, Instr.goto n (.leave k) ∉ c) : closeBlock c = c := by
  fun_induction closeBlock c with
  | case1 => rfl
  | case2 n rest ih => exact absurd List.mem_cons_self (h n 0)
  | case3 n k rest ih => exact absurd List.mem_cons_self (h n (k + 1))
  | case4 i rest h0 h₁ ih => rw [ih fun n k hm => h n k (by simp [hm])]

theorem Tidy.jump (h : Tidy c) : Instr.goto n j ∈ c → (∃ d, j = .by d) ∨ j = .exit := by
  induction h with
  | nil => simp
  | access h =>
    intro hm
    rw [List.mem_singleton] at hm
    subst hm
    cases h
  | exit m =>
    intro hm
    cases List.mem_singleton.1 hm
    exact .inr rfl
  | append _ _ ihc ihd => exact fun hm => (List.mem_append.1 hm).elim ihc ihd
  | skip m _ ih => exact fun hm => ih (List.mem_of_ne_of_mem (by simp) hm)
  | arm m _ _ ihb ihr =>
    intro hm
    simp only [armCode, List.cons_append, List.mem_cons, List.mem_append] at hm
    rcases hm with hm | hm | hm | hm
    · cases hm
    · exact ihb hm
    · cases hm
      exact .inl ⟨_, rfl⟩
    · exact ihr hm

theorem Tidy.closeBlock_eq (h : Tidy c) : closeBlock c = c :=
  Graph.closeBlock_eq fun n k hm => by simpa using h.jump hm

theorem Tidy.rounds (n : Node) {cond body : List Instr} (hc : Tidy cond) (hb : Tidy body) :
    ∀ k, Tidy (roundsCode n cond body k)
  | 0 => .nil
  | k + 1 => by
    have hrest := Tidy.rounds n hc hb k
    have := hc.append (.skip n (hb.append hrest))
    simpa only [roundsCode, List.length_append, List.append_assoc, List.cons_append] using this

end Graph

namespace Node

/-- Neither a jump out of a block nor a `try` stands in the tree. -/
def Structured (n : Node) : Prop :=
  ∀ m ∈ n.preorder, m.isKind .breakStmt = false ∧ m.isKind .tryStmt = false

theorem structured_node : (Node.node h ks).Structured ↔
      (h.kind ≠ .breakStmt ∧ h.kind ≠ .tryStmt) ∧ ∀ k ∈ ks, k.Structured := by
  constructor
  · intro hs
    refine ⟨?_, fun k hk m hm => hs m ?_⟩
    · have := hs (.node h ks) (by simp [preorder])
      simpa using this
    · simp only [preorder, List.mem_cons, mem_preorderAll]
      exact .inr ⟨k, hk, hm⟩
  · rintro ⟨hk, hks⟩ m hm
    simp only [preorder, List.mem_cons, mem_preorderAll] at hm
    rcases hm with rfl | ⟨k, hkm, hm⟩
    · simpa using hk
    · exact hks k hkm m hm

theorem Structured.kids (h : n.Structured) : ∀ k ∈ n.kids, k.Structured := by
  cases n with
  | hole => simp [Node.kids]
  | node => exact (structured_node.1 h).2

end Node

end Lifecycle
