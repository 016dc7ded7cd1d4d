import Mathlib.Data.List.Forall2
import Lifecycle.Proofs.Injection.Emitted
import Lifecycle.Proofs.Tree.Heads

/-!
# Trees stay within a palette

A `Palette` says which symbols, types and positions a tree may show, and which calls may stand in
what comes of it. The operations that are put into a well-formed tree within a palette, and what
stands around a region that is closed, stay within it, as long as the new variables and the
operators that were looked up are allowed, too.
-/

namespace Lifecycle

/-- Which symbols, types and positions the nodes of a tree may have. When it is strict, the symbols
of nodes that are no names count, too. -/
structure Palette where
  sym : SymRef → Prop
  type : TypeId → Prop
  span : Span → Prop
  strict : Prop
  note : Note → Prop := fun _ => True
  source : Node → Prop := fun _ => True
  call : Node → Prop := fun _ => True

namespace Palette

variable (p : Palette)

structure Shows (h : Head) : Prop where
  type : p.type h.type
  span : p.span h.span
  sym : ∀ r, h.sym = some r → h.kind = .sym ∨ p.strict → p.sym r

structure Within (k : Ground) (n : Node) : Prop where
  wellFormed : n.WellFormed k.ops.symbols
  shows : ∀ h ∈ n.heads, p.Shows h

structure Fits (k : Ground) (n : Node) : Prop extends p.Within k n where
  calls : ∀ c ∈ n.preorder, c.isKind .call = true → p.call c

structure Takes (k : Ground) (n : Node) : Prop extends p.Within k n where
  source : p.source n

structure Holds (k : Ground) (n : Node) : Prop extends p.Fits k n where
  name : n.isKind .sym = true → p.source n

/-- What is asked of the trees that are worked on and of the calls that come up. -/
structure Closed (k : Ground) : Prop where
  part : ∀ h ks, p.source (.node h ks) → ∀ a ∈ ks, p.source a
  early : ∀ r span n, r < k.size → Node.Refers r (k.ops.symbols.get r) span n → p.source n
  fresh : ∀ r x span n, p.note (.fresh false r x) → Node.Refers r x span n → p.source n
  start : ∀ r t span n, p.note (.magic .default r) → k.Calls r t span [] n → p.source n
  copy : ∀ c c', c.rename id = c'.rename id → p.call c → p.call c'
  kept : ∀ n, p.source n → k.Kept p.source n → ∀ c ∈ n.preorder, c.isKind .call = true → p.call c
  emits : ∀ n l, k.Emits p.source n l → (∀ e ∈ l, p.note e) → p.call n

structure Covers (k : Ground) : Prop where
  regular : k.regular
  noType : p.type 0
  noSpan : p.span {}
  bool : p.type k.types.builtins.bool
  early : ∀ r, r < k.size → p.sym r → p.type (k.ops.symbols.get r).type ∧
    p.span (k.ops.symbols.get r).span
  result : ∀ r, k.routine.result = some r → p.sym r
  params : ∀ r, some r ∈ k.routine.params → (k.ops.symbols.get r).has .sink = true → p.sym r
  closed : p.Closed k

def Admits : Note → Prop
  | .fresh lent r x => p.sym r ∧ p.note (.fresh lent r x)
  | .op r => p.sym r ∧ p.note (.op r)
  | .magic m r => p.sym r ∧ p.note (.magic m r)
  | .asked t owning => p.note (.asked t owning)
  | _ => True

/-- A variable that came into being has a type and a position of the palette, and what is put into a
tree when a scope is closed stays within the palette. -/
def Keeps (k : Ground) : Note → Prop
  | .fresh _ r x => ∃ kind t span, k.Entered kind t span r x ∧ p.type t ∧ p.span span
  | .var _ r x => p.sym r ∧ ∃ y, x = some y ∧ p.type y.type ∧ p.span y.span
  | .reset _ n | .final _ n => p.Fits k n
  | _ => True

/-- Given that what came up is allowed, `F` holds and the notes are kept. -/
def Gives (k : Ground) (F : Prop) (l : Log) : Prop :=
  (∀ e ∈ l, p.Admits e) → F ∧ ∀ e ∈ l, p.Keeps k e

abbrev Good (k : Ground) (out : Node) (l : Log) : Prop := p.Gives k (p.Fits k out) l

variable {p} {k : Ground} {ks : List Node} {n : Node} {t : TypeId} {h : Head} {i : ScopeId}
  {kind : NodeKind} {r : SymRef} {x : Symbol} {parent : Option ScopeId} {l : Log}

theorem closed_of_forall (hs : ∀ n, p.source n) (hc : ∀ n, p.call n) : p.Closed k :=
  ⟨fun _ _ _ a _ => hs a, fun _ _ n _ _ => hs n, fun _ _ _ n _ _ => hs n, fun _ _ _ n _ _ => hs n,
    fun _ c' _ _ => hc c', fun _ _ _ c _ _ => hc c, fun n _ _ _ => hc n⟩

/-! ## Trees -/

theorem Within.kid (hn : p.Within k (.node h ks)) (ha : a ∈ ks) : p.Within k a :=
  ⟨hn.wellFormed.kids a ha, fun x hx => hn.shows x (by
    rw [Node.heads_node, List.mem_cons]
    exact .inr (Node.mem_headsAll.2 ⟨a, ha, hx⟩))⟩

theorem Fits.kid (hn : p.Fits k (.node h ks)) (ha : a ∈ ks) : p.Fits k a :=
  ⟨hn.toWithin.kid ha, fun c hc => hn.calls c (by
    rw [Node.preorder, List.mem_cons]
    exact .inr (Node.mem_preorderAll.2 ⟨a, ha, hc⟩))⟩

theorem Covers.kid (hp : p.Covers k) (hn : p.Takes k (.node h ks)) (ha : a ∈ ks) : p.Takes k a :=
  ⟨hn.toWithin.kid ha, hp.closed.part h ks hn.source a ha⟩

theorem Covers.kept (hp : p.Covers k) (hn : p.Takes k n) (hk : k.Kept p.source n) : p.Fits k n :=
  ⟨hn.toWithin, hp.closed.kept n hn.source hk⟩

theorem Covers.keptName (hp : p.Covers k) (hn : p.Takes k n)
    (hk : n.isKind .sym = true) : p.Fits k n :=
  hp.kept hn (.place (Node.isPlace_of_isKind hk))

theorem Within.head (hn : p.Within k (.node h ks)) : p.Shows h :=
  hn.shows h (by simp)

theorem Within.type (hn : p.Within k n) : p.type n.type := by
  cases n with
  | hole => exact absurd hn.wellFormed Node.WellFormed.ne_hole
  | node h ks => exact hn.head.type

theorem Within.span (hn : p.Within k n) : p.span n.span := by
  cases n with
  | hole => exact absurd hn.wellFormed Node.WellFormed.ne_hole
  | node h ks => exact hn.head.span

theorem Covers.copy (hp : p.Covers k) (hn : p.Fits k n) (hc : n.CopyOf n') : p.Fits k n' := by
  obtain ⟨next, rfl⟩ := hc
  refine ⟨⟨Node.wellFormed_relabel.2 hn.wellFormed,
    Node.heads_relabel (fun h s hs => ⟨hs.type, hs.span, hs.sym⟩) hn.shows⟩, fun c hc hk => ?_⟩
  obtain ⟨m, hm, he⟩ := Node.mem_preorder_relabel hc
  exact hp.closed.copy m c he (hn.calls m hm ((Node.isKind_eq_of_rename he _).trans hk))

theorem within_is (hn : Node.Is h ks n)
    (hl : Node.layoutFaults k.ops.symbols h ks = .ok []) (hs : p.Shows h)
    (hk : ∀ a ∈ ks, p.Within k a) : p.Within k n := by
  obtain ⟨site, rfl⟩ := hn
  refine ⟨Node.wellFormed_node hl fun a ha => (hk a ha).wellFormed, fun x hx => ?_⟩
  rw [Node.heads_node, List.mem_cons] at hx
  rcases hx with rfl | hx
  · exact ⟨hs.type, hs.span, hs.sym⟩
  · obtain ⟨a, ha, hx⟩ := Node.mem_headsAll.1 hx
    exact (hk a ha).shows x hx

theorem fits_is (hn : Node.Is h ks n)
    (hl : Node.layoutFaults k.ops.symbols h ks = .ok []) (hs : p.Shows h)
    (hk : ∀ a ∈ ks, p.Fits k a) (hc : h.kind = .call → p.call n) : p.Fits k n := by
  refine ⟨within_is hn hl hs fun a ha => (hk a ha).toWithin, fun c hm hk' => ?_⟩
  obtain ⟨site, rfl⟩ := hn
  rw [Node.preorder, List.mem_cons] at hm
  rcases hm with rfl | hm
  · exact hc (by simpa using hk')
  · obtain ⟨a, ha, hm⟩ := Node.mem_preorderAll.1 hm
    exact (hk a ha).calls c hm hk'

theorem Within.withKids (hn : p.Within k (.node h ks))
    (hi : Node.Is h ks' n) (hl : Node.layoutFaults k.ops.symbols h ks' = .ok [])
    (hk : ∀ a ∈ ks', p.Fits k a) (hc : h.kind ≠ .call) : p.Fits k n :=
  fits_is hi hl hn.head hk fun h => absurd h hc

theorem shows_unnamed {span : Span} (ht : p.type t)
    (hs : p.span span) : p.Shows { kind, type := t, span } :=
  ⟨ht, hs, nofun⟩

theorem span_orElse (ha : p.span a) (hb : p.span b) : p.span (a.orElse b) := by
  unfold Span.orElse
  split_ifs
  · exact hb
  · exact ha

theorem Covers.spanOf (hp : p.Covers k) : ∀ {ks : List Node}, (∀ a ∈ ks, p.Within k a) →
    p.span (Node.spanOf ks)
  | [], _ => hp.noSpan
  | a :: ks, ha => by
    unfold Node.spanOf
    split_ifs
    · exact hp.spanOf fun b hb => ha b (by simp [hb])
    · exact (ha a (by simp)).span

theorem Covers.stmt (hp : p.Covers k) {span : Span} (hn : Node.Is { kind, span } ks n)
    (hl : Node.layoutFaults k.ops.symbols { kind, span } ks = .ok []) (hs : p.span span)
    (hk : ∀ a ∈ ks, p.Fits k a) (hc : kind ≠ .call) : p.Fits k n :=
  fits_is hn hl (shows_unnamed hp.noType hs) hk fun h => absurd h hc

theorem Covers.tree (hp : p.Covers k) (hn : Node.Tree kind t ks n)
    (hl : Node.layoutFaults k.ops.symbols { kind, type := t, span := Node.spanOf ks } ks = .ok [])
    (ht : p.type t) (hk : ∀ a ∈ ks, p.Fits k a) (hc : kind ≠ .call) : p.Fits k n :=
  fits_is hn hl (shows_unnamed ht (hp.spanOf fun a ha => (hk a ha).toWithin)) hk fun h =>
    absurd h hc

theorem Covers.within_tree (hp : p.Covers k) (hn : Node.Tree kind t ks n)
    (hl : Node.layoutFaults k.ops.symbols { kind, type := t, span := Node.spanOf ks } ks = .ok [])
    (ht : p.type t) (hk : ∀ a ∈ ks, p.Within k a) : p.Within k n :=
  within_is hn hl (shows_unnamed ht (hp.spanOf hk)) hk

theorem fits_refers {span : Span}
    (hn : Node.Refers r x span n) (hr : p.sym r) (ht : p.type x.type) (hx : p.span x.span)
    (hs : p.span span) : p.Fits k n :=
  fits_is hn rfl ⟨ht, span_orElse hs hx, fun r' hr' _ => by cases hr'; exact hr⟩ (by simp) (by simp)

theorem fits_entered {kind : SymKind} {span : Span}
    (hx : k.Entered kind t span r x) (hn : Node.Refers r x span n) (hr : p.sym r) (ht : p.type t)
    (hs : p.span span) : p.Fits k n :=
  fits_refers hn hr (hx.type ▸ ht) (hx.span ▸ hs) hs

theorem Covers.entered (hp : p.Covers k) {kind : SymKind} {span : Span}
    (hx : k.Entered kind t span r x) (hn : Node.Refers r x span n)
    (hr : p.Admits (.fresh false r x)) (ht : p.type t) (hs : p.span span) : p.Holds k n :=
  ⟨fits_entered hx hn hr.1 ht hs, fun _ => hp.closed.fresh r x span n hr.2 hn⟩

theorem Fits.skipConv : ∀ {n place : Node}, n.skipConv = .ok place → p.Fits k n → p.Fits k place
  | .hole, _, h, hn => by
    cases h
    exact hn
  | .node h [], _, hs, hn => by
    rw [Node.skipConv] at hs
    split_ifs at hs
    cases hs
    exact hn
  | .node h (a :: ks), _, hs, hn => by
    rw [Node.skipConv] at hs
    split_ifs at hs
    · exact Fits.skipConv hs (hn.kid (by simp))
    · cases hs
      exact hn

/-! ## Lifecycle operations -/

section Gives

variable {F G H : Prop} {l1 l2 : Log}

theorem good_nil (h : F) : p.Gives k F [] := fun _ => ⟨h, by simp⟩

namespace Gives

theorem imp (h : p.Gives k F l) (hi : F → G) : p.Gives k G l := fun hl => (h hl).imp_left hi

theorem append (h1 : p.Gives k F l1) (h2 : F → p.Gives k G l2) (hi : F → G → H) :
    p.Gives k H (l1 ++ l2) := by
  intro hl
  obtain ⟨hl1, hl2⟩ := List.forall_mem_append.1 hl
  obtain ⟨f1, n1⟩ := h1 hl1
  obtain ⟨f2, n2⟩ := h2 f1 hl2
  exact ⟨hi f1 f2, List.forall_mem_append.2 ⟨n1, n2⟩⟩

theorem cons (he : p.Admits e → p.Keeps k e) (h : p.Admits e → p.Gives k F l) :
    p.Gives k F (e :: l) := by
  intro hl
  obtain ⟨hl1, hl2⟩ := List.forall_mem_cons.1 hl
  obtain ⟨f, n⟩ := h hl1 hl2
  exact ⟨f, List.forall_mem_cons.2 ⟨he hl1, n⟩⟩

theorem asked {b : Bool} (h : p.Gives k F l) : p.Gives k F (.asked t b :: l) :=
  .cons (fun _ => trivial) fun _ => h

theorem left (h : p.Gives k F l) : p.Gives k F (.left i :: l) := .cons (fun _ => trivial) fun _ => h

theorem fresh {kind : SymKind} {span : Span} (hx : k.Entered kind t span r x) (ht : p.type t)
    (hs : p.span span) (h : p.Admits (.fresh lent r x) → p.Gives k F l) :
    p.Gives k F (.fresh lent r x :: l) :=
  .cons (fun _ => ⟨kind, t, span, hx, ht, hs⟩) h

/-- A new variable, and that it is one of a scope. -/
theorem entered {kind : SymKind} {span : Span} (hx : k.Entered kind t span r x) (ht : p.type t)
    (hs : p.span span) (h : p.Admits (.fresh lent r x) → p.Gives k F l) :
    p.Gives k F (.fresh lent r x :: .var i r (some x) :: l) :=
  .fresh hx ht hs fun hr => .cons (fun _ => ⟨hr.1, x, rfl, hx.type ▸ ht, hx.span ▸ hs⟩) fun _ =>
    h hr

end Gives

end Gives

section Operations

variable (hp : p.Covers k) {l : Log} {out : Node} {args : List Node}

include hp

theorem fits_calls {span : Span}
    (h : k.Calls r t span args out) (hr : p.sym r) (ht : p.type t) (hs : p.span span)
    (ha : ∀ a ∈ args, p.Fits k a) (hc : p.call out) : p.Fits k out := by
  obtain ⟨x, f, hop, hf, ho⟩ := h
  have hx : p.type x.type ∧ p.span x.span := by
    rcases hop with ⟨hop, hx⟩ | ⟨-, hm⟩
    · have hlt : r < k.size := k.known hp.regular r hop
      rw [hx _ (k.entry_eq hlt)]
      exact hp.early r hlt hr
    · rw [hm.type, hm.span]
      exact ⟨hp.noType, hp.noSpan⟩
  refine fits_is ho rfl (shows_unnamed ht hs) (fun a ha' => ?_) fun _ => hc
  rcases List.mem_cons.1 ha' with rfl | ha'
  · exact fits_refers hf hr hx.1 hx.2 hs
  · exact ha a ha'

theorem good_callsMagic {span : Span}
    (h : k.CallsMagic m t span args out l) (hm : m ≠ .wasMoved) (ht : p.type t)
    (hs : p.span span) (ha : ∀ a ∈ args, p.Fits k a)
    (hn : ∀ a, args = [a] → a.isKind .sym = false) : p.Good k out l := by
  obtain ⟨r, hc, rfl⟩ := h
  intro hl
  obtain ⟨hr, hnote⟩ := hl (.magic m r) (by simp)
  refine ⟨fits_calls hp hc hr ht hs ha ?_, by simp [Keeps]⟩
  exact hp.closed.emits out _ (.magic hm hc hn) (by simpa using hnote)

theorem good_marker (h : k.Resets n out l) (hn : p.Fits k n)
    (he : k.Emits p.source out l) : p.Good k out l := by
  obtain ⟨place, cp, hplace, hcp, r, hc, rfl⟩ := h
  intro hl
  obtain ⟨hr, hnote⟩ := hl (.magic .wasMoved r) (by simp)
  refine ⟨fits_calls hp hc hr hp.noType hn.span ?_ ?_, by simp [Keeps]⟩
  · simpa using hp.copy (hn.skipConv hplace) hcp
  · exact hp.closed.emits out _ he (by simpa using hnote)

theorem good_resets (h : k.Resets n out l) (hn : p.Takes k n) (hm : k.Movable n) : p.Good k out l :=
  good_marker hp h (hp.kept hn (.place hm.isPlace)) (.reset hn.source hm h)

theorem good_operates
    (h : k.Operates dest args out l) (hd : p.Fits k dest) (ha : ∀ a ∈ args, p.Fits k a)
    (hs : args = [] → dest.isKind .sym = true → p.source dest) : p.Good k out l := by
  obtain ⟨cp, r, hcp, hc, rfl⟩ := h
  intro hl
  obtain ⟨hr, hn⟩ := hl (.op r) (by simp)
  refine ⟨fits_calls hp hc hr hp.noType hd.span ?_ ?_, by simp [Keeps]⟩
  · exact List.forall_mem_cons.2 ⟨hp.copy hd hcp, ha⟩
  · refine hp.closed.emits out _ (.operator hc fun a he hk => ?_) (by simpa using hn)
    obtain ⟨rfl, hnil⟩ := List.cons.inj he
    refine ⟨dest, hs hnil ?_, hcp⟩
    obtain ⟨next, rfl⟩ := hcp
    rwa [Node.isKind_eq_of_rename (Node.rename_relabel id dest next)] at hk

theorem good_destroys {dest out : Node} (h : k.Destroys dest out l)
    (hd : p.Holds k dest) : p.Good k out l := by
  rcases h with h | ⟨ho, rfl⟩
  · exact good_operates hp h hd.toFits (by simp) fun _ => hd.name
  · exact good_nil (hp.stmt ho rfl hd.span (by simp) (by simp))

theorem good_sinks (h : k.Sinks dest ri out l)
    (hd : p.Holds k dest) (hr : p.Fits k ri) : p.Good k out l := by
  have hf := hd.toFits
  cases h with
  | plain ho => exact good_nil (hp.tree ho rfl hp.noType (by simp [hf, hr]) (by simp))
  | own ho => exact good_operates hp ho hf (by simpa using hr) (by simp)
  | replaced hold hs ho =>
    refine (good_destroys hp hold hd).imp fun hfd => hp.stmt ho rfl hd.span ?_ (by simp)
    simpa using ⟨hfd, hp.tree hs rfl hp.noType (by simp [hf, hr]) (by simp)⟩

theorem good_copies (h : k.Copies dest src out l)
    (hd : p.Fits k dest) (hs : p.Fits k src) : p.Good k out l := by
  rcases h with h | ⟨ho, rfl⟩
  · exact good_operates hp h hd (by simpa using hs) (by simp)
  · exact good_nil (hp.tree ho rfl hp.noType (by simp [hd, hs]) (by simp))

theorem good_sinksAndResets (h : k.SinksAndResets dest ri out l) (hd : p.Holds k dest)
    (hr : p.Takes k ri) (hv : k.Movable ri) : p.Good k out l := by
  obtain ⟨moved, l1, marker, l2, hm, hc, ho, rfl⟩ := h
  refine (good_sinks hp hm hd (hp.kept hr (.place hv.isPlace))).append
    (fun _ => good_resets hp hc hr hv) fun hfm hfc => ?_
  exact hp.stmt ho rfl hr.span (by simp [hfm, hfc]) (by simp)

omit hp in
theorem good_due (hn : p.Fits k n) : p.Gives k True (InjectM.due i n) := by
  unfold InjectM.due
  split_ifs
  · exact good_nil trivial
  · exact .cons (fun _ => hn) fun _ => good_nil trivial

theorem good_keeps (h : k.Keeps arg s out l) (ha : p.Fits k arg) : p.Good k out l := by
  cases h with
  | asIs => exact (good_nil ha).asked
  | bound hx ht hs ho hd =>
    refine .asked (.entered hx ha.type ha.span fun hr => ?_)
    have htmp := hp.entered hx ht hr ha.type ha.span
    refine (good_sinks hp hs htmp ha).append (fun _ => (good_destroys hp hd htmp).append
      (fun hdestroyed => good_due hdestroyed) fun _ h => h) fun hstored _ => ?_
    exact fits_is ho rfl (shows_unnamed ha.type ha.span) (by simp [hstored, htmp.toFits]) (by simp)

theorem good_movesOut (h : k.MovesOut n out l) (hn : p.Takes k n)
    (hm : k.Movable n) : p.Good k out l := by
  have hf := hp.kept hn (.place hm.isPlace)
  cases h with
  | asIs => exact (good_nil hf).asked
  | moved _ hx ha hd hs hc hb ho =>
    refine .asked (.fresh hx hn.type hn.span fun hr => (good_resets hp hc hn hm).imp fun hcleared =>
      ?_)
    have hfa := fits_entered hx ha hr.1 hn.type hn.span
    have hfb := fits_entered hx hb hr.1 hn.type hn.span
    have hname := ha
    obtain ⟨site, rfl⟩ := hname
    have hdefs := hp.tree hd rfl hp.noType (by simp [hfa, hf]) (by simp)
    have hkind := hd
    obtain ⟨site', rfl⟩ := hkind
    have hsec := hp.tree hs rfl hp.noType (by simpa using hdefs) (by simp)
    exact fits_is ho rfl (shows_unnamed hn.type hn.span) (by simp [hsec, hcleared, hfb]) (by simp)

theorem good_marks (h : k.Marks i n l) (hn : p.Takes k n) (hv : k.Movable n) :
    p.Gives k True l := by
  rcases h with rfl | ⟨marker, l1, hm, rfl⟩
  · exact good_nil trivial
  · exact (good_resets hp hm hn hv).append
      (fun hf => .cons (fun _ => hf) fun _ => good_nil trivial) fun _ h => h

end Operations

/-! ## Around a region -/

theorem admits_of_closed (h : ∀ e ∈ Log.closed parent i l, p.Admits e) : ∀ e ∈ l, p.Admits e := by
  intro e he
  by_cases hi : e.scope? = some i
  · cases e <;> first | exact trivial | cases hi
  · exact h e (List.mem_append_left _ (List.mem_filter.2 ⟨he, by simpa using hi⟩))

theorem keeps_closed (h : ∀ e ∈ l, p.Keeps k e) : ∀ e ∈ Log.closed parent i l, p.Keeps k e := by
  intro e he
  rcases List.mem_append.1 he with he | he
  · exact h e (List.mem_filter.1 he).1
  · obtain ⟨j, rfl, -⟩ := Log.mem_passed he
    trivial

theorem Gives.close {F G : Prop} {inner : Log} (h : p.Gives k F inner)
    (hi : F → (∀ e ∈ inner, p.Keeps k e) → G) : p.Gives k G (inner.closed parent i) := by
  intro hl
  obtain ⟨hf, hn⟩ := h (admits_of_closed hl)
  exact ⟨hi hf hn, keeps_closed hn⟩

section Region

variable (hp : p.Covers k) {i : ScopeId} {inner : Log}

include hp

theorem fits_opening {span : Span}
    (h : Node.Opening (inner.vars i) span decls) (hn : ∀ e ∈ inner, p.Keeps k e)
    (hs : p.span span) : ∀ n ∈ decls, p.Fits k n := by
  cases h with
  | none => simp
  | some hd ho =>
    rename_i ds n
    have hone : ∀ d ∈ ds, p.Fits k d ∧ d.kindOr = .identDefs := by
      refine InjectM.forall_of_forall₂ hd fun v hv d ⟨a, e, ha, he, hde⟩ => ?_
      obtain ⟨hr, y, hy, ht, hx⟩ : p.Keeps k (.var i v.1 v.2) := hn _ (Log.mem_vars.1 hv)
      have ha := (hy ▸ ha).refers
      have hfa : p.Fits k a := fits_refers ha hr ht hx hs
      have hfe : p.Fits k e := hp.stmt he rfl hs (by simp) (by simp)
      obtain ⟨site, rfl⟩ := ha
      refine ⟨hp.tree hde rfl hp.noType (by simp [hfa, hfe]) (by simp), ?_⟩
      obtain ⟨site, rfl⟩ := hde
      rfl
    have hl : Node.layoutFaults k.ops.symbols { kind := .varSection, span } ds = .ok [] :=
      congrArg Except.ok (Node.onlyKind_eq_nil fun d hd => (hone d hd).2)
    simpa using hp.stmt ho hl hs (fun d hd => (hone d hd).1) (by simp)

theorem fits_cleanup {span : Span}
    (h : Node.Cleanup (inner.resets i) (inner.finals i) span fin) (hn : ∀ e ∈ inner, p.Keeps k e)
    (hs : p.span span) : p.Fits k fin := by
  refine hp.stmt h rfl hs (fun a ha => ?_) (by simp)
  rcases List.mem_append.1 ha with ha | ha
  · exact hn _ (Log.mem_resets.1 ha)
  · exact hn _ (Log.mem_finals.1 (List.mem_reverse.1 ha))

theorem fits_guarded (h : Node.Guarded body fin t out)
    (hb : p.Fits k body) (hf : p.Fits k fin) (ht : p.type t) : p.Fits k out := by
  obtain ⟨f, hff, ho⟩ := h
  have hfits : p.Fits k f := hp.tree hff rfl hp.noType (by simpa using hf) (by simp)
  obtain ⟨site, rfl⟩ := hff
  exact fits_is ho rfl (shows_unnamed ht hb.span) (by simp [hb, hfits]) (by simp)

theorem fits_closes {ret out : Node} (h : Node.Closes i ret inner out)
    (hr : p.Fits k ret) (hn : ∀ e ∈ inner, p.Keeps k e) : p.Fits k out := by
  cases h with
  | bare => exact hr
  | around hd ht ho =>
    refine hp.stmt ho rfl hr.span (fun a ha => ?_) (by simp)
    rcases List.mem_append.1 ha with ha | ha
    · exact fits_opening hp hd hn hr.span a ha
    · cases ht with
      | idle => rwa [List.mem_singleton.1 ha]
      | after hf =>
        have hfin := fits_cleanup hp hf hn hr.span
        rcases List.mem_cons.1 ha with rfl | ha
        · exact hr
        · rwa [List.mem_singleton.1 ha]
      | guarded hf hg =>
        rw [List.mem_singleton.1 ha]
        exact fits_guarded hp hg hr (fits_cleanup hp hf hn hr.span) hp.noType

theorem fits_trailingValue {span : Span}
    (h : Node.TrailingValue (inner.resets i) (inner.finals i) span t stored result rest)
    (hs : p.Fits k stored) (hr : p.Fits k result) (hn : ∀ e ∈ inner, p.Keeps k e) (ht : p.type t)
    (hspan : p.span span) : ∀ a ∈ rest, p.Fits k a := by
  cases h with
  | idle => simp [hs, hr]
  | after hf => simp [hs, hr, fits_cleanup hp hf hn hspan]
  | guarded hf hb ho =>
    have hbody := hp.tree hb rfl ht (by simp [hs, hr]) (by simp)
    simpa using fits_guarded hp ho hbody (fits_cleanup hp hf hn hspan) ht

end Region

end Palette

end Lifecycle
