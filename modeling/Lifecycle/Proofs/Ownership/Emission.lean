import Mathlib.Data.List.Forall2
import Lifecycle.Proofs.Ownership.Flow
import Lifecycle.Proofs.Ownership.Operators

/-!
# What emitted code does

`Does` says how the machine runs a node, `Performs` only what comes of the ledger. For everything
that is emitted there is a statement that it comes about and what it does.
-/

namespace Lifecycle

namespace Fragment

def Does (S : Setting) (ss : Symbols) (n : Node) (f : Ledger → Val × Ledger) : Prop :=
  ∀ w : Runtime, w.types = S.types → ss.Within w.symbols → n.run w = f

def Performs (S : Setting) (ss : Symbols) (n : Node) (f : Ledger → Ledger) : Prop :=
  ∀ w : Runtime, w.types = S.types → ss.Within w.symbols → ∀ m, (n.run w m).2 = f m

def runAll (fs : List (Ledger → Ledger)) (m : Ledger) : Ledger := fs.foldl (fun m f => f m) m

def stored (x : SymRef) (f : Ledger → Val × Ledger) (m : Ledger) : Ledger := (f m).2.store x (f m).1

section Does

variable {S : Setting} {ss ss' : Symbols} {h c d v : Head} {x op : SymRef} {n : Node}
  {ks front : List Node} {f : Ledger → Val × Ledger}

theorem Does.mono (hd : Does S ss n f) (hs : ss.Within ss') : Does S ss' n f :=
  fun w ht hw => hd w ht (hs.trans hw)

theorem Does.performs (hd : Does S ss n f) : Performs S ss n fun m => (f m).2 := by
  intro w ht hw m
  rw [hd w ht hw]

theorem Performs.mono {f : Ledger → Ledger} (hn : Performs S ss n f) (hs : ss.Within ss') :
    Performs S ss' n f :=
  fun w ht hw => hn w ht (hs.trans hw)

theorem does_named : Does S ss (named h x) (·.read x) := by
  intro w _ _
  funext m
  exact Node.run_name rfl rfl m

theorem name?_named : (named h x).name? = some x := by simp [named, Node.name?]

theorem runAll_append (fs fs' : List (Ledger → Ledger)) (m : Ledger) :
    runAll (fs ++ fs') m = runAll fs' (runAll fs m) := List.foldl_append

theorem runSeq_eq (ht : w.types = S.types) (hw : ss.Within w.symbols)
    (hks : List.Forall₂ (Performs S ss) ks fs) : ∀ r, (Node.runSeq w ks r).2 = runAll fs r.2 := by
  unfold runAll
  induction hks with
  | nil => exact fun r => by rw [Node.runSeq, List.foldl_nil]
  | cons hd _ ih => exact fun r => by rw [Node.runSeq, List.foldl_cons, ← hd w ht hw, ih]

theorem performs_seq (hk : h.kind = .stmtList ∨ h.kind = .discardStmt)
    (hks : List.Forall₂ (Performs S ss) ks fs) : Performs S ss (.node h ks) (runAll fs) := by
  intro w ht hw m
  rw [Node.run]
  rcases hk with hk | hk <;> rw [hk] <;> exact runSeq_eq ht hw hks (.held .blank, m)

theorem runSeq_concat : ∀ (ks : List Node) r, Node.runSeq w (ks ++ [n]) r =
    n.run w (Node.runSeq w ks r).2
  | [], r => by rw [List.nil_append, Node.runSeq, Node.runSeq, Node.runSeq]
  | k :: ks, r => by rw [List.cons_append, Node.runSeq, runSeq_concat ks, Node.runSeq]

/-- A list has the value of its last node. -/
theorem does_list (hk : h.kind = .stmtListExpr) (hks : List.Forall₂ (Performs S ss) front fs)
    (hn : Does S ss n f) : Does S ss (.node h (front ++ [n])) fun m => f (runAll fs m) := by
  intro w ht hw
  funext m
  rw [Node.run, hk]
  dsimp only
  rw [runSeq_concat, runSeq_eq ht hw hks, hn w ht hw]

theorem performs_store (hk : h.kind = .fastAsgn) (hn : Does S ss n f) :
    Performs S ss (.node h [named v x, n]) (stored x f) := by
  intro w ht hw m
  rw [Node.run, hk]
  simp only [Node.runStore, name?_named, hn w ht hw, stored]

theorem performs_define (hk : h.kind = .varSection) (hn : Does S ss n f)
    (hne : n.isKind .empty = false) :
    Performs S ss (.node h [.node d [named v x, n]]) (stored x f) := by
  intro w ht hw m
  rw [Node.run, hk]
  simp [Node.runDefs, Node.runDef, name?_named, hne, hn w ht hw, stored]

section Operators

variable (hk : h.kind = .call) (hop : op < ss.all.size)

include hk hop

theorem performs_destroy (hr : (ss.get op).role = .destroy) :
    Performs S ss (.node h [named c op, named v x]) (·.destroy x) := by
  intro w _ hw m
  rw [Node.run, hk]
  simp [Node.runCall, named, hw.get_eq hop, hr, Ledger.onName]

theorem performs_reset (hr : (ss.get op).role = .reset) :
    Performs S ss (.node h [named c op, named v x]) (·.put x .empty) := by
  intro w _ hw m
  rw [Node.run, hk]
  simp [Node.runCall, named, hw.get_eq hop, hr, Ledger.onName]

theorem does_default (hr : (ss.get op).role = .default) :
    Does S ss (.node h (named c op :: args)) fun m => (.held .blank, m) := by
  intro w _ hw
  funext m
  rw [Node.run, hk]
  simp [Node.runCall, named, hw.get_eq hop, hr]

theorem performs_copy (hr : (ss.get op).role = .copy) (hn : Does S ss n f) :
    Performs S ss (.node h [named c op, named v x, n]) fun m => (f m).2.copyTo x := by
  intro w ht hw m
  rw [Node.run, hk, named]
  simp only [Node.runCall, if_true, hw.get_eq hop, hr, Node.runCopy, name?_named, hn w ht hw]

end Operators

end Does

/-! ## Working through a routine -/

structure Works (S : Setting) (g : Graph) (c : InjectContext) (st : InjectState) : Prop where
  types : c.types = S.types
  routine : c.routine = S.routine
  sym : S.routine.sym ≠ none
  plain : g.Plain
  natural : st.ops.Natural S.types
  known : S.symbols.Within st.ops.symbols
  graph : st.oracle.graph = g
  conditions : st.conditions = 0
  failed : st.failed = false

/-- Nothing is declared and nothing has to be destroyed for what was done. -/
structure Quiet (S : Setting) (g : Graph) (c : InjectContext) (st st' : InjectState) : Prop where
  works : Works S g c st'
  within : st.ops.symbols.Within st'.ops.symbols
  scopes : st'.scopes = st.scopes

/-- Wherever the symbols are `ss`, the computation comes to an end, quietly; its value has `Q` with
the symbols that are there then. -/
def Quietly {α : Type} (S : Setting) (g : Graph) (ss : Symbols) (m : InjectM α)
    (Q : α → Symbols → Prop) : Prop :=
  ∀ c st, Works S g c st → st.ops.symbols = ss →
    Ends False (m c st) fun a st' => Quiet S g c st st' ∧ Q a st'.ops.symbols

section Quietly

open InjectM

variable {S : Setting} {g : Graph} {c : InjectContext} {st st' st'' : InjectState} {ss : Symbols}

theorem Works.quiet (h : Works S g c st) : Quiet S g c st st := ⟨h, .refl _, rfl⟩

theorem Quiet.trans (h : Quiet S g c st st') (h' : Quiet S g c st' st'') : Quiet S g c st st'' :=
  ⟨h'.works, h.within.trans h'.within, h'.scopes.trans h.scopes⟩

theorem Works.frame (h : Works S g c st) (ho : st'.ops = st.ops)
    (hg : st'.oracle.graph = st.oracle.graph) (hc : st'.conditions = st.conditions)
    (hf : st'.failed = st.failed) (hs : st'.scopes = st.scopes) : Quiet S g c st st' where
  works := { h with natural := ho ▸ h.natural, known := ho ▸ h.known, graph := hg.trans h.graph
                    conditions := hc.trans h.conditions, failed := hf.trans h.failed }
  within := ho ▸ .refl _
  scopes := hs

namespace Quietly

variable {α β : Type} {m : InjectM α} {P Q : α → Symbols → Prop} {R : β → Symbols → Prop}
  {f : α → InjectM β} {a : α}

theorem pure (ha : Q a ss) : Quietly S g ss (Pure.pure a) Q := by
  rintro c st hw rfl
  exact ⟨hw.quiet, ha⟩

theorem bind (hm : Quietly S g ss m P)
    (hf : ∀ a ss', ss.Within ss' → P a ss' → Quietly S g ss' (f a) R) :
    Quietly S g ss (m >>= f) R := by
  rintro c st hw rfl
  rw [ends_bind]
  refine (hm c st hw rfl).mono fun a st' ⟨hq, ha⟩ => ?_
  refine (hf a _ hq.within ha c st' hq.works rfl).mono fun b st'' ⟨hq', hb⟩ => ?_
  exact ⟨hq.trans hq', hb⟩

theorem mono (hm : Quietly S g ss m P) (hpq : ∀ a ss', ss.Within ss' → P a ss' → Q a ss') :
    Quietly S g ss m Q := by
  rintro c st hw rfl
  exact (hm c st hw rfl).mono fun a st' ⟨hq, ha⟩ => ⟨hq, hpq a _ hq.within ha⟩

theorem of_known (h : S.symbols.Within ss → Quietly S g ss m Q) : Quietly S g ss m Q :=
  fun c st hw hs => h (hs ▸ hw.known) c st hw hs

theorem read_bind {f : InjectContext → InjectM β}
    (h : ∀ c, c.types = S.types → Quietly S g ss (f c) R) :
    Quietly S g ss (MonadReader.read >>= f) R :=
  fun c st hw hs => h c hw.types c st hw hs

theorem get_bind {f : InjectState → InjectM β}
    (h : ∀ c st, Works S g c st → st.ops.symbols = ss → Quietly S g ss (f st) R) :
    Quietly S g ss (MonadState.get >>= f) R :=
  fun c st hw hs => h c st hw hs c st hw hs

theorem symbols_bind {f : Symbols → InjectM β} (h : Quietly S g ss (f ss) R) :
    Quietly S g ss (InjectM.symbols >>= f) R := by
  rintro c st hw rfl
  exact h c st hw rfl

theorem owner_bind {f : Option SymRef → InjectM β} (h : Quietly S g ss (f S.routine.sym) R) :
    Quietly S g ss (InjectM.owner >>= f) R := by
  intro c st hw hs
  rw [← hw.routine] at h
  exact h c st hw hs

theorem shapeOf_bind {f : TypeKind → InjectM β} (h : Quietly S g ss (f (S.types.shapeOf t)) R) :
    Quietly S g ss (InjectM.shapeOf t >>= f) R := by
  intro c st hw hs
  rw [← hw.types] at h
  exact h c st hw hs

theorem pure_bind (h : Quietly S g ss (f a) R) : Quietly S g ss (Pure.pure a >>= f) R := h

theorem lift_bind {x : Except Fault α} (hx : x = .ok a) (h : Quietly S g ss (f a) R) :
    Quietly S g ss (liftM x >>= f) R := by
  subst hx
  exact h

end Quietly

/-! ## Questions -/

theorem quietly_ops {α : Type} {m : OpM α} {Q : α → Symbols → Prop}
    (hm : ∀ s, s.Natural S.types → s.symbols = ss →
      Ends False (m s) fun a s' => OpState.Asks S.types s s' ∧ Q a s'.symbols) :
    Quietly S g ss (ops m) Q := by
  intro c st hw hs
  rw [ends_ops]
  refine (hm st.ops hw.natural hs).mono fun a s ⟨hs, ha⟩ => ⟨⟨?_, hs.within, rfl⟩, ha⟩
  exact { hw with natural := hs.natural, known := hw.known.trans hs.within }

theorem quietly_isVoid (t : TypeId) :
    Quietly S g ss (isVoid t) fun v _ => v = S.types.isEmpty t :=
  fun c st hw _ => ⟨hw.quiet, by rw [hw.types]⟩

theorem quietly_isOwning {t : TypeId} (ht : S.types.isText t = true ∨ S.types.isBare t = true) :
    Quietly S g ss (isOwning t) fun v _ => v = S.types.isText t := by
  refine .bind (quietly_isVoid t) fun v ss' _ hv => ?_
  subst hv
  split_ifs with he
  · refine .pure ?_
    rcases ht with ht | ht
    · rw [TypeTable.isEmpty_text ht] at he
      cases he
    · exact (TypeTable.isText_bare ht).symm
  · refine .read_bind fun c hc => quietly_ops fun s hs _ => ?_
    rw [hc]
    exact (OpM.ends_needsLifecycle_text hs ht).mono fun v s ⟨hs, hsym, hv⟩ =>
      ⟨⟨hs, hsym ▸ .refl _⟩, hv⟩

theorem quietly_resolve {t : TypeId} (ht : S.types.isText t = true) (k : OpKind) :
    Quietly S g ss (resolve t k) fun r ss =>
      ∃ op, r = .ok (some op) ∧ op < ss.all.size ∧ (ss.get op).Made k.text .none := by
  refine .read_bind fun c hc => quietly_ops fun s hs _ => ?_
  rw [hc]
  exact OpM.ends_resolve_text hs ht k

theorem quietly_canMove {t : TypeId} (ht : S.types.isText t = true) :
    Quietly S g ss (canMove t) fun v _ => v = true := by
  refine .read_bind fun c hc => quietly_ops fun s hs _ => ?_
  rw [hc]
  exact OpM.ends_canMove_text hs ht

/-! ## New nodes -/

theorem quietly_node (hd : Head) (kids : List Node) :
    Quietly S g ss (node hd kids) fun out _ => ∃ s, out = .node { hd with site := s } kids :=
  fun _ _ hw _ => ⟨hw.frame rfl rfl rfl rfl rfl, _, rfl⟩

theorem quietly_symNode (x : SymRef) (span : Span) : Quietly S g ss (symNode x span) fun out _ =>
    ∃ hd, out = named hd x ∧ hd.type = (ss.get x).type := by
  refine .get_bind fun c st _ hs => .pure_bind ((quietly_node _ _).mono fun out _ _ ⟨s, hout⟩ => ?_)
  exact ⟨{ type := (st.ops.symbols.get x).type, span := span.orElse (st.ops.symbols.get x).span
           site := s }, hout, by rw [hs]⟩

theorem quietly_copy (hd : Head) (x : SymRef) :
    Quietly S g ss (copy (named hd x)) fun out _ => ∃ s, out = named { hd with site := s } x :=
  fun _ _ hw _ => ⟨hw.frame rfl rfl rfl rfl rfl, _, rfl⟩

theorem quietly_call (op : SymRef) (t : TypeId) (span : Span) (args : List Node) :
    Quietly S g ss (call op t span args) fun out _ => ∃ hd cd, hd.kind = .call ∧
      cd.type = (ss.get op).type ∧ out = .node hd (named cd op :: args) := by
  refine .bind (quietly_symNode op span) fun a _ _ ⟨cd, ha, hc⟩ => ?_
  subst ha
  exact (quietly_node _ _).mono fun out _ _ ⟨s, hout⟩ => ⟨_, cd, rfl, hc, hout⟩

theorem quietly_fastAsgn (hn : Does S ss n f) :
    Quietly S g ss (fastAsgn (named v x) n) fun out ss => Performs S ss out (stored x f) := by
  refine (quietly_node _ _).mono fun out _ hs ⟨s, hout⟩ => ?_
  subst hout
  exact performs_store rfl (hn.mono hs)

theorem quietly_seq (hk : hd.kind = .stmtList) (hks : List.Forall₂ (Performs S ss) ks fs) :
    Quietly S g ss (node hd ks) fun out ss => Performs S ss out (runAll fs) := by
  refine (quietly_node hd ks).mono fun out _ hs ⟨s, hout⟩ => ?_
  subst hout
  exact (performs_seq (.inl hk) hks).mono hs

theorem quietly_list (hk : hd.kind = .stmtListExpr) (hks : List.Forall₂ (Performs S ss) front fs)
    (hn : Does S ss n f) (he : ks = front ++ [n]) :
    Quietly S g ss (node hd ks) fun out ss => Does S ss out fun m => f (runAll fs m) := by
  refine (quietly_node hd ks).mono fun out _ hs ⟨s, hout⟩ => ?_
  subst hout he
  exact (does_list hk hks hn).mono hs

theorem quietly_decision (name : Text) (hd : Head) (x : SymRef) :
    Quietly S g ss (decision name (named hd x)) fun _ _ => True := by
  intro c st hw _
  unfold decision
  simp only [ends_bind, ends_ite]
  exact ⟨fun _ => ⟨hw.frame rfl rfl rfl rfl rfl, trivial⟩, fun _ => ⟨hw.quiet, trivial⟩⟩

/-! ## Operations -/

variable {h v d : Head} {x y t : SymRef} {n : Node} {f : Ledger → Val × Ledger} {decl : Bool}

theorem quietly_magic (m : Magic) (type : TypeId) (span : Span) (args : List Node) :
    Quietly S g ss (magic m type span args) fun out ss => ∃ hd cd op, hd.kind = .call ∧
    cd.type = 0 ∧
      out = .node hd (named cd op :: args) ∧ op < ss.all.size ∧ (ss.get op).Made m.text m := by
  refine .bind (P := fun op ss => op < ss.all.size ∧ (ss.get op).Made m.text m)
    (quietly_ops fun s hs _ => OpM.ends_magic_made hs m) fun op ss1 _ ⟨hop, hmade⟩ => ?_
  refine (quietly_call op type span args).mono fun out ss2 hs ⟨hd, cd, hk, hc, hout⟩ => ?_
  refine ⟨hd, cd, op, hk, hc.trans hmade.type, hout, Nat.lt_of_lt_of_le hop hs.size_le, ?_⟩
  rwa [hs.get_eq hop]

theorem quietly_reset (h : Head) (x : SymRef) :
    Quietly S g ss (reset (named h x)) fun out ss => Performs S ss out (·.put x .empty) := by
  refine .lift_bind rfl (.lift_bind rfl (.bind (quietly_copy h x) fun a _ _ ⟨s, ha⟩ => ?_))
  subst ha
  refine (quietly_magic .wasMoved 0 _ _).mono fun out ss2 _ hout => ?_
  obtain ⟨hd, cd, op, hk, -, rfl, hop, hmade⟩ := hout
  exact performs_reset hk hop hmade.role_reset

theorem quietly_destroy (ht : S.types.isText h.type = true) :
    Quietly S g ss (destroy (named h x)) fun out ss => out.isKind .empty = false ∧
      Performs S ss out (·.destroy x) := by
  refine .bind (.lift_bind rfl (.bind (quietly_resolve ht .destroy) fun r ss1 _ hr => ?_))
    (P := fun o ss => ∃ out, o = some out ∧ out.isKind .empty = false ∧
      Performs S ss out (·.destroy x)) fun o _ _ ⟨out, ho, hout⟩ => ?_
  · obtain ⟨op, rfl, hop, hmade⟩ := hr
    refine .bind (quietly_copy h x) fun a ss2 hs2 ⟨s, ha⟩ => ?_
    subst ha
    have hop2 := Nat.lt_of_lt_of_le hop hs2.size_le
    rw [← hs2.get_eq hop] at hmade
    refine .bind (quietly_call op 0 _ _) fun out ss3 hs3 ⟨hd, cd, hk, _, hout⟩ => ?_
    subst hout
    refine .pure ⟨_, rfl, ?_, ?_⟩
    · simp [hk]
    · exact (performs_destroy hk hop2 hmade.role_destroy).mono hs3
  · subst ho
    exact .pure hout

/-! ## Which variables can be taken over -/

structure Owned (S : Setting) (x : SymRef) : Prop where
  known : x < S.symbols.all.size
  kind : (S.symbols.get x).kind = .varLocal ∨
    (S.symbols.get x).kind = .param ∧ (S.symbols.get x).has .sink = true
  owner : (S.symbols.get x).owner = S.routine.sym
  isOrdinary : (S.symbols.get x).isOrdinary = true

theorem Owned.of (hx : S.isLocal x = true ∨ S.isTaken x = true) : Owned S x := by
  rcases hx with hx | hx
  · simp only [Setting.isLocal, Setting.isKnown, Bool.and_eq_true, decide_eq_true_eq] at hx
    exact ⟨hx.1.1.1.1, .inl hx.1.1.1.2, hx.1.1.2, hx.2⟩
  · simp only [Setting.isTaken, Setting.isKnown, Bool.and_eq_true, decide_eq_true_eq] at hx
    exact ⟨hx.1.1.1.1.1.1, .inr ⟨hx.1.1.1.1.1.2, hx.1.1.1.1.2⟩, hx.1.1.1.2, hx.1.2⟩

structure Lent (S : Setting) (x : SymRef) : Prop where
  known : x < S.symbols.all.size
  kind : (S.symbols.get x).kind = .global ∨
    (S.symbols.get x).kind = .param ∧ (S.symbols.get x).has .sink = false

theorem Lent.of (hx : S.isForeign x = true) (ht : S.isTextVar x = true) : Lent S x := by
  simp only [Setting.isForeign, Setting.isKnown, ht, Bool.true_or, Bool.and_true, Bool.and_eq_true,
    Bool.or_eq_true, decide_eq_true_eq, Bool.not_eq_true'] at hx
  exact ⟨hx.1, hx.2⟩

theorem isOrdinary_iff {s : Symbol} : s.isOrdinary = true ↔ s.has .cursor = false ∧
    s.has .threadVar = false ∧ s.has .noInit = false ∧ s.has .compileTime = false ∧
    s.has .singleUsedTemp = false := by
  simp [Symbol.isOrdinary, and_assoc]

theorem quietly_isSinkParam (hx : x < S.symbols.all.size) :
    Quietly S g ss (isSinkParam (named h x)) fun b _ =>
      b = ((S.symbols.get x).kind = .param && (S.symbols.get x).has .sink) := by
  intro c st hw _
  rw [← hw.known.get_eq hx]
  exact ⟨hw.quiet, rfl⟩

theorem quietly_isCursor (hx : x < S.symbols.all.size) :
    Quietly S g ss (isCursor (named h x)) fun b _ => b = (S.symbols.get x).has .cursor := by
  intro c st hw _
  rw [← hw.known.get_eq hx]
  exact ⟨hw.quiet, rfl⟩

theorem quietly_isOwnPlace :
    (Owned S x → Quietly S g ss (isOwnPlace (named h x)) fun b _ => b = true) ∧
    (Lent S x → Quietly S g ss (isOwnPlace (named h x)) fun b _ => b = false) := by
  have key : ∀ b, (S.symbols.Within ss → (named h x).isOwnPlace ss S.routine.sym = .ok b) →
      Quietly S g ss (isOwnPlace (named h x)) fun b' _ => b' = b := by
    refine fun b hb => .of_known fun hk => .symbols_bind (.owner_bind ?_)
    rw [hb hk]
    exact .pure rfl
  refine ⟨fun hx => key true fun hk => ?_, fun hx => key false fun hk => ?_⟩
  · obtain ⟨hcur, hthread, -⟩ := isOrdinary_iff.1 hx.isOrdinary
    simp only [named, Node.isOwnPlace, Node.staysWithin, hk.get_eq hx.known, hx.owner, hthread,
      hcur]
    rcases hx.kind with hk | ⟨hk, hs⟩
    · simp [hk]
    · simp [hk, hs]
  · simp only [named, Node.isOwnPlace, Node.staysWithin, hk.get_eq hx.known]
    rcases hx.kind with hk | ⟨hk, hs⟩
    · simp [hk]
    · simp [hk, hs]

theorem quietly_isFirstWrite :
    Quietly S g ss (isFirstWrite (named v x)) fun b _ => b = true → FirstWrite g v x := by
  refine .get_bind fun c st hw _ => ?_
  have hsome : ∃ b, st.oracle.isFirstWrite (named v x) = .ok b := by
    simp only [Oracle.isFirstWrite, bind_eq_ok]
    rw [exists_comm]
    refine ⟨named v x, exists_and_left.2 ⟨rfl, ?_⟩⟩
    split
    · exact ⟨_, rfl⟩
    · split <;> exact ⟨_, rfl⟩
  obtain ⟨b, hb⟩ := hsome
  rw [hb]
  refine .pure ?_
  rintro rfl
  have hg := hw.plain
  rw [← hw.graph] at hg ⊢
  exact Oracle.not_touched_of_isFirstWrite hg isSym_named hb

theorem isLastRead_total (o : Oracle) (h : Head) (x : SymRef) :
    ∃ b o', o.isLastRead (named h x) = .ok (b, o') ∧ o'.graph = o.graph := by
  rcases hpc : o.graph.find? (named h x) with _ | pc
  · exact ⟨false, o, bind_eq_ok.2 ⟨named h x, rfl, by simp only [hpc]; rfl⟩, rfl⟩
  · rcases he : o.graph.scanLastRead (named h x) (pc + 1) with e | w | _
    · exact ⟨true, { o with otherRead := none }, bind_eq_ok.2
        ⟨named h x, rfl, by simp only [hpc, he]; rfl⟩, rfl⟩
    · exact ⟨false, { o with otherRead := some w }, bind_eq_ok.2
        ⟨named h x, rfl, by simp only [hpc, he]; rfl⟩, rfl⟩
    · exact ⟨false, { o with otherRead := none }, bind_eq_ok.2
        ⟨named h x, rfl, by simp only [hpc, he]; rfl⟩, rfl⟩

theorem quietly_forget :
    Quietly S g ss (modify fun s => { s with otherRead := none } : InjectM PUnit) fun _ _ => True :=
  fun _ _ hw _ => ⟨hw.frame rfl rfl rfl rfl rfl, trivial⟩

theorem quietly_isLastRead (ht : S.types.isText h.type = true) (hx : Owned S x) :
    Quietly S g ss (isLastRead (named h x)) fun b _ => b = true → LastRead g h x := by
  refine .bind quietly_forget fun _ _ _ _ => .lift_bind rfl ?_
  refine .bind (quietly_isOwning (.inl ht)) fun b ss' _ hb => .of_known fun hk => ?_
  rw [if_neg (by simp [hb, ht])]
  have hsingle : ss'.has (some x) .singleUsedTemp = false := by
    change (ss'.get x).has .singleUsedTemp = false
    rw [hk.get_eq hx.known]
    exact (isOrdinary_iff.1 hx.isOrdinary).2.2.2.2
  refine .lift_bind rfl (.lift_bind rfl (.symbols_bind ?_))
  rw [if_neg (by simp [hsingle])]
  refine .get_bind fun c st hw _ => ?_
  obtain ⟨last, o', ho, hgraph⟩ := isLastRead_total st.oracle h x
  have hasked : Quietly S g ss' (modify fun s =>
      { s with oracle := o', otherRead := if last then none else o'.otherRead } : InjectM PUnit)
      fun _ _ => True := fun _ _ hw' _ =>
    ⟨hw'.frame rfl (hgraph.trans (hw.graph.trans hw'.graph.symm)) rfl rfl rfl, trivial⟩
  refine .lift_bind ho (.bind hasked fun _ _ _ _ => .pure ?_)
  rintro rfl
  have hg := hw.plain
  rw [← hw.graph] at hg ⊢
  exact Oracle.not_awaits_of_isLastRead hg isSym_named ho

theorem symbolOf_named (hs : S.symbols.Within ss) (hx : x < S.symbols.all.size) :
    Node.symbolOf ss { h with kind := .sym, sym := some x } = .ok (S.symbols.get x) := by
  rw [← hs.get_eq hx]
  rfl

theorem quietly_canMoveName (ht : S.types.isText h.type = true) (hd : S.types.isText d.type = true)
    (hx : Owned S x ∨ Lent S x) :
    Quietly S g ss (canMoveName (named h x) { h with kind := .sym, sym := some x } d.type)
      fun b _ => b = true → Owned S x ∧ LastRead g h x := by
  have hknown : x < S.symbols.all.size := hx.elim Owned.known Lent.known
  refine .of_known fun hk => .symbols_bind (.lift_bind (symbolOf_named hk hknown) (.owner_bind ?_))
  split_ifs with hparam
  · exact .pure (by simp)
  have hown : Owned S x := by
    refine hx.resolve_right fun hl => hparam ?_
    rcases hl.kind with hk | ⟨hk, -⟩
    · simp [hk, Symbol.isLocal, SymKind.isStorage]
    · simp [hk]
  refine .bind (quietly_isCursor hknown) fun b _ _ _ => ?_
  split_ifs
  · exact .pure (by simp)
  refine .bind (quietly_isLastRead ht hown) fun b _ _ hb => ?_
  split_ifs with hlast
  · exact (quietly_canMove hd).mono fun _ _ _ _ _ => ⟨hown, hb hlast⟩
  · exact .pure (by simp)

theorem quietly_canTakeOver (ht : S.types.isText h.type = true) (hx : Owned S x ∨ Lent S x) :
    Quietly S g ss (canTakeOver (named h x)) fun b _ => b = true → Owned S x ∧ LastRead g h x := by
  have hknown : x < S.symbols.all.size := hx.elim Owned.known Lent.known
  have hrest : Owned S x → ∀ {ss}, Quietly S g ss (do
      if ← isCursor (named h x) then return false
      isLastRead (named h x)) fun b _ => b = true → Owned S x ∧ LastRead g h x := by
    intro hown ss
    refine .bind (quietly_isCursor hknown) fun b _ _ _ => ?_
    split_ifs
    · exact .pure (by simp)
    · exact (quietly_isLastRead ht hown).mono fun b _ _ hb hlast => ⟨hown, hb hlast⟩
  refine .bind (quietly_isSinkParam hknown) fun b _ _ hb => ?_
  rcases hx with hx | hx
  · split_ifs
    · refine .bind (quietly_isOwnPlace.1 hx) fun b _ _ hb => ?_
      rw [hb]
      exact hrest hx
    · exact hrest hx
  · rw [if_pos]
    · refine .bind (quietly_isOwnPlace.2 hx) fun b _ _ hb => ?_
      rw [hb]
      exact .pure (by simp)
    · rw [hb]
      rcases hx.kind with hk | ⟨hk, hs⟩
      · simp [hk]
      · simp [hs]

/-! ## Stores -/

theorem kind_of_isLocal (hx : S.isLocal x = true) : (S.symbols.get x).kind = .varLocal := by
  simp only [Setting.isLocal, Bool.and_eq_true, decide_eq_true_eq] at hx
  exact hx.1.1.1.2

theorem quietly_isFresh (hd : decl = true ∨ S.isLocal x = true) :
    Quietly S g ss (isFresh (named v x) decl) fun b _ =>
      (b = true → decl = true ∨ FirstWrite g v x) ∧ (decl = true → b = true) := by
  unfold isFresh
  split_ifs with hdecl
  · exact .pure ⟨fun _ => .inl hdecl, fun _ => rfl⟩
  have hl := hd.resolve_left hdecl
  have hx : Owned S x := Owned.of (.inl hl)
  have htuple : Quietly S g ss (isUnpackedTuple (named v x)) fun b _ => b = false := by
    refine .of_known fun hk => .lift_bind rfl
      (.symbols_bind (.lift_bind (symbolOf_named hk hx.known)
      (.shapeOf_bind (.pure ?_))))
    simp [kind_of_isLocal hl]
  refine .bind htuple fun b _ _ hb => ?_
  rw [if_neg (by simp [hb])]
  refine .bind (quietly_isOwnPlace.1 hx) fun b _ _ hb => ?_
  rw [if_pos hb]
  exact quietly_isFirstWrite.mono fun b _ _ hb => ⟨fun h => .inr (hb h), fun h => absurd h hdecl⟩

theorem quietly_storesPlainly (hd : decl = true ∨ S.isLocal x = true) :
    Quietly S g ss (storesPlainly (named v x) decl) fun b _ =>
      (b = true → decl = true ∨ FirstWrite g v x) ∧ (decl = true → b = true) := by
  refine .bind (quietly_isFresh hd) fun b ss' _ hb => .get_bind fun c st hw hs => ?_
  split_ifs with hfresh
  · simp only [hw.conditions] at hfresh
    exact .pure ⟨fun _ => hb.1 hfresh, fun _ => rfl⟩
  have hdecl : ¬ decl = true := fun h => hfresh (by simp [hw.conditions, hb.2 h])
  have hx : Owned S x := Owned.of (.inl (hd.resolve_left hdecl))
  have hno : (named v x).isNoInit ss' = .ok false := by
    change Except.ok ((ss'.get x).has .noInit) = _
    rw [← hs, hw.known.get_eq hx.known, (isOrdinary_iff.1 hx.isOrdinary).2.2.1]
  refine .symbols_bind ?_
  rw [hno]
  exact .pure ⟨by simp, fun h => absurd h hdecl⟩

/-- A store either goes into a variable that holds no value, or destroys the old one first. -/
theorem quietly_sink (hn : Does S ss n f) (ht : S.types.isText v.type = true)
    (hd : decl = true ∨ S.isLocal x = true) :
    Quietly S g ss (sink (named v x) n decl) fun out ss =>
      (Performs S ss out (stored x f) ∧ (decl = true ∨ FirstWrite g v x)) ∨
      decl = false ∧ Performs S ss out fun m => stored x f (m.destroy x) := by
  refine .bind (quietly_storesPlainly hd) fun b ss1 hs1 ⟨hb, hdecl⟩ => ?_
  split_ifs with hplain
  · refine .bind (quietly_decision _ v x) fun _ ss2 hs2 _ => ?_
    exact (quietly_fastAsgn (hn.mono (hs1.trans hs2))).mono fun out _ _ hout =>
      .inl ⟨hout, hb hplain⟩
  have hnone : Quietly S g ss1 (ownSink? (named v x) n) fun o _ => o = none := by
    refine .lift_bind rfl (.get_bind fun c st hw _ => .read_bind fun c hc => ?_)
    rw [hc, hw.natural.isUserDefined, if_neg (by simp)]
    exact .pure rfl
  refine .bind hnone fun o ss2 hs2 ho => ?_
  subst ho
  refine .bind (quietly_decision _ v x) fun _ ss3 hs3 _ => ?_
  refine .bind (quietly_destroy ht) fun old ss4 hs4 ⟨_, hold⟩ => .lift_bind rfl ?_
  have hn4 := hn.mono (((hs1.trans hs2).trans hs3).trans hs4)
  refine .bind (quietly_fastAsgn hn4) fun new ss5 hs5 hnew => ?_
  refine (quietly_seq rfl (.cons (hold.mono hs5) (.cons hnew .nil))).mono
    fun out _ _ hout => .inr ⟨?_, hout⟩
  rw [Bool.eq_false_iff]
  exact fun h => hplain (hdecl h)

theorem quietly_copyInto (hn : Does S ss n f) (ht : S.types.isText v.type = true) :
    Quietly S g ss (copyInto (named v x) n (named h y)) fun out ss =>
      Performs S ss out fun m => (f m).2.copyTo x := by
  refine .bind (quietly_decision _ h y) fun _ ss1 hs1 _ => .lift_bind rfl ?_
  refine .bind (quietly_resolve ht .copy) fun r ss2 hs2 ⟨op, hr, hop, hmade⟩ => ?_
  subst hr
  refine .bind (quietly_copy v x) fun a ss3 hs3 ⟨s, ha⟩ => ?_
  subst ha
  refine (quietly_call op 0 _ _).mono fun out ss4 hs4 ⟨hd, cd, hk, _, hout⟩ => ?_
  subst hout
  have hs := hs3.trans hs4
  refine performs_copy hk (Nat.lt_of_lt_of_le hop hs.size_le) ?_ ?_
  · rw [hs.get_eq hop]
    exact hmade.role_copy
  · exact hn.mono ((hs1.trans hs2).trans hs)

theorem quietly_sinkAndReset (ht : S.types.isText v.type = true)
    (hd : decl = true ∨ S.isLocal x = true) :
    Quietly S g ss (sinkAndReset (named v x) (named h y) decl) fun out ss =>
      (Performs S ss out (fun m => (stored x (·.read y) m).put y .empty) ∧
        (decl = true ∨ FirstWrite g v x)) ∨ decl = false ∧
        Performs S ss out fun m => (stored x (·.read y) (m.destroy x)).put y .empty := by
  refine .bind (quietly_sink does_named ht hd) fun moved ss1 _ hmoved => .lift_bind rfl ?_
  refine .bind (quietly_reset h y) fun cleared ss2 hs2 hcleared => ?_
  rcases hmoved with ⟨hmoved, hfirst⟩ | ⟨hdecl, hmoved⟩
  · exact (quietly_seq rfl (.cons (hmoved.mono hs2) (.cons hcleared .nil))).mono
      fun _ _ _ hout => .inl ⟨hout, hfirst⟩
  · exact (quietly_seq rfl (.cons (hmoved.mono hs2) (.cons hcleared .nil))).mono
      fun _ _ _ hout => .inr ⟨hdecl, hout⟩

end Quietly

end Fragment

end Lifecycle
