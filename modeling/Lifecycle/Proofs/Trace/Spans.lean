import Mathlib.Algebra.Group.Nat.Defs
import Mathlib.Data.List.Induction
import Lifecycle.Proofs.Injection.Moves
import Lifecycle.Proofs.CompUnit.Workable

/-!
# Spans inside spans

The events of a run say which spans are open at each moment. They are well bracketed when each span
ends before the one around it does. A routine that breaks off leaves the span it was in open, while
the span around it is ended: so where single routines are traced the events of a run are well
bracketed just when no routine broke off, and where they are not the events always are.
-/

namespace Lifecycle

namespace TraceEvent

/-- The spans that stay open when a span is ended, if it is the innermost one. -/
def close (span parent : UInt64) : List UInt64 → Option (List UInt64)
  | [] => none
  | s :: outer => if s = span ∧ (parent = 0 ∨ parent ∈ outer) then some outer else none

/-- The spans open after an event, the innermost first. There are none to tell if the event ends a
span that is not the innermost one, or belongs to one that is not open. -/
def nest (spans : List UInt64) (e : TraceEvent) : Option (List UInt64) :=
  if e.kind = .spanEnd then close e.span e.parent spans
  else if e.parent = 0 ∨ e.parent ∈ spans then
    some (if e.kind = .spanBegin then e.span :: spans else spans)
  else none

def begun (es : List TraceEvent) : List UInt64 :=
  (es.filter fun e => e.kind = .spanBegin).map (·.span)

/-- No number is that of two spans, and the spans lie inside each other. -/
def WellBracketed (es : List TraceEvent) : Prop :=
  (begun es).Nodup ∧ es.foldlM nest [] = some []
deriving Decidable

theorem begun_append (es es' : List TraceEvent) : begun (es ++ es') = begun es ++ begun es' := by
  simp [begun]

/-- The open spans are some of those that began, the last one first. -/
theorem sublist_begun {es : List TraceEvent} : ∀ {ss : List UInt64}, es.foldlM nest [] = some ss →
    ss.Sublist (begun es).reverse := by
  induction es using List.reverseRecOn with
  | nil =>
    intro ss h
    cases h
    exact .slnil
  | append_singleton es e ih =>
    intro ss h
    rw [List.foldlM_append] at h
    obtain ⟨ss', hss', h⟩ := Option.bind_eq_some_iff.1 h
    have ih := ih hss'
    rw [List.foldlM_cons] at h
    obtain ⟨ss1, h, h1⟩ := Option.bind_eq_some_iff.1 h
    cases h1
    rw [begun_append, List.reverse_append]
    unfold nest at h
    split_ifs at h with he hp hb
    · cases ss' with
      | nil => cases h
      | cons s outer =>
        rw [close] at h
        split_ifs at h
        cases h
        exact ((List.sublist_cons_self _ _).trans ih).trans (List.sublist_append_right _ _)
    · cases h
      rw [show begun [e] = [e.span] by simp [begun, hb]]
      exact ih.cons_cons _
    · cases h
      exact ih.trans (List.sublist_append_right _ _)

end TraceEvent

namespace TraceLog

open TraceEvent

/-- The spans have the numbers from one on. -/
def Numbered (l : TraceLog) : Prop :=
  ∃ n, l.spans = .ofNat n ∧ begun l.events = (List.range n).map fun i => .ofNat (i + 1)

variable {l l' : TraceLog} {level : TraceLevel} {scope : TraceScope} {name detail : Text}
  {a parent : UInt64} {s : TraceSpan} {e : TraceEvent} {o : Option (List UInt64)} {ss : List UInt64}

theorem Numbered.distinct (h : l.Numbered) (hl : l.events.length < 2 ^ 64) :
    (begun l.events).Nodup ∧ 0 ∉ begun l.events := by
  obtain ⟨n, -, hb⟩ := h
  have hn : n ≤ l.events.length := by
    have hlen := congrArg List.length hb
    have hle := List.length_filter_le (fun e : TraceEvent => e.kind = .spanBegin) l.events
    simp only [begun, List.length_map, List.length_range] at hlen
    omega
  have hval : ∀ i ∈ List.range n, (UInt64.ofNat (i + 1)).toNat = i + 1 := by
    intro i hi
    rw [UInt64.toNat_ofNat']
    exact Nat.mod_eq_of_lt (by have := List.mem_range.1 hi; omega)
  rw [hb]
  constructor
  · refine List.Nodup.map_on (fun i hi j hj hij => ?_) List.nodup_range
    have := congrArg UInt64.toNat hij
    rw [hval i hi, hval j hj] at this
    omega
  · intro hz
    obtain ⟨i, hi, hz⟩ := List.mem_map.1 hz
    have := hval i hi
    rw [hz] at this
    cases this

/-- The log of a level, with the open spans of its events as far as there are any to tell. A log
that holds more events than there are numbers is left open. -/
structure Nested (level : TraceLevel) (l : TraceLog) (o : Option (List UInt64)) : Prop where
  level : l.level = level
  numbered : l.Numbered
  spans : l.events.length < 2 ^ 64 → l.events.foldlM nest [] = o

/-- The innermost span is a new one, if the level admits it. -/
def opened (level : TraceLevel) (scope : TraceScope) (s : TraceSpan) (ss : List UInt64) :
    List UInt64 :=
  if level.admits scope then s.id :: ss else ss

/-- The span is none or one of those that are open, if there are any to tell. -/
def Amid (span : UInt64) (o : Option (List UInt64)) : Prop :=
  ∀ ss, o = some ss → span = 0 ∨ span ∈ ss

/-- The span began while the spans `o` were open, if the level admits it. -/
structure Began (level : TraceLevel) (scope : TraceScope) (o : Option (List UInt64))
    (s : TraceSpan) : Prop where
  id : level.admits scope = false → s.id = 0
  parent : Amid s.parent o

theorem nested_nil (level : TraceLevel) : Nested level { level } (some []) :=
  ⟨rfl, ⟨0, rfl, rfl⟩, fun _ => rfl⟩

theorem Began.note (h : Began level scope o s) (key value : Text) :
    Began level scope o (s.note key value) := by
  unfold TraceSpan.note
  split_ifs
  · exact h
  · exact ⟨h.id, h.parent⟩

@[simp] theorem note_id (key value : Text) : (s.note key value).id = s.id := by
  unfold TraceSpan.note
  split_ifs <;> rfl

@[simp] theorem opened_note (key value : Text) :
    opened level scope (s.note key value) = opened level scope s := by
  funext ss
  rw [opened, note_id, opened]

namespace Nested

theorem distinct (h : Nested level l (some ss)) (hl : l.events.length < 2 ^ 64) :
    ss.Nodup ∧ 0 ∉ ss := by
  obtain ⟨hd, hz⟩ := h.numbered.distinct hl
  have hsub := sublist_begun (h.spans hl)
  exact ⟨(List.nodup_reverse.2 hd).sublist hsub, fun h0 => hz (List.mem_reverse.1 (hsub.subset h0))⟩

theorem append {o' : Option (List UInt64)} (h : Nested level l o) (hl : l'.level = l.level)
    (hn : l'.Numbered) (he : l'.events = l.events ++ [e])
    (ho : l.events.length < 2 ^ 64 → o.bind (nest · e) = o') : Nested level l' o' := by
  refine ⟨hl.trans h.level, hn, fun hlen => ?_⟩
  rw [he, List.length_append] at hlen
  rw [he, List.foldlM_append, h.spans (by omega), ← ho (by omega)]
  cases o with
  | none => rfl
  | some ss => simp

theorem emit {o' : Option (List UInt64)} (h : Nested level l o) (hk : e.kind ≠ .spanBegin)
    (ho : l.events.length < 2 ^ 64 → o.bind (nest · e) = o') : Nested level (l.emit e) o' := by
  obtain ⟨n, hn, hb⟩ := h.numbered
  refine h.append rfl ⟨n, hn, ?_⟩ rfl ho
  rw [TraceLog.emit, begun_append, hb]
  simp [begun, hk]

theorem point (h : Nested level l o) (hp : Amid parent o) :
    Nested level (l.point scope name parent detail) o := by
  unfold TraceLog.point
  split_ifs
  · refine h.emit (show EventKind.point ≠ _ by decide) fun _ => ?_
    rcases o with _ | ss
    · rfl
    · exact if_pos (hp ss rfl)
  · exact h

theorem begin (h : Nested level l o) (hp : Amid parent o)
    (hb : l.begin scope name parent = (s, l')) :
    Nested level l' (o.map (opened level scope s)) ∧ Began level scope o s := by
  unfold TraceLog.begin at hb
  rw [h.level] at hb
  split_ifs at hb with ha <;> cases hb
  · refine ⟨h.append h.level.symm ?_ rfl fun _ => ?_, fun hf => ?_, hp⟩
    · obtain ⟨n, hn, hb⟩ := h.numbered
      refine ⟨n + 1, by simp [TraceLog.emit, hn, UInt64.ofNat_add], ?_⟩
      rw [TraceLog.emit, begun_append, hb, List.range_succ, List.map_append]
      simp [begun, hn, UInt64.ofNat_add]
    · rcases o with _ | ss
      · rfl
      · have hkind : EventKind.spanBegin ≠ .spanEnd := by decide
        simp [nest, opened, ha, hp ss rfl, hkind]
    · rw [ha] at hf
      cases hf
  · have hsame : o.map (opened level scope {}) = o := by rcases o <;> simp [opened, ha]
    exact ⟨hsame.symm ▸ h, fun _ => rfl, fun _ _ => .inl rfl⟩

/-- A span that is open is ended. -/
theorem close {o' : Option (List UInt64)} (h : Nested level l o)
    (hs : ∀ ss, o = some ss → s.id ∈ ss)
    (ho : (∀ ss, o = some ss → ss.Nodup) → o.bind (TraceEvent.close s.id s.parent) = o') :
    Nested level (l.finish s detail) o' := by
  unfold TraceLog.finish
  split_ifs with hz
  · refine ⟨h.level, h.numbered, fun hlen => ?_⟩
    rcases o with _ | ss
    · exact (h.spans hlen).trans (ho nofun)
    · exact absurd (hz ▸ hs ss rfl) (h.distinct hlen).2
  · refine h.emit (show EventKind.spanEnd ≠ _ by decide) fun hlen => ho ?_
    rintro ss rfl
    exact (h.distinct hlen).1

theorem finish (h : Nested level l (o.map (opened level scope s))) (hs : Began level scope o s) :
    Nested level (l.finish s detail) o := by
  by_cases ha : level.admits scope = true
  · rcases o with _ | ss
    · exact h.close nofun fun _ => rfl
    · refine h.close (by simp [opened, ha]) fun _ => ?_
      simp [opened, ha, TraceEvent.close, hs.parent ss rfl]
  · have hsame : o.map (opened level scope s) = o := by rcases o <;> simp [opened, ha]
    rw [TraceLog.finish, if_pos (hs.id (by simpa using ha))]
    exact hsame ▸ h

/-- A span is ended while one inside it is open. -/
theorem torn (h : Nested level l (o.map fun ss => a :: opened level scope s ss))
    (ha : level.admits scope = true) : Nested level (l.finish s detail) none := by
  rcases o with _ | ss
  · exact h.close nofun fun _ => rfl
  · refine h.close (by simp [opened, ha]) fun hd => if_neg fun hc => ?_
    have hd := hd _ rfl
    simp only [opened, ha, if_true, List.nodup_cons, List.mem_cons, not_or] at hd
    exact hd.1.1 hc.1

end Nested

theorem Began.amid (h : Began level scope o s) : Amid s.id (o.map (opened level scope s)) := by
  intro ss hss
  obtain ⟨ss', -, rfl⟩ := Option.map_eq_some_iff.1 hss
  by_cases ha : level.admits scope = true
  · exact .inr (by simp [opened, ha])
  · exact .inl (h.id (by simpa using ha))

/-- Work on a body adds points only, all of the span it is done in. -/
theorem Nested.onward {c : InjectContext} {A : Node → Prop} {st st' : InjectState}
    (h : Nested level st.trace o) (hc : Amid c.span o) (hm : st.Onward c A st') :
    Nested level st'.trace o := by
  induction hm with
  | refl => exact h
  | tail _ hm ih =>
    cases hm with
    | quiet _ _ _ ht => exact ht ▸ ih
    | traced => exact ih.point hc
    | forgot | asked | reported => exact ih

end TraceLog

/-- The work on the routine was broken off by a failure. -/
def Injected.brokeOff (i : Injected) : Bool :=
  match i.error with
  | some (.inside _ _) => true
  | _ => false

theorem TraceLevel.admits_pass {level : TraceLevel} (h : level.admits .routine = true) :
    level.admits .pass = true := by
  cases level <;> first | exact h | rfl

namespace Routine

open TraceLog

variable {r : Routine} {env : InjectEnv} {sh : Shared} {level : TraceLevel} {span : UInt64}
  {o : Option (List UInt64)} {i : Injected}

theorem failure_brokeOff {f : InjectFailure} {graph : Option Graph} {reports : List Diagnostic}
    (h : r.failure f graph reports sh = .ok i) : i.brokeOff = true := by
  obtain ⟨d, -, h⟩ := bind_eq_ok.1 h
  rw [← pure_eq_ok.1 h]
  rfl

/-- The span inside a routine that was broken off stays open. -/
theorem work_nested (h : Nested level sh.trace o) (hp : Amid span o)
    (hi : (r.work env span sh).1 = .ok i) : ∃ s, Nested level (r.work env span sh).2.trace
      (o.map (if i.brokeOff then opened level .routine s else id)) := by
  unfold work at hi ⊢
  rcases hc : sh.trace.begin .routine "cfg" span with ⟨cfg, l1⟩
  rw [hc] at hi
  obtain ⟨h1, hcfg⟩ := h.begin hp hc
  rcases hg : r.graph sh.ops.symbols env.types with e | g
  · simp only [hg] at hi ⊢
    exact ⟨cfg, by rw [failure_brokeOff hi]; exact h1⟩
  · have h2 : Nested level (l1.finish (cfg.note "instrs" (Text.ofNat g.size)) "") o :=
      Nested.finish (by rw [opened_note]; exact h1) (hcfg.note _ _)
    simp only [hg] at hi ⊢
    rcases hw : (l1.finish (cfg.note "instrs" (Text.ofNat g.size)) "").begin .routine "rewrite" span
      with ⟨changing, l3⟩
    rw [hw] at hi
    obtain ⟨h3, hchanging⟩ := h2.begin hp hw
    let c : InjectContext :=
      { types := env.types, routine := r, options := env.options, span := changing.id }
    let st : InjectState := { sh with trace := l3, oracle := { graph := g } }
    have hmoves := (InjectM.moves_body (c := c)).leads st
    dsimp only at hi ⊢
    split at hi
    · rename_i f st' hout
      rw [show InjectM.body c st = .error f st' from hout] at hmoves
      exact ⟨changing, by rw [failure_brokeOff hi]; exact h3.onward hchanging.amid hmoves⟩
    · rename_i out st' hout
      rw [show InjectM.body c st = .ok out st' from hout] at hmoves
      cases hi
      refine ⟨changing, ?_⟩
      have h4 : Nested level (st'.trace.finish changing "") o :=
        (h3.onward hchanging.amid hmoves).finish hchanging
      simpa [Injected.brokeOff] using h4

/-- A routine leaves the open spans as they were, unless it was broken off where routines are
traced. -/
theorem inject_nested (h : Nested level sh.trace o) (hp : Amid env.parent o)
    (hi : (r.inject env sh).1 = .ok i) : Nested level (r.inject env sh).2.trace
      (if i.brokeOff && level.admits .routine then none else o) := by
  unfold inject at hi ⊢
  by_cases hb : r.body.isHole = true
  · rw [if_pos hb] at hi ⊢
    cases hi
    exact h
  by_cases hs : sh.ops.symbols.has r.sym .generated = true
  · rw [if_neg hb, if_pos hs] at hi ⊢
    cases hi
    exact h
  rw [if_neg hb, if_neg hs] at hi ⊢
  rcases hbegin : sh.trace.begin .pass "destructors" env.parent with ⟨s, l1⟩
  rw [hbegin] at hi
  obtain ⟨h1, hs⟩ := h.begin hp hbegin
  dsimp only at hi ⊢
  have hs := hs.note "routine" (r.name sh.ops.symbols)
  rw [← opened_note "routine" (r.name sh.ops.symbols)] at h1
  generalize s.note "routine" (r.name sh.ops.symbols) = s at *
  obtain ⟨s', h2⟩ := @work_nested r env { sh with trace := l1 } level _ _ i h1 hs.amid hi
  rw [hi]
  dsimp only
  have hs := hs.note "temps" (Text.ofNat i.temps)
  rcases hbroke : i.brokeOff with _ | _ <;> rw [hbroke] at h2
  · exact Nested.finish (by simpa using h2) hs
  · by_cases ha : level.admits .routine = true
    · rw [ha]
      exact Nested.torn (a := s'.id) (by simpa [Function.comp_def, opened, ha] using h2)
        (TraceLevel.admits_pass ha)
    · have hid : opened level .routine s' = id := by
        funext ss
        exact if_neg ha
      rw [Bool.not_eq_true] at ha
      rw [ha]
      exact Nested.finish (by simpa [hid] using h2) hs

end Routine

namespace UnitRun

open TraceLog

variable {run run' : UnitRun} {r : Routine}

/-- While a unit is worked through its span alone is open, or a routine tore it. -/
structure Spanned (run : UnitRun) (level : TraceLevel) : Prop where
  began : Began level .driver (some []) run.span
  nested : Nested level run.shared.trace
    (if run.routines.any (·.injected.brokeOff) && level.admits .routine then none
      else some (opened level .driver run.span []))

variable {level : TraceLevel}

theorem spanned_start (u : CompUnit) (options : RunOptions) :
    (start u options { level }).Spanned level := by
  rcases hb : TraceLog.begin { level } .driver "unit" 0 with ⟨s, l⟩
  obtain ⟨h, hs⟩ := (nested_nil level).begin (fun _ _ => .inl rfl) hb
  unfold start
  rw [hb]
  exact ⟨(hs.note _ _).note _ _, by simpa using h⟩

theorem Spanned.amid (h : run.Spanned level) (torn : Bool) :
    Amid run.span.id (if torn then none else some (opened level .driver run.span [])) := by
  split_ifs
  · nofun
  · exact h.began.amid (o := some [])

theorem Spanned.step (h : run.Spanned level) (hr : run.step r = .ok run') : run'.Spanned level := by
  obtain ⟨⟨rr, events, sh⟩, hrun, hr⟩ := bind_eq_ok.1 hr
  cases pure_eq_ok.1 hr
  obtain ⟨-, hi, rfl⟩ := CompUnit.of_runRoutine hrun
  have hjoin : ∀ (a b c : Bool) (x : Option (List UInt64)), (if (a || b) && c then none else x) =
      if b && c then none else if a && c then none else x := by
    rintro (_ | _) (_ | _) (_ | _) x <;> rfl
  refine ⟨h.began, ?_⟩
  simp only [List.any_append, List.any_cons, List.any_nil, Bool.or_false, hjoin]
  exact Routine.inject_nested h.nested (h.amid _) hi

theorem Spanned.fold : ∀ (rs : List Routine) {run run' : UnitRun}, run.Spanned level →
    rs.foldlM UnitRun.step run = .ok run' → run'.Spanned level
  | [], _, _, h, hf => by
    cases pure_eq_ok.1 hf
    exact h
  | r :: rs, _, _, h, hf => by
    obtain ⟨run1, hs, hf⟩ := bind_eq_ok.1 hf
    exact Spanned.fold rs (h.step hs) hf

end UnitRun

namespace CompUnit

open TraceLog

/-- The unit's span is ended when all routines are done, or when the run is called off. -/
theorem nested_run {u : CompUnit} {options : RunOptions} {level : TraceLevel} {res : UnitResult}
    (hr : u.run options { level } = .ok res) : Nested level res.trace
      (if res.routines.any (·.injected.brokeOff) && level.admits .routine then none
        else some []) := by
  have hstart : (UnitRun.start u options { level }).Spanned level := UnitRun.spanned_start u options
  rw [CompUnit.run] at hr
  split_ifs at hr
  · cases pure_eq_ok.1 hr
    exact Nested.finish (o := some []) hstart.nested hstart.began
  · obtain ⟨run, hf, hr⟩ := bind_eq_ok.1 hr
    cases pure_eq_ok.1 hr
    have h := hstart.fold u.routines hf
    have hn := h.nested
    rw [← opened_note "failed" (Text.ofNat (run.routines.filter (·.failed)).length)] at hn
    have hb := h.began.note "failed" (Text.ofNat (run.routines.filter (·.failed)).length)
    change Nested level _
      (if run.routines.any (·.injected.brokeOff) && level.admits .routine then _ else _)
    split_ifs at hn ⊢
    · exact Nested.finish (o := none) hn ⟨hb.id, fun _ h => by cases h⟩
    · exact Nested.finish (o := some []) hn hb

/-- The events of a run are well bracketed just when no routine was broken off, or when the spans
inside routines are not traced. -/
theorem wellBracketed_run {u : CompUnit} {options : RunOptions} {level : TraceLevel}
    {res : UnitResult}
    (hr : u.run options { level } = .ok res) (hlen : res.trace.events.length < 2 ^ 64) :
    TraceEvent.WellBracketed res.trace.events ↔
      (∀ rr ∈ res.routines, rr.injected.brokeOff = false) ∨ level.admits .routine = false := by
  have h := nested_run hr
  rw [TraceEvent.WellBracketed, h.spans hlen, and_iff_right (h.numbered.distinct hlen).1]
  by_cases hany : (res.routines.any (·.injected.brokeOff)) = true <;>
    by_cases ha : level.admits .routine = true <;> simp_all

/-- A unit with one routine. -/
def lone (body : Node) : CompUnit where
  ops.symbols := { all := #[{ id := 1, name := "f", kind := .proc }], lastId := 1 }
  routines := [{ sym := some 0, body }]

/-- An empty body is worked through inside four spans. -/
theorem wellBracketed_run_empty : ∃ res, (lone (.node { kind := .stmtList } [])).run {}
    { level := .detail } = .ok res ∧ res.trace.events.length = 8 ∧
    TraceEvent.WellBracketed res.trace.events := by
  obtain ⟨res, hr, h⟩ := exists_ok (p := fun res => decide (res.trace.events.length = 8 ∧
    ∀ rr ∈ res.routines, rr.injected.brokeOff = false))
    (x := (lone (.node { kind := .stmtList } [])).run {} { level := .detail }) (by decide +kernel)
  obtain ⟨hlen, hall⟩ := of_decide_eq_true h
  exact ⟨res, hr, hlen, (wellBracketed_run hr (by omega)).2 (.inl hall)⟩

/-- An assignment without sides breaks the work off while the flow graph is built. -/
theorem torn_by_failure : ∃ res, (lone (.node { kind := .asgn } [])).run {}
    { level := .detail } = .ok res ∧
    res.trace.events.map (fun e => (e.kind, e.span)) = [(.spanBegin, 1), (.spanBegin, 2),
      (.spanBegin, 3), (.spanEnd, 2), (.spanEnd, 1)] ∧
        ¬ TraceEvent.WellBracketed res.trace.events := by
  obtain ⟨res, hr, h⟩ := exists_ok (p := fun res => decide (res.trace.events.map
    (fun e => (e.kind, e.span)) = [(.spanBegin, 1), (.spanBegin, 2), (.spanBegin, 3), (.spanEnd, 2),
      (.spanEnd, 1)] ∧ ¬ TraceEvent.WellBracketed res.trace.events))
    (x := (lone (.node { kind := .asgn } [])).run {} { level := .detail }) (by decide +kernel)
  exact ⟨res, hr, of_decide_eq_true h⟩

end CompUnit

end Lifecycle
