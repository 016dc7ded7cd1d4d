import Lifecycle.Proofs.Text
import Lifecycle.Source.FileSet

/-!
# Cleaned paths and file sets

Cleaning a cleaned path changes nothing. So a file set is what its own paths register.
-/

namespace Lifecycle

variable {s : List UInt8}

namespace Text

variable {sep : UInt8} {bs : List UInt8}

theorem pieces_ne_nil (sep : UInt8) (bs : List UInt8) : pieces sep bs ≠ [] := by
  cases bs with
  | nil => simp [pieces]
  | cons b bs =>
    rw [pieces]
    split
    · simp
    · split <;> simp

theorem pieces_sep (sep : UInt8) (bs : List UInt8) :
    pieces sep (sep :: bs) = [] :: pieces sep bs := by
  rw [pieces]
  split
  · exact absurd ‹_› (pieces_ne_nil sep bs)
  · simp [*]

theorem pieces_cons (h : b ≠ sep)
    (hp : pieces sep bs = p :: ps) : pieces sep (b :: bs) = (b :: p) :: ps := by
  rw [pieces, hp]
  simp [h]

theorem pieces_append (h : sep ∉ s)
    (hp : pieces sep bs = p :: ps) : pieces sep (s ++ bs) = (s ++ p) :: ps := by
  induction s with
  | nil => exact hp
  | cons b s ih =>
    simp only [List.mem_cons, not_or] at h
    exact pieces_cons (Ne.symm h.1) (ih h.2)

theorem pieces_join (h : ∀ t ∈ s :: ss, sep ∉ t) :
    pieces sep (s ++ ss.flatMap (sep :: ·)) = s :: ss := by
  induction ss generalizing s with
  | nil =>
    have := pieces_append (h s (by simp)) (rfl : pieces sep [] = [[]])
    simpa using this
  | cons t ss ih =>
    have ht := ih (s := t) fun u hu => h u (by simp_all)
    have := pieces_append (h s (by simp)) (pieces_sep sep (t ++ ss.flatMap (sep :: ·)))
    simpa [ht] using this

theorem not_mem_of_pieces : ∀ p ∈ pieces sep bs, sep ∉ p := by
  induction bs with
  | nil => simp [pieces]
  | cons b bs ih =>
    rcases hp : pieces sep bs with _ | ⟨p, ps⟩
    · exact absurd hp (pieces_ne_nil sep bs)
    · rw [hp] at ih
      rw [pieces, hp]
      split_ifs with hb
      · simpa using ih
      · simp only [List.mem_cons, forall_eq_or_imp] at ih ⊢
        refine ⟨?_, ih.2⟩
        rintro (rfl | h)
        · exact hb rfl
        · exact ih.1 h

theorem toList_join (sep : Text) (t : Text) (ts : List Text) :
    (join sep (t :: ts)).toList = t.toList ++ ts.flatMap fun u => sep.toList ++ u.toList := by
  rw [join]
  induction ts generalizing t with
  | nil => simp
  | cons u ts ih => rw [List.foldl_cons, ih]; simp

end Text

namespace Path

def Names (s : List UInt8) : Prop := s ≠ [] ∧ s ≠ dot ∧ slash ∉ s

theorem names_of_segments : ∀ s ∈ segments p, Names s := by
  intro s hs
  obtain ⟨hm, hf⟩ := List.mem_filter.1 hs
  simp only [Bool.and_eq_true, Bool.not_eq_true', List.isEmpty_eq_false_iff, bne_iff_ne] at hf
  exact ⟨hf.1, hf.2, Text.not_mem_of_pieces s hm⟩

/-- Where `..` stands in a cleaned path, which is kept in reverse: nowhere when the path is rooted,
and else only in front. -/
def Settled (rooted : Bool) : List (List UInt8) → Prop
  | [] => True
  | s :: done => (s = dotdot → rooted = false ∧ ∀ t ∈ done, t = dotdot) ∧ Settled rooted done

variable {rooted : Bool} {done : List (List UInt8)} {ss : List (List UInt8)}

theorem step_name (h : s ≠ dotdot) : step rooted done s = s :: done := by
  rw [step.eq_def, if_neg h]

theorem step_up_nil (rooted : Bool) : step rooted [] dotdot = if rooted then [] else [dotdot] := rfl

theorem step_up_cons (rooted : Bool) (top : List UInt8) (rest : List (List UInt8)) :
    step rooted (top :: rest) dotdot = if top = dotdot then dotdot :: top :: rest else rest := rfl

theorem settled_step (h : Settled rooted done) : Settled rooted (step rooted done s) := by
  by_cases hs : s = dotdot
  · subst hs
    cases done with
    | nil => cases rooted <;> simp [step_up_nil, Settled]
    | cons top rest =>
      rw [step_up_cons]
      split_ifs with ht
      · refine ⟨fun _ => ⟨(h.1 ht).1, ?_⟩, h⟩
        simpa [ht] using (h.1 ht).2
      · exact h.2
  · rw [step_name hs]
    exact ⟨fun h => absurd h hs, h⟩

theorem mem_of_mem_step (h : t ∈ step rooted done s) : t = s ∨ t ∈ done := by
  by_cases hs : s = dotdot
  · subst hs
    cases done with
    | nil => cases rooted <;> simp_all [step_up_nil]
    | cons top rest =>
      rw [step_up_cons] at h
      split_ifs at h
      · simpa using h
      · exact .inr (by simp [h])
  · simpa [step_name hs] using h

theorem foldl_step : ∀ (ss done : List (List UInt8)), Settled rooted done →
    (∀ s ∈ done, Names s) → (∀ s ∈ ss, Names s) → Settled rooted (ss.foldl (step rooted) done) ∧
      ∀ s ∈ ss.foldl (step rooted) done, Names s
  | [], _, h, hd, _ => ⟨h, hd⟩
  | s :: ss, done, h, hd, hs => by
    refine foldl_step ss _ (settled_step h) ?_ fun t ht => hs t (by simp [ht])
    intro t ht
    rcases mem_of_mem_step ht with rfl | ht
    · exact hs t (by simp)
    · exact hd t ht

theorem foldl_settled : ∀ {done : List (List UInt8)}, Settled rooted done →
    done.reverse.foldl (step rooted) [] = done
  | [], _ => rfl
  | s :: done, h => by
    rw [List.reverse_cons, List.foldl_append, foldl_settled h.2, List.foldl_cons, List.foldl_nil]
    by_cases hs : s = dotdot
    · obtain ⟨hr, hd⟩ := h.1 hs
      subst hs
      cases done with
      | nil => simp [step_up_nil, hr]
      | cons top rest => rw [step_up_cons, if_pos (hd top (by simp))]
    · exact step_name hs

theorem toList_render (rooted : Bool) : (render rooted (s :: ss)).toList =
      (if rooted then [slash] else []) ++ (s ++ ss.flatMap (slash :: ·)) := by
  have hslash : Text.toList (Text.ofString "/") = [slash] := by decide
  have hj : (Text.join "/" ((s :: ss).map Text.ofList)).toList = s ++ ss.flatMap (slash :: ·) := by
    rw [List.map_cons, Text.toList_join, Text.toList_ofList, hslash]
    simp [List.flatMap_map]
  cases rooted with
  | true => rw [render, if_pos rfl, Text.toList_append, hslash, hj, if_pos rfl]
  | false => simpa [render] using hj

theorem isAbsolute_render (h : ∀ s ∈ ss, Names s) : isAbsolute (render rooted ss) = rooted := by
  cases ss with
  | nil => cases rooted <;> decide
  | cons s ss =>
    obtain ⟨hne, -, hs⟩ := h s (by simp)
    rw [isAbsolute, toList_render]
    cases rooted with
    | true => simp
    | false =>
      cases s with
      | nil => exact absurd rfl hne
      | cons b s =>
        simp only [List.mem_cons, not_or] at hs
        simpa using Ne.symm hs.1

theorem segments_render (h : ∀ s ∈ ss, Names s) : segments (render rooted ss) = ss := by
  have hf : ∀ ts : List (List UInt8), (∀ s ∈ ts, Names s) →
      ts.filter (fun s => !s.isEmpty && s != dot) = ts := by
    intro ts hts
    refine List.filter_eq_self.2 fun s hs => ?_
    obtain ⟨hne, hd, -⟩ := hts s hs
    simp [hne, hd]
  cases ss with
  | nil => cases rooted <;> decide
  | cons s ss =>
    have hp : Text.pieces slash (s ++ ss.flatMap (slash :: ·)) = s :: ss :=
      Text.pieces_join fun t ht => (h t ht).2.2
    rw [segments, toList_render]
    cases rooted with
    | false => simpa [hp] using hf _ h
    | true =>
      simp only [if_true, List.singleton_append]
      rw [Text.pieces_sep, hp]
      simpa using hf _ h

theorem settled_segments (p : Text) :
    Settled (isAbsolute p) ((segments p).foldl (step (isAbsolute p)) []) ∧
      ∀ s ∈ (segments p).foldl (step (isAbsolute p)) [], Names s :=
  foldl_step (segments p) [] trivial (by simp) names_of_segments

theorem clean_clean (p : Text) : clean (clean p) = clean p := by
  obtain ⟨hd, hnames⟩ := settled_segments p
  have hn : ∀ s ∈ cleanSegments p, Names s := by simpa [cleanSegments] using hnames
  have ha : isAbsolute (clean p) = isAbsolute p := isAbsolute_render hn
  have hs : segments (clean p) = cleanSegments p := segments_render hn
  have hc : cleanSegments (clean p) = cleanSegments p := by
    rw [cleanSegments, hs, ha, cleanSegments, foldl_settled hd]
  rw [clean, ha, hc]
  rfl

end Path

namespace FileSet

/-- A set whose paths are cleaned and all different. -/
structure Registered (fs : FileSet) : Prop where
  clean : ∀ p ∈ fs.paths, Path.clean p = p
  nodup : fs.paths.Nodup

theorem Registered.add {fs : FileSet} (h : fs.Registered) (p : Text) : (fs.add p).2.Registered := by
  rw [FileSet.add]
  split
  · exact h
  · rename_i hn
    rw [List.findIdx?_eq_none_iff] at hn
    refine ⟨?_, ?_⟩
    · intro q hq
      rcases List.mem_append.1 hq with hq | hq
      · exact h.clean q hq
      · rw [List.mem_singleton.1 hq, Path.clean_clean]
    · refine List.nodup_append.2 ⟨h.nodup, by simp, ?_⟩
      rintro q hq r hr rfl
      rw [List.mem_singleton.1 hr] at hq
      simpa using hn _ hq

theorem registered_ofList (ps : List Text) : (ofList ps).Registered := by
  have key : ∀ (ps : List Text) (fs : FileSet), fs.Registered →
      (ps.foldl (fun fs p => (fs.add p).2) fs).Registered := by
    intro ps
    induction ps with
    | nil => exact fun fs h => h
    | cons p ps ih => exact fun fs h => ih _ (h.add p)
  exact key ps {} ⟨by simp, by simp⟩

theorem Registered.ofList_paths (h : fs.Registered) : ofList fs.paths = fs := by
  have key : ∀ (ps done : List Text), (∀ p ∈ ps, Path.clean p = p) → (done ++ ps).Nodup →
      ps.foldl (fun (fs : FileSet) p => (fs.add p).2) ⟨done⟩ = ⟨done ++ ps⟩ := by
    intro ps
    induction ps with
    | nil => simp
    | cons p ps ih =>
      intro done hc hn
      have hp : done.findIdx? (· = Path.clean p) = none := by
        rw [List.findIdx?_eq_none_iff, hc p (by simp)]
        intro q hq
        have := (List.nodup_append.1 hn).2.2 q hq p (by simp)
        simpa using this
      have ha : (FileSet.add ⟨done⟩ p).2 = ⟨done ++ [p]⟩ := by
        rw [FileSet.add, hp, hc p (by simp)]
      rw [List.foldl_cons, ha, ih _ (fun q hq => hc q (by simp [hq])) (by simpa using hn)]
      simp
  exact key fs.paths [] h.clean (by simpa using h.nodup)

end FileSet

end Lifecycle
