import Mathlib.Data.List.Nodup
import Lifecycle.Dict

/-!
# Maps in which each key stands once

A map that is built by writing keys holds each key once, and then its entries are what it answers.
-/

namespace Lifecycle

namespace Dict

variable {κ ν : Type} [DecidableEq κ] {d : Dict κ ν} {k : κ} {v : ν}

theorem get?_eq_none_iff : d.get? k = none ↔ k ∉ d.keys := by
  simp only [get?, Option.map_eq_none_iff, List.find?_eq_none, decide_eq_true_eq, keys,
    List.mem_map, not_exists, not_and]

theorem mem_of_get? (h : d.get? k = some v) : (k, v) ∈ d.entries := by
  obtain ⟨e, he, rfl⟩ := Option.map_eq_some_iff.1 h
  have hk : e.1 = k := by simpa using List.find?_some he
  rw [← hk]
  exact List.mem_of_find?_eq_some he

theorem get?_of_mem (hn : d.keys.Nodup) (h : (k, v) ∈ d.entries) : d.get? k = some v := by
  rcases hg : d.get? k with _ | w
  · exact absurd (List.mem_map_of_mem (f := (·.1)) h) (get?_eq_none_iff.1 hg)
  · have := List.inj_on_of_nodup_map hn (mem_of_get? hg) h rfl
    rw [(Prod.mk.inj this).2]

theorem entries_insert (h : d.get? k = none) : (d.insert k v).entries = d.entries ++ [(k, v)] := by
  rw [get?_eq_none_iff, keys] at h
  rw [insert]
  induction hd : d.entries generalizing d with
  | nil => rfl
  | cons e es ih =>
    rw [hd] at h
    simp only [List.map_cons, List.mem_cons, not_or] at h
    have := ih (d := ⟨es⟩) h.2 rfl
    simp only [insert.go] at this ⊢
    rw [if_neg (Ne.symm h.1), this]
    rfl

theorem keys_go (h : k ∈ es.map (·.1)) : (insert.go k v es).map (·.1) = es.map (·.1) := by
  induction es with
  | nil => simp at h
  | cons e es ih =>
    rw [insert.go]
    split_ifs with he
    · simp [he]
    · rw [List.map_cons, List.mem_cons] at h
      rw [List.map_cons, List.map_cons, ih (h.resolve_left (Ne.symm he))]

theorem mem_of_mem_insert (h : x ∈ (d.insert k v).entries) : x = (k, v) ∨ x ∈ d.entries := by
  rw [insert] at h
  induction hd : d.entries generalizing d with
  | nil =>
    rw [hd] at h
    exact .inl (List.mem_singleton.1 h)
  | cons e es ih =>
    rw [hd, insert.go] at h
    split_ifs at h
    · exact (List.mem_cons.1 h).imp_right fun h => List.mem_cons_of_mem _ h
    · rcases List.mem_cons.1 h with rfl | h
      · exact .inr (by simp)
      · exact (ih (d := ⟨es⟩) h rfl).imp_right fun h => List.mem_cons_of_mem _ h

theorem nodup_insert (hn : d.keys.Nodup) : (d.insert k v).keys.Nodup := by
  rcases hg : d.get? k with _ | w
  · rw [keys, entries_insert hg, List.map_append]
    refine List.nodup_append.2 ⟨hn, by simp, ?_⟩
    rintro a ha b hb rfl
    simp only [List.map_cons, List.map_nil, List.mem_singleton] at hb
    exact get?_eq_none_iff.1 hg (hb ▸ ha)
  · have hk : (d.insert k v).keys = d.keys :=
      keys_go (List.mem_map_of_mem (f := (·.1)) (mem_of_get? hg))
    rw [hk]
    exact hn

end Dict

end Lifecycle
