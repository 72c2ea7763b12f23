import ConstantFlow.Solver.Worklist
import Mathlib.Data.List.Nodup

namespace ConstantFlow.Worklist

variable {n : Nat} {w rest : Worklist n} {v u : Node n} {l : List (Node n)}

/-- No node waits twice, and the marked nodes are those that wait. -/
structure Sound (w : Worklist n) : Prop where
  nodup : w.queue.Nodup
  waiting_iff : ∀ v, w.waiting.get v = true ↔ v ∈ w.queue

theorem sound_empty : (empty : Worklist n).Sound where
  nodup := .nil
  waiting_iff v := by simp [empty, NodeMap.get_const]

theorem mem_push (hw : w.Sound) : u ∈ (w.push v).queue ↔ u ∈ w.queue ∨ u = v := by
  unfold push
  split
  · next h => exact ⟨.inl, fun hu ↦ hu.elim id fun he ↦ he ▸ (hw.waiting_iff v).1 h⟩
  · simp

theorem Sound.push (hw : w.Sound) (v : Node n) : (w.push v).Sound := by
  unfold Worklist.push
  split
  · exact hw
  · next h =>
    rw [hw.waiting_iff] at h
    refine ⟨?_, fun u ↦ ?_⟩
    · exact List.nodup_append.2 ⟨hw.nodup, by simp, fun a ha b hb hab ↦
        h (List.mem_singleton.1 hb ▸ hab ▸ ha)⟩
    · rw [NodeMap.get_set, List.mem_append, List.mem_singleton]
      split
      · next hv => simp [hv]
      · next hv => simp [hw.waiting_iff, Ne.symm hv]

theorem Sound.pushAll (hw : w.Sound) (l : List (Node n)) : (w.pushAll l).Sound := by
  induction l generalizing w with
  | nil => exact hw
  | cons v l ih => exact ih (hw.push v)

theorem mem_pushAll (hw : w.Sound) : u ∈ (w.pushAll l).queue ↔ u ∈ w.queue ∨ u ∈ l := by
  induction l generalizing w with
  | nil => simp [pushAll]
  | cons v l ih =>
    rw [pushAll, List.foldl_cons, ← pushAll, ih (hw.push v), mem_push hw, List.mem_cons, or_assoc]

theorem queue_pushAll (hw : w.Sound) (h : (w.queue ++ l).Nodup) : (w.pushAll l).queue = w.queue ++ l := by
  induction l generalizing w with
  | nil => rw [List.append_nil, pushAll, List.foldl_nil]
  | cons v l ih =>
    have hv : ¬ w.waiting.get v = true := by
      rw [hw.waiting_iff]
      exact fun hv ↦ (List.disjoint_of_nodup_append h) hv List.mem_cons_self
    have hpush : (w.push v).queue = w.queue ++ [v] := by rw [push, if_neg hv]
    rw [List.append_cons, ← hpush] at h
    rw [pushAll, List.foldl_cons, ← pushAll, ih (hw.push v) h, hpush, ← List.append_cons]

theorem pushAll_of_subset (hw : w.Sound) (h : ∀ v ∈ l, v ∈ w.queue) : w.pushAll l = w := by
  induction l with
  | nil => rfl
  | cons v l ih =>
    have hpush : w.push v = w := if_pos ((hw.waiting_iff v).2 (h v List.mem_cons_self))
    rw [pushAll, List.foldl_cons, hpush]
    exact ih fun u hu ↦ h u (List.mem_cons_of_mem v hu)

theorem pop?_eq_none : w.pop? = none ↔ w.queue = [] := by
  unfold pop?
  split <;> simp_all

theorem queue_of_pop? (h : w.pop? = some (v, rest)) : w.queue = v :: rest.queue := by
  unfold pop? at h
  split at h
  · cases h
  · next hq =>
    cases h
    exact hq

theorem Sound.pop (hw : w.Sound) (h : w.pop? = some (v, rest)) : rest.Sound := by
  unfold pop? at h
  split at h
  · cases h
  · next v' q hq =>
    cases h
    have hn := hw.nodup
    rw [hq, List.nodup_cons] at hn
    refine ⟨hn.2, fun u ↦ ?_⟩
    rw [NodeMap.get_set]
    split
    · next hu => simpa [← hu] using hn.1
    · next hu => rw [hw.waiting_iff, hq, List.mem_cons, or_iff_right (Ne.symm hu)]

theorem mem_rest (hw : w.Sound) (h : w.pop? = some (v, rest)) : u ∈ rest.queue ↔ u ∈ w.queue ∧ u ≠ v := by
  have hq := queue_of_pop? h
  have hn := hw.nodup
  rw [hq, List.nodup_cons] at hn
  rw [hq, List.mem_cons]
  constructor
  · intro hu
    exact ⟨.inr hu, fun he ↦ hn.1 (he ▸ hu)⟩
  · rintro ⟨hu | hu, hne⟩
    · exact absurd hu hne
    · exact hu

end ConstantFlow.Worklist
