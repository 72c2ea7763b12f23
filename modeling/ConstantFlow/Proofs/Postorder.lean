import ConstantFlow.Proofs.Search
import Mathlib.Data.List.Perm.Basic
import Mathlib.Logic.Function.Iterate

namespace ConstantFlow

variable {n : Nat} {g : Graph n} {s t s' : Search n} {u v : Node n} {l : List (Node n)}

/-- A search in a loop: the nodes that it is inside of, the innermost first, with the successors of each that
are still to come up. -/
structure Descent (n : Nat) where
  search : Search n
  stack : List (Node n × List (Node n))

namespace Descent

def start (g : Graph n) : Descent n := ⟨Search.start.see .entry, [(.entry, g.successors .entry)]⟩

/-- One round: the next successor of the innermost node comes up, or, if there is none, the node is finished. -/
def step (g : Graph n) (d : Descent n) : Descent n :=
  match d.stack with
  | [] => d
  | (v, []) :: rest => ⟨d.search.finish v, rest⟩
  | (v, w :: l) :: rest =>
    if d.search.seen.get w then ⟨d.search, (v, l) :: rest⟩
    else ⟨d.search.see w, (w, g.successors w) :: (v, l) :: rest⟩

def rounds (g : Graph n) (s : Search n) : Nat := s.finished.length + (s.finished.flatMap g.successors).length

theorem rounds_finish (g : Graph n) (s : Search n) (v : Node n) :
    rounds g (s.finish v) = (g.successors v).length + 1 + rounds g s := by
  rw [rounds, rounds, Search.finish, List.flatMap_cons, List.length_append, List.length_cons]
  omega

theorem exists_iterate_step (h : Search.Traverses g s l s') (v : Node n) (rest : List (Node n × List (Node n))) :
    ∃ k, k + rounds g s = l.length + rounds g s' ∧
      (step g)^[k] ⟨s, (v, l) :: rest⟩ = ⟨s', (v, []) :: rest⟩ := by
  induction h generalizing v rest with
  | nil s => exact ⟨0, by simp, rfl⟩
  | @skip s s' w l hw _ ih =>
    obtain ⟨k, hk, hrun⟩ := ih v rest
    have hstep : step g ⟨s, (v, w :: l) :: rest⟩ = ⟨s, (v, l) :: rest⟩ := if_pos hw
    refine ⟨k + 1, by rw [List.length_cons]; omega, ?_⟩
    rw [Function.iterate_succ_apply, hstep, hrun]
  | @enter s t s' w l hw _ _ ihs ih =>
    obtain ⟨k, hk, hrun⟩ := ihs w ((v, l) :: rest)
    obtain ⟨k', hk', hrun'⟩ := ih v rest
    have hstep : step g ⟨s, (v, w :: l) :: rest⟩ = ⟨s.see w, (w, g.successors w) :: (v, l) :: rest⟩ :=
      if_neg (by simp [hw])
    have hleave : step g ⟨t, (w, []) :: (v, l) :: rest⟩ = ⟨t.finish w, (v, l) :: rest⟩ := rfl
    have hsee : rounds g (s.see w) = rounds g s := rfl
    -- one round to enter `w`, `k` for what comes after it, one to leave it, and `k'` for the rest
    refine ⟨k' + 1 + (k + 1), ?_, ?_⟩
    · rw [hsee] at hk
      rw [rounds_finish] at hk'
      rw [List.length_cons]
      omega
    · rw [Function.iterate_add_apply, Function.iterate_succ_apply _ k, hstep, hrun, Function.iterate_succ_apply,
        hleave, hrun']

theorem iterate_step_start (g : Graph n) :
    (step g)^[rounds g g.search] (start g) = ⟨g.search, []⟩ ∧ g.search.finished.head? = some .entry := by
  have h := g.traverses_search
  generalize g.search = s at h ⊢
  cases h with
  | skip h _ => simp [Search.start, NodeMap.get_const] at h
  | @enter _ t _ _ _ _ hbelow hrest =>
    cases hrest
    obtain ⟨k, hk, hrun⟩ := exists_iterate_step hbelow .entry []
    have hsee : rounds g (Search.start.see .entry) = 0 := rfl
    have hrounds : rounds g (t.finish .entry) = k + 1 := by
      rw [rounds_finish]
      omega
    have hleave : step g ⟨t, [(.entry, [])]⟩ = ⟨t.finish .entry, []⟩ := rfl
    refine ⟨?_, rfl⟩
    rw [hrounds, Function.iterate_succ_apply', start, hrun, hleave]

end Descent

namespace Graph

/-- However its edges run, a graph has a reverse postorder: the loop that computes it ends, in one round for each
node that can be reached and for each edge out of one. It holds every node once. First comes what can be reached,
beginning with the entry, then what cannot, in the order of the nodes. An edge from a node that can be reached
goes forward, or a path leads back; so the order is topological where there are no cycles. -/
theorem reversePostorder_spec (g : Graph n) :
    (Descent.step g)^[Descent.rounds g g.search] (Descent.start g) = ⟨g.search, []⟩ ∧
    g.reversePostorder.Nodup ∧ g.reversePostorder.Perm (Node.all n) ∧
    g.reversePostorder.head? = some .entry ∧
    (∃ reached rest, g.reversePostorder = reached ++ rest ∧ rest.Sublist (Node.all n) ∧
      (∀ v, v ∈ reached ↔ g.Path .entry v) ∧ ∀ v, v ∈ rest ↔ ¬ g.Path .entry v) ∧
    (∀ u v, g.Path .entry u → g.Edge u v → [u, v].Sublist g.reversePostorder ∨ g.Path v u) ∧
    ((∀ v, g.Path .entry v → ¬ Relation.TransGen g.Edge v v) →
      ∀ u v, g.Path .entry u → g.Edge u v → [u, v].Sublist g.reversePostorder) := by
  obtain ⟨hends, hhead⟩ := Descent.iterate_step_start g
  have hnodup := g.nodup_reversePostorder
  refine ⟨hends, hnodup, ?_, ?_, ⟨g.search.finished, g.search.unseen, rfl, List.filter_sublist, ?_, ?_⟩, ?_, ?_⟩
  · refine (List.perm_ext_iff_of_nodup hnodup (Node.nodup_all n)).2 fun v ↦ ?_
    exact iff_of_true (g.mem_reversePostorder v) v.mem_all
  · rw [reversePostorder_eq, List.head?_append, hhead, Option.some_or]
  · exact fun v ↦ mem_finished_search
  · intro v
    rw [Search.mem_unseen, ← mem_finished_search, ← seen_search, Bool.not_eq_true]
  · exact fun u v hu he ↦ g.sublist_reversePostorder hu he
  · intro hacyclic u v hu he
    exact (sublist_reversePostorder hu he).resolve_right fun hp ↦ hacyclic u hu (.head' he hp)

end Graph

end ConstantFlow
