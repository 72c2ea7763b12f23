import ConstantFlow.Graph.Order
import Mathlib.Data.List.Nodup
import Mathlib.Logic.Relation

namespace ConstantFlow

variable {n : Nat} {g : Graph n} {s t s' : Search n} {u v w : Node n} {l : List (Node n)}

theorem Node.nodup_all (n : Nat) : (Node.all n).Nodup := by
  have hinj : Function.Injective (Node.stmt (n := n)) := fun _ _ h ↦ Node.stmt.inj h
  simp [Node.all, (List.nodup_finRange n).map hinj]

theorem Node.length_all (n : Nat) : (Node.all n).length = n + 2 := by simp [Node.all]

namespace Graph

def Edge (g : Graph n) (u v : Node n) : Prop := (u, v) ∈ g.edges

def Path (g : Graph n) : Node n → Node n → Prop := Relation.ReflTransGen g.Edge

def Acyclic (g : Graph n) : Prop := ∀ v, ¬ Relation.TransGen g.Edge v v

end Graph

namespace Search

/-- What a search does with nodes that come up one after the other: those that it has seen are passed over,
any other is finished once its successors have been dealt with. -/
inductive Traverses (g : Graph n) : Search n → List (Node n) → Search n → Prop
  | nil (s : Search n) : Traverses g s [] s
  | skip {s s' : Search n} {v : Node n} {l : List (Node n)} :
      s.seen.get v = true → Traverses g s l s' → Traverses g s (v :: l) s'
  | enter {s t s' : Search n} {v : Node n} {l : List (Node n)} :
      s.seen.get v = false → Traverses g (s.see v) (g.successors v) t →
      Traverses g (t.finish v) l s' → Traverses g s (v :: l) s'

theorem seen_see : (s.see v).seen.get w = true ↔ v = w ∨ s.seen.get w = true := by
  rw [see, NodeMap.get_set]
  split
  · next h => simp [h]
  · next h => simp [h]

theorem Traverses.seen_mono (h : Traverses g s l s') (hw : s.seen.get w = true) : s'.seen.get w = true := by
  induction h with
  | nil s => exact hw
  | skip _ _ ih => exact ih hw
  | enter _ _ _ ihs ih => exact ih (ihs (seen_see.2 (.inr hw)))

theorem Traverses.seen_of_mem (h : Traverses g s l s') (hw : w ∈ l) : s'.seen.get w = true := by
  induction h with
  | nil s => cases hw
  | skip hv hrest ih =>
    obtain rfl | hw := List.mem_cons.1 hw
    · exact hrest.seen_mono hv
    · exact ih hw
  | enter _ hs hrest _ ih =>
    obtain rfl | hw := List.mem_cons.1 hw
    · exact hrest.seen_mono (hs.seen_mono (seen_see.2 (.inl rfl)))
    · exact ih hw

def unseen (s : Search n) : List (Node n) := (Node.all n).filter fun v ↦ !s.seen.get v

theorem mem_unseen : v ∈ s.unseen ↔ s.seen.get v = false := by
  simp [unseen, v.mem_all]

theorem Traverses.length_unseen_le (h : Traverses g s l s') : s'.unseen.length ≤ s.unseen.length := by
  refine (List.monotone_filter_right _ fun v hv ↦ ?_).length_le
  rw [Bool.not_eq_true'] at hv ⊢
  by_contra hs
  rw [h.seen_mono (Bool.not_eq_false _ ▸ hs)] at hv
  cases hv

theorem length_unseen_see (h : s.seen.get v = false) : (s.see v).unseen.length < s.unseen.length := by
  have hfilter : (s.see v).unseen = s.unseen.filter (· ≠ v) := by
    rw [unseen, unseen, List.filter_filter]
    refine List.filter_congr fun w _ ↦ ?_
    rw [see, NodeMap.get_set]
    by_cases hw : v = w
    · simp [hw]
    · simp [hw, Ne.symm hw]
  rw [hfilter, List.length_filter_lt_length_iff_exists]
  exact ⟨v, mem_unseen.2 h, by simp⟩

/-- A search that may go as deep as there are nodes left to see is not cut short. -/
theorem traverses_foldl_explore (g : Graph n) {depth : Nat} (h : s.unseen.length ≤ depth) (l : List (Node n)) :
    Traverses g s l (l.foldl (explore g depth) s) := by
  induction depth generalizing s l with
  | zero =>
    -- nothing is left to see, so stopping here misses nothing
    have hseen (v) : s.seen.get v = true := by
      rw [← Bool.not_eq_false, ← mem_unseen, List.length_eq_zero_iff.1 (Nat.le_zero.1 h)]
      exact List.not_mem_nil
    induction l with
    | nil => exact .nil s
    | cons v l ih => exact .skip (hseen v) ih
  | succ depth ih =>
    induction l generalizing s with
    | nil => exact .nil s
    | cons v l ihl =>
      rw [List.foldl_cons, explore]
      split
      · next hv => exact .skip hv (ihl h)
      · next hv =>
        rw [Bool.not_eq_true] at hv
        have hless := length_unseen_see hv
        have hdepth : (s.see v).unseen.length ≤ depth := by omega
        have hbelow := ih hdepth (g.successors v)
        refine .enter hv hbelow (ihl ?_)
        have hle : (finish _ v).unseen.length ≤ (s.see v).unseen.length := hbelow.length_unseen_le
        omega

/-- A node that has been seen and is not finished. -/
def Open (s : Search n) (v : Node n) : Prop := s.seen.get v = true ∧ v ∉ s.finished

theorem open_see_of_ne (h : w ≠ v) : (s.see v).Open w ↔ s.Open w := by
  rw [Open, seen_see, or_iff_right (Ne.symm h)]
  rfl

theorem open_finish : (s.finish v).Open w ↔ s.Open w ∧ w ≠ v := by
  simp only [Open, finish, List.mem_cons, not_or]
  exact ⟨fun h ↦ ⟨⟨h.1, h.2.2⟩, h.2.1⟩, fun h ↦ ⟨h.1.1, h.2, h.1.2⟩⟩

theorem Traverses.open_iff (h : Traverses g s l s') : s'.Open w ↔ s.Open w := by
  induction h with
  | nil s => rfl
  | skip _ _ ih => exact ih
  | @enter s t s' v l hv _ _ ihs ih =>
    rw [ih, open_finish, ihs]
    constructor
    · exact fun ⟨ho, hne⟩ ↦ (open_see_of_ne hne).1 ho
    · intro ho
      have hne : w ≠ v := fun he ↦ Bool.false_ne_true (hv.symm.trans (he ▸ ho.1))
      exact ⟨(open_see_of_ne hne).2 ho, hne⟩

/-- Each node is finished once, and before it all that it leads to, but for the nodes on the way to it. -/
structure Sound (g : Graph n) (s : Search n) : Prop where
  nodup : s.finished.Nodup
  seen : ∀ v ∈ s.finished, s.seen.get v = true
  ordered : ∀ u ∈ s.finished, ∀ v, g.Edge u v →
    s.seen.get v = true ∧ ([u, v].Sublist s.finished ∨ g.Path v u)

theorem sound_start (g : Graph n) : Sound g .start where
  nodup := .nil
  seen _ h := nomatch h
  ordered _ h := nomatch h

theorem Sound.see (hs : Sound g s) (v : Node n) : Sound g (s.see v) where
  nodup := hs.nodup
  seen u hu := seen_see.2 (.inr (hs.seen u hu))
  ordered u hu w he := ⟨seen_see.2 (.inr (hs.ordered u hu w he).1), (hs.ordered u hu w he).2⟩

theorem Sound.finish (hs : Sound g s) (hv : s.Open v)
    (hnext : ∀ w, g.Edge v w → s.seen.get w = true ∧ (w ∈ s.finished ∨ g.Path w v)) : Sound g (s.finish v) where
  nodup := List.nodup_cons.2 ⟨hv.2, hs.nodup⟩
  seen u hu := (List.mem_cons.1 hu).elim (fun he ↦ he ▸ hv.1) (hs.seen u)
  ordered u hu w he := by
    obtain rfl | hu := List.mem_cons.1 hu
    · obtain ⟨hseen, hw⟩ := hnext w he
      exact ⟨hseen, hw.imp_left fun hw ↦ (List.singleton_sublist.2 hw).cons_cons u⟩
    · obtain ⟨hseen, hw⟩ := hs.ordered u hu w he
      exact ⟨hseen, hw.imp_left fun hw ↦ hw.cons v⟩

/-- The open nodes are those on the way to the nodes that come up. -/
theorem Traverses.sound (h : Traverses g s l s') (hs : Sound g s)
    (hopen : ∀ u, s.Open u → ∀ v ∈ l, g.Path u v) : Sound g s' := by
  induction h with
  | nil s => exact hs
  | skip _ _ ih => exact ih hs fun u hu w hw ↦ hopen u hu w (.tail _ hw)
  | @enter s t s' v l hv hbelow hrest ihs ih =>
    have hnew : (s.see v).Open v :=
      ⟨seen_see.2 (.inl rfl), fun hf ↦ Bool.false_ne_true (hv.symm.trans (hs.seen v hf))⟩
    -- `v` is open from now on, and what was open before leads to it
    have hway : ∀ u, (s.see v).Open u → g.Path u v := by
      intro u hu
      by_cases hne : u = v
      · exact hne ▸ .refl
      · exact hopen u ((open_see_of_ne hne).1 hu) v (.head _)
    have hbelow_sound : Sound g t := by
      refine ihs (hs.see v) fun u hu w hw ↦ (hway u hu).tail ?_
      exact (g.mem_successors v w).1 hw
    refine ih (hbelow_sound.finish (hbelow.open_iff.2 hnew) fun w he ↦ ?_) fun u hu w hw ↦ ?_
    · -- a successor that is not finished by now is open, so it leads back
      have hseen := hbelow.seen_of_mem ((g.mem_successors v w).2 he)
      refine ⟨hseen, or_iff_not_imp_left.2 fun hf ↦ hway w (hbelow.open_iff.1 ⟨hseen, hf⟩)⟩
    · obtain ⟨hu, hne⟩ := open_finish.1 hu
      exact hopen u ((open_see_of_ne hne).1 (hbelow.open_iff.1 hu)) w (.tail _ hw)

theorem Traverses.path_of_seen (h : Traverses g s l s') (hw : s'.seen.get w = true) :
    s.seen.get w = true ∨ ∃ v ∈ l, g.Path v w := by
  induction h with
  | nil s => exact .inl hw
  | skip _ _ ih => exact (ih hw).imp_right fun ⟨v, hv, hp⟩ ↦ ⟨v, .tail _ hv, hp⟩
  | @enter s t s' v l _ _ _ ihs ih =>
    obtain ht | ⟨u, hu, hp⟩ := ih hw
    · obtain hs | ⟨u, hu, hp⟩ := ihs ht
      · obtain rfl | hs := seen_see.1 hs
        · exact .inr ⟨v, .head _, .refl⟩
        · exact .inl hs
      · exact .inr ⟨v, .head _, .head ((g.mem_successors v u).1 hu) hp⟩
    · exact .inr ⟨u, .tail _ hu, hp⟩

end Search

namespace Graph

theorem traverses_search (g : Graph n) : Search.Traverses g .start [.entry] g.search := by
  refine Search.traverses_foldl_explore g ?_ [.entry]
  rw [← Node.length_all]
  exact List.length_filter_le _ _

theorem not_open_search (g : Graph n) (v : Node n) : ¬ g.search.Open v := by
  rw [g.traverses_search.open_iff]
  simp [Search.Open, Search.start, NodeMap.get_const]

theorem sound_search (g : Graph n) : Search.Sound g g.search := by
  refine g.traverses_search.sound (Search.sound_start g) fun u hu ↦ ?_
  simp [Search.Open, Search.start, NodeMap.get_const] at hu

theorem seen_search : g.search.seen.get v = true ↔ v ∈ g.search.finished :=
  ⟨fun h ↦ by_contra fun hf ↦ g.not_open_search v ⟨h, hf⟩, g.sound_search.seen v⟩

theorem mem_finished_search : v ∈ g.search.finished ↔ g.Path .entry v := by
  constructor
  · intro h
    obtain hs | ⟨u, hu, hp⟩ := g.traverses_search.path_of_seen (seen_search.2 h)
    · simp [Search.start, NodeMap.get_const] at hs
    · exact List.mem_singleton.1 hu ▸ hp
  · intro h
    induction h with
    | refl => exact seen_search.1 (g.traverses_search.seen_of_mem (.head _))
    | tail _ he ih => exact seen_search.1 (g.sound_search.ordered _ ih _ he).1

theorem reversePostorder_eq (g : Graph n) : g.reversePostorder = g.search.finished ++ g.search.unseen := rfl

theorem mem_reversePostorder (g : Graph n) (v : Node n) : v ∈ g.reversePostorder := by
  rw [reversePostorder_eq, List.mem_append, Search.mem_unseen, ← seen_search]
  exact Bool.eq_false_or_eq_true _

theorem nodup_reversePostorder (g : Graph n) : g.reversePostorder.Nodup := by
  rw [reversePostorder_eq]
  refine List.nodup_append.2 ⟨g.sound_search.nodup, (Node.nodup_all n).filter _, ?_⟩
  rintro u hu v hv rfl
  exact Bool.false_ne_true ((Search.mem_unseen.1 hv).symm.trans (seen_search.2 hu))

theorem sublist_reversePostorder (hu : g.Path .entry u) (h : g.Edge u v) :
    [u, v].Sublist g.reversePostorder ∨ g.Path v u :=
  (g.sound_search.ordered u (mem_finished_search.2 hu) v h).2.imp_left fun hs ↦
    hs.trans (List.sublist_append_left _ _)

theorem Acyclic.sublist_reversePostorder (hg : g.Acyclic) (hu : g.Path .entry u) (h : g.Edge u v) :
    [u, v].Sublist g.reversePostorder :=
  (Graph.sublist_reversePostorder hu h).resolve_right fun hp ↦ hg u (.head' h hp)

end Graph

end ConstantFlow
