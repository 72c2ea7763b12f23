import ConstantFlow.Proofs.Cutoff
import ConstantFlow.Proofs.DivisionFree

namespace ConstantFlow

theorem mem_of_sublist_append_cons {α : Type} {a b : α} {l₁ l₂ : List α} (ha : a ∉ l₁)
    (h : [a, b].Sublist (l₁ ++ a :: l₂)) : b ∈ l₂ := by
  obtain ⟨l, l', he, h₁, h₂⟩ := List.sublist_append_iff.1 h
  cases l with
  | nil =>
    obtain rfl : [a, b] = l' := he
    exact List.singleton_sublist.1 (List.cons_sublist_cons.1 h₂)
  | cons c l =>
    obtain rfl : a = c := (List.cons.inj he).1
    exact absurd (h₁.subset List.mem_cons_self) ha

theorem Graph.acyclic_of_lt {n : Nat} {g : Graph n} (rank : Node n → Nat)
    (h : ∀ e ∈ g.edges, rank e.1 < rank e.2) : g.Acyclic := by
  have hrank {u v} (hp : Relation.TransGen g.Edge u v) : rank u < rank v := by
    induction hp with
    | single he => exact h _ he
    | tail _ he ih => exact ih.trans (h _ he)
  exact fun v hp ↦ Nat.lt_irrefl _ (hrank hp)

namespace Problem

variable {p : Problem} {s s' : State p.method.size} {u v : Node p.method.size} {strategy : Strategy}
  {l : List (Node p.method.size)}

/-- Every node but the boundary is listed once, after the nodes that flow into it. -/
structure InOrder (p : Problem) (l : List (Node p.method.size)) : Prop where
  nodup : l.Nodup
  mem_iff : ∀ v, v ∈ l ↔ v ≠ p.boundary
  sources : ∀ v, v ≠ p.boundary → ∀ u ∈ p.sources v, u = p.boundary ∨ [u, v].Sublist l

theorem InOrder.perm (hl : p.InOrder l) : l.Perm ((Node.all p.method.size).erase p.boundary) := by
  have hall := Node.nodup_all p.method.size
  refine (List.perm_ext_iff_of_nodup hl.nodup (hall.erase _)).2 fun v ↦ ?_
  rw [hl.mem_iff, hall.mem_erase_iff, and_iff_left v.mem_all]

theorem InOrder.length_eq (hl : p.InOrder l) : l.length = (Node.all p.method.size).length - 1 := by
  rw [hl.perm.length_eq, List.length_erase_of_mem p.boundary.mem_all]

/-- The nodes of `l` are visited in turn. Those that wait are untouched, and the others have exactly what flows
into them. -/
structure Passing (p : Problem) (l : List (Node p.method.size)) (s : State p.method.size) : Prop where
  order : s.visits.toList.map Visit.node ++ s.worklist.queue = l
  untouched : ∀ v ∈ s.worklist.queue, s.before.get v = .empty
  exact : ∀ v, v ≠ p.boundary → v ∉ s.worklist.queue → ∀ x,
    (s.before.get v).get x = Value.meets ((p.sources v).map fun u ↦ (s.after.get u).get x)

theorem passing_start (hl : p.InOrder (p.agenda strategy)) : p.Passing (p.agenda strategy) (p.start strategy) := by
  have hqueue : (p.start strategy).worklist.queue = p.agenda strategy :=
    Worklist.queue_pushAll Worklist.sound_empty hl.nodup
  refine ⟨hqueue, fun v _ ↦ before_start p strategy v, fun v hv hq ↦ ?_⟩
  rw [hqueue, hl.mem_iff] at hq
  exact absurd hv hq

theorem Passing.mem_rest (hl : p.InOrder l) (hs : p.Regular s) (hpass : p.Passing l s) {rest : Worklist p.method.size}
    (hq : s.worklist.pop? = some (v, rest)) (hu : u ≠ p.boundary) (hv : v ∈ p.sources u) : u ∈ rest.queue := by
  have hqueue := Worklist.queue_of_pop? hq
  have horder := hpass.order
  have hne : v ≠ p.boundary := fun he ↦ hs.idle (hqueue ▸ he ▸ List.mem_cons_self)
  have hsub := (hl.sources u hu v hv).resolve_left hne
  have hnodup := hl.nodup
  rw [← horder, hqueue] at hsub hnodup
  exact mem_of_sublist_append_cons (fun hm ↦ List.disjoint_of_nodup_append hnodup hm List.mem_cons_self) hsub

theorem Passing.worklist_visited (hl : p.InOrder l) (hs : p.Regular s) (hpass : p.Passing l s)
    {rest : Worklist p.method.size} (hq : s.worklist.pop? = some (v, rest)) :
    (p.visited { s with worklist := rest } v).worklist = rest := by
  unfold visited
  dsimp only
  split
  · refine Worklist.pushAll_of_subset (hs.sound.pop hq) fun u hu ↦ ?_
    obtain ⟨ht, hne⟩ := List.mem_filter.1 hu
    exact hpass.mem_rest hl hs hq (of_decide_eq_true hne) (mem_targets.1 ht)
  · rfl

theorem Passing.visits (hl : p.InOrder l) (hs : p.Regular s) (h : p.Visits s v s') (hpass : p.Passing l s) :
    p.Passing l s' := by
  have hv := hs.ne_boundary h
  have hbefore := h.before
  have hafter := h.after
  obtain ⟨rest, hq, -, rfl⟩ := visits_iff.1 h
  have hqueue := Worklist.queue_of_pop? hq
  have hnodup := hs.sound.nodup
  rw [hqueue, List.nodup_cons] at hnodup
  have hrest := hpass.worklist_visited hl hs hq
  refine ⟨?_, ?_, ?_⟩
  · rw [h.record, hrest, Array.toList_push, List.map_append, List.append_assoc, ← hpass.order, hqueue]
    rfl
  · intro u hu
    rw [hrest] at hu
    have hne : v ≠ u := fun he ↦ hnodup.1 (he ▸ hu)
    rw [hbefore, if_neg hne]
    exact hpass.untouched u (hqueue ▸ List.mem_cons_of_mem v hu)
  · intro u hu huq x
    rw [hrest] at huq
    -- a node that waits no more has no flow from `v`, so what flows into it has been settled before
    have hsources : (p.sources u).map (fun w ↦ ((p.visited { s with worklist := rest } v).after.get w).get x) =
        (p.sources u).map fun w ↦ (s.after.get w).get x := by
      refine List.map_congr_left fun w hw ↦ ?_
      rw [hafter, if_neg]
      exact fun he ↦ huq (hpass.mem_rest hl hs hq hu (he ▸ hw))
    rw [hsources, hbefore]
    split
    · next he =>
      subst he
      rw [merged, Fact.get_mergeAll, List.map_map, hpass.untouched v (hqueue ▸ List.mem_cons_self)]
      exact sup_eq_left.2 (Value.undef_le _)
    · next he =>
      refine hpass.exact u hu (fun hm ↦ ?_) x
      obtain rfl | hm := List.mem_cons.1 (hqueue ▸ hm)
      · exact he rfl
      · exact huq hm

theorem passing_reaches (hl : p.InOrder (p.agenda strategy)) (h : p.Reaches (p.start strategy) s) :
    p.Passing (p.agenda strategy) s :=
  h.keeps (passing_start hl) fun _ _ _ _ hs hv hpass ↦ hpass.visits hl hs hv

theorem solve_of_inOrder {c : Config} (hp : ∀ v, (p.method.stmtAt v).IsProper)
    (hl : p.InOrder (p.agenda c.strategy)) (hsteps : (Node.all p.method.size).length - 1 ≤ c.maxIterations.steps) :
    ∃ sol, p.solve c = .ok sol ∧ sol.visits.toList.map Visit.node = p.agenda c.strategy ∧
      p.Equations (sol.before p.direction).get (sol.after p.direction).get ∧
      (sol.before p.direction).get p.boundary = .empty := by
  cases h : p.solve c with
  | error f =>
    obtain ⟨s, hreach, hsize, hqueue, -⟩ := solve_eq_error_reaches hp h
    have horder := congrArg List.length (passing_reaches hl hreach).order
    have hpos := List.length_pos_iff.2 hqueue
    rw [List.length_append, List.length_map, Array.length_toList, hl.length_eq] at horder
    omega
  | ok sol =>
    obtain ⟨s, hreach, hreg, hempty, rfl⟩ := solve_eq_ok h
    have hpass := passing_reaches hl hreach
    have horder := hpass.order
    rw [hempty, List.append_nil] at horder
    refine ⟨_, rfl, by rw [Solution.visits_ofState, horder], ?_⟩
    rw [equations_iff hp, Solution.before_ofState, Solution.after_ofState]
    refine ⟨⟨by rw [hreg.after_boundary], fun v hv ↦ ?_, fun v hv ↦ ?_⟩, hreg.before_boundary⟩
    · exact hpass.exact v hv (by simp [hempty])
    · exact (hreg.settled v hv (by simp [hempty])).outflow

theorem inOrder_agenda (hd : p.direction = .forward) (hreach : ∀ v, p.graph.Path .entry v)
    (hacyclic : p.graph.Acyclic) : p.InOrder (p.agenda .rpo) := by
  have hboundary : p.boundary = .entry := by rw [boundary, hd]; rfl
  have hagenda : p.agenda .rpo = p.graph.reversePostorder.filter (· ≠ .entry) := by
    unfold agenda
    rw [hboundary, hd]
  refine ⟨hagenda ▸ p.graph.nodup_reversePostorder.filter _, mem_agenda p .rpo, fun v hv u hu ↦ ?_⟩
  rw [hboundary] at hv ⊢
  rw [sources, hd] at hu
  refine or_iff_not_imp_left.2 fun hne ↦ ?_
  have hedge : p.graph.Edge u v := (p.graph.mem_predecessors u v).1 hu
  have hsub := (hacyclic.sublist_reversePostorder (hreach u) hedge).filter (· ≠ .entry)
  rw [hagenda]
  simpa [hne, hv] using hsub

/-- Without cycles one pass in reverse postorder is enough: every node but the entry is visited once, after the
nodes before it, and the result solves the equations of the flow, with or without division. -/
theorem solve_acyclic (p : Problem) (hd : p.direction = .forward) (hp : ∀ k, (p.method.stmt k).IsProper)
    (hreach : ∀ v, p.graph.Path .entry v) (hacyclic : p.graph.Acyclic) (c : Config) (hc : c.strategy = .rpo)
    (hsteps : (Node.all p.method.size).length - 1 ≤ c.maxIterations.steps) :
    ∃ sol, p.solve c = .ok sol ∧ sol.iterations = (Node.all p.method.size).length - 1 ∧
      (∀ v, (sol.visits.toList.map Visit.node).count v = if v = .entry then 0 else 1) ∧
      (∀ v, ∀ u ∈ p.graph.predecessors v, u = .entry ∨ [u, v].Sublist (sol.visits.toList.map Visit.node)) ∧
      p.Equations sol.incoming.get sol.outgoing.get ∧
      p.graph.predecessors .entry = [] ∧ sol.incoming.get .entry = .empty := by
  obtain ⟨m, g, d, checked⟩ := p
  dsimp only at hd hreach hacyclic
  subst hd
  have hl := inOrder_agenda (p := ⟨m, g, .forward, checked⟩) rfl hreach hacyclic
  rw [← hc] at hl
  obtain ⟨sol, h, hvisits, heq, hentry⟩ := solve_of_inOrder (Method.isProper_stmtAt hp) hl hsteps
  have hpreds : g.predecessors .entry = [] := by
    refine List.eq_nil_iff_forall_not_mem.2 fun u hu ↦ ?_
    exact hacyclic .entry (.tail' (hreach u) ((g.mem_predecessors u .entry).1 hu))
  refine ⟨sol, h, ?_, fun v ↦ ?_, fun v u hu ↦ ?_, heq, hpreds, hentry⟩
  · rw [Solution.iterations, ← Array.length_toList, ← List.length_map Visit.node, hvisits, hl.length_eq]
  · rw [hvisits, hl.nodup.count]
    exact (if_congr (hl.mem_iff v) rfl rfl).trans (ite_not _ _ _)
  · have hv : v ≠ .entry := fun he ↦ List.not_mem_nil (hpreds ▸ he ▸ hu)
    exact hvisits ▸ hl.sources v hv u hu

end Problem

def Method.choosing : Method :=
  ((((((empty "choosing" [.int "n"]).push
    (.branch (.binary (.condition .lt) (.var (.int "n")) (.literal (.int 0))) 3)).push
    (.assign (.var (.int "d")) (.literal (.int 2)))).push (.goto 4)).push
    (.assign (.var (.int "d")) (.literal (.int 4)))).push
    (.assign (.var (.int "q")) (.binary (.arithmetic .div) (.var (.int "n")) (.var (.int "d"))))).push
    (.ret (some (.var (.int "q"))))

namespace Problem

theorem choosing_single_pass :
    (∀ k, (Method.choosing.stmt k).IsProper) ∧ (∀ v, (ofMethod .choosing).graph.Path .entry v) ∧
      (ofMethod .choosing).graph.Acyclic ∧ ∃ sol, (ofMethod .choosing).solve (.bounded 7 (by decide)) = .ok sol ∧
      sol.iterations = 7 ∧ (ofMethod .choosing).Equations sol.incoming.get sol.outgoing.get := by
  have hp : ∀ k, (Method.choosing.stmt k).IsProper := by decide
  have hacyclic : (ofMethod .choosing).graph.Acyclic :=
    Graph.acyclic_of_lt (NodeMap.get ⟨0, 7, #v[1, 2, 3, 4, 5, 6]⟩) (by decide +kernel)
  have hfinished : ∀ v ∈ Node.all (ofMethod .choosing).method.size,
      v ∈ (ofMethod .choosing).graph.search.finished := by decide +kernel
  have hreach : ∀ v, (ofMethod .choosing).graph.Path .entry v :=
    fun v ↦ Graph.mem_finished_search.1 (hfinished v v.mem_all)
  obtain ⟨sol, h, hsize, -, -, heq, -⟩ :=
    solve_acyclic (ofMethod .choosing) rfl hp hreach hacyclic (.bounded 7 (by decide)) rfl (by decide)
  exact ⟨hp, hreach, hacyclic, sol, h, hsize, heq⟩

end Problem

end ConstantFlow
