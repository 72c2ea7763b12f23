import ConstantFlow.Proofs.OrderIndependence

namespace ConstantFlow.Problem

variable {p : Problem} {s : State p.method.size} {v : Node p.method.size} {B A : Node p.method.size → Fact}

/-- A node at rest, where `B` and `A` are the facts before and after the nodes in flow direction. -/
structure StableAt (p : Problem) (B A : Node p.method.size → Fact) (v : Node p.method.size) : Prop where
  inflow : ∀ u ∈ p.sources v, (A u).leq (B v) = true
  outflow : ∃ out changed, (p.method.stmtAt v).transfer (B v) .empty = .ok (out, changed) ∧
    (A v).agrees out = true
  revisit : ∃ input out, (p.sources v).foldlM (fun f u ↦ (A u).meetInto p.checked f) (B v) = .ok input ∧
    (p.method.stmtAt v).transfer input (A v) = .ok (out, false) ∧
    input.agrees (B v) = true ∧ out.agrees (A v) = true

theorem Settled.get_merged (h : p.Settled s v) : (p.merged s v).get = (s.before.get v).get :=
  Fact.get_eq_of_le_of_le (merged_le le_rfl h.inflow) (before_le_merged p s v)

theorem Regular.get_output_of_settled (hs : p.Regular s) (hv : v ≠ p.boundary) (h : p.Settled s v) :
    (p.output s v).1.get = (s.after.get v).get :=
  calc (p.output s v).1.get = ((p.method.stmtAt v).effect (p.merged s v)).get := hs.get_output hv
    _ = ((p.method.stmtAt v).effect (s.before.get v)).get := Stmt.get_effect_congr h.get_merged _
    _ = (s.after.get v).get := h.outflow.symm

theorem Regular.stableAt (hs : p.Regular s) (hv : v ≠ p.boundary) (h : p.Settled s v)
    (hp : (p.method.stmtAt v).IsProper) : p.StableAt s.before.get s.after.get v where
  inflow u hu := Fact.leq_iff.2 (h.inflow u hu)
  outflow := by
    obtain ⟨out, changed, ht, hget⟩ := Stmt.transfer_empty hp (s.before.get v)
    exact ⟨out, changed, ht, Fact.agrees_iff.2 (h.outflow.trans hget.symm)⟩
  revisit := by
    have hout := hs.get_output_of_settled hv h
    have hsame : (p.output s v).2 = false := by
      rw [Bool.eq_false_iff]
      exact fun hc ↦ Fact.copyFrom_changed.1 hc hout
    refine ⟨p.merged s v, (p.output s v).1, inflow_eq p s v, ?_, ?_, ?_⟩
    · rw [Stmt.transfer_eq hp, ← hsame]
      rfl
    · exact Fact.agrees_iff.2 h.get_merged
    · exact Fact.agrees_iff.2 hout

theorem ne_boundary_of_mem_visits {strategy : Strategy} (h : p.Reaches (p.start strategy) s) :
    ∀ visit ∈ s.visits, visit.node ≠ p.boundary := by
  refine h.keeps ?_ fun s v s' _ hs hv hvisits ↦ ?_
  · exact fun visit hm ↦ absurd hm (Array.not_mem_empty visit)
  · intro visit hm
    rw [hv.record, Array.mem_push] at hm
    rcases hm with hm | rfl
    · exact hvisits visit hm
    · exact hs.ne_boundary hv

/-- Every node but the boundary is at rest when a solver returns; the boundary has never been visited, and has
its given fact after it and none before it. -/
theorem solve_stable (p : Problem) (hp : ∀ k, (p.method.stmt k).IsProper) (c : Config)
    (sol : Solution p.method.size) (h : p.solve c = .ok sol) :
    (∀ v, v ≠ p.boundary → p.StableAt (sol.before p.direction).get (sol.after p.direction).get v) ∧
      (sol.after p.direction).get p.boundary = boundaryFact p.method.params ∧
      (sol.before p.direction).get p.boundary = .empty ∧
      ∀ visit ∈ sol.visits, visit.node ≠ p.boundary := by
  obtain ⟨s, hreach, hreg, hempty, rfl⟩ := solve_eq_ok h
  rw [Solution.before_ofState, Solution.after_ofState, Solution.visits_ofState]
  refine ⟨fun v hv ↦ ?_, hreg.after_boundary, hreg.before_boundary, ne_boundary_of_mem_visits hreach⟩
  have hsettled := hreg.settled v hv (by simp [hempty])
  exact hreg.stableAt hv hsettled (Method.isProper_stmtAt hp v)

theorem dividing_stable :
    (∀ k, (Method.dividing.stmt k).IsProper) ∧ ∀ strategy, ∃ sol,
      (ofMethod .dividing).solve (.taking strategy) = .ok sol ∧
      (∀ v, v ≠ .entry → (ofMethod .dividing).StableAt sol.incoming.get sol.outgoing.get v) ∧
      (sol.outgoing.get .entry).entries = [(.int "n", .nac)] ∧ (sol.incoming.get .entry).entries = [] ∧
      ∀ visit ∈ sol.visits, visit.node ≠ .entry := by
  have hp : ∀ k, (Method.dividing.stmt k).IsProper := by decide
  have hok (strategy) : ((ofMethod .dividing).solve (.taking strategy)).toOption.any (fun _ ↦ true) = true := by
    cases strategy <;> decide +kernel
  refine ⟨hp, fun strategy ↦ ?_⟩
  obtain ⟨sol, h, -⟩ := exists_solve (hok strategy)
  obtain ⟨hstable, hafter, hbefore, hvisits⟩ := solve_stable (ofMethod .dividing) hp _ sol h
  exact ⟨sol, h, hstable, congrArg Fact.entries hafter, congrArg Fact.entries hbefore, hvisits⟩

end ConstantFlow.Problem
