import ConstantFlow.Proofs.LeastSolution

namespace ConstantFlow

namespace Stmt

variable {s : Stmt}

theorem effect_monotone (hs : ∀ x e, s.tracked? = some (x, e) → e.hasDivision = false) : Monotone s.effect :=
  fun _ _ h ↦ effect_le h fun x e hd ↦
    Exp.value_le_of_not_collapses h (Exp.not_collapses_of_not_hasDivision (hs x e hd))

end Stmt

namespace Problem

variable {p : Problem} {B A : Node p.method.size → Fact}

/-- The equations of the flow: the boundary has its given fact, every other node what flows into it from its
sources, and after it what its statement makes of that. -/
structure Equations (p : Problem) (B A : Node p.method.size → Fact) : Prop where
  boundary : (A p.boundary).agrees (boundaryFact p.method.params) = true
  inflow : ∀ v, v ≠ p.boundary → ∀ x, (B v).get x = Value.meets ((p.sources v).map fun u ↦ (A u).get x)
  outflow : ∀ v, v ≠ p.boundary → ∃ out changed,
    (p.method.stmtAt v).transfer (B v) .empty = .ok (out, changed) ∧ (A v).agrees out = true

theorem equations_iff (hp : ∀ v, (p.method.stmtAt v).IsProper) :
    p.Equations B A ↔ p.SolvesBy (fun v ↦ (p.method.stmtAt v).effect) B A := by
  have hout (v) : (∃ out changed, (p.method.stmtAt v).transfer (B v) .empty = .ok (out, changed) ∧
      (A v).agrees out = true) ↔ (A v).get = ((p.method.stmtAt v).effect (B v)).get := by
    obtain ⟨out, changed, ht, hget⟩ := Stmt.transfer_empty (hp v) (B v)
    rw [← hget, ht]
    constructor
    · intro h
      obtain ⟨out', changed', he, ha⟩ := h
      cases he
      exact Fact.agrees_iff.1 ha
    · exact fun h ↦ ⟨out, changed, rfl, Fact.agrees_iff.2 h⟩
  constructor
  · exact fun h ↦ ⟨Fact.agrees_iff.1 h.boundary, h.inflow, fun v hv ↦ (hout v).1 (h.outflow v hv)⟩
  · exact fun h ↦ ⟨Fact.agrees_iff.2 h.boundary, h.inflow, fun v hv ↦ (hout v).2 (h.outflow v hv)⟩

/-- Without division a solver returns the least solution of the equations, and no other. -/
theorem solve_least (p : Problem)
    (hp : ∀ k x e, (p.method.stmt k).tracked? = some (x, e) → e.improper? = none ∧ e.hasDivision = false)
    (c : Config) (sol : Solution p.method.size) (h : p.solve c = .ok sol) :
    p.Equations (sol.before p.direction).get (sol.after p.direction).get ∧
      (∀ B A, p.Equations B A → ∀ v, ((sol.before p.direction).get v).leq (B v) = true ∧
        ((sol.after p.direction).get v).leq (A v) = true) ∧
      ∀ c' sol', p.solve c' = .ok sol' → ∀ v, (sol.incoming.get v).agrees (sol'.incoming.get v) = true ∧
        (sol.outgoing.get v).agrees (sol'.outgoing.get v) = true := by
  have hproper : ∀ v, (p.method.stmtAt v).IsProper :=
    Method.forall_tracked fun k x e hd ↦ (hp k x e hd).1
  have hT : ∀ v, Monotone (p.method.stmtAt v).effect := fun v ↦
    Stmt.effect_monotone (Method.forall_tracked (fun k x e hd ↦ (hp k x e hd).2) v)
  have hf : ∀ strategy, p.Follows (fun v ↦ (p.method.stmtAt v).effect) strategy := fun _ _ _ _ _ _ ↦ rfl
  obtain ⟨hsol, hleast⟩ := least_of_follows hT (hf _) h
  refine ⟨(equations_iff hproper).2 hsol, fun B A heq v ↦ ?_, fun c' sol' h' ↦ ?_⟩
  · obtain ⟨hbefore, hafter⟩ := hleast B A ((equations_iff hproper).1 heq) v
    exact ⟨Fact.leq_iff.2 hbefore, Fact.leq_iff.2 hafter⟩
  · exact agrees_of_follows hT (hf _) (hf _) h h'

end Problem

def Method.counting : Method :=
  (((((empty "counting" [.int "n"]).push (.assign (.var (.int "i")) (.literal (.int 0)))).push
    (.branch (.binary (.condition .ge) (.var (.int "i")) (.var (.int "n"))) 4)).push
    (.assign (.var (.int "i")) (.binary (.arithmetic .add) (.var (.int "i")) (.literal (.int 1))))).push
    (.goto 1)).push (.ret (some (.var (.int "i"))))

namespace Problem

theorem counting_least :
    (∀ k x e, (Method.counting.stmt k).tracked? = some (x, e) → e.improper? = none ∧ e.hasDivision = false) ∧
      ∃ sol, (ofMethod .counting).solve .default = .ok sol ∧
        (ofMethod .counting).Equations (sol.before .forward).get (sol.after .forward).get ∧
        ∀ B A, (ofMethod .counting).Equations B A → ∀ v, ((sol.before .forward).get v).leq (B v) = true ∧
          ((sol.after .forward).get v).leq (A v) = true := by
  have hp : ∀ k x e, (Method.counting.stmt k).tracked? = some (x, e) →
      e.improper? = none ∧ e.hasDivision = false := by
    have hall : ∀ k : Fin 5, ((Method.counting.stmt k).tracked?.all fun d ↦
        d.2.improper?.isNone && !d.2.hasDivision) = true := by decide
    intro k x e hd
    have hk := Stmt.forall_tracked_of_all (P := fun e ↦ e.improper?.isNone && !e.hasDivision) (hall k) x e hd
    simpa using hk
  have hok : ((ofMethod .counting).solve .default).toOption.any (fun _ ↦ true) = true := by decide +kernel
  obtain ⟨sol, h, -⟩ := exists_solve hok
  obtain ⟨heq, hleast, -⟩ := solve_least (ofMethod .counting) hp .default sol h
  exact ⟨hp, sol, h, heq, hleast⟩

end Problem

end ConstantFlow
