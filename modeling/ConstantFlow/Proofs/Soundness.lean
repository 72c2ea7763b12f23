import ConstantFlow.Proofs.ControlFlow
import ConstantFlow.Proofs.Iteration

namespace ConstantFlow

variable {f g : Fact} {σ σ' : Store}

/-- A fact leaves room for the numbers in the registers. -/
def Fact.Covers (f : Fact) (σ : Store) : Prop := ∀ x n, σ x = some n → .const n ≤ f.get x

theorem Fact.Covers.mono (h : f.Covers σ) (hle : f ≤ g) : g.Covers σ := fun x n hx ↦ (h x n hx).trans (hle x)

theorem Exp.value_of_yields {e : Exp} {n : Int32} (h : e.Yields σ n) (hf : f.Covers σ) : .const n ≤ e.value f := by
  induction h with
  | literal c => exact le_rfl
  | var hx => exact hf _ _ hx
  | binary _ _ hop iha ihb => exact BinaryOp.combine_of_yields iha ihb hop
  | unopened n he =>
    rw [value_unopened he]
    exact Value.le_nac _

theorem Stmt.effect_covers {s : Stmt} (h : s.Writes σ σ') (hf : f.Covers σ) : (s.effect f).Covers σ' := by
  unfold Writes at h
  cases hd : s.tracked? with
  | none =>
    rw [hd] at h
    obtain rfl := h
    rwa [effect_untracked hd]
  | some d =>
    obtain ⟨x, e⟩ := d
    rw [hd] at h
    obtain ⟨n, hn, rfl⟩ := h
    intro y c hy
    rw [get_effect_tracked hd]
    by_cases hxy : x = y
    · subst hxy
      rw [Function.update_self] at hy
      cases hy
      rw [if_pos rfl]
      exact Exp.value_of_yields hn hf
    · rw [Function.update_of_ne (Ne.symm hxy)] at hy
      rw [if_neg hxy]
      exact hf y c hy

theorem get_boundaryFact {params : List Var} {x : Var} (h : x ∈ params) (ht : x.isTracked = true) :
    (boundaryFact params).get x = .nac := by
  have hfold (l : List Var) (f : Fact) (hx : x ∈ l ∨ f.get x = .nac) :
      (l.foldl (fun f y ↦ f.set y .nac) f).get x = .nac := by
    induction l generalizing f with
    | nil => exact hx.resolve_left List.not_mem_nil
    | cons y l ih =>
      refine ih _ ?_
      by_cases hy : y = x
      · exact .inr (by rw [Fact.get_set, if_pos hy])
      · rw [Fact.get_set, if_neg hy]
        exact hx.imp (fun hx ↦ (List.mem_cons.1 hx).resolve_left (Ne.symm hy)) id
  exact hfold _ _ (.inl (List.mem_filter.2 ⟨h, ht⟩))

theorem boundaryFact_covers {m : Method} (h : m.Enters σ) : (boundaryFact m.params).Covers σ := by
  intro x n hx
  obtain ⟨hmem, ht⟩ := (h x).1 (by rw [hx]; rfl)
  rw [get_boundaryFact hmem ht]
  exact Value.le_nac _

/-- What is left of a forward solution once the run that found it is forgotten. -/
structure Solution.Flows {m : Method} (sol : Solution m.size) (g : Graph m.size) : Prop where
  entry : sol.outgoing.get .entry = boundaryFact m.params
  edge : ∀ u v, (u, v) ∈ g.edges → v ≠ .entry → sol.outgoing.get u ≤ sol.incoming.get v
  stmt : ∀ v, v ≠ .entry → (sol.outgoing.get v).get = ((m.stmtAt v).effect (sol.incoming.get v)).get

theorem Solution.flows_of_solve {m : Method} {g : Graph m.size} {checked : Bool} {c : Config}
    {sol : Solution m.size} (h : (⟨m, g, .forward, checked⟩ : Problem).solve c = .ok sol) : sol.Flows g := by
  obtain ⟨s, -, hreg, hempty, rfl⟩ := Problem.solve_eq_ok h
  have hset (v) (hv : v ≠ .entry) := hreg.settled v hv (by simp [hempty])
  refine ⟨hreg.after_boundary, fun u v he hv ↦ ?_, fun v hv ↦ (hset v hv).outflow⟩
  exact (hset v hv).inflow u ((g.mem_predecessors u v).2 he)

namespace Method

variable {m : Method} {g : Graph m.size} {sol : Solution m.size} {i j : Nat} {σ₀ : Store}

theorem covers_of_step (hsol : sol.Flows g) (hstep : m.Step ⟨i, σ⟩ ⟨j, σ'⟩)
    (h : (sol.incoming.get (m.site i)).Covers σ) : (sol.outgoing.get (m.site i)).Covers σ' := by
  cases hstep with
  | @step _ _ k _ _ hk hw hg =>
    rw [site_eq hk] at h ⊢
    have hout := hsol.stmt (.stmt k) nofun
    exact (Stmt.effect_covers hw h).mono (Fact.le_of_get_eq hout.symm)

theorem covers_of_reaches (hsol : sol.Flows g) (hentry : (.entry, m.site 0) ∈ g.edges)
    (hedge : ∀ i k j, m.code[i]? = some k → m.Goes i (m.stmt k) j → (.stmt k, m.site j) ∈ g.edges)
    (hσ₀ : m.Enters σ₀) {r : Moment} (hr : m.Reaches σ₀ r) :
    (sol.incoming.get (m.site r.position)).Covers r.store := by
  induction hr with
  | refl =>
    have hle := hsol.edge _ _ hentry (m.site_ne_entry 0)
    rw [hsol.entry] at hle
    exact (boundaryFact_covers hσ₀).mono hle
  | tail _ hstep ih =>
    have hout := covers_of_step hsol hstep ih
    cases hstep with
    | @step i j k _ _ hk hw hg =>
      have hle := hsol.edge _ _ (hedge i k j hk hg) (m.site_ne_entry j)
      rw [site_eq hk] at hout
      exact hout.mono hle

/-- The facts of a solution hold along every run of a method whose jumps are in range: before each position
that is reached, the end included, and after each step; and what a solver reports as a constant is the number
in the register. The one way for a solver not to return is to run out of iterations. -/
theorem solve_sound (m : Method) (hm : m.JumpsInRange) (hp : ∀ k, (m.stmt k).IsProper) :
    ∃ g, m.graph = .ok g ∧ ∀ (checked : Bool) (c : Config),
      (∀ failure, (⟨m, g, .forward, checked⟩ : Problem).solve c = .error failure →
        ∃ pending, failure.fault = .unconverged c.maxIterations.steps pending) ∧
      ∀ sol, (⟨m, g, .forward, checked⟩ : Problem).solve c = .ok sol → ∀ σ₀, m.Enters σ₀ →
        (sol.outgoing.get .entry).Covers σ₀ ∧
        ∀ i σ, m.Reaches σ₀ ⟨i, σ⟩ → (sol.incoming.get (m.site i)).Covers σ ∧
          ∀ j σ', m.Step ⟨i, σ⟩ ⟨j, σ'⟩ → (sol.outgoing.get (m.site i)).Covers σ' ∧
            ∀ x n d, sol.constantAt (m.site i) x = some d → σ' x = some n → n = d := by
  obtain ⟨g, hg, hentry, hedge⟩ := exists_graph hm
  refine ⟨g, hg, fun checked c ↦ ⟨fun failure h ↦ ?_, fun sol h σ₀ hσ₀ ↦ ?_⟩⟩
  · refine Problem.solve_eq_error (fun v ↦ ?_) h
    cases v with
    | stmt k => exact hp k
    | _ => exact nofun
  · have hsol := Solution.flows_of_solve h
    refine ⟨?_, fun i σ hr ↦ ?_⟩
    · rw [hsol.entry]
      exact boundaryFact_covers hσ₀
    have hin := covers_of_reaches hsol hentry hedge hσ₀ hr
    refine ⟨hin, fun j σ' hstep ↦ ?_⟩
    have hout := covers_of_step hsol hstep hin
    refine ⟨hout, fun x n d hd hx ↦ ?_⟩
    have hle := hout x n hx
    rw [Value.eq_const_of_constant? hd] at hle
    exact Value.eq_of_const_le hle

/-- Shifts `i` down until it is not above `n`, each time twice by the same statement; then divides. -/
def descending : Method :=
  ((((((empty "descending" [.int "n"]).push (.assign (.var (.int "i")) (.literal (.int 8)))).push
    (.assign (.var (.int "i")) (.binary (.shift .shr) (.var (.int "i")) (.literal (.int 1))))).repeatStmt
    (Fin.last 1)).push (.branch (.binary (.condition .gt) (.var (.int "i")) (.var (.int "n"))) 1)).push
    (.assign (.var (.int "q")) (.binary (.arithmetic .div) (.literal (.int (-7))) (.literal (.int 2)))))

theorem descending_shifts {i : Nat} {x : Int32} (hi : descending.code[i]? = some (1 : Fin 4)) (σ : Store) :
    descending.Step ⟨i, Function.update σ (.int "i") (some x)⟩
      ⟨i + 1, Function.update σ (.int "i") (some (ShiftOp.run .shr x 1))⟩ := by
  have hx : Function.update σ (.int "i") (some x) (.int "i") = some x := Function.update_self ..
  exact .step hi ⟨_, .binary (.var hx) (.literal 1) rfl, (Function.update_idem ..).symm⟩ rfl

theorem descending_reaches (σ₀ : Store) : descending.Reaches σ₀
    ⟨5, Function.update (Function.update σ₀ (.int "i") (some 0)) (.int "q") (some (-3))⟩ := by
  have hstart : descending.code[0]? = some (0 : Fin 4) := rfl
  have htest : descending.code[3]? = some (2 : Fin 4) := rfl
  have hend : descending.code[4]? = some (3 : Fin 4) := rfl
  have hset : descending.Step ⟨0, σ₀⟩ ⟨1, Function.update σ₀ (.int "i") (some 8)⟩ :=
    .step hstart ⟨8, .literal 8, rfl⟩ rfl
  have hround (x : Int32) : Relation.ReflTransGen descending.Step ⟨1, Function.update σ₀ (.int "i") (some x)⟩
      ⟨3, Function.update σ₀ (.int "i") (some (ShiftOp.run .shr (ShiftOp.run .shr x 1) 1))⟩ :=
    .tail (.single (descending_shifts rfl σ₀)) (descending_shifts rfl σ₀)
  have hback (σ : Store) : descending.Step ⟨3, σ⟩ ⟨1, σ⟩ := .step htest rfl (.inl rfl)
  have hon (σ : Store) : descending.Step ⟨3, σ⟩ ⟨4, σ⟩ := .step htest rfl (.inr rfl)
  have hquotient : ArithmeticOp.run .div (-7) 2 = some (-3) := by decide
  have hdivide (σ : Store) : descending.Step ⟨4, σ⟩ ⟨5, Function.update σ (.int "q") (some (-3))⟩ :=
    .step hend ⟨-3, .binary (.literal (-7)) (.literal 2) hquotient, rfl⟩ rfl
  -- one round takes eight down to two, and after the branch back another takes two down to zero
  have htwo := (hround 8).head hset
  have hzero := (htwo.tail (hback _)).trans (hround 2)
  exact (hzero.tail (hon _)).tail (hdivide _)

/-- Whatever the parameter is, the quotient at the end of a run is rounded toward zero, as the solver says; and with
one for a parameter the run takes the branch back before it ends. -/
theorem descending_quotient :
    descending.JumpsInRange ∧ (∀ k, (descending.stmt k).IsProper) ∧
      (∃ sol, (Problem.ofMethod descending).solve .default = .ok sol ∧
        (sol.incoming.get .exit).get (.int "q") = .const (-3) ∧
        ∀ σ₀, descending.Enters σ₀ → ∀ σ, descending.Reaches σ₀ ⟨5, σ⟩ → (sol.incoming.get .exit).Covers σ ∧
          ∀ n, σ (.int "q") = some n → n = -3) ∧
      ∃ σ₀ σ, descending.Enters σ₀ ∧ σ₀ (.int "n") = some 1 ∧ descending.Reaches σ₀ ⟨5, σ⟩ ∧
        σ (.int "i") = some 0 ∧ σ (.int "q") = some (-3) := by
  have hm : descending.JumpsInRange := by decide
  have hp : ∀ k, (descending.stmt k).IsProper := by decide
  have hknown : ((Problem.ofMethod descending).solve .default).toOption.any (fun sol ↦
      (sol.incoming.get .exit).get (.int "q") = .const (-3)) = true := by decide +kernel
  obtain ⟨g, hg, hsound⟩ := solve_sound descending hm hp
  obtain rfl : (Problem.ofMethod descending).graph = g := Except.ok.inj hg
  obtain ⟨sol, h, hq⟩ := Problem.exists_solve hknown
  refine ⟨hm, hp, ⟨sol, h, of_decide_eq_true hq, fun σ₀ hσ₀ σ hr ↦ ?_⟩, ?_⟩
  · have hcovers : (sol.incoming.get .exit).Covers σ := (((hsound true .default).2 sol h σ₀ hσ₀).2 5 σ hr).1
    exact ⟨hcovers, fun n hn ↦ Value.eq_of_const_le ((hcovers _ n hn).trans (of_decide_eq_true hq).le)⟩
  · let σ₀ : Store := Function.update (fun _ ↦ none) (.int "n") (some 1)
    have henters : descending.Enters σ₀ := by
      intro x
      by_cases hx : x = .int "n"
      · subst hx
        exact iff_of_true rfl ⟨List.mem_singleton_self _, rfl⟩
      · rw [show σ₀ x = none from Function.update_of_ne hx _ _]
        exact iff_of_false Bool.false_ne_true fun ⟨hmem, _⟩ ↦ hx (List.mem_singleton.1 hmem)
    exact ⟨σ₀, _, henters, rfl, descending_reaches σ₀, rfl, rfl⟩

end Method

end ConstantFlow
