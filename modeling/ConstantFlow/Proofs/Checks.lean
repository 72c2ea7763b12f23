import ConstantFlow.Proofs.Iteration
import ConstantFlow.Proofs.Unbounded

namespace ConstantFlow

inductive CheckError
  | value (e : ValueError)
  | fold (e : FoldError)
  | operands (e : NonConstant)

theorem Literal.constOfDatum_datum (l : Literal) :
    Value.constOfDatum l.datum = if l.isProper then .ok l.value else .error (.notAnInteger l.datum) := by
  cases l with
  | int c => exact Value.constOfDatum_toInt c
  | truth b => rfl
  | real x h => rfl

namespace Exp

def foldConstantsChecked : Exp → Value → Value → Except CheckError Value
  | binary op _ _, .const x, .const y => (op.fold? x.toInt y.toInt).mapError .fold
  | e, v, w => .error (.operands ⟨v, w, e⟩)

theorem foldConstantsChecked_eq (e : Exp) (v w : Value) :
    e.foldConstantsChecked v w = (e.foldConstants v w).mapError .operands := by
  fun_cases foldConstantsChecked e v w with
  | case1 op a b x y =>
    rw [BinaryOp.fold?_eq]
    rfl
  | case2 e v w h =>
    rw [foldConstants]
    · rfl
    · exact h

/-- Evaluation with all checks made. -/
def evaluateChecked (f : Fact) : Exp → Except CheckError Value
  | literal l => (Value.constOfDatum l.datum).mapError .value
  | var x => .ok (f.get x)
  | binary op a b => do
    let v ← a.evaluateChecked f
    let w ← b.evaluateChecked f
    if v.isConst && w.isConst then (binary op a b).foldConstantsChecked v w else return op.combine v w
  | _ => .ok .nac

theorem combineChecked_eq (op : BinaryOp) (a b : Exp) (v w : Value) :
    (if v.isConst && w.isConst then (binary op a b).foldConstantsChecked v w else .ok (op.combine v w)) =
      .ok (op.combine v w) := by
  rw [foldConstantsChecked_eq]
  cases v with
  | const x => cases w <;> rfl
  | undef | nac => rfl

/-- The one check of an evaluation that can fail is that of a literal. -/
theorem evaluateChecked_eq (e : Exp) (f : Fact) :
    e.evaluateChecked f = (e.evaluate f).mapError .value := by
  unfold evaluate
  induction e using induction_visited with
  | literal l =>
    rw [evaluateChecked, Literal.constOfDatum_datum, improper?]
    cases l.isProper <;> rfl
  | var x => rfl
  | binary op a b iha ihb =>
    rw [evaluateChecked, iha, ihb, improper?, value]
    cases ha : a.improper? with
    | some l => rfl
    | none =>
      cases hb : b.improper? with
      | some l => rfl
      | none => exact combineChecked_eq op a b _ _
  | unopened e he =>
    cases e with
    | literal _ | var _ | binary _ _ _ => cases he
    | _ => rfl

end Exp

namespace Stmt

def transferChecked (s : Stmt) (input output : Fact) : Except CheckError (Fact × Bool) := do
  match s.tracked? with
  | some (x, e) => return output.copyFrom (input.set x (← e.evaluateChecked input))
  | none => return output.copyFrom input

theorem transferChecked_eq (s : Stmt) (input output : Fact) :
    s.transferChecked input output = (s.transfer input output).mapError .value := by
  unfold transferChecked transfer refusal? effect
  cases s.tracked? with
  | none => rfl
  | some d =>
    obtain ⟨x, e⟩ := d
    dsimp only
    rw [Exp.evaluateChecked_eq, Exp.evaluate]
    cases e.improper? <;> rfl

end Stmt

def Config.checking (c : Config) (s : Setting) : Config := { c with checkInvariants := s }

namespace Problem

variable {m : Method} (g : Graph m.size) (d : Direction) (a b : Bool)

theorem inflow_checked (s : State m.size) (v : Node m.size) :
    inflow ⟨m, g, d, a⟩ s v = inflow ⟨m, g, d, b⟩ s v :=
  calc inflow ⟨m, g, d, a⟩ s v = .ok (merged ⟨m, g, d, a⟩ s v) := inflow_eq ⟨m, g, d, a⟩ s v
    _ = inflow ⟨m, g, d, b⟩ s v := (inflow_eq ⟨m, g, d, b⟩ s v).symm

theorem visit_checked (s : State m.size) (v : Node m.size) :
    visit ⟨m, g, d, a⟩ s v = visit ⟨m, g, d, b⟩ s v := by
  unfold visit
  rw [inflow_checked g d a b]

theorem run_checked (bound : Nat) (s : State m.size) :
    run ⟨m, g, d, a⟩ bound s = run ⟨m, g, d, b⟩ bound s := by
  induction bound generalizing s with
  | zero => rfl
  | succ bound ih =>
    rw [run, run]
    cases s.worklist.pop? with
    | none => rfl
    | some next =>
      obtain ⟨v, rest⟩ := next
      dsimp only
      rw [visit_checked g d a b]
      cases visit ⟨m, g, d, b⟩ { s with worklist := rest } v with
      | error failure => rfl
      | ok s' => exact ih s'

theorem solve_checked (c : Config) : solve ⟨m, g, d, a⟩ c = solve ⟨m, g, d, b⟩ c :=
  congrArg (Except.map (Solution.ofState d)) (run_checked g d a b _ _)

/-- Whether checks are asked for makes no difference to what a solver returns, nor to where it is cut off; and
no check that a run may come to ever fails. -/
theorem solve_regardless_of_checks (hp : ∀ k, (m.stmt k).IsProper) (own : Option Config) (analysis : Config)
    (x y : Setting) :
    (ofConfig m g d (analysis.checking x)).solve (solverConfig own (analysis.checking x)) =
        (ofConfig m g d (analysis.checking y)).solve (solverConfig own (analysis.checking y)) ∧
      (∀ failure, (ofConfig m g d (analysis.checking x)).solve (solverConfig own (analysis.checking x)) =
          .error failure →
        ∃ pending, failure.fault = .unconverged (solverConfig own analysis).maxIterations.steps pending) ∧
      ∀ v input output, (m.stmtAt v).transferChecked input output =
        .ok (output.copyFrom ((m.stmtAt v).effect input)) := by
  have hsteps : (solverConfig own (analysis.checking x)).maxIterations =
      (solverConfig own analysis).maxIterations := by
    cases own <;> rfl
  refine ⟨?_, fun failure h ↦ ?_, fun v input output ↦ ?_⟩
  · cases own with
    | none => exact solve_checked g d x.isTrue y.isTrue analysis
    | some c => exact solve_checked g d x.isTrue y.isTrue c
  · rw [← hsteps]
    exact solve_eq_error (Method.isProper_stmtAt hp) h
  · rw [Stmt.transferChecked_eq, Stmt.transfer_eq (Method.isProper_stmtAt hp v)]
    rfl

end Problem

/-- Goes round through a sum that a register keeps as its least number at first. -/
def Method.overflowing : Method :=
  ((((empty "overflowing" []).push (.assign (.var (.int "x")) (.literal (.int 2147483647)))).push
    (.assign (.var (.int "x")) (.binary (.arithmetic .add) (.var (.int "x")) (.literal (.int 1))))).push
    (.branch (.binary (.condition .lt) (.var (.int "x")) (.literal (.int 0))) 1)).push
    (.ret (some (.var (.int "x"))))

def Config.brief : Config := { Config.default with maxIterations := .count 1 (by decide) }

namespace Problem

def ofChecking (m : Method) (on : Bool) : Problem :=
  .ofConfig m (m.graph.toOption.getD .empty) .forward (Config.default.checking (.datum (.truth on)))

/-- One run that goes on to its end, and one that is cut off after its first visit. -/
theorem overflowing_regardless_of_checks :
    (∀ k, (Method.overflowing.stmt k).IsProper) ∧
      (∃ sol, (ofChecking .overflowing true).solve (Config.default.checking (.datum (.truth true))) = .ok sol ∧
        (ofChecking .overflowing false).solve (Config.default.checking (.datum (.truth false))) = .ok sol ∧
        (sol.incoming.get .exit).get (.int "x") = .nac) ∧
      ∃ failure pending, (ofChecking .overflowing true).solve .brief = .error failure ∧
        (ofChecking .overflowing false).solve .brief = .error failure ∧
        failure.fault = .unconverged 1 pending := by
  have hp : ∀ k, (Method.overflowing.stmt k).IsProper := by decide
  have hrun (own : Option Config) := solve_regardless_of_checks
    (Method.overflowing.graph.toOption.getD .empty) .forward hp own .default
    (.datum (.truth true)) (.datum (.truth false))
  refine ⟨hp, ?_, ?_⟩
  · obtain ⟨hsame, -⟩ := hrun none
    obtain ⟨sol, h, hx⟩ := exists_solve (p := ofChecking .overflowing true)
      (c := Config.default.checking (.datum (.truth true)))
      (q := fun sol ↦ (sol.incoming.get .exit).get (.int "x") = .nac) (by decide +kernel)
    exact ⟨sol, h, hsame.symm.trans h, of_decide_eq_true hx⟩
  · obtain ⟨hsame, hfault, -⟩ := hrun (some .brief)
    have hcut : ((ofChecking .overflowing true).solve .brief).toOption.isNone = true := by decide +kernel
    cases h : (ofChecking .overflowing true).solve .brief with
    | ok sol =>
      rw [h] at hcut
      cases hcut
    | error failure =>
      obtain ⟨pending, hpending⟩ := hfault failure h
      exact ⟨failure, pending, rfl, hsame.symm.trans h, hpending⟩

end Problem

end ConstantFlow
