import ConstantFlow.Proofs.Termination

namespace ConstantFlow

namespace Problem

variable {p : Problem} {s s' : State p.method.size} {n k bound : Nat} {strategy : Strategy}

inductive Rounds (p : Problem) : Nat → State p.method.size → State p.method.size → Prop
  | zero (s : State p.method.size) : Rounds p 0 s s
  | cons {n : Nat} {v : Node p.method.size} {s t s' : State p.method.size} :
      p.Visits s v t → Rounds p n t s' → Rounds p (n + 1) s s'

theorem Rounds.reaches (h : p.Rounds n s s') : p.Reaches s s' := by
  induction h with
  | zero s => exact .refl
  | cons hv _ ih => exact .head ⟨_, hv⟩ ih

theorem Rounds.size_visits (h : p.Rounds n s s') : s'.visits.size = s.visits.size + n := by
  induction h with
  | zero s => rfl
  | cons hv _ ih =>
    rw [ih, hv.record, Array.size_push]
    omega

theorem Rounds.take_visits (h : p.Rounds n s s') : s'.visits.take s.visits.size = s.visits := by
  induction h with
  | zero s => simp
  | @cons n v s t s' hv hrest ih =>
    have hsize : s.visits.size < t.visits.size := by
      rw [hv.record, Array.size_push]
      exact Nat.lt_succ_self _
    calc s'.visits.take s.visits.size
        = (s'.visits.take t.visits.size).take s.visits.size := by
          rw [Array.take_eq_extract, Array.take_eq_extract, Array.take_eq_extract, Array.extract_extract]
          congr 1
          omega
      _ = t.visits.take s.visits.size := by rw [ih]
      _ = s.visits := by
          rw [hv.record]
          simp

theorem Rounds.split (h : p.Rounds (n + k) s s') : ∃ t, p.Rounds n s t ∧ p.Rounds k t s' := by
  induction n generalizing s with
  | zero => exact ⟨s, .zero s, by rwa [Nat.zero_add] at h⟩
  | succ n ih =>
    rw [Nat.add_right_comm] at h
    cases h with
    | cons hv hrest =>
      obtain ⟨t, hn, hk⟩ := ih hrest
      exact ⟨t, .cons hv hn, hk⟩

theorem Rounds.queue_ne_nil (h : p.Rounds (n + 1) s s') : s.worklist.queue ≠ [] := by
  cases h with
  | cons hv _ =>
    obtain ⟨rest, hq, -⟩ := hv
    rw [Worklist.queue_of_pop? hq]
    exact List.cons_ne_nil _ _

theorem Rounds.run_add (h : p.Rounds n s s') (bound : Nat) : p.run (n + bound) s = p.run bound s' := by
  induction h with
  | zero s => rw [Nat.zero_add]
  | cons hv _ ih =>
    obtain ⟨rest, hq, hvisit⟩ := hv
    rw [Nat.add_right_comm, run, hq]
    dsimp only
    rw [hvisit]
    exact ih

theorem run_of_queue_eq_nil (h : s.worklist.queue = []) (bound : Nat) : p.run bound s = .ok s := by
  cases bound with
  | zero => rw [run, h, List.isEmpty_nil, if_pos rfl]
  | succ bound => rw [run, Worklist.pop?_eq_none.2 h]

theorem run_zero_of_queue_ne_nil (h : s.worklist.queue ≠ []) :
    p.run 0 s = .error ⟨.unconverged s.visits.size s.worklist.queue.length, s.visits, []⟩ := by
  rw [run, if_neg (fun he ↦ h (List.isEmpty_iff.1 he))]
  rfl

theorem exists_rounds (h : p.run bound s = .ok s') : ∃ n, p.Rounds n s s' ∧ s'.worklist.queue = [] := by
  obtain ⟨hreach, hempty⟩ := run_eq_ok h
  clear h
  induction hreach using Relation.ReflTransGen.head_induction_on with
  | refl => exact ⟨0, .zero _, hempty⟩
  | head hv _ ih =>
    obtain ⟨v, hv⟩ := hv
    obtain ⟨n, hn, -⟩ := ih
    exact ⟨n + 1, .cons hv hn, hempty⟩

theorem run_visitBound (hp : ∀ v, (p.method.stmtAt v).IsProper) (strategy : Strategy) :
    ∃ s, p.run p.visitBound (p.start strategy) = .ok s := by
  cases h : p.run p.visitBound (p.start strategy) with
  | ok s => exact ⟨s, rfl⟩
  | error f =>
    obtain ⟨s, hreach, hsize, hqueue, -⟩ := run_eq_error hp h
    have hlt := size_visits_lt hreach hqueue
    omega

/-- Each order of visits has one run, and the bound decides only whether the run is seen to its end. If it is
not, the failure shows the visits so far and how many nodes wait, at least one and never the boundary. -/
theorem solve_cut_off (p : Problem) (hp : ∀ k, (p.method.stmt k).IsProper) (strategy : Strategy) :
    ∃ sol : Solution p.method.size, ∀ c : Config, c.strategy = strategy →
      (sol.iterations ≤ c.maxIterations.steps → p.solve c = .ok sol) ∧
      (c.maxIterations.steps < sol.iterations → ∃ s, p.Reaches (p.start strategy) s ∧
        s.visits = sol.visits.take c.maxIterations.steps ∧ s.visits.size = c.maxIterations.steps ∧
        s.worklist.queue.Nodup ∧ 1 ≤ s.worklist.queue.length ∧
        s.worklist.queue.length ≤ (Node.all p.method.size).length - 1 ∧
        p.solve c = .error ⟨.unconverged c.maxIterations.steps s.worklist.queue.length, s.visits, []⟩) := by
  obtain ⟨last, hlast⟩ := run_visitBound (Method.isProper_stmtAt hp) strategy
  obtain ⟨n, hrounds, hempty⟩ := exists_rounds hlast
  have hsize : last.visits.size = n := by
    rw [hrounds.size_visits]
    exact Nat.zero_add n
  refine ⟨.ofState p.direction last, fun c hc ↦ ?_⟩
  subst hc
  rw [Solution.iterations, Solution.visits_ofState, hsize]
  constructor
  · intro hle
    obtain ⟨k, hk⟩ := Nat.exists_eq_add_of_le hle
    rw [solve, hk, hrounds.run_add, run_of_queue_eq_nil hempty]
    rfl
  · intro hlt
    obtain ⟨k, rfl⟩ := Nat.exists_eq_add_of_lt hlt
    rw [Nat.add_assoc] at hrounds
    obtain ⟨s, hs, hrest⟩ := hrounds.split
    have hvisits : s.visits.size = c.maxIterations.steps := by
      rw [hs.size_visits]
      exact Nat.zero_add _
    have hreg := (regular_start p c.strategy).reaches hs.reaches
    refine ⟨s, hs.reaches, ?_, hvisits, hreg.sound.nodup, List.length_pos_iff.2 hrest.queue_ne_nil,
      hreg.length_queue_le, ?_⟩
    · rw [← hvisits, hrest.take_visits]
    · have hrun := hs.run_add 0
      rw [Nat.add_zero] at hrun
      rw [solve, hrun, run_zero_of_queue_ne_nil hrest.queue_ne_nil, hvisits]
      rfl

end Problem

def Config.bounded (n : Nat) (h : 0 < n) : Config := { Config.default with maxIterations := .count n h }

namespace Problem

theorem euclid_cut_off :
    (∀ k, (Method.euclid.stmt k).IsProper) ∧ ∃ sol pending,
      (ofMethod .euclid).solve (.bounded 11 (by decide)) = .ok sol ∧ sol.iterations = 11 ∧
      1 ≤ pending ∧ pending ≤ 7 ∧ (ofMethod .euclid).solve (.bounded 10 (by decide)) =
        .error ⟨.unconverged 10 pending, sol.visits.take 10, []⟩ := by
  have hp : ∀ k, (Method.euclid.stmt k).IsProper := by decide
  have hreturns : ((ofMethod .euclid).solve (.bounded 11 (by decide))).toOption.any (fun sol ↦
      sol.iterations = 11) = true := by decide +kernel
  obtain ⟨sol, h, hsize⟩ := exists_solve hreturns
  obtain ⟨sol', hsol⟩ := solve_cut_off (ofMethod .euclid) hp .rpo
  have hle : sol'.iterations ≤ 11 := by
    by_contra hn
    obtain ⟨s, -, -, -, -, -, -, herror⟩ := (hsol (.bounded 11 (by decide)) rfl).2 (Nat.lt_of_not_le hn)
    exact nomatch h.symm.trans herror
  have heq := (hsol (.bounded 11 (by decide)) rfl).1 hle
  obtain rfl : sol = sol' := Except.ok.inj (h.symm.trans heq)
  have hiter : sol.iterations = 11 := of_decide_eq_true hsize
  have hlt : 10 < sol.iterations := by omega
  obtain ⟨s, -, hvisits, -, -, hpos, htop, herror⟩ := (hsol (.bounded 10 (by decide)) rfl).2 hlt
  rw [hvisits] at herror
  exact ⟨hp, sol, s.worklist.queue.length, h, hiter, hpos, htop, herror⟩

end Problem

end ConstantFlow
