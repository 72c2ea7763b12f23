import ConstantFlow.Proofs.Variables
import Mathlib.Algebra.Order.BigOperators.Group.List
import Mathlib.Algebra.Order.Ring.Nat

namespace ConstantFlow

namespace Value

variable {a b : Value}

def height : Value → Nat
  | undef => 0
  | const _ => 1
  | nac => 2

theorem height_le_two (a : Value) : a.height ≤ 2 := by cases a <;> simp [height]

theorem height_mono (h : a ≤ b) : a.height ≤ b.height := by
  rcases le_cases h with rfl | rfl | rfl
  · exact Nat.zero_le _
  · exact a.height_le_two
  · exact le_rfl

theorem height_lt (h : a ≤ b) (hne : a ≠ b) : a.height < b.height := by
  rcases le_cases h with rfl | rfl | rfl
  · cases b with
    | undef => exact absurd rfl hne
    | _ => simp [height]
  · cases a with
    | nac => exact absurd rfl hne
    | _ => simp [height]
  · exact absurd rfl hne

end Value

namespace Fact

variable {f g : Fact} {l : List Var}

def height (l : List Var) (f : Fact) : Nat := (l.map fun x ↦ (f.get x).height).sum

theorem height_le (l : List Var) (f : Fact) : f.height l ≤ 2 * l.length := by
  have h := List.sum_le_card_nsmul (l.map fun x ↦ (f.get x).height) 2 fun n hn ↦ by
    obtain ⟨x, -, rfl⟩ := List.mem_map.1 hn
    exact (f.get x).height_le_two
  rwa [List.length_map, Nat.nsmul_eq_mul, Nat.mul_comm] at h

theorem height_mono (h : f ≤ g) (l : List Var) : f.height l ≤ g.height l :=
  List.sum_le_sum fun x _ ↦ Value.height_mono (h x)

theorem height_lt (h : f ≤ g) (hne : f.get ≠ g.get) (hg : g.Within l) : f.height l < g.height l := by
  obtain ⟨x, hx⟩ := Function.ne_iff.1 hne
  have hmem : x ∈ l := by
    by_contra hn
    have hundef := hg.get_eq_undef hn
    exact hx ((Value.le_undef.1 (hundef ▸ h x)).trans hundef.symm)
  exact List.sum_lt_sum _ _ (fun y _ ↦ Value.height_mono (h y)) ⟨x, hmem, Value.height_lt (h x) hx⟩

end Fact

theorem sum_map_add_countP_le {α : Type} {l : List α} {f g : α → Nat} {q : α → Bool}
    (h : ∀ a, g a + (if q a then 1 else 0) ≤ f a) : (l.map g).sum + l.countP q ≤ (l.map f).sum := by
  induction l with
  | nil => simp
  | cons a l ih =>
    have ha := h a
    rw [List.map_cons, List.map_cons, List.sum_cons, List.sum_cons, List.countP_cons]
    omega

namespace Worklist

variable {n : Nat}

theorem length_push_le (w : Worklist n) (v : Node n) : (w.push v).queue.length ≤ w.queue.length + 1 := by
  unfold push
  split <;> simp

theorem length_pushAll_le (w : Worklist n) (l : List (Node n)) :
    (w.pushAll l).queue.length ≤ w.queue.length + l.length := by
  induction l generalizing w with
  | nil => exact le_rfl
  | cons v l ih =>
    have hv := w.length_push_le v
    have hl := ih (w.push v)
    rw [pushAll, List.foldl_cons, ← pushAll, List.length_cons]
    omega

end Worklist

namespace Problem

variable {p : Problem} {s s' : State p.method.size} {u v : Node p.method.size} {strategy : Strategy}

def origin (p : Problem) (e : Node p.method.size × Node p.method.size) : Node p.method.size :=
  match p.direction with
  | .forward => e.1
  | .backward => e.2

theorem length_targets (p : Problem) (v : Node p.method.size) :
    (p.targets v).length = p.graph.edges.countP fun e ↦ p.origin e = v := by
  unfold targets origin
  cases p.direction with
  | forward =>
    rw [Direction.targets, Graph.successors, List.length_filterMap_eq_countP]
    refine List.countP_congr fun e _ ↦ ?_
    by_cases h : e.1 = v <;> simp [h]
  | backward =>
    rw [Direction.targets, Graph.predecessors, List.length_filterMap_eq_countP]
    refine List.countP_congr fun e _ ↦ ?_
    by_cases h : e.2 = v <;> simp [h]

/-- How many more visits to a node may find that the fact after it changes: one for each step that the fact
before it can rise, and one more as long as the two do not agree with the statement. -/
def changesLeft (p : Problem) (s : State p.method.size) (v : Node p.method.size) : Nat :=
  (2 * p.method.trackedVars.length - (s.before.get v).height p.method.trackedVars) +
    if (s.after.get v).agrees ((p.method.stmtAt v).effect (s.before.get v)) then 0 else 1

theorem changesLeft_le (p : Problem) (s : State p.method.size) (v : Node p.method.size) :
    p.changesLeft s v ≤ 2 * p.method.trackedVars.length + 1 := by
  unfold changesLeft
  split <;> omega

theorem changesLeft_of_ne (h : p.Visits s v s') (hu : v ≠ u) : p.changesLeft s' u = p.changesLeft s u := by
  rw [changesLeft, changesLeft, h.before, h.after, if_neg hu, if_neg hu]

theorem changesLeft_visited (hs : p.Regular s) (h : p.Visits s v s') :
    p.changesLeft s' v =
      2 * p.method.trackedVars.length - (p.merged s v).height p.method.trackedVars := by
  have hagree : ((p.output s v).1).agrees ((p.method.stmtAt v).effect (p.merged s v)) = true :=
    Fact.agrees_iff.2 (hs.get_output (hs.ne_boundary h))
  rw [changesLeft, h.before, h.after, if_pos rfl, if_pos rfl, if_pos hagree, Nat.add_zero]

theorem changesLeft_visited_le (hs : p.Regular s) (h : p.Visits s v s') :
    p.changesLeft s' v ≤ p.changesLeft s v := by
  have hrise := Fact.height_mono (before_le_merged p s v) p.method.trackedVars
  rw [changesLeft_visited hs h, changesLeft]
  omega

theorem changesLeft_visited_lt (hs : p.Regular s) (hscope : p.Scoped s) (h : p.Visits s v s')
    (hc : (p.output s v).2 = true) : p.changesLeft s' v < p.changesLeft s v := by
  have hle := before_le_merged p s v
  rw [changesLeft_visited hs h, changesLeft]
  split
  · next hagree =>
    -- the fact after the node was up to date, so it can only change with the fact before it
    have hne : (s.before.get v).get ≠ (p.merged s v).get := by
      intro he
      apply Fact.copyFrom_changed.1 hc
      change (p.output s v).1.get = (s.after.get v).get
      rw [hs.get_output (hs.ne_boundary h), Fact.agrees_iff.1 hagree, Stmt.get_effect_congr he]
    have hrise := Fact.height_lt hle hne (hscope.merged v)
    have htop := (p.merged s v).height_le p.method.trackedVars
    omega
  · have hrise := Fact.height_mono hle p.method.trackedVars
    omega

/-- The visits that are waited for now, and those that changes may still ask for. -/
def potential (p : Problem) (s : State p.method.size) : Nat :=
  s.worklist.queue.length + (p.graph.edges.map fun e ↦ p.changesLeft s (p.origin e)).sum

theorem length_queue_visits (h : p.Visits s v s') : s'.worklist.queue.length + 1 ≤
    s.worklist.queue.length + if (p.output s v).2 then (p.targets v).length else 0 := by
  obtain ⟨rest, hq, -, rfl⟩ := visits_iff.1 h
  have hout : p.output { s with worklist := rest } v = p.output s v := rfl
  rw [visited, hout, Worklist.queue_of_pop? hq, List.length_cons]
  dsimp only
  split
  · have hpush := rest.length_pushAll_le ((p.targets v).filter (· ≠ p.boundary))
    have hfilter := List.length_filter_le (· ≠ p.boundary) (p.targets v)
    omega
  · omega

theorem potential_visits (hs : p.Regular s) (hscope : p.Scoped s) (h : p.Visits s v s') :
    p.potential s' < p.potential s := by
  have hqueue := length_queue_visits h
  unfold potential
  -- a change puts the targets of `v` on the worklist, and each edge to one of them pays for it
  cases hc : (p.output s v).2 with
  | false =>
    have hsum : (p.graph.edges.map fun e ↦ p.changesLeft s' (p.origin e)).sum ≤
        (p.graph.edges.map fun e ↦ p.changesLeft s (p.origin e)).sum := by
      refine List.sum_le_sum fun e _ ↦ ?_
      by_cases he : v = p.origin e
      · exact he ▸ changesLeft_visited_le hs h
      · exact (changesLeft_of_ne h he).le
    simp only [hc, Bool.false_eq_true, if_false] at hqueue
    omega
  | true =>
    have hsum : (p.graph.edges.map fun e ↦ p.changesLeft s' (p.origin e)).sum + (p.targets v).length ≤
        (p.graph.edges.map fun e ↦ p.changesLeft s (p.origin e)).sum := by
      rw [length_targets]
      refine sum_map_add_countP_le fun e ↦ ?_
      by_cases he : p.origin e = v
      · have hlt := changesLeft_visited_lt hs hscope h hc
        simp only [he, decide_true, if_true]
        omega
      · simp [he, changesLeft_of_ne h (Ne.symm he)]
    simp only [hc, if_true] at hqueue
    omega

/-- A visit for every node but the boundary, and for every edge as many as its origin may change. -/
def visitBound (p : Problem) : Nat :=
  ((Node.all p.method.size).length - 1) + p.graph.edges.length * (2 * p.method.trackedVars.length + 1)

theorem Regular.length_queue_le (hs : p.Regular s) :
    s.worklist.queue.length ≤ (Node.all p.method.size).length - 1 := by
  have hsub : s.worklist.queue ⊆ (Node.all p.method.size).erase p.boundary := by
    intro v hv
    have hne : v ≠ p.boundary := fun he ↦ hs.idle (he ▸ hv)
    exact (List.mem_erase_of_ne hne).2 v.mem_all
  rw [← List.length_erase_of_mem p.boundary.mem_all]
  exact hs.sound.nodup.length_le_of_subset hsub

theorem potential_start_le (p : Problem) (strategy : Strategy) :
    p.potential (p.start strategy) ≤ p.visitBound := by
  have hqueue := (regular_start p strategy).length_queue_le
  have hsum := List.sum_le_card_nsmul
    (p.graph.edges.map fun e ↦ p.changesLeft (p.start strategy) (p.origin e))
    (2 * p.method.trackedVars.length + 1) fun n hn ↦ by
      obtain ⟨e, -, rfl⟩ := List.mem_map.1 hn
      exact changesLeft_le p _ _
  rw [List.length_map, Nat.nsmul_eq_mul] at hsum
  unfold potential visitBound
  omega

/-- The visits made and the visits that may still come are never more than the bound. -/
theorem size_visits_add_potential (h : p.Reaches (p.start strategy) s) :
    s.visits.size + p.potential s ≤ p.visitBound := by
  refine h.keeps ?_ fun s v s' hreach hs hv hle ↦ ?_
  · rw [show (p.start strategy).visits.size = 0 from rfl, Nat.zero_add]
    exact potential_start_le p strategy
  · have hless := potential_visits hs (scoped_reaches hreach) hv
    rw [hv.record, Array.size_push]
    omega

theorem size_visits_lt (h : p.Reaches (p.start strategy) s) (hqueue : s.worklist.queue ≠ []) :
    s.visits.size < p.visitBound := by
  have hbound := size_visits_add_potential h
  have hpos := List.length_pos_iff.2 hqueue
  unfold potential at hbound
  omega

theorem solve_eq_error_lt (hp : ∀ k, (p.method.stmt k).IsProper) {c : Config} {failure : Failure p.method.size}
    (h : p.solve c = .error failure) :
    failure.visits.size = c.maxIterations.steps ∧ c.maxIterations.steps < p.visitBound := by
  obtain ⟨s, hreach, hsize, hqueue, rfl⟩ := solve_eq_error_reaches (Method.isProper_stmtAt hp) h
  exact ⟨hsize, hsize ▸ size_visits_lt hreach hqueue⟩

theorem exists_solve_of_visitBound_le (hp : ∀ k, (p.method.stmt k).IsProper) {c : Config}
    (hsteps : p.visitBound ≤ c.maxIterations.steps) : ∃ sol, p.solve c = .ok sol := by
  cases h : p.solve c with
  | ok sol => exact ⟨sol, rfl⟩
  | error failure => exact absurd (solve_eq_error_lt hp h).2 (Nat.not_lt.2 hsteps)

/-- However a run goes on, it makes no more visits than the bound; if it may make that many it returns, and if
it does not return it has been cut off below the bound. -/
theorem solve_within_visitBound (p : Problem) (hp : ∀ k, (p.method.stmt k).IsProper) (c : Config) :
    (∀ s, p.Reaches (p.start c.strategy) s → s.visits.size ≤ p.visitBound) ∧
      (∀ sol, p.solve c = .ok sol → sol.iterations ≤ p.visitBound) ∧
      (∀ failure, p.solve c = .error failure →
        failure.visits.size = c.maxIterations.steps ∧ c.maxIterations.steps < p.visitBound) ∧
      (p.visitBound ≤ c.maxIterations.steps → ∃ sol, p.solve c = .ok sol) := by
  have hrun : ∀ s, p.Reaches (p.start c.strategy) s → s.visits.size ≤ p.visitBound := by
    intro s hreach
    have h := size_visits_add_potential hreach
    omega
  refine ⟨hrun, fun sol h ↦ ?_, fun failure h ↦ solve_eq_error_lt hp h, exists_solve_of_visitBound_le hp⟩
  obtain ⟨s, hreach, -, -, rfl⟩ := solve_eq_ok h
  rw [Solution.iterations, Solution.visits_ofState]
  exact hrun s hreach

end Problem

def Method.euclid : Method :=
  ((((((empty "euclid" [.int "a", .int "b"]).push
    (.branch (.binary (.condition .eq) (.var (.int "b")) (.literal (.int 0))) 5)).push
    (.assign (.var (.int "r")) (.binary (.arithmetic .rem) (.var (.int "a")) (.var (.int "b"))))).push
    (.assign (.var (.int "a")) (.var (.int "b")))).push
    (.assign (.var (.int "b")) (.var (.int "r")))).push (.goto 0)).push (.ret (some (.var (.int "a"))))

namespace Problem

theorem euclid_within_visitBound :
    (∀ k, (Method.euclid.stmt k).IsProper) ∧ (ofMethod .euclid).visitBound = 63 ∧
      ∀ strategy, ∃ sol, (ofMethod .euclid).solve
          { Config.default with strategy := strategy, maxIterations := .count 63 (by decide) } = .ok sol ∧
        sol.iterations ≤ 63 := by
  have hp : ∀ k, (Method.euclid.stmt k).IsProper := by decide
  have hbound : (ofMethod .euclid).visitBound = 63 := by decide +kernel
  refine ⟨hp, hbound, fun strategy ↦ ?_⟩
  obtain ⟨-, hvisits, -, hreturns⟩ := solve_within_visitBound (ofMethod .euclid) hp
    { Config.default with strategy := strategy, maxIterations := .count 63 (by decide) }
  obtain ⟨sol, h⟩ := hreturns hbound.le
  exact ⟨sol, h, hbound ▸ hvisits sol h⟩

end Problem

end ConstantFlow
