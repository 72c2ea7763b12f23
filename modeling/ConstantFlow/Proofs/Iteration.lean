import ConstantFlow.Proofs.Evaluation
import ConstantFlow.Proofs.Search
import ConstantFlow.Proofs.Worklist
import ConstantFlow.Solver.Basic
import Mathlib.Logic.Relation

namespace ConstantFlow

theorem Method.forall_tracked {m : Method} {P : Exp → Prop}
    (h : ∀ k x e, (m.stmt k).tracked? = some (x, e) → P e) (v : Node m.size) :
    ∀ x e, (m.stmtAt v).tracked? = some (x, e) → P e := by
  intro x e hd
  cases v with
  | entry => cases hd
  | exit => cases hd
  | stmt k => exact h k x e hd

theorem Method.isProper_stmtAt {m : Method} (h : ∀ k, (m.stmt k).IsProper) (v : Node m.size) :
    (m.stmtAt v).IsProper :=
  forall_tracked h v

namespace Solution

variable {n : Nat}

def before (sol : Solution n) : Direction → NodeMap n Fact
  | .forward => sol.incoming
  | .backward => sol.outgoing

def after (sol : Solution n) : Direction → NodeMap n Fact
  | .forward => sol.outgoing
  | .backward => sol.incoming

theorem before_ofState (d : Direction) (s : State n) : (ofState d s).before d = s.before := by cases d <;> rfl

theorem after_ofState (d : Direction) (s : State n) : (ofState d s).after d = s.after := by cases d <;> rfl

theorem visits_ofState (d : Direction) (s : State n) : (ofState d s).visits = s.visits := by cases d <;> rfl

end Solution

namespace Problem

variable {p : Problem} {s s' : State p.method.size} {u v : Node p.method.size}

theorem mem_targets : v ∈ p.targets u ↔ u ∈ p.sources v := by
  unfold targets sources
  cases p.direction with
  | forward => exact (p.graph.mem_successors u v).trans (p.graph.mem_predecessors u v).symm
  | backward => exact (p.graph.mem_predecessors v u).trans (p.graph.mem_successors v u).symm

/-- The fact before a node after the facts that flow into it have been met. -/
def merged (p : Problem) (s : State p.method.size) (v : Node p.method.size) : Fact :=
  Fact.mergeAll ((p.sources v).map s.after.get) (s.before.get v)

theorem inflow_eq (p : Problem) (s : State p.method.size) (v : Node p.method.size) :
    p.inflow s v = .ok (p.merged s v) := by
  unfold inflow merged
  generalize p.sources v = l
  generalize s.before.get v = t
  induction l generalizing t with
  | nil => rfl
  | cons u l ih =>
    rw [List.foldlM_cons, Fact.meetInto_eq]
    exact ih _

def output (p : Problem) (s : State p.method.size) (v : Node p.method.size) : Fact × Bool :=
  (s.after.get v).copyFrom ((p.method.stmtAt v).effect (p.merged s v))

def visited (p : Problem) (s : State p.method.size) (v : Node p.method.size) : State p.method.size where
  before := s.before.set v (p.merged s v)
  after := s.after.set v (p.output s v).1
  worklist :=
    if (p.output s v).2 then s.worklist.pushAll ((p.targets v).filter (· ≠ p.boundary)) else s.worklist
  visits := s.visits.push
    ⟨v, (p.output s v).2, (p.output s v).1, (p.method.stmtAt v).warnings (p.merged s v)⟩

theorem visit_eq (p : Problem) (s : State p.method.size) (v : Node p.method.size) :
    p.visit s v =
      match (p.method.stmtAt v).refusal? with
      | some e => .error ⟨.value e, s.visits, (p.method.stmtAt v).warnings (p.merged s v)⟩
      | none => .ok (p.visited s v) := by
  unfold visit Stmt.transfer
  rw [inflow_eq]
  dsimp only
  cases (p.method.stmtAt v).refusal? <;> rfl

/-- One round of a run: the first node that waits is taken and visited. -/
def Visits (p : Problem) (s : State p.method.size) (v : Node p.method.size) (s' : State p.method.size) : Prop :=
  ∃ rest, s.worklist.pop? = some (v, rest) ∧ p.visit { s with worklist := rest } v = .ok s'

def Reaches (p : Problem) : State p.method.size → State p.method.size → Prop :=
  Relation.ReflTransGen fun s s' ↦ ∃ v, p.Visits s v s'

theorem visits_iff : p.Visits s v s' ↔ ∃ rest, s.worklist.pop? = some (v, rest) ∧
    (p.method.stmtAt v).IsProper ∧ s' = p.visited { s with worklist := rest } v := by
  refine exists_congr fun rest ↦ and_congr_right fun _ ↦ ?_
  rw [visit_eq, ← Stmt.refusal?_eq_none]
  cases (p.method.stmtAt v).refusal? with
  | none => simp [eq_comm]
  | some e => simp

theorem run_eq_ok {bound : Nat} (h : p.run bound s = .ok s') : p.Reaches s s' ∧ s'.worklist.queue = [] := by
  induction bound generalizing s with
  | zero =>
    unfold run at h
    split at h
    · next hq =>
      cases h
      exact ⟨.refl, List.isEmpty_iff.1 hq⟩
    · cases h
  | succ bound ih =>
    unfold run at h
    split at h
    · next hq =>
      cases h
      exact ⟨.refl, Worklist.pop?_eq_none.1 hq⟩
    · next v rest hq =>
      split at h
      · cases h
      · next s₁ hv =>
        obtain ⟨hr, he⟩ := ih h
        exact ⟨.head ⟨v, rest, hq, hv⟩ hr, he⟩

/-- With whole numbers only, the one way for a run to stop early is to use up its bound: it gets as far as
that, and nodes still wait. -/
theorem run_eq_error {bound : Nat} {f : Failure p.method.size} (hp : ∀ v, (p.method.stmtAt v).IsProper)
    (h : p.run bound s = .error f) :
    ∃ s', p.Reaches s s' ∧ s'.visits.size = s.visits.size + bound ∧ s'.worklist.queue ≠ [] ∧
      f = ⟨.unconverged s'.visits.size s'.worklist.size, s'.visits, []⟩ := by
  induction bound generalizing s with
  | zero =>
    unfold run at h
    split at h
    · cases h
    · next hq =>
      cases h
      exact ⟨s, .refl, rfl, fun he ↦ hq (List.isEmpty_iff.2 he), rfl⟩
  | succ bound ih =>
    unfold run at h
    split at h
    · cases h
    · next v rest hq =>
      rw [visit_eq, Stmt.refusal?_eq_none.2 (hp v)] at h
      obtain ⟨s', hr, hsize, hrest⟩ := ih h
      refine ⟨s', .head ⟨v, visits_iff.2 ⟨rest, hq, hp v, rfl⟩⟩ hr, ?_, hrest⟩
      rw [hsize, visited, Array.size_push, Nat.add_assoc, Nat.add_comm 1]

/-- A node agrees with the nodes before it and with its own statement. -/
structure Settled (p : Problem) (s : State p.method.size) (v : Node p.method.size) : Prop where
  inflow : ∀ u ∈ p.sources v, s.after.get u ≤ s.before.get v
  outflow : (s.after.get v).get = ((p.method.stmtAt v).effect (s.before.get v)).get

/-- Only nodes that wait may be out of date, and the boundary never waits. -/
structure Regular (p : Problem) (s : State p.method.size) : Prop where
  sound : s.worklist.Sound
  idle : p.boundary ∉ s.worklist.queue
  before_boundary : s.before.get p.boundary = .empty
  after_boundary : s.after.get p.boundary = boundaryFact p.method.params
  keys : ∀ v, v ≠ p.boundary →
    ∀ x ∈ (s.after.get v).keys, x ∈ ((p.method.stmtAt v).effect (s.before.get v)).keys
  settled : ∀ v, v ≠ p.boundary → v ∉ s.worklist.queue → p.Settled s v

theorem before_le_merged (p : Problem) (s : State p.method.size) (v : Node p.method.size) :
    s.before.get v ≤ p.merged s v := Fact.le_mergeAll _ _

theorem after_le_merged (h : u ∈ p.sources v) : s.after.get u ≤ p.merged s v :=
  Fact.le_mergeAll_of_mem (List.mem_map_of_mem h) _

theorem merged_le {f : Fact} (hb : s.before.get v ≤ f) (ha : ∀ u ∈ p.sources v, s.after.get u ≤ f) :
    p.merged s v ≤ f := by
  refine Fact.mergeAll_le (fun g hg ↦ ?_) hb
  obtain ⟨u, hu, rfl⟩ := List.mem_map.1 hg
  exact ha u hu

theorem Regular.keys_merged (hs : p.Regular s) (hv : v ≠ p.boundary) :
    ∀ x ∈ (s.after.get v).keys, x ∈ ((p.method.stmtAt v).effect (p.merged s v)).keys :=
  fun x hx ↦ Stmt.keys_effect_mono _ (fun _ ↦ Fact.mem_keys_mergeAll_of_mem) x (hs.keys v hv x hx)

theorem Regular.get_output (hs : p.Regular s) (hv : v ≠ p.boundary) :
    (p.output s v).1.get = ((p.method.stmtAt v).effect (p.merged s v)).get :=
  Fact.get_copyFrom_of_keys (hs.keys_merged hv)

theorem Visits.before (h : p.Visits s v s') (u : Node p.method.size) :
    s'.before.get u = if v = u then p.merged s v else s.before.get u := by
  obtain ⟨rest, -, -, rfl⟩ := visits_iff.1 h
  exact NodeMap.get_set ..

theorem Visits.after (h : p.Visits s v s') (u : Node p.method.size) :
    s'.after.get u = if v = u then (p.output s v).1 else s.after.get u := by
  obtain ⟨rest, -, -, rfl⟩ := visits_iff.1 h
  exact NodeMap.get_set ..

theorem Visits.record (h : p.Visits s v s') : s'.visits = s.visits.push
    ⟨v, (p.output s v).2, (p.output s v).1, (p.method.stmtAt v).warnings (p.merged s v)⟩ := by
  obtain ⟨rest, -, -, rfl⟩ := visits_iff.1 h
  rfl

theorem Regular.ne_boundary (hs : p.Regular s) (h : p.Visits s v s') : v ≠ p.boundary := by
  obtain ⟨rest, hq, -⟩ := h
  rintro rfl
  exact hs.idle (Worklist.queue_of_pop? hq ▸ List.mem_cons_self)

theorem Regular.sound_visits (hs : p.Regular s) (h : p.Visits s v s') : s'.worklist.Sound := by
  obtain ⟨rest, hq, -, rfl⟩ := visits_iff.1 h
  have hrest := hs.sound.pop hq
  unfold visited
  dsimp only
  split
  · exact hrest.pushAll _
  · exact hrest

theorem Regular.mem_queue (hs : p.Regular s) (h : p.Visits s v s') :
    u ∈ s'.worklist.queue ↔
      u ∈ s.worklist.queue ∧ u ≠ v ∨ (p.output s v).2 = true ∧ v ∈ p.sources u ∧ u ≠ p.boundary := by
  obtain ⟨rest, hq, -, rfl⟩ := visits_iff.1 h
  have hout : p.output { s with worklist := rest } v = p.output s v := rfl
  rw [visited, hout, ← Worklist.mem_rest hs.sound hq]
  cases hc : (p.output s v).2 with
  | false => simp
  | true => simp [Worklist.mem_pushAll (hs.sound.pop hq), mem_targets]

theorem Regular.get_after_source (hs : p.Regular s) (h : p.Visits s v s') (hu : u ≠ p.boundary)
    (huq : u ∉ s'.worklist.queue) {w : Node p.method.size} (hw : w ∈ p.sources u) :
    (s'.after.get w).get = (s.after.get w).get := by
  rw [hs.mem_queue h] at huq
  rw [h.after]
  split
  · next he =>
    subst he
    by_contra hne
    exact huq (.inr ⟨Fact.copyFrom_changed.2 hne, hw, hu⟩)
  · rfl

theorem Regular.settled_visits (hs : p.Regular s) (h : p.Visits s v s') (hu : u ≠ p.boundary)
    (huq : u ∉ s'.worklist.queue) : p.Settled s' u := by
  have hafter {w} (hw : w ∈ p.sources u) : s'.after.get w ≤ s.after.get w :=
    Fact.le_of_get_eq (hs.get_after_source h hu huq hw)
  by_cases he : v = u
  · subst he
    refine ⟨fun w hw ↦ ?_, ?_⟩
    · rw [h.before, if_pos rfl]
      exact (hafter hw).trans (after_le_merged hw)
    · rw [h.before, h.after, if_pos rfl, if_pos rfl, hs.get_output hu]
  · have hset := hs.settled u hu fun hq ↦ huq ((hs.mem_queue h).2 (.inl ⟨hq, Ne.symm he⟩))
    refine ⟨fun w hw ↦ ?_, ?_⟩
    · rw [h.before, if_neg he]
      exact (hafter hw).trans (hset.inflow w hw)
    · rw [h.before, h.after, if_neg he, if_neg he]
      exact hset.outflow

theorem Regular.visits (hs : p.Regular s) (h : p.Visits s v s') : p.Regular s' where
  sound := hs.sound_visits h
  idle := by
    rw [hs.mem_queue h]
    rintro (hq | hq)
    · exact hs.idle hq.1
    · exact hq.2.2 rfl
  before_boundary := by rw [h.before, if_neg (hs.ne_boundary h), hs.before_boundary]
  after_boundary := by rw [h.after, if_neg (hs.ne_boundary h), hs.after_boundary]
  keys u hu x hx := by
    rw [h.after] at hx
    rw [h.before]
    split at hx
    · next he =>
      subst he
      rw [if_pos rfl]
      exact (Fact.mem_keys_copyFrom.1 hx).elim id (hs.keys_merged hu x)
    · next he =>
      rw [if_neg he]
      exact hs.keys u hu x hx
  settled _ hu huq := hs.settled_visits h hu huq

theorem mem_agenda (p : Problem) (strategy : Strategy) (v : Node p.method.size) :
    v ∈ p.agenda strategy ↔ v ≠ p.boundary := by
  have hall := v.mem_all
  have hrpo := p.graph.mem_reversePostorder v
  unfold agenda
  cases strategy with
  | fifo => simp [hall]
  | rpo => cases p.direction <;> simp [hrpo]

theorem regular_start (p : Problem) (strategy : Strategy) : p.Regular (p.start strategy) := by
  have hafter (v) : (p.start strategy).after.get v =
      if p.boundary = v then boundaryFact p.method.params else .empty := by
    rw [start, NodeMap.get_set, NodeMap.get_const]
  have hqueue (v) : v ∈ (p.start strategy).worklist.queue ↔ v ≠ p.boundary := by
    rw [start, Worklist.mem_pushAll Worklist.sound_empty, mem_agenda]
    simp [Worklist.empty]
  refine ⟨Worklist.sound_empty.pushAll _, ?_, NodeMap.get_const _ _, ?_, ?_, ?_⟩
  · rw [hqueue]
    exact fun h ↦ h rfl
  · rw [hafter, if_pos rfl]
  · intro v hv x hx
    rw [hafter, if_neg (Ne.symm hv)] at hx
    cases hx
  · exact fun v hv hq ↦ absurd ((hqueue v).2 hv) hq

theorem Regular.reaches (hs : p.Regular s) (h : p.Reaches s s') : p.Regular s' := by
  induction h with
  | refl => exact hs
  | tail _ hstep ih =>
    obtain ⟨v, hv⟩ := hstep
    exact ih.visits hv

/-- What holds at the start of a run and is kept by each visit holds all along the run. -/
@[elab_as_elim]
theorem Reaches.keeps {P : State p.method.size → Prop} {strategy : Strategy}
    (h : p.Reaches (p.start strategy) s) (start : P (p.start strategy))
    (step : ∀ s v s', p.Reaches (p.start strategy) s → p.Regular s → p.Visits s v s' → P s → P s') : P s := by
  induction h with
  | refl => exact start
  | tail hreach hstep ih =>
    obtain ⟨v, hv⟩ := hstep
    exact step _ v _ hreach ((regular_start p strategy).reaches hreach) hv ih

theorem solve_eq_ok {c : Config} {sol : Solution p.method.size} (h : p.solve c = .ok sol) :
    ∃ s, p.Reaches (p.start c.strategy) s ∧ p.Regular s ∧ s.worklist.queue = [] ∧
      sol = .ofState p.direction s := by
  unfold solve at h
  cases hr : p.run c.maxIterations.steps (p.start c.strategy) with
  | error f => rw [hr] at h; cases h
  | ok s =>
    rw [hr] at h
    cases h
    obtain ⟨hreach, hempty⟩ := run_eq_ok hr
    exact ⟨s, hreach, (regular_start p c.strategy).reaches hreach, hempty, rfl⟩

theorem solve_eq_error_reaches {c : Config} {f : Failure p.method.size}
    (hp : ∀ v, (p.method.stmtAt v).IsProper) (h : p.solve c = .error f) :
    ∃ s, p.Reaches (p.start c.strategy) s ∧ s.visits.size = c.maxIterations.steps ∧
      s.worklist.queue ≠ [] ∧ f = ⟨.unconverged s.visits.size s.worklist.size, s.visits, []⟩ := by
  unfold solve at h
  cases hr : p.run c.maxIterations.steps (p.start c.strategy) with
  | ok s => rw [hr] at h; cases h
  | error f' =>
    rw [hr] at h
    cases h
    obtain ⟨s, hreach, hsize, hrest⟩ := run_eq_error hp hr
    refine ⟨s, hreach, ?_, hrest⟩
    rw [hsize, start, Array.size_empty, Nat.zero_add]

theorem solve_eq_error {c : Config} {f : Failure p.method.size} (hp : ∀ v, (p.method.stmtAt v).IsProper)
    (h : p.solve c = .error f) : ∃ pending, f.fault = .unconverged c.maxIterations.steps pending := by
  obtain ⟨s, -, hsize, -, rfl⟩ := solve_eq_error_reaches hp h
  exact ⟨s.worklist.size, by rw [hsize]⟩

def ofMethod (m : Method) : Problem := ⟨m, m.graph.toOption.getD .empty, .forward, true⟩

theorem exists_solve {c : Config} {q : Solution p.method.size → Bool} (h : (p.solve c).toOption.any q = true) :
    ∃ sol, p.solve c = .ok sol ∧ q sol = true := by
  cases hs : p.solve c with
  | error f => rw [hs] at h; cases h
  | ok sol =>
    rw [hs] at h
    exact ⟨sol, rfl, h⟩

end Problem

end ConstantFlow
