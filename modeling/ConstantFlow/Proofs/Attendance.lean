import ConstantFlow.Proofs.Mirror
import ConstantFlow.Proofs.Stability
import Mathlib.Data.List.Perm.Basic

namespace ConstantFlow

namespace Problem

variable {p : Problem} {s s' : State p.method.size} {u v : Node p.method.size} {strategy : Strategy}

def VisitedBy (s : State p.method.size) (v : Node p.method.size) : Prop := ∃ visit ∈ s.visits, visit.node = v

theorem Visits.visitedBy_iff (h : p.Visits s v s') : VisitedBy s' u ↔ VisitedBy s u ∨ u = v := by
  simp only [VisitedBy, h.record, Array.mem_push, or_and_right, exists_or, exists_eq_left, eq_comm (a := u)]

/-- Entry number `i` of the log stands for the round of the run that came after `i` others: its node was taken and its
statement carried out on what had flowed in, and the entry holds the outcome. -/
def Logs (p : Problem) (strategy : Strategy) (s : State p.method.size) (i : Nat) (visit : Visit p.method.size) : Prop :=
  ∃ t t' input, p.Reaches (p.start strategy) t ∧ t.visits.size = i ∧ p.Visits t visit.node t' ∧ p.Reaches t' s ∧
    p.inflow t visit.node = .ok input ∧
    (p.method.stmtAt visit.node).transfer input (t.after.get visit.node) = .ok (visit.output, visit.changed) ∧
    t'.before.get visit.node = input ∧ t'.after.get visit.node = visit.output

theorem Visits.logs (h : p.Visits s v s') (hreach : p.Reaches (p.start strategy) s) :
    p.Logs strategy s' s.visits.size
      ⟨v, (p.output s v).2, (p.output s v).1, (p.method.stmtAt v).warnings (p.merged s v)⟩ := by
  obtain ⟨rest, -, hproper, -⟩ := visits_iff.1 h
  refine ⟨s, s', p.merged s v, hreach, rfl, h, .refl, inflow_eq p s v, Stmt.transfer_eq hproper _ _, ?_, ?_⟩
  · rw [h.before, if_pos rfl]
  · rw [h.after, if_pos rfl]

theorem logs_reaches (h : p.Reaches (p.start strategy) s) :
    ∀ i visit, s.visits[i]? = some visit → p.Logs strategy s i visit := by
  refine h.keeps (fun i visit hi ↦ ?_) fun s v s' hreach _ hv hlogs i visit hi ↦ ?_
  · cases hi
  · rw [hv.record, Array.getElem?_push] at hi
    split at hi
    · next hlast =>
      obtain rfl := Option.some.inj hi
      exact hlast ▸ hv.logs hreach
    · obtain ⟨t, t', input, ht, hsize, hvisit, hlater, hrest⟩ := hlogs i visit hi
      exact ⟨t, t', input, ht, hsize, hvisit, hlater.tail ⟨v, hv⟩, hrest⟩

/-- What holds whenever the loop looks for the next node. -/
structure Attends (p : Problem) (s : State p.method.size) : Prop where
  nodup : s.worklist.queue.Nodup
  waiting_iff : ∀ v, s.worklist.waiting.get v = true ↔ v ∈ s.worklist.queue
  boundary_idle : p.boundary ∉ s.worklist.queue
  boundary_unvisited : ¬ VisitedBy s p.boundary
  visited_or_waits : ∀ v, v ≠ p.boundary → VisitedBy s v ∨ v ∈ s.worklist.queue

theorem nodup_agenda (p : Problem) (strategy : Strategy) : (p.agenda strategy).Nodup := by
  have hall := Node.nodup_all p.method.size
  have hrpo := p.graph.nodup_reversePostorder
  unfold agenda
  apply List.Nodup.filter
  cases strategy with
  | fifo => exact hall
  | rpo =>
    cases p.direction with
    | forward => exact hrpo
    | backward => exact List.nodup_reverse.2 hrpo

theorem agenda_perm (p : Problem) (strategy : Strategy) :
    (p.agenda strategy).Perm ((Node.all p.method.size).filter (· ≠ p.boundary)) := by
  rw [List.perm_ext_iff_of_nodup (nodup_agenda p strategy) ((Node.nodup_all _).filter _)]
  intro v
  simp [mem_agenda, v.mem_all]

theorem queue_start (p : Problem) (strategy : Strategy) :
    (p.start strategy).worklist.queue = p.agenda strategy :=
  Worklist.queue_pushAll Worklist.sound_empty (nodup_agenda p strategy)

theorem attends_start (p : Problem) (strategy : Strategy) : p.Attends (p.start strategy) where
  nodup := queue_start p strategy ▸ nodup_agenda p strategy
  waiting_iff := (regular_start p strategy).sound.waiting_iff
  boundary_idle := (regular_start p strategy).idle
  boundary_unvisited := by simp [VisitedBy, start]
  visited_or_waits v hv := by
    rw [queue_start, mem_agenda]
    exact .inr hv

theorem Attends.visits (ha : p.Attends s) (hs : p.Regular s) (h : p.Visits s v s') : p.Attends s' where
  nodup := (hs.visits h).sound.nodup
  waiting_iff := (hs.visits h).sound.waiting_iff
  boundary_idle := (hs.visits h).idle
  boundary_unvisited := by
    rw [h.visitedBy_iff]
    rintro (hvisited | hb)
    · exact ha.boundary_unvisited hvisited
    · exact hs.ne_boundary h hb.symm
  visited_or_waits u hu := by
    rw [h.visitedBy_iff, hs.mem_queue h]
    -- the one node that has left the queue is the visited one
    by_cases hv : u = v
    · exact .inl (.inr hv)
    · obtain hvisited | hwaits := ha.visited_or_waits u hu
      · exact .inl (.inl hvisited)
      · exact .inr (.inl ⟨hwaits, hv⟩)

theorem attends_reaches (h : p.Reaches (p.start strategy) s) : p.Attends s :=
  h.keeps (attends_start p strategy) fun _ _ _ _ hs hv ha ↦ ha.visits hs hv

theorem Attends.visitedBy_iff (ha : p.Attends s) (hempty : s.worklist.queue = []) :
    VisitedBy s v ↔ v ≠ p.boundary := by
  constructor
  · rintro h rfl
    exact ha.boundary_unvisited h
  · intro hv
    simpa [hempty] using ha.visited_or_waits v hv

/-- The worklist starts as a listing of all nodes but the boundary, and every state of a run attends to them and has a log
of its rounds. A solver stops in such a state: if it returns, it has visited all of them and never the boundary; otherwise some of them wait. -/
theorem solve_attends (p : Problem) (hp : ∀ k, (p.method.stmt k).IsProper) (c : Config) :
    (p.start c.strategy).worklist.queue = p.agenda c.strategy ∧
      (p.agenda c.strategy).Perm ((Node.all p.method.size).filter (· ≠ p.boundary)) ∧
      (∀ s, p.Reaches (p.start c.strategy) s →
        p.Attends s ∧ ∀ i visit, s.visits[i]? = some visit → p.Logs c.strategy s i visit) ∧
      ∃ s, p.Reaches (p.start c.strategy) s ∧
        ((p.solve c = .ok (.ofState p.direction s) ∧ s.worklist.queue = [] ∧
            ∀ v, VisitedBy s v ↔ v ≠ p.boundary) ∨
          p.solve c = .error ⟨.unconverged s.visits.size s.worklist.size, s.visits, []⟩ ∧ s.worklist.queue ≠ []) := by
  refine ⟨queue_start p c.strategy, agenda_perm p c.strategy, fun s hs ↦ ⟨attends_reaches hs, logs_reaches hs⟩, ?_⟩
  cases h : p.solve c with
  | ok sol =>
    obtain ⟨s, hreach, -, hempty, rfl⟩ := solve_eq_ok h
    exact ⟨s, hreach, .inl ⟨rfl, hempty, fun v ↦ (attends_reaches hreach).visitedBy_iff hempty⟩⟩
  | error f =>
    obtain ⟨s, hreach, -, hqueue, rfl⟩ := solve_eq_error_reaches (Method.isProper_stmtAt hp) h
    exact ⟨s, hreach, .inr ⟨rfl, hqueue⟩⟩

/-- Against the flow of control, over edges that lead back to the exit and into themselves; one statement is cut off. -/
def knotted : Problem :=
  ⟨.halving, .ofEdges ([(.entry, .stmt 0), (.stmt 0, .stmt 1), (.stmt 1, .stmt 1), (.stmt 1, .stmt 0), (.stmt 1, .exit),
    (.exit, .stmt 3), (.stmt 3, .exit)] : List (Node 4 × Node 4)), .backward, true⟩

theorem knotted_attends :
    (∀ k, (knotted.method.stmt k).IsProper) ∧
      (knotted.start .rpo).worklist.queue = knotted.agenda .rpo ∧
      ∃ s, knotted.solve .default = .ok (.ofState .backward s) ∧ knotted.Attends s ∧ 5 < s.visits.size ∧
        ∀ v, VisitedBy s v ↔ v ≠ .exit := by
  have hp : ∀ k, (knotted.method.stmt k).IsProper := by decide
  have hreturns : (knotted.solve .default).toOption.any (fun sol ↦ 5 < sol.visits.size) = true := by decide +kernel
  obtain ⟨sol, hsol, hsize⟩ := exists_solve hreturns
  obtain ⟨hqueue, -, hattends, s, hreach, hend⟩ := solve_attends knotted hp .default
  obtain ⟨hok, -, hvisited⟩ | ⟨herror, -⟩ := hend
  · obtain rfl := Except.ok.inj (hsol.symm.trans hok)
    exact ⟨hp, hqueue, s, hok, (hattends s hreach).1, of_decide_eq_true hsize, hvisited⟩
  · cases hsol.symm.trans herror

end Problem

end ConstantFlow
