import ConstantFlow.Proofs.OrderIndependence

namespace ConstantFlow

variable {n : Nat} {α : Type}

def Direction.opposite : Direction → Direction
  | forward => backward
  | backward => forward

namespace Node

variable {v w : Node n}

def mirror : Node n → Node n
  | entry => exit
  | exit => entry
  | stmt k => stmt k

@[simp] theorem mirror_mirror (v : Node n) : v.mirror.mirror = v := by cases v <;> rfl

@[simp] theorem mirror_inj : v.mirror = w.mirror ↔ v = w := by
  constructor
  · intro h
    rw [← v.mirror_mirror, h, mirror_mirror]
  · exact congrArg mirror

theorem filter_map_stmt {b : Node n} (hb : ∀ k, stmt k ≠ b) (l : List (Fin n)) :
    (l.map stmt).filter (· ≠ b) = l.map stmt := by
  refine List.filter_eq_self.2 fun v hv ↦ ?_
  obtain ⟨k, -, rfl⟩ := List.mem_map.1 hv
  exact decide_eq_true (hb k)

theorem filter_all_entry (n : Nat) : (all n).filter (· ≠ .entry) = .exit :: (List.finRange n).map .stmt := by
  rw [all, List.filter_cons_of_neg (by simp), List.filter_cons_of_pos (by simp),
    filter_map_stmt (by simp)]

theorem filter_all_exit (n : Nat) : (all n).filter (· ≠ .exit) = .entry :: (List.finRange n).map .stmt := by
  rw [all, List.filter_cons_of_pos (by simp), List.filter_cons_of_neg (by simp),
    filter_map_stmt (by simp)]

end Node

namespace NodeMap

def mirror (f : NodeMap n α) : NodeMap n α := ⟨f.exit, f.entry, f.stmts⟩

@[simp] theorem get_mirror (f : NodeMap n α) (v : Node n) : f.mirror.get v.mirror = f.get v := by cases v <;> rfl

theorem mirror_set (f : NodeMap n α) (v : Node n) (a : α) : (f.set v a).mirror = f.mirror.set v.mirror a := by
  cases v <;> rfl

end NodeMap

namespace Worklist

variable {w : Worklist n} {v : Node n}

def mirror (w : Worklist n) : Worklist n := ⟨w.queue.map Node.mirror, w.waiting.mirror⟩

theorem mirror_push (w : Worklist n) (v : Node n) : (w.push v).mirror = w.mirror.push v.mirror := by
  have hget : w.mirror.waiting.get v.mirror = w.waiting.get v := w.waiting.get_mirror v
  unfold push
  rw [hget]
  split
  · rfl
  · simp only [mirror, List.map_append, List.map_cons, List.map_nil, NodeMap.mirror_set]

theorem mirror_pushAll (w : Worklist n) (l : List (Node n)) :
    (w.pushAll l).mirror = w.mirror.pushAll (l.map Node.mirror) := by
  induction l generalizing w with
  | nil => rfl
  | cons v l ih =>
    rw [pushAll, List.foldl_cons, ← pushAll, ih, mirror_push]
    rfl

theorem mirror_pop? (w : Worklist n) : w.mirror.pop? = w.pop?.map fun e ↦ (e.1.mirror, e.2.mirror) := by
  obtain ⟨queue, waiting⟩ := w
  cases queue with
  | nil => rfl
  | cons v rest =>
    simp only [pop?, mirror, List.map_cons, Option.map_some]
    rw [NodeMap.mirror_set]

end Worklist

namespace Graph

def mirrorEdge (e : Node n × Node n) : Node n × Node n := (e.2.mirror, e.1.mirror)

theorem mirrorEdge_injective : Function.Injective (mirrorEdge (n := n)) := by
  intro e e' h
  obtain ⟨hfst, hsnd⟩ := Prod.ext_iff.1 h
  exact Prod.ext (Node.mirror_inj.1 hsnd) (Node.mirror_inj.1 hfst)

def mirror (g : Graph n) : Graph n := ⟨g.edges.map mirrorEdge, g.nodup.map mirrorEdge_injective⟩

theorem mirror_addEdge (g : Graph n) (u v : Node n) :
    (g.addEdge u v).mirror = g.mirror.addEdge v.mirror u.mirror := by
  have hmem : (v.mirror, u.mirror) ∈ g.mirror.edges ↔ (u, v) ∈ g.edges :=
    List.mem_map_of_injective (a := (u, v)) mirrorEdge_injective
  unfold addEdge
  by_cases h : (u, v) ∈ g.edges
  · rw [dif_pos h, dif_pos (hmem.2 h)]
  · rw [dif_neg h, dif_neg (fun h' ↦ h (hmem.1 h'))]
    simp only [mirror, List.map_append, List.map_cons, List.map_nil]
    rfl

theorem successors_mirror (g : Graph n) (v : Node n) :
    g.mirror.successors v.mirror = (g.predecessors v).map Node.mirror := by
  simp only [successors, predecessors, mirror, List.filterMap_map, List.map_filterMap]
  refine List.filterMap_congr fun e _ ↦ ?_
  by_cases h : e.2 = v <;> simp [mirrorEdge, h]

theorem predecessors_mirror (g : Graph n) (v : Node n) :
    g.mirror.predecessors v.mirror = (g.successors v).map Node.mirror := by
  simp only [successors, predecessors, mirror, List.filterMap_map, List.map_filterMap]
  refine List.filterMap_congr fun e _ ↦ ?_
  by_cases h : e.1 = v <;> simp [mirrorEdge, h]

end Graph

def Endpoint.mirror : Endpoint n → Endpoint n
  | node v => node v.mirror
  | foreign s => foreign s

def mirrorRequest (e : Endpoint n × Endpoint n) : Endpoint n × Endpoint n := (e.2.mirror, e.1.mirror)

theorem Graph.mirror_requestAll (g : Graph n) (l : List (Endpoint n × Endpoint n)) :
    (g.requestAll l).1.mirror = (g.mirror.requestAll (l.map mirrorRequest)).1 := by
  induction l generalizing g with
  | nil => rfl
  | cons e l ih =>
    obtain ⟨a, b⟩ := e
    cases a with
    | node u =>
      cases b with
      | node v =>
        have h := ih (g.addEdge u v)
        rw [mirror_addEdge] at h
        exact h
      | foreign s => exact ih g
    | foreign s => cases b <;> exact ih g

def Visit.mirror (v : Visit n) : Visit n := { v with node := v.node.mirror }

def State.mirror (s : State n) : State n :=
  ⟨s.before.mirror, s.after.mirror, s.worklist.mirror, s.visits.map Visit.mirror⟩

def Failure.mirror (f : Failure n) : Failure n := { f with visits := f.visits.map Visit.mirror }

/-- What comes in at one end of a node goes out at the other. -/
def Solution.mirror (sol : Solution n) : Solution n :=
  ⟨sol.outgoing.mirror, sol.incoming.mirror, sol.visits.map Visit.mirror⟩

def mirrorOutcome (f : α → α) : Except (Failure n) α → Except (Failure n) α
  | .ok a => .ok (f a)
  | .error e => .error e.mirror

theorem Solution.mirror_ofState (d : Direction) (s : State n) :
    (ofState d s).mirror = ofState d.opposite s.mirror := by cases d <;> rfl

namespace Direction

theorem boundary_opposite (d : Direction) : (d.opposite.boundary : Node n) = d.boundary.mirror := by cases d <;> rfl

theorem sources_mirror (d : Direction) (g : Graph n) (v : Node n) :
    d.opposite.sources g.mirror v.mirror = (d.sources g v).map Node.mirror := by
  cases d with
  | forward => exact g.successors_mirror v
  | backward => exact g.predecessors_mirror v

theorem targets_mirror (d : Direction) (g : Graph n) (v : Node n) :
    d.opposite.targets g.mirror v.mirror = (d.targets g v).map Node.mirror := by
  cases d with
  | forward => exact g.predecessors_mirror v
  | backward => exact g.successors_mirror v

end Direction

namespace Problem

variable {m : Method} (g : Graph m.size) (d : Direction) (checked : Bool)

theorem inflow_mirror (s : State m.size) (v : Node m.size) :
    inflow ⟨m, g.mirror, d.opposite, checked⟩ s.mirror v.mirror = inflow ⟨m, g, d, checked⟩ s v := by
  have hget (u : Node m.size) : s.mirror.after.get u.mirror = s.after.get u := s.after.get_mirror u
  unfold inflow sources
  rw [Direction.sources_mirror, List.foldlM_map]
  simp only [hget]
  exact congrArg (List.foldlM _ · _) (s.before.get_mirror v)

theorem filter_targets_mirror (v : Node m.size) :
    (d.opposite.targets g.mirror v.mirror).filter (· ≠ d.opposite.boundary) =
      ((d.targets g v).filter (· ≠ d.boundary)).map Node.mirror := by
  rw [Direction.targets_mirror, Direction.boundary_opposite, List.filter_map]
  congr 1
  refine List.filter_congr fun u _ ↦ ?_
  simp

theorem visit_mirror (s : State m.size) (v : Node m.size) :
    visit ⟨m, g.mirror, d.opposite, checked⟩ s.mirror v.mirror =
      mirrorOutcome State.mirror (visit ⟨m, g, d, checked⟩ s v) := by
  have htransfer : (m.stmtAt v.mirror).transfer = (m.stmtAt v).transfer := by cases v <;> rfl
  have hwarnings : (m.stmtAt v.mirror).warnings = (m.stmtAt v).warnings := by cases v <;> rfl
  have hafter : s.mirror.after.get v.mirror = s.after.get v := s.after.get_mirror v
  unfold visit
  rw [inflow_mirror]
  cases inflow ⟨m, g, d, checked⟩ s v with
  | error e => rfl
  | ok input =>
    dsimp only
    rw [htransfer, hwarnings, hafter]
    cases (m.stmtAt v).transfer input (s.after.get v) with
    | error e => rfl
    | ok r =>
      -- the nodes to be put on the worklists are mirror images, so both put on the same number
      obtain ⟨output, changed⟩ := r
      dsimp only [mirrorOutcome, targets, boundary]
      rw [filter_targets_mirror]
      congr 1
      simp only [State.mirror, NodeMap.mirror_set, Array.map_push]
      cases changed with
      | false => rfl
      | true => simp only [if_true, Worklist.mirror_pushAll]; rfl

/-- A round of the one run is a round of the other, to the last one or to the same failure. -/
theorem run_mirror (bound : Nat) (s : State m.size) :
    run ⟨m, g.mirror, d.opposite, checked⟩ bound s.mirror =
      mirrorOutcome State.mirror (run ⟨m, g, d, checked⟩ bound s) := by
  induction bound generalizing s with
  | zero =>
    have hempty : s.mirror.worklist.queue.isEmpty = s.worklist.queue.isEmpty := List.isEmpty_map
    have hsize : s.mirror.worklist.size = s.worklist.size := List.length_map _
    have hvisits : s.mirror.visits.size = s.visits.size := Array.size_map
    rw [run, run, hempty, hsize, hvisits]
    split <;> rfl
  | succ bound ih =>
    have hpop : s.mirror.worklist.pop? = s.worklist.pop?.map fun e ↦ (e.1.mirror, e.2.mirror) :=
      s.worklist.mirror_pop?
    rw [run, run, hpop]
    cases s.worklist.pop? with
    | none => rfl
    | some next =>
      obtain ⟨v, rest⟩ := next
      have hvisit := visit_mirror g d checked { s with worklist := rest } v
      simp only [Option.map_some]
      rw [show { s.mirror with worklist := rest.mirror } = State.mirror { s with worklist := rest } from rfl, hvisit]
      cases visit ⟨m, g, d, checked⟩ { s with worklist := rest } v with
      | error e => rfl
      | ok s' => exact ih s'

theorem agenda_mirror :
    agenda ⟨m, g.mirror, d.opposite, checked⟩ .fifo = (agenda ⟨m, g, d, checked⟩ .fifo).map Node.mirror := by
  have hmap : ((List.finRange m.size).map Node.stmt).map Node.mirror = (List.finRange m.size).map Node.stmt := by
    rw [List.map_map]
    rfl
  cases d with
  | forward =>
    change (Node.all m.size).filter (· ≠ .exit) = ((Node.all m.size).filter (· ≠ .entry)).map Node.mirror
    rw [Node.filter_all_entry, Node.filter_all_exit, List.map_cons, hmap]
    rfl
  | backward =>
    change (Node.all m.size).filter (· ≠ .entry) = ((Node.all m.size).filter (· ≠ .exit)).map Node.mirror
    rw [Node.filter_all_entry, Node.filter_all_exit, List.map_cons, hmap]
    rfl

theorem start_mirror :
    start ⟨m, g.mirror, d.opposite, checked⟩ .fifo = (start ⟨m, g, d, checked⟩ .fifo).mirror := by
  have hafter : (NodeMap.const .empty).set (d.opposite.boundary : Node m.size) (boundaryFact m.params) =
      ((NodeMap.const .empty).set d.boundary (boundaryFact m.params)).mirror := by
    rw [Direction.boundary_opposite, NodeMap.mirror_set]
    rfl
  have hqueue : Worklist.empty.pushAll (agenda ⟨m, g.mirror, d.opposite, checked⟩ .fifo) =
      (Worklist.empty.pushAll (agenda ⟨m, g, d, checked⟩ .fifo)).mirror := by
    rw [agenda_mirror, Worklist.mirror_pushAll]
    rfl
  unfold start boundary
  rw [hafter, hqueue]
  simp only [State.mirror, Array.map_empty]
  rfl

theorem solve_mirror {c : Config} (hc : c.strategy = .fifo) :
    solve ⟨m, g.mirror, d.opposite, checked⟩ c = mirrorOutcome Solution.mirror (solve ⟨m, g, d, checked⟩ c) := by
  unfold solve
  rw [hc, start_mirror, run_mirror]
  cases run ⟨m, g, d, checked⟩ c.maxIterations.steps (start ⟨m, g, d, checked⟩ .fifo) with
  | error e => rfl
  | ok s => exact congrArg Except.ok (Solution.mirror_ofState d s).symm

end Problem

abbrev Problem.ofRequests (m : Method) (l : List (Endpoint m.size × Endpoint m.size)) (d : Direction)
    (checked : Bool) : Problem := ⟨m, (Graph.empty.requestAll l).1, d, checked⟩

namespace Problem

/-- Solving a problem against the flow of control, and solving it with the flow of control after every request
has been turned round, with entry and exit exchanged: the visits are the same, and so are the facts on the two
sides of each node, or the failure. -/
theorem solve_backward_mirrored (m : Method) (l : List (Endpoint m.size × Endpoint m.size)) (checked : Bool)
    (c : Config) (hc : c.strategy = .fifo) :
    (∀ sol, (ofRequests m l .backward checked).solve c = .ok sol → ∃ sol',
      (ofRequests m (l.map mirrorRequest) .forward checked).solve c = .ok sol' ∧
      sol'.iterations = sol.iterations ∧ sol'.visits = sol.visits.map Visit.mirror ∧
      ∀ v, sol'.incoming.get v.mirror = sol.outgoing.get v ∧ sol'.outgoing.get v.mirror = sol.incoming.get v) ∧
    ∀ failure, (ofRequests m l .backward checked).solve c = .error failure →
      (ofRequests m (l.map mirrorRequest) .forward checked).solve c = .error failure.mirror := by
  have hgraph : (Graph.empty.requestAll (l.map mirrorRequest)).1 = (Graph.empty.requestAll l).1.mirror :=
    (Graph.mirror_requestAll .empty l).symm
  have hsolve : (ofRequests m (l.map mirrorRequest) .forward checked).solve c =
      mirrorOutcome Solution.mirror ((ofRequests m l .backward checked).solve c) := by
    unfold ofRequests
    rw [hgraph]
    exact solve_mirror (Graph.empty.requestAll l).1 .backward checked hc
  rw [hsolve]
  constructor
  · intro sol h
    rw [h]
    refine ⟨sol.mirror, rfl, Array.size_map, rfl, fun v ↦ ⟨?_, ?_⟩⟩
    · exact sol.outgoing.get_mirror v
    · exact sol.incoming.get_mirror v
  · intro failure h
    rw [h]
    rfl

end Problem

def Method.halving : Method :=
  ((((empty "halving" [.int "n"]).push (.branch (.binary (.condition .lt) (.var (.int "n")) (.literal (.int 2))) 3)).push
    (.assign (.var (.int "n")) (.binary (.arithmetic .div) (.var (.int "n")) (.literal (.int 2))))).push
    (.goto 0)).push (.ret (some (.var (.int "n"))))

namespace Problem

def halvingRequests : List (Endpoint 4 × Endpoint 4) :=
  (ofMethod .halving).graph.edges.map (fun e ↦ (.node e.1, .node e.2)) ++ [(.node .exit, .foreign (.nop "foreign"))]

/-- Against the flow of control it is the exit that has the parameters, and they come out of the entry. -/
theorem halving_mirrored :
    (Config.taking .fifo).strategy = .fifo ∧ ∃ sol sol',
      (ofRequests .halving halvingRequests .backward true).solve (.taking .fifo) = .ok sol ∧
      (ofRequests .halving (halvingRequests.map mirrorRequest) .forward true).solve (.taking .fifo) = .ok sol' ∧
      sol'.visits = sol.visits.map Visit.mirror ∧ sol.iterations = 10 ∧
      (∀ v, sol'.incoming.get v.mirror = sol.outgoing.get v ∧ sol'.outgoing.get v.mirror = sol.incoming.get v) ∧
      (sol.incoming.get .entry).get (.int "n") = .nac := by
  have hreturns : ((ofRequests .halving halvingRequests .backward true).solve (.taking .fifo)).toOption.any
      (fun sol ↦ sol.iterations = 10 ∧ (sol.incoming.get .entry).get (.int "n") = .nac) = true := by decide +kernel
  obtain ⟨sol, h, hsol⟩ := exists_solve hreturns
  obtain ⟨hsize, hentry⟩ := of_decide_eq_true hsol
  obtain ⟨hok, -⟩ := solve_backward_mirrored .halving halvingRequests true (.taking .fifo) rfl
  obtain ⟨sol', h', -, hvisits, hfacts⟩ := hok sol h
  exact ⟨rfl, sol, sol', h, h', hvisits, hsize, hfacts, hentry⟩

end Problem

end ConstantFlow
