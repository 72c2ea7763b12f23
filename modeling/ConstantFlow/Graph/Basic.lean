import ConstantFlow.Graph.Node
import ConstantFlow.Program.Statement

namespace ConstantFlow

variable {n : Nat}

/-- The edges in the order in which they were first asked for. -/
structure Graph (n : Nat) where
  edges : List (Node n × Node n)
  nodup : edges.Nodup

/-- One end of a wanted edge: a node of the graph, or a statement outside it. -/
inductive Endpoint (n : Nat)
  | node (v : Node n)
  | foreign (s : Stmt)

structure OutsideEdge (n : Nat) where
  source : Endpoint n
  target : Endpoint n

namespace Graph

def empty : Graph n := ⟨[], .nil⟩

def addEdge (g : Graph n) (u v : Node n) : Graph n :=
  if h : (u, v) ∈ g.edges then g
  else ⟨g.edges ++ [(u, v)], List.nodup_append.2 ⟨g.nodup, by simp, fun _ ha _ hb hab ↦
    h (List.mem_singleton.1 hb ▸ hab ▸ ha)⟩⟩

def ofEdges (l : List (Node n × Node n)) : Graph n := l.foldl (fun g e ↦ g.addEdge e.1 e.2) empty

def successors (g : Graph n) (u : Node n) : List (Node n) :=
  g.edges.filterMap fun e ↦ if e.1 = u then some e.2 else none

def predecessors (g : Graph n) (v : Node n) : List (Node n) :=
  g.edges.filterMap fun e ↦ if e.2 = v then some e.1 else none

def request (g : Graph n) : Endpoint n → Endpoint n → Except (OutsideEdge n) (Graph n)
  | .node u, .node v => .ok (g.addEdge u v)
  | a, b => .error ⟨a, b⟩

/-- Requests one after the other, with their outcomes; one that fails changes nothing. -/
def requestAll (g : Graph n) : List (Endpoint n × Endpoint n) → Graph n × List (Except (OutsideEdge n) Unit)
  | [] => (g, [])
  | (a, b) :: rest =>
    match g.request a b with
    | .ok h => let (last, outcomes) := h.requestAll rest; (last, .ok () :: outcomes)
    | .error e => let (last, outcomes) := g.requestAll rest; (last, .error e :: outcomes)

theorem mem_successors (g : Graph n) (u v : Node n) : v ∈ g.successors u ↔ (u, v) ∈ g.edges := by
  simp [successors]

theorem mem_predecessors (g : Graph n) (u v : Node n) : u ∈ g.predecessors v ↔ (u, v) ∈ g.edges := by
  simp only [predecessors, List.mem_filterMap, Option.ite_none_right_eq_some, Option.some.injEq]
  exact ⟨fun ⟨_, h, hv, hu⟩ ↦ hv ▸ hu ▸ h, fun h ↦ ⟨_, h, rfl, rfl⟩⟩

end Graph

end ConstantFlow
