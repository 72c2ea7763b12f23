import ConstantFlow.Graph.Control
import ConstantFlow.Graph.Direction
import ConstantFlow.Graph.Order
import ConstantFlow.Solver.Worklist
import ConstantFlow.Config
import ConstantFlow.Transfer

namespace ConstantFlow

/-- A variable that comes in from outside may hold any number. -/
def boundaryFact (params : List Var) : Fact :=
  (params.filter Var.isTracked).foldl (fun f x ↦ f.set x .nac) .empty

structure Problem where
  method : Method
  graph : Graph method.size
  direction : Direction
  checked : Bool

def Problem.ofConfig (m : Method) (g : Graph m.size) (d : Direction) (c : Config) : Problem :=
  ⟨m, g, d, c.checkInvariants.isTrue⟩

def solverConfig (own : Option Config) (analysis : Config) : Config := own.getD analysis

structure Visit (n : Nat) where
  node : Node n
  changed : Bool
  output : Fact
  warnings : List Warning

/-- Facts on both sides of each node, in flow direction, the nodes that wait, and the visits so far. -/
structure State (n : Nat) where
  before : NodeMap n Fact
  after : NodeMap n Fact
  worklist : Worklist n
  visits : Array (Visit n)

inductive Fault
  | unconverged (iterations pending : Nat)
  | nonMonotone (e : NonMonotone)
  | value (e : ValueError)

def Fault.message : Fault → String
  | unconverged iterations pending =>
    "Dataflow analysis did not converge in " ++ toString iterations ++ " iterations (" ++
      toString pending ++ " nodes still pending)"
  | nonMonotone e => e.message
  | value e => e.message

structure Failure (n : Nat) where
  fault : Fault
  visits : Array (Visit n)
  warnings : List Warning

namespace Problem

variable (p : Problem)

abbrev boundary : Node p.method.size := p.direction.boundary

abbrev sources (v : Node p.method.size) : List (Node p.method.size) := p.direction.sources p.graph v

abbrev targets (v : Node p.method.size) : List (Node p.method.size) := p.direction.targets p.graph v

def agenda (strategy : Strategy) : List (Node p.method.size) :=
  let order :=
    match strategy, p.direction with
    | .fifo, _ => Node.all p.method.size
    | .rpo, .forward => p.graph.reversePostorder
    | .rpo, .backward => p.graph.reversePostorder.reverse
  order.filter (· ≠ p.boundary)

def start (strategy : Strategy) : State p.method.size where
  before := .const .empty
  after := (NodeMap.const .empty).set p.boundary (boundaryFact p.method.params)
  worklist := Worklist.empty.pushAll (p.agenda strategy)
  visits := #[]

/-- What flows into a node: the facts after its sources, met into the fact before it. -/
def inflow (s : State p.method.size) (v : Node p.method.size) : Except NonMonotone Fact :=
  (p.sources v).foldlM (fun f u ↦ (s.after.get u).meetInto p.checked f) (s.before.get v)

def visit (s : State p.method.size) (v : Node p.method.size) :
    Except (Failure p.method.size) (State p.method.size) :=
  let stmt := p.method.stmtAt v
  match p.inflow s v with
  | .error e => .error ⟨.nonMonotone e, s.visits, []⟩
  | .ok input =>
    let warnings := stmt.warnings input
    match stmt.transfer input (s.after.get v) with
    | .error e => .error ⟨.value e, s.visits, warnings⟩
    | .ok (output, changed) => .ok {
        before := s.before.set v input
        after := s.after.set v output
        worklist :=
          if changed then s.worklist.pushAll ((p.targets v).filter (· ≠ p.boundary)) else s.worklist
        visits := s.visits.push ⟨v, changed, output, warnings⟩ }

/-- Visits nodes until none waits, at most `bound` more of them. -/
def run : Nat → State p.method.size → Except (Failure p.method.size) (State p.method.size)
  | 0, s =>
    if s.worklist.queue.isEmpty then .ok s
    else .error ⟨.unconverged s.visits.size s.worklist.size, s.visits, []⟩
  | bound + 1, s =>
    match s.worklist.pop? with
    | none => .ok s
    | some (v, rest) =>
      match p.visit { s with worklist := rest } v with
      | .error e => .error e
      | .ok s' => run bound s'

end Problem

structure Solution (n : Nat) where
  incoming : NodeMap n Fact
  outgoing : NodeMap n Fact
  visits : Array (Visit n)

namespace Solution

variable {n : Nat}

def ofState (d : Direction) (s : State n) : Solution n :=
  match d with
  | .forward => ⟨s.before, s.after, s.visits⟩
  | .backward => ⟨s.after, s.before, s.visits⟩

def iterations (s : Solution n) : Nat := s.visits.size

def constantAt (s : Solution n) (v : Node n) (x : Var) : Option Int32 := ((s.outgoing.get v).get x).constant?

end Solution

def Problem.solve (p : Problem) (c : Config) : Except (Failure p.method.size) (Solution p.method.size) :=
  (p.run c.maxIterations.steps (p.start c.strategy)).map (Solution.ofState p.direction)

end ConstantFlow
