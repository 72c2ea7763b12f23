import ConstantFlow.Graph.Basic

namespace ConstantFlow

inductive Direction
  | forward
  | backward
  deriving DecidableEq

namespace Direction

variable {n : Nat}

/-- The node whose fact is given. -/
def boundary : Direction → Node n
  | forward => .entry
  | backward => .exit

def sources (d : Direction) (g : Graph n) (v : Node n) : List (Node n) :=
  match d with
  | forward => g.predecessors v
  | backward => g.successors v

def targets (d : Direction) (g : Graph n) (v : Node n) : List (Node n) :=
  match d with
  | forward => g.successors v
  | backward => g.predecessors v

end Direction

end ConstantFlow
