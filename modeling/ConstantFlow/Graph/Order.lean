import ConstantFlow.Graph.Basic

namespace ConstantFlow

variable {n : Nat}

/-- A search under way: the nodes seen so far, and the finished ones, the last one first. -/
structure Search (n : Nat) where
  seen : NodeMap n Bool
  finished : List (Node n)

namespace Search

def start : Search n := ⟨.const false, []⟩

def see (s : Search n) (v : Node n) : Search n := { s with seen := s.seen.set v true }

def finish (s : Search n) (v : Node n) : Search n := { s with finished := v :: s.finished }

def explore (g : Graph n) : Nat → Search n → Node n → Search n
  | 0, s, _ => s
  | depth + 1, s, v =>
    if s.seen.get v then s
    else ((g.successors v).foldl (explore g depth) (s.see v)).finish v

end Search

namespace Graph

/-- The search from the entry. No path through new nodes is longer than the number of nodes. -/
def search (g : Graph n) : Search n := Search.explore g (n + 2) .start .entry

/-- What the search from the entry finished, the last one first, and then what it did not reach. -/
def reversePostorder (g : Graph n) : List (Node n) :=
  let s := g.search
  s.finished ++ (Node.all n).filter fun v ↦ !s.seen.get v

end Graph

end ConstantFlow
