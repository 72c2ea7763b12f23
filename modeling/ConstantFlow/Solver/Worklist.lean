import ConstantFlow.Graph.Node

namespace ConstantFlow

variable {n : Nat}

structure Worklist (n : Nat) where
  queue : List (Node n)
  waiting : NodeMap n Bool

namespace Worklist

def empty : Worklist n := ⟨[], .const false⟩

def push (w : Worklist n) (v : Node n) : Worklist n :=
  if w.waiting.get v then w else ⟨w.queue ++ [v], w.waiting.set v true⟩

def pop? (w : Worklist n) : Option (Node n × Worklist n) :=
  match w.queue with
  | [] => none
  | v :: rest => some (v, ⟨rest, w.waiting.set v false⟩)

def pushAll (w : Worklist n) (l : List (Node n)) : Worklist n := l.foldl push w

def size (w : Worklist n) : Nat := w.queue.length

end Worklist

end ConstantFlow
