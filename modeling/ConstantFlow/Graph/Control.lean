import ConstantFlow.Graph.Basic
import ConstantFlow.Program.Method

namespace ConstantFlow

structure DanglingJump where
  origin : Stmt
  target : Int

def DanglingJump.message? (e : DanglingJump) : Option String :=
  e.origin.text?.map fun t ↦ t ++ ": jump target " ++ toString e.target ++ " out of range"

namespace Method

variable (m : Method)

/-- The statement at a node. Entry and exit do nothing. -/
def stmtAt : Node m.size → Stmt
  | .entry => .nop "entry"
  | .exit => .nop "exit"
  | .stmt k => m.stmt k

def next (position : Nat) : Node m.size :=
  match m.code[position + 1]? with
  | some k => .stmt k
  | none => .exit

def jump (origin : Stmt) (target : Int) : Except DanglingJump (Node m.size) :=
  match m.at? target with
  | some k => .ok (.stmt k)
  | none => .error ⟨origin, target⟩

def follow (position : Nat) (s : Stmt) : Except DanglingJump (List (Node m.size)) :=
  match s with
  | .goto target => return [← m.jump s target]
  | .branch _ target => return [← m.jump s target, m.next position]
  | .ret _ => return [.exit]
  | _ => return [m.next position]

def edgesFrom : Nat → List (Fin m.size) → Except DanglingJump (List (Node m.size × Node m.size))
  | _, [] => .ok []
  | position, k :: rest => do
    let targets ← m.follow position (m.stmt k)
    let later ← edgesFrom (position + 1) rest
    return targets.map (fun v ↦ (.stmt k, v)) ++ later

def graph : Except DanglingJump (Graph m.size) :=
  match m.code with
  | [] => .ok (.ofEdges [(.entry, .exit)])
  | k :: rest => do
    let edges ← m.edgesFrom 0 (k :: rest)
    return .ofEdges ((.entry, .stmt k) :: edges)

def endText? : Endpoint m.size → Option String
  | .node v => (m.stmtAt v).text?
  | .foreign s => s.text?

def outsideText? (e : OutsideEdge m.size) : Option String :=
  return "edge " ++ (← m.endText? e.source) ++ " -> " ++ (← m.endText? e.target) ++ " leaves the CFG"

def graphText (g : Graph m.size) : String :=
  "CFG(" ++ m.name ++ ", " ++ toString (m.size + 2) ++ " nodes, " ++ toString g.edges.length ++ " edges)"

end Method

end ConstantFlow
