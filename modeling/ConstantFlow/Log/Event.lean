import ConstantFlow.Fact.Pool
import ConstantFlow.Log.Console
import ConstantFlow.Solver.Basic

namespace ConstantFlow

inductive Event
  | loaded (c : Config)
  | built (description : String)
  | warned (w : Warning)
  | flowed (s : Stmt) (f : Fact)
  | converged (analysis : Setting) (method : String) (iterations nodes : Nat)

namespace Event

def level : Event → Level
  | loaded _ => .debug
  | built _ => .debug
  | warned _ => .warning
  | flowed _ _ => .debug
  | converged .. => .info

def logger : Event → String
  | loaded _ => "constprop.config"
  | built _ => "constprop.cfg"
  | warned _ => "constprop.operators"
  | flowed _ _ => "constprop.analysis"
  | converged .. => "constprop.solver"

def memberName : ComparisonOp → String
  | .cmp => "CMP"
  | .cmpl => "CMPL"
  | .cmpg => "CMPG"

/-- The words for an event. There are none for a statement without a text. -/
def message? : Event → Option String
  | loaded c => some ("Loaded analysis config " ++ c.describe)
  | built description => some ("Built " ++ description)
  | warned (.comparison op) =>
    some ("Unsupported operator category in calculate: ComparisonOp." ++ memberName op)
  | warned (.unknown symbol) => some ("Unknown binary operator " ++ Text.quoted symbol ++ " in calculate")
  | flowed s f => s.text?.map fun t ↦ "OUT[" ++ t ++ "] = " ++ f.describe
  | converged analysis method iterations nodes =>
    some (analysis.plain ++ " on " ++ method ++ " converged in " ++ toString iterations ++ " iterations (" ++
      toString nodes ++ " nodes)")

def record? (e : Event) : Option Record := e.message?.map fun m ↦ ⟨e.level, e.logger, m⟩

end Event

def Stmt.events (s : Stmt) (warnings : List Warning) (changed : Bool) (output : Fact) : List Event :=
  warnings.map .warned ++ if changed then [.flowed s output] else []

def Command.events (c : Command) (p : Pool) : List Event :=
  match c with
  | .transfer s source slot =>
    match p.get source, p.get slot with
    | .ok input, .ok output =>
      match s.transfer input output with
      | .ok (f, changed) => s.events (s.warnings input) changed f
      | .error _ => (s.warnings input).map .warned
    | _, _ => []
  | _ => []

def Method.buildEvents (m : Method) (g : Graph m.size) : List Event :=
  if m.code.isEmpty then [] else [.built (m.graphText g)]

namespace Problem

variable (p : Problem)

def visitEvents (v : Visit p.method.size) : List Event :=
  (p.method.stmtAt v.node).events v.warnings v.changed v.output

def failureEvents (f : Failure p.method.size) : List Event :=
  f.visits.toList.flatMap p.visitEvents ++ f.warnings.map .warned

def solutionEvents (c : Config) (s : Solution p.method.size) : List Event :=
  s.visits.toList.flatMap p.visitEvents ++
    [.converged c.analysisId p.method.name s.iterations (p.method.size + 2)]

end Problem

end ConstantFlow
