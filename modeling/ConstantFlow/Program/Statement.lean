import ConstantFlow.Program.Expression

namespace ConstantFlow

inductive Stmt
  | assign (target value : Exp)
  | invoke (call : Exp) (result : Option Exp)
  | branch (condition : Exp) (target : Int)
  | goto (target : Int)
  | ret (value : Option Exp)
  | nop (label : String)

namespace Stmt

def definition? : Stmt → Option (Exp × Exp)
  | assign target value => some (target, value)
  | invoke call (some result) => some (result, call)
  | _ => none

/-- The variable that a statement gives a tracked value, with its expression. -/
def tracked? (s : Stmt) : Option (Var × Exp) :=
  match s.definition? with
  | some (.var x, e) => if x.isTracked then some (x, e) else none
  | _ => none

def exps : Stmt → List Exp
  | assign target value => [target, value]
  | invoke call (some result) => [result, call]
  | invoke call none => [call]
  | branch condition _ => [condition]
  | goto _ => []
  | ret (some value) => [value]
  | ret none => []
  | nop _ => []

def vars (s : Stmt) : List Var := s.exps.flatMap Exp.vars

def hasVarBases (s : Stmt) : Bool := s.exps.all Exp.hasVarBases

def text? : Stmt → Option String
  | assign target value => return (← target.text?) ++ " = " ++ (← value.text?) ++ ";"
  | invoke call (some result) => return (← result.text?) ++ " = " ++ (← call.text?) ++ ";"
  | invoke call none => return (← call.text?) ++ ";"
  | branch condition target => return "if (" ++ (← condition.text?) ++ ") goto " ++ toString target ++ ";"
  | goto target => some ("goto " ++ toString target ++ ";")
  | ret (some value) => return "return " ++ (← value.text?) ++ ";"
  | ret none => some "return;"
  | nop label => some ("<" ++ label ++ ">")

end Stmt

end ConstantFlow
