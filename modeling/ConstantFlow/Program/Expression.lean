import ConstantFlow.Program.Literal
import ConstantFlow.Program.Operator
import ConstantFlow.Program.Variable

namespace ConstantFlow

inductive Exp
  | literal (l : Literal)
  | var (x : Var)
  | binary (op : BinaryOp) (left right : Exp)
  | neg (operand : Exp)
  | cast (type : VarType) (operand : Exp)
  | staticField (name : String)
  | field (base : Exp) (name : String)
  | element (base index : Exp)
  | call (method : String) (args : List Exp)
  | new (type : VarType)

namespace Exp

mutual

/-- The text of an expression. An operator without a symbol has none. -/
def text? : Exp → Option String
  | literal l => some l.describe
  | var x => some x.name
  | binary op a b => do
    let left ← a.text?
    let symbol ← op.symbol?
    let right ← b.text?
    return left ++ " " ++ symbol ++ " " ++ right
  | neg e => return "-" ++ (← e.text?)
  | cast t e => return "(" ++ t.name ++ ") " ++ (← e.text?)
  | staticField f => some ("<static>." ++ f)
  | field b f => return (← b.text?) ++ "." ++ f
  | element b i => return (← b.text?) ++ "[" ++ (← i.text?) ++ "]"
  | call m args => return m ++ "(" ++ ", ".intercalate (← argTexts? args) ++ ")"
  | new t => some ("new " ++ t.name)

def argTexts? : List Exp → Option (List String)
  | [] => some []
  | e :: rest => return (← e.text?) :: (← argTexts? rest)

end

mutual

def vars : Exp → List Var
  | literal _ => []
  | var x => [x]
  | binary _ a b => a.vars ++ b.vars
  | neg e => e.vars
  | cast _ e => e.vars
  | staticField _ => []
  | field b _ => b.vars
  | element b i => b.vars ++ i.vars
  | call _ args => argVars args
  | new _ => []

def argVars : List Exp → List Var
  | [] => []
  | e :: rest => e.vars ++ argVars rest

end

def isVar : Exp → Bool
  | var _ => true
  | _ => false

mutual

/-- Whether the base of every field and array access is a variable. -/
def hasVarBases : Exp → Bool
  | literal _ => true
  | var _ => true
  | binary _ a b => a.hasVarBases && b.hasVarBases
  | neg e => e.hasVarBases
  | cast _ e => e.hasVarBases
  | staticField _ => true
  | field b _ => b.isVar
  | element b i => b.isVar && i.hasVarBases
  | call _ args => argsHaveVarBases args
  | new _ => true

def argsHaveVarBases : List Exp → Bool
  | [] => true
  | e :: rest => e.hasVarBases && argsHaveVarBases rest

end

mutual

/-- Equality of expressions in which literals are compared as numbers. -/
def beq : Exp → Exp → Bool
  | literal l, literal k => l == k
  | var x, var y => x = y
  | binary op a b, binary op' a' b' => op = op' && a.beq a' && b.beq b'
  | neg e, neg e' => e.beq e'
  | cast t e, cast t' e' => t = t' && e.beq e'
  | staticField f, staticField f' => f = f'
  | field b f, field b' f' => b.beq b' && f = f'
  | element b i, element b' i' => b.beq b' && i.beq i'
  | call m args, call m' args' => m = m' && beqArgs args args'
  | new t, new t' => t = t'
  | _, _ => false

def beqArgs : List Exp → List Exp → Bool
  | [], [] => true
  | e :: rest, e' :: rest' => e.beq e' && beqArgs rest rest'
  | _, _ => false

end

instance : BEq Exp := ⟨beq⟩

end Exp

end ConstantFlow
