import ConstantFlow.Fact.Basic
import ConstantFlow.Folding

namespace ConstantFlow

inductive Warning
  | comparison (op : ComparisonOp)
  | unknown (symbol : String)

def BinaryOp.warning? : BinaryOp → Option Warning
  | comparison op => some (.comparison op)
  | unknown symbol => some (.unknown symbol)
  | _ => none

structure NonConstant where
  left : Value
  right : Value
  exp : Exp

def NonConstant.message? (e : NonConstant) : Option String :=
  e.exp.text?.map fun t ↦ "non-constant operands " ++ e.left.describe ++ ", " ++ e.right.describe ++ " for " ++ t

namespace Exp

def value (f : Fact) : Exp → Value
  | literal l => l.value
  | var x => f.get x
  | binary op a b => op.combine (a.value f) (b.value f)
  | _ => .nac

/-- The first literal met in evaluation that is no whole number. -/
def improper? : Exp → Option Literal
  | literal l => if l.isProper then none else some l
  | binary _ a b => a.improper?.or b.improper?
  | _ => none

def evaluate (e : Exp) (f : Fact) : Except ValueError Value :=
  match e.improper? with
  | none => .ok (e.value f)
  | some l => .error (.notAnInteger l.datum)

def warnings (f : Fact) : Exp → List Warning
  | binary op a b =>
    a.warnings f ++
      if a.improper?.isSome then []
      else
        b.warnings f ++
          if !b.improper?.isSome && (a.value f).isConst && (b.value f).isConst then op.warning?.toList else []
  | _ => []

/-- The value of a binary expression whose operands have the given values, which have to be constants. -/
def foldConstants : Exp → Value → Value → Except NonConstant Value
  | binary op _ _, .const x, .const y => .ok (op.fold x.toInt y.toInt)
  | e, v, w => .error ⟨v, w, e⟩

end Exp

end ConstantFlow
