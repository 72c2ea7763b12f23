import ConstantFlow.Arithmetic
import ConstantFlow.Program.Operator
import ConstantFlow.Value

namespace ConstantFlow

def ArithmeticOp.apply : ArithmeticOp → Int → Int → Int
  | add, x, y => x + y
  | sub, x, y => x - y
  | mul, x, y => x * y
  | div, x, y => quotient x y
  | rem, x, y => remainder x y

def BitwiseOp.apply : BitwiseOp → Nat → Nat → Nat
  | or, x, y => x ||| y
  | and, x, y => x &&& y
  | xor, x, y => x ^^^ y

def ShiftOp.apply : ShiftOp → Int → Nat → Int
  | shl, x, amount => x <<< amount
  | shr, x, amount => x >>> amount
  | ushr, x, amount => logicalShift x amount

def ConditionOp.holds : ConditionOp → Int → Int → Bool
  | eq, x, y => x = y
  | ne, x, y => x ≠ y
  | gt, x, y => y < x
  | ge, x, y => y ≤ x
  | lt, x, y => x < y
  | le, x, y => x ≤ y

def shiftAmount (y : Int) : Nat := masked y 31

namespace BinaryOp

def fold (op : BinaryOp) (x y : Int) : Value :=
  match op with
  | arithmetic a => if op.divides ∧ y = 0 then .undef else .ofInt (a.apply x y)
  | bitwise b => .ofInt (b.apply (lowBits x) (lowBits y))
  | shift s => .ofInt (s.apply x (shiftAmount y))
  | condition c => .ofInt (if c.holds x y then 1 else 0)
  | comparison _ => .nac
  | unknown _ => .nac

/-- The value of an operator on two values. An unknown number divided by zero is still no number. -/
def combine (op : BinaryOp) : Value → Value → Value
  | .const x, .const y => op.fold x.toInt y.toInt
  | .nac, .const y => if op.divides ∧ y = 0 then .undef else .nac
  | .nac, _ => .nac
  | _, .nac => .nac
  | _, _ => .undef

end BinaryOp

end ConstantFlow
