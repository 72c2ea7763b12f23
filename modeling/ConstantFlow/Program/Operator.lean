namespace ConstantFlow

inductive ArithmeticOp
  | add | sub | mul | div | rem
  deriving DecidableEq

inductive BitwiseOp
  | or | and | xor
  deriving DecidableEq

inductive ShiftOp
  | shl | shr | ushr
  deriving DecidableEq

inductive ConditionOp
  | eq | ne | gt | ge | lt | le
  deriving DecidableEq

/-- Three-way comparisons of long and floating-point numbers. -/
inductive ComparisonOp
  | cmp | cmpl | cmpg
  deriving DecidableEq

/-- A symbol that names no operator is kept as it was written. -/
inductive BinaryOp
  | arithmetic (op : ArithmeticOp)
  | bitwise (op : BitwiseOp)
  | shift (op : ShiftOp)
  | condition (op : ConditionOp)
  | comparison (op : ComparisonOp)
  | unknown (symbol : String)
  deriving DecidableEq

namespace BinaryOp

def all : List BinaryOp := [
  .arithmetic .add, .arithmetic .sub, .arithmetic .mul, .arithmetic .div, .arithmetic .rem,
  .bitwise .or, .bitwise .and, .bitwise .xor, .shift .shl, .shift .shr, .shift .ushr,
  .condition .eq, .condition .ne, .condition .gt, .condition .ge, .condition .lt, .condition .le,
  .comparison .cmp, .comparison .cmpl, .comparison .cmpg]

def symbol? : BinaryOp → Option String
  | arithmetic .add => some "+"
  | arithmetic .sub => some "-"
  | arithmetic .mul => some "*"
  | arithmetic .div => some "/"
  | arithmetic .rem => some "%"
  | bitwise .or => some "|"
  | bitwise .and => some "&"
  | bitwise .xor => some "^"
  | shift .shl => some "<<"
  | shift .shr => some ">>"
  | shift .ushr => some ">>>"
  | condition .eq => some "=="
  | condition .ne => some "!="
  | condition .gt => some ">"
  | condition .ge => some ">="
  | condition .lt => some "<"
  | condition .le => some "<="
  | comparison .cmp => some "cmp"
  | comparison .cmpl => some "cmpl"
  | comparison .cmpg => some "cmpg"
  | unknown _ => none

def ofSymbol (s : String) : BinaryOp := (all.find? fun op ↦ op.symbol? == some s).getD (unknown s)

def divides : BinaryOp → Bool
  | arithmetic .div => true
  | arithmetic .rem => true
  | _ => false

end BinaryOp

end ConstantFlow
