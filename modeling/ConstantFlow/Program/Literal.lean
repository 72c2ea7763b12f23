import ConstantFlow.Datum

namespace ConstantFlow

def leastInt : Int := -2147483648

def greatestInt : Int := 2147483647

def Binary64.isInRange (x : Binary64) : Bool :=
  match x.toRat? with
  | some r => leastInt ≤ r ∧ r ≤ greatestInt
  | none => false

/-- Whole numbers of 32 bits are the proper literals. Truth values and fractions in the same range are let through as
well, and refused only when a constant is made from them. -/
inductive Literal
  | int (c : Int32)
  | truth (b : Bool)
  | real (x : Binary64) (inRange : x.isInRange)
  deriving DecidableEq

inductive LiteralError
  | notANumber
  | outOfRange (d : Datum)

def LiteralError.message? : LiteralError → Option String
  | notANumber => none
  | outOfRange d => some ("int literal " ++ d.describe ++ " outside 32-bit range")

namespace Literal

def datum : Literal → Datum
  | int c => .int c.toInt
  | truth b => .truth b
  | real x _ => .real x

def ofDatum : Datum → Except LiteralError Literal
  | .int n =>
    if leastInt ≤ n ∧ n ≤ greatestInt then .ok (int (Int32.ofInt n)) else .error (.outOfRange (.int n))
  | .truth b => .ok (truth b)
  | .real x => if h : x.isInRange then .ok (real x h) else .error (.outOfRange (.real x))
  | _ => .error .notANumber

def describe (l : Literal) : String := l.datum.describe

def number : Literal → Rat
  | int c => c.toInt
  | truth b => if b then 1 else 0
  | real x _ => x.toRat?.getD 0

/-- Literals are equal as numbers, whatever they were written as. -/
instance : BEq Literal := ⟨fun a b ↦ a.number == b.number⟩

def isProper : Literal → Bool
  | int _ => true
  | _ => false

end Literal

end ConstantFlow
