import ConstantFlow.Program.Literal

namespace ConstantFlow

/-- Nothing known yet below every number, and no single number above them all. -/
inductive Value
  | undef
  | const (c : Int32)
  | nac
  deriving DecidableEq

inductive ValueError
  | notAnInteger (d : Datum)
  | outOfRange (n : Int)
  | notConstant (v : Value)

namespace Value

def describe : Value → String
  | undef => "UNDEF"
  | const c => toString c.toInt
  | nac => "NAC"

def ofInt (n : Int) : Value := const (Int32.ofInt n)

def isConst : Value → Bool
  | const _ => true
  | _ => false

def constant? : Value → Option Int32
  | const c => some c
  | _ => none

def constant : Value → Except ValueError Int32
  | const c => .ok c
  | v => .error (.notConstant v)

def constOfDatum : Datum → Except ValueError Value
  | .int n => if leastInt ≤ n ∧ n ≤ greatestInt then .ok (ofInt n) else .error (.outOfRange n)
  | d => .error (.notAnInteger d)

instance : LE Value := ⟨fun a b ↦ a = undef ∨ b = nac ∨ a = b⟩

instance : DecidableLE Value := fun a b ↦ inferInstanceAs (Decidable (a = undef ∨ b = nac ∨ a = b))

def meet : Value → Value → Value
  | undef, b => b
  | nac, _ => nac
  | const c, undef => const c
  | const c, const d => if c = d then const c else nac
  | const _, nac => nac

end Value

/-- A literal that is a whole number is that constant. The others have no value of their own. -/
def Literal.value : Literal → Value
  | int c => .const c
  | _ => .nac

def ValueError.message : ValueError → String
  | notAnInteger d => "constant must be an int, got " ++ d.describe
  | outOfRange n => "constant " ++ toString n ++ " outside 32-bit range"
  | notConstant v => v.describe ++ " is not a constant"

end ConstantFlow
