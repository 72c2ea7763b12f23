namespace ConstantFlow

def mask32 : Nat := 0xFFFFFFFF

def sign32 : Nat := 0x80000000

/-- The bits of `n` that a mask lets through. A negative number has ones all the way up. -/
def masked (n : Int) (mask : Nat) : Nat :=
  match n with
  | .ofNat a => a &&& mask
  | .negSucc a => mask ^^^ (a &&& mask)

def lowBits (n : Int) : Nat := masked n mask32

/-- The number a signed 32-bit register holds after `n` is put into it. -/
def wrap (n : Int) : Int :=
  if lowBits n &&& sign32 ≠ 0 then lowBits n - (1 <<< 32 : Nat) else lowBits n

def quotient (x y : Int) : Int :=
  let q : Int := (x.natAbs / y.natAbs : Nat)
  wrap (if decide (x < 0) ≠ decide (y < 0) then -q else q)

/-- What division toward zero leaves over: it takes the sign of the dividend. -/
def remainder (x y : Int) : Int :=
  let r : Int := (x.natAbs % y.natAbs : Nat)
  if x < 0 then -r else r

def logicalShift (x : Int) (amount : Nat) : Int := (lowBits x >>> amount : Nat)

inductive ArithmeticError
  | zeroDivisor
  | negativeShift
  deriving DecidableEq

def quotient? (x y : Int) : Except ArithmeticError Int :=
  if y = 0 then .error .zeroDivisor else .ok (quotient x y)

def remainder? (x y : Int) : Except ArithmeticError Int :=
  if y = 0 then .error .zeroDivisor else .ok (remainder x y)

def logicalShift? (x amount : Int) : Except ArithmeticError Int :=
  if amount < 0 then .error .negativeShift else .ok (logicalShift x amount.toNat)

end ConstantFlow
