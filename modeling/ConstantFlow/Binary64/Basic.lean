namespace ConstantFlow

/-- The numbers `mantissa * 2 ^ exponent` with at most 53 bits of mantissa, and the infinities. -/
inductive Binary64
  | finite (negative : Bool) (mantissa : Nat) (exponent : Int)
  | infinite (negative : Bool)
  deriving DecidableEq

namespace Binary64

def mantissaBits : Nat := 53

def leastExponent : Int := -1074

def greatestExponent : Int := 971

/-- The whole number nearest to `num / den`, a half going to the even neighbour. -/
def roundHalfEven (num den : Nat) : Nat :=
  let q := num / den
  let twice := 2 * (num % den)
  if twice < den then q else if den < twice then q + 1 else if q % 2 = 0 then q else q + 1

def descale (num den : Nat) (e : Int) : Nat × Nat :=
  if 0 ≤ e then (num, den <<< e.toNat) else (num <<< (-e).toNat, den)

def stepExponent (num den : Nat) : Int :=
  let guess : Int := num.log2 - den.log2 - (mantissaBits - 1)
  let scaled := descale num den guess
  let full := if scaled.1 / scaled.2 < 1 <<< (mantissaBits - 1) then guess - 1 else guess
  max full leastExponent

/-- The number nearest to `num / den`, of two equally near ones that with the even mantissa. -/
def nearest (negative : Bool) (num den : Nat) : Binary64 :=
  if num = 0 then .finite negative 0 0
  else
    let e := stepExponent num den
    let scaled := descale num den e
    let m := roundHalfEven scaled.1 scaled.2
    let (m, e) := if m = 1 <<< mantissaBits then (1 <<< (mantissaBits - 1), e + 1) else (m, e)
    if m = 0 then .finite negative 0 0
    else if greatestExponent < e then .infinite negative else .finite negative m e

/-- How many decimal places away from the point a number may start and still be told from zero and infinity. -/
def decimalReach : Int := 400

def ofDecimal (negative : Bool) (digits : Nat) (exponent : Int) : Binary64 :=
  let magnitude : Int := (Nat.toDigits 10 digits).length + exponent
  if digits = 0 ∨ magnitude < -decimalReach then .finite negative 0 0
  else if decimalReach < magnitude then .infinite negative
  else if 0 ≤ exponent then nearest negative (digits * Nat.pow 10 exponent.toNat) 1
  else nearest negative digits (Nat.pow 10 (-exponent).toNat)

def toRat? : Binary64 → Option Rat
  | .finite negative m e =>
    let size : Rat := if 0 ≤ e then (m : Rat) * 2 ^ e.toNat else (m : Rat) / 2 ^ (-e).toNat
    some (if negative then -size else size)
  | .infinite _ => none

def isZero : Binary64 → Bool
  | .finite _ m _ => m = 0
  | .infinite _ => false

end Binary64

end ConstantFlow
