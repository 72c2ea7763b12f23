import ConstantFlow.Binary64.Basic

namespace ConstantFlow.Binary64

/-- The decimals that read back as `m * 2 ^ e` lie between `low` and `high`, in quarters of a step. -/
structure Reach where
  low : Nat
  middle : Nat
  high : Nat
  closed : Bool

def reach (m : Nat) (e : Int) : Reach where
  low := if m = 1 <<< (mantissaBits - 1) ∧ leastExponent < e then 4 * m - 1 else 4 * m - 2
  middle := 4 * m
  high := 4 * m + 2
  closed := m % 2 = 0

/-- The two neighbours of the number on the grid of multiples of `10 ^ k`, if they read back, with their
distances. `unit` is a quarter of a step over `10 ^ k`, as a fraction. -/
def candidates (r : Reach) (unit : Nat × Nat) : List (Nat × Nat) :=
  let d := r.middle * unit.1 / unit.2
  let readsBack (x : Nat) : Bool :=
    let y := x * unit.2
    if r.closed then r.low * unit.1 ≤ y ∧ y ≤ r.high * unit.1 else r.low * unit.1 < y ∧ y < r.high * unit.1
  let gap (x : Nat) : Nat := Int.natAbs (x * unit.2 - r.middle * unit.1 : Int)
  ([d, d + 1].filter readsBack).map fun x ↦ (x, gap x)

def choose : List (Nat × Nat) → Option Nat
  | [] => none
  | [a] => some a.1
  | a :: b :: _ =>
    if a.2 < b.2 then some a.1 else if b.2 < a.2 then some b.1
    else if a.1 % 2 = 0 then some a.1 else some b.1

def unitOver (e k : Int) : Nat × Nat :=
  let num := if 0 ≤ e - 2 then 1 <<< (e - 2).toNat else 1
  let den := if 0 ≤ e - 2 then 1 else 1 <<< (2 - e).toNat
  if 0 ≤ k then (num, den * Nat.pow 10 k.toNat) else (num * Nat.pow 10 (-k).toNat, den)

/-- The first decimal place at which a candidate reads back, going to finer grids. -/
def search (m : Nat) (e : Int) : Nat → Int → Nat × Int
  | 0, k => (m, k)
  | fuel + 1, k =>
    match choose (candidates (reach m e) (unitOver e k)) with
    | some d => if d = 0 then search m e fuel (k - 1) else (d, k)
    | none => search m e fuel (k - 1)

def pointPlace (m : Nat) (e : Int) : Int :=
  if 0 ≤ e then (Nat.toDigits 10 (m <<< e.toNat)).length
  else
    let shift := (-e).toNat
    let whole := m >>> shift
    if whole ≠ 0 then (Nat.toDigits 10 whole).length
    else (Nat.toDigits 10 ((m * Nat.pow 10 shift) >>> shift)).length - shift

/-- The shortest digits of `m * 2 ^ e`, and the place of the point among them: `d * 10 ^ k`. -/
def shortest (m : Nat) (e : Int) : Nat × Int := search m e 20 (pointPlace m e)

structure Spelling where
  leastPoint : Int
  greatestPoint : Int
  exponentDigits : Nat

def spelling : Spelling := ⟨-3, 16, 2⟩

def trimZeros (digits : List Char) : List Char := (digits.reverse.dropWhile (· = '0')).reverse

def spell (s : Spelling) (digits : List Char) (point : Int) : List Char :=
  if point < s.leastPoint ∨ s.greatestPoint < point then
    let exponent := point - 1
    let places := (Nat.toDigits 10 exponent.natAbs).leftpad s.exponentDigits '0'
    let fraction := if digits.length ≤ 1 then [] else '.' :: digits.drop 1
    digits.take 1 ++ fraction ++ ('e' :: (if exponent < 0 then '-' else '+') :: places)
  else if point ≤ 0 then '0' :: '.' :: (List.replicate (-point).toNat '0' ++ digits)
  else
    let whole := digits.take point.toNat
    let fraction := digits.drop point.toNat
    whole ++ List.replicate (point.toNat - whole.length) '0' ++
      ('.' :: if fraction.isEmpty then ['0'] else fraction)

def text : Binary64 → String
  | .infinite negative => if negative then "-inf" else "inf"
  | .finite negative m e =>
    let body :=
      if m = 0 then ['0', '.', '0']
      else
        let (d, k) := shortest m e
        let digits := Nat.toDigits 10 d
        spell spelling (trimZeros digits) (digits.length + k)
    String.ofList (if negative then '-' :: body else body)

end ConstantFlow.Binary64
